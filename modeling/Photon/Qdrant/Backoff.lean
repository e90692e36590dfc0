import Photon.Lib.Binary64
import Photon.Lib.MachineInt
import Photon.Qdrant.Client

/-!
The retries of the Qdrant client. A failed attempt is repeated after a delay that doubles from one
attempt to the next. The doubled delay is a product in 64 bits that is limited only afterwards, so
that it is out of range from the first attempt on for which the product does not fit. Without
jitter the delays of all attempts are in range just if the product fits for the last one.
-/

namespace Photon.Qdrant

open Photon.Lib

/-- `cryptoFloat64` of the eight bytes that were read, or of a failed read. -/
def cryptoFloat64 : Option UInt64 → Float
  | none => 1
  | some bits => Binary64.ofInt bits.toNat / Binary64.ofInt (2 ^ 64 - 1)

/-- The first attempt has number 1. What a float makes as a duration that it does not fit into is
not determined, so `truncate` is any conversion. -/
def RestClient.backoff (truncate : Float → Int64) (c : RestClient) (random : Option UInt64)
    (attempt : ℕ) : Int64 :=
  let d := c.retryBaseDelay * shlI64 1 (attempt - 1)
  let d := if c.retryMaxDelay < d then c.retryMaxDelay else d
  if 0 < c.retryJitter then
    let j := (cryptoFloat64 random * 2 - 1) * c.retryJitter
    let d := truncate (Binary64.ofInt d.toInt * (1 + j))
    if d < 0 then 0 else d
  else d

/-! ### The loop over the attempts -/

/-- `lastErr`: what the transport, the context or the server says. -/
inductive RetryError where
  | transport (message : String)
  | context (message : String)
  | status (mapped : Option String) (statusCode : ℕ) (body : Bytes)
  | other (message : String)

/-- What `doRequest` returns: no response, a response whose body could not be read, or a
response. Of an error it is known whether `isRetryableNetErr` takes it. -/
inductive Outcome where
  | failed (retryable : Bool) (message : String)
  | unread (statusCode : ℕ) (retryable : Bool) (message : String)
  | answered (statusCode : ℕ) (body : Bytes)

def mapHTTPStatus (code : ℕ) : Option String :=
  if code = 401 then some "qdrant: unauthorized"
  else if code = 403 then some "qdrant: forbidden"
  else if code = 404 then some "qdrant: not found"
  else if code = 400 then some "qdrant: bad request"
  else if code = 409 then some "qdrant: conflict"
  else if code = 429 then some "qdrant: rate limited"
  else if 500 ≤ code then some "qdrant: server error"
  else none

def qdrantStatusError (statusCode : ℕ) (body : Bytes) : Option RetryError :=
  if 200 ≤ statusCode ∧ statusCode < 300 then none
  else some (.status (mapHTTPStatus statusCode) statusCode body)

def isRetryableStatus (statusCode : ℕ) : Bool := statusCode = 429 || 500 ≤ statusCode

inductive Verdict where
  | done (body : Bytes)
  | stop (e : RetryError)
  | retry (e : RetryError)

def Outcome.verdict : Outcome → Verdict
  | .failed retryable message =>
    if retryable then .retry (.transport message) else .stop (.transport message)
  -- a status 000 is taken for no response
  | .unread statusCode retryable message =>
    if statusCode ≠ 0 ∨ retryable then .retry (.transport message)
    else .stop (.transport message)
  | .answered statusCode body =>
    match qdrantStatusError statusCode body with
    | none => .done body
    | some e => if isRetryableStatus statusCode then .retry e else .stop e

/-- What happens around the attempts: the answers to them, the random bytes, and the error of the
context while a delay is slept. -/
structure World where
  outcome : ℕ → Outcome
  random : ℕ → Option UInt64
  interrupted : ℕ → Option String

/-- The number of requests, the delays that are begun, and the body or the error that the loop ends
with. -/
structure Attempts where
  sent : ℕ
  delays : List Int64
  result : Except RetryError Bytes

def RestClient.attempts (truncate : Float → Int64) (c : RestClient) (world : World) :
    ℕ → ℕ → Attempts
  | 0, _ => ⟨0, [], .error (.other "qdrant: request failed")⟩
  | remaining + 1, attempt =>
    match (world.outcome attempt).verdict with
    | .done body => ⟨1, [], .ok body⟩
    | .stop e => ⟨1, [], .error e⟩
    | .retry e =>
      if remaining = 0 then ⟨1, [], .error e⟩
      else
        let delay := c.backoff truncate (world.random attempt) attempt
        match world.interrupted attempt with
        | some message => ⟨1, [delay], .error (.context message)⟩
        | none =>
          let rest := c.attempts truncate world remaining (attempt + 1)
          ⟨rest.sent + 1, delay :: rest.delays, rest.result⟩

/-- `doJSON` up to the decoding of the body. -/
def RestClient.doJSON (truncate : Float → Int64) (c : RestClient) (world : World) : Attempts :=
  c.attempts truncate world c.retryMaxAttempts.toInt.toNat 1

def Outcome.Retryable : Outcome → Prop
  | .failed retryable _ => retryable = true
  | .unread statusCode retryable _ => statusCode ≠ 0 ∨ retryable = true
  | .answered statusCode _ => statusCode = 429 ∨ 500 ≤ statusCode

instance : DecidablePred Outcome.Retryable
  | .failed _ _ => inferInstanceAs (Decidable (_ = true))
  | .unread _ _ _ => inferInstanceAs (Decidable (_ ∨ _))
  | .answered _ _ => inferInstanceAs (Decidable (_ ∨ _))

theorem retryable_iff (outcome : Outcome) :
    outcome.Retryable ↔ ∃ e, outcome.verdict = .retry e := by
  cases outcome with
  | failed retryable message =>
    cases retryable <;> simp [Outcome.Retryable, Outcome.verdict]
  | unread statusCode retryable message =>
    rw [Outcome.Retryable, Outcome.verdict]
    split_ifs with h <;> simp [h]
  | answered statusCode body =>
    by_cases hok : 200 ≤ statusCode ∧ statusCode < 300
    · simp [Outcome.Retryable, Outcome.verdict, qdrantStatusError, hok]
      omega
    · by_cases hretry : statusCode = 429 ∨ 500 ≤ statusCode <;>
        simp [Outcome.Retryable, Outcome.verdict, qdrantStatusError, isRetryableStatus, hok, hretry]

/-! ### The delays -/

section Delays

variable (truncate : Float → Int64) {c : RestClient}

def RestClient.doubled (c : RestClient) (attempt : ℕ) : ℤ :=
  c.retryBaseDelay.toInt * 2 ^ (attempt - 1)

theorem RestClient.toInt_backoff (hjitter : ¬0 < c.retryJitter) (random : Option UInt64)
    (attempt : ℕ) :
    (c.backoff truncate random attempt).toInt =
      min (wrapI64 (c.doubled attempt)) c.retryMaxDelay.toInt := by
  have hproduct : (c.retryBaseDelay * shlI64 1 (attempt - 1)).toInt =
      wrapI64 (c.doubled attempt) := toInt_mul_shlI64_one _ _
  rw [backoff, if_neg hjitter]
  split_ifs with hlimit
  · rw [Int64.lt_iff_toInt_lt, hproduct] at hlimit
    exact (min_eq_right hlimit.le).symm
  · rw [Int64.lt_iff_toInt_lt, hproduct, not_lt] at hlimit
    rw [hproduct]
    exact (min_eq_left hlimit).symm

theorem RestClient.doubled_mono (hbase : 0 < c.retryBaseDelay.toInt) {n m : ℕ} (h : n ≤ m) :
    c.doubled n ≤ c.doubled m := by
  rw [doubled, doubled]
  gcongr
  · exact one_le_two

theorem RestClient.doubled_one : c.doubled 1 = c.retryBaseDelay.toInt := by
  simp [doubled]

theorem RestClient.doubled_succ {n : ℕ} (hn : 1 ≤ n) : c.doubled (n + 1) = 2 * c.doubled n := by
  obtain ⟨m, rfl⟩ := Nat.exists_eq_add_of_le' hn
  rw [doubled, doubled, Nat.add_sub_cancel, Nat.add_sub_cancel, pow_succ]
  ring

/-- Without an overflow the delay is the doubled one, limited. -/
theorem RestClient.toInt_backoff_of_fits (hjitter : ¬0 < c.retryJitter)
    (hbase : 0 < c.retryBaseDelay.toInt) {n : ℕ} (hfits : c.doubled n < 2 ^ 63)
    (random : Option UInt64) :
    (c.backoff truncate random n).toInt = min (c.doubled n) c.retryMaxDelay.toInt := by
  have hpos : 0 < c.doubled n := by
    rw [doubled]
    positivity
  rw [toInt_backoff truncate hjitter, wrapI64_of_bounds (by omega) hfits]

/-- The first delay that does not fit is negative. -/
theorem RestClient.backoff_neg (hjitter : ¬0 < c.retryJitter) {n : ℕ} (hn : 1 ≤ n)
    (hfits : c.doubled n < 2 ^ 63) (hover : 2 ^ 63 ≤ c.doubled (n + 1)) (random : Option UInt64) :
    (c.backoff truncate random (n + 1)).toInt < 0 := by
  have hdouble : c.doubled (n + 1) = 2 * c.doubled n := doubled_succ hn
  rw [toInt_backoff truncate hjitter]
  exact min_lt_of_left_lt (wrapI64_neg_of_overflow hover (by omega))

/-- Between two attempts, of which the second does not fit, there are two that do so for the first
time. -/
theorem RestClient.exists_first_overflow (hbase : 0 < c.retryBaseDelay.toInt)
    {last : ℕ} (hover : 2 ^ 63 ≤ c.doubled last) :
    ∃ n, 1 ≤ n ∧ n < last ∧ c.doubled n < 2 ^ 63 ∧ 2 ^ 63 ≤ c.doubled (n + 1) := by
  have hsmall : c.retryBaseDelay.toInt < 2 ^ 63 := c.retryBaseDelay.toInt_lt
  induction last with
  | zero =>
    rw [doubled, Nat.zero_sub, pow_zero, mul_one] at hover
    omega
  | succ last ih =>
    by_cases hlast : 2 ^ 63 ≤ c.doubled last
    · obtain ⟨n, hn, hlt, hfits, hnext⟩ := ih hlast
      exact ⟨n, hn, by omega, hfits, hnext⟩
    · refine ⟨last, ?_, Nat.lt_succ_self last, not_le.mp hlast, hover⟩
      by_contra hzero
      obtain rfl : last = 0 := by omega
      rw [doubled_one] at hover
      omega

end Delays

/-- The delays of the attempts before the last are between the smaller of the two settings and
the larger delay, and they do not get shorter. -/
def RestClient.DelaysInRange (truncate : Float → Int64) (c : RestClient) (base max : Int64) :
    Prop :=
  ∀ random next (n : ℕ), 1 ≤ n → (n : ℤ) < c.retryMaxAttempts.toInt →
    min base.toInt max.toInt ≤ (c.backoff truncate random n).toInt ∧
      (c.backoff truncate random n).toInt ≤ max.toInt ∧
      (c.backoff truncate random n).toInt ≤ (c.backoff truncate next (n + 1)).toInt

theorem positiveOr_of_pos {default setting : Int64} (h : 0 < setting) :
    positiveOr default setting = setting := by
  rw [positiveOr, if_neg]
  rw [Int64.le_iff_toInt_le]
  rw [Int64.lt_iff_toInt_lt] at h
  omega

/-- A jitter of zero is taken as it is. -/
theorem retryJitter_configured {cfg : ConnectionConfig} (h : (cfg.retryJitter == 0) = true)
    (baseURL : Bytes) : ¬0 < (RestClient.configured cfg baseURL).retryJitter := by
  obtain ⟨p, hjitter, hzero⟩ := (Binary64.beq_iff cfg.retryJitter 0).mp h
  have hsame : Binary64.toNumber cfg.retryJitter = Binary64.toNumber 0 := hjitter.trans hzero.symm
  have hleft : cfg.retryJitter < 0 ↔ (0 : Float) < 0 := by
    rw [Binary64.lt_iff, Binary64.lt_iff, hsame]
  have hright : ∀ x : Float, x < cfg.retryJitter ↔ x < 0 := by
    intro x
    rw [Binary64.lt_iff, Binary64.lt_iff, hsame]
  have hinside : ¬(cfg.retryJitter < 0 ∨ 1 < cfg.retryJitter) := by
    rw [hleft, hright, not_or]
    exact ⟨Binary64.not_zero_lt_zero, by decide⟩
  rw [RestClient.configured, if_neg hinside, hright]
  exact Binary64.not_zero_lt_zero

/-- With positive delays and no jitter, the delays are in range just if there is no second
attempt or the delay before the limit fits into 64 bits at the last attempt. -/
theorem retry_delays_in_range_iff (truncate : Float → Int64) (hosts : HostReader)
    {cfg : ConnectionConfig} {client : RestClient}
    (hclient : newRESTClient hosts (some cfg) = .ok client) (hbase : 0 < cfg.retryBaseDelay)
    (hmax : 0 < cfg.retryMaxDelay) (hjitter : (cfg.retryJitter == 0) = true) :
    client.DelaysInRange truncate cfg.retryBaseDelay cfg.retryMaxDelay ↔
      client.retryMaxAttempts.toInt ≤ 1 ∨
        cfg.retryBaseDelay.toInt * 2 ^ (client.retryMaxAttempts.toInt.toNat - 1) < 2 ^ 63 := by
  obtain ⟨baseURL, -, rfl⟩ := newRESTClient_ok hclient
  have hnone := retryJitter_configured hjitter baseURL
  generalize hc : RestClient.configured cfg baseURL = c at hnone ⊢
  have hbaseDelay : c.retryBaseDelay = cfg.retryBaseDelay := by
    rw [← hc]
    exact positiveOr_of_pos hbase
  have hmaxDelay : c.retryMaxDelay = cfg.retryMaxDelay := by
    rw [← hc]
    exact positiveOr_of_pos hmax
  rw [← hbaseDelay, ← hmaxDelay]
  rw [← hbaseDelay, Int64.lt_iff_toInt_lt, Int64.toInt_zero] at hbase
  rw [← hmaxDelay, Int64.lt_iff_toInt_lt, Int64.toInt_zero] at hmax
  constructor
  · intro hrange
    by_contra hover
    push Not at hover
    obtain ⟨hmore, hover⟩ := hover
    obtain ⟨n, hn, hlt, hfits, hnext⟩ := RestClient.exists_first_overflow hbase hover
    obtain ⟨hlow, -, hmono⟩ := hrange none none n hn (by omega)
    have hneg := RestClient.backoff_neg truncate hnone hn hfits hnext none
    have hpos : 0 < min c.retryBaseDelay.toInt c.retryMaxDelay.toInt := lt_min hbase hmax
    omega
  · intro hfits random next n hn hlast
    have hfits : c.doubled (n + 1) < 2 ^ 63 := by
      rcases hfits with hone | hfits
      · omega
      · exact (c.doubled_mono hbase (by omega)).trans_lt hfits
    have hmono : c.doubled n ≤ c.doubled (n + 1) := c.doubled_mono hbase (Nat.le_succ n)
    have hfirst : c.retryBaseDelay.toInt ≤ c.doubled n := by
      rw [← RestClient.doubled_one]
      exact c.doubled_mono hbase hn
    rw [RestClient.toInt_backoff_of_fits truncate hnone hbase (hmono.trans_lt hfits),
      RestClient.toInt_backoff_of_fits truncate hnone hbase hfits]
    exact ⟨min_le_min hfirst le_rfl, min_le_right _ _, min_le_min hmono le_rfl⟩

def steadyConfig (attempts : Int64) : ConnectionConfig :=
  ⟨ascii "http://db:6333", [], 0, 0, 0, attempts, 150000000, 2000000000, 0⟩

def steadyClient (attempts : Int64) : RestClient :=
  .configured (steadyConfig attempts) (ascii "http://db:6333")

theorem steadyClient_ok (attempts : Int64) :
    newRESTClient plainHosts (some (steadyConfig attempts)) = .ok (steadyClient attempts) := by
  have hne : trimSpace (ascii "http://db:6333") ≠ [] := by decide +kernel
  have hvalid : validateBaseURL plainHosts (trimSpace (ascii "http://db:6333")) =
      .ok (ascii "http://db:6333") := by decide +kernel
  rw [newRESTClient, steadyConfig, if_neg hne, hvalid]
  rfl

theorem ten_attempts_in_range :
    (steadyClient 10).DelaysInRange (fun _ => 0) 150000000 2000000000 :=
  (retry_delays_in_range_iff (fun _ => 0) plainHosts (steadyClient_ok 10) (by decide) (by decide)
    (by decide)).mpr (Or.inr (by decide))

/-- The delay after the 37th attempt of 38 is negative. -/
theorem attempt_37_negative :
    newRESTClient plainHosts (some (steadyConfig 38)) = .ok (steadyClient 38) ∧
      ((steadyClient 38).backoff (fun _ => 0) none 37).toInt = -8138822563309551616 ∧
      ¬(steadyClient 38).DelaysInRange (fun _ => 0) 150000000 2000000000 := by
  have hjitter : ¬0 < (steadyClient 38).retryJitter := retryJitter_configured (by decide) _
  have hdelay : ((steadyClient 38).backoff (fun _ => 0) none 37).toInt = -8138822563309551616 := by
    rw [RestClient.toInt_backoff _ hjitter]
    decide
  refine ⟨steadyClient_ok 38, hdelay, fun hrange => ?_⟩
  obtain ⟨hlow, -, -⟩ := hrange none none 37 (by decide) (by decide)
  rw [hdelay] at hlow
  exact absurd hlow (by decide)

end Photon.Qdrant
