import Photon.Qdrant.Backoff

/-!
Which failures of a request to Qdrant lead to another one. The requests of a call are counted
along the loop of `doJSON`, and its result is that of the last attempt. A transport error is
retried if it is a timeout. Every error of `http.Client.Do` is a `*url.Error` and by that a
`net.Error`, so that the texts in `isRetryableNetErr` are never looked for in one.
-/

namespace Photon.Qdrant

open Photon.Lib

variable (unmarshal : Option (Bytes → Option String))

/-- `unmarshal` reads a body into `out`, if there is one, and may fail with a message. -/
def decodeJSONBody (body : Bytes) : Option String :=
  match unmarshal with
  | none => none
  | some read => if trimSpace body = [] then none else read body

def decodeAnswer :
    Except RetryError Bytes → Except RetryError Unit
  | .error e => .error e
  | .ok body =>
    match decodeJSONBody unmarshal body with
    | some message => .error (.other message)
    | none => .ok ()

def RestClient.returned (truncate : Float → Int64) (c : RestClient) (world : World)
    (unmarshal : Option (Bytes → Option String)) : Except RetryError Unit :=
  decodeAnswer unmarshal (c.doJSON truncate world).result

def Outcome.Succeeds : Outcome → Prop
  | .answered statusCode body =>
    (200 ≤ statusCode ∧ statusCode < 300) ∧ decodeJSONBody unmarshal body = none
  | _ => False

def Outcome.error : Outcome → RetryError
  | .failed _ message => .transport message
  | .unread _ _ message => .transport message
  | .answered statusCode body =>
    (qdrantStatusError statusCode body).getD
      (.other ((decodeJSONBody unmarshal body).getD "qdrant: request failed"))

/-- What the loop makes of an outcome, in the terms of the contract. -/
theorem verdict_cases (outcome : Outcome) :
    (∃ body, outcome.verdict = .done body ∧ ¬ outcome.Retryable ∧
      (outcome.Succeeds unmarshal ↔ decodeJSONBody unmarshal body = none) ∧
      ∀ message, decodeJSONBody unmarshal body = some message →
        outcome.error unmarshal = .other message) ∨
    (outcome.verdict = .stop (outcome.error unmarshal) ∧ ¬ outcome.Retryable ∧
      ¬ outcome.Succeeds unmarshal) ∨
    (outcome.verdict = .retry (outcome.error unmarshal) ∧ outcome.Retryable ∧
      ¬ outcome.Succeeds unmarshal) := by
  cases outcome with
  | failed retryable message =>
    cases retryable with
    | false => exact .inr (.inl ⟨rfl, Bool.false_ne_true, id⟩)
    | true => exact .inr (.inr ⟨rfl, rfl, id⟩)
  | unread statusCode retryable message =>
    by_cases hretry : statusCode ≠ 0 ∨ retryable = true
    · exact .inr (.inr ⟨if_pos hretry, hretry, id⟩)
    · exact .inr (.inl ⟨if_neg hretry, hretry, id⟩)
  | answered statusCode body =>
    simp only [Outcome.Retryable, Outcome.Succeeds, Outcome.error, Outcome.verdict,
      qdrantStatusError, isRetryableStatus]
    by_cases hok : 200 ≤ statusCode ∧ statusCode < 300
    · refine .inl ⟨body, by rw [if_pos hok], by omega, by simp [hok], fun message hmessage => ?_⟩
      simp [hok, hmessage]
    · by_cases hretry : statusCode = 429 ∨ 500 ≤ statusCode
      · exact .inr (.inr (by simp [hok, hretry]))
      · exact .inr (.inl (by simp [hok, hretry]))

def World.GoesOn (world : World) (k : ℕ) : Prop :=
  (world.outcome k).Retryable ∧ world.interrupted k = none

/-- What the loop ends with at its last attempt. -/
def World.finish (world : World) (last : Bool) (k : ℕ) : Except RetryError Bytes :=
  match (world.outcome k).verdict with
  | .done body => .ok body
  | .stop e => .error e
  | .retry e => .error (if last then e else ((world.interrupted k).map .context).getD e)

section Loop

variable (truncate : Float → Int64) (c : RestClient) (world : World)

/-- The loop goes on behind all its requests but the last one, and ends with that one's result.
Behind that one it sleeps only if another request were possible and due. -/
theorem attempts_spec (remaining attempt : ℕ) :
    ∃ m ≤ remaining, (∀ j < m, world.GoesOn (attempt + j)) ∧
      (m < remaining → ¬ world.GoesOn (attempt + m)) ∧
      (c.attempts truncate world (remaining + 1) attempt).sent = m + 1 ∧
      (c.attempts truncate world (remaining + 1) attempt).result =
        world.finish (decide (m = remaining)) (attempt + m) ∧
      (c.attempts truncate world (remaining + 1) attempt).delays =
        (List.range' attempt
          (if (world.outcome (attempt + m)).Retryable ∧ m < remaining then m + 1 else m)).map
            fun n => c.backoff truncate (world.random n) n := by
  induction remaining generalizing attempt with
  | zero =>
    refine ⟨0, le_rfl, by simp, by simp, ?_⟩
    rw [RestClient.attempts, World.finish]
    cases (world.outcome attempt).verdict <;> simp
  | succ remaining ih =>
    by_cases hgoes : world.GoesOn attempt
    · obtain ⟨m, hm, hbefore, hlast, hsent, hresult, hdelays⟩ := ih (attempt + 1)
      obtain ⟨e, hretry⟩ := (retryable_iff _).mp hgoes.1
      rw [Nat.add_right_comm, Nat.add_assoc] at hlast hresult hdelays
      refine ⟨m + 1, by omega, ?_, fun hlt => hlast (by omega), ?_⟩
      · intro j hj
        cases j with
        | zero => exact hgoes
        | succ j => exact Nat.add_right_comm attempt 1 j ▸ hbefore j (by omega)
      · rw [RestClient.attempts, hretry]
        simp only [Nat.succ_ne_zero, if_false, hgoes.2]
        rw [hsent, hresult, hdelays]
        simp only [Nat.add_lt_add_iff_right, Nat.add_right_cancel_iff, true_and]
        split_ifs <;> rfl
    · refine ⟨0, Nat.zero_le _, by simp, fun _ => hgoes, ?_⟩
      rw [RestClient.attempts, World.finish]
      have hretry := retryable_iff (world.outcome attempt)
      cases hverdict : (world.outcome attempt).verdict with
      | done | stop => simp [hretry, hverdict]
      | retry e =>
        cases hcut : world.interrupted attempt with
        | none => exact absurd ⟨hretry.mpr ⟨e, hverdict⟩, hcut⟩ hgoes
        | some message => simp [hretry, hverdict]

theorem sent_le : (c.doJSON truncate world).sent ≤ c.retryMaxAttempts.toInt.toNat := by
  rw [RestClient.doJSON]
  cases c.retryMaxAttempts.toInt.toNat with
  | zero => exact le_rfl
  | succ remaining =>
    obtain ⟨m, hm, -, -, hsent, -⟩ := attempts_spec truncate c world remaining 1
    omega

/-- A further request is sent just if the loop goes on behind all attempts before. -/
theorem lt_sent_iff (k : ℕ) :
    k < (c.doJSON truncate world).sent ↔
      k < c.retryMaxAttempts.toInt.toNat ∧ ∀ j, 0 < j → j ≤ k → world.GoesOn j := by
  rw [RestClient.doJSON]
  cases c.retryMaxAttempts.toInt.toNat with
  | zero => simp [RestClient.attempts]
  | succ remaining =>
    obtain ⟨m, hm, hbefore, hlast, hsent, -⟩ := attempts_spec truncate c world remaining 1
    rw [hsent]
    refine ⟨fun hk => ⟨by omega, fun j hpos hj => ?_⟩, fun ⟨hk, hgoes⟩ => ?_⟩
    · have hgoes := hbefore (j - 1) (by omega)
      rwa [Nat.add_sub_cancel' hpos] at hgoes
    · by_contra hle
      exact hlast (by omega) (hgoes (1 + m) (by omega) (by omega))

/-- A call sleeps behind each request that it repeats, and behind the last one if that may be
repeated and is not the last possible one. -/
theorem RestClient.doJSON_delays :
    ∃ k, k ≤ c.retryMaxAttempts.toInt.toNat - 1 ∧
      (c.doJSON truncate world).delays =
        ((List.range' 1 k).map fun n => c.backoff truncate (world.random n) n) ∧
      k = let sent := (c.doJSON truncate world).sent
        if (world.outcome sent).Retryable ∧ sent < c.retryMaxAttempts.toInt.toNat then sent
        else sent - 1 := by
  rw [RestClient.doJSON]
  cases c.retryMaxAttempts.toInt.toNat with
  | zero => exact ⟨0, le_rfl, rfl, by simp [RestClient.attempts]⟩
  | succ remaining =>
    obtain ⟨m, hm, -, -, hsent, -, hdelays⟩ := attempts_spec truncate c world remaining 1
    refine ⟨_, ?_, hdelays, ?_⟩
    · split_ifs <;> omega
    · simp [hsent, Nat.add_comm 1 m]

end Loop

/-- The contract of a call that makes at most `attempts` attempts, has sent `sent` requests and
returned `result`. -/
structure World.Contract (world : World) (unmarshal : Option (Bytes → Option String))
    (retryable : Outcome → Prop) (attempts sent : ℕ) (result : Except RetryError Unit) : Prop where
  bounds : sent ≤ attempts ∧ (0 < attempts → 0 < sent)
  onlyAfter : ∀ k, 0 < k → k < sent → retryable (world.outcome k) ∧ world.interrupted k = none
  nil_iff : result = .ok () ↔ ∃ k, 0 < k ∧ k ≤ sent ∧ (world.outcome k).Succeeds unmarshal
  isLast : ∀ k, 0 < k → k ≤ sent → (world.outcome k).Succeeds unmarshal → k = sent
  cancelled : 0 < sent → retryable (world.outcome sent) → sent < attempts →
    ∃ message, world.interrupted sent = some message ∧ result = .error (.context message)
  failed : 0 < sent → ¬ (world.outcome sent).Succeeds unmarshal →
    ¬ (retryable (world.outcome sent) ∧ sent < attempts) →
    result = .error ((world.outcome sent).error unmarshal)

theorem not_retryable_of_succeeds {unmarshal : Option (Bytes → Option String)} {outcome : Outcome}
    (h : outcome.Succeeds unmarshal) : ¬ outcome.Retryable := by
  rcases verdict_cases unmarshal outcome with ⟨_, _, hnot, _⟩ | ⟨_, hnot, _⟩ | ⟨_, _, hfails⟩
  · exact hnot
  · exact hnot
  · exact absurd h hfails

/-- What a call returns behind its last request: it was the last attempt, or is not repeated. -/
theorem finish_spec {world : World} {final : Bool} {k : ℕ}
    (unmarshal : Option (Bytes → Option String)) (hstop : final = false → ¬ world.GoesOn k) :
    let result := decodeAnswer unmarshal (world.finish final k)
    (result = .ok () ↔ (world.outcome k).Succeeds unmarshal) ∧
      ((world.outcome k).Retryable → final = false →
        ∃ message, world.interrupted k = some message ∧ result = .error (.context message)) ∧
      (¬ (world.outcome k).Succeeds unmarshal → ¬ ((world.outcome k).Retryable ∧ final = false) →
        result = .error ((world.outcome k).error unmarshal)) := by
  intro result
  have hresult : result = decodeAnswer unmarshal (world.finish final k) := rfl
  rw [World.finish] at hresult
  rcases verdict_cases unmarshal (world.outcome k) with
    ⟨body, hverdict, hnot, hsucceeds, herror⟩ | ⟨hverdict, hnot, hfails⟩ |
      ⟨hverdict, hretry, hfails⟩
  · rw [hverdict] at hresult
    cases hdecode : decodeJSONBody unmarshal body with
    | none =>
      rw [decodeAnswer, hdecode] at hresult
      exact ⟨iff_of_true hresult (hsucceeds.mpr hdecode), fun hretry => absurd hretry hnot,
        fun hs => absurd (hsucceeds.mpr hdecode) hs⟩
    | some message =>
      rw [decodeAnswer, hdecode] at hresult
      refine ⟨iff_of_false ?_ ?_, fun hretry => absurd hretry hnot,
        fun _ _ => by rw [herror message hdecode, hresult]⟩
      · simp [hresult]
      · simp [hsucceeds, hdecode]
  · rw [hverdict] at hresult
    exact ⟨iff_of_false (by simp [hresult, decodeAnswer]) hfails,
      fun hretry => absurd hretry hnot, fun _ _ => hresult⟩
  · rw [hverdict] at hresult
    dsimp only at hresult
    refine ⟨iff_of_false (by simp [hresult, decodeAnswer]) hfails, fun _ hfinal => ?_,
      fun _ hend => ?_⟩
    · obtain ⟨message, hmessage⟩ := Option.ne_none_iff_exists'.mp fun hnone =>
        hstop hfinal ⟨hretry, hnone⟩
      refine ⟨message, hmessage, ?_⟩
      rw [hresult, hmessage, hfinal]
      rfl
    · cases final with
      | true => exact hresult
      | false => exact absurd ⟨hretry, rfl⟩ hend

/-- Every call of `doJSON` meets its contract, with the failures that it retries. -/
theorem doJSON_contract (truncate : Float → Int64) (c : RestClient) (world : World)
    (unmarshal : Option (Bytes → Option String)) :
    world.Contract unmarshal Outcome.Retryable c.retryMaxAttempts.toInt.toNat
      (c.doJSON truncate world).sent (c.returned truncate world unmarshal) := by
  have hle := sent_le truncate c world
  have hgoes : ∀ k, 0 < k → k < (c.doJSON truncate world).sent → world.GoesOn k :=
    fun k hpos hlt => ((lt_sent_iff truncate c world k).mp hlt).2 k hpos le_rfl
  have hlast : ∀ k, 0 < k → k ≤ (c.doJSON truncate world).sent →
      (world.outcome k).Succeeds unmarshal → k = (c.doJSON truncate world).sent := by
    intro k hpos hle hsucceeds
    rcases hle.lt_or_eq with hlt | heq
    · exact absurd (hgoes k hpos hlt).1 (not_retryable_of_succeeds hsucceeds)
    · exact heq
  rw [RestClient.returned]
  rw [RestClient.doJSON] at *
  generalize c.retryMaxAttempts.toInt.toNat = attempts at *
  cases attempts with
  | zero =>
    refine ⟨⟨le_rfl, id⟩, hgoes, ?_, hlast, fun hpos => absurd hpos (lt_irrefl 0),
      fun hpos => absurd hpos (lt_irrefl 0)⟩
    simp only [RestClient.attempts, decodeAnswer, reduceCtorEq, false_iff]
    omega
  | succ remaining =>
    obtain ⟨m, hm, -, hstop, hsent, hresult, -⟩ := attempts_spec truncate c world remaining 1
    rw [Nat.add_comm 1] at hstop hresult
    rw [hsent] at hgoes hlast hle ⊢
    rw [hresult]
    have hfinal : decide (m = remaining) = false ↔ m + 1 < remaining + 1 := by
      rw [decide_eq_false_iff_not]
      omega
    obtain ⟨hok, hcut, hfailed⟩ :=
      finish_spec unmarshal fun hnot => hstop (Nat.lt_of_succ_lt_succ (hfinal.mp hnot))
    refine ⟨⟨hle, fun _ => Nat.succ_pos m⟩, hgoes, hok.trans ⟨fun hs => ?_, ?_⟩, hlast,
      fun _ hretry hlt => hcut hretry (hfinal.mpr hlt),
      fun _ hfails hend => hfailed hfails fun hnot => hend ⟨hnot.1, hfinal.mp hnot.2⟩⟩
    · exact ⟨m + 1, Nat.succ_pos m, le_rfl, hs⟩
    · rintro ⟨k, hpos, hk, hs⟩
      exact hlast k hpos hk hs ▸ hs

/-- The answers are all refused with the same status. -/
def refusing (statusCode : ℕ) : World where
  outcome := fun _ => .answered statusCode []
  random := fun _ => none
  interrupted := fun _ => none

/-- The failures that are retried by their names: the status 429 and those from 500 to 599. -/
def Outcome.NamedRetryable : Outcome → Prop
  | .answered statusCode _ => statusCode = 429 ∨ 500 ≤ statusCode ∧ statusCode < 600
  | outcome => outcome.Retryable

/-- The status 600 is retried as well. -/
theorem status_600_retried :
    ((steadyClient 2).doJSON (fun _ => 0) (refusing 600)).sent = 2 ∧
      ∀ result, ¬ (refusing 600).Contract none Outcome.NamedRetryable 2
        ((steadyClient 2).doJSON (fun _ => 0) (refusing 600)).sent result := by
  have hsent : ((steadyClient 2).doJSON (fun _ => 0) (refusing 600)).sent = 2 := rfl
  refine ⟨hsent, fun result h => ?_⟩
  have hretry := (h.onlyAfter 1 Nat.one_pos (by rw [hsent]; decide)).1
  simp [refusing, Outcome.NamedRetryable] at hretry

/-! ### Transport errors -/

/-- The error below a `*url.Error`: its text, and what its `Timeout` method says if it has one. -/
structure Cause where
  text : String
  timeout : Option Bool

structure URLError where
  op : String
  quotedURL : String
  cause : Cause

def URLError.text (e : URLError) : String := e.op ++ " " ++ e.quotedURL ++ ": " ++ e.cause.text

def URLError.timeout (e : URLError) : Bool := e.cause.timeout.getD false

/-- An error as `errors.As` finds it: with the `net.Error` of its chain, or without one. -/
inductive GoError where
  | net (text : String) (timeout : Bool)
  | plain (text : String)

/-- A `*url.Error` has the methods of a `net.Error`. -/
def URLError.toError (e : URLError) : GoError := .net e.text e.timeout

def mentions (lower : String → String) (text : String) (words : List String) : Prop :=
  ∃ word ∈ words, word.toList <:+: (lower text).toList

instance (lower : String → String) (text : String) (words : List String) :
    Decidable (mentions lower text words) := inferInstanceAs (Decidable (∃ word ∈ words, _))

/-- `lower` stands for `strings.ToLower`. -/
def isRetryableNetErr (lower : String → String) : GoError → Bool
  | .net _ timeout => timeout
  | .plain text => mentions lower text ["connection reset", "broken pipe", "timeout",
      "tls handshake", "connection refused"]

/-- The words for a dropped connection. -/
def dropped : List String :=
  ["connection reset", "broken pipe", "tls handshake", "connection refused"]

/-- An attempt that fails with an error of `http.Client.Do` and is not the last one. That another
request follows a timeout or a dropped connection holds exactly when the dropped connection is a
timeout. -/
theorem dropped_connection_retried_iff (lower : String → String) (truncate : Float → Int64)
    (c : RestClient) (world : World) (e : URLError) {k : ℕ} (hpos : 0 < k)
    (hmade : k ≤ (c.doJSON truncate world).sent) (hless : k < c.retryMaxAttempts.toInt.toNat)
    (hfailed : world.outcome k = .failed (isRetryableNetErr lower e.toError) e.text)
    (hlive : world.interrupted k = none) :
    (e.timeout = true ∨ mentions lower e.cause.text dropped →
        k < (c.doJSON truncate world).sent) ↔
      (mentions lower e.cause.text dropped → e.timeout = true) := by
  have hmore : k < (c.doJSON truncate world).sent ↔ e.timeout = true := by
    rw [lt_sent_iff]
    refine ⟨fun h => ?_, fun htimeout => ⟨hless, fun j hj hle => ?_⟩⟩
    · have hretry := (h.2 k hpos le_rfl).1
      rwa [hfailed] at hretry
    · rcases hle.lt_or_eq with hlt | rfl
      · exact ((lt_sent_iff truncate c world j).mp (by omega)).2 j hj le_rfl
      · refine ⟨?_, hlive⟩
        rw [hfailed]
        exact htimeout
  rw [hmore]
  exact ⟨fun h hmentions => h (.inr hmentions), fun h hor => hor.elim id h⟩

def failing (e : URLError) : World where
  outcome := fun _ => .failed (isRetryableNetErr id e.toError) e.text
  random := fun _ => none
  interrupted := fun _ => none

def dialTimeout : URLError := ⟨"Get", "\"http://db:6333/\"", "i/o timeout", some true⟩

/-- The error of a connection that the server has reset. -/
def resetByPeer : URLError :=
  ⟨"Get", "\"http://db:6333/\"", "read: connection reset by peer", some false⟩

theorem dial_timeout_retried :
    1 < ((steadyClient 3).doJSON (fun _ => 0) (failing dialTimeout)).sent :=
  (dropped_connection_retried_iff id (fun _ => 0) (steadyClient 3) (failing dialTimeout) dialTimeout
    Nat.one_pos (by decide) (by decide) rfl rfl).mpr (fun _ => rfl) (.inl rfl)

theorem reset_not_retried :
    mentions id resetByPeer.cause.text dropped ∧
      ((steadyClient 3).doJSON (fun _ => 0) (failing resetByPeer)).sent = 1 := by
  exact ⟨by decide, rfl⟩

end Photon.Qdrant
