import Photon.RateLimiter.RedisLimiter

/-!
The HTTP middleware of `middleware/rate_limiter.go` over the Redis limiter. A
denial of the script reaches Go as a nil reply, which go-redis reports as an
error, so it takes the path of a failed Redis.
-/

namespace Photon.Middleware

open Photon.Lib Photon.Redis Photon.RateLimiter

inductive InternalResponseCode where
  | tooManyRequests
  | internalServerError
deriving DecidableEq

def InternalResponseCode.text : InternalResponseCode → String
  | .tooManyRequests => "E429"
  | .internalServerError => "E500"

def InternalResponseCode.message : InternalResponseCode → String
  | .tooManyRequests => "Too Many Requests"
  | .internalServerError => "Internal Server Error"

structure ApiResponse where
  success : Bool
  code : String
  message : String
deriving DecidableEq

/-- `apiresponse.New` with an empty message. -/
def ApiResponse.new (success : Bool) (code : InternalResponseCode) : ApiResponse :=
  ⟨success, code.text, code.message⟩

inductive Outcome where
  | next
  | answered (status : Nat) (body : ApiResponse) (logged : Option String)
deriving DecidableEq

def extractClientKey (ip : String) : String := "ratelimit:http:" ++ ip

def afterAllow : Except String Bool → Outcome
  | .error e =>
    .answered 500 (.new false .internalServerError) (some ("Rate limiter error: " ++ e))
  | .ok false => .answered 429 (.new false .tooManyRequests) none
  | .ok true => .next

variable (ks : Keyspace) (lim : RedisLimiter)

def rateLimitMiddleware (ks : Keyspace) (now : Nat) (ip : String) (delivery : Delivery) :
    Keyspace × Outcome :=
  let out := lim.allow ks now (extractClientKey ip) delivery
  (out.1, afterAllow out.2)

def Usable (now : Nat) (key : String) : Prop :=
  match ks.read now key with
  | none => True
  | some ⟨.hash fields, _⟩ => fields "tokens" = none ∨ fields "last" ≠ none
  | some _ => False

def RedisFailed (now : Nat) (key : String) (delivery : Delivery) : Prop :=
  delivery ≠ .answered ∨ ¬ Usable ks now key

def liveBucket (now : Nat) (key : String) : Option Bucket :=
  match ks.read now key with
  | some ⟨.hash fields, _⟩ =>
    match fields "tokens", fields "last" with
    | some tokens, some lastRefill => some ⟨tokens, lastRefill⟩
    | _, _ => none
  | _ => none

def RefillDue (now : Nat) (bucket : Bucket) : Prop :=
  bucket.last < now ∧ 0 ≤ lim.refillInterval ∧ lim.refillInterval ≤ now - bucket.last

/-- A token is left after the refill. A zero interval refills without bound. -/
def TokenLeft (ks : Keyspace) (now : Nat) (key : String) : Prop :=
  match liveBucket ks now key with
  | none => 0 < lim.maxTokens
  | some bucket =>
    (¬ RefillDue lim now bucket ∧ 0 < bucket.tokens) ∨
      (RefillDue lim now bucket ∧ 0 < lim.maxTokens ∧
        (lim.refillInterval = 0 ∨
          0 < bucket.tokens + (now - bucket.last) / lim.refillInterval))

/-- A denial reaches the client as one, and `Allow` fails only with Redis. -/
def DenialReported (ks : Keyspace) (now : Nat) (ip : String) (delivery : Delivery) : Prop :=
  (¬ RedisFailed ks now (extractClientKey ip) delivery →
      ¬ TokenLeft lim ks now (extractClientKey ip) →
      (lim.allow ks now (extractClientKey ip) delivery).2 = .ok false ∧
        (rateLimitMiddleware lim ks now ip delivery).2 =
          .answered 429 (.new false .tooManyRequests) none) ∧
    ((∃ e, (lim.allow ks now (extractClientKey ip) delivery).2 = .error e) →
      RedisFailed ks now (extractClientKey ip) delivery)

variable {lim : RedisLimiter} {ks : Keyspace} {now : Nat} {key : String}

theorem findBucket_of_usable (h : Usable ks now key) (maxTokens : Int) :
    findBucket ks now key maxTokens now =
      .ok ((liveBucket ks now key).getD ⟨maxTokens, now⟩) := by
  unfold Usable at h
  unfold findBucket Keyspace.hmget liveBucket
  rcases hread : ks.read now key with _ | ⟨data, deadline⟩
  · rfl
  · rw [hread] at h
    cases data with
    | text | number => exact h.elim
    | hash fields =>
      simp only [Except.bind, List.map_cons, List.map_nil] at h ⊢
      rcases htokens : fields "tokens" with _ | tokens
      · rfl
      · rcases hlast : fields "last" with _ | lastRefill
        · simp [htokens, hlast] at h
        · rfl

/-- What a bucket with a passed interval or without one holds after the script's
refill. -/
theorem refillBucket_tokens (bucket : Bucket) :
    0 < (refillBucket lim.maxTokens lim.refillInterval now bucket).tokens ↔
      (¬ RefillDue lim now bucket ∧ 0 < bucket.tokens) ∨
        (RefillDue lim now bucket ∧ 0 < lim.maxTokens ∧
          (lim.refillInterval = 0 ∨
            0 < bucket.tokens + (now - bucket.last) / lim.refillInterval)) := by
  unfold RefillDue
  rcases lt_trichotomy lim.refillInterval 0 with hneg | hzero | hpos
  · have hnone : max 0 ((now : Int) - bucket.last) / lim.refillInterval ≤ 0 :=
      Int.ediv_nonpos_of_nonneg_of_nonpos (le_max_left _ _) hneg.le
    simp only [refillBucket, if_neg hneg.ne, if_neg (not_lt.mpr hnone)]
    omega
  · simp only [refillBucket, hzero, if_true, apply_ite Bucket.tokens, true_or, and_true]
    split <;> omega
  · rw [refillBucket_eq hpos]
    rcases lt_or_ge ((now : Int) - bucket.last) lim.refillInterval with hearly | hdue
    · rw [Bucket.refill_of_early hearly]
      omega
    · rw [Bucket.refill_of_due hdue]
      simp only [lt_min_iff]
      omega

theorem tokenLeft_iff :
    TokenLeft lim ks now key ↔ 0 < (refillBucket lim.maxTokens lim.refillInterval now
      ((liveBucket ks now key).getD ⟨lim.maxTokens, now⟩)).tokens := by
  unfold TokenLeft
  cases liveBucket ks now key with
  | none => simp [refillBucket]
  | some bucket => exact (refillBucket_tokens bucket).symm

/-- The answer of `Allow` when Redis does its part. -/
theorem allow_of_usable (h : Usable ks now key) :
    (lim.allow ks now key .answered).2 = readResult (cmdResult (.ok (luaReply
      (refillBucket lim.maxTokens lim.refillInterval now
        ((liveBucket ks now key).getD ⟨lim.maxTokens, now⟩)).take.2))) := by
  simp only [RedisLimiter.allow, RedisLimiter.runScript,
    getScript_reply (findBucket_of_usable h lim.maxTokens)]

/-- Without a token the caller gets the error of a nil reply. -/
theorem allow_without_token (h : Usable ks now key) (hnone : ¬ TokenLeft lim ks now key) :
    (lim.allow ks now key .answered).2 = .error "redis script error: redis: nil" := by
  have hdenied : (refillBucket lim.maxTokens lim.refillInterval now
      ((liveBucket ks now key).getD ⟨lim.maxTokens, now⟩)).take.2 = false :=
    Bool.eq_false_iff.mpr fun hyes => hnone (tokenLeft_iff.mpr (Bucket.take_granted.mp hyes))
  rw [allow_of_usable h, hdenied]
  rfl

theorem not_redisFailed {delivery : Delivery} (h : ¬ RedisFailed ks now key delivery) :
    delivery = .answered ∧ Usable ks now key := by
  unfold RedisFailed at h
  push Not at h
  exact h

/-- A denial is reported as one, and `Allow` fails only with Redis, exactly when
Redis failed or a token is left, that is when there is no denial to report. -/
theorem denial_reported_iff (lim : RedisLimiter) (ks : Keyspace) (now : Nat) (ip : String)
    (delivery : Delivery) :
    DenialReported lim ks now ip delivery ↔
      RedisFailed ks now (extractClientKey ip) delivery ∨
        TokenLeft lim ks now (extractClientKey ip) := by
  constructor
  · intro hreported
    by_contra hneither
    obtain ⟨hworks, hnone⟩ := not_or.mp hneither
    obtain ⟨rfl, husable⟩ := not_redisFailed hworks
    have hdenied := (hreported.1 hworks hnone).1
    rw [allow_without_token husable hnone] at hdenied
    cases hdenied
  · rintro (hfailed | htoken)
    · exact ⟨fun hworks => absurd hfailed hworks, fun _ => hfailed⟩
    · refine ⟨fun _ hnone => absurd htoken hnone, fun ⟨e, herror⟩ => ?_⟩
      by_contra hworks
      obtain ⟨rfl, husable⟩ := not_redisFailed hworks
      rw [allow_of_usable husable, Bucket.take_granted.mpr (tokenLeft_iff.mp htoken)] at herror
      cases herror

def exhausted : Keyspace :=
  ((limiterMachine fivePerSecond).run emptyServer
    (callsAt (extractClientKey "10.0.0.1") [0, 0, 0, 0, 0])).redis

/-- The sixth call is denied, and the client is told that the server failed. -/
theorem denied_client_gets_server_error :
    ¬ RedisFailed exhausted 0 (extractClientKey "10.0.0.1") .answered ∧
      ¬ TokenLeft fivePerSecond exhausted 0 (extractClientKey "10.0.0.1") ∧
      (rateLimitMiddleware fivePerSecond exhausted 0 "10.0.0.1" .answered).2 =
        .answered 500 (.new false .internalServerError)
          (some "Rate limiter error: redis script error: redis: nil") ∧
      ¬ DenialReported fivePerSecond exhausted 0 "10.0.0.1" .answered := by
  have husable : Usable exhausted 0 (extractClientKey "10.0.0.1") := .inr (by decide)
  have hworks : ¬ RedisFailed exhausted 0 (extractClientKey "10.0.0.1") .answered :=
    not_or.mpr ⟨not_not.mpr rfl, not_not.mpr husable⟩
  have hnone : ¬ TokenLeft fivePerSecond exhausted 0 (extractClientKey "10.0.0.1") := by
    rw [tokenLeft_iff]
    decide
  refine ⟨hworks, hnone, by decide, fun hreported => ?_⟩
  have hdenied := (hreported.1 hworks hnone).1
  rw [allow_without_token husable hnone] at hdenied
  cases hdenied

end Photon.Middleware
