import Photon.RateLimiter.RedisLimiter

/-!
How many tokens a bucket has been credited. Each refill credits the whole
intervals since the last one and restarts the clock, so the total is the number
of intervals since the first call as long as no call finds that the remainders
before and after the last refill add up to another interval. The first call that
does is the first after which a token is missing.
-/

namespace Photon.RateLimiter

open Photon.Lib Photon.Redis

def tokensAt (st : Server) (key : String) : Int :=
  match bucketAt st.redis key with
  | some stored => stored.bucket.tokens
  | none => 0

def grantsOn (key : String) (history : List (Request × Except String Bool)) : Nat :=
  history.countP fun event => event.1.key == key && granted event.2

/-- What the bucket holds and has handed out beyond what it started with. -/
def gained (lim : RedisLimiter) (key : String) (st : Server) (initial : Int)
    (calls : List Request) : Int :=
  tokensAt ((limiterMachine lim).run st calls) key +
    grantsOn key ((limiterMachine lim).trace st calls) - initial

/-- The tokens credited by a list of calls on a key without a bucket, which starts
with `maxTokens`. -/
def credited (lim : RedisLimiter) (key : String) (st : Server) (calls : List Request) : Int :=
  gained lim key st lim.maxTokens calls

/-- The clock does not go back, the call on the key reaches Redis, and its bucket
has neither expired nor become full. -/
def Steady (lim : RedisLimiter) (key : String) (st : Server) (request : Request) : Prop :=
  st.clock ≤ request.now ∧ request.key = key ∧ request.delivery = .answered ∧
    ∀ stored ∈ bucketAt st.redis key, request.now ≤ stored.deadline ∧
      stored.bucket.tokens + (request.now - stored.bucket.last) / lim.refillInterval <
        lim.maxTokens

/-- The time before the last refill that was not credited and the time after it
that is not credited now are less than an interval together. -/
def RemaindersFit (lim : RedisLimiter) (first : Nat) (st : Server) (request : Request) : Prop :=
  ∀ stored ∈ bucketAt st.redis request.key,
    (stored.bucket.last - first) % lim.refillInterval +
      (request.now - stored.bucket.last) % lim.refillInterval < lim.refillInterval

instance (lim : RedisLimiter) (key : String) (st : Server) (request : Request) :
    Decidable (Steady lim key st request) := by
  unfold Steady
  infer_instance

instance (lim : RedisLimiter) (first : Nat) (st : Server) (request : Request) :
    Decidable (RemaindersFit lim first st request) := by
  unfold RemaindersFit
  infer_instance

variable {lim : RedisLimiter} {key : String} {st : Server} {first : Nat}

theorem tokensAt_of_stored {stored : Stored} (h : bucketAt st.redis key = some stored) :
    tokensAt st key = stored.bucket.tokens := by
  simp [tokensAt, h]

theorem gained_cons (initial : Int) (call : Request) (rest : List Request) :
    gained lim key st initial (call :: rest) = gained lim key st initial [call] +
      gained lim key ((limiterMachine lim).step st call).1
        (tokensAt ((limiterMachine lim).step st call).1 key) rest := by
  simp only [gained, grantsOn, Machine.run_cons, Machine.run_nil, Machine.trace, List.countP_cons,
    List.countP_nil]
  omega

section

variable (hinterval : 0 < lim.refillInterval)
include hinterval

/-- A call whose script finds `found` stores the request's bucket, and its tokens
and its grant are those of the refilled bucket. -/
theorem gained_answered {found : Bucket} {now : Nat}
    (h : findBucket st.redis now key lim.maxTokens now = .ok found) (initial : Int) :
    bucketAt ((limiterMachine lim).step st ⟨key, now, .answered⟩).1.redis key =
        some ⟨(found.request lim.maxTokens lim.refillInterval now).1,
          now + (lim.refillInterval * 2).toNat⟩ ∧
      gained lim key st initial [⟨key, now, .answered⟩] =
        (found.refill lim.maxTokens lim.refillInterval now).tokens - initial := by
  obtain ⟨hstored, hgrant⟩ := allow_answered hinterval h
  have hnext : bucketAt ((limiterMachine lim).step st ⟨key, now, .answered⟩).1.redis key =
      some ⟨(found.request lim.maxTokens lim.refillInterval now).1,
        now + (lim.refillInterval * 2).toNat⟩ := hstored
  refine ⟨hnext, ?_⟩
  have hsum := (found.refill lim.maxTokens lim.refillInterval now).take_tokens
  have htokens : tokensAt ((limiterMachine lim).step st ⟨key, now, .answered⟩).1 key =
      (found.request lim.maxTokens lim.refillInterval now).1.tokens := by
    rw [tokensAt_of_stored hnext]
  have hcount : grantsOn key ((limiterMachine lim).trace st [⟨key, now, .answered⟩]) =
      if (found.request lim.maxTokens lim.refillInterval now).2 then 1 else 0 := by
    rw [← hgrant]
    simp [grantsOn, Machine.trace, List.countP_cons, limiterMachine]
  unfold gained
  rw [Machine.run_cons, Machine.run_nil, htokens, hcount, ← hsum]
  push_cast
  rfl

/-- A steady call credits the whole intervals since the last refill, and restarts
the clock only if it credits something. -/
theorem gained_steady {stored : Stored} {call : Request}
    (hstored : bucketAt st.redis key = some stored) (hlast : stored.bucket.last ≤ st.clock)
    (hsteady : Steady lim key st call) :
    gained lim key st stored.bucket.tokens [call] =
        (call.now - stored.bucket.last) / lim.refillInterval ∧
      ∃ next, bucketAt ((limiterMachine lim).step st call).1.redis key = some next ∧
        next.bucket.last ≤ call.now ∧
        (next.bucket.last = call.now ∨
          next.bucket.last = stored.bucket.last ∧
            (call.now - stored.bucket.last) / lim.refillInterval = 0) := by
  obtain ⟨hclock, hkey, hdelivery, hquiet⟩ := hsteady
  obtain ⟨hlive, hroom⟩ := hquiet stored hstored
  obtain ⟨callKey, now, delivery⟩ := call
  obtain rfl : callKey = key := hkey
  obtain rfl : delivery = .answered := hdelivery
  dsimp only at hclock hlive hroom ⊢
  obtain ⟨hnext, hgained⟩ := gained_answered hinterval
    (findBucket_of_live hstored hlive) stored.bucket.tokens
  rw [Bucket.refill_tokens_of_room (by omega) hroom] at hgained
  refine ⟨by omega, _, hnext, ?_⟩
  rw [Bucket.request, Bucket.take_last]
  rcases lt_or_ge ((now : Int) - stored.bucket.last) lim.refillInterval with hearly | hdue
  · rw [Bucket.refill_of_early hearly]
    exact ⟨by omega, .inr ⟨rfl, Int.ediv_eq_zero_of_lt (by omega) hearly⟩⟩
  · rw [Bucket.refill_of_due hdue]
    exact ⟨le_refl _, .inl rfl⟩

/-- From a state in which the credit so far is exact up to the last refill, it is
exact after every call precisely if the remainders fit at every call. -/
theorem exact_after_every_call_iff {stored : Stored} (hstored : bucketAt st.redis key = some stored)
    (hlast : stored.bucket.last ≤ st.clock) {paid : Int}
    (hpaid : paid = (stored.bucket.last - first) / lim.refillInterval) (calls : List Request)
    (hsteady : (limiterMachine lim).AllSteps (Steady lim key) st calls) :
    (∀ before call after, calls = before ++ call :: after →
        paid + gained lim key st stored.bucket.tokens (before ++ [call]) =
          (call.now - first) / lim.refillInterval) ↔
      (limiterMachine lim).AllSteps (RemaindersFit lim first) st calls := by
  induction calls generalizing st stored paid with
  | nil => simp [Machine.AllSteps]
  | cons call rest ih =>
    obtain ⟨hcall, hrest⟩ := hsteady
    obtain ⟨hgained, next, hnext, hnextLast, hclock⟩ := gained_steady hinterval hstored hlast hcall
    have hhead : paid + gained lim key st stored.bucket.tokens [call] =
        (call.now - first) / lim.refillInterval ↔ RemaindersFit lim first st call := by
      have hspan := Bucket.ediv_add_ediv_eq_iff hinterval (stored.bucket.last - first)
        (call.now - stored.bucket.last)
      rw [show stored.bucket.last - first + (call.now - stored.bucket.last) =
        (call.now - first : Int) by omega] at hspan
      rw [hgained, hpaid, hspan, RemaindersFit, hcall.2.1, hstored]
      simp
    rw [Machine.forall_split_cons, Machine.AllSteps, List.nil_append, hhead]
    refine and_congr_right fun hfit => ?_
    -- the credit is exact again up to the refill clock this call leaves
    have hpaidNext : paid + gained lim key st stored.bucket.tokens [call] =
        (next.bucket.last - first) / lim.refillInterval := by
      rcases hclock with hmoved | ⟨hkept, hnothing⟩
      · rw [hhead.mpr hfit, hmoved]
      · rw [hgained, hnothing, hkept, add_zero, hpaid]
    rw [← ih hnext hnextLast hpaidNext hrest]
    refine forall₄_congr fun before at_ after _ => ?_
    rw [List.cons_append, gained_cons, tokensAt_of_stored hnext, add_assoc]

/-- The first call fills the bucket without crediting anything. -/
theorem first_call (hfresh : st.redis key = none) (first : Nat) :
    credited lim key st [⟨key, first, .answered⟩] = 0 ∧
      ∃ stored,
        bucketAt ((limiterMachine lim).step st ⟨key, first, .answered⟩).1.redis key =
          some stored ∧ stored.bucket.last = first := by
  obtain ⟨hstored, hgained⟩ := gained_answered hinterval
    (findBucket_of_none (Keyspace.read_eq_none_of_absent hfresh)) lim.maxTokens
  rw [Bucket.refill_of_early (by dsimp only; omega)] at hgained
  refine ⟨by rw [credited, hgained, sub_self], _, hstored, ?_⟩
  rw [Bucket.request, Bucket.take_last, Bucket.refill_of_early (by dsimp only; omega)]

end

/-- After a first call at time `first`, while the bucket neither expires nor
becomes full, the tokens credited after every call are exactly the intervals
since the first call if and only if the remainders fit at every call. -/
theorem credited_is_elapsed_iff (lim : RedisLimiter) (key : String)
    (hinterval : 0 < lim.refillInterval) (st : Server) (hfresh : st.redis key = none)
    (first : Nat) (calls : List Request)
    (hsteady : (limiterMachine lim).AllSteps (Steady lim key)
      ((limiterMachine lim).step st ⟨key, first, .answered⟩).1 calls) :
    (∀ before call after, calls = before ++ call :: after →
        credited lim key st (⟨key, first, .answered⟩ :: (before ++ [call])) =
          (call.now - first) / lim.refillInterval) ↔
      (limiterMachine lim).AllSteps (RemaindersFit lim first)
        ((limiterMachine lim).step st ⟨key, first, .answered⟩).1 calls := by
  obtain ⟨hzero, stored, hstored, hlast⟩ := first_call hinterval hfresh first
  rw [← exact_after_every_call_iff hinterval hstored hlast.le
    (by rw [hlast, sub_self, Int.zero_ediv]) calls hsteady]
  refine forall₄_congr fun before call after _ => ?_
  rw [credited, gained_cons, tokensAt_of_stored hstored, show gained .. = _ from hzero]

def afterFirst : Server := ((limiterMachine fivePerSecond).step emptyServer ⟨"k", 0, .answered⟩).1

/-- Refills after one second and another one and a third leave nothing behind that
adds up to an interval. -/
theorem credited_of_fitting_calls :
    credited fivePerSecond "k" emptyServer (callsAt "k" [0, 0, 0, 1000, 2300]) = 2 :=
  (credited_is_elapsed_iff fivePerSecond "k" (by decide) emptyServer rfl 0
    (callsAt "k" [0, 0, 1000, 2300]) ⟨by decide, by decide, by decide, by decide, trivial⟩).mpr
    ⟨by decide, by decide, by decide, by decide, trivial⟩ (callsAt "k" [0, 0, 1000])
    ⟨"k", 2300, .answered⟩ [] rfl

/-- Calls after one and a half and after three seconds credit one token each, and
the two halves are lost: two tokens in three intervals. -/
theorem uneven_calls_lose_token :
    (limiterMachine fivePerSecond).AllSteps (Steady fivePerSecond "k") afterFirst
        (callsAt "k" [0, 0, 0, 1500, 3000]) ∧
      credited fivePerSecond "k" emptyServer (callsAt "k" [0, 0, 0, 0, 1500, 3000]) = 2 ∧
      (3000 - 0) / fivePerSecond.refillInterval = 3 :=
  ⟨⟨by decide, by decide, by decide, by decide, by decide, trivial⟩, by decide, by decide⟩

end Photon.RateLimiter
