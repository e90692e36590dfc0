import Photon.RateLimiter.RedisLimiter

/-!
How many calls are granted inside a time window. The window's account of the
token bucket library is carried along every run of the limiter: it survives
other keys, lost round trips and every call on the key, unless a bucket expires
while it still owes tokens and the next call starts over with a full one.
-/

namespace Photon.RateLimiter

open Photon.Lib Photon.Redis

/-- The calls on `key` that were granted at a time from `start` to
`start + length`. -/
def grantsWithin (key : String) (start length : Nat)
    (history : List (Request × Except String Bool)) : Nat :=
  history.countP fun event =>
    event.1.key == key && decide (start ≤ event.1.now ∧ event.1.now ≤ start + length) &&
      granted event.2

/-- If the key's bucket has expired, the time since its last refill would have
filled it anyway. -/
def ExpiryHarmless (lim : RedisLimiter) (st : Server) (request : Request) : Prop :=
  ∀ stored ∈ bucketAt st.redis request.key, stored.deadline < request.now →
    lim.maxTokens ≤ stored.bucket.tokens +
      (request.now - stored.bucket.last) / lim.refillInterval

instance (lim : RedisLimiter) (st : Server) (request : Request) :
    Decidable (ExpiryHarmless lim st request) := by
  unfold ExpiryHarmless
  infer_instance

/-- The clock does not go back, and no call on the key finds an expired bucket
that was not full again. -/
def Timely (lim : RedisLimiter) (key : String) (st : Server) (request : Request) : Prop :=
  st.clock ≤ request.now ∧ (request.key = key → ExpiryHarmless lim st request)

variable {lim : RedisLimiter} {key : String} {start length clock now count : Nat}

structure Kept (lim : RedisLimiter) (start length clock count : Nat) (stored : Stored) : Prop where
  sound : stored.bucket.Sound lim.maxTokens clock
  deadline : stored.bucket.last + lim.refillInterval * 2 ≤ stored.deadline
  before : clock < start → count = 0
  window : clock ≤ start + length →
    stored.bucket.Window lim.maxTokens lim.refillInterval start count
  bound : (count : Int) ≤ lim.maxTokens + length / lim.refillInterval + 1

/-- Time passes and nothing happens to the key. -/
theorem Kept.wait {stored : Stored} (h : Kept lim start length clock count stored)
    (hnow : clock ≤ now) : Kept lim start length now count stored where
  sound := h.sound.later (by omega)
  deadline := h.deadline
  before hstart := h.before (by omega)
  window hend := h.window (by omega)
  bound := h.bound

section Positive

variable (hmax : 1 ≤ lim.maxTokens) (hinterval : 0 < lim.refillInterval)
include hmax hinterval

theorem zero_within_bound (length : Nat) :
    ((0 : Nat) : Int) ≤ lim.maxTokens + length / lim.refillInterval + 1 := by
  have : 0 ≤ (length : Int) / lim.refillInterval := Int.ediv_nonneg (by omega) hinterval.le
  omega

/-- A key without a bucket counts as a full one, as long as it granted nothing. -/
theorem Kept.full (now : Nat) :
    Kept lim start length now 0 ⟨⟨lim.maxTokens, now⟩, now + (lim.refillInterval * 2).toNat⟩ := by
  have hsound : (⟨lim.maxTokens, now⟩ : Bucket).Sound lim.maxTokens now :=
    ⟨by dsimp only; omega, le_refl _, le_refl _⟩
  refine ⟨hsound, by dsimp only; omega, fun _ => rfl, fun _ => ?_,
    zero_within_bound hmax hinterval length⟩
  rcases lt_or_ge now start with hbefore | hstart
  · exact Bucket.Window.before hsound (by omega)
  · exact Bucket.Window.full hinterval (by omega)

/-- One request to the bucket. A grant inside the window may be counted, and
nothing else is. -/
theorem Kept.request {stored : Stored} {next : Nat}
    (h : Kept lim start length clock count stored) (hnow : clock ≤ now)
    (hfrom : count ≤ next)
    (hto : next ≤ count + if (start ≤ now ∧ now ≤ start + length) ∧
      (stored.bucket.request lim.maxTokens lim.refillInterval now).2 = true then 1 else 0) :
    Kept lim start length now next
      ⟨(stored.bucket.request lim.maxTokens lim.refillInterval now).1,
        now + (lim.refillInterval * 2).toNat⟩ := by
  have hsound := (h.sound.later (by omega : (clock : Int) ≤ now)).request hinterval
  have hlast := hsound.last_le
  have hdeadline : (stored.bucket.request lim.maxTokens lim.refillInterval now).1.last +
      lim.refillInterval * 2 ≤ (now + (lim.refillInterval * 2).toNat : Nat) := by omega
  rcases lt_or_ge now start with hbefore | hstart
  · -- before the window opens
    rw [if_neg (by omega)] at hto
    obtain rfl : next = 0 := by have := h.before (by omega); omega
    exact ⟨hsound, hdeadline, fun _ => rfl, fun _ => Bucket.Window.before hsound (by omega),
      zero_within_bound hmax hinterval length⟩
  rcases lt_or_ge (start + length) now with hafter | hend
  · -- after it has closed
    rw [if_neg (by omega)] at hto
    obtain rfl : next = count := by omega
    exact ⟨hsound, hdeadline, fun hlt => absurd hlt (by omega),
      fun hle => absurd hle (by omega), h.bound⟩
  · have hcounted := (h.window (by omega)).request hinterval (by omega : (start : Int) ≤ now)
    have hle : (next : Int) ≤ count +
        if (stored.bucket.request lim.maxTokens lim.refillInterval now).2 then 1 else 0 := by
      split at hto <;> split <;> simp_all
      omega
    have hwindow := hcounted.fewer (by omega : (0 : Int) ≤ next) hle
    exact ⟨hsound, hdeadline, fun hlt => absurd hlt (by omega), fun _ => hwindow,
      hwindow.granted_le hinterval (by omega) hsound (by omega)⟩

end Positive

theorem grantsWithin_concat (history : List (Request × Except String Bool)) (request : Request)
    (answer : Except String Bool) :
    grantsWithin key start length (history ++ [(request, answer)]) =
      grantsWithin key start length history +
        if request.key = key ∧ (start ≤ request.now ∧ request.now ≤ start + length) ∧
          granted answer = true then 1 else 0 := by
  simp [grantsWithin, List.countP_append, List.countP_singleton, and_assoc]

/-- What the limiter's history and state say about the window on one key. -/
def Accounted (lim : RedisLimiter) (key : String) (start length : Nat)
    (history : List (Request × Except String Bool)) (st : Server) : Prop :=
  (st.redis key = none ∧ grantsWithin key start length history = 0) ∨
    ∃ stored, bucketAt st.redis key = some stored ∧
      Kept lim start length st.clock (grantsWithin key start length history) stored

/-- A step that neither touches the key nor is granted on it. -/
theorem Accounted.wait {history : List (Request × Except String Bool)} {st next : Server}
    (h : Accounted lim key start length history st) (hclock : st.clock ≤ next.clock)
    (hkey : next.redis key = st.redis key) (event : Request × Except String Bool)
    (hgrant : ¬ (event.1.key = key ∧ granted event.2 = true)) :
    Accounted lim key start length (history ++ [event]) next := by
  have hsame : grantsWithin key start length (history ++ [event]) =
      grantsWithin key start length history := by
    rw [grantsWithin_concat, if_neg (fun hcounted => hgrant ⟨hcounted.1, hcounted.2.2⟩), add_zero]
  unfold Accounted
  rw [hsame, bucketAt, hkey]
  exact h.imp_right fun ⟨stored, hstored, hkept⟩ => ⟨stored, hstored, hkept.wait hclock⟩

/-- The script answers a call on the key as a bucket with a sound account would,
also when it starts over with a full bucket. -/
theorem Accounted.found {history : List (Request × Except String Bool)} {st : Server}
    {request : Request} (hmax : 1 ≤ lim.maxTokens) (hinterval : 0 < lim.refillInterval)
    (h : Accounted lim key start length history st) (hkey : request.key = key)
    (htimely : Timely lim key st request) :
    ∃ found stored clock, findBucket st.redis request.now key lim.maxTokens request.now =
        .ok found ∧
      found.request lim.maxTokens lim.refillInterval request.now =
        stored.bucket.request lim.maxTokens lim.refillInterval request.now ∧
      clock ≤ request.now ∧
      Kept lim start length clock (grantsWithin key start length history) stored := by
  obtain ⟨hclock, hharmless⟩ := htimely
  rcases h with ⟨habsent, hnone⟩ | ⟨stored, hstored, hkept⟩
  · rw [hnone]
    refine ⟨⟨lim.maxTokens, request.now⟩, _, request.now,
      findBucket_of_none (Keyspace.read_eq_none_of_absent habsent), ?_, le_refl _,
      Kept.full hmax hinterval request.now⟩
    rfl
  rcases lt_or_ge stored.deadline request.now with hexpired | hlive
  · have hdeadline := hkept.deadline
    have hfull := hharmless hkey stored (hkey ▸ hstored) hexpired
    obtain ⟨fields, hfields, _, _⟩ := bucketAt_eq_some.mp hstored
    exact ⟨_, stored, st.clock,
      findBucket_of_none (by simp [Keyspace.read, hfields, Entry.gone, hexpired]),
      Bucket.request_full hinterval (by omega) hfull, hclock, hkept⟩
  · exact ⟨_, stored, st.clock, findBucket_of_live hstored hlive, rfl, hclock, hkept⟩

/-- Every timely step keeps the account. -/
theorem accounted_step (hmax : 1 ≤ lim.maxTokens) (hinterval : 0 < lim.refillInterval)
    (history : List (Request × Except String Bool)) (st : Server) (request : Request)
    (h : Accounted lim key start length history st) (htimely : Timely lim key st request) :
    Accounted lim key start length
      (history ++ [(request, ((limiterMachine lim).step st request).2)])
      ((limiterMachine lim).step st request).1 := by
  rcases eq_or_ne request.key key with hkey | hne
  · obtain ⟨found, stored, clock, hfound, hrequest, hclock, hkept⟩ :=
      h.found hmax hinterval hkey htimely
    rcases allow_cases hinterval (hkey ▸ hfound) request.delivery with
      ⟨hsame, hno⟩ | ⟨hstored, hgrant⟩
    · exact h.wait htimely.1 (congrFun hsame key) _
        (fun hyes => Bool.false_ne_true (hno.symm.trans hyes.2))
    · rw [hrequest] at hstored hgrant
      refine .inr ⟨_, hkey ▸ hstored, hkept.request hmax hinterval hclock ?_ ?_⟩
      · rw [grantsWithin_concat]
        exact Nat.le_add_right _ _
      · rw [grantsWithin_concat]
        refine Nat.add_le_add_left ?_ _
        split
        · rename_i hcounted
          rw [if_pos ⟨hcounted.2.1, hgrant hcounted.2.2⟩]
        · exact Nat.zero_le _
  · exact h.wait htimely.1 (allow_frame hinterval hne.symm request.delivery) _
      (fun hyes => hne hyes.1)

/-- In every run whose clock does not go back and in which a bucket only expires
when it would be full again, at most `maxTokens` plus one call per interval plus
one call are granted on a key inside any window. -/
theorem grants_within_window_le (lim : RedisLimiter) (key : String)
    (hmax : 1 ≤ lim.maxTokens) (hinterval : 0 < lim.refillInterval)
    (st : Server) (hfresh : st.redis key = none) (calls : List Request)
    (htimely : (limiterMachine lim).AllSteps (Timely lim key) st calls) (start length : Nat) :
    (grantsWithin key start length ((limiterMachine lim).trace st calls) : Int) ≤
      lim.maxTokens + length / lim.refillInterval + 1 := by
  have haccount := (limiterMachine lim).trace_invariant (Accounted lim key start length)
    (Timely lim key) (accounted_step hmax hinterval) [] st calls (.inl ⟨hfresh, rfl⟩) htimely
  rw [List.nil_append] at haccount
  rcases haccount with ⟨_, hnone⟩ | ⟨stored, _, hkept⟩
  · rw [hnone]
    exact zero_within_bound hmax hinterval length
  · exact hkept.bound

/-- The third call finds an expired bucket, which two seconds have filled again. -/
theorem grants_of_spaced_calls_le :
    (grantsWithin "k" 0 2500
      ((limiterMachine fivePerSecond).trace emptyServer (callsAt "k" [0, 0, 2500, 2600])) : Int) ≤
        fivePerSecond.maxTokens + 2500 / fivePerSecond.refillInterval + 1 :=
  grants_within_window_le fivePerSecond "k" (by decide) (by decide) emptyServer rfl
    (callsAt "k" [0, 0, 2500, 2600])
    ⟨⟨by decide, fun _ => by decide⟩, ⟨by decide, fun _ => by decide⟩,
      ⟨by decide, fun _ => by decide⟩, ⟨by decide, fun _ => by decide⟩, trivial⟩ 0 2500

/-- A burst empties the bucket, the bucket expires one millisecond before the next
burst, and that burst finds a full one: ten grants where eight are allowed. -/
theorem expired_bucket_exceeds_bound :
    1 ≤ fivePerSecond.maxTokens ∧ 0 < fivePerSecond.refillInterval ∧
      ¬ (grantsWithin "k" 0 2001 ((limiterMachine fivePerSecond).trace emptyServer
          (callsAt "k" [0, 0, 0, 0, 0, 2001, 2001, 2001, 2001, 2001])) : Int) ≤
        fivePerSecond.maxTokens + 2001 / fivePerSecond.refillInterval + 1 := by
  decide

end Photon.RateLimiter
