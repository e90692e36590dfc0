import Photon.Lib.Machine
import Photon.Lib.TokenBucket
import Photon.Redis.Keyspace

/-!
The rate limiter of `coordination/concurrency/ratelimiter/redis_limiter.go`: the
Lua script that keeps one token bucket per key in a Redis hash, the conversion of
its boolean on the way back to Go, and `Allow`. Callers read the server's clock,
in milliseconds. Lua numbers are exact integers here; a quotient of integers below
2^53 rounds down to the same integer.
-/

namespace Photon.RateLimiter

open Photon.Lib Photon.Redis

/-- `interval` is a duration in nanoseconds. -/
structure RedisLimiter where
  maxTokens : Int
  interval : Int

variable (ks : Keyspace) (lim : RedisLimiter)

def RedisLimiter.refillInterval : Int := Int.tdiv lim.interval 1000000

def nilArithmetic : String :=
  "user_script: attempt to perform arithmetic on local 'lastRefill' (a nil value)"

/-- The script's `tokens` and `lastRefill` from the reply to `HMGET`. -/
def loadBucket (maxTokens now : Int) : List (Option Int) → Except String Bucket
  | some tokens :: some lastRefill :: _ => .ok ⟨tokens, lastRefill⟩
  | some _ :: _ => .error nilArithmetic
  | _ => .ok ⟨maxTokens, now⟩

/-- The refill of the script. Dividing by a zero interval gives infinity, or a
value that is not above zero if nothing has passed. -/
def refillBucket (maxTokens refillInterval now : Int) (bucket : Bucket) : Bucket :=
  let delta := max 0 (now - bucket.last)
  if refillInterval = 0 then
    if 0 < delta then ⟨maxTokens, now⟩ else bucket
  else
    let refill := delta / refillInterval
    if 0 < refill then ⟨min maxTokens (bucket.tokens + refill), now⟩ else bucket

def luaReply : Bool → Reply
  | true => .int 1
  | false => .nil

def findBucket (time : Nat) (key : String) (maxTokens now : Int) : Except String Bucket :=
  (ks.hmget time key ["tokens", "last"]).bind (loadBucket maxTokens now)

def getScript (time : Nat) (key : String) (maxTokens refillInterval now : Int) :
    Keyspace × Except String Reply :=
  match findBucket ks time key maxTokens now with
  | .error e => (ks, .error e)
  | .ok found =>
    let out := (refillBucket maxTokens refillInterval now found).take
    match ks.hmset time key [("tokens", out.1.tokens), ("last", out.1.last)] with
    | .error e => (ks, .error e)
    | .ok stored =>
      ((stored.pexpire time key (refillInterval * 2)).1, .ok (luaReply out.2))

/-- What becomes of a round trip to Redis. A lost one ends in an error, before or
after its script ran. -/
inductive Delivery where
  | answered
  | lost (ran : Bool) (message : String)
deriving DecidableEq

def redisNil : String := "redis: nil"

def cmdResult : Except String Reply → Except String Reply
  | .ok .nil => .error redisNil
  | reply => reply

/-- The result of `script.Run` in `Allow`. -/
def RedisLimiter.runScript (ks : Keyspace) (now : Nat) (key : String) :
    Delivery → Keyspace × Except String Reply
  | .answered =>
    let out := getScript ks now key lim.maxTokens lim.refillInterval now
    (out.1, cmdResult out.2)
  | .lost false message => (ks, .error message)
  | .lost true message =>
    ((getScript ks now key lim.maxTokens lim.refillInterval now).1, .error message)

/-- What `Allow` makes of the result. Its `false` next to an error is not kept. -/
def readResult : Except String Reply → Except String Bool
  | .error e => .error ("redis script error: " ++ e)
  | .ok (.int n) => .ok (n == 1)
  | .ok (.bulk _) => .error "unexpected script return type: string"
  | .ok .nil => .error "unexpected script return type: <nil>"

def RedisLimiter.allow (ks : Keyspace) (now : Nat) (key : String) (delivery : Delivery) :
    Keyspace × Except String Bool :=
  let out := lim.runScript ks now key delivery
  (out.1, readResult out.2)

structure Request where
  key : String
  now : Nat
  delivery : Delivery

structure Server where
  redis : Keyspace
  clock : Nat

/-- Any number of callers share one limiter; scripts run one at a time. -/
def limiterMachine : Machine Server Request (Except String Bool) where
  step st request :=
    let out := lim.allow st.redis request.now request.key request.delivery
    (⟨out.1, request.now⟩, out.2)

structure Stored where
  bucket : Bucket
  deadline : Nat
deriving DecidableEq

def bucketAt (key : String) : Option Stored :=
  match ks key with
  | some ⟨.hash fields, some deadline⟩ =>
    match fields "tokens", fields "last" with
    | some tokens, some lastRefill => some ⟨⟨tokens, lastRefill⟩, deadline⟩
    | _, _ => none
  | _ => none

variable {ks : Keyspace} {time : Nat} {key : String} {maxTokens refillInterval now : Int}

theorem bucketAt_eq_some {stored : Stored} :
    bucketAt ks key = some stored ↔
      ∃ fields, ks key = some ⟨.hash fields, some stored.deadline⟩ ∧
        fields "tokens" = some stored.bucket.tokens ∧
        fields "last" = some stored.bucket.last := by
  obtain ⟨⟨tokens, lastRefill⟩, deadline⟩ := stored
  unfold bucketAt
  constructor
  · intro h
    split at h
    · rename_i fields stored hkey
      split at h
      · rename_i htokens hlast
        cases h
        exact ⟨fields, hkey, htokens, hlast⟩
      · cases h
    · cases h
  · rintro ⟨fields, hkey, htokens, hlast⟩
    simp only [hkey]
    rw [htokens, hlast]

theorem findBucket_of_none (h : ks.read time key = none) :
    findBucket ks time key maxTokens now = .ok ⟨maxTokens, now⟩ := by
  simp [findBucket, Keyspace.hmget, h, Except.bind, loadBucket]

theorem findBucket_of_live {stored : Stored} (h : bucketAt ks key = some stored)
    (hlive : time ≤ stored.deadline) :
    findBucket ks time key maxTokens now = .ok stored.bucket := by
  obtain ⟨fields, hkey, htokens, hlast⟩ := bucketAt_eq_some.mp h
  have hread : ks.read time key = some ⟨.hash fields, some stored.deadline⟩ :=
    Keyspace.read_eq_some.mpr ⟨hkey, by simpa [Entry.gone] using hlive⟩
  simp [findBucket, Keyspace.hmget, hread, Except.bind, htokens, hlast, loadBucket]

/-- With a positive interval the script's refill is the refill of a token bucket. -/
theorem refillBucket_eq (hinterval : 0 < refillInterval) (bucket : Bucket) :
    refillBucket maxTokens refillInterval now bucket =
      bucket.refill maxTokens refillInterval now := by
  unfold refillBucket
  rw [if_neg hinterval.ne']
  rcases lt_or_ge (now - bucket.last) refillInterval with hearly | hdue
  · have hnone : max 0 (now - bucket.last) / refillInterval = 0 :=
      Int.ediv_eq_zero_of_lt (le_max_left _ _) (max_lt hinterval hearly)
    rw [Bucket.refill_of_early hearly]
    simp [hnone]
  · have hdelta : max 0 (now - bucket.last) = now - bucket.last := max_eq_right (by omega)
    have hsome : 0 < (now - bucket.last) / refillInterval :=
      (Int.le_ediv_iff_mul_le hinterval).mpr (by omega)
    rw [Bucket.refill_of_due hdue]
    simp [hdelta, hsome]

variable {found : Bucket}

/-- A key the script can read is one it can write. -/
theorem hmset_of_findBucket (h : findBucket ks time key maxTokens now = .ok found)
    (pairs : List (String × Int)) :
    ∃ fields deadline, ks.hmset time key pairs =
      .ok (ks.put key (some ⟨.hash (Keyspace.assign fields pairs), deadline⟩)) ∧
      Entry.gone ⟨.hash (Keyspace.assign fields pairs), deadline⟩ time = false := by
  unfold findBucket Keyspace.hmget at h
  unfold Keyspace.hmset
  rcases hread : ks.read time key with _ | ⟨data, deadline⟩
  · exact ⟨_, none, rfl, rfl⟩
  · have hlive := (Keyspace.read_eq_some.mp hread).2
    rw [hread] at h
    cases data with
    | text s => cases h
    | number n => cases h
    | hash fields => exact ⟨fields, deadline, rfl, hlive⟩

/-- The reply of the script depends on the refilled bucket only. -/
theorem getScript_reply (h : findBucket ks time key maxTokens now = .ok found) :
    (getScript ks time key maxTokens refillInterval now).2 =
      .ok (luaReply (refillBucket maxTokens refillInterval now found).take.2) := by
  obtain ⟨fields, deadline, hwrite, _⟩ := hmset_of_findBucket h
    [("tokens", (refillBucket maxTokens refillInterval now found).take.1.tokens),
      ("last", (refillBucket maxTokens refillInterval now found).take.1.last)]
  simp only [getScript, h, hwrite]

/-- The script answers and stores one request to the bucket it finds. -/
theorem getScript_request (hinterval : 0 < refillInterval)
    (h : findBucket ks time key maxTokens now = .ok found) :
    ∃ after, getScript ks time key maxTokens refillInterval now =
        (after, .ok (luaReply (found.request maxTokens refillInterval now).2)) ∧
      bucketAt after key = some ⟨(found.request maxTokens refillInterval now).1,
        time + (refillInterval * 2).toNat⟩ ∧
      ∀ other, other ≠ key → after other = ks other := by
  have hrequest : (refillBucket maxTokens refillInterval now found).take =
      found.request maxTokens refillInterval now := by
    rw [refillBucket_eq hinterval, Bucket.request]
  obtain ⟨fields, deadline, hwrite, hlive⟩ := hmset_of_findBucket h
    [("tokens", (found.request maxTokens refillInterval now).1.tokens),
      ("last", (found.request maxTokens refillInterval now).1.last)]
  have hexpire := Keyspace.pexpire_of_live
    (Keyspace.read_put_self.mpr ⟨rfl, hlive⟩ : (ks.put key (some _)).read time key = some _)
    (refillInterval * 2)
  rw [if_neg (by omega)] at hexpire
  refine ⟨_, by simp only [getScript, h, hrequest, hwrite, hexpire]; rfl, ?_, ?_⟩
  · refine bucketAt_eq_some.mpr ⟨_, Keyspace.put_self _, ?_, ?_⟩ <;>
      simp [Keyspace.assign, Function.update]
  · intro other hne
    rw [Keyspace.put_ne hne, Keyspace.put_ne hne]

theorem getScript_frame {other : String} (hinterval : 0 < refillInterval) (hne : other ≠ key) :
    (getScript ks time key maxTokens refillInterval now).1 other = ks other := by
  rcases hfound : findBucket ks time key maxTokens now with e | found
  · simp [getScript, hfound]
  · obtain ⟨after, hscript, _, hframe⟩ := getScript_request hinterval hfound
    rw [hscript]
    exact hframe other hne

def granted : Except String Bool → Bool
  | .ok allowed => allowed
  | .error _ => false

@[simp]
theorem granted_luaReply (allowed : Bool) :
    granted (readResult (cmdResult (.ok (luaReply allowed)))) = allowed := by
  cases allowed <;> rfl

variable {lim : RedisLimiter}

theorem allow_frame {other : String} {clock : Nat} (hinterval : 0 < lim.refillInterval)
    (hne : other ≠ key) (delivery : Delivery) :
    (lim.allow ks clock key delivery).1 other = ks other := by
  rcases delivery with _ | ⟨_ | _, message⟩
  · exact getScript_frame hinterval hne
  · rfl
  · exact getScript_frame hinterval hne

/-- An answered call is one request to the bucket its script finds. -/
theorem allow_answered {clock : Nat} (hinterval : 0 < lim.refillInterval)
    (h : findBucket ks clock key lim.maxTokens clock = .ok found) :
    bucketAt (lim.allow ks clock key .answered).1 key =
        some ⟨(found.request lim.maxTokens lim.refillInterval clock).1,
          clock + (lim.refillInterval * 2).toNat⟩ ∧
      granted (lim.allow ks clock key .answered).2 =
        (found.request lim.maxTokens lim.refillInterval clock).2 := by
  obtain ⟨after, hscript, hstored, _⟩ := getScript_request hinterval h
  simp only [RedisLimiter.allow, RedisLimiter.runScript, hscript]
  exact ⟨hstored, granted_luaReply _⟩

/-- Whatever becomes of a call, either nothing happened or its bucket served one
request; a grant is one the bucket made. -/
theorem allow_cases {clock : Nat} (hinterval : 0 < lim.refillInterval)
    (h : findBucket ks clock key lim.maxTokens clock = .ok found) (delivery : Delivery) :
    ((lim.allow ks clock key delivery).1 = ks ∧
        granted (lim.allow ks clock key delivery).2 = false) ∨
      (bucketAt (lim.allow ks clock key delivery).1 key =
          some ⟨(found.request lim.maxTokens lim.refillInterval clock).1,
            clock + (lim.refillInterval * 2).toNat⟩ ∧
        (granted (lim.allow ks clock key delivery).2 = true →
          (found.request lim.maxTokens lim.refillInterval clock).2 = true)) := by
  obtain ⟨hstored, hgrant⟩ := allow_answered hinterval h
  rcases delivery with _ | ⟨_ | _, message⟩
  · exact .inr ⟨hstored, fun hyes => hgrant ▸ hyes⟩
  · exact .inl ⟨rfl, rfl⟩
  · exact .inr ⟨hstored, fun hyes => absurd hyes Bool.false_ne_true⟩

def fivePerSecond : RedisLimiter := ⟨5, 1000000000⟩

def emptyServer : Server := ⟨fun _ => none, 0⟩

def callsAt (key : String) (times : List Nat) : List Request :=
  times.map fun now => ⟨key, now, .answered⟩

end Photon.RateLimiter
