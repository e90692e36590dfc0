import Photon.Lib.Machine
import Photon.Redis.Keyspace

/-!
The distributed lock of `coordination/concurrency/lock/redis_locker.go`. Any
number of lockers share one Redis and each is used by any number of calls at
once. An action is one atomic step: a Lua script on the server, an operation on
a locker's local `lockStore`, a round trip that ends in an error before or after
its script ran, or time passing on the server.
Between its steps a call waits, and everything else may happen.
-/

namespace Photon.Lock

open Photon.Lib Photon.Redis

structure RedisLockState where
  value : String
  token : Nat
deriving DecidableEq

def errLockNotAcquired : String := "could not acquire lock"
def errLockNotHeld : String := "lock not held"

def lockValue (token : Nat) (owner : String) : String := toString token ++ ":" ++ owner

def fencingCounterKey (key : String) : String := key ++ ":fence"

def durationMilliseconds (duration : Int) : Int :=
  let millis := Int.tdiv duration 1000000
  if Int.tmod duration 1000000 ≠ 0 then millis + 1 else millis

def redisLockStateFromValue (state : RedisLockState) : Option RedisLockState :=
  if state.value = "" then none else some state

def positiveUint64 : Reply → Except String Nat
  | .int n => if n < 0 then .error "unexpected negative fencing token" else .ok n.toNat
  | _ => .error "unexpected result type from Eval"

variable (lua : LuaNumbers)

/-- The script of `tryAcquire`. A failure after the increment keeps the
increment. -/
def tryAcquireScript (ks : Keyspace) (now : Nat) (key counter : String) (expiryMillis : Int)
    (owner : String) : Keyspace × Except String Reply :=
  if ks.existsKey now key then (ks, .ok (.int 0))
  else
    match ks.incr now counter with
    | .error e => (ks, .error e)
    | .ok (counted, token) =>
      match counted.psetex now key expiryMillis (lua.format token ++ ":" ++ owner) with
      | .error e => (counted, .error e)
      | .ok stored => (stored, .ok (.int token))

/-- The guard of the other two scripts: `command` runs only while the key holds
`value`. -/
def guardedScript (ks : Keyspace) (now : Nat) (key value : String)
    (command : Keyspace × Int) : Keyspace × Except String Reply :=
  match ks.get now key with
  | .error e => (ks, .error e)
  | .ok found =>
    if found = some value then (command.1, .ok (.int command.2)) else (ks, .ok (.int 0))

def unlockScript (ks : Keyspace) (now : Nat) (key value : String) :
    Keyspace × Except String Reply :=
  guardedScript ks now key value (ks.del now key)

def extendScript (ks : Keyspace) (now : Nat) (key value : String) (millis : Int) :
    Keyspace × Except String Reply :=
  guardedScript ks now key value (ks.pexpire now key millis)

/-- Where a call stands. A call is idle before it starts and after it returned;
after a script it holds the reply it has not handled yet. -/
inductive Call where
  | idle
  | acquiring (locker : Nat) (key owner : String) (millis : Int)
  | acquired (locker : Nat) (key owner : String) (millis : Int) (reply : Except String Reply)
  | unlocking (locker : Nat) (key : String) (held : RedisLockState)
  | unlocked (locker : Nat) (key : String) (held : RedisLockState) (reply : Except String Reply)
  | extending (locker : Nat) (key : String) (held : RedisLockState) (millis : Int)
  | extended (locker : Nat) (key : String) (held : RedisLockState) (reply : Except String Reply)

structure System where
  redis : Keyspace
  clock : Nat
  lockStore : Nat → String → Option RedisLockState
  calls : Nat → Call

inductive Action where
  | beginLock (call locker : Nat) (key owner : String) (expiry : Int)
  | acquire (call : Nat)
  | lockReturn (call : Nat) (giveUp : Bool)
  | beginUnlock (call locker : Nat) (key : String)
  | runUnlock (call : Nat)
  | unlockReturn (call : Nat)
  | beginExtend (call locker : Nat) (key : String) (extension : Int)
  | runExtend (call : Nat)
  | extendReturn (call : Nat)
  | lose (call : Nat) (message : String)
  | tick (millis : Nat)

inductive Answer where
  | disabled
  | pending
  | granted (key owner : String) (token : Int)
  | replied (reply : Except String Reply)
  | locked (locker : Nat) (key owner : String) (token : Nat)
  | failed (message : String)
  | done

variable (s : System)

namespace System

def initial : System := ⟨fun _ => none, 0, fun _ _ => none, fun _ => .idle⟩

def setCall (call : Nat) (state : Call) : System :=
  {s with calls := Function.update s.calls call state}

def setRecord (locker : Nat) (key : String) (record : Option RedisLockState) : System :=
  {s with lockStore :=
    Function.update s.lockStore locker (Function.update (s.lockStore locker) key record)}

def stored (key : String) : Option Entry := s.redis.read s.clock key

def fencingToken (locker : Nat) (key : String) : Option Nat :=
  match (s.lockStore locker key).bind redisLockStateFromValue with
  | none => none
  | some state => if state.token = 0 then none else some state.token

end System

/-- The answer to a script of `tryAcquire`, as its history records it. -/
def acquireAnswer (key owner : String) : Except String Reply → Answer
  | .ok (.int n) => if 0 < n then .granted key owner n else .replied (.ok (.int n))
  | reply => .replied reply

def acquisitionFailed (key message : String) : String :=
  "distributed lock acquisition failed for key '" ++ key ++ "': " ++ message

/-- `Lock` after a reply of `tryAcquire`: an error ends the call, a token is
recorded locally and returned, and otherwise the call tries again unless its
context ended first. -/
def lockReturn (call locker : Nat) (key owner : String) (millis : Int) (giveUp : Bool)
    (reply : Except String Reply) : System × Answer :=
  match reply.bind positiveUint64 with
  | .error e => (s.setCall call .idle, .failed (acquisitionFailed key e))
  | .ok token =>
    if 0 < token then
      ((s.setRecord locker key (some ⟨lockValue token owner, token⟩)).setCall call .idle,
        .locked locker key owner token)
    else if giveUp then (s.setCall call .idle, .failed errLockNotAcquired)
    else (s.setCall call (.acquiring locker key owner millis), .pending)

/-- `Unlock` and `Extend` after the reply of their script. `Unlock` drops the
local record on every integer reply, `Extend` on zero only. -/
def releaseReturn (call locker : Nat) (key : String) (always : Bool) :
    Except String Reply → System × Answer
  | .error e => (s.setCall call .idle, .failed e)
  | .ok (.int n) =>
    if n = 0 then ((s.setRecord locker key none).setCall call .idle, .failed errLockNotHeld)
    else if always then ((s.setRecord locker key none).setCall call .idle, .done)
    else (s.setCall call .idle, .done)
  | .ok _ => (s.setCall call .idle, .failed "unexpected result type from Eval")

def loadHeld (call locker : Nat) (key : String) (next : RedisLockState → Call) : System × Answer :=
  match (s.lockStore locker key).bind redisLockStateFromValue with
  | none => (s, .failed errLockNotHeld)
  | some held => (s.setCall call (next held), .pending)

/-- One atomic step. An action whose call is not waiting for it does nothing. -/
def step (s : System) : Action → System × Answer
  | .beginLock call locker key owner expiry =>
    match s.calls call with
    | .idle =>
      if expiry ≤ 0 then (s, .failed "lock expiry must be positive")
      else (s.setCall call (.acquiring locker key owner (durationMilliseconds expiry)),
        .pending)
    | _ => (s, .disabled)
  | .acquire call =>
    match s.calls call with
    | .acquiring locker key owner millis =>
      let out := tryAcquireScript lua s.redis s.clock key (fencingCounterKey key) millis owner
      ({s with redis := out.1}.setCall call (.acquired locker key owner millis out.2),
        acquireAnswer key owner out.2)
    | _ => (s, .disabled)
  | .lockReturn call giveUp =>
    match s.calls call with
    | .acquired locker key owner millis reply =>
      lockReturn s call locker key owner millis giveUp reply
    | _ => (s, .disabled)
  | .beginUnlock call locker key =>
    match s.calls call with
    | .idle => loadHeld s call locker key (.unlocking locker key)
    | _ => (s, .disabled)
  | .runUnlock call =>
    match s.calls call with
    | .unlocking locker key held =>
      let out := unlockScript s.redis s.clock key held.value
      ({s with redis := out.1}.setCall call (.unlocked locker key held out.2),
        .replied out.2)
    | _ => (s, .disabled)
  | .unlockReturn call =>
    match s.calls call with
    | .unlocked locker key _ reply => releaseReturn s call locker key true reply
    | _ => (s, .disabled)
  | .beginExtend call locker key extension =>
    match s.calls call with
    | .idle =>
      if extension ≤ 0 then (s, .failed "lock extension must be positive")
      else loadHeld s call locker key
        (fun held => .extending locker key held (durationMilliseconds extension))
    | _ => (s, .disabled)
  | .runExtend call =>
    match s.calls call with
    | .extending locker key held millis =>
      let out := extendScript s.redis s.clock key held.value millis
      ({s with redis := out.1}.setCall call (.extended locker key held out.2),
        .replied out.2)
    | _ => (s, .disabled)
  | .extendReturn call =>
    match s.calls call with
    | .extended locker key _ reply => releaseReturn s call locker key false reply
    | _ => (s, .disabled)
  | .lose call message =>
    match s.calls call with
    | .idle => (s, .disabled)
    | .acquiring _ key _ _ | .acquired _ key _ _ _ =>
      (s.setCall call .idle, .failed (acquisitionFailed key message))
    | _ => (s.setCall call .idle, .failed message)
  | .tick millis => ({s with clock := s.clock + millis}, .done)

def lockMachine : Machine System Action Answer := ⟨step lua⟩

/-- The system after the actions. -/
abbrev reached (actions : List Action) : System :=
  (lockMachine lua).run System.initial actions

abbrev events (actions : List Action) : List (Action × Answer) :=
  (lockMachine lua).trace System.initial actions

end Photon.Lock
