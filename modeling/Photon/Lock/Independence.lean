import Photon.Lock.Safety

/-!
Locks on two keys. A lock uses its own key and the key of its fencing counter, and the calls on a
second lock leave both alone unless one of the two lock keys is the counter key of the other. Every
call is made for one key; the run in which the calls on the second key never happened is the run
with their actions taken out.
-/

namespace Photon.Lock

open Photon.Lib Photon.Redis

/-- The call an action belongs to; time passes for all of them. -/
def Action.call? : Action → Option Nat
  | .beginLock call _ _ _ _ | .acquire call | .lockReturn call _ | .beginUnlock call _ _
  | .runUnlock call | .unlockReturn call | .beginExtend call _ _ _ | .runExtend call
  | .extendReturn call | .lose call _ => some call
  | .tick _ => none

def Action.Keyed (keyOf : Nat → String) : Action → Prop
  | .beginLock call _ key _ _ | .beginUnlock call _ key | .beginExtend call _ key _ =>
    key = keyOf call
  | _ => True

def Action.keptFor (keyOf : Nat → String) (key : String) (a : Action) : Bool :=
  match a.call? with
  | some call => decide (keyOf call = key)
  | none => true

def Call.OnKey (key : String) : Call → Prop
  | .idle => True
  | .acquiring _ k _ _ | .acquired _ k _ _ _ | .unlocking _ k _ | .unlocked _ k _ _
  | .extending _ k _ _ | .extended _ k _ _ => k = key

structure SameLock (key : String) (ks ks' : Keyspace) : Prop where
  lock : ks key = ks' key
  counter : ks (fencingCounterKey key) = ks' (fencingCounterKey key)

/-- What the calls on `key` can see of the two systems is the same. -/
structure SameView (keyOf : Nat → String) (key : String) (s t : System) : Prop where
  redis : SameLock key s.redis t.redis
  clock : s.clock = t.clock
  records : ∀ locker, s.lockStore locker key = t.lockStore locker key
  calls : ∀ call, keyOf call = key → s.calls call = t.calls call
  keyed : ∀ call, (s.calls call).OnKey (keyOf call)

/-! ### The scripts are local -/

variable (lua : LuaNumbers) (now : Nat)

theorem tryAcquireScript_localTo (key counter : String) (millis : Int) (owner : String) :
    Keyspace.LocalTo [key, counter]
      (fun ks => tryAcquireScript lua ks now key counter millis owner) := by
  intro ks ks' h
  have hread := Keyspace.read_congr (h key (by simp)) now
  have hexists : ks.existsKey now key = ks'.existsKey now key := by
    rw [Keyspace.existsKey, Keyspace.existsKey, hread]
  cases hheld : ks'.existsKey now key with
  | true =>
    simp only [tryAcquireScript, hexists, hheld, if_true]
    exact ⟨[], _, by simp, rfl, rfl⟩
  | false =>
    simp only [tryAcquireScript, hexists, hheld, Bool.false_eq_true, if_false, Keyspace.incr]
    rcases Keyspace.incrBy_congr (h counter (by simp)) now 1 with ⟨e, hks, hks'⟩ | ⟨x, n, hks, hks'⟩
    · rw [hks, hks']
      exact ⟨[], _, by simp, rfl, rfl⟩
    · rw [hks, hks']
      by_cases hmillis : millis ≤ 0
      · simp only [Keyspace.psetex, if_pos hmillis]
        exact ⟨[(counter, x)], _, by simp, rfl, rfl⟩
      · simp only [Keyspace.psetex, if_neg hmillis]
        exact ⟨[(counter, x), (key, _)], _, by simp, rfl, rfl⟩

theorem guardedScript_localTo {now : Nat} {key : String} (value : String)
    {command : Keyspace → Keyspace × Int} (hcommand : Keyspace.LocalTo [key] command) :
    Keyspace.LocalTo [key] (fun ks => guardedScript ks now key value (command ks)) := by
  intro ks ks' h
  have hread := Keyspace.read_congr (h key List.mem_cons_self) now
  have hget : ks.get now key = ks'.get now key := by
    rw [Keyspace.get, Keyspace.get, hread]
  obtain ⟨writes, reply, hnames, hks, hks'⟩ := hcommand ks ks' h
  simp only [guardedScript, hget, hks, hks']
  split
  · exact ⟨[], _, by simp, rfl, rfl⟩
  · split
    · exact ⟨writes, _, hnames, rfl, rfl⟩
    · exact ⟨[], _, by simp, rfl, rfl⟩

theorem unlockScript_localTo (key value : String) :
    Keyspace.LocalTo [key] (fun ks => unlockScript ks now key value) :=
  guardedScript_localTo value (Keyspace.del_localTo now key)

theorem extendScript_localTo (key value : String) (millis : Int) :
    Keyspace.LocalTo [key] (fun ks => extendScript ks now key value millis) :=
  guardedScript_localTo value (Keyspace.pexpire_localTo now key millis)

/-! ### One step -/

/-- What an action does for its call: writes on the server, a change of a local record, and where
the call stands afterwards. -/
structure Effect where
  writes : List (String × Option Entry)
  record : Option (Nat × Option RedisLockState)
  state : Call

def Effect.apply (e : Effect) (call : Nat) (key : String) (s : System) : System :=
  let written := {s with redis := s.redis.write e.writes}
  match e.record with
  | none => written.setCall call e.state
  | some (locker, record) => (written.setRecord locker key record).setCall call e.state

/-- The effect stays with the lock on `key`. -/
structure Effect.Within (key : String) (e : Effect) : Prop where
  writes : ∀ w ∈ e.writes, w.1 = key ∨ w.1 = fencingCounterKey key
  state : e.state.OnKey key

theorem Effect.apply_eq (e : Effect) (call : Nat) (key : String) (s : System) :
    ∃ store, e.apply call key s =
        ⟨s.redis.write e.writes, s.clock, store, Function.update s.calls call e.state⟩ ∧
      (∀ locker other, other ≠ key → store locker other = s.lockStore locker other) ∧
      ∀ t : System, (∀ locker, s.lockStore locker key = t.lockStore locker key) →
        ∀ locker, store locker key = (e.apply call key t).lockStore locker key := by
  obtain ⟨writes, record, state⟩ := e
  rcases record with _ | ⟨l, record⟩
  · exact ⟨s.lockStore, rfl, fun _ _ _ => rfl, fun t h => h⟩
  · refine ⟨_, rfl, fun locker other hne => ?_, fun t h locker => ?_⟩
    · by_cases heq : locker = l
      · simp only [System.setRecord, heq, Function.update_self, Function.update_of_ne hne]
      · simp only [System.setRecord, Function.update_of_ne heq]
    · by_cases heq : locker = l
      · simp only [apply, System.setCall, System.setRecord, heq, Function.update_self]
      · simp only [apply, System.setCall, System.setRecord, Function.update_of_ne heq, h]

/-- An action of a call on `key` has the same effect and the same answer in two systems. -/
def Alike (call : Nat) (key : String) (s t : System) (x y : System × Answer) : Prop :=
  ∃ e : Effect, e.Within key ∧ x.1 = e.apply call key s ∧ y.1 = e.apply call key t ∧ x.2 = y.2

namespace Alike

variable {call : Nat} {key : String} {s t : System} {state : Call}

theorem stay (hsame : s.calls call = t.calls call) (hkey : (t.calls call).OnKey key)
    (answer : Answer) : Alike call key s t (s, answer) (t, answer) := by
  refine ⟨⟨[], none, t.calls call⟩, ⟨by simp, hkey⟩, ?_, ?_, rfl⟩
  · simp [Effect.apply, System.setCall, Keyspace.write, ← hsame]
  · simp [Effect.apply, System.setCall, Keyspace.write]

theorem setCall (hstate : state.OnKey key) (answer : Answer) :
    Alike call key s t (s.setCall call state, answer) (t.setCall call state, answer) :=
  ⟨⟨[], none, state⟩, ⟨by simp, hstate⟩, rfl, rfl, rfl⟩

theorem idle (answer : Answer) :
    Alike call key s t (s.setCall call .idle, answer) (t.setCall call .idle, answer) := by
  apply setCall
  trivial

theorem setRecord (locker : Nat) (record : Option RedisLockState) (answer : Answer) :
    Alike call key s t ((s.setRecord locker key record).setCall call .idle, answer)
      ((t.setRecord locker key record).setCall call .idle, answer) :=
  ⟨⟨[], some (locker, record), .idle⟩, ⟨by simp, trivial⟩, rfl, rfl, rfl⟩

/-- A script of the lock runs in both systems, at the same time. -/
theorem script {β : Type} (h : SameLock key s.redis t.redis) (hclock : s.clock = t.clock)
    {names : List String} {command : Nat → Keyspace → Keyspace × β}
    (hlocal : ∀ now, Keyspace.LocalTo names (command now))
    (hnames : ∀ name ∈ names, name = key ∨ name = fencingCounterKey key)
    (next : β → Call) (hnext : ∀ reply, (next reply).OnKey key) (answer : β → Answer) :
    Alike call key s t
      ({s with redis := (command s.clock s.redis).1}.setCall call
        (next (command s.clock s.redis).2), answer (command s.clock s.redis).2)
      ({t with redis := (command t.clock t.redis).1}.setCall call
        (next (command t.clock t.redis).2), answer (command t.clock t.redis).2) := by
  have hagree : ∀ name ∈ names, s.redis name = t.redis name := by
    intro name hname
    rcases hnames name hname with rfl | rfl
    · exact h.lock
    · exact h.counter
  obtain ⟨writes, reply, hwrites, hs, ht⟩ := hlocal t.clock s.redis t.redis hagree
  rw [← hclock] at hs
  rw [hs, ht]
  exact ⟨⟨writes, none, next reply⟩, ⟨fun w hw => hnames _ (hwrites w hw), hnext reply⟩, rfl, rfl,
    rfl⟩

theorem loadHeld (hrecords : ∀ locker, s.lockStore locker key = t.lockStore locker key)
    (hsame : s.calls call = t.calls call) (hkey : (t.calls call).OnKey key) (locker : Nat)
    {next : RedisLockState → Call} (hnext : ∀ held, (next held).OnKey key) :
    Alike call key s t (loadHeld s call locker key next) (loadHeld t call locker key next) := by
  rw [Lock.loadHeld, Lock.loadHeld, hrecords]
  cases (t.lockStore locker key).bind redisLockStateFromValue with
  | none => exact stay hsame hkey _
  | some held => exact setCall (hnext held) _

theorem lockReturn (locker : Nat) (owner : String) (millis : Int) (giveUp : Bool)
    (reply : Except String Reply) :
    Alike call key s t (lockReturn s call locker key owner millis giveUp reply)
      (lockReturn t call locker key owner millis giveUp reply) := by
  simp only [Lock.lockReturn]
  split
  · exact idle _
  · split
    · exact setRecord locker _ _
    · split
      · exact idle _
      · exact setCall (by rfl) _

theorem releaseReturn (locker : Nat) (always : Bool) (reply : Except String Reply) :
    Alike call key s t (releaseReturn s call locker key always reply)
      (releaseReturn t call locker key always reply) := by
  match reply with
  | .error _ | .ok (.bulk _) | .ok .nil => exact idle _
  | .ok (.int n) =>
    simp only [Lock.releaseReturn]
    split
    · exact setRecord locker none _
    · split
      · exact setRecord locker none _
      · exact idle _

/-- An action of a call on `key`, in two systems that agree on what the call can see. -/
theorem step (h : SameLock key s.redis t.redis) (hclock : s.clock = t.clock)
    (hrecords : ∀ locker, s.lockStore locker key = t.lockStore locker key)
    (hsame : s.calls call = t.calls call) (hkey : (t.calls call).OnKey key) (lua : LuaNumbers)
    {keyOf : Nat → String} {a : Action} (hkeyed : a.Keyed keyOf) (hcall : a.call? = some call)
    (hon : keyOf call = key) : Alike call key s t (step lua s a) (step lua t a) := by
  have hstay (answer : Answer) : Alike call key s t (s, answer) (t, answer) :=
    stay hsame hkey answer
  have hload := loadHeld hrecords hsame hkey
  -- What the action does depends on where the call stands, which is the same in both systems.
  cases a <;> cases hcall <;> simp only [Lock.step, hsame] <;>
    generalize t.calls call = state at hkey ⊢
  case beginLock locker name owner expiry =>
    obtain rfl : name = key := hkeyed.trans hon
    split
    · split
      · exact hstay _
      · exact setCall (by rfl) _
    · exact hstay _
  case acquire =>
    cases state with
    | acquiring locker name owner millis =>
      obtain rfl : name = key := hkey
      exact script h hclock
        (fun now => tryAcquireScript_localTo lua now name (fencingCounterKey name) millis owner)
        (by simp) (.acquired locker name owner millis) (fun _ => rfl) (acquireAnswer name owner)
    | _ => exact hstay _
  case lockReturn giveUp =>
    cases state with
    | acquired locker name owner millis reply =>
      obtain rfl : name = key := hkey
      exact lockReturn locker owner millis giveUp reply
    | _ => exact hstay _
  case beginUnlock locker name =>
    obtain rfl : name = key := hkeyed.trans hon
    split
    · exact hload locker fun _ => rfl
    · exact hstay _
  case runUnlock =>
    cases state with
    | unlocking locker name held =>
      obtain rfl : name = key := hkey
      exact script h hclock (fun now => unlockScript_localTo now name held.value) (by simp)
        (.unlocked locker name held) (fun _ => rfl) .replied
    | _ => exact hstay _
  case unlockReturn =>
    cases state with
    | unlocked locker name held reply =>
      obtain rfl : name = key := hkey
      exact releaseReturn locker true reply
    | _ => exact hstay _
  case beginExtend locker name extension =>
    obtain rfl : name = key := hkeyed.trans hon
    split
    · split
      · exact hstay _
      · exact hload locker fun _ => rfl
    · exact hstay _
  case runExtend =>
    cases state with
    | extending locker name held millis =>
      obtain rfl : name = key := hkey
      exact script h hclock (fun now => extendScript_localTo now name held.value millis) (by simp)
        (.extended locker name held) (fun _ => rfl) .replied
    | _ => exact hstay _
  case extendReturn =>
    cases state with
    | extended locker name held reply =>
      obtain rfl : name = key := hkey
      exact releaseReturn locker false reply
    | _ => exact hstay _
  case lose message =>
    cases state with
    | idle => exact hstay _
    | _ => exact idle _

end Alike

namespace SameView

variable {keyOf : Nat → String} {key : String} {s t : System} {call : Nat} {e : Effect}
  (h : SameView keyOf key s t)
include h

theorem keyed_update {state : Call} (hstate : state.OnKey (keyOf call))
    (other : Nat) : (Function.update s.calls call state other).OnKey (keyOf other) := by
  by_cases heq : other = call
  · rw [heq, Function.update_self]
    exact hstate
  · rw [Function.update_of_ne heq]
    exact h.keyed other

/-- The call of `key` moves in both systems. -/
theorem apply (hon : keyOf call = key) (he : e.Within key) :
    SameView keyOf key (e.apply call key s) (e.apply call key t) := by
  obtain ⟨store, hs, -, hstore⟩ := e.apply_eq call key s
  obtain ⟨store', ht, -, -⟩ := e.apply_eq call key t
  have hrecords := hstore t h.records
  rw [ht] at hrecords ⊢
  rw [hs]
  refine ⟨⟨Keyspace.write_congr h.redis.lock _, Keyspace.write_congr h.redis.counter _⟩, h.clock,
    hrecords, fun other hother => ?_, h.keyed_update (hon ▸ he.state)⟩
  by_cases heq : other = call
  · simp only [heq, Function.update_self]
  · simp only [Function.update_of_ne heq, h.calls other hother]

/-- A call on another lock key moves in one system only, neither of the two keys being the counter
of the other. -/
theorem apply_left {other : String} (hon : keyOf call = other)
    (hother : other ≠ key) (hlock : other ≠ fencingCounterKey key)
    (hcounter : fencingCounterKey other ≠ key) (he : e.Within other) :
    SameView keyOf key (e.apply call other s) t := by
  have hcounters : fencingCounterKey other ≠ fencingCounterKey key := fun heq =>
    hother (fencingCounterKey_inj heq)
  have hkept : ∀ name, other ≠ name → fencingCounterKey other ≠ name →
      s.redis.write e.writes name = s.redis name := fun name hne hne' =>
    Keyspace.write_of_ne fun w hw => (he.writes w hw).elim (· ▸ hne) (· ▸ hne')
  obtain ⟨store, hs, hstore, -⟩ := e.apply_eq call other s
  rw [hs]
  refine ⟨⟨(hkept key hother hcounter).trans h.redis.lock,
    (hkept _ hlock hcounters).trans h.redis.counter⟩, h.clock,
    fun locker => (hstore locker key hother.symm).trans (h.records locker),
    fun name hname => ?_, h.keyed_update (hon ▸ he.state)⟩
  have hne : name ≠ call := fun heq => hother (hon.symm.trans (heq ▸ hname))
  exact (Function.update_of_ne hne _ _).trans (h.calls name hname)

def StepSame (keyOf : Nat → String) (key : String) (x y : System × Answer) : Prop :=
  x.2 = y.2 ∧ SameView keyOf key x.1 y.1

/-- An action of a call on `key`, or time passing, in both systems. -/
theorem step_kept (lua : LuaNumbers) {a : Action}
    (hkeyed : a.Keyed keyOf) (hkept : a.keptFor keyOf key = true) :
    StepSame keyOf key (step lua s a) (step lua t a) := by
  cases hcall : a.call? with
  | some call =>
    have hon : keyOf call = key := by simpa [Action.keptFor, hcall] using hkept
    have hsame := h.calls call hon
    have hkey : (t.calls call).OnKey key := hsame ▸ hon ▸ h.keyed call
    obtain ⟨e, he, hs, ht, hanswer⟩ :=
      Alike.step h.redis h.clock h.records hsame hkey lua hkeyed hcall hon
    exact ⟨hanswer, hs ▸ ht ▸ h.apply hon he⟩
  | none =>
    cases a with
    | tick millis =>
      exact ⟨rfl, h.redis, congrArg (· + millis) h.clock, h.records, h.calls, h.keyed⟩
    | _ => cases hcall

/-- An action of a call on another lock key. -/
theorem step_dropped (lua : LuaNumbers) {a : Action}
    (hkeyed : a.Keyed keyOf) (hcall : a.call? = some call) {other : String}
    (hon : keyOf call = other) (hother : other ≠ key) (hlock : other ≠ fencingCounterKey key)
    (hcounter : fencingCounterKey other ≠ key) : SameView keyOf key (step lua s a).1 t := by
  obtain ⟨e, he, hs, -⟩ := Alike.step (s := s) ⟨rfl, rfl⟩ rfl (fun _ => rfl) rfl
    (hon ▸ h.keyed call) lua hkeyed hcall hon
  rw [hs]
  exact h.apply_left hon hother hlock hcounter he

end SameView

/-! ### Whole runs -/

/-- The answers to the calls on `key` and the fencing tokens held for it are those of the run in
which the calls on other keys never happened. -/
def Independent (keyOf : Nat → String) (key : String) (actions : List Action) : Prop :=
  (events lua actions).filter (fun entry => entry.1.keptFor keyOf key) =
    events lua (actions.filter (·.keptFor keyOf key)) ∧
  ∀ locker, (reached lua actions).fencingToken locker key =
    (reached lua (actions.filter (·.keptFor keyOf key))).fencingToken locker key

theorem independent_of_apart {keyOf : Nat → String} {key other : String}
    (hkeys : ∀ call, keyOf call = key ∨ keyOf call = other) (hother : other ≠ key)
    (hlock : other ≠ fencingCounterKey key) (hcounter : fencingCounterKey other ≠ key)
    {actions : List Action} (hactions : ∀ a ∈ actions, a.Keyed keyOf) :
    Independent lua keyOf key actions := by
  have hstart : SameView keyOf key System.initial System.initial :=
    ⟨⟨rfl, rfl⟩, rfl, fun _ => rfl, fun _ _ => rfl, fun _ => trivial⟩
  obtain ⟨htrace, hview⟩ := (lockMachine lua).trace_filter (·.keptFor keyOf key)
    (·.Keyed keyOf) (SameView keyOf key)
    (fun s t a h hkeyed hkept => h.step_kept lua hkeyed hkept)
    (fun s t a h hkeyed hdropped => by
      obtain ⟨call, hcall, hne⟩ : ∃ call, a.call? = some call ∧ keyOf call ≠ key := by
        cases hcall : a.call? with
        | none => simp [Action.keptFor, hcall] at hdropped
        | some call => exact ⟨call, rfl, by simpa [Action.keptFor, hcall] using hdropped⟩
      exact h.step_dropped lua hkeyed hcall ((hkeys call).resolve_left hne) hother hlock hcounter)
    hstart hactions
  refine ⟨htrace, fun locker => ?_⟩
  rw [System.fencingToken, System.fencingToken, hview.records]

def takeBoth (key other : String) : List Action :=
  [.beginLock 0 0 other "u" 1000000, .acquire 0, .beginLock 1 0 key "w" 1000000, .acquire 1]

def firstFor (key other : String) (call : Nat) : String := if call = 0 then other else key

theorem firstFor_cases (key other : String) (call : Nat) :
    firstFor key other call = key ∨ firstFor key other call = other := by
  rw [firstFor]
  split
  · exact .inr rfl
  · exact .inl rfl

theorem keyed_takeBoth (key other : String) :
    ∀ a ∈ takeBoth key other, a.Keyed (firstFor key other) := by
  simp [takeBoth, Action.Keyed, firstFor]

theorem tryAcquireScript_empty (key owner : String) :
    tryAcquireScript lua (fun _ => none) 0 key (fencingCounterKey key) 1 owner =
      (Keyspace.put (Keyspace.put (fun _ => none) (fencingCounterKey key)
          (some ⟨.number 1, none⟩)) key
        (some ⟨.text (lua.format 1 ++ ":" ++ owner), some 1⟩), .ok (.int 1)) := rfl

theorem length_fencingCounterKey (key : String) :
    (fencingCounterKey key).length = key.length + 6 := by
  rw [fencingCounterKey, String.length_append]
  rfl

/-- If taking both locks is independent, the lock on `key` is granted as on an empty server. -/
theorem granted_of_independent {lua : LuaNumbers} {key other : String} (hne : other ≠ key)
    (h : Independent lua (firstFor key other) key (takeBoth key other)) :
    acquireAnswer key "w" (tryAcquireScript lua
      (tryAcquireScript lua (fun _ => none) 0 other (fencingCounterKey other) 1 "u").1 0 key
        (fencingCounterKey key) 1 "w").2 = .granted key "w" 1 := by
  have hdropped : decide (firstFor key other 0 = key) = false := decide_eq_false hne
  have hkept : decide (firstFor key other 1 = key) = true := decide_eq_true rfl
  have htrace := h.1
  simp only [takeBoth, Machine.trace, List.filter, Action.keptFor, Action.call?, hdropped,
    hkept, List.cons.injEq, Prod.mk.injEq, true_and] at htrace
  exact htrace.2.1

/--
For distinct lock keys: in every sequence of calls the answers and fencing tokens of the calls on
the first are those of the sequence without the calls on the second, if and only if neither of
the keys is the key of the other's fencing counter.
-/
theorem locks_independent_iff_apart (key other : String) (hne : key ≠ other) :
    (∀ (lua : LuaNumbers) (keyOf : Nat → String) (actions : List Action),
      (∀ call, keyOf call = key ∨ keyOf call = other) → (∀ a ∈ actions, a.Keyed keyOf) →
      Independent lua keyOf key actions) ↔
      other ≠ fencingCounterKey key ∧ key ≠ fencingCounterKey other := by
  constructor
  · intro h
    have hgranted := granted_of_independent hne.symm
      (h decimalNumbers (firstFor key other) (takeBoth key other) (firstFor_cases key other)
        (keyed_takeBoth key other))
    rw [tryAcquireScript_empty] at hgranted
    constructor
    · -- The counter of `key` is the text of the other lock, which cannot be incremented.
      rintro rfl
      have hfence : key ≠ fencingCounterKey (fencingCounterKey key) := fun heq => by
        have hlength := congrArg String.length heq
        rw [length_fencingCounterKey, length_fencingCounterKey] at hlength
        omega
      rw [tryAcquireScript, Keyspace.existsKey, Keyspace.read_put_ne hne,
        Keyspace.read_put_ne hfence, Keyspace.incr, Keyspace.incrBy,
        Keyspace.read_put_self.mpr ⟨rfl, rfl⟩] at hgranted
      cases hgranted
    · -- The counter of the other lock stands where the lock on `key` is looked for.
      rintro rfl
      rw [tryAcquireScript, Keyspace.existsKey, Keyspace.read_put_ne hne,
        Keyspace.read_put_self.mpr ⟨rfl, rfl⟩] at hgranted
      cases hgranted
  · rintro ⟨hlock, hcounter⟩ lua keyOf actions hkeys hactions
    exact independent_of_apart lua hkeys hne.symm hlock hcounter.symm hactions

theorem locks_on_k_and_m_independent :
    Independent decimalNumbers (firstFor "k" "m") "k" (takeBoth "k" "m") := by
  have hapart : "m" ≠ fencingCounterKey "k" ∧ "k" ≠ fencingCounterKey "m" := by decide
  exact (locks_independent_iff_apart "k" "m" (by decide)).mpr hapart decimalNumbers
    (firstFor "k" "m") (takeBoth "k" "m") (firstFor_cases "k" "m") (keyed_takeBoth "k" "m")

/-- Beside a lock on its counter key the call on `k` fails that alone is granted: the counter
cannot be incremented because it is the text of the other lock. -/
theorem lock_fails_beside_its_counter_key :
    (((lockMachine decimalNumbers).step
        (reached decimalNumbers [.beginLock 0 0 "k:fence" "u" 1000000, .acquire 0,
          .beginLock 1 0 "k" "w" 1000000])
        (.acquire 1)).2 = .replied (.error "ERR value is not an integer or out of range")) ∧
      (((lockMachine decimalNumbers).step
        (reached decimalNumbers [.beginLock 1 0 "k" "w" 1000000])
        (.acquire 1)).2 = .granted "k" "w" 1) :=
  ⟨rfl, rfl⟩

end Photon.Lock
