import Photon.Lock.RedisLocker

/-!
The transitions of the lock system, read off `step` once. Every invariant below
is a case analysis of `Transition`; nothing else unfolds the step function.
-/

namespace Photon.Lock

open Photon.Lib Photon.Redis

def Call.key : Call → Option String
  | .idle => none
  | .acquiring _ key _ _ | .acquired _ key _ _ _ | .unlocking _ key _ | .unlocked _ key _ _
  | .extending _ key _ _ | .extended _ key _ _ => some key

def Call.held : Call → Option (String × RedisLockState)
  | .unlocking _ key held | .unlocked _ key held _ | .extending _ key held _
  | .extended _ key held _ => some (key, held)
  | _ => none

/-- The record a call is about to drop because its script found or left the key
without that value. -/
def Call.released : Call → Option (String × RedisLockState)
  | .unlocked _ key held (.ok (.int _)) => some (key, held)
  | .extended _ key held (.ok (.int 0)) => some (key, held)
  | _ => none

/-- A guarded script runs its command when the key holds its value, and does
nothing otherwise. -/
theorem guardedScript_cases (ks : Keyspace) (now : Nat) (key value : String)
    (command : Keyspace × Int) :
    (ks.get now key = .ok (some value) ∧
      guardedScript ks now key value command = (command.1, .ok (.int command.2))) ∨
    (ks.get now key ≠ .ok (some value) ∧ (guardedScript ks now key value command).1 = ks) := by
  unfold guardedScript
  cases hget : ks.get now key with
  | error e => exact Or.inr ⟨by simp, rfl⟩
  | ok found =>
    dsimp only
    by_cases hfound : found = some value
    · exact Or.inl ⟨by rw [hfound], if_pos hfound⟩
    · rw [if_neg hfound]
      exact Or.inr ⟨fun heq => hfound (Except.ok.inj heq), rfl⟩

theorem read_of_get {ks : Keyspace} {now : Nat} {key value : String}
    (h : ks.get now key = .ok (some value)) :
    ∃ e, ks.read now key = some e := by
  cases hread : ks.read now key with
  | none => simp [Keyspace.get, hread] at h
  | some e => exact ⟨e, rfl⟩

theorem data_ne_of_get_ne {ks : Keyspace} {now : Nat} {key value : String}
    (h : ks.get now key ≠ .ok (some value)) {e : Entry}
    (hread : ks.read now key = some e) : e.data ≠ .text value := by
  intro hdata
  obtain ⟨data, deadline⟩ := e
  obtain rfl : data = .text value := hdata
  simp [Keyspace.get, hread] at h

/-- What a guarded script does to the server: it leaves every other key alone, and what its own
key holds it held before. After a reply on which the call drops its record, the key does not hold
the value that the script was run for. -/
structure Guarded (ks : Keyspace) (now : Nat) (key value : String) (next : Keyspace)
    (dropped : Prop) : Prop where
  others : ∀ other, other ≠ key → next other = ks other
  kept : ∀ e, next.read now key = some e → ∃ old, ks.read now key = some old ∧ old.data = e.data
  gone : dropped → ∀ e, next.read now key = some e → e.data ≠ .text value

theorem guardedScript_guarded {ks : Keyspace} {now : Nat} {key : String} (value : String)
    {command : Keyspace × Int} (drops : Except String Reply → Prop)
    (hcommand : ∀ old, ks.read now key = some old → ∃ next n, command = (ks.put key next, n) ∧
      ∀ e, next = some e → old.data = e.data ∧ ¬ drops (.ok (.int n))) :
    Guarded ks now key value (guardedScript ks now key value command).1
      (drops (guardedScript ks now key value command).2) := by
  rcases guardedScript_cases ks now key value command with ⟨hget, hrun⟩ | ⟨hdiffers, hsame⟩
  · obtain ⟨old, hold⟩ := read_of_get hget
    obtain ⟨next, n, rfl, hnext⟩ := hcommand old hold
    rw [hrun]
    refine ⟨fun other hne => Keyspace.put_ne hne _, fun e hread => ⟨old, hold, ?_⟩,
      fun hdrops e hread => absurd hdrops ?_⟩
    · exact (hnext e (Keyspace.read_put_self.mp hread).1).1
    · exact (hnext e (Keyspace.read_put_self.mp hread).1).2
  · rw [hsame]
    exact ⟨fun _ _ => rfl, fun e hread => ⟨e, hread, rfl⟩,
      fun _ e hread => data_ne_of_get_ne hdiffers hread⟩

theorem extendScript_guarded (ks : Keyspace) (now : Nat) (key value : String) (millis : Int)
    (drops : Except String Reply → Prop) (hdrops : ¬ drops (.ok (.int 1))) :
    Guarded ks now key value (extendScript ks now key value millis).1
      (drops (extendScript ks now key value millis).2) := by
  refine guardedScript_guarded value drops fun old hold =>
    ⟨_, 1, Keyspace.pexpire_of_live hold millis, fun e hnext => ⟨?_, hdrops⟩⟩
  split at hnext
  · cases hnext
  · rw [← Option.some.inj hnext]

def Answer.Plain : Answer → Prop
  | .granted _ _ _ | .locked _ _ _ _ => False
  | _ => True

section

variable (lua : LuaNumbers) (s : System)

inductive Transition : Action → System → Answer → Prop where
  | stay {a : Action} {answer : Answer} (plain : answer.Plain) : Transition a s answer
  | finish {a : Action} {answer : Answer} (call : Nat) (plain : answer.Plain) :
      Transition a (s.setCall call .idle) answer
  | beginLock {call locker : Nat} {key owner : String} {expiry millis : Int} :
      Transition (.beginLock call locker key owner expiry)
        (s.setCall call (.acquiring locker key owner millis)) .pending
  | acquire {call locker : Nat} {key owner : String} {millis : Int}
      (at_ : s.calls call = .acquiring locker key owner millis) :
      Transition (.acquire call)
        ({s with redis := (tryAcquireScript lua s.redis s.clock key
          (fencingCounterKey key) millis owner).1}.setCall call
          (.acquired locker key owner millis (tryAcquireScript lua s.redis s.clock key
            (fencingCounterKey key) millis owner).2))
        (acquireAnswer key owner (tryAcquireScript lua s.redis s.clock key
          (fencingCounterKey key) millis owner).2)
  | retry {call locker : Nat} {key owner : String} {millis : Int} {giveUp : Bool}
      {reply : Except String Reply}
      (at_ : s.calls call = .acquired locker key owner millis reply) :
      Transition (.lockReturn call giveUp)
        (s.setCall call (.acquiring locker key owner millis)) .pending
  | locked {call locker : Nat} {key owner : String} {millis : Int} {giveUp : Bool}
      {token : Nat}
      (at_ : s.calls call = .acquired locker key owner millis (.ok (.int token)))
      (positive : 0 < token) :
      Transition (.lockReturn call giveUp)
        ((s.setRecord locker key (some ⟨lockValue token owner, token⟩)).setCall call .idle)
        (.locked locker key owner token)
  | beginUnlock {call locker : Nat} {key : String} {held : RedisLockState}
      (loaded : s.lockStore locker key = some held) :
      Transition (.beginUnlock call locker key)
        (s.setCall call (.unlocking locker key held)) .pending
  | run {a : Action} {call : Nat} {key : String} {held : RedisLockState} {state : Call}
      {redis : Keyspace} {reply : Except String Reply}
      (at_ : (s.calls call).held = some (key, held)) (after : state.held = some (key, held))
      (guarded : Guarded s.redis s.clock key held.value redis (state.released ≠ none)) :
      Transition a ({s with redis := redis}.setCall call state) (.replied reply)
  | dropUnlocked {call locker : Nat} {key : String} {held : RedisLockState} {n : Int}
      {answer : Answer} (at_ : s.calls call = .unlocked locker key held (.ok (.int n)))
      (plain : answer.Plain) :
      Transition (.unlockReturn call)
        ((s.setRecord locker key none).setCall call .idle) answer
  | beginExtend {call locker : Nat} {key : String} {held : RedisLockState}
      {extension millis : Int} (loaded : s.lockStore locker key = some held) :
      Transition (.beginExtend call locker key extension)
        (s.setCall call (.extending locker key held millis)) .pending
  | dropExtended {call locker : Nat} {key : String} {held : RedisLockState} {answer : Answer}
      (at_ : s.calls call = .extended locker key held (.ok (.int 0))) (plain : answer.Plain) :
      Transition (.extendReturn call)
        ((s.setRecord locker key none).setCall call .idle) answer
  | tick (millis : Nat) :
      Transition (.tick millis) {s with clock := s.clock + millis} .done

end

theorem redisLockStateFromValue_eq_some {found : Option RedisLockState} {held : RedisLockState}
    (h : found.bind redisLockStateFromValue = some held) : found = some held := by
  obtain ⟨state, rfl, hstate⟩ := Option.bind_eq_some_iff.mp h
  unfold redisLockStateFromValue at hstate
  split at hstate
  · cases hstate
  · exact hstate

theorem positiveUint64_eq_ok {reply : Except String Reply} {token : Nat}
    (h : reply.bind positiveUint64 = .ok token) : reply = .ok (.int token) := by
  cases reply with
  | error e => cases h
  | ok answer =>
    cases answer with
    | int n =>
      have hpositive : positiveUint64 (.int n) = .ok token := h
      rcases lt_or_ge n 0 with hnegative | hnonneg
      · rw [positiveUint64, if_pos hnegative] at hpositive
        cases hpositive
      · rw [positiveUint64, if_neg (not_lt.mpr hnonneg)] at hpositive
        have htoken := Except.ok.inj hpositive
        have hn : n = (token : Int) := by omega
        rw [hn]
    | bulk text => cases h
    | nil => cases h

theorem lockReturn_transition (lua : LuaNumbers) {s : System} {call locker : Nat}
    {key owner : String} {millis : Int} {reply : Except String Reply}
    (at_ : s.calls call = .acquired locker key owner millis reply) (giveUp : Bool) :
    Transition lua s (.lockReturn call giveUp)
      (lockReturn s call locker key owner millis giveUp reply).1
      (lockReturn s call locker key owner millis giveUp reply).2 := by
  unfold lockReturn
  split
  · exact .finish call trivial
  · next token htoken =>
      split
      · next hpositive =>
          obtain rfl := positiveUint64_eq_ok htoken
          exact .locked at_ hpositive
      · split
        · exact .finish call trivial
        · exact .retry at_

theorem loadHeld_eq (s : System) (call locker : Nat) (key : String)
    (next : RedisLockState → Call) :
    loadHeld s call locker key next = (s, .failed errLockNotHeld) ∨
      ∃ held, s.lockStore locker key = some held ∧
        loadHeld s call locker key next = (s.setCall call (next held), .pending) := by
  unfold loadHeld
  cases hfound : (s.lockStore locker key).bind redisLockStateFromValue with
  | none => exact Or.inl rfl
  | some held => exact Or.inr ⟨held, redisLockStateFromValue_eq_some hfound, rfl⟩

/-- Every step is one of the transitions. -/
theorem step_transition (lua : LuaNumbers) (s : System) (a : Action) :
    Transition lua s a (step lua s a).1 (step lua s a).2 := by
  cases a with
  | beginLock call locker key owner expiry =>
    simp only [step]
    split
    · split
      · exact .stay trivial
      · exact .beginLock
    · exact .stay trivial
  | acquire call =>
    simp only [step]
    split
    · next at_ => exact .acquire at_
    · exact .stay trivial
  | lockReturn call giveUp =>
    simp only [step]
    split
    · next at_ => exact lockReturn_transition lua at_ giveUp
    · exact .stay trivial
  | beginUnlock call locker key =>
    simp only [step]
    split
    · rcases loadHeld_eq s call locker key _ with h | ⟨held, hheld, h⟩
      · rw [h]
        exact .stay trivial
      · rw [h]
        exact .beginUnlock hheld
    · exact .stay trivial
  | runUnlock call =>
    simp only [step]
    split
    · next locker key held at_ =>
        exact .run (congrArg Call.held at_) rfl (guardedScript_guarded _ (fun reply =>
          (Call.unlocked locker key held reply).released ≠ none) fun _ hold =>
            ⟨none, 1, by simp [Keyspace.del, hold], nofun⟩)
    · exact .stay trivial
  | unlockReturn call =>
    simp only [step]
    split
    · next at_ =>
        unfold releaseReturn
        split
        · exact .finish call trivial
        · split <;> exact .dropUnlocked at_ trivial
        · exact .finish call trivial
    · exact .stay trivial
  | beginExtend call locker key extension =>
    simp only [step]
    split
    · split
      · exact .stay trivial
      · rcases loadHeld_eq s call locker key _ with h | ⟨held, hheld, h⟩
        · rw [h]
          exact .stay trivial
        · rw [h]
          exact .beginExtend hheld
    · exact .stay trivial
  | runExtend call =>
    simp only [step]
    split
    · next locker key held millis at_ =>
        exact .run (congrArg Call.held at_) rfl (extendScript_guarded _ _ _ _ _ (fun reply =>
          (Call.extended locker key held reply).released ≠ none) fun h => h rfl)
    · exact .stay trivial
  | extendReturn call =>
    simp only [step]
    split
    · next at_ =>
        unfold releaseReturn
        split
        · exact .finish call trivial
        · split
          · next hzero => exact .dropExtended (hzero ▸ at_) trivial
          · exact .finish call trivial
        · exact .finish call trivial
    · exact .stay trivial
  | lose call message =>
    simp only [step]
    split
    · exact .stay trivial
    · exact .finish call trivial
    · exact .finish call trivial
    · exact .finish call trivial
  | tick millis => exact .tick millis

end Photon.Lock
