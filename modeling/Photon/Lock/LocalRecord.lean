import Photon.Lock.Safety

/-!
The local record of a shared locker. A call reads the record before its round
trip and writes it afterwards, so the record can be newer than what the call
knows. As long as every local deletion removes the record its call had loaded,
and no local store replaces a newer record, the record of a live lock is the one
on the server; otherwise a late reply about an older lock can erase it.
-/

namespace Photon.Lock

open Photon.Lib Photon.Redis

/-- `Lock` returned the token to a caller of this locker. -/
def Returned (past : List Event) (locker : Nat) (key owner : String) (token : Nat) : Prop :=
  ∃ action, (action, Answer.locked locker key owner token) ∈ past

def Issued (past : List Event) (key : String) (held : RedisLockState) : Prop :=
  ∃ owner, held.value = lockValue held.token owner ∧ Granted past key owner held.token

variable {held : RedisLockState} {past : List Event}

theorem Issued.append {key : String} (h : Issued past key held) (event : Event) :
    Issued (past ++ [event]) key held := by
  obtain ⟨owner, hvalue, hgranted⟩ := h
  exact ⟨owner, hvalue, hgranted.append event⟩

theorem Call.held_of_released {c : Call} {key : String} (h : c.released = some (key, held)) :
    c.held = some (key, held) := by
  unfold released at h
  split at h
  · exact h
  · exact h
  · cases h

def Gone (s : System) (key value : String) : Prop :=
  ∀ e, s.stored key = some e → e.data ≠ .text value

/-- What a call knows: the record it loaded was issued, and the record it is
about to drop is not backed by the server. -/
structure CallKnows (past : List Event) (s : System) (c : Call) : Prop where
  issued : ∀ key held, c.held = some (key, held) → Issued past key held
  gone : ∀ key held, c.released = some (key, held) → Gone s key held.value

theorem callKnows_nothing (past : List Event) (s : System) {c : Call} (h : c.held = none) :
    CallKnows past s c := by
  refine ⟨?_, ?_⟩
  · intro key held hheld
    rw [h] at hheld
    cases hheld
  · intro key held hreleased
    rw [Call.held_of_released hreleased] at h
    cases h

structure RecordInv (past : List Event) (s : System) : Prop where
  keys : ∀ key owner token, Granted past key owner token → LockKey key
  records : ∀ locker key held, s.lockStore locker key = some held → Issued past key held
  calls : ∀ call, CallKnows past s (s.calls call)
  agrees : ∀ locker key owner token, Returned past locker key owner token →
    Gone s key (lockValue token owner) ∨
      s.lockStore locker key = some ⟨lockValue token owner, token⟩

section Scripts

variable {ks : Keyspace} {now : Nat} {key : String}

/-- Acquiring leaves every other key alone and stores a fresh token at its own. -/
theorem tryAcquireScript_read (h : ServerInv past ks now) (lua : LuaNumbers)
    (hbound : counterOf ks key + 1 < 10 ^ 14) {millis : Int} {owner : String} {other : String}
    (hother : LockKey other) {e : Entry}
    (hread : (tryAcquireScript lua ks now key (fencingCounterKey key) millis owner).1.read now
      other = some e) :
    ks.read now other = some e ∨
      ∃ rival, e.data = .text (lockValue (counterOf ks other + 1) rival) := by
  have hcounter : other ≠ fencingCounterKey key := hother key
  rcases h.tryAcquireScript_cases lua hbound millis owner with
    htaken | ⟨_, ⟨_, hfailed⟩ | hgranted⟩
  · rw [htaken] at hread
    exact Or.inl hread
  · rw [hfailed] at hread
    rw [Keyspace.read_put_ne hcounter] at hread
    exact Or.inl hread
  · rw [hgranted] at hread
    rcases eq_or_ne other key with rfl | hne
    · obtain ⟨hnext, _⟩ := Keyspace.read_put_self.mp hread
      cases hnext
      exact Or.inr ⟨owner, rfl⟩
    · rw [Keyspace.read_put_ne hne, Keyspace.read_put_ne hcounter] at hread
      exact Or.inl hread

end Scripts

variable {key owner : String} {lua : LuaNumbers}

/-- What a key holds after a step, it held before or it was granted just now. -/
theorem stored_after {s t : System} {a : Action} {answer : Answer} (h : SystemInv past s)
    (htransition : Transition lua s a t answer) (hok : Permitted s a) {key : String}
    (hkey : LockKey key) {e : Entry} (hstored : t.stored key = some e) :
    (∃ old, s.stored key = some old ∧ old.data = e.data) ∨
      ∃ owner, e.data = .text (lockValue (counterOf s.redis key + 1) owner) := by
  have hsame (hread : s.redis.read s.clock key = some e) :
      ∃ old, s.stored key = some old ∧ old.data = e.data := ⟨e, hread, rfl⟩
  cases htransition with
  | @acquire call locker name owner millis at_ =>
    have hbound := hok name (by rw [at_]; rfl)
    rcases tryAcquireScript_read h.server lua hbound hkey hstored with hold | hnew
    · exact Or.inl (hsame hold)
    · exact Or.inr hnew
  | @run _ call name held state redis reply at_ after guarded =>
    rcases eq_or_ne key name with rfl | hne
    · exact Or.inl (guarded.kept e hstored)
    · exact Or.inl (hsame ((Keyspace.read_congr (guarded.others key hne) _).symm.trans hstored))
  | tick millis => exact Or.inl (hsame (Keyspace.read_mono (Nat.le_add_right _ _) hstored))
  | stay | finish | beginLock | retry | locked | beginUnlock | dropUnlocked | beginExtend
  | dropExtended => exact Or.inl (hsame hstored)

variable {token : Nat}

/-- A granted value that is gone stays gone. -/
theorem Gone.after {s t : System} {a : Action} {answer : Answer} (h : SystemInv past s)
    (htransition : Transition lua s a t answer) (hok : Permitted s a) (hkey : LockKey key)
    (hgranted : Granted past key owner token) (hgone : Gone s key (lockValue token owner)) :
    Gone t key (lockValue token owner) := by
  intro e hstored hdata
  rcases stored_after h htransition hok hkey hstored with ⟨old, hold, hsame⟩ | ⟨rival, hnew⟩
  · exact hgone old hold (hsame.trans hdata)
  · obtain ⟨htoken, _⟩ := lockValue_inj (Data.text.inj (hnew.symm.trans hdata))
    have hbound := h.server.bounded key token hgranted.mem_tokens
    omega

/-- The condition on a run: a local deletion finds the record its call had
loaded, or none, and a local store finds no record with the same or a higher
token. -/
def KeepsNewer (s : System) : Action → Prop
  | .lockReturn call _ => ∀ locker key owner millis token,
      s.calls call = .acquired locker key owner millis (.ok (.int token)) → 0 < token →
      ∀ held, s.lockStore locker key = some held → (held.token : Int) < token
  | .unlockReturn call => ∀ locker key held n,
      s.calls call = .unlocked locker key held (.ok (.int n)) →
      s.lockStore locker key = none ∨ s.lockStore locker key = some held
  | .extendReturn call => ∀ locker key held,
      s.calls call = .extended locker key held (.ok (.int 0)) →
      s.lockStore locker key = none ∨ s.lockStore locker key = some held
  | _ => True

theorem setRecord_ne (s : System) {locker other : Nat} {key name : String}
    (record : Option RedisLockState) (hne : other ≠ locker ∨ name ≠ key) :
    (s.setRecord locker key record).lockStore other name = s.lockStore other name := by
  rcases eq_or_ne other locker with rfl | hlocker
  · have hname : name ≠ key := hne.resolve_left (fun h => h rfl)
    simp [System.setRecord, hname]
  · simp [System.setRecord, hlocker]

namespace RecordInv

variable {past : List Event} {s t : System} {lua : LuaNumbers} {a : Action} {answer : Answer}

theorem initial : RecordInv [] System.initial := by
  refine ⟨?_, ?_, fun _ => callKnows_nothing _ _ rfl, ?_⟩
  · rintro key owner token ⟨_, hmem⟩
    cases hmem
  · intro locker key held hheld
    cases hheld
  · rintro locker key owner token ⟨_, hmem⟩
    cases hmem

variable {key owner : String} {locker : Nat}

theorem granted_of_returned (hs : SystemInv past s) (h : Returned past locker key owner token) :
    Granted past key owner token := by
  obtain ⟨action, hmem⟩ := h
  exact hs.returned action locker key owner token hmem

section

variable (h : RecordInv past s) (hs : SystemInv past s) (htransition : Transition lua s a t answer)
  (hok : Permitted s a)
include h hs htransition hok

/-- The value of a record that was issued and is gone stays gone. -/
theorem gone_after {key : String} (hissued : Issued past key held) (hgone : Gone s key held.value) :
    Gone t key held.value := by
  obtain ⟨owner, hvalue, hgranted⟩ := hissued
  rw [hvalue] at hgone ⊢
  exact hgone.after hs htransition hok (h.keys key owner _ hgranted) hgranted

/-- What every step keeps, once its effect on records and calls is known. -/
theorem of_parts (hkeys : ∀ key owner token, answer = .granted key owner token → LockKey key)
    (hrecords : ∀ locker key held, t.lockStore locker key = some held →
      s.lockStore locker key = some held ∨ Issued past key held)
    (hcalls : ∀ call, t.calls call = s.calls call ∨ CallKnows past t (t.calls call))
    (hagrees : ∀ locker key owner token, Returned (past ++ [(a, answer)]) locker key owner token →
      Gone t key (lockValue token owner) ∨
        t.lockStore locker key = some ⟨lockValue token owner, token⟩) :
    RecordInv (past ++ [(a, answer)]) t := by
  refine ⟨?_, ?_, ?_, hagrees⟩
  · rintro key owner token ⟨action, hmem⟩
    rcases List.mem_append.mp hmem with hold | hnew
    · exact h.keys key owner token ⟨action, hold⟩
    · have heq := List.mem_singleton.mp hnew
      exact hkeys key owner token (Prod.mk.inj heq).2.symm
  · intro locker key held hheld
    rcases hrecords locker key held hheld with hold | hissued
    · exact (h.records locker key held hold).append _
    · exact hissued.append _
  · intro call
    rcases hcalls call with hsame | hknows
    · have hcall := h.calls call
      rw [hsame]
      refine ⟨fun key held hheld => (hcall.issued key held hheld).append _, ?_⟩
      intro key held hreleased
      exact h.gone_after hs htransition hok
        (hcall.issued key held (Call.held_of_released hreleased))
        (hcall.gone key held hreleased)
    · exact ⟨fun key held hheld => (hknows.issued key held hheld).append _, hknows.gone⟩

/-- Records that a step does not touch keep agreeing. -/
theorem still_agrees (hreturned : Returned past locker key owner token)
    (hsame : t.lockStore locker key = s.lockStore locker key) :
    Gone t key (lockValue token owner) ∨
      t.lockStore locker key = some ⟨lockValue token owner, token⟩ := by
  have hgranted := granted_of_returned hs hreturned
  rcases h.agrees locker key owner token hreturned with hgone | hrecord
  · exact Or.inl (hgone.after hs htransition hok (h.keys key owner _ hgranted) hgranted)
  · exact Or.inr (hsame.trans hrecord)

end

theorem returned_of_append {event : Event}
    (hreturned : Returned (past ++ [event]) locker key owner token) :
    Returned past locker key owner token ∨ event.2 = .locked locker key owner token := by
  obtain ⟨action, hmem⟩ := hreturned
  rcases List.mem_append.mp hmem with hold | hnew
  · exact Or.inl ⟨action, hold⟩
  · have heq := List.mem_singleton.mp hnew
    exact Or.inr (heq ▸ rfl)

section

variable (h : RecordInv past s) (hs : SystemInv past s)
include h hs

/-- A step that leaves the local records alone. -/
theorem keeps (htransition : Transition lua s a t answer) (hok : Permitted s a)
    (hkeys : ∀ key owner token, answer = .granted key owner token → LockKey key)
    (hlocked : ∀ locker key owner token, answer ≠ .locked locker key owner token)
    (hstore : t.lockStore = s.lockStore)
    (hcalls : ∀ call, t.calls call = s.calls call ∨ CallKnows past t (t.calls call)) :
    RecordInv (past ++ [(a, answer)]) t := by
  apply h.of_parts hs htransition hok hkeys _ hcalls
  · intro locker key owner token hreturned
    rcases returned_of_append hreturned with hold | hnew
    · exact h.still_agrees hs htransition hok hold (by rw [hstore])
    · exact absurd hnew (hlocked locker key owner token)
  · intro locker key held hheld
    rw [hstore] at hheld
    exact Or.inl hheld

theorem keeps_plain (htransition : Transition lua s a t answer) (hok : Permitted s a)
    (hplain : answer.Plain) (hstore : t.lockStore = s.lockStore)
    (hcalls : ∀ call, t.calls call = s.calls call ∨ CallKnows past t (t.calls call)) :
    RecordInv (past ++ [(a, answer)]) t :=
  h.keeps hs htransition hok
    (fun key owner token hanswer => absurd hanswer (hplain.not_granted key owner token))
    hplain.not_locked hstore hcalls

/-- A step that writes one local record and ends its call has to account for that
record alone. -/
theorem writes {call locker : Nat} {key : String} {record : Option RedisLockState}
    (htransition : Transition lua s a ((s.setRecord locker key record).setCall call .idle) answer)
    (hok : Permitted s a) (hgrants : ∀ name owner token, answer ≠ .granted name owner token)
    (hreturns : ∀ other name owner token, answer = .locked other name owner token →
      other = locker ∧ name = key) (hissued : ∀ held, record = some held → Issued past key held)
    (hagrees : ∀ owner token, Returned (past ++ [(a, answer)]) locker key owner token →
      Gone ((s.setRecord locker key record).setCall call .idle) key (lockValue token owner) ∨
        record = some ⟨lockValue token owner, token⟩) :
    RecordInv (past ++ [(a, answer)]) ((s.setRecord locker key record).setCall call .idle) := by
  have hself : ((s.setRecord locker key record).setCall call .idle).lockStore locker key =
      record := by simp [System.setRecord, System.setCall]
  apply h.of_parts hs htransition hok
  · intro name owner token hanswer
    exact absurd hanswer (hgrants name owner token)
  · intro other name held hheld
    by_cases hsame : other = locker ∧ name = key
    · obtain ⟨rfl, rfl⟩ := hsame
      exact Or.inr (hissued held (hself.symm.trans hheld))
    · exact Or.inl ((setRecord_ne s record (not_and_or.mp hsame)).symm.trans hheld)
  · exact SystemInv.setCall_cases _ call (callKnows_nothing _ _ rfl)
  · intro other name owner token hreturned
    by_cases hsame : other = locker ∧ name = key
    · obtain ⟨rfl, rfl⟩ := hsame
      rw [hself]
      exact hagrees owner token hreturned
    · rcases returned_of_append hreturned with hold | hnew
      · exact h.still_agrees hs htransition hok hold
          (setRecord_ne s record (not_and_or.mp hsame))
      · exact absurd (hreturns other name owner token hnew) hsame

/-- A step that drops a local record which the server no longer backs. -/
theorem drops {call locker : Nat} {key : String}
    (htransition : Transition lua s a ((s.setRecord locker key none).setCall call .idle) answer)
    (hok : Permitted s a) (hplain : answer.Plain)
    (hreleased : (s.calls call).released = some (key, held))
    (hkeeps : s.lockStore locker key = none ∨ s.lockStore locker key = some held) :
    RecordInv (past ++ [(a, answer)]) ((s.setRecord locker key none).setCall call .idle) := by
  apply h.writes hs htransition hok hplain.not_granted
  · intro other name owner token hnew
    exact absurd hnew (hplain.not_locked other name owner token)
  · intro held hnone
    cases hnone
  · intro owner token hreturned
    left
    rcases returned_of_append hreturned with hold | hnew
    · rcases h.agrees locker key owner token hold with hgone | hrecord
      · have hgranted := granted_of_returned hs hold
        exact hgone.after hs htransition hok (h.keys key owner _ hgranted) hgranted
      · rcases hkeeps with hnone | hloaded
        · rw [hrecord] at hnone
          cases hnone
        · cases hrecord.symm.trans hloaded
          exact h.gone_after hs htransition hok
            ((h.calls call).issued key _ (Call.held_of_released hreleased))
            ((h.calls call).gone key _ hreleased)
    · exact absurd hnew (hplain.not_locked locker key owner token)

/-- A step that stores the record of a lock no older than the one in place. -/
theorem stores {call locker : Nat} {millis : Int} {giveUp : Bool}
    (at_ : s.calls call = .acquired locker key owner millis (.ok (.int token)))
    (positive : 0 < token) (lua : LuaNumbers)
    (hnewer : ∀ held, s.lockStore locker key = some held → (held.token : Int) < token) :
    RecordInv (past ++ [(.lockReturn call giveUp, .locked locker key owner token)])
      ((s.setRecord locker key (some ⟨lockValue token owner, token⟩)).setCall call .idle) := by
  have htransition : Transition lua s (.lockReturn call giveUp)
      ((s.setRecord locker key (some ⟨lockValue token owner, token⟩)).setCall call .idle)
      (.locked locker key owner token) := .locked at_ positive
  have hok : Permitted s (.lockReturn call giveUp) := trivial
  have hgranted : Granted past key owner token :=
    (hs.calls call).reply locker key owner millis token at_ (by omega)
  apply h.writes hs htransition hok
  · intro name rival other hanswer
    cases hanswer
  · intro other name rival n hnew
    obtain ⟨rfl, rfl, _, _⟩ := Answer.locked.inj hnew
    exact ⟨rfl, rfl⟩
  · intro held hheld
    cases hheld
    exact ⟨owner, rfl, hgranted⟩
  · intro rival n hreturned
    rcases returned_of_append hreturned with hold | hnew
    · have hrival := granted_of_returned hs hold
      left
      rcases h.agrees locker key rival n hold with hgone | hrecord
      · exact hgone.after hs htransition hok (h.keys key rival _ hrival) hrival
      · intro e hstored hdata
        have hsmaller : (n : Int) < token := hnewer _ hrecord
        have hbound := hs.server.bounded key token hgranted.mem_tokens
        obtain ⟨_, hlatest, _⟩ :=
          hs.server.latest key (h.keys key rival _ hrival) e hstored
        obtain ⟨hlast, _⟩ := lockValue_inj (Data.text.inj (hlatest.symm.trans hdata))
        omega
    · obtain ⟨_, _, rfl, rfl⟩ := Answer.locked.inj hnew
      exact Or.inr rfl

end

/-- A call knows the record it holds, if that was issued. -/
theorem knows_held {key : String} (hissued : Issued past key held) {c : Call}
    (hheld : c.held = some (key, held)) (hgone : c.released ≠ none → Gone t key held.value) :
    CallKnows past t c := by
  refine ⟨?_, ?_⟩
  · intro name record hrecord
    cases hheld.symm.trans hrecord
    exact hissued
  · intro name record hrecord
    have hsame := Call.held_of_released hrecord
    cases hheld.symm.trans hsame
    exact hgone (by simp [hrecord])

/-- A permitted step that keeps newer records keeps the invariant. -/
theorem transition (h : RecordInv past s) (hs : SystemInv past s)
    (htransition : Transition lua s a t answer) (hok : Permitted s a) (hkeeps : KeepsNewer s a) :
    RecordInv (past ++ [(a, answer)]) t := by
  have hkept := htransition
  cases htransition with
  | stay plain => exact h.keeps_plain hs hkept hok plain rfl fun _ => Or.inl rfl
  | finish call plain =>
    exact h.keeps_plain hs hkept hok plain rfl
      (SystemInv.setCall_cases s call (callKnows_nothing _ _ rfl))
  | beginLock | retry =>
    exact h.keeps_plain hs hkept hok trivial rfl
      (SystemInv.setCall_cases s _ (callKnows_nothing _ _ rfl))
  | @acquire call locker key owner millis at_ =>
    apply h.keeps hs hkept hok
    · intro name rival token hanswer
      rw [acquireAnswer_eq_granted hanswer]
      exact (hs.calls call).key key (by rw [at_]; rfl)
    · exact acquireAnswer_ne_locked key owner _
    · rfl
    · exact SystemInv.setCall_cases _ call (callKnows_nothing _ _ rfl)
  | locked at_ positive =>
    exact h.stores hs at_ positive lua (hkeeps _ _ _ _ _ at_ (by omega))
  | beginUnlock loaded | beginExtend loaded =>
    exact h.keeps_plain hs hkept hok trivial rfl (SystemInv.setCall_cases s _
      (knows_held (h.records _ _ _ loaded) rfl fun hnone => absurd rfl hnone))
  | @run _ call key held state redis reply at_ after guarded =>
    exact h.keeps_plain hs hkept hok trivial rfl (SystemInv.setCall_cases _ call
      (knows_held ((h.calls call).issued key held at_) after guarded.gone))
  | dropUnlocked at_ plain =>
    exact h.drops hs hkept hok plain (by rw [at_]; rfl) (hkeeps _ _ _ _ at_)
  | dropExtended at_ plain =>
    exact h.drops hs hkept hok plain (by rw [at_]; rfl) (hkeeps _ _ _ at_)
  | tick millis => exact h.keeps_plain hs hkept hok trivial rfl fun _ => Or.inl rfl

end RecordInv

/-- `Lock` returns positive tokens only. -/
theorem Transition.locked_positive {s next : System} {a : Action} {answer : Answer}
    (h : Transition lua s a next answer) {locker : Nat}
    (hanswer : answer = .locked locker key owner token) : 0 < token := by
  cases h with
  | stay plain | finish _ plain | dropUnlocked _ plain | dropExtended _ plain =>
    exact absurd hanswer (plain.not_locked locker key owner token)
  | acquire at_ =>
    unfold acquireAnswer at hanswer
    split at hanswer
    · split at hanswer <;> cases hanswer
    · cases hanswer
  | locked at_ positive =>
    cases hanswer
    exact positive
  | beginLock | retry | beginUnlock | beginExtend | run | tick => cases hanswer

theorem returned_positive {actions : List Action} {locker : Nat}
    (h : Returned (events lua actions) locker key owner token) : 0 < token := by
  obtain ⟨action, hmem⟩ := h
  obtain ⟨past, rest, hsplit⟩ := List.append_of_mem hmem
  obtain ⟨before, _, _, _, hanswer⟩ := (lockMachine lua).trace_eq_append hsplit
  exact (step_transition lua _ action).locked_positive hanswer

/-- A record of a positive token is the one `FencingToken` reports. -/
theorem fencingToken_of_record {s : System} {locker : Nat}
    (hrecord : s.lockStore locker key = some ⟨lockValue token owner, token⟩)
    (hpositive : 0 < token) : s.fencingToken locker key = some token := by
  have hvalue : lockValue token owner ≠ "" := by
    intro hempty
    simpa [lockValue] using congrArg String.length hempty
  simp [System.fencingToken, hrecord, redisLockStateFromValue, hvalue, hpositive.ne']

/-- In every run whose local deletions and stores keep newer records, a locker
whose `Lock` returned the value that the server holds has exactly that value and
token in its `lockStore`, and `FencingToken` reports that token. -/
theorem local_record_follows_live_lock (lua : LuaNumbers) (actions : List Action)
    (hsteps : (lockMachine lua).AllSteps (fun s a => Permitted s a ∧ KeepsNewer s a)
      System.initial actions)
    (locker : Nat) (key owner : String) (token : Nat) (e : Entry)
    (hreturned : Returned (events lua actions) locker key owner token)
    (hstored : (reached lua actions).stored key = some e)
    (hvalue : e.data = .text (lockValue token owner)) :
    (reached lua actions).lockStore locker key = some ⟨lockValue token owner, token⟩ ∧
      (reached lua actions).fencingToken locker key = some token := by
  have hrun := (lockMachine lua).trace_invariant
    (fun past s => SystemInv past s ∧ RecordInv past s)
    (fun s a => Permitted s a ∧ KeepsNewer s a)
    (fun past s a h hok => ⟨h.1.transition (step_transition lua s a) hok.1,
      h.2.transition h.1 (step_transition lua s a) hok.1 hok.2⟩)
    [] System.initial actions ⟨systemInv_initial, RecordInv.initial⟩ hsteps
  rw [List.nil_append] at hrun
  rcases hrun.2.agrees locker key owner token hreturned with hgone | hrecord
  · exact absurd hvalue (hgone e hstored)
  · exact ⟨hrecord, fencingToken_of_record hrecord (returned_positive hreturned)⟩

/-- After a takeover by another locker, the new owner's record is the live one. -/
theorem expiredTakeover_record :
    (reached decimalNumbers expiredTakeover).lockStore 1 "k" = some ⟨lockValue 2 "w", 2⟩ ∧
      (reached decimalNumbers expiredTakeover).fencingToken 1 "k" = some 2 := by
  have hcounter {s : System} {call : Nat} (hkey : (s.calls call).key = some "k")
      (hsmall : counterOf s.redis "k" + 1 < 10 ^ 14) : Permitted s (.acquire call) := by
    intro key hname
    cases hkey.symm.trans hname
    exact hsmall
  refine local_record_follows_live_lock decimalNumbers expiredTakeover ?_ 1 "k" "w" 2
    ⟨.text (lockValue 2 "w"), some 3⟩ ⟨.lockReturn 1 false, ?_⟩ rfl rfl
  · refine ⟨⟨lockKey_k, trivial⟩, ⟨hcounter rfl (by decide), trivial⟩, ⟨trivial, ?_⟩,
      ⟨trivial, trivial⟩, ⟨lockKey_k, trivial⟩, ⟨hcounter rfl (by decide), trivial⟩,
      ⟨trivial, ?_⟩, trivial⟩
    all_goals
      intro locker key owner millis token hcall _ held hheld
      cases hcall
      cases hheld
  · exact List.getLast_mem (by simp [expiredTakeover, Machine.trace])

/-- A call that loaded the first lock's record unlocks after that lock expired
and the same locker took the key again. -/
def lateUnlock : List Action :=
  [.beginLock 0 0 "k" "u" 1000000, .acquire 0, .lockReturn 0 false, .beginUnlock 1 0 "k",
    .tick 2, .beginLock 2 0 "k" "w" 1000000, .acquire 2, .lockReturn 2 false, .runUnlock 1,
    .unlockReturn 1]

/-- The late unlock leaves no call in flight and the second lock in place on the
server, and has erased its local record. -/
theorem late_unlock_erases_newer_record :
    (∀ call, (reached decimalNumbers lateUnlock).calls call = .idle) ∧
    Returned (events decimalNumbers lateUnlock) 0 "k" "w" 2 ∧
    (reached decimalNumbers lateUnlock).stored "k" = some ⟨.text (lockValue 2 "w"), some 3⟩ ∧
    (reached decimalNumbers lateUnlock).lockStore 0 "k" = none ∧
    (reached decimalNumbers lateUnlock).fencingToken 0 "k" = none := by
  refine ⟨?_, ⟨.lockReturn 2 false, ?_⟩, rfl, rfl, rfl⟩
  · intro call
    match call with
    | 0 => rfl
    | 1 => rfl
    | 2 => rfl
    | n + 3 => rfl
  · have hevent : (events decimalNumbers lateUnlock)[7]? =
        some (.lockReturn 2 false, .locked 0 "k" "w" 2) := rfl
    exact List.mem_of_getElem? hevent

end Photon.Lock
