import Photon.FlashDb.History

/-!
`Exists` among other calls. It reads the clock, looks the key up under the read lock and,
for an expired record, looks again under the write lock; other goroutines may take
the shard's lock in between. The span of one call is a machine whose steps are the
acquisitions of the lock and the passing of time.

A call of another goroutine has read the clock at some earlier moment too, so a record
can be stored that has already expired.
-/

namespace Photon.FlashDb

open Photon.Lib Photon.Stdlib

def Call.writtenExpiry (opts : Options) (key : String) : Call → Option Time
  | .set name _ ttl now => if name = key then some (opts.expiryFor ttl now) else none
  | .setTTL name ttl now => if name = key then some (ttlExpiry ttl now) else none
  | _ => none

def Call.reading : Call → Option Time
  | .existsKey _ now | .get _ now | .set _ _ _ now | .increment _ _ now | .decrement _ _ now
  | .append _ _ now | .getTTL _ now _ | .setTTL _ _ now | .sweepShard _ now _ => some now
  | .delete _ => none

section Expiry

variable {L : Type} {st : Store L} {key : String} {record : Record} [AdmissionPolicy L]

/-- The critical section of a call leaves a record the expiry it had, or writes it. -/
theorem Call.critical_expiry {c : Call} {name : String} (hname : c.key? = some name)
    (st : Store L) {sh : Shard} (h : (c.critical st sh).1.data.lookup key = some record) :
    (∃ old, sh.data.lookup key = some old ∧ old.expiry = record.expiry) ∨
      c.writtenExpiry st.opts key = some record.expiry := by
  obtain ⟨used, hedit, -⟩ := Call.critical_edit st hname sh
  rcases hedit.lookup_eq_some h with ⟨rfl, hstores⟩ | hold
  · cases c with
    | set name' value ttl now =>
      cases hname
      exact Or.inr ((if_pos rfl).trans (congrArg (some ∘ Record.expiry) hstores).symm)
    | setTTL name' ttl now =>
      cases hname
      obtain ⟨old, -, -, hexpiry⟩ := hstores
      exact Or.inr ((if_pos rfl).trans (congrArg some hexpiry).symm)
    | increment name' _ _ | decrement name' _ _ =>
      cases hname
      obtain ⟨old, hold, -, hexpiry⟩ := hstores
      exact Or.inl ⟨old, hold, hexpiry.symm⟩
    | append name' appends now =>
      cases hname
      rcases hstores with ⟨old, hold, -, hexpiry⟩ | ⟨old, hold, hexpiry, -⟩ <;>
        exact Or.inl ⟨old, hold, hexpiry.symm⟩
    | existsKey | get | delete | getTTL | sweepShard => exact hstores.elim
  · exact Or.inl ⟨record, hold, rfl⟩

/-- A record has the expiry it had before the call, or the one the call wrote. -/
theorem expiry_after_perform (c : Call) (h : (perform st c).1.recordOf key = some record) :
    (∃ old, st.recordOf key = some old ∧ old.expiry = record.expiry) ∨
      c.writtenExpiry st.opts key = some record.expiry := by
  rcases perform_cases st c with ⟨name, hworks⟩ | hrefused | ⟨i, now, order, rfl⟩
  · rw [Store.recordOf_congr hworks.shards, Store.recordOf] at h
    unfold Store.recordOf
    rcases st.putShard_shardFor name key (c.critical st (st.shardFor name)).1 with
      ⟨hput, hsame⟩ | hother
    · rw [hput] at h
      rw [hsame]
      exact Call.critical_expiry hworks.key_eq st h
    · rw [hother] at h
      exact Or.inl ⟨record, h, rfl⟩
  · rw [hrefused] at h
    exact Or.inl ⟨record, h, rfl⟩
  · rcases st.sweepShard_recordOf i now order key with hnone | heq
    · exact absurd (hnone.symm.trans h) (by simp)
    · exact Or.inl ⟨record, heq ▸ h, rfl⟩

end Expiry

/-- Where a call of `Exists` stands: before the read lock, between the two locks, or at
its return. It has read the clock at `now`. -/
inductive ExistsPhase
  | called (now : Time)
  | sawExpired (now : Time)
  | returned (answer : Except Err Bool)

structure ExistsSpan (L : Type) where
  store : Store L
  clock : Time
  phase : ExistsPhase

inductive SpanAction
  | advance (duration : Nat)
  | other (c : Call)
  | readLock
  | writeLock

section Span

variable {L : Type} [AdmissionPolicy L]

def callExists (key : String) (store : Store L) (clock : Time) : ExistsSpan L :=
  ⟨store, clock, if key = "" then .returned (.error .invalidKey) else .called clock⟩

/-- A step of the span. Another call has read the clock before it gets the lock; a step
that cannot be taken changes nothing, and the span ends with the return. -/
def existsStep (key : String) (s : ExistsSpan L) (a : SpanAction) : ExistsSpan L :=
  match s.phase, a with
  | .returned _, _ => s
  | _, .advance duration => {s with clock := s.clock + duration}
  | _, .other c =>
    if ∀ now ∈ c.reading, now ≤ s.clock then {s with store := (perform s.store c).1} else s
  | .called now, .readLock =>
    match (s.store.shardFor key).existsRead key now with
    | none => {s with phase := .returned (.ok false)}
    | some false => {s with phase := .returned (.ok true)}
    | some true => {s with phase := .sawExpired now}
  | .sawExpired now, .writeLock =>
    let out := (s.store.shardFor key).existsRemove key now
    {s with store := s.store.putShard key out.1, phase := .returned (.ok out.2)}
  | _, _ => s

def existsMachine (key : String) : Machine (ExistsSpan L) SpanAction Unit :=
  ⟨fun s a => (existsStep key s a, ())⟩

def ExistsSpan.Holds (key : String) (s : ExistsSpan L) : Prop :=
  ∃ record, s.store.recordOf key = some record ∧ record.isExpired s.clock = false

omit [AdmissionPolicy L] in
theorem ExistsSpan.not_holds_of_all {key : String} {s : ExistsSpan L}
    (h : (s.store.recordOf key).all (fun record => record.isExpired s.clock) = true) :
    ¬ s.Holds key := by
  rintro ⟨record, hrecord, hlive⟩
  rw [hrecord, Option.all_some, hlive] at h
  cases h

/-- What the true answer rests on: no other call stores a record for the key that has
already expired, and the record is still there when the write lock is taken. -/
def ExistsSpan.Undisturbed (key : String) (s : ExistsSpan L) : SpanAction → Prop
  | .other c => ∀ expiry ∈ c.writtenExpiry s.store.opts key, expiry = 0 ∨ s.clock ≤ expiry
  | .writeLock => ∀ now, s.phase = .sawExpired now → ∃ record, s.store.recordOf key = some record
  | _ => True

/-- Undisturbed by other calls, the two sections are the call `existsKey`. -/
theorem existsMachine_alone (key : String) (store : Store L) (clock : Time) :
    let last := (existsMachine key).run (callExists key store clock) [.readLock, .writeLock]
    last.store = (store.existsKey key clock).1 ∧
      last.phase = .returned (store.existsKey key clock).2 := by
  have hput := store.putShard_self key
  by_cases hkey : key = ""
  · simp [existsMachine, existsStep, callExists, Store.existsKey, hkey]
  · simp only [Machine.run_cons, Machine.run_nil, existsMachine, callExists, if_neg hkey,
      Store.existsKey, existsStep, Shard.existsKey]
    cases (store.shardFor key).existsRead key clock with
    | none => exact ⟨hput.symm, rfl⟩
    | some expired =>
      cases expired with
      | false => exact ⟨hput.symm, rfl⟩
      | true => exact ⟨rfl, rfl⟩

section Answers

variable {key : String} {s : ExistsSpan L} {now : Time}

theorem isExpired_mono {record : Record} (h : record.isExpired now = true) {later : Time}
    (hle : now ≤ later) : record.isExpired later = true := by
  simp only [Record.isExpired, Bool.and_eq_true, decide_eq_true_eq] at h ⊢
  exact ⟨h.1, h.2.trans_le hle⟩

/-- Before the return the clock has not gone back, and the answer is not `false`. -/
private def NotFalse (s : ExistsSpan L) : Prop :=
  match s.phase with
  | .called now | .sawExpired now => now ≤ s.clock
  | .returned answer => answer ≠ .ok false

/-- If a record is held at every instant, the answer is not `false`. -/
private theorem notFalse_step (a : SpanAction) (h : NotFalse s) (hholds : s.Holds key) :
    NotFalse (existsStep key s a) := by
  obtain ⟨record, hrecord, hlive⟩ := hholds
  obtain ⟨store, clock, phase⟩ := s
  have hadvance : ∀ now duration, now ≤ clock → now ≤ clock + duration :=
    fun _ duration hle => hle.trans (Nat.le_add_right clock duration)
  cases phase with
  | returned answer => exact h
  | called now =>
    cases a with
    | advance duration => exact hadvance now duration h
    | other c =>
      unfold existsStep
      dsimp only
      split <;> exact h
    | readLock =>
      have hread : (store.shardFor key).existsRead key now = some (record.isExpired now) := by
        rw [Shard.existsRead, ← Store.recordOf, hrecord]
        rfl
      unfold existsStep
      dsimp only
      rw [hread]
      cases record.isExpired now with
      | false =>
        intro heq
        cases heq
      | true => exact h
    | writeLock => exact h
  | sawExpired now =>
    cases a with
    | advance duration => exact hadvance now duration h
    | other c =>
      unfold existsStep
      dsimp only
      split <;> exact h
    | readLock => exact h
    | writeLock =>
      have hnow : record.isExpired now = false := by
        by_contra hexpired
        have hlater := isExpired_mono (Bool.eq_true_of_not_eq_false hexpired) h
        exact absurd (hlater.symm.trans hlive) (by decide)
      have hremove :
          (store.shardFor key).existsRemove key now = (store.shardFor key, true) := by
        rw [Shard.existsRemove, ← Store.recordOf, hrecord]
        simp [hnow]
      unfold existsStep
      dsimp only
      rw [hremove]
      intro heq
      cases heq

/-- Before the return there is no record that had not expired when the clock was read,
and the answer is not `true`. -/
private def NotTrue (key : String) (s : ExistsSpan L) : Prop :=
  match s.phase with
  | .called now | .sawExpired now => now ≤ s.clock ∧
      ∀ record, s.store.recordOf key = some record → record.isExpired now = true
  | .returned answer => answer ≠ .ok true

/-- What another call leaves for the key had expired before, or is held now. -/
private theorem expired_after_other {store : Store L} {clock : Time} {c : Call}
    (hold : ∀ record, store.recordOf key = some record → record.isExpired now = true)
    (hfresh : ∀ expiry ∈ c.writtenExpiry store.opts key, expiry = 0 ∨ clock ≤ expiry)
    (hnext : ¬ ∃ record, (perform store c).1.recordOf key = some record ∧
      record.isExpired clock = false) :
    ∀ record, (perform store c).1.recordOf key = some record → record.isExpired now = true := by
  intro record hrecord
  rcases expiry_after_perform c hrecord with ⟨old, hbefore, hexpiry⟩ | hwritten
  · rw [Record.isExpired, ← hexpiry]
    exact hold old hbefore
  · exact absurd ⟨record, hrecord, (record.isExpired_eq_false clock).mpr (hfresh _ hwritten)⟩ hnext

/-- If no record is held at any instant, an undisturbed call does not answer `true`. -/
private theorem notTrue_step (a : SpanAction) (h : NotTrue key s) (hok : s.Undisturbed key a)
    (hnext : ¬ (existsStep key s a).Holds key) : NotTrue key (existsStep key s a) := by
  obtain ⟨store, clock, phase⟩ := s
  cases phase with
  | returned answer => exact h
  | called now =>
    obtain ⟨hclock, hold⟩ := h
    cases a with
    | advance duration => exact ⟨hclock.trans (Nat.le_add_right clock duration), hold⟩
    | other c =>
      simp only [existsStep] at hnext ⊢
      split
      · next hread =>
          rw [if_pos hread] at hnext
          exact ⟨hclock, expired_after_other hold hok hnext⟩
      · exact ⟨hclock, hold⟩
    | readLock =>
      unfold existsStep
      dsimp [Shard.existsRead]
      cases hrecord : (store.shardFor key).data.lookup key with
      | none => exact nofun
      | some record =>
        simp only [Option.map_some, hold record hrecord]
        exact ⟨hclock, hold⟩
    | writeLock => exact ⟨hclock, hold⟩
  | sawExpired now =>
    obtain ⟨hclock, hold⟩ := h
    cases a with
    | advance duration => exact ⟨hclock.trans (Nat.le_add_right clock duration), hold⟩
    | other c =>
      simp only [existsStep] at hnext ⊢
      split
      · next hread =>
          rw [if_pos hread] at hnext
          exact ⟨hclock, expired_after_other hold hok hnext⟩
      · exact ⟨hclock, hold⟩
    | readLock => exact ⟨hclock, hold⟩
    | writeLock =>
      obtain ⟨record, hrecord⟩ := hok now rfl
      have hremove : ((store.shardFor key).existsRemove key now).2 = false := by
        rw [Shard.existsRemove, ← Store.recordOf, hrecord]
        simp [hold record hrecord]
      unfold existsStep
      dsimp only
      rw [NotTrue, hremove]
      exact nofun

end Answers

/-- For every interleaving: a call of `Exists` that answers `false` was answered about an
instant of its span at which no unexpired record was held. If the span is undisturbed,
one that answers `true` was answered about an instant at which one was held. -/
theorem exists_answers_about_an_instant (key : String) (store : Store L) (clock : Time)
    (actions : List SpanAction) (answer : Bool)
    (hreturned : ((existsMachine key).run (callExists key store clock) actions).phase =
      .returned (.ok answer)) :
    (answer = false → ∃ before, before <+: actions ∧
      ¬ ((existsMachine key).run (callExists key store clock) before).Holds key) ∧
    ((existsMachine key).AllSteps (ExistsSpan.Undisturbed key) (callExists key store clock)
        actions →
      answer = true → ∃ before, before <+: actions ∧
        ((existsMachine key).run (callExists key store clock) before).Holds key) := by
  refine ⟨?_, ?_⟩
  · rintro rfl
    by_contra hnone
    have hholds : ∀ before, before <+: actions →
        ((existsMachine key).run (callExists key store clock) before).Holds key := by
      intro before hbefore
      by_contra hmissing
      exact hnone ⟨before, hbefore, hmissing⟩
    have hstart : NotFalse (callExists key store clock) := by
      by_cases hkey : key = "" <;> simp [NotFalse, callExists, hkey]
    have hlast := (existsMachine key).run_invariant_along NotFalse (ExistsSpan.Holds key)
      (fun _ _ => True) (fun s a h _ hnow _ => notFalse_step a h hnow) _ actions hstart hholds
      ((existsMachine key).allSteps_of_forall_mem _ fun _ _ => trivial)
    rw [NotFalse, hreturned] at hlast
    exact hlast rfl
  · rintro hsteps rfl
    by_contra hnone
    have hmissing : ∀ before, before <+: actions →
        ¬ ((existsMachine key).run (callExists key store clock) before).Holds key :=
      fun before hbefore hholds => hnone ⟨before, hbefore, hholds⟩
    have hstart : NotTrue key (callExists key store clock) := by
      by_cases hkey : key = ""
      · simp [NotTrue, callExists, hkey]
      · simp only [NotTrue, callExists, if_neg hkey, le_refl, true_and]
        intro record hrecord
        by_contra hlive
        exact hmissing [] List.nil_prefix ⟨record, hrecord, by simpa [callExists] using hlive⟩
    have hlast := (existsMachine key).run_invariant_along (NotTrue key)
      (fun s => ¬ s.Holds key) (ExistsSpan.Undisturbed key)
      (fun s a h hok _ hnext => notTrue_step a h hok hnext) _ actions hstart hmissing hsteps
    rw [NotTrue, hreturned] at hlast
    exact hlast rfl

end Span

private def secondRun : List Call := [.set "a" (counterRecord 1) 1000000000 1]

/-- A refresh between the two locks: `Exists` finds an expired record, another call sets
the key again, and the answer is `true`. -/
theorem exists_after_refresh :
    ∃ st : Store (TinyLfu String), new smallOptions = .ok st ∧
      ∃ stored, stored = storeMachine.run st secondRun ∧
      ∃ before, before <+: [SpanAction.readLock,
          .other (.set "a" (counterRecord 2) 0 2000000000), .writeLock] ∧
        ((existsMachine "a").run (callExists "a" stored 2000000000) before).Holds "a" := by
  obtain ⟨st, hst⟩ := exists_small
  refine ⟨st, hst, _, rfl, ?_⟩
  cases hst
  refine (exists_answers_about_an_instant "a" _ 2000000000 _ true rfl).2 ?_ rfl
  refine ⟨trivial, ?_, ?_, trivial⟩
  · intro expiry hexpiry
    cases hexpiry
    exact Or.inl rfl
  · exact fun _ _ => ⟨_, rfl⟩

/-- A deletion between the two locks: the record had expired before `Exists` was called
and is gone when the write lock is taken, and still the answer is `true`. -/
theorem exists_true_after_delete :
    ∃ st : Store (TinyLfu String), new smallOptions = .ok st ∧
      ∃ stored, stored = storeMachine.run st secondRun ∧
      ((existsMachine "a").run (callExists "a" stored 2000000000)
        [.readLock, .other (.delete "a"), .writeLock]).phase = .returned (.ok true) ∧
      ∀ before, before <+: [SpanAction.readLock, .other (.delete "a"), .writeLock] →
        ¬ ((existsMachine "a").run (callExists "a" stored 2000000000) before).Holds "a" := by
  refine ⟨_, rfl, _, rfl, rfl, ?_⟩
  intro before hbefore
  rcases (List.mem_inits _ _).mpr hbefore with _ | ⟨_, _ | ⟨_, _ | ⟨_, _ | ⟨_, hmore⟩⟩⟩⟩
  · exact ExistsSpan.not_holds_of_all rfl
  · exact ExistsSpan.not_holds_of_all rfl
  · exact ExistsSpan.not_holds_of_all rfl
  · exact ExistsSpan.not_holds_of_all rfl
  · cases hmore

end Photon.FlashDb
