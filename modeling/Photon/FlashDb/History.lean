import Photon.FlashDb.Frame

/-!
What the store serves, read off the history of acknowledged writes. The ledger
of a key is the abstract store: the last acknowledged write, dropped by an
acknowledged deletion and re-dated by a successful `SetTTL`. The concrete store
may forget a ledger entry at any time, by eviction or expiry, but whatever it
still holds agrees with the ledger.
-/

namespace Photon.FlashDb

open Photon.Lib Photon.Stdlib

def Call.keepsFields : Call → Bool
  | .increment .. | .decrement .. | .append .. => false
  | _ => true

def Op.keepsFields : Op → Bool
  | .call c => c.keepsFields
  | _ => true

def IsSet (key : String) (event : Event) : Prop :=
  ∃ value ttl now, event = (.set key value ttl now, .stored (.ok true))

def IsDelete (key : String) (event : Event) : Prop :=
  event = (.delete key, .deleted (.ok true))

def expiryStep (key : String) (expiry : Time) : Event → Time
  | (.setTTL name ttl now, .done (.ok ())) => if name = key then ttlExpiry ttl now else expiry
  | _ => expiry

/-- The expiry of `key` after the successful `SetTTL` calls among `events`. -/
def expiryAfter (key : String) (expiry : Time) (events : List Event) : Time :=
  events.foldl (expiryStep key) expiry

def ledgerStep (opts : Options) (key : String) (entry : Option (FieldMap × Time)) :
    Event → Option (FieldMap × Time)
  | (.set name value ttl now, .stored (.ok true)) =>
    if name = key then some (value, opts.expiryFor ttl now) else entry
  | (.delete name, .deleted (.ok true)) => if name = key then none else entry
  | (.setTTL name ttl now, .done (.ok ())) =>
    if name = key then entry.map (fun old => (old.1, ttlExpiry ttl now)) else entry
  | _ => entry

def ledger (opts : Options) (key : String) (history : List Event) :
    Option (FieldMap × Time) :=
  history.foldl (ledgerStep opts key) none

theorem ledger_snoc (opts : Options) (key : String) (history : List Event) (event : Event) :
    ledger opts key (history ++ [event]) =
      ledgerStep opts key (ledger opts key history) event := by
  simp [ledger]

variable {key : String}

/-- What one event can do to an entry it does not drop: it is a write of the
key, or it keeps the value and may move the expiry. -/
theorem ledgerStep_eq_some {opts : Options} {entry : Option (FieldMap × Time)} {event : Event}
    {value : FieldMap} {expiry : Time}
    (h : ledgerStep opts key entry event = some (value, expiry)) :
    (∃ ttl now, event = (.set key value ttl now, .stored (.ok true)) ∧
      expiry = opts.expiryFor ttl now) ∨
    (¬ IsSet key event ∧ ¬ IsDelete key event ∧
      ∃ old, entry = some (value, old) ∧ expiry = expiryStep key old event) := by
  unfold ledgerStep at h
  split at h
  · next name stored ttl now =>
      split at h
      · next hname =>
          subst hname
          cases h
          exact Or.inl ⟨ttl, now, rfl, rfl⟩
      · next hname =>
          refine Or.inr ⟨?_, ?_, expiry, h, rfl⟩
          · rintro ⟨_, _, _, heq⟩
            exact hname (Call.set.inj (Prod.mk.inj heq).1).1
          · intro heq
            cases (Prod.mk.inj heq).1
  · next name =>
      split at h
      · cases h
      · next hname =>
          refine Or.inr ⟨?_, ?_, expiry, h, rfl⟩
          · rintro ⟨_, _, _, heq⟩
            cases (Prod.mk.inj heq).1
          · intro heq
            exact hname (Call.delete.inj (Prod.mk.inj heq).1)
  · next name ttl now =>
      have hset : ¬ IsSet key (.setTTL name ttl now, .done (.ok ())) := by
        rintro ⟨_, _, _, heq⟩
        cases (Prod.mk.inj heq).1
      have hdelete : ¬ IsDelete key (.setTTL name ttl now, .done (.ok ())) := by
        intro heq
        cases (Prod.mk.inj heq).1
      split at h
      · next hname =>
          obtain ⟨⟨kept, old⟩, hentry, heq⟩ := Option.map_eq_some_iff.mp h
          cases heq
          exact Or.inr ⟨hset, hdelete, old, hentry, by simp [expiryStep, hname]⟩
      · next hname => exact Or.inr ⟨hset, hdelete, expiry, h, by simp [expiryStep, hname]⟩
  · next hset hdelete hsetTTL =>
      refine Or.inr ⟨?_, ?_, expiry, h, ?_⟩
      · rintro ⟨_, _, _, rfl⟩
        exact hset _ _ _ _ rfl
      · intro heq
        exact hdelete _ heq
      · unfold expiryStep
        split
        · exact absurd rfl (hsetTTL _ _ _)
        · rfl

/-- A ledger entry names the most recent acknowledged write of the key, with no
acknowledged deletion since, and the expiry fixed last. -/
theorem ledger_eq_some {opts : Options} {history : List Event} {value : FieldMap} {expiry : Time}
    (h : ledger opts key history = some (value, expiry)) :
    ∃ before ttl now after,
      history = before ++ (.set key value ttl now, .stored (.ok true)) :: after ∧
      (∀ event ∈ after, ¬ IsSet key event ∧ ¬ IsDelete key event) ∧
      expiry = expiryAfter key (opts.expiryFor ttl now) after := by
  induction history using List.reverseRecOn generalizing expiry with
  | nil => cases h
  | append_singleton history event ih =>
    rw [ledger_snoc] at h
    rcases ledgerStep_eq_some h with ⟨ttl, now, rfl, rfl⟩ | ⟨hset, hdelete, old, hentry, rfl⟩
    · exact ⟨history, ttl, now, [], rfl, by simp, rfl⟩
    · obtain ⟨before, ttl, now, after, rfl, hafter, rfl⟩ := ih hentry
      refine ⟨before, ttl, now, after ++ [event], by simp, ?_, ?_⟩
      · intro other hother
        rcases List.mem_append.mp hother with hold | hlast
        · exact hafter other hold
        · obtain rfl := List.mem_singleton.mp hlast
          exact ⟨hset, hdelete⟩
      · simp [expiryAfter]

/-- Whatever the store holds for a key is the key's ledger entry. -/
def Agrees {L : Type} (opts : Options) (past : List Event) (st : Store L) : Prop :=
  st.opts = opts ∧ ∀ key record, st.recordOf key = some record →
    ledger opts key past = some (record.value, record.expiry)

section Agreement

variable {L : Type} {opts : Options} {past : List Event} {st : Store L}

theorem newWith_agrees {newLfu : Options → Except String L}
    (hnew : newWith newLfu opts = .ok st) : Agrees st.opts [] st := by
  refine ⟨rfl, ?_⟩
  intro key record hrecord
  obtain ⟨perShard, hempty⟩ := newWith_shards hnew (st.shardFor_mem key)
  rw [Store.recordOf, hempty] at hrecord
  cases hrecord

variable [AdmissionPolicy L]

/-- A call leaves the entries of other keys alone. -/
theorem ledgerStep_ne {c : Call} {key name : String} (hkey : c.key? = some name) (hne : name ≠ key)
    (entry : Option (FieldMap × Time)) (reply : Reply) :
    ledgerStep opts key entry (c, reply) = entry := by
  unfold ledgerStep
  split
  · next heq =>
      obtain ⟨rfl, -⟩ := Prod.mk.inj heq
      cases hkey
      exact if_neg hne
  · next heq =>
      obtain ⟨rfl, -⟩ := Prod.mk.inj heq
      cases hkey
      exact if_neg hne
  · next heq =>
      obtain ⟨rfl, -⟩ := Prod.mk.inj heq
      cases hkey
      exact if_neg hne
  · rfl

/-- The record of a call's own key and its ledger entry move alike: an acknowledged deletion
drops both, a stored value becomes the entry and a successful `SetTTL` re-dates it. -/
theorem Call.critical_ledger {c : Call} (hc : c.keepsFields = true) (hkey : c.key? = some key)
    {sh : Shard} {entry : Option (FieldMap × Time)}
    (hentry : ∀ record, sh.data.lookup key = some record →
      entry = some (record.value, record.expiry)) {record : Record}
    (h : (c.critical st sh).1.data.lookup key = some record) :
    ledgerStep st.opts key entry (c, (c.critical st sh).2) =
      some (record.value, record.expiry) := by
  cases c with
  | existsKey name now => exact hentry record ((sh.existsKey_edit name now _).lookup_of_no_stores h)
  | get name now => exact hentry record ((sh.get_edit name now _).lookup_of_no_stores h)
  | set name value ttl now =>
    obtain rfl := Option.some.inj hkey
    simp only [Call.critical, Prod.map_fst, Prod.map_snd, id, Function.comp_apply] at h ⊢
    rcases sh.set_lookup_self ((st.recordAccess name).admits name) name value
      (st.opts.expiryFor ttl now) with hnone | ⟨hstored, hnew⟩
    · cases hnone.symm.trans h
    · cases hnew.symm.trans h
      rw [hstored]
      exact if_pos rfl
  | delete name =>
    obtain rfl := Option.some.inj hkey
    simp only [Call.critical, Prod.map_fst, Prod.map_snd, id, Function.comp_apply] at h ⊢
    cases hlookup : sh.data.lookup name with
    | none =>
      simp only [Shard.delete, hlookup] at h
      cases h
    | some old =>
      simp only [Shard.delete, hlookup] at h
      cases (sh.removeLocked_lookup_self name).symm.trans h
  | getTTL name now remaining =>
    exact hentry record ((sh.getTTL_edit name now remaining _).lookup_of_no_stores h)
  | setTTL name ttl now =>
    obtain rfl := Option.some.inj hkey
    simp only [Call.critical, Prod.map_fst, Prod.map_snd, id] at h ⊢
    rcases sh.setTTL_cases name ttl now with ⟨old, hold, hanswer, hdata⟩ | ⟨hanswer, hshrinks⟩
    · rw [hdata, AList.lookup_insert] at h
      cases h
      rw [hanswer, hentry old hold]
      exact if_pos rfl
    · rw [hanswer]
      exact hentry record (hshrinks.lookup_eq_some h)
  | increment | decrement | append => cases hc
  | sweepShard => cases hkey

/-- One call that keeps fields keeps agreement. -/
theorem Agrees.perform (h : Agrees opts past st) (c : Call) (hc : c.keepsFields = true) :
    Agrees opts (past ++ [(c, (perform st c).2)]) (perform st c).1 := by
  refine ⟨(perform_sameShape st c).opts.trans h.1, fun key record hrecord => ?_⟩
  rw [ledger_snoc]
  rcases perform_cases st c with ⟨name, hworks⟩ | hrefused | ⟨i, now, order, rfl⟩
  · rw [hworks.answer]
    rw [Store.recordOf_congr hworks.shards] at hrecord
    by_cases hname : name = key
    · subst hname
      rw [Store.recordOf, Store.putShard_shardFor_self] at hrecord
      rw [← h.1]
      exact Call.critical_ledger hc hworks.key_eq (fun old hold => h.1 ▸ h.2 name old hold) hrecord
    · rw [ledgerStep_ne hworks.key_eq hname]
      apply h.2 key record
      rcases st.recordOf_putShard_cases name (c.critical st (st.shardFor name)).1 key with
        ⟨hput, hsame⟩ | hother
      · obtain ⟨_, hedit, -⟩ := Call.critical_edit st hworks.key_eq (st.shardFor name)
        rw [hsame]
        exact (hedit.lookup_eq_some (hput.symm.trans hrecord)).resolve_left
          fun hself => hname hself.1.symm
      · exact hother.symm.trans hrecord
  · rw [hrefused] at hrecord ⊢
    have hentry := h.2 key record hrecord
    cases c <;> exact hentry
  · apply h.2 key record
    rcases st.sweepShard_recordOf i now order key with hnone | heq
    · cases hnone.symm.trans hrecord
    · exact heq.symm.trans hrecord

/-- Whatever `Get` answers is stored for the key and has not expired. -/
theorem get_answer {st : Store L} {now : Time} {value : FieldMap}
    (h : (FlashDb.perform st (.get key now)).2 = .value (.ok value)) :
    ∃ record, st.recordOf key = some record ∧ record.value = value ∧
      record.isExpired now = false := by
  have hanswer : (st.get key now).2 = .ok value := Reply.value.inj h
  by_cases hkey : key = ""
  · rw [Store.get, if_pos hkey] at hanswer
    cases hanswer
  · exact (st.get_eq_ok_iff hkey now value).mp hanswer

/-- Batch methods and janitor ticks only make calls that keep fields. -/
theorem keepsFields_of_mem_callsOf {count : Nat} {ops : List Op}
    (hops : ∀ op ∈ ops, op.keepsFields = true) {c : Call} (hc : c ∈ callsOf count ops) :
    c.keepsFields = true := by
  obtain ⟨op, hop, hcall⟩ := List.mem_flatMap.mp hc
  cases op with
  | call only =>
    obtain rfl := List.mem_singleton.mp hcall
    exact hops _ hop
  | multiGet | multiSet | multiDelete | janitor =>
    obtain ⟨_, _, rfl⟩ := List.mem_map.mp hcall
    rfl

/-- A run of calls that keep fields keeps agreement. -/
theorem Agrees.run (h : Agrees opts past st) (calls : List Call)
    (hcalls : ∀ c ∈ calls, c.keepsFields = true) :
    Agrees opts (past ++ storeMachine.trace st calls) (storeMachine.run st calls) := by
  apply storeMachine.trace_invariant (Agrees opts) (fun _ c => c.keepsFields = true)
    (fun _ _ c hagrees hc => hagrees.perform c hc) past st calls h
  exact storeMachine.allSteps_of_forall_mem st hcalls

/-- Whenever `Get` answers in a run on a new store, the answer is the value of
the most recent acknowledged `Set` of the key, no acknowledged `Delete` of it
happened since, and the expiry fixed by that `Set` or by the last successful
`SetTTL` since has not passed. No janitor tick drops a record whose expiry is
unset or not yet past. -/
theorem store_serves_last_write {newLfu : Options → Except String L}
    (hnew : newWith newLfu opts = .ok st) (ops : List Op)
    (hops : ∀ op ∈ ops, op.keepsFields = true) :
    (∀ past key value now rest,
      storeMachine.trace st (callsOf st.shards.length ops) =
        past ++ (.get key now, .value (.ok value)) :: rest →
      ∃ before ttl written after,
        past = before ++ (.set key value ttl written, .stored (.ok true)) :: after ∧
        (∀ event ∈ after, ¬ IsSet key event ∧ ¬ IsDelete key event) ∧
        (expiryAfter key (st.opts.expiryFor ttl written) after = 0 ∨
          now ≤ expiryAfter key (st.opts.expiryFor ttl written) after)) ∧
    (∀ (full : Store L) (now : Time) (order : RangeOrder) (i : Nat) (sh : Shard)
      (key : String) (record : Record), full.shards[i]? = some sh →
      sh.data.lookup key = some record → record.expiry = 0 ∨ now ≤ record.expiry →
      ∃ swept, (full.janitor now order).shards[i]? = some swept ∧
        swept.data.lookup key = some record) := by
  refine ⟨?_, ?_⟩
  · intro past key value now rest htrace
    obtain ⟨calls, more, hcalls, hpast, hlast⟩ := storeMachine.trace_eq_append htrace
    have hkeeps : ∀ c ∈ calls, c.keepsFields = true := by
      intro c hc
      have hmem : c ∈ callsOf st.shards.length ops := hcalls ▸ List.mem_append_left _ hc
      exact keepsFields_of_mem_callsOf hops hmem
    have hagrees := (newWith_agrees hnew).run calls hkeeps
    obtain ⟨record, hrecord, hvalue, hlive⟩ := get_answer hlast
    have hledger := hagrees.2 key record hrecord
    rw [List.nil_append, hpast, hvalue] at hledger
    obtain ⟨before, ttl, written, after, hsplit, hafter, hexpiry⟩ := ledger_eq_some hledger
    refine ⟨before, ttl, written, after, hsplit, hafter, ?_⟩
    rw [← hexpiry]
    exact (record.isExpired_eq_false now).mp hlive
  · intro full now order i sh key record hsh hlookup hlive
    obtain ⟨swept, hswept, hkeeps⟩ := full.janitor_keepsLive now order hsh
    exact ⟨swept, hswept, hkeeps key record hlookup ((record.isExpired_eq_false now).mpr hlive)⟩

end Agreement

/-- A value written twice and re-dated, read within the new TTL. -/
theorem store_serves_rewritten_value :
    ∃ st : Store (TinyLfu String), new smallOptions = .ok st ∧
      ∃ before ttl written after,
        storeMachine.trace st [.set "a" (counterRecord 1) 10 5, .set "a" (counterRecord 2) 10 6,
          .setTTL "a" 40 7] =
            before ++ (.set "a" (counterRecord 2) ttl written, .stored (.ok true)) :: after ∧
        (∀ event ∈ after, ¬ IsSet "a" event ∧ ¬ IsDelete "a" event) ∧
        (expiryAfter "a" (st.opts.expiryFor ttl written) after = 0 ∨
          30 ≤ expiryAfter "a" (st.opts.expiryFor ttl written) after) := by
  obtain ⟨st, hst⟩ := exists_small
  refine ⟨st, hst, ?_⟩
  refine (store_serves_last_write hst
    [.multiSet [("a", counterRecord 1, 5)] 10, .call (.set "a" (counterRecord 2) 10 6),
      .call (.setTTL "a" 40 7), .call (.get "a" 30)] (by simp [Op.keepsFields, Call.keepsFields])).1
    _ "a" (counterRecord 2) 30 [] ?_
  cases hst
  rfl

end Photon.FlashDb
