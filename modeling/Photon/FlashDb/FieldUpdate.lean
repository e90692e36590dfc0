import Photon.FlashDb.Frame

/-!
What the field loops of `Increment`, `Decrement` and `Append` do to a record. A
loop writes each field as it reaches it and stops at the first field it cannot
change, so its effect is the changes before that field. It is all or nothing,
whatever the iteration order of the map, exactly when no such partial effect can
be seen.
-/

namespace Photon.FlashDb

open Photon.Lib Photon.Stdlib

section Loop

variable {δ : Type} (apply : Value → δ → Option Value)

def Changeable (m : FieldMap) (change : Sigma fun _ : String => δ) : Prop :=
  ∃ cur next, m.field change.1 = some cur ∧ apply cur change.2 = some next

def KeepsValue (m : FieldMap) (change : Sigma fun _ : String => δ) : Prop :=
  ∃ cur, m.field change.1 = some cur ∧ apply cur change.2 = some cur

/-- Every listed field was changed once, from its value before, and no other
field changed. -/
structure AppliedOnce (changes : List (Sigma fun _ : String => δ))
    (before after : FieldMap) : Prop where
  listed : ∀ change ∈ changes, ∃ cur next, before.field change.1 = some cur ∧
    apply cur change.2 = some next ∧ after.field change.1 = some next
  others : ∀ name, name ∉ changes.keys → after.field name = before.field name

variable {apply}

theorem AppliedOnce.nil (m : FieldMap) : AppliedOnce apply [] m m :=
  ⟨by simp, fun _ _ => rfl⟩

/-- A change in front of changes to other fields. -/
theorem AppliedOnce.cons {change : Sigma fun _ : String => δ}
    {changes : List (Sigma fun _ : String => δ)} {m after : FieldMap} {cur next : Value}
    (hfresh : change.1 ∉ changes.keys) (hcur : m.field change.1 = some cur)
    (hnext : apply cur change.2 = some next)
    (h : AppliedOnce apply changes (m.write change.1 next) after) :
    AppliedOnce apply (change :: changes) m after := by
  have hframe {name : String} (hne : name ≠ change.1) :
      (m.write change.1 next).field name = m.field name := m.field_write_ne next hne
  refine ⟨?_, ?_⟩
  · intro other hother
    rcases List.mem_cons.mp hother with rfl | hmem
    · refine ⟨cur, next, hcur, hnext, ?_⟩
      rw [h.others other.1 hfresh, FieldMap.field_write_self hcur]
    · obtain ⟨cur', next', hcur', hnext', hafter⟩ := h.listed other hmem
      have hne : other.1 ≠ change.1 := fun heq => hfresh (heq ▸ List.mem_keys_of_mem hmem)
      exact ⟨cur', next', (hframe hne).symm.trans hcur', hnext', hafter⟩
  · intro name hname
    rw [List.keys_cons, List.mem_cons, not_or] at hname
    rw [h.others name hname.2, hframe hname.1]

/-- One iteration: the loop stops without a write, or writes and goes on. -/
theorem updateLoop_cons (change : Sigma fun _ : String => δ)
    (rest : List (Sigma fun _ : String => δ)) (m : FieldMap) :
    (¬ Changeable apply m change ∧ ∃ e, updateLoop apply (change :: rest) m = (m, .error e)) ∨
    ∃ cur next, m.field change.1 = some cur ∧ apply cur change.2 = some next ∧
      updateLoop apply (change :: rest) m = updateLoop apply rest (m.write change.1 next) := by
  cases hcur : m.field change.1 with
  | none =>
    refine Or.inl ⟨?_, .illegalField, by simp [updateLoop, hcur]⟩
    rintro ⟨cur, _, hsome, _⟩
    rw [hcur] at hsome
    cases hsome
  | some cur =>
    cases hnext : apply cur change.2 with
    | none =>
      refine Or.inl ⟨?_, .badType, by simp [updateLoop, hcur, hnext]⟩
      rintro ⟨other, next, hother, hsome⟩
      cases hcur.symm.trans hother
      rw [hnext] at hsome
      cases hsome
    | some next => exact Or.inr ⟨cur, next, rfl, hnext, by simp [updateLoop, hcur, hnext]⟩

/-- The loop applies the changes before the first one that a field cannot take. -/
theorem updateLoop_split (apply : Value → δ → Option Value)
    (changes : List (Sigma fun _ : String => δ)) (hnodup : changes.NodupKeys)
    (m : FieldMap) :
    ∃ done left, changes = done ++ left ∧
      AppliedOnce apply done m (updateLoop apply changes m).1 ∧
      ((updateLoop apply changes m).2 = .ok () ∧ left = [] ∨
        ∃ failing rest e, left = failing :: rest ∧ ¬ Changeable apply m failing ∧
          (updateLoop apply changes m).2 = .error e) := by
  induction changes generalizing m with
  | nil => exact ⟨[], [], rfl, AppliedOnce.nil m, Or.inl ⟨rfl, rfl⟩⟩
  | cons change rest ih =>
    obtain ⟨hfresh, hrest⟩ := List.nodupKeys_cons.mp hnodup
    rcases updateLoop_cons change rest m with
      ⟨hfails, e, hloop⟩ | ⟨cur, next, hcur, hnext, hloop⟩
    · rw [hloop]
      exact ⟨[], change :: rest, rfl, AppliedOnce.nil m,
        Or.inr ⟨change, rest, e, rfl, hfails, rfl⟩⟩
    · obtain ⟨done, left, rfl, happlied, hanswer⟩ := ih hrest (m.write change.1 next)
      have hother {c : Sigma fun _ : String => δ} (hc : c ∈ done ++ left) :
          c.1 ≠ change.1 := fun heq => hfresh (heq ▸ List.mem_keys_of_mem hc)
      have hnew : change.1 ∉ done.keys := by
        intro hmem
        obtain ⟨value, hvalue⟩ := List.exists_of_mem_keys hmem
        exact hother (List.mem_append_left left hvalue) rfl
      rw [hloop]
      refine ⟨change :: done, left, rfl, happlied.cons hnew hcur hnext, ?_⟩
      rcases hanswer with hok | ⟨failing, others, e, rfl, hfails, herror⟩
      · exact Or.inl hok
      · refine Or.inr ⟨failing, others, e, rfl, ?_, herror⟩
        rwa [Changeable, m.field_write_ne next (hother (by simp))] at hfails

/-- A loop that runs through has changed each listed field once. -/
theorem updateLoop_ok {changes : List (Sigma fun _ : String => δ)}
    (hnodup : changes.NodupKeys) {m : FieldMap}
    (hok : (updateLoop apply changes m).2 = .ok ()) :
    AppliedOnce apply changes m (updateLoop apply changes m).1 := by
  obtain ⟨done, left, hsplit, happlied, hanswer⟩ := updateLoop_split apply changes hnodup m
  rcases hanswer with ⟨_, rfl⟩ | ⟨_, _, _, _, _, herror⟩
  · rw [List.append_nil] at hsplit
    rwa [← hsplit] at happlied
  · rw [hok] at herror
    cases herror

theorem AppliedOnce.perm {changes order : List (Sigma fun _ : String => δ)}
    {before after : FieldMap} (hperm : order.Perm changes)
    (h : AppliedOnce apply order before after) : AppliedOnce apply changes before after := by
  refine ⟨fun change hchange => h.listed change (hperm.mem_iff.mpr hchange), ?_⟩
  intro name hname
  exact h.others name (fun hmem => hname ((hperm.map Sigma.fst).mem_iff.mp hmem))

/-- A call seen on its record: an error leaves every field as it was, success
changes each listed field once and no other. -/
def AllOrNothing (apply : Value → δ → Option Value)
    (changes : List (Sigma fun _ : String => δ)) (before after : FieldMap) :
    Except Err Unit → Prop
  | .error _ => ∀ name, after.field name = before.field name
  | .ok () => AppliedOnce apply changes before after

/-- Either every listed field takes its change, or those that do keep their
values. -/
def NoPartialEffect (apply : Value → δ → Option Value)
    (changes : List (Sigma fun _ : String => δ)) (m : FieldMap) : Prop :=
  (∀ change ∈ changes, Changeable apply m change) ∨
    ∀ change ∈ changes, Changeable apply m change → KeepsValue apply m change

/-- A listed field that takes its change and the first of the changes to be
visited leaves its mark on the record. -/
theorem updateLoop_field_first (change : Sigma fun _ : String => δ)
    (rest : List (Sigma fun _ : String => δ)) (hnodup : (change :: rest).NodupKeys)
    (m : FieldMap) (hcan : Changeable apply m change) :
    ∃ cur next, m.field change.1 = some cur ∧ apply cur change.2 = some next ∧
      (updateLoop apply (change :: rest) m).1.field change.1 = some next := by
  obtain ⟨done, left, hsplit, happlied, hanswer⟩ :=
    updateLoop_split apply (change :: rest) hnodup m
  cases done with
  | nil =>
    rcases hanswer with ⟨_, rfl⟩ | ⟨failing, others, _, rfl, hfails, _⟩
    · cases hsplit
    · obtain ⟨rfl, _⟩ := List.cons.inj hsplit
      exact absurd hcan hfails
  | cons first others =>
    obtain ⟨rfl, _⟩ := List.cons.inj hsplit
    exact happlied.listed change List.mem_cons_self

/-- The loop is all or nothing in every iteration order exactly when it has no
partial effect to show. -/
theorem updateLoop_allOrNothing_iff (changes : List (Sigma fun _ : String => δ))
    (hnodup : changes.NodupKeys) (m : FieldMap) :
    (∀ order : List (Sigma fun _ : String => δ), order.Perm changes →
      AllOrNothing apply changes m (updateLoop apply order m).1 (updateLoop apply order m).2) ↔
    NoPartialEffect apply changes m := by
  constructor
  · intro h
    by_contra hpartial
    rw [NoPartialEffect, not_or] at hpartial
    obtain ⟨hsome, hvisible⟩ := hpartial
    push Not at hsome hvisible
    obtain ⟨failing, hfailing, hfails⟩ := hsome
    obtain ⟨change, hchange, hcan, hmoves⟩ := hvisible
    obtain ⟨front, back, rfl⟩ := List.append_of_mem hchange
    have hperm : (change :: (front ++ back)).Perm (front ++ change :: back) :=
      List.perm_middle.symm
    have hkeys := (List.perm_nodupKeys hperm).mpr hnodup
    have hcall := h _ hperm
    obtain ⟨cur, next, hcur, hnext, hafter⟩ :=
      updateLoop_field_first change (front ++ back) hkeys m hcan
    cases hanswer : (updateLoop apply (change :: (front ++ back)) m).2 with
    | error e =>
      rw [hanswer] at hcall
      have hsame := hcall change.1
      rw [hafter, hcur] at hsame
      obtain rfl := Option.some.inj hsame
      exact hmoves ⟨next, hcur, hnext⟩
    | ok done =>
      rw [hanswer] at hcall
      obtain ⟨cur', next', hcur', hnext', _⟩ := AppliedOnce.listed hcall failing hfailing
      exact hfails ⟨cur', next', hcur', hnext'⟩
  · intro hclean order hperm
    have hkeys := (List.perm_nodupKeys hperm).mpr hnodup
    obtain ⟨done, left, hsplit, happlied, hanswer⟩ := updateLoop_split apply order hkeys m
    rcases hanswer with ⟨hok, _⟩ | ⟨failing, others, e, rfl, hfails, herror⟩
    · rw [hok]
      exact (updateLoop_ok hkeys hok).perm hperm
    · rw [herror]
      intro name
      have hlisted {change : Sigma fun _ : String => δ} (hchange : change ∈ order) :
          change ∈ changes := hperm.mem_iff.mp hchange
      rcases hclean with hall | hkeep
      · exact absurd (hall failing (hlisted (hsplit ▸ by simp))) hfails
      · by_cases hmem : name ∈ done.keys
        · obtain ⟨amount, hvisited⟩ := List.exists_of_mem_keys hmem
          obtain ⟨cur, next, hcur, hnext, hafter⟩ := happlied.listed _ hvisited
          obtain ⟨old, hold, hsame⟩ := hkeep ⟨name, amount⟩
            (hlisted (hsplit ▸ List.mem_append_left _ hvisited)) ⟨cur, next, hcur, hnext⟩
          cases hcur.symm.trans hold
          cases hnext.symm.trans hsame
          exact hafter.trans hcur.symm
        · exact happlied.others name hmem

/-- Preparing the changes first is the same as preparing each one when its turn
comes. -/
theorem updateLoop_map {ε : Type} (prepare : ε → δ) (changes : List (Sigma fun _ : String => ε))
    (m : FieldMap) :
    updateLoop apply (changes.map (fun change => ⟨change.1, prepare change.2⟩)) m =
      updateLoop (fun cur change => apply cur (prepare change)) changes m := by
  induction changes generalizing m with
  | nil => rfl
  | cons change rest ih =>
    simp [updateLoop, ih]

/-- A call that shows its record what the loop does is judged by the loop. -/
theorem every_order_iff (changes : GoMap δ) (m : FieldMap) (Good : GoMap δ → Prop)
    (hgood : ∀ order : GoMap δ, order.entries.Perm changes.entries →
      (Good order ↔ AllOrNothing apply changes.entries m
        (updateLoop apply order.entries m).1 (updateLoop apply order.entries m).2)) :
    (∀ order : GoMap δ, order.entries.Perm changes.entries → Good order) ↔
      NoPartialEffect apply changes.entries m := by
  rw [← updateLoop_allOrNothing_iff changes.entries changes.nodupKeys m]
  constructor
  · intro h order hperm
    have hkeys := (List.perm_nodupKeys hperm).mpr changes.nodupKeys
    exact (hgood ⟨order, hkeys⟩ hperm).mp (h ⟨order, hkeys⟩ hperm)
  · intro h order hperm
    exact (hgood order hperm).mpr (h order.entries hperm)

end Loop

namespace Shard

theorem liveRecord_of_live {sh : Shard} {key : String} {record : Record} {now : Time}
    (hlookup : sh.data.lookup key = some record) (hlive : record.isExpired now = false) :
    sh.liveRecord key now = (sh, some record) := by
  simp [liveRecord, hlookup, hlive]

/-- `Increment` on a live record keeps the record, with its fields as the loop
left them. -/
theorem increment_live {sh : Shard} {key : String} {record : Record} {now : Time}
    (hlookup : sh.data.lookup key = some record) (hlive : record.isExpired now = false)
    (offsets : GoMap Int64) :
    (sh.increment key offsets now).2 = (incrementLoop offsets record.value).2 ∧
      (sh.increment key offsets now).1.data.lookup key =
        some {record with value := (incrementLoop offsets record.value).1} := by
  unfold increment
  simp only [liveRecord_of_live hlookup hlive]
  rcases incrementLoop offsets record.value with ⟨fields, e | _⟩ <;>
    exact ⟨rfl, AList.lookup_insert _⟩

theorem recharge_lookup_self (sh : Shard) (key : String) (record : Record)
    (fields : FieldMap) :
    (sh.recharge key record fields).data.lookup key = none ∨
      (sh.recharge key record fields).data.lookup key =
        some ⟨fields, computeSize key fields, record.expiry⟩ := by
  rcases shrinks_trim _ key with hnone | heq
  · exact Or.inl hnone
  · exact Or.inr (heq.trans (AList.lookup_insert _))

/-- `Append` on a live record keeps the record when it fails; when it succeeds,
the record may have been trimmed away. -/
theorem append_live {sh : Shard} {key : String} {record : Record} {now : Time}
    (hlookup : sh.data.lookup key = some record) (hlive : record.isExpired now = false)
    (appends : GoMap String) :
    (sh.append key appends now).2 = (appendLoop appends record.value).2 ∧
      ((sh.append key appends now).2 = .ok () ∧
          (sh.append key appends now).1.data.lookup key = none ∨
        ∃ next, next.value = (appendLoop appends record.value).1 ∧
          next.expiry = record.expiry ∧
          (sh.append key appends now).1.data.lookup key = some next) := by
  unfold append
  simp only [liveRecord_of_live hlookup hlive]
  rcases appendLoop appends record.value with ⟨fields, e | _⟩
  · exact ⟨rfl, Or.inr ⟨{record with value := fields}, rfl, rfl, AList.lookup_insert _⟩⟩
  · refine ⟨rfl, ?_⟩
    rcases sh.recharge_lookup_self key record fields with hnone | heq
    · exact Or.inl ⟨rfl, hnone⟩
    · exact Or.inr ⟨⟨fields, computeSize key fields, record.expiry⟩, rfl, rfl, heq⟩

end Shard

section Calls

variable {L : Type}

def Store.fieldsOf (st : Store L) (key : String) : Option FieldMap :=
  (st.recordOf key).map Record.value

variable [AdmissionPolicy L] {st : Store L} {key : String} {record : Record} {now : Time}

theorem fieldsOf_increment (hkey : key ≠ "") (hrecord : st.recordOf key = some record)
    (hlive : record.isExpired now = false) (offsets : GoMap Int64) :
    (st.increment key offsets now).2 = (incrementLoop offsets record.value).2 ∧
      (st.increment key offsets now).1.fieldsOf key =
        some (incrementLoop offsets record.value).1 := by
  obtain ⟨hanswer, hlookup⟩ := Shard.increment_live hrecord hlive offsets
  refine ⟨?_, ?_⟩
  · rw [Store.increment, if_neg hkey]
    exact hanswer
  · simp only [Store.increment, if_neg hkey, Store.fieldsOf, Store.recordOf,
      Store.recordOk_shardFor, Store.putShard_shardFor_self, hlookup, Option.map_some]

theorem fieldsOf_append (hkey : key ≠ "") (hrecord : st.recordOf key = some record)
    (hlive : record.isExpired now = false) (appends : GoMap String) :
    (st.append key appends now).2 = (appendLoop appends record.value).2 ∧
      ((st.append key appends now).2 = .ok () ∧
          (st.append key appends now).1.fieldsOf key = none ∨
        (st.append key appends now).1.fieldsOf key =
          some (appendLoop appends record.value).1) := by
  obtain ⟨hanswer, hlookup⟩ := Shard.append_live hrecord hlive appends
  simp only [Store.append, if_neg hkey, Store.fieldsOf, Store.recordOf, Store.recordOk_shardFor,
    Store.putShard_shardFor_self]
  refine ⟨hanswer, ?_⟩
  rcases hlookup with ⟨hok, hnone⟩ | ⟨next, hvalue, _, hnext⟩
  · exact Or.inl ⟨hok, by rw [hnone, Option.map_none]⟩
  · exact Or.inr (by rw [hnext, Option.map_some, hvalue])

/-- `Increment`, `Decrement` and `Append` on a live record are all or nothing in
every iteration order exactly when every listed field can be changed, or those
that can be changed keep their values. After a successful `Append` the budget
may have taken the whole record away. -/
theorem field_calls_all_or_nothing_iff (hkey : key ≠ "")
    (hrecord : st.recordOf key = some record) (hlive : record.isExpired now = false) :
    (∀ offsets : GoMap Int64,
      (∀ order : GoMap Int64, order.entries.Perm offsets.entries →
        ∃ fields, (st.increment key order now).1.fieldsOf key = some fields ∧
          AllOrNothing addInt offsets.entries record.value fields
            (st.increment key order now).2) ↔
      NoPartialEffect addInt offsets.entries record.value) ∧
    (∀ offsets : GoMap Int64,
      (∀ order : GoMap Int64, order.entries.Perm offsets.entries →
        ∃ fields, (st.decrement key order now).1.fieldsOf key = some fields ∧
          AllOrNothing (fun cur delta => addInt cur (-delta)) offsets.entries record.value fields
            (st.decrement key order now).2) ↔
      NoPartialEffect (fun cur delta => addInt cur (-delta)) offsets.entries record.value) ∧
    (∀ appends : GoMap String,
      (∀ order : GoMap String, order.entries.Perm appends.entries →
        (st.append key order now).2 = .ok () ∧
            (st.append key order now).1.fieldsOf key = none ∨
          ∃ fields, (st.append key order now).1.fieldsOf key = some fields ∧
            AllOrNothing appendString appends.entries record.value fields
              (st.append key order now).2) ↔
      NoPartialEffect appendString appends.entries record.value) := by
  refine ⟨fun offsets => ?_, fun offsets => ?_, fun appends => ?_⟩
  · apply every_order_iff
    intro order _
    obtain ⟨hanswer, hfields⟩ := fieldsOf_increment hkey hrecord hlive order
    rw [hanswer, hfields]
    simp [incrementLoop]
  · apply every_order_iff
    intro order _
    obtain ⟨hanswer, hfields⟩ := fieldsOf_increment hkey hrecord hlive (negativeOffsets order)
    have hloop : incrementLoop (negativeOffsets order) record.value =
        updateLoop (fun cur delta => addInt cur (-delta)) order.entries record.value :=
      updateLoop_map _ _ _
    rw [Store.decrement, hanswer, hfields, hloop]
    simp
  · apply every_order_iff
    intro order hperm
    obtain ⟨hanswer, hfields⟩ := fieldsOf_append hkey hrecord hlive order
    rw [hanswer] at hfields ⊢
    rcases hfields with ⟨hok, hnone⟩ | hsome
    · have happlied := (updateLoop_ok order.nodupKeys hok).perm hperm
      rw [hok, hnone]
      have hloop : (updateLoop appendString order.entries record.value).2 = .ok () := hok
      rw [hloop]
      exact iff_of_true (Or.inl ⟨rfl, rfl⟩) happlied
    · rw [hsome]
      simp [appendLoop]

end Calls

def mixedRecord : FieldMap :=
  some ((AList.singleton "s" (.string "x")).insert "n" (.int 1))

def mixedOffsets : GoMap Int64 := (AList.singleton "s" 1).insert "n" 1

/-- `Increment` of a counter and a text answers with an error after it has
changed the counter. -/
theorem increment_leaves_partial_effect :
    ∃ st : Store (TinyLfu String), new smallOptions = .ok st ∧
      ∃ stored, stored = storeMachine.run st [.set "a" mixedRecord 0 1] ∧
      stored.fieldsOf "a" = some mixedRecord ∧
      (stored.increment "a" mixedOffsets 2).2 = .error .badType ∧
      mixedRecord.field "n" = some (.int 1) ∧
      ((stored.increment "a" mixedOffsets 2).1.fieldsOf "a").bind
        (fun fields => fields.field "n") = some (.int 2) := by
  refine ⟨_, rfl, _, rfl, ?_, ?_, ?_, ?_⟩ <;> rfl

/-- Incrementing the counter alone is all or nothing. -/
theorem increment_of_counter_all_or_nothing :
    ∃ st : Store (TinyLfu String), new smallOptions = .ok st ∧
      ∃ stored, stored = storeMachine.run st [.set "a" mixedRecord 0 1] ∧
      ∀ order : GoMap Int64, order.entries.Perm (AList.singleton "n" 1).entries →
        ∃ fields, (stored.increment "a" order 2).1.fieldsOf "a" = some fields ∧
          AllOrNothing addInt (AList.singleton "n" 1).entries mixedRecord fields
            (stored.increment "a" order 2).2 := by
  have hkey : "a" ≠ "" := by decide
  obtain ⟨st, hst⟩ := exists_small
  refine ⟨st, hst, _, rfl, ?_⟩
  have hstored : ∃ record,
      (storeMachine.run st [.set "a" mixedRecord 0 1]).recordOf "a" = some record ∧
      record.value = mixedRecord ∧ record.isExpired 2 = false := by
    cases hst
    exact ⟨_, rfl, rfl, rfl⟩
  generalize storeMachine.run st [.set "a" mixedRecord 0 1] = stored at hstored ⊢
  obtain ⟨record, hrecord, hvalue, hlive⟩ := hstored
  rw [← hvalue]
  refine ((field_calls_all_or_nothing_iff hkey hrecord hlive).1 (AList.singleton "n" 1)).mpr ?_
  refine Or.inl fun change hchange => ?_
  obtain rfl := List.mem_singleton.mp hchange
  exact ⟨.int 1, .int 2, hvalue ▸ rfl, rfl⟩

end Photon.FlashDb
