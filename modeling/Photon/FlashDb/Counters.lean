import Photon.FlashDb.FieldUpdate

/-!
The integer fields that `Increment` and `Decrement` count with. A counter is exact when
a call leaves the integer sum in it, with the type it had, or refuses. The guards of
`addInt` make `int` and `int32` fields exact; an `int64` field has no guard, and
`Decrement` negates its argument before any guard sees it.
-/

namespace Photon.FlashDb

open Photon.Lib Photon.Stdlib

inductive IntKind where
  | int
  | int32
  | int64
deriving DecidableEq

def Value.counter : Value → Option (IntKind × Int)
  | .int x => some (.int, x.toInt)
  | .int32 x => some (.int32, x.toInt)
  | .int64 x => some (.int64, x.toInt)
  | _ => none

def FitsInt64 (n : Int) : Prop := -2 ^ 63 ≤ n ∧ n < 2 ^ 63

def FitsInt32 (n : Int) : Prop := -2 ^ 31 ≤ n ∧ n < 2 ^ 31

instance (n : Int) : Decidable (FitsInt64 n) := inferInstanceAs (Decidable (_ ∧ _))

instance (n : Int) : Decidable (FitsInt32 n) := inferInstanceAs (Decidable (_ ∧ _))

theorem fitsInt64_toInt (x : Int64) : FitsInt64 x.toInt := ⟨x.le_toInt, x.toInt_lt⟩

theorem fitsInt32_toInt (x : Int32) : FitsInt32 x.toInt := ⟨x.le_toInt, x.toInt_lt⟩

/-- A sum that does not wrap. -/
theorem toInt_add_of_fits {x y : Int64} (h : FitsInt64 (x.toInt + y.toInt)) :
    (x + y).toInt = x.toInt + y.toInt := by
  obtain ⟨hlow, hhigh⟩ := h
  rw [Int64.toInt_add]
  exact Int.bmod_eq_of_le (by omega) (by omega)

theorem toInt_sub_of_fits {x y : Int64} (h : FitsInt64 (x.toInt - y.toInt)) :
    (x - y).toInt = x.toInt - y.toInt := by
  obtain ⟨hlow, hhigh⟩ := h
  rw [Int64.toInt_sub]
  exact Int.bmod_eq_of_le (by omega) (by omega)

/-- The two guards of an addition, with the bounds `low` and `high` of the field's type. -/
theorem guards_iff (x delta low high : Int64) (hlow : low.toInt < 0) (hhigh : 0 ≤ high.toInt)
    (hx : low.toInt ≤ x.toInt ∧ x.toInt ≤ high.toInt) :
    (¬ (0 < delta ∧ high - delta < x) ∧ ¬ (delta < 0 ∧ x < low - delta)) ↔
      low.toInt ≤ x.toInt + delta.toInt ∧ x.toInt + delta.toInt < high.toInt + 1 := by
  obtain ⟨hdlow, hdhigh⟩ := fitsInt64_toInt delta
  obtain ⟨hllow, -⟩ := fitsInt64_toInt low
  obtain ⟨-, hhhigh⟩ := fitsInt64_toInt high
  have hzero : (0 : Int64).toInt = 0 := rfl
  simp only [Int64.lt_iff_toInt_lt, hzero]
  rcases lt_trichotomy delta.toInt 0 with hneg | hnone | hpos
  · rw [toInt_sub_of_fits (x := low) (y := delta) ⟨by omega, by omega⟩]
    omega
  · omega
  · rw [toInt_sub_of_fits (x := high) (y := delta) ⟨by omega, by omega⟩]
    omega

theorem guarded_eq {α : Type} {p q fits : Prop} [Decidable p] [Decidable q] [Decidable fits]
    (h : (¬ p ∧ ¬ q) ↔ fits) (sum : Option α) :
    (if p then none else if q then none else sum) = if fits then sum else none := by
  split
  · next hp => rw [if_neg fun hfits => (h.mpr hfits).1 hp]
  · next hp =>
      split
      · next hq => rw [if_neg fun hfits => (h.mpr hfits).2 hq]
      · next hq => rw [if_pos (h.mp ⟨hp, hq⟩)]

theorem addInt_int (x delta : Int64) :
    addInt (.int x) delta =
      if FitsInt64 (x.toInt + delta.toInt) then some (.int (x + delta)) else none := by
  obtain ⟨hlow, hhigh⟩ := fitsInt64_toInt x
  have hmin := Int64.toInt_minValue
  have hmax := Int64.toInt_maxValue
  have hguards := guards_iff x delta Int64.minValue Int64.maxValue (by omega) (by omega) (by omega)
  rw [hmin, hmax, sub_add_cancel] at hguards
  exact guarded_eq hguards _

theorem int64ToInt32_of_fits {v : Int64} (h : FitsInt32 v.toInt) :
    int64ToInt32 v = (v.toInt32, true) ∧ v.toInt32.toInt = v.toInt := by
  obtain ⟨hlow, hhigh⟩ := h
  constructor
  · rw [int64ToInt32, if_neg]
    simp only [Int64.lt_iff_toInt_lt, Int32.toInt_toInt64, Int32.toInt_minValue,
      Int32.toInt_maxValue]
    omega
  · rw [Int64.toInt_toInt32]
    exact Int.bmod_eq_of_le (by omega) (by omega)

/-- The 64-bit sum of a 32-bit number and a difference that stays in its type. -/
theorem toInt_toInt64_add {x : Int32} {delta : Int64} (h : FitsInt32 (x.toInt + delta.toInt)) :
    (x.toInt64 + delta).toInt = x.toInt + delta.toInt := by
  obtain ⟨hlow, hhigh⟩ := h
  rw [toInt_add_of_fits, Int32.toInt_toInt64]
  rw [Int32.toInt_toInt64]
  exact ⟨by omega, by omega⟩

theorem addInt_int32 (x : Int32) (delta : Int64) :
    addInt (.int32 x) delta =
      if FitsInt32 (x.toInt + delta.toInt) then some (.int32 (x.toInt64 + delta).toInt32)
      else none := by
  obtain ⟨hlow, hhigh⟩ := fitsInt32_toInt x
  have hx := Int32.toInt_toInt64 x
  have hmin : Int32.minValue.toInt64.toInt = -2 ^ 31 := by decide
  have hmax : Int32.maxValue.toInt64.toInt = 2 ^ 31 - 1 := by decide
  have hguards := guards_iff x.toInt64 delta Int32.minValue.toInt64 Int32.maxValue.toInt64
    (by omega) (by omega) (by omega)
  rw [hmin, hmax, hx, sub_add_cancel] at hguards
  change _ ↔ FitsInt32 _ at hguards
  refine (guarded_eq hguards _).trans ?_
  split
  · next hfits =>
      rw [(int64ToInt32_of_fits (toInt_toInt64_add hfits ▸ hfits)).1]
      rfl
  · rfl

def ExactOrRefused (kind : IntKind) (expected : Int) : Option Value → Prop
  | none => True
  | some next => next.counter = some (kind, expected)

def IncrementFits (kind : IntKind) (n : Int) (d : Int64) : Prop :=
  kind = .int64 → FitsInt64 (n + d.toInt)

/-- The decrements that leave an exact counter. The smallest integer is its own
negation. -/
def DecrementFits (kind : IntKind) (n : Int) (d : Int64) : Prop :=
  match kind with
  | .int => d = Int64.minValue → n < 0
  | .int32 => True
  | .int64 => FitsInt64 (n - d.toInt)

theorem toInt_neg_eq (d : Int64) :
    (-d).toInt = if d = Int64.minValue then -2 ^ 63 else -d.toInt := by
  obtain ⟨hlow, hhigh⟩ := fitsInt64_toInt d
  split
  · next h =>
      subst h
      decide
  · next h =>
      have hne : d.toInt ≠ -2 ^ 63 := fun heq =>
        h (Int64.toInt_inj.mp (heq.trans Int64.toInt_minValue.symm))
      rw [Int64.toInt_neg]
      exact Int.bmod_eq_of_le (by omega) (by omega)

/-- A value stored by the guarded types is the number that the guards let pass. -/
theorem exactOrRefused_guarded {kind : IntKind} {fits : Prop} [Decidable fits] {next : Value}
    {sum expected : Int} (hnext : fits → next.counter = some (kind, sum)) :
    ExactOrRefused kind expected (if fits then some next else none) ↔ (fits → sum = expected) := by
  by_cases h : fits
  · simp [h, ExactOrRefused, hnext h]
  · simp [h, ExactOrRefused]

theorem counter_int_add {x delta : Int64} (h : FitsInt64 (x.toInt + delta.toInt)) :
    (Value.int (x + delta)).counter = some (.int, x.toInt + delta.toInt) := by
  rw [Value.counter, toInt_add_of_fits h]

theorem counter_int32_add {x : Int32} {delta : Int64} (h : FitsInt32 (x.toInt + delta.toInt)) :
    (Value.int32 (x.toInt64 + delta).toInt32).counter = some (.int32, x.toInt + delta.toInt) := by
  have hexact := toInt_toInt64_add h
  rw [Value.counter, (int64ToInt32_of_fits (hexact ▸ h)).2, hexact]

/-- Adding to an `int64` field is exact when the sum is a 64-bit number. -/
theorem exactOrRefused_int64 {x delta : Int64} {expected : Int}
    (hmod : (x.toInt + delta.toInt).bmod (2 ^ 64) = expected.bmod (2 ^ 64)) :
    ExactOrRefused .int64 expected (addInt (.int64 x) delta) ↔ FitsInt64 expected := by
  have hsum : (x + delta).toInt = expected.bmod (2 ^ 64) := by rw [Int64.toInt_add, hmod]
  simp only [addInt, ExactOrRefused, Value.counter, hsum, Option.some.injEq, Prod.mk.injEq,
    true_and]
  constructor
  · intro h
    exact (hsum.trans h) ▸ fitsInt64_toInt (x + delta)
  · rintro ⟨hlow, hhigh⟩
    exact Int.bmod_eq_of_le (by omega) (by omega)

theorem addInt_exact_iff {cur : Value} {kind : IntKind} {n : Int}
    (hcur : cur.counter = some (kind, n)) (d : Int64) :
    ExactOrRefused kind (n + d.toInt) (addInt cur d) ↔ IncrementFits kind n d := by
  unfold Value.counter at hcur
  split at hcur
  case h_1 x =>
    cases hcur
    rw [addInt_int, exactOrRefused_guarded counter_int_add]
    exact iff_of_true (fun _ => rfl) nofun
  case h_2 x =>
    cases hcur
    rw [addInt_int32, exactOrRefused_guarded counter_int32_add]
    exact iff_of_true (fun _ => rfl) nofun
  case h_3 x =>
    cases hcur
    rw [exactOrRefused_int64 rfl]
    exact (imp_iff_right rfl).symm
  case h_4 => cases hcur

theorem addInt_neg_exact_iff {cur : Value} {kind : IntKind} {n : Int}
    (hcur : cur.counter = some (kind, n)) (d : Int64) :
    ExactOrRefused kind (n - d.toInt) (addInt cur (-d)) ↔ DecrementFits kind n d := by
  have hneg := toInt_neg_eq d
  have hmin : d = Int64.minValue ↔ d.toInt = -2 ^ 63 := by
    rw [← Int64.toInt_inj, Int64.toInt_minValue]
  unfold Value.counter at hcur
  split at hcur
  case h_1 x =>
    cases hcur
    obtain ⟨hlow, hhigh⟩ := fitsInt64_toInt x
    rw [addInt_int, exactOrRefused_guarded counter_int_add]
    simp only [DecrementFits, FitsInt64, hneg]
    split
    · next h =>
        rw [hmin.mp h]
        simp only [h, forall_const]
        omega
    · next h => simp only [h, false_implies, iff_true]; omega
  case h_2 x =>
    cases hcur
    obtain ⟨hlow, hhigh⟩ := fitsInt32_toInt x
    rw [addInt_int32, exactOrRefused_guarded counter_int32_add]
    simp only [DecrementFits, FitsInt32, hneg, iff_true]
    split
    · next h => omega
    · next h => omega
  case h_3 x =>
    cases hcur
    refine exactOrRefused_int64 ?_
    rw [Int64.toInt_neg, Int.add_bmod_bmod, ← sub_eq_add_neg]
  case h_4 => cases hcur

/-- What a call leaves in a counter: the expected number when it succeeds, and when it
fails that or the number from before. -/
def CounterOutcome (kind : IntKind) (n expected : Int) (after : Option Value) :
    Except Err Unit → Prop
  | .ok () => after.bind Value.counter = some (kind, expected)
  | .error _ => after.bind Value.counter = some (kind, n) ∨
      after.bind Value.counter = some (kind, expected)

section Loop

variable {δ : Type} {apply : Value → δ → Option Value} {m : FieldMap} {name : String}
  {cur : Value} {kind : IntKind} {n expected : Int} {d : δ}

/-- A loop writes a counter once, or not at all. -/
theorem updateLoop_counter {changes : List (Sigma fun _ : String => δ)}
    (hnodup : changes.NodupKeys) (hmem : ⟨name, d⟩ ∈ changes)
    (hfield : m.field name = some cur) (hcur : cur.counter = some (kind, n))
    (hexact : ExactOrRefused kind expected (apply cur d)) :
    CounterOutcome kind n expected ((updateLoop apply changes m).1.field name)
      (updateLoop apply changes m).2 := by
  obtain ⟨done, left, rfl, happlied, hanswer⟩ := updateLoop_split apply changes hnodup m
  have hdone : ⟨name, d⟩ ∈ done → ((updateLoop apply (done ++ left) m).1.field name).bind
      Value.counter = some (kind, expected) := by
    intro hvisited
    obtain ⟨old, next, hold, hnext, hafter⟩ := happlied.listed _ hvisited
    cases hfield.symm.trans hold
    rw [hnext] at hexact
    rw [hafter]
    exact hexact
  rcases hanswer with ⟨hok, rfl⟩ | ⟨failing, rest, e, rfl, -, herror⟩
  · rw [hok]
    exact hdone (by simpa using hmem)
  · rw [herror]
    by_cases hvisited : name ∈ done.keys
    · obtain ⟨other, hother⟩ := List.exists_of_mem_keys hvisited
      have hsame : other = d := by
        have h := hnodup.eq_of_mk_mem (List.mem_append_left _ hother) hmem
        exact h
      exact Or.inr (hdone (hsame ▸ hother))
    · rw [happlied.others name hvisited, hfield]
      exact Or.inl hcur

/-- One change alone shows what the update makes of the counter. -/
theorem updateLoop_counter_single (hfield : m.field name = some cur)
    (h : CounterOutcome kind n expected ((updateLoop apply [⟨name, d⟩] m).1.field name)
      (updateLoop apply [⟨name, d⟩] m).2) :
    ExactOrRefused kind expected (apply cur d) := by
  cases hnext : apply cur d with
  | none => trivial
  | some next =>
    simp only [updateLoop, hfield, hnext, CounterOutcome, FieldMap.field_write_self hfield] at h
    exact h

end Loop

section Calls

variable {L : Type} {key : String} {record : Record}

def Store.fieldOf (st : Store L) (key name : String) : Option Value :=
  (st.fieldsOf key).bind fun fields => fields.field name

/-- Calls that show a counter what their loop does are judged by the update of the one
field. -/
theorem every_offsets_iff (apply : Value → Int64 → Option Value) {name : String} {cur : Value}
    {kind : IntKind} {n expected : Int} {d : Int64}
    (call : GoMap Int64 → Store L × Except Err Unit)
    (hcall : ∀ offsets, (call offsets).2 = (updateLoop apply offsets.entries record.value).2 ∧
      (call offsets).1.fieldsOf key = some (updateLoop apply offsets.entries record.value).1)
    (hfield : record.value.field name = some cur) (hcur : cur.counter = some (kind, n)) :
    (∀ offsets : GoMap Int64, offsets.lookup name = some d →
      CounterOutcome kind n expected ((call offsets).1.fieldOf key name) (call offsets).2) ↔
    ExactOrRefused kind expected (apply cur d) := by
  constructor
  · intro h
    have hone := h (AList.singleton name d) (AList.mem_lookup_iff.mpr List.mem_cons_self)
    rw [Store.fieldOf, (hcall _).1, (hcall _).2] at hone
    exact updateLoop_counter_single hfield hone
  · intro hexact offsets hlookup
    rw [Store.fieldOf, (hcall _).1, (hcall _).2]
    exact updateLoop_counter offsets.nodupKeys (AList.mem_lookup_iff.mp hlookup) hfield hcur hexact

variable [AdmissionPolicy L] {st : Store L} {now : Time}

/-- `Increment` leaves the sum in an integer field of a live record or refuses, in every
call that adds `d` to the field, exactly when the field is not an `int64` that the sum
wraps. `Decrement` leaves the difference or refuses exactly when the field is an `int32`,
an `int64` that the difference fits, or an `int` that is negative or from which not the
smallest integer is taken. -/
theorem counters_exact_iff (hkey : key ≠ "") (hrecord : st.recordOf key = some record)
    (hlive : record.isExpired now = false) {name : String} {cur : Value} {kind : IntKind}
    {n : Int} (hfield : record.value.field name = some cur)
    (hcur : cur.counter = some (kind, n)) (d : Int64) :
    ((∀ offsets : GoMap Int64, offsets.lookup name = some d →
      CounterOutcome kind n (n + d.toInt) ((st.increment key offsets now).1.fieldOf key name)
        (st.increment key offsets now).2) ↔ IncrementFits kind n d) ∧
    ((∀ offsets : GoMap Int64, offsets.lookup name = some d →
      CounterOutcome kind n (n - d.toInt) ((st.decrement key offsets now).1.fieldOf key name)
        (st.decrement key offsets now).2) ↔ DecrementFits kind n d) := by
  constructor
  · rw [← addInt_exact_iff hcur]
    exact every_offsets_iff addInt (fun offsets => st.increment key offsets now)
      (fun offsets => fieldsOf_increment hkey hrecord hlive offsets) hfield hcur
  · rw [← addInt_neg_exact_iff hcur]
    refine every_offsets_iff (fun cur delta => addInt cur (-delta))
      (fun offsets => st.decrement key offsets now) (fun offsets => ?_) hfield hcur
    have hloop : incrementLoop (negativeOffsets offsets) record.value =
        updateLoop (fun cur delta => addInt cur (-delta)) offsets.entries record.value :=
      updateLoop_map _ _ _
    rw [Store.decrement, ← hloop]
    exact fieldsOf_increment hkey hrecord hlive (negativeOffsets offsets)

end Calls

/-- A guarded counter is exact. -/
theorem int_counter_exact :
    ∃ st : Store (TinyLfu String), new smallOptions = .ok st ∧
      ∃ stored, stored = storeMachine.run st [.set "a" (counterRecord 41) 0 1] ∧
      ∀ offsets : GoMap Int64, offsets.lookup "n" = some 1 →
        CounterOutcome .int 41 42 ((stored.increment "a" offsets 2).1.fieldOf "a" "n")
          (stored.increment "a" offsets 2).2 := by
  obtain ⟨st, hst⟩ := exists_small
  refine ⟨st, hst, _, rfl, ?_⟩
  have hstored : ∃ record,
      (storeMachine.run st [.set "a" (counterRecord 41) 0 1]).recordOf "a" = some record ∧
      record.isExpired 2 = false ∧ record.value.field "n" = some (.int 41) := by
    cases hst
    exact ⟨_, rfl, rfl, rfl⟩
  generalize storeMachine.run st [.set "a" (counterRecord 41) 0 1] = stored at hstored ⊢
  obtain ⟨record, hrecord, hlive, hfield⟩ := hstored
  exact (counters_exact_iff (by decide) hrecord hlive hfield rfl 1).1.mpr nofun

/-- The largest `int64` is incremented to the smallest one, and the smallest one taken
from an `int` of zero is stored as it is. Both calls succeed. -/
theorem counters_wrap :
    ∃ st : Store (TinyLfu String), new smallOptions = .ok st ∧
      ∃ stored, stored = storeMachine.run st
        [.set "a" (some (AList.singleton "n" (.int64 Int64.maxValue))) 0 1,
          .set "b" (counterRecord 0) 0 1] ∧
      (stored.increment "a" (AList.singleton "n" 1) 2).2 = .ok () ∧
      (stored.increment "a" (AList.singleton "n" 1) 2).1.fieldOf "a" "n" =
        some (.int64 Int64.minValue) ∧
      (stored.decrement "b" (AList.singleton "n" Int64.minValue) 2).2 = .ok () ∧
      (stored.decrement "b" (AList.singleton "n" Int64.minValue) 2).1.fieldOf "b" "n" =
        some (.int Int64.minValue) := by
  refine ⟨_, rfl, _, rfl, ?_, ?_, ?_, ?_⟩ <;> rfl

end Photon.FlashDb
