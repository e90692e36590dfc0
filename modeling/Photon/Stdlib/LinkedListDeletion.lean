import Photon.Stdlib.LinkedListReversal

/-!
Deletion by position in the lists that calls can build. Position `length + 1` is passed on to
`DelAtEnd`, which deletes the last element; a position below one on a list with elements reads
through the nil pointer `prev`, except the smallest `int`, where `pos - 1` wraps.
-/

namespace Photon.Stdlib

open Photon.Lib Heap LinkedList

variable {T : Type}

inductive ListCall (T : Type) where
  | addAtBeg (val : T)
  | addAtEnd (val : T)
  | delAtBeg
  | delAtEnd
  | delByPos (pos : Int64)
  | reverse
deriving DecidableEq

inductive ListAnswer (T : Type) where
  | done
  | deleted (val : T) (found : Bool)
  | fault (fault : Fault)
deriving DecidableEq

namespace LinkedList

def changed (ll : LinkedList T) : Except Fault (LinkedList T) → LinkedList T × ListAnswer T
  | .ok next => (next, .done)
  | .error fault => (ll, .fault fault)

def deletion (ll : LinkedList T) :
    Except Fault (LinkedList T × T × Bool) → LinkedList T × ListAnswer T
  | .ok (next, val, found) => (next, .deleted val found)
  | .error fault => (ll, .fault fault)

end LinkedList

def listMachine [Inhabited T] : Machine (LinkedList T) (ListCall T) (ListAnswer T) where
  step ll
    | .addAtBeg val => (ll.addAtBeg val, .done)
    | .addAtEnd val => ll.changed (ll.addAtEnd val)
    | .delAtBeg => ll.deletion ll.delAtBeg
    | .delAtEnd => ll.deletion ll.delAtEnd
    | .delByPos pos => ll.deletion (ll.delByPos pos)
    | .reverse => ll.changed ll.reverse

namespace LinkedList

variable [Inhabited T] {ll : LinkedList T} {l : List T}

omit [Inhabited T] in
theorem Holds.head_eq_none_iff (h : ll.Holds l) : ll.head = none ↔ l = [] := by
  obtain ⟨cells, ⟨hseg, -⟩, rfl⟩ := h
  cases cells with
  | nil => simp [hseg.start_eq]
  | cons cell rest => simp [hseg.load.1]

theorem delByPos_of_nil (h : ll.Holds []) (pos : Int64) :
    ll.delByPos pos = .ok (ll, default, false) := by
  rw [delByPos, if_pos (h.head_eq_none_iff.mpr rfl)]

variable {pos : Int64}

/-- The switch of `DelByPos` on a list with elements, by the index it works with. -/
theorem delByPos_eq (h : ll.Holds l) (hne : l ≠ []) {index : Int}
    (hindex : (pos - 1).toInt = index) :
    ll.delByPos pos =
      if index > l.length then .ok (ll, default, false)
      else if index = 0 then ll.delAtBeg
      else if index = l.length then ll.delAtEnd
      else ll.delBehind index.toNat := by
  have hzero : pos - 1 = 0 ↔ index = 0 := by
    have hcast : (0 : Int64).toInt = 0 := rfl
    rw [← Int64.toInt_inj, hindex, hcast]
  rw [delByPos, if_neg (fun hnone => hne (h.head_eq_none_iff.mp hnone)), count, h.length, hindex]
  simp [hzero]

theorem delByPos_beyond (h : ll.Holds l) (hindex : (pos - 1).toInt > l.length) :
    ll.delByPos pos = .ok (ll, default, false) := by
  rw [delByPos, h.length, if_pos hindex, ite_self]

theorem delByPos_inside (h : ll.Holds l) {index : Nat} (hindex : (pos - 1).toInt = index)
    (hlt : index < l.length) :
    ∃ next, ll.delByPos pos = .ok (next, l[index], true) ∧ next.Holds (l.eraseIdx index) := by
  have hne : l ≠ [] := List.ne_nil_of_length_pos (Nat.zero_lt_of_lt hlt)
  rw [delByPos_eq h hne hindex, if_neg (by omega)]
  cases index with
  | zero =>
    obtain ⟨v, l, rfl⟩ := List.exists_cons_of_ne_nil hne
    exact delAtBeg_holds h
  | succ index =>
    rw [if_neg (by omega), if_neg (by omega)]
    -- The node before the deleted one is at `index`.
    have hsplit : l = l.take index ++ l[index] :: l[index + 1] :: l.drop (index + 2) := by
      rw [List.cons_getElem_drop_succ, List.cons_getElem_drop_succ, List.take_append_drop]
    have herase : l.eraseIdx (index + 1) = l.take index ++ l[index] :: l.drop (index + 2) := by
      rw [List.eraseIdx_eq_take_drop_succ, List.take_succ_eq_append_getElem (by omega),
        List.append_assoc]
      rfl
    have hlength : (l.take index).length = index := List.length_take_of_le (by omega)
    rw [hsplit] at h
    obtain ⟨next, hdel, hnext⟩ := delBehind_holds h
    rw [hlength] at hdel
    exact ⟨next, hdel, by rwa [herase]⟩

/-- One past the end `DelAtEnd` deletes the last element. -/
theorem delByPos_past_end (h : ll.Holds l) (hne : l ≠ []) (hindex : (pos - 1).toInt = l.length) :
    ∃ next val, ll.delByPos pos = .ok (next, val, true) ∧ next.Holds l.dropLast := by
  have hpos := List.length_pos_iff.mpr hne
  rw [delByPos_eq h hne hindex, if_neg (by omega), if_neg (by omega), if_pos rfl]
  obtain ⟨front, v, rfl⟩ := (List.eq_nil_or_concat' l).resolve_left hne
  obtain ⟨next, hdel, hnext⟩ := delAtEnd_holds h
  exact ⟨next, v, hdel, by rwa [List.dropLast_concat]⟩

/-- Below one the loop makes no turn and `prev` is still nil. -/
theorem delByPos_below (h : ll.Holds l) (hne : l ≠ []) (hindex : (pos - 1).toInt < 0) :
    ll.delByPos pos = .error .nilDereference := by
  have hturns : (pos - 1).toInt.toNat = 0 := by omega
  obtain ⟨v, l, rfl⟩ := List.exists_cons_of_ne_nil hne
  rw [delByPos_eq h hne rfl, if_neg (by omega), if_neg (by omega), if_neg (by omega), hturns,
    delBehind_zero h]

def DeletesAt (ll : LinkedList T) (l : List T) (pos : Int64) : Prop :=
  if 1 ≤ pos.toInt ∧ pos.toInt ≤ l.length then
    ∃ next val, ll.delByPos pos = .ok (next, val, true) ∧
      l[(pos.toInt - 1).toNat]? = some val ∧ next.Holds (l.eraseIdx (pos.toInt - 1).toNat)
  else ∃ val, ll.delByPos pos = .ok (ll, val, false)

/-- Outside of the list the answer is no just if the index is past `length`. -/
theorem answers_no_iff (h : ll.Holds l) (hne : l ≠ []) (pos : Int64) :
    (∃ val, ll.delByPos pos = .ok (ll, val, false)) ↔ (pos - 1).toInt > l.length := by
  constructor
  · rintro ⟨val, hrun⟩
    by_contra hle
    rcases lt_or_ge (pos - 1).toInt 0 with hneg | hpos
    · rw [delByPos_below h hne hneg] at hrun
      cases hrun
    · rcases lt_or_eq_of_le (not_lt.mp hle) with hlt | hend
      · obtain ⟨index, hindex⟩ := Int.eq_ofNat_of_zero_le hpos
        obtain ⟨next, hdel, -⟩ := delByPos_inside h hindex (by omega)
        rw [hdel] at hrun
        cases hrun
      · obtain ⟨next, val', hdel, -⟩ := delByPos_past_end h hne hend
        rw [hdel] at hrun
        cases hrun
  · exact fun hgt => ⟨default, delByPos_beyond h hgt⟩

/-- `pos - 1` wraps at the smallest position only. -/
theorem toInt_pred (hmin : pos ≠ Int64.minValue) : (pos - 1).toInt = pos.toInt - 1 := by
  have hone : (1 : Int64).toInt = 1 := rfl
  have hlow : Int64.minValue.toInt = -2 ^ 63 := rfl
  have hne : pos.toInt ≠ -2 ^ 63 := fun heq => hmin (Int64.toInt_inj.mp (heq.trans hlow.symm))
  have hle := pos.le_toInt
  have hlt := pos.toInt_lt
  exact toInt_sub_of_bounds (by omega) (by omega)

theorem deletesAt_iff (h : ll.Holds l) (pos : Int64) :
    DeletesAt ll l pos ↔
      l = [] ∨ (pos = Int64.minValue ∧ (l.length : Int) < 2 ^ 63 - 1) ∨
        (1 ≤ pos.toInt ∧ pos.toInt ≠ l.length + 1) := by
  have hlow : Int64.minValue.toInt = -2 ^ 63 := rfl
  by_cases hnil : l = []
  · subst hnil
    have hno : ¬(1 ≤ pos.toInt ∧ pos.toInt ≤ ([] : List T).length) := by simp; omega
    rw [DeletesAt, if_neg hno, delByPos_of_nil h]
    simp
  · by_cases hmin : pos = Int64.minValue
    · subst hmin
      have hwrap : (Int64.minValue - 1).toInt = 2 ^ 63 - 1 := rfl
      rw [DeletesAt, if_neg (by omega), answers_no_iff h hnil, hwrap, hlow]
      simp [hnil]
    · have hpred := toInt_pred hmin
      by_cases hin : 1 ≤ pos.toInt ∧ pos.toInt ≤ l.length
      · have hindex : (pos - 1).toInt = ((pos.toInt - 1).toNat : Nat) := by omega
        have hlt : (pos.toInt - 1).toNat < l.length := by omega
        obtain ⟨next, hdel, hnext⟩ := delByPos_inside h hindex hlt
        rw [DeletesAt, if_pos hin]
        exact iff_of_true ⟨next, _, hdel, List.getElem?_eq_getElem hlt, hnext⟩
          (.inr (.inr (by omega)))
      · rw [DeletesAt, if_neg hin, answers_no_iff h hnil, hpred]
        simp only [hnil, hmin, false_and, false_or]
        omega

end LinkedList

section Runs

variable [Inhabited T]

/-- `DelByPos` leaves a list that ends and counts its nodes, whatever the position. -/
theorem delByPos_keeps {ll : LinkedList T} {l : List T} (h : ll.Holds l) (pos : Int64) :
    ∃ l', (ll.deletion (ll.delByPos pos)).1.Holds l' := by
  by_cases hnil : l = []
  · subst hnil
    rw [delByPos_of_nil h]
    exact ⟨[], h⟩
  · rcases lt_or_ge (pos - 1).toInt 0 with hneg | hpos
    · rw [delByPos_below h hnil hneg]
      exact ⟨l, h⟩
    · rcases lt_trichotomy (pos - 1).toInt l.length with hlt | hend | hgt
      · obtain ⟨index, hindex⟩ := Int.eq_ofNat_of_zero_le hpos
        obtain ⟨next, hdel, hnext⟩ := delByPos_inside h hindex (by omega)
        rw [hdel]
        exact ⟨_, hnext⟩
      · obtain ⟨next, val, hdel, hnext⟩ := delByPos_past_end h hnil hend
        rw [hdel]
        exact ⟨_, hnext⟩
      · rw [delByPos_beyond h hgt]
        exact ⟨l, h⟩

theorem delAtBeg_keeps {ll : LinkedList T} {l : List T} (h : ll.Holds l) :
    ∃ l', (ll.deletion ll.delAtBeg).1.Holds l' := by
  cases l with
  | nil =>
    rw [delAtBeg, h.head_eq_none_iff.mpr rfl]
    exact ⟨[], h⟩
  | cons v l =>
    obtain ⟨next, hdel, hnext⟩ := delAtBeg_holds h
    rw [hdel]
    exact ⟨l, hnext⟩

theorem delAtEnd_keeps {ll : LinkedList T} {l : List T} (h : ll.Holds l) :
    ∃ l', (ll.deletion ll.delAtEnd).1.Holds l' := by
  rcases List.eq_nil_or_concat' l with rfl | ⟨l, v, rfl⟩
  · rw [delAtEnd, h.head_eq_none_iff.mpr rfl]
    exact ⟨[], h⟩
  · obtain ⟨next, hdel, hnext⟩ := delAtEnd_holds h
    rw [hdel]
    exact ⟨l, hnext⟩

/-- Every call leaves a list that ends and counts its nodes. -/
theorem step_holds {ll : LinkedList T} (h : ∃ l, ll.Holds l) (call : ListCall T) :
    ∃ l, (listMachine.step ll call).1.Holds l := by
  obtain ⟨l, h⟩ := h
  cases call with
  | addAtBeg val => exact ⟨val :: l, addAtBeg_holds h val⟩
  | addAtEnd val =>
    obtain ⟨next, hadd, hnext⟩ := addAtEnd_holds h val
    refine ⟨l ++ [val], ?_⟩
    simpa only [listMachine, hadd, changed] using hnext
  | delAtBeg => exact delAtBeg_keeps h
  | delAtEnd => exact delAtEnd_keeps h
  | delByPos pos => exact delByPos_keeps h pos
  | reverse =>
    obtain ⟨next, hreverse, hnext⟩ := reverse_holds h
    refine ⟨l.reverse, ?_⟩
    simpa only [listMachine, hreverse, changed] using hnext

theorem run_holds (calls : List (ListCall T)) : ∃ l, (listMachine.run new calls).Holds l :=
  listMachine.run_invariant_of_step (fun ll => ∃ l, ll.Holds l) (fun _ call h => step_holds h call)
    new calls ⟨[], holds_new⟩

/--
Every list that calls can build ends, and `Count` is the number of its nodes. Deleting by position
removes exactly the element asked for, or says no and changes nothing, if and only if the list is
empty or the position is neither below one (the smallest `int` apart) nor one past the end.
-/
theorem delByPos_correct_iff (calls : List (ListCall T)) :
    ∃ l, (listMachine.run new calls).Holds l ∧ (listMachine.run new calls).count = l.length ∧
      ∀ pos : Int64, DeletesAt (listMachine.run new calls) l pos ↔
        l = [] ∨ (pos = Int64.minValue ∧ (l.length : Int) < 2 ^ 63 - 1) ∨
          (1 ≤ pos.toInt ∧ pos.toInt ≠ l.length + 1) := by
  obtain ⟨l, h⟩ := run_holds calls
  exact ⟨l, h, h.length, deletesAt_iff h⟩

end Runs

/-- Position 2 of a list with one element deletes it, and position 0 panics. -/
theorem delByPos_outside_of_one_element :
    (listMachine.trace (new : LinkedList Nat) [.addAtBeg 7, .delByPos 2]).map Prod.snd =
        [.done, .deleted 7 true] ∧
      (listMachine.run (new : LinkedList Nat) [.addAtBeg 7, .delByPos 2]).Holds [] ∧
      (listMachine.trace (new : LinkedList Nat) [.addAtBeg 7, .delByPos 0]).map Prod.snd =
        [.done, .fault .nilDereference] :=
  ⟨by decide, ⟨[], ⟨.nil none, rfl⟩, rfl⟩, by decide⟩

end Photon.Stdlib
