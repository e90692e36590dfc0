import Mathlib.Tactic

/-!
Recency lists. A cache is a list of pairs with distinct keys, the most recently used
pair in front. A use of a key puts its pair in front, and a new pair may push the last
one out. `lastUsed` is the order a history of uses leads to, and `KeepsMost` says what
is left when the least recently used keys go until the rest fits.
-/

namespace Photon.Lib.Recency

variable {K V : Type} [DecidableEq K] {key : K} {value : V} {pairs : List (K × V)}

def without (key : K) (pairs : List (K × V)) : List (K × V) :=
  pairs.filter fun p => decide (p.1 ≠ key)

def promote (key : K) (value : V) (pairs : List (K × V)) : List (K × V) :=
  (key, value) :: without key pairs

/-- A new pair in front, and the pairs it pushes out: the last one when a positive
capacity is used up. -/
def enter (capacity : Nat) (key : K) (value : V) (pairs : List (K × V)) :
    List (K × V) × List (K × V) :=
  if 0 < capacity ∧ capacity ≤ pairs.length then
    ((key, value) :: pairs.dropLast, pairs.getLast?.toList)
  else ((key, value) :: pairs, [])

theorem lookup_of_mem (hnodup : (pairs.map Prod.fst).Nodup) (hmem : (key, value) ∈ pairs) :
    pairs.lookup key = some value := by
  obtain ⟨before, after, rfl⟩ := List.append_of_mem hmem
  refine List.lookup_eq_some_iff.mpr ⟨before, after, rfl, fun p hp => ?_⟩
  rw [List.map_append, List.map_cons] at hnodup
  have hne : p.1 ≠ key := by
    rintro rfl
    exact List.disjoint_of_nodup_append hnodup (List.mem_map_of_mem hp) List.mem_cons_self
  simpa using hne.symm

theorem lookup_eq_none : pairs.lookup key = none ↔ key ∉ pairs.map Prod.fst := by
  rw [List.lookup_eq_none_iff, List.mem_map]
  constructor
  · rintro h ⟨p, hp, rfl⟩
    simpa using h p hp
  · intro h p hp
    have hne : key ≠ p.1 := fun heq => h ⟨p, hp, heq.symm⟩
    simpa using hne

theorem map_fst_without (hnodup : (pairs.map Prod.fst).Nodup) (key : K) :
    (without key pairs).map Prod.fst = (pairs.map Prod.fst).erase key := by
  rw [hnodup.erase_eq_filter, List.filter_map, without]
  refine congrArg (List.map Prod.fst) (List.filter_congr fun p _ => ?_)
  simp [bne, beq_eq_decide]

theorem length_promote_le (hmem : key ∈ pairs.map Prod.fst) (value : V) :
    (promote key value pairs).length ≤ pairs.length := by
  obtain ⟨p, hp, rfl⟩ := List.mem_map.mp hmem
  exact List.length_filter_lt_length_iff_exists.mpr ⟨p, hp, by simp⟩

omit [DecidableEq K] in
theorem length_enter_le {capacity : Nat} (hpos : 0 < capacity) (hlength : pairs.length ≤ capacity)
    (key : K) (value : V) : (enter capacity key value pairs).1.length ≤ capacity := by
  unfold enter
  split
  · simp only [List.length_cons, List.length_dropLast]
    omega
  · simp only [List.length_cons]
    omega

def lastUsed (uses : List K) : List K := uses.dedup.reverse

theorem dedup_snoc (uses : List K) (key : K) :
    (uses ++ [key]).dedup = uses.dedup.erase key ++ [key] := by
  induction uses with
  | nil => rfl
  | cons first rest ih =>
    rw [List.cons_append]
    by_cases hlater : first ∈ rest
    · rw [List.dedup_cons_of_mem hlater,
        List.dedup_cons_of_mem (List.mem_append_left _ hlater), ih]
    · rw [List.dedup_cons_of_notMem hlater]
      by_cases hkey : first = key
      · subst hkey
        rw [List.dedup_cons_of_mem (by simp), ih, List.erase_cons_head,
          List.erase_of_not_mem (by simpa using hlater)]
      · have hfresh : first ∉ rest ++ [key] := by simp [hlater, hkey]
        rw [List.dedup_cons_of_notMem hfresh, ih, List.erase_cons_tail (by simpa using hkey),
          List.cons_append]

theorem lastUsed_snoc (uses : List K) (key : K) :
    lastUsed (uses ++ [key]) = key :: (lastUsed uses).erase key := by
  rw [lastUsed, dedup_snoc, List.reverse_append, List.reverse_singleton, List.singleton_append,
    lastUsed, uses.nodup_dedup.erase_eq_filter,
    (List.nodup_reverse.mpr uses.nodup_dedup).erase_eq_filter, List.filter_reverse]

/-- A sublist of distinct elements is picked out by its elements. -/
theorem eq_filter_of_sublist {order kept : List K} (hsublist : kept.Sublist order)
    (hnodup : order.Nodup) : kept = order.filter (fun key => decide (key ∈ kept)) := by
  induction hsublist with
  | slnil => rfl
  | @cons kept order first hsublist ih =>
    obtain ⟨hfresh, hrest⟩ := List.nodup_cons.mp hnodup
    have hout : first ∉ kept := fun hmem => hfresh (hsublist.subset hmem)
    rw [List.filter_cons_of_neg (by simpa using hout)]
    exact ih hrest
  | @cons_cons kept order first hsublist ih =>
    obtain ⟨hfresh, hrest⟩ := List.nodup_cons.mp hnodup
    have hsame : order.filter (fun key => decide (key ∈ first :: kept)) =
        order.filter (fun key => decide (key ∈ kept)) := by
      refine List.filter_congr fun key hkey => ?_
      have hne : key ≠ first := fun heq => hfresh (heq ▸ hkey)
      simp [hne]
    rw [List.filter_cons_of_pos (by simp), hsame, ← ih hrest]

section KeepsMost

variable {α : Type} {Fits : List α → Prop} {order kept : List α}

/-- What is left of a list when its last elements go, one by one, until the rest fits:
the longest front part that fits, so that no shorter end part could have gone. -/
structure KeepsMost (Fits : List α → Prop) (order kept : List α) : Prop where
  front : kept <+: order
  fits : Fits kept
  most : ∀ other, other <+: order → Fits other → other <+: kept

/-- The victims `gone` are taken from the end, and none of them could have stayed. -/
theorem keepsMost_of_victims {gone left : List α} (hsplit : order.reverse = gone ++ left)
    (hfits : Fits left.reverse)
    (hpressed : ∀ part rest, order.reverse = part ++ rest → part <+: gone → part ≠ gone →
      ¬ Fits rest.reverse) : KeepsMost Fits order left.reverse := by
  have horder : order = left.reverse ++ gone.reverse := by
    rw [← List.reverse_append, ← hsplit, List.reverse_reverse]
  refine ⟨⟨gone.reverse, horder.symm⟩, hfits, fun other hother hfit => ?_⟩
  obtain ⟨tail, rfl⟩ := hother
  rw [List.reverse_append] at hsplit hpressed
  rcases List.append_eq_append_iff.mp hsplit with ⟨more, hgone, hrest⟩ | ⟨more, htail, hleft⟩
  · -- fewer victims than `gone` would leave `other`
    cases more with
    | nil =>
      rw [List.nil_append] at hrest
      rw [← hrest, List.reverse_reverse]
    | cons next more =>
      have hless : tail.reverse ≠ gone := by
        intro heq
        rw [heq] at hgone
        simp at hgone
      refine absurd hfit ?_
      have hnot := hpressed tail.reverse other.reverse rfl ⟨next :: more, hgone.symm⟩ hless
      rwa [List.reverse_reverse] at hnot
  · refine ⟨more.reverse, ?_⟩
    rw [hleft, List.reverse_append, List.reverse_reverse]

end KeepsMost

end Photon.Lib.Recency
