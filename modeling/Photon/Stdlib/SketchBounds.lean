import Photon.Lib.AgingCounter
import Photon.Stdlib.Sketch

/-!
What a Count-Min Sketch estimates. Every counter of the table is an aging counter of
the hashes that are sent to it, so an estimate lies between the counter of the hash
alone and the number of all observations.
-/

namespace Photon.Stdlib.CountMinSketch

open Photon.Lib

variable (f : Nat → Nat) (c : CountMinSketch)

def perform : Tally UInt64 → CountMinSketch
  | .observe h => c.increment h
  | .halve => c.age
  | .clear => c.reset

def performAll (events : List (Tally UInt64)) : CountMinSketch :=
  events.foldl perform c

def cell (r i : Nat) : Nat := (c.rows.getD r []).getD i 0

structure Shaped (c : CountMinSketch) : Prop where
  rows : c.rows.length = c.depth
  row : ∀ row ∈ c.rows, row.length = c.width.toNat

structure SameParameters (c next : CountMinSketch) : Prop where
  depth : next.depth = c.depth
  width : next.width = c.width
  mask : next.mask = c.mask
  salt : next.salt = c.salt
  agingEvery : next.agingEvery = c.agingEvery

theorem SameParameters.index_eq {c next : CountMinSketch} (h : SameParameters c next) (r : Nat)
    (hash : UInt64) : next.index r hash = c.index r hash := by
  simp [index, h.width, h.mask, h.salt]

section Accepted

variable {depth : Int} {width agingEvery : UInt64} {c : CountMinSketch}

/-- What `NewCountMinSketch` checks and builds. -/
theorem new_eq_ok (hnew : new depth width agingEvery = .ok c) :
    0 < c.depth ∧ 16 ≤ width.toNat ∧ c.width = width ∧ c.agingEvery = agingEvery ∧
      c.mask = (if width &&& (width - 1) ≠ 0 then 0 else width - 1) ∧
      c.rows = List.replicate c.depth (List.replicate width.toNat 0) ∧ c.n = 0 := by
  unfold new at hnew
  split at hnew
  · cases hnew
  · next hdepth =>
      split at hnew
      · cases hnew
      · next hwidth =>
          cases hnew
          have hlarge : 16 ≤ width.toNat := Nat.le_of_not_lt fun hlt =>
            hwidth (UInt64.lt_iff_toNat_lt.mpr hlt)
          have hpos : 0 < depth.toNat := by omega
          exact ⟨hpos, hlarge, rfl, rfl, rfl, rfl, rfl⟩

theorem new_shaped (hnew : new depth width agingEvery = .ok c) : Shaped c := by
  obtain ⟨-, -, hwidth, -, -, hrows, -⟩ := new_eq_ok hnew
  refine ⟨by simp [hrows], fun row hrow => ?_⟩
  rw [hrows] at hrow
  rw [List.eq_of_mem_replicate hrow, List.length_replicate, hwidth]

theorem toNat_width_sub_one (hwidth : 16 ≤ width.toNat) :
    (width - 1).toNat = width.toNat - 1 :=
  UInt64.toNat_sub_of_le width 1 (UInt64.le_iff_toNat_le.mpr (le_trans (by decide) hwidth))

section

variable (hnew : new depth width agingEvery = .ok c)
include hnew

/-- The mask is in use for the powers of two only. -/
theorem new_mask : c.mask = if width.toNat.isPowerOfTwo then width - 1 else 0 := by
  obtain ⟨-, hlarge, -, -, hmask, -, -⟩ := new_eq_ok hnew
  have hpower : width &&& (width - 1) = 0 ↔ width.toNat.isPowerOfTwo := by
    rw [← Nat.and_sub_one_eq_zero_iff_isPowerOfTwo (by omega), ← UInt64.toNat_inj,
      UInt64.toNat_and, toNat_width_sub_one hlarge]
    rfl
  rw [hmask]
  by_cases h : width.toNat.isPowerOfTwo
  · rw [if_pos h, if_neg (not_not.mpr (hpower.mpr h))]
  · rw [if_neg h, if_pos (hpower.not.mpr h)]

/-- For a power of two the mask is the remainder. -/
theorem and_mask (hpower : width.toNat.isPowerOfTwo) (z : UInt64) : z &&& c.mask = z % c.width := by
  obtain ⟨-, hlarge, hwidth, -⟩ := new_eq_ok hnew
  rw [new_mask hnew, if_pos hpower, ← UInt64.toNat_inj, UInt64.toNat_and, UInt64.toNat_mod,
    toNat_width_sub_one hlarge, hwidth]
  obtain ⟨k, hk⟩ := hpower
  rw [hk]
  exact Nat.and_two_pow_sub_one_eq_mod z.toNat k

theorem index_lt (r : Nat) (hash : UInt64) : c.index r hash < c.width.toNat := by
  obtain ⟨-, hlarge, hwidth, -⟩ := new_eq_ok hnew
  have hmod : ∀ z : UInt64, (z % c.width).toNat < c.width.toNat := by
    intro z
    rw [UInt64.toNat_mod]
    exact Nat.mod_lt _ (by rw [hwidth]; omega)
  unfold index
  dsimp only
  split
  · next hmask =>
      have hpower : width.toNat.isPowerOfTwo := by
        by_contra h
        exact hmask ((new_mask hnew).trans (if_neg h))
      rw [and_mask hnew hpower]
      exact hmod _
  · exact hmod _

end

end Accepted

section Cells

variable {c : CountMinSketch}

theorem sameParameters_perform (c : CountMinSketch) (event : Tally UInt64) :
    SameParameters c (c.perform event) := by
  cases event with
  | observe h =>
    simp only [perform, increment]
    split <;> exact ⟨rfl, rfl, rfl, rfl, rfl⟩
  | halve | clear => exact ⟨rfl, rfl, rfl, rfl, rfl⟩

theorem Shaped.map {c : CountMinSketch} (h : Shaped c) (f : Nat → Nat) (n : Nat) :
    Shaped {c with rows := c.rows.map (List.map f), n := n} := by
  refine ⟨by simpa using h.rows, fun row hrow => ?_⟩
  obtain ⟨old, hold, rfl⟩ := List.mem_map.mp hrow
  rw [List.length_map]
  exact h.row old hold

theorem Shaped.bumpRows (h : Shaped c) (hash : UInt64) (n : Nat) :
    Shaped {c with rows := c.bumpRows hash, n := n} := by
  refine ⟨by simpa [CountMinSketch.bumpRows] using h.rows, fun row hrow => ?_⟩
  obtain ⟨r, hr, rfl⟩ := List.mem_mapIdx.mp hrow
  rw [List.length_modify]
  exact h.row _ (List.getElem_mem hr)

theorem Shaped.perform (h : Shaped c) (event : Tally UInt64) : Shaped (c.perform event) := by
  cases event with
  | observe hash =>
    simp only [CountMinSketch.perform, increment]
    split
    · exact (h.bumpRows hash _).map (· / 2) _
    · exact h.bumpRows hash _
  | halve => exact h.map (· / 2) c.n
  | clear => exact h.map (fun _ => 0) 0

/-- A map of all counters that fixes zero. -/
theorem cell_map (c : CountMinSketch) {f : Nat → Nat} (hzero : f 0 = 0) (n r i : Nat) :
    cell {c with rows := c.rows.map (List.map f), n := n} r i = f (c.cell r i) := by
  simp only [cell, List.getD_eq_getElem?_getD, List.getElem?_map]
  cases c.rows[r]? with
  | none => simp [hzero]
  | some row =>
    simp only [Option.map_some, Option.getD_some, List.getElem?_map]
    cases row[i]? with
    | none => exact hzero.symm
    | some v => rfl

theorem cell_bumpRows (h : Shaped c) {r i : Nat} (hr : r < c.depth) (hi : i < c.width.toNat)
    (hash : UInt64) (n : Nat) :
    cell {c with rows := c.bumpRows hash, n := n} r i =
      if c.index r hash = i then AgingCounter.bump maxCounter (c.cell r i) else c.cell r i := by
  have hrow : r < c.rows.length := h.rows ▸ hr
  have hcolumn : i < c.rows[r].length := by
    rw [h.row _ (List.getElem_mem hrow)]
    exact hi
  simp only [cell, bumpRows, List.getD_eq_getElem?_getD, List.getElem?_mapIdx,
    List.getElem?_eq_getElem hrow, Option.map_some, Option.getD_some, List.getElem?_modify,
    List.getElem?_eq_getElem hcolumn, Option.map_eq_map]
  rfl

/-- The counters as the hashes that share them see them. -/
theorem cell_performAll (h : Shaped c) {r i : Nat} (hr : r < c.depth) (hi : i < c.width.toNat)
    (hzero : c.cell r i = 0) (hn : c.n = 0) (events : List (Tally UInt64)) :
    SameParameters c (c.performAll events) ∧ Shaped (c.performAll events) ∧
      (⟨(c.performAll events).cell r i, (c.performAll events).n⟩ : AgingCounter) =
        AgingCounter.run ⟨maxCounter, c.agingEvery.toNat, 2 ^ 64⟩
          (fun hash => decide (c.index r hash = i)) events := by
  induction events using List.reverseRecOn with
  | nil => exact ⟨⟨rfl, rfl, rfl, rfl, rfl⟩, h, by simp [performAll, AgingCounter.run, hzero, hn]⟩
  | append_singleton events event ih =>
    obtain ⟨hsame, hshaped, hcell⟩ := ih
    have hsnoc : c.performAll (events ++ [event]) = (c.performAll events).perform event := by
      simp [performAll]
    have hlast := sameParameters_perform (c.performAll events) event
    rw [hsnoc, AgingCounter.run_snoc, ← hcell]
    refine ⟨⟨hlast.depth.trans hsame.depth, hlast.width.trans hsame.width,
      hlast.mask.trans hsame.mask, hlast.salt.trans hsame.salt,
      hlast.agingEvery.trans hsame.agingEvery⟩, hshaped.perform event, ?_⟩
    cases event with
    | observe hash =>
      have hbump := cell_bumpRows hshaped (hsame.depth ▸ hr) (hsame.width ▸ hi) hash
        (((c.performAll events).n + 1) % 2 ^ 64)
      rw [hsame.index_eq] at hbump
      simp only [perform, increment, AgingCounter.step, decide_eq_true_eq, ← hbump]
      have hages : ((c.performAll events).agingEvery ≠ 0 ∧
          ((c.performAll events).n + 1) % 2 ^ 64 % (c.performAll events).agingEvery.toNat = 0) ↔
          (c.agingEvery.toNat ≠ 0 ∧
            ((c.performAll events).n + 1) % 2 ^ 64 % c.agingEvery.toNat = 0) := by
        rw [hsame.agingEvery, ne_eq, ne_eq, ← UInt64.toNat_inj]
        rfl
      by_cases hage : c.agingEvery.toNat ≠ 0 ∧
          ((c.performAll events).n + 1) % 2 ^ 64 % c.agingEvery.toNat = 0
      · rw [if_pos (hages.mpr hage), if_pos hage]
        exact congrArg (AgingCounter.mk · _) (cell_map _ (f := (· / 2)) rfl _ r i)
      · rw [if_neg (hages.not.mpr hage), if_neg hage]
    | halve =>
      exact congrArg (AgingCounter.mk · _)
        (cell_map (c.performAll events) (f := (· / 2)) rfl _ r i)
    | clear =>
      exact congrArg (AgingCounter.mk · 0)
        (cell_map (c.performAll events) (f := fun _ => 0) rfl 0 r i)

end Cells

section Estimate

private theorem foldl_least_le_start (rows : List Nat) (start : Nat) :
    rows.foldl (fun least r => if f r < least then f r else least) start ≤ start := by
  induction rows generalizing start with
  | nil => exact le_rfl
  | cons r rest ih =>
    refine (ih _).trans ?_
    dsimp only
    split <;> omega

private theorem foldl_least_le {rows : List Nat} {r : Nat} (hr : r ∈ rows) (start : Nat) :
    rows.foldl (fun least r => if f r < least then f r else least) start ≤ f r := by
  induction rows generalizing start with
  | nil => cases hr
  | cons first rest ih =>
    rcases List.mem_cons.mp hr with rfl | hrest
    · refine (foldl_least_le_start f rest _).trans ?_
      dsimp only
      split <;> omega
    · exact ih hrest _

private theorem le_foldl_least {rows : List Nat} {v start : Nat} (hstart : v ≤ start)
    (hrows : ∀ r ∈ rows, v ≤ f r) :
    v ≤ rows.foldl (fun least r => if f r < least then f r else least) start := by
  induction rows generalizing start with
  | nil => exact hstart
  | cons first rest ih =>
    refine ih ?_ fun r hr => hrows r (List.mem_cons_of_mem _ hr)
    have hfirst := hrows first List.mem_cons_self
    dsimp only
    split <;> omega

theorem estimate_le_cell (c : CountMinSketch) {r : Nat} (hr : r < c.depth) (hash : UInt64) :
    c.estimate hash ≤ c.cell r (c.index r hash) :=
  foldl_least_le (fun r => c.cell r (c.index r hash)) (List.mem_range.mpr hr) maxCounter

theorem le_estimate (c : CountMinSketch) {hash : UInt64} {v : Nat} (hmax : v ≤ maxCounter)
    (hcells : ∀ r, r < c.depth → v ≤ c.cell r (c.index r hash)) : v ≤ c.estimate hash :=
  le_foldl_least (fun r => c.cell r (c.index r hash)) hmax
    fun r hr => hcells r (List.mem_range.mp hr)

end Estimate

def reference (agingEvery : UInt64) (hash : UInt64) (events : List (Tally UInt64)) : Nat :=
  (AgingCounter.run ⟨maxCounter, agingEvery.toNat, 2 ^ 64⟩
    (fun other => decide (other = hash)) events).value

section Fresh

variable {depth : Int} {width agingEvery : UInt64} {c : CountMinSketch}

section

variable (hnew : new depth width agingEvery = .ok c)
include hnew

theorem new_cell (r i : Nat) : c.cell r i = 0 := by
  obtain ⟨-, -, -, -, -, hrows, -⟩ := new_eq_ok hnew
  simp only [cell, hrows, List.getD_eq_getElem?_getD, List.getElem?_replicate]
  split
  · simp only [Option.getD_some, List.getElem?_replicate]
    split <;> rfl
  · rfl

/-- The counter of a hash in a row, as an aging counter. -/
theorem own_cell (events : List (Tally UInt64)) (hash : UInt64) {r : Nat} (hr : r < c.depth) :
    SameParameters c (c.performAll events) ∧
      (c.performAll events).cell r (c.index r hash) =
        (AgingCounter.run ⟨maxCounter, agingEvery.toNat, 2 ^ 64⟩
          (fun other => decide (c.index r other = c.index r hash)) events).value := by
  obtain ⟨-, -, -, haging, -, -, hn⟩ := new_eq_ok hnew
  obtain ⟨hsame, -, hcell⟩ := cell_performAll (new_shaped hnew) hr (index_lt hnew r hash)
    (new_cell hnew r _) hn events
  rw [← haging, ← hcell]
  exact ⟨hsame, rfl⟩

theorem reference_le_estimate (events : List (Tally UInt64)) (hash : UInt64) :
    reference agingEvery hash events ≤ (c.performAll events).estimate hash := by
  obtain ⟨hsame, -⟩ := own_cell hnew events hash (new_eq_ok hnew).1
  refine le_estimate _ (AgingCounter.run_le_limit _ _ events) fun r hr => ?_
  rw [hsame.index_eq, (own_cell hnew events hash (hsame.depth ▸ hr)).2]
  refine AgingCounter.run_mono _ (fun other hother => ?_) events
  rw [decide_eq_true_eq] at hother ⊢
  rw [hother]

/-- Before the first aging, an estimate is at least the number of increments, up to the
largest counter. -/
theorem count_le_estimate {hashes : List UInt64} (hfew : hashes.length < agingEvery.toNat)
    (hash : UInt64) :
    min maxCounter (hashes.count hash) ≤ (c.performAll (hashes.map .observe)).estimate hash := by
  refine le_trans (le_of_eq ?_) (reference_le_estimate hnew (hashes.map .observe) hash)
  rw [reference, AgingCounter.run_observes _ _ agingEvery.toNat_lt.le hfew]
  rfl

end

end Fresh

/-- After any calls on a new sketch, an estimate is at least the counter of the hash
alone and at most the number of increments since the last reset. It is exact if some
row sends no other hash of these increments to the same counter. Every index is in its
row, and for a power of two the mask in use is the remainder. -/
theorem estimate_bounds {depth : Int} {width agingEvery : UInt64} {c : CountMinSketch}
    (hnew : new depth width agingEvery = .ok c) (events : List (Tally UInt64)) (hash : UInt64) :
    let last := c.performAll events
    let increments := AgingCounter.sinceClear events
    reference agingEvery hash events ≤ last.estimate hash ∧
    last.estimate hash ≤ increments.length ∧
    ((∃ r, r < last.depth ∧ ∀ other ∈ increments, other ≠ hash →
        last.index r other ≠ last.index r hash) →
      last.estimate hash = reference agingEvery hash events) ∧
    (∀ r, last.index r hash < last.width.toNat) ∧
    (width.toNat.isPowerOfTwo → last.mask ≠ 0 ∧ ∀ z, z &&& last.mask = z % last.width) := by
  intro last increments
  obtain ⟨hdepth, hlarge, -⟩ := new_eq_ok hnew
  obtain ⟨hsame, -⟩ := own_cell hnew events hash hdepth
  have hindex := hsame.index_eq
  have hown : ∀ r, r < c.depth → last.cell r (last.index r hash) =
      (AgingCounter.run ⟨maxCounter, agingEvery.toNat, 2 ^ 64⟩
        (fun other => decide (c.index r other = c.index r hash)) events).value := by
    intro r hr
    rw [hindex]
    exact (own_cell hnew events hash hr).2
  have hlower := reference_le_estimate hnew events hash
  refine ⟨hlower, ?_, ?_, ?_, ?_⟩
  · refine (estimate_le_cell last (hsame.depth ▸ hdepth) hash).trans ?_
    rw [hown 0 hdepth]
    exact AgingCounter.run_le_length _ _ events
  · rintro ⟨r, hr, halone⟩
    refine le_antisymm ((estimate_le_cell last hr hash).trans ?_) hlower
    rw [hown r (hsame.depth ▸ hr)]
    refine (congrArg AgingCounter.value (AgingCounter.run_congr _ fun other hother => ?_)).le
    have hshare : c.index r other = c.index r hash ↔ other = hash := by
      refine ⟨fun heq => ?_, fun heq => heq ▸ rfl⟩
      by_contra hne
      exact halone other hother hne (by rw [hindex, hindex, heq])
    simp [hshare]
  · intro r
    rw [hindex, hsame.width]
    exact index_lt hnew r hash
  · intro hpower
    rw [hsame.mask, hsame.width]
    refine ⟨?_, and_mask hnew hpower⟩
    rw [new_mask hnew, if_pos hpower, ne_eq, ← UInt64.toNat_inj, toNat_width_sub_one hlarge]
    have : (0 : UInt64).toNat = 0 := rfl
    omega

/-- Two observations of one hash, one of another, and a halving. -/
theorem estimate_of_two_hashes :
    ∃ c, new 2 16 5 = .ok c ∧ reference 5 7 [.observe 7, .observe 9, .observe 7, .halve] = 1 ∧
      1 ≤ (c.performAll [.observe 7, .observe 9, .observe 7, .halve]).estimate 7 ∧
      (c.performAll [.observe 7, .observe 9, .observe 7, .halve]).estimate 7 ≤ 3 := by
  obtain ⟨c, hnew⟩ : ∃ c, new 2 16 5 = .ok c := ⟨_, rfl⟩
  have hone : reference 5 7 [.observe 7, .observe 9, .observe 7, .halve] = 1 := by decide
  have hbounds := estimate_bounds hnew [.observe 7, .observe 9, .observe 7, .halve] 7
  rw [hone] at hbounds
  exact ⟨c, hnew, hone, hbounds.1, hbounds.2.1⟩

end Photon.Stdlib.CountMinSketch
