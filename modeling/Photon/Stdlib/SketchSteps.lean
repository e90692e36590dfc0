import Photon.Lib.AtomicSteps
import Photon.Stdlib.SketchBounds

/-!
The calls on a Count-Min Sketch step by step: every read and every write of a counter,
and of the number of operations, is a step of its own. Uninterrupted, the steps are
`increment` and `estimate`. The parameters of a sketch never change, so a call knows
them from the start.
-/

namespace Photon.Stdlib.CountMinSketch

open Photon.Lib

def readCell (r i : Nat) : Steps CountMinSketch Nat := .read fun c => c.cell r i

def writeCell (r i v : Nat) : Steps CountMinSketch Unit :=
  .modify fun c => {c with rows := c.rows.modify r fun row => row.set i v}

def readN : Steps CountMinSketch Nat := .read CountMinSketch.n

def writeN (n : Nat) : Steps CountMinSketch Unit := .modify fun c => {c with n := n}

def ageSteps (p : CountMinSketch) : Steps CountMinSketch Unit :=
  (List.range p.depth).forM fun r =>
    (List.range p.width.toNat).forM fun i => do
      let v ← readCell r i
      writeCell r i (v / 2)

/-- `Increment` of a sketch with the parameters of `p`. -/
def incrementSteps (p : CountMinSketch) (h : UInt64) : Steps CountMinSketch Unit := do
  (List.range p.depth).forM fun r => do
    let v ← readCell r (p.index r h)
    if v ≠ maxCounter then writeCell r (p.index r h) (v + 1)
  let n ← readN
  writeN ((n + 1) % 2 ^ 64)
  if p.agingEvery ≠ 0 then do
    let n ← readN
    if n % p.agingEvery.toNat = 0 then ageSteps p

def estimateLoop (p : CountMinSketch) (h : UInt64) : List Nat → Nat → Steps CountMinSketch Nat
  | [], least => pure least
  | r :: rows, least => do
      let v ← readCell r (p.index r h)
      estimateLoop p h rows (if v < least then v else least)

def estimateSteps (p : CountMinSketch) (h : UInt64) : Steps CountMinSketch Nat :=
  estimateLoop p h (List.range p.depth) maxCounter

section Alone

variable {c p : CountMinSketch}

theorem alone_estimateSteps (hsame : SameParameters p c) (h : UInt64) :
    (estimateSteps p h).alone c = (c, c.estimate h) := by
  have hloop : ∀ rows least, (estimateLoop p h rows least).alone c =
      (c, rows.foldl (fun least r =>
        if c.cell r (c.index r h) < least then c.cell r (c.index r h) else least) least) := by
    intro rows
    induction rows with
    | nil => exact fun _ => rfl
    | cons r rows ih =>
      intro least
      rw [estimateLoop, Steps.alone_bind, readCell, Steps.alone_read, ih, List.foldl_cons,
        hsame.index_eq]
  rw [estimateSteps, hloop, ← hsame.depth]
  rfl

/-- Turns that each change one element of a list. -/
theorem foldl_modify_range {α : Type} (f : Nat → α → α) (n : Nat) (l : List α) :
    (List.range n).foldl (fun l i => l.modify i (f i)) l =
      l.mapIdx fun i x => if i < n then f i x else x := by
  induction n with
  | zero => exact List.ext_getElem? fun i => by simp
  | succ n ih =>
    rw [List.range_succ, List.foldl_append, List.foldl_cons, List.foldl_nil, ih]
    refine List.ext_getElem? fun i => ?_
    simp only [List.getElem?_modify, List.getElem?_mapIdx]
    cases l[i]? with
    | none => simp
    | some x =>
      by_cases hi : n = i
      · subst hi
        simp
      · have hlt : i < n + 1 ↔ i < n := by omega
        simp [hi, hlt]

/-- Writing back a function of the value that was read. -/
theorem modify_set_cell (rows : List (List Nat)) (r i : Nat) (f : Nat → Nat) :
    (rows.modify r fun row => row.set i (f ((rows.getD r []).getD i 0))) =
      rows.modify r fun row => row.modify i f := by
  refine List.ext_getElem? fun j => ?_
  rw [List.getElem?_modify, List.getElem?_modify]
  by_cases hj : r = j
  · subst hj
    cases hrow : rows[r]? with
    | none => rfl
    | some row =>
      simp only [List.getD_eq_getElem?_getD, hrow, Option.getD_some, if_true]
      refine congrArg some (List.ext_getElem? fun k => ?_)
      rw [List.getElem?_set, List.getElem?_modify]
      by_cases hk : i = k
      · subst hk
        cases hcell : row[i]? with
        | none =>
          have hlen := List.getElem?_eq_none_iff.mp hcell
          simp [Nat.not_lt.mpr hlen]
        | some v =>
          have hlen := (List.getElem?_eq_some_iff.mp hcell).1
          simp [hlen]
      · simp [hk]
  · simp [hj]

/-- Nothing is written where nothing would change. -/
theorem modify_of_fixed {rows : List (List Nat)} {r i : Nat} {f : Nat → Nat}
    (h : f ((rows.getD r []).getD i 0) = (rows.getD r []).getD i 0) :
    (rows.modify r fun row => row.modify i f) = rows := by
  refine List.ext_getElem? fun j => ?_
  rw [List.getElem?_modify]
  by_cases hj : r = j
  · subst hj
    cases hrow : rows[r]? with
    | none => rfl
    | some row =>
      simp only [List.getD_eq_getElem?_getD, hrow, Option.getD_some] at h
      simp only [if_true]
      refine congrArg some (List.ext_getElem? fun k => ?_)
      rw [List.getElem?_modify]
      by_cases hk : i = k
      · subst hk
        cases hcell : row[i]? with
        | none => rfl
        | some v =>
          rw [hcell, Option.getD_some] at h
          simp [h]
      · simp [hk]
  · simp [hj]

theorem alone_bumpCell (r i : Nat) (c : CountMinSketch) :
    (do let v ← readCell r i
        if v ≠ maxCounter then writeCell r i (v + 1) : Steps CountMinSketch Unit).alone c =
      ({c with rows := c.rows.modify r fun row => row.modify i (AgingCounter.bump maxCounter)},
        ()) := by
  rw [Steps.alone_bind, readCell, Steps.alone_read]
  by_cases hmax : c.cell r i ≠ maxCounter
  · have hbump : AgingCounter.bump maxCounter (c.cell r i) = c.cell r i + 1 := if_pos hmax
    rw [if_pos hmax, writeCell, Steps.alone_modify, ← hbump]
    simp only [cell, modify_set_cell]
  · have hbump : AgingCounter.bump maxCounter (c.cell r i) = c.cell r i := if_neg hmax
    rw [if_neg hmax, modify_of_fixed hbump]
    rfl

theorem alone_halveCell (r i : Nat) (c : CountMinSketch) :
    (do let v ← readCell r i
        writeCell r i (v / 2) : Steps CountMinSketch Unit).alone c =
      ({c with rows := c.rows.modify r fun row => row.modify i (· / 2)}, ()) := by
  rw [Steps.alone_bind, readCell, Steps.alone_read, writeCell, Steps.alone_modify]
  simp only [cell]
  rw [modify_set_cell c.rows r i (· / 2)]

/-- Turns that only touch the rows. -/
theorem foldl_rows {α : Type} (turn : List (List Nat) → α → List (List Nat)) (items : List α)
    (c : CountMinSketch) :
    items.foldl (fun c a => {c with rows := turn c.rows a}) c =
      {c with rows := items.foldl turn c.rows} := by
  induction items generalizing c with
  | nil => rfl
  | cons a rest ih => rw [List.foldl_cons, ih, List.foldl_cons]

/-- Turns over at least all elements of a list. -/
theorem foldl_modify_all {α : Type} (f : Nat → α → α) {n : Nat} {l : List α} (h : l.length ≤ n) :
    (List.range n).foldl (fun l i => l.modify i (f i)) l = l.mapIdx f := by
  rw [foldl_modify_range]
  refine List.ext_getElem? fun i => ?_
  rw [List.getElem?_mapIdx, List.getElem?_mapIdx]
  cases hx : l[i]? with
  | none => rfl
  | some x =>
    have hi := (List.getElem?_eq_some_iff.mp hx).1
    simp [hi.trans_le h]

theorem foldl_modify_same {α ι : Type} (f : ι → α → α) (items : List ι) (r : Nat) (l : List α) :
    items.foldl (fun l a => l.modify r (f a)) l =
      l.modify r fun x => items.foldl (fun x a => f a x) x := by
  induction items generalizing l with
  | nil => exact (List.modify_id r l).symm
  | cons a rest ih => rw [List.foldl_cons, ih, List.modify_modify_eq]; rfl

/-- Halving the cells of a row one by one. -/
theorem alone_halveRow (width r : Nat) (c : CountMinSketch) :
    ((List.range width).forM fun i => do
      let v ← readCell r i
      writeCell r i (v / 2)).alone c =
      ({c with rows := c.rows.modify r fun row =>
        (List.range width).foldl (fun row i => row.modify i (· / 2)) row}, ()) := by
  rw [Steps.alone_forM (alone_halveCell r),
    foldl_rows fun rows i => rows.modify r fun row => row.modify i (· / 2), foldl_modify_same]

section

variable (hsame : SameParameters p c) (hshaped : Shaped c)
include hsame hshaped

theorem alone_ageSteps : (ageSteps p).alone c = (c.age, ()) := by
  have hrow : ∀ row ∈ c.rows, (List.range p.width.toNat).foldl
      (fun row i => row.modify i (· / 2)) row = row.map (· / 2) := by
    intro row hrow
    have hlen : row.length ≤ p.width.toNat := by rw [hshaped.row row hrow, hsame.width]
    rw [foldl_modify_all (fun _ => (· / 2)) hlen]
    exact List.ext_getElem? fun i => by simp
  have hrows : c.rows.length ≤ p.depth := by rw [hshaped.rows, hsame.depth]
  have hall : (c.rows.mapIdx fun _ row => (List.range p.width.toNat).foldl
      (fun row i => row.modify i (· / 2)) row) = c.rows.map (List.map (· / 2)) := by
    refine List.ext_getElem? fun r => ?_
    rw [List.getElem?_mapIdx, List.getElem?_map]
    cases hr : c.rows[r]? with
    | none => rfl
    | some row => exact congrArg some (hrow row (List.mem_of_getElem? hr))
  rw [ageSteps, Steps.alone_forM (fun r => alone_halveRow p.width.toNat r),
    foldl_rows fun rows r => rows.modify r fun row =>
      (List.range p.width.toNat).foldl (fun row i => row.modify i (· / 2)) row,
    foldl_modify_all (fun _ row =>
      (List.range p.width.toNat).foldl (fun row i => row.modify i (· / 2)) row) hrows, hall]
  rfl

/-- The counters of `Increment`, row by row. -/
theorem alone_bumpRows (h : UInt64) :
    ((List.range p.depth).forM fun r => do
      let v ← readCell r (p.index r h)
      if v ≠ maxCounter then writeCell r (p.index r h) (v + 1)).alone c =
      ({c with rows := c.bumpRows h}, ()) := by
  have hrows : c.rows.length ≤ p.depth := by rw [hshaped.rows, hsame.depth]
  rw [Steps.alone_forM (fun r => alone_bumpCell r (p.index r h)),
    foldl_rows fun rows r => rows.modify r fun row =>
      row.modify (p.index r h) (AgingCounter.bump maxCounter),
    foldl_modify_all (fun r row => row.modify (p.index r h) (AgingCounter.bump maxCounter)) hrows]
  simp only [bumpRows, ← hsame.index_eq]
  rfl

theorem alone_incrementSteps (h : UInt64) : (incrementSteps p h).alone c = (c.increment h, ()) := by
  rw [incrementSteps, Steps.alone_bind, alone_bumpRows hsame hshaped]
  simp only [Steps.alone_bind, readN, writeN, Steps.alone_read, Steps.alone_modify, increment]
  have hsame' : SameParameters p {c with rows := c.bumpRows h, n := (c.n + 1) % 2 ^ 64} :=
    ⟨hsame.depth, hsame.width, hsame.mask, hsame.salt, hsame.agingEvery⟩
  by_cases hevery : p.agingEvery ≠ 0
  · rw [if_pos hevery, Steps.alone_bind, Steps.alone_read]
    by_cases hn : (c.n + 1) % 2 ^ 64 % p.agingEvery.toNat = 0
    · rw [if_pos hn, alone_ageSteps hsame' (hshaped.bumpRows h _),
        if_pos (hsame.agingEvery ▸ ⟨hevery, hn⟩)]
    · rw [if_neg hn, if_neg (hsame.agingEvery ▸ fun both => hn both.2)]
      rfl
  · rw [if_neg hevery, if_neg (hsame.agingEvery ▸ fun both => hevery both.1)]
    rfl

end

end Alone

end Photon.Stdlib.CountMinSketch
