import Mathlib.Tactic

/-!
Windows of a list. Code that pages through a list collects a window piece by piece;
these lemmas say how a window falls apart at the end of a page.
-/

namespace Photon.Lib

variable {α : Type}

def window (l : List α) (start size : Nat) : List α := (l.drop start).take size

/-- A window that reaches over the end of a page. -/
theorem window_page {start size page : Nat} (hstart : start ≤ page) (hend : page ≤ start + size)
    (l : List α) :
    window l start size =
      (l.take page).drop start ++ window (l.drop page) 0 (start + size - page) := by
  have hsize : size = (page - start) + (start + size - page) := by omega
  have hpage : start + (page - start) = page := by omega
  unfold window
  rw [List.drop_zero, List.drop_take]
  conv_lhs => rw [hsize, List.take_add, List.drop_drop, hpage]

/-- A window that starts behind a page. -/
theorem window_skip {start page : Nat} (h : page ≤ start) (size : Nat) (l : List α) :
    window l start size = window (l.drop page) (start - page) size := by
  unfold window
  rw [List.drop_drop, Nat.add_sub_cancel' h]

/-- A window that reaches the end of the list. -/
theorem window_of_length_le {start size : Nat} {l : List α} (h : l.length ≤ start + size) :
    window l start size = l.drop start :=
  List.take_of_length_le (by rw [List.length_drop]; omega)

end Photon.Lib
