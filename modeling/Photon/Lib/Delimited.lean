import Mathlib.Tactic

/-!
Texts put together with separators, over any alphabet. A part that does not hold the
separator ends where the separator stands first, so parts that are joined, and pairs
with a mark behind the key and one behind the value, can be read back in one way only.
-/

namespace Photon.Lib

variable {α : Type} {sep : α}

/-- The first separator ends the first part. -/
theorem append_cons_inj {first second rest more : List α} (hfirst : sep ∉ first)
    (hsecond : sep ∉ second) (h : first ++ sep :: rest = second ++ sep :: more) :
    first = second ∧ rest = more := by
  induction first generalizing second with
  | nil =>
    cases second with
    | nil => exact ⟨rfl, (List.cons.inj h).2⟩
    | cons c second =>
      obtain ⟨rfl, -⟩ := List.cons.inj h
      exact absurd List.mem_cons_self hsecond
  | cons c first ih =>
    cases second with
    | nil =>
      obtain ⟨rfl, -⟩ := List.cons.inj h
      exact absurd List.mem_cons_self hfirst
    | cons d second =>
      obtain ⟨rfl, htail⟩ := List.cons.inj h
      obtain ⟨rfl, hrest⟩ := ih (List.not_mem_of_not_mem_cons hfirst)
        (List.not_mem_of_not_mem_cons hsecond) htail
      exact ⟨rfl, hrest⟩

/-- The last separator begins the last part. -/
theorem append_cons_inj_right {first second rest more : List α} (hrest : sep ∉ rest)
    (hmore : sep ∉ more) (h : first ++ sep :: rest = second ++ sep :: more) :
    first = second ∧ rest = more := by
  have hreverse := congrArg List.reverse h
  simp only [List.reverse_append, List.reverse_cons, List.append_assoc,
    List.singleton_append] at hreverse
  obtain ⟨hlast, hbegin⟩ := append_cons_inj (by simpa using hrest) (by simpa using hmore) hreverse
  exact ⟨List.reverse_injective hbegin, List.reverse_injective hlast⟩

/-- Parts that do not hold the first character of the separator are joined in one way. -/
theorem intercalate_inj {more : List α} {parts others : List (List α)} (hne : parts ≠ [])
    (hne' : others ≠ []) (hparts : ∀ part ∈ parts, sep ∉ part)
    (hothers : ∀ part ∈ others, sep ∉ part)
    (h : (sep :: more).intercalate parts = (sep :: more).intercalate others) : parts = others := by
  induction parts generalizing others with
  | nil => exact absurd rfl hne
  | cons part parts ih =>
    obtain ⟨other, others, rfl⟩ := List.exists_cons_of_ne_nil hne'
    obtain ⟨hpart, hparts⟩ := List.forall_mem_cons.mp hparts
    obtain ⟨hother, hmore⟩ := List.forall_mem_cons.mp hothers
    have holds : ∀ (first next : List α) (rest : List (List α)),
        sep ∈ (sep :: more).intercalate (first :: next :: rest) := by
      intro first next rest
      rw [List.intercalate_cons_cons]
      simp
    cases parts with
    | nil =>
      cases others with
      | nil =>
        rw [List.intercalate_singleton, List.intercalate_singleton] at h
        rw [h]
      | cons next others =>
        rw [List.intercalate_singleton] at h
        exact absurd (h ▸ holds other next others) hpart
    | cons after parts =>
      cases others with
      | nil =>
        rw [List.intercalate_singleton] at h
        exact absurd (h ▸ holds part after parts) hother
      | cons next others =>
        rw [List.intercalate_cons_cons, List.intercalate_cons_cons, List.append_assoc,
          List.append_assoc, List.cons_append, List.cons_append] at h
        obtain ⟨rfl, hrest⟩ := append_cons_inj hpart hother h
        have htail := ih (List.cons_ne_nil after parts) (List.cons_ne_nil next others) hparts
          hmore (List.append_cancel_left hrest)
        rw [htail]

/-- No part holds the separator that the text was split at. -/
theorem notMem_of_mem_splitOn [BEq α] [LawfulBEq α] {text part : List α}
    (hpart : part ∈ text.splitOn sep) : sep ∉ part := by
  induction text generalizing part with
  | nil =>
    rw [List.splitOn_nil, List.mem_singleton] at hpart
    simp [hpart]
  | cons c text ih =>
    obtain ⟨first, parts, hsplit⟩ := List.exists_cons_of_ne_nil (List.splitOn_ne_nil sep text)
    rw [List.splitOn_cons_eq_if_modifyHead, hsplit] at hpart
    rw [hsplit] at ih
    split_ifs at hpart with hc
    · rcases List.mem_cons.mp hpart with rfl | hpart
      · exact List.not_mem_nil
      · exact ih hpart
    · rcases List.mem_cons.mp hpart with rfl | hpart
      · rw [List.mem_cons, not_or]
        exact ⟨fun h => hc (beq_iff_eq.mpr h.symm), ih List.mem_cons_self⟩
      · exact ih (List.mem_cons_of_mem first hpart)

section Pairs

def pairText (mid last : α) (entry : List α × List α) : List α :=
  entry.1 ++ mid :: entry.2 ++ [last]

def pairsText (mid last : α) (entries : List (List α × List α)) : List α :=
  entries.flatMap (pairText mid last)

theorem pairsText_cons (mid last : α) (entry : List α × List α)
    (entries : List (List α × List α)) :
    pairsText mid last (entry :: entries) =
      entry.1 ++ mid :: (entry.2 ++ last :: pairsText mid last entries) := by
  simp [pairsText, pairText]

/-- A common lead, then no mark in the key and none in the value. -/
def MarkedPair (mid last : α) (lead : List α) (entry : List α × List α) : Prop :=
  ∃ name, entry.1 = lead ++ name ∧ mid ∉ name ∧ last ∉ entry.2

/-- Keys and values without their marks are read back. -/
theorem pairsText_inj {mid last : α} {lead : List α} {entries others : List (List α × List α)}
    (hentries : ∀ entry ∈ entries, MarkedPair mid last lead entry)
    (hothers : ∀ entry ∈ others, MarkedPair mid last lead entry)
    (h : pairsText mid last entries = pairsText mid last others) : entries = others := by
  induction entries generalizing others with
  | nil =>
    cases others with
    | nil => rfl
    | cons other others =>
      rw [pairsText_cons] at h
      exact absurd h.symm (by simp [pairsText])
  | cons entry entries ih =>
    obtain ⟨⟨name, hkey, hname, hvalue⟩, hentries⟩ := List.forall_mem_cons.mp hentries
    cases others with
    | nil =>
      rw [pairsText_cons] at h
      exact absurd h (by simp [pairsText])
    | cons other others =>
      obtain ⟨⟨name', hkey', hname', hvalue'⟩, hothers⟩ := List.forall_mem_cons.mp hothers
      rw [pairsText_cons, pairsText_cons, hkey, hkey', List.append_assoc, List.append_assoc] at h
      obtain ⟨rfl, hafter⟩ := append_cons_inj hname hname' (List.append_cancel_left h)
      obtain ⟨hvalues, htail⟩ := append_cons_inj hvalue hvalue' hafter
      rw [Prod.ext (hkey.trans hkey'.symm) hvalues, ih hentries hothers htail]

end Pairs

section Split

variable [DecidableEq α]

/-- A text cut at its first separators, into at most `n` parts. -/
def splitN (sep : α) : Nat → List α → List (List α)
  | 0, _ => []
  | 1, text => [text]
  | n + 2, text =>
    if sep ∈ text then
      text.takeWhile (· ≠ sep) :: splitN sep (n + 1) (text.dropWhile (· ≠ sep)).tail
    else [text]

theorem splitN_append {first : List α} (hfirst : sep ∉ first) (n : Nat) (rest : List α) :
    splitN sep (n + 2) (first ++ sep :: rest) = first :: splitN sep (n + 1) rest := by
  have hall : ∀ c ∈ first, decide (c ≠ sep) = true := by
    intro c hc
    exact decide_eq_true fun h => hfirst (h ▸ hc)
  have htake : (first ++ sep :: rest).takeWhile (· ≠ sep) = first := by
    rw [List.takeWhile_append_of_pos hall]
    simp
  have hdrop : (first ++ sep :: rest).dropWhile (· ≠ sep) = sep :: rest := by
    rw [List.dropWhile_append_of_pos hall]
    simp
  rw [splitN, if_pos (by simp), htake, hdrop, List.tail_cons]

end Split

end Photon.Lib
