import Mathlib.Data.List.DropRight
import Mathlib.Data.List.Nodup
import Mathlib.Data.List.Pairwise
import Mathlib.Logic.Function.Iterate

/-!
Texts as Go's `strings` package treats them. `TrimSpace` takes white space off both ends of a
text of runes or of bytes, and `ReplaceAll` replaces the occurrences that a scan from the left
finds. The scan reads the characters of a text through a function, so that they can carry marks
that say where they come from.
-/

namespace Photon.Lib

abbrev Bytes := List UInt8

/-- A Go string, as the list of its runes. A byte that is not part of a UTF-8 sequence
counts as the rune U+FFFD, as it does in a `range` loop. -/
abbrev Runes := List Char

def ascii (s : String) : Bytes := s.toList.map fun c => UInt8.ofNat c.toNat

/-- A text is shorter than what it is joined to by a separator. -/
theorem ne_append_separator {s x y separator : String} (hsep : separator ≠ "")
    (h : s = x ∨ s = y) : s ≠ x ++ separator ++ y := by
  intro heq
  have hlength := congrArg String.length heq
  have hpos : separator.length ≠ 0 := mt String.length_eq_zero_iff.mp hsep
  simp only [String.length_append] at hlength
  rcases h with rfl | rfl <;> omega

/-! ### White space -/

/-- The code points that `unicode.IsSpace` accepts. -/
def spaceCodes : List Nat :=
  [9, 10, 11, 12, 13, 0x20, 0x85, 0xA0, 0x1680, 0x2000, 0x2001, 0x2002, 0x2003, 0x2004, 0x2005,
    0x2006, 0x2007, 0x2008, 0x2009, 0x200A, 0x2028, 0x2029, 0x202F, 0x205F, 0x3000]

def isSpace (r : Char) : Bool := r.toNat ∈ spaceCodes

def Runes.trimSpace (s : Runes) : Runes := (s.dropWhile isSpace).rdropWhile isSpace

/-- White space in UTF-8. -/
def spaces : List Bytes := spaceCodes.map fun code => String.utf8EncodeChar (Char.ofNat code)

def dropSpace (s : Bytes) : Bytes :=
  match spaces.find? fun space => space.isPrefixOf s with
  | some space => s.drop space.length
  | none => s

def dropLastSpace (s : Bytes) : Bytes :=
  match spaces.find? fun space => space.isSuffixOf s with
  | some space => s.take (s.length - space.length)
  | none => s

def trimSpace (s : Bytes) : Bytes := dropLastSpace^[s.length] (dropSpace^[s.length] s)

/-! ### Replacement -/

section Replacement

variable {α β : Type} [DecidableEq β] (read : α → β)

/-- The scan of `strings.ReplaceAll` for a text `old` that is not empty: the characters that stay
and the occurrences. The rest of an occurrence is skipped. -/
def cutScan (old : List β) : Nat → List α → List (α ⊕ List α)
  | _, [] => []
  | skip + 1, _ :: rest => cutScan old skip rest
  | 0, c :: rest =>
    if old.isPrefixOf ((c :: rest).map read) then
      .inr ((c :: rest).take old.length) :: cutScan old (old.length - 1) rest
    else .inl c :: cutScan old 0 rest

/-- An empty `old` is found before every character and at the end. -/
def replaceAll (old : List β) (new text : List α) : List α :=
  if old = [] then new ++ text.flatMap (· :: new)
  else (cutScan read old 0 text).flatMap (Sum.elim (fun c => [c]) fun _ => new)

/-- What is replaced. The places of an empty `old` are known by the characters behind them. -/
def occurrences (old : List β) (text : List α) : List (List α) :=
  if old = [] then text.map ([·]) else (cutScan read old 0 text).filterMap Sum.getRight?

theorem occurrences_nil (text : List α) : occurrences read [] text = text.map ([·]) := if_pos rfl

/-- The pieces of a scan are the text behind what is skipped. -/
theorem cutScan_flatMap {old : List β} (hold : old ≠ []) (skip : Nat) (text : List α) :
    (cutScan read old skip text).flatMap (Sum.elim (fun c => [c]) id) = text.drop skip := by
  induction text generalizing skip with
  | nil => cases skip <;> rfl
  | cons c rest ih =>
    cases skip with
    | succ skip => exact ih skip
    | zero =>
      rw [cutScan]
      split
      · obtain ⟨n, hn⟩ := Nat.exists_eq_succ_of_ne_zero (mt List.length_eq_zero_iff.mp hold)
        rw [List.flatMap_cons, ih, hn]
        simp
      · rw [List.flatMap_cons, ih]
        rfl

variable {read} {old : List β} {text : List α}

theorem cutScan_ne_nil (hold : old ≠ []) (skip : Nat) {found : List α}
    (h : .inr found ∈ cutScan read old skip text) : found ≠ [] := by
  induction text generalizing skip with
  | nil => cases skip <;> cases h
  | cons c rest ih =>
    cases skip with
    | succ skip => exact ih skip h
    | zero =>
      rw [cutScan] at h
      split at h
      · rcases List.mem_cons.mp h with heq | hrest
        · cases heq
          obtain ⟨n, hn⟩ := Nat.exists_eq_succ_of_ne_zero (mt List.length_eq_zero_iff.mp hold)
          rw [hn]
          simp
        · exact ih _ hrest
      · exact ih 0 ((List.mem_cons.mp h).resolve_left (by simp))

theorem mem_occurrences (hold : old ≠ []) {found : List α} :
    found ∈ occurrences read old text ↔ .inr found ∈ cutScan read old 0 text := by
  rw [occurrences, if_neg hold, List.mem_filterMap]
  simp

theorem mem_of_occurrences {found : List α} (h : found ∈ occurrences read old text) {c : α}
    (hc : c ∈ found) : c ∈ text := by
  by_cases hold : old = []
  · rw [occurrences, if_pos hold] at h
    obtain ⟨d, hd, rfl⟩ := List.mem_map.mp h
    exact List.mem_singleton.mp hc ▸ hd
  · rw [mem_occurrences hold] at h
    rw [← text.drop_zero, ← cutScan_flatMap read hold 0 text]
    exact List.mem_flatMap.mpr ⟨.inr found, h, hc⟩

variable [DecidableEq α]

/-- New text in the places of given occurrences. -/
def putAt (found : List (List α)) (new text : List α) : List α :=
  text.flatMap fun c =>
    if c ∈ found.filterMap List.head? then new else if c ∈ found.flatten then [] else [c]

/-- Where the characters of the occurrences stand only once, replacing puts the new text in
their places. -/
theorem replaceAll_eq_putAt (hold : old ≠ []) (own : α → Bool) (hnodup : (text.filter own).Nodup)
    (hown : ∀ found ∈ occurrences read old text, ∀ c ∈ found, own c = true) (new : List α) :
    replaceAll read old new text = putAt (occurrences read old text) new text := by
  have hmem (found : List α) : found ∈ occurrences read old text ↔
      .inr found ∈ cutScan read old 0 text := mem_occurrences hold
  rw [replaceAll, if_neg hold, putAt]
  generalize occurrences read old text = all at hown hmem ⊢
  have htext : (cutScan read old 0 text).flatMap (Sum.elim (fun c => [c]) id) = text :=
    cutScan_flatMap read hold 0 text
  -- the pieces have no own character in common, and none twice
  have hpieces : ((cutScan read old 0 text).flatMap
      fun piece => (Sum.elim (fun c => [c]) id piece).filter own).Nodup := by
    rw [← List.filter_flatMap, htext]
    exact hnodup
  obtain ⟨honce, hapart⟩ := List.nodup_flatMap.mp hpieces
  have : Std.Symm (Function.onFun List.Disjoint
      fun piece : α ⊕ List α => (Sum.elim (fun c => [c]) id piece).filter own) :=
    ⟨fun _ _ h _ hleft hright => h hright hleft⟩
  conv_rhs => rw [← htext, List.flatMap_assoc]
  refine List.flatMap_congr fun piece hpiece => ?_
  have hsame : ∀ found ∈ all, ∀ c ∈ found, c ∈ Sum.elim (fun c => [c]) id piece →
      piece = .inr found := by
    intro found hin c hc hpiece'
    by_contra hne
    have hc' := hown found hin c hc
    exact hapart.forall hpiece ((hmem found).mp hin) hne (List.mem_filter.mpr ⟨hpiece', hc'⟩)
      (List.mem_filter.mpr ⟨hc, hc'⟩)
  cases piece with
  | inl c =>
    have hnone : ∀ found ∈ all, c ∉ found := fun found hin hc => by
      cases hsame found hin c hc (List.mem_singleton_self c)
    have hhead : c ∉ all.filterMap List.head? := by
      intro hfirst
      obtain ⟨found, hin, hfirst⟩ := List.mem_filterMap.mp hfirst
      exact hnone found hin (List.mem_of_mem_head? hfirst)
    have hflat : c ∉ all.flatten := by
      intro hin
      obtain ⟨found, hin, hc⟩ := List.mem_flatten.mp hin
      exact hnone found hin hc
    rw [Sum.elim_inl, Sum.elim_inl, List.flatMap_singleton, if_neg hhead, if_neg hflat]
  | inr found =>
    have hin := (hmem found).mpr hpiece
    obtain ⟨first, rest, rfl⟩ := List.exists_cons_of_ne_nil (cutScan_ne_nil hold 0 hpiece)
    have hhead : first ∈ all.filterMap List.head? := List.mem_filterMap.mpr ⟨_, hin, rfl⟩
    have htwice := honce _ hpiece
    rw [Sum.elim_inr, id, List.filter_eq_self.mpr (hown _ hin)] at htwice
    have hgone : rest.flatMap (fun c => if c ∈ all.filterMap List.head? then new
        else if c ∈ all.flatten then [] else [c]) = [] := by
      rw [List.flatMap_eq_nil_iff]
      intro c hc
      have hcin := List.mem_cons_of_mem first hc
      rw [if_neg, if_pos (List.mem_flatten.mpr ⟨_, hin, hcin⟩)]
      intro hfirst
      obtain ⟨other, hother, hfirst⟩ := List.mem_filterMap.mp hfirst
      cases hsame other hother c (List.mem_of_mem_head? hfirst) hcin
      cases hfirst
      exact (List.nodup_cons.mp htwice).1 hc
    rw [Sum.elim_inr, Sum.elim_inr, id, List.flatMap_cons, if_pos hhead, hgone, List.append_nil]

/-- Text put in places that have nothing in common can be put there in any order. -/
theorem putAt_comm {found other : List (List α)} {new newer : List α}
    (hapart : ∀ c ∈ found.flatten, c ∉ other.flatten) (hnew : ∀ c ∈ new, c ∉ other.flatten)
    (hnewer : ∀ c ∈ newer, c ∉ found.flatten) (text : List α) :
    putAt other newer (putAt found new text) = putAt found new (putAt other newer text) := by
  have hhead : ∀ {all : List (List α)} {c : α}, c ∈ all.filterMap List.head? → c ∈ all.flatten := by
    intro all c hfirst
    obtain ⟨first, hin, hfirst⟩ := List.mem_filterMap.mp hfirst
    exact List.mem_flatten.mpr ⟨first, hin, List.mem_of_mem_head? hfirst⟩
  have hkeep : ∀ {all : List (List α)} {put old : List α}, (∀ c ∈ put, c ∉ all.flatten) →
      putAt all old put = put := by
    intro all put old hput
    rw [putAt]
    conv_rhs => rw [← List.flatMap_singleton' put]
    refine List.flatMap_congr fun c hc => ?_
    rw [if_neg (mt hhead (hput c hc)), if_neg (hput c hc)]
  unfold putAt at hkeep ⊢
  rw [List.flatMap_assoc, List.flatMap_assoc]
  refine List.flatMap_congr fun c _ => ?_
  by_cases hin : c ∈ found.flatten
  · have hout := hapart c hin
    rw [if_neg (mt hhead hout), if_neg hout, List.flatMap_singleton]
    split
    · exact hkeep hnew
    · rfl
  · rw [if_neg (mt hhead hin), if_neg hin, List.flatMap_singleton]
    split
    · exact (hkeep hnewer).symm
    · split
      · rfl
      · rw [List.flatMap_singleton, if_neg (mt hhead hin), if_neg hin]

end Replacement

end Photon.Lib
