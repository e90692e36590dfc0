import Mathlib.Tactic
import Photon.Lib.Delimited
import Photon.Lib.Text

/-!
Percent-encoding of bytes. A byte that is not kept becomes a percent sign and two hexadecimal
digits. Decoding undoes every encoding that does not keep the percent sign, and an encoding that
keeps a separator can be split at it before or after it is decoded.
-/

namespace Photon.Lib

def percentSign : UInt8 := 37

def upperHex (n : ℕ) : UInt8 := UInt8.ofNat (if n < 10 then 48 + n else 55 + n)

def unhex (b : UInt8) : Option ℕ :=
  let n := b.toNat
  if 48 ≤ n ∧ n ≤ 57 then some (n - 48)
  else if 65 ≤ n ∧ n ≤ 70 then some (n - 55)
  else if 97 ≤ n ∧ n ≤ 102 then some (n - 87)
  else none

def escapeByte (keep : UInt8 → Bool) (b : UInt8) : Bytes :=
  if keep b then [b] else [percentSign, upperHex (b.toNat / 16), upperHex (b.toNat % 16)]

def escape (keep : UInt8 → Bool) (s : Bytes) : Bytes := s.flatMap (escapeByte keep)

/-- The bytes that a text stands for, if every percent sign stands before two digits. -/
def unescape : Bytes → Option Bytes
  | [] => some []
  | b :: rest =>
    if b = percentSign then
      match rest with
      | high :: low :: rest =>
        match unhex high, unhex low, unescape rest with
        | some h, some l, some s => some (UInt8.ofNat (16 * h + l) :: s)
        | _, _, _ => none
      | _ => none
    else (unescape rest).map (b :: ·)

section Digits

theorem unhex_upperHex {n : ℕ} (h : n < 16) : unhex (upperHex n) = some n := by
  interval_cases n <;> decide

theorem unhex_upperHex_ne {n : ℕ} (h : n < 16) : unhex (upperHex n) ≠ none := by
  rw [unhex_upperHex h]
  exact Option.some_ne_none n

theorem toNat_div_lt (b : UInt8) : b.toNat / 16 < 16 :=
  Nat.div_lt_of_lt_mul b.toNat_lt

end Digits

section Coding

variable {keep : UInt8 → Bool}

@[simp]
theorem escape_nil : escape keep [] = [] := rfl

@[simp]
theorem escape_cons (b : UInt8) (s : Bytes) :
    escape keep (b :: s) = escapeByte keep b ++ escape keep s := rfl

@[simp]
theorem escape_append (s t : Bytes) : escape keep (s ++ t) = escape keep s ++ escape keep t :=
  List.flatMap_append

theorem escapeByte_of_keep {b : UInt8} (h : keep b = true) : escapeByte keep b = [b] := if_pos h

theorem escape_of_forall {s : Bytes} (h : ∀ b ∈ s, keep b = true) : escape keep s = s := by
  induction s with
  | nil => rfl
  | cons b s ih =>
    rw [escape_cons, escapeByte_of_keep (h b List.mem_cons_self),
      ih fun c hc => h c (List.mem_cons_of_mem b hc), List.singleton_append]

/-- What an encoding consists of. -/
theorem of_mem_escape {s : Bytes} {b : UInt8} (h : b ∈ escape keep s) :
    b ∈ s ∧ keep b = true ∨ b = percentSign ∨ unhex b ≠ none := by
  obtain ⟨a, ha, hb⟩ := List.mem_flatMap.mp h
  rw [escapeByte] at hb
  split_ifs at hb with hkeep
  · rw [List.mem_singleton] at hb
    subst hb
    exact Or.inl ⟨ha, hkeep⟩
  · simp only [List.mem_cons, List.not_mem_nil, or_false] at hb
    rcases hb with rfl | rfl | rfl
    · exact Or.inr (Or.inl rfl)
    · exact Or.inr (Or.inr (unhex_upperHex_ne (toNat_div_lt a)))
    · exact Or.inr (Or.inr (unhex_upperHex_ne (Nat.mod_lt _ (by decide))))

theorem unescape_cons_of_ne {b : UInt8} (h : b ≠ percentSign) (s : Bytes) :
    unescape (b :: s) = (unescape s).map (b :: ·) := by
  rw [unescape.eq_def]
  exact if_neg h

theorem unescape_escapeByte (hpercent : keep percentSign = false) (b : UInt8) (t : Bytes) :
    unescape (escapeByte keep b ++ t) = (unescape t).map (b :: ·) := by
  rw [escapeByte]
  split_ifs with hkeep
  · refine unescape_cons_of_ne ?_ t
    rintro rfl
    rw [hpercent] at hkeep
    cases hkeep
  · rw [List.cons_append, List.cons_append, List.singleton_append, unescape, if_pos rfl]
    rw [unhex_upperHex (toNat_div_lt b), unhex_upperHex (Nat.mod_lt _ (by decide))]
    cases unescape t with
    | none => rfl
    | some s =>
      dsimp only
      rw [Nat.div_add_mod, UInt8.ofNat_toNat]
      rfl

/-- Decoding undoes an encoding that stands before another text. -/
theorem unescape_escape_append (hpercent : keep percentSign = false) (s t : Bytes) :
    unescape (escape keep s ++ t) = (unescape t).map (s ++ ·) := by
  induction s with
  | nil => simp
  | cons b s ih =>
    rw [escape_cons, List.append_assoc, unescape_escapeByte hpercent, ih, Option.map_map]
    rfl

theorem unescape_escape (hpercent : keep percentSign = false) (s : Bytes) :
    unescape (escape keep s) = some s := by
  have h := unescape_escape_append hpercent s []
  rwa [List.append_nil, unescape, Option.map_some, List.append_nil] at h

/-- Only texts that are kept as they are stay the same. -/
theorem escape_eq_self_iff (s : Bytes) :
    escape keep s = s ↔ ∀ b ∈ s, keep b = true := by
  refine ⟨fun h => ?_, escape_of_forall⟩
  induction s with
  | nil => simp
  | cons b s ih =>
    rw [escape_cons, escapeByte] at h
    split_ifs at h with hkeep
    · rw [List.singleton_append, List.cons.injEq] at h
      exact List.forall_mem_cons.mpr ⟨hkeep, ih h.2⟩
    · -- a code in front moves every byte that is kept two places on
      have hb : percentSign = b := (List.cons.inj h).1
      have hlong : ∀ t : Bytes, t.length ≤ (escape keep t).length := by
        intro t
        induction t with
        | nil => simp
        | cons c t ih =>
          rw [escape_cons, List.length_append, List.length_cons, escapeByte]
          split_ifs <;> simp only [List.length_cons, List.length_nil] <;> omega
      have hlength := congrArg List.length h
      have hs := hlong s
      simp only [List.length_append, List.length_cons, List.length_nil] at hlength
      omega

end Coding

section Segments

variable {keep : UInt8 → Bool} {sep : UInt8}

structure Separates (sep : UInt8) : Prop where
  ne_percent : sep ≠ percentSign
  no_digit : unhex sep = none

theorem Separates.notMem_escape (h : Separates sep) {s : Bytes} (hs : sep ∉ s) :
    sep ∉ escape keep s := by
  intro hmem
  rcases of_mem_escape hmem with ⟨hin, -⟩ | hpercent | hhex
  · exact hs hin
  · exact h.ne_percent hpercent
  · exact hhex h.no_digit

theorem Separates.notMem_escape_of_not_keep (h : Separates sep) (hkeep : keep sep = false)
    (s : Bytes) : sep ∉ escape keep s := by
  intro hmem
  rcases of_mem_escape hmem with ⟨-, hkept⟩ | hpercent | hhex
  · rw [hkeep] at hkept
    cases hkept
  · exact h.ne_percent hpercent
  · exact hhex h.no_digit

theorem escape_intercalate (hkeep : keep sep = true) (parts : List Bytes) :
    escape keep ([sep].intercalate parts) = [sep].intercalate (parts.map (escape keep)) := by
  induction parts with
  | nil => rfl
  | cons part parts ih =>
    cases parts with
    | nil => simp
    | cons next parts =>
      rw [List.map_cons] at ih ⊢
      rw [List.map_cons, List.intercalate_cons_cons, List.intercalate_cons_cons,
        escape_append, escape_append, ih, escape_cons, escapeByte_of_keep hkeep]
      rfl

/-- Splitting an encoding at a separator that is kept. -/
theorem splitOn_escape (h : Separates sep) (hkeep : keep sep = true) (s : Bytes) :
    (escape keep s).splitOn sep = (s.splitOn sep).map (escape keep) := by
  have hjoin : [sep].intercalate (s.splitOn sep) = s := List.intercalate_splitOn sep
  have hfree : ∀ part ∈ (s.splitOn sep).map (escape keep), sep ∉ part := by
    intro part hpart
    obtain ⟨plain, hplain, rfl⟩ := List.mem_map.mp hpart
    exact h.notMem_escape (notMem_of_mem_splitOn hplain)
  have hne : (s.splitOn sep).map (escape keep) ≠ [] := by
    simp [List.splitOn_ne_nil]
  have hsplit := List.splitOn_intercalate sep hfree hne
  rwa [← escape_intercalate hkeep, hjoin] at hsplit

end Segments

end Photon.Lib
