import Photon.Lib.Text

/-!
`EncodeSpecialChars` and `DecodeSpecialChars` of `utils/encoding/html.go`: five global replacements
each. Encoding turns out to replace the characters one by one, because no step finds what an
earlier one wrote; decoding takes the entities back one kind at a time, the ampersand last.
-/

namespace Photon.Encoding

open Photon.Lib

/-- `strings.ReplaceAll` on bytes. -/
def replaceText (s : Bytes) (old new : String) : Bytes := replaceAll id (ascii old) (ascii new) s

def encodeSpecialChars (s : Bytes) : Bytes :=
  let s := replaceText s "&" "&amp;"
  let s := replaceText s "\"" "&quot;"
  let s := replaceText s "'" "&#39;"
  let s := replaceText s "<" "&lt;"
  replaceText s ">" "&gt;"

def decodeSpecialChars (s : Bytes) : Bytes :=
  let s := replaceText s "&quot;" "\""
  let s := replaceText s "&#39;" "'"
  let s := replaceText s "&lt;" "<"
  let s := replaceText s "&gt;" ">"
  replaceText s "&amp;" "&"

def entities : List (UInt8 × String) :=
  [(34, "&quot;"), (39, "&#39;"), (60, "&lt;"), (62, "&gt;"), (38, "&amp;")]

/-- The text of a character while the characters of `pending` stand as entities. -/
def written (pending : List (UInt8 × String)) (c : UInt8) : Bytes :=
  (pending.lookup c).elim [c] ascii

/-! ### Encoding -/

theorem replaceAll_single (c : UInt8) (new s : Bytes) :
    replaceAll id [c] new s = s.flatMap fun d => if d = c then new else [d] := by
  rw [replaceAll, if_neg (List.cons_ne_nil c [])]
  induction s with
  | nil => rfl
  | cons d rest ih =>
    rw [cutScan, List.flatMap_cons, ← ih, List.length_singleton]
    by_cases hd : d = c
    · simp [hd]
    · simp [hd, Ne.symm hd]

theorem encodeSpecialChars_eq (s : Bytes) :
    encodeSpecialChars s = s.flatMap (written entities) := by
  have hsingle : ascii "&" = [38] ∧ ascii "\"" = [34] ∧ ascii "'" = [39] ∧ ascii "<" = [60] ∧
      ascii ">" = [62] := by decide
  obtain ⟨hamp, hquot, hapos, hlt, hgt⟩ := hsingle
  simp only [encodeSpecialChars, replaceText, hamp, hquot, hapos, hlt, hgt, replaceAll_single,
    List.flatMap_assoc]
  congr 1
  funext c
  -- what a step writes holds none of the characters that the later steps look for
  by_cases hc : c = 38 ∨ c = 34 ∨ c = 39 ∨ c = 60 ∨ c = 62
  · rcases hc with rfl | rfl | rfl | rfl | rfl <;> decide
  · simp only [not_or] at hc
    simp [written, entities, List.lookup_cons, List.lookup_nil, beq_false_of_ne, hc]

/-! ### Decoding -/

/-- A pass finds the entity of `c`, but nothing in the entities still `pending` or in plain text. -/
structure Restores (c : UInt8) (entity char : String) (pending : List (UInt8 × String)) :
    Prop where
  fresh : pending.lookup c = none
  amp : pending.lookup 38 = none → c = 38
  start : ∃ tail, ascii entity = 38 :: tail
  own : ∀ rest, replaceText (ascii entity ++ rest) entity char = c :: replaceText rest entity char
  others : ∀ other ∈ pending, ∀ rest, replaceText (ascii other.2 ++ rest) entity char =
    ascii other.2 ++ replaceText rest entity char

theorem replaceText_written {c : UInt8} {entity char : String} {pending : List (UInt8 × String)}
    (s : Bytes) (h : Restores c entity char pending) :
    replaceText (s.flatMap (written ((c, entity) :: pending))) entity char =
      s.flatMap (written pending) := by
  obtain ⟨tail, htail⟩ := h.start
  induction s with
  | nil => simp [replaceText, replaceAll, htail, cutScan]
  | cons d rest ih =>
    rw [List.flatMap_cons, List.flatMap_cons, ← ih]
    by_cases hd : d = c
    · subst hd
      simp only [written, List.lookup_cons_self, Option.elim_some, h.fresh, Option.elim_none]
      exact h.own _
    · have hsame : written ((c, entity) :: pending) d = written pending d := by
        rw [written, List.lookup_cons, beq_false_of_ne hd]
        rfl
      rw [hsame]
      cases hlookup : pending.lookup d with
      | some other =>
        obtain ⟨front, back, rfl, -⟩ := List.lookup_eq_some_iff.mp hlookup
        simp only [written, hlookup, Option.elim_some]
        exact h.others (d, other) (by simp) _
      | none =>
        have hplain : 38 ≠ d := by
          rintro rfl
          exact hd (h.amp hlookup).symm
        simp [written, hlookup, replaceText, replaceAll, cutScan, htail, hplain]

theorem decodeSpecialChars_flatMap (s : Bytes) :
    decodeSpecialChars (s.flatMap (written entities)) = s := by
  unfold decodeSpecialChars entities
  dsimp only
  rw [replaceText_written s, replaceText_written s, replaceText_written s, replaceText_written s,
    replaceText_written s]
  · exact List.flatMap_singleton' s
  all_goals
    refine ⟨rfl, by decide, ⟨_, rfl⟩, fun _ => rfl, ?_⟩
    simp only [List.forall_mem_cons, List.not_mem_nil, false_imp_iff, implies_true, and_true]
  · exact fun _ => rfl
  · exact ⟨fun _ => rfl, fun _ => rfl⟩
  · exact ⟨fun _ => rfl, fun _ => rfl, fun _ => rfl⟩
  · exact ⟨fun _ => rfl, fun _ => rfl, fun _ => rfl, fun _ => rfl⟩

/-! ### Encoded text -/

theorem written_cases (c : UInt8) :
    (∃ entity ∈ entities, written entities c = ascii entity.2) ∨
      written entities c = [c] ∧ c ≠ 38 ∧ c ∉ ascii "<>\"'" := by
  cases hlookup : entities.lookup c with
  | some entity =>
    obtain ⟨front, back, hsplit, -⟩ := List.lookup_eq_some_iff.mp hlookup
    exact Or.inl ⟨(c, entity), by simp [hsplit], by rw [written, hlookup]; rfl⟩
  | none =>
    refine Or.inr ⟨by rw [written, hlookup]; rfl, ?_⟩
    have hother : c ≠ 38 ∧ c ≠ 34 ∧ c ≠ 39 ∧ c ≠ 60 ∧ c ≠ 62 := by
      refine ⟨?_, ?_, ?_, ?_, ?_⟩ <;>
        · rintro rfl
          cases hlookup
    have hspecial : ascii "<>\"'" = [60, 62, 34, 39] := by decide
    simp [hspecial, hother]

/-- An entity starts with the only special character it holds. -/
theorem written_amp {c : UInt8} {front back : Bytes}
    (h : written entities c = front ++ 38 :: back) :
    front = [] ∧ ∃ entity ∈ entities, written entities c = ascii entity.2 := by
  rcases written_cases c with ⟨entity, hentity, hwritten⟩ | ⟨hwritten, hplain, -⟩
  · have hshape : ∀ entity ∈ entities, 38 ∉ (ascii entity.2).tail := by decide
    cases front with
    | nil => exact ⟨rfl, entity, hentity, hwritten⟩
    | cons b front =>
      have htail := hshape entity hentity
      rw [← hwritten, h] at htail
      simp at htail
  · exact absurd (List.mem_singleton.mp (hwritten ▸ h ▸ by simp)) hplain.symm

/-- Encoding can be undone, and leaves no special character but the ampersands (38) of its
entities. -/
theorem html_encoding_reversible_and_safe (s : Bytes) :
    decodeSpecialChars (encodeSpecialChars s) = s ∧
      (∀ b ∈ encodeSpecialChars s, b ∉ ascii "<>\"'") ∧
      ∀ front back, encodeSpecialChars s = front ++ 38 :: back →
        ∃ entity ∈ entities, ascii entity.2 <+: 38 :: back := by
  rw [encodeSpecialChars_eq]
  refine ⟨decodeSpecialChars_flatMap s, ?_, ?_⟩
  · have hshape : ∀ entity ∈ entities, ∀ b ∈ ascii entity.2, b ∉ ascii "<>\"'" := by
      decide +kernel
    intro b hb
    obtain ⟨c, -, hc⟩ := List.mem_flatMap.mp hb
    rcases written_cases c with ⟨entity, hentity, hwritten⟩ | ⟨hwritten, -, hsafe⟩
    · exact hshape entity hentity b (hwritten ▸ hc)
    · obtain rfl := List.mem_singleton.mp (hwritten ▸ hc)
      exact hsafe
  · induction s with
    | nil => simp
    | cons c rest ih =>
      intro front back hsplit
      rw [List.flatMap_cons] at hsplit
      -- the ampersand stands behind the text of `c`, or in it
      rcases List.append_eq_append_iff.mp hsplit with ⟨later, -, hrest⟩ | ⟨inner, hinner, hback⟩
      · exact ih later back hrest
      · cases inner with
        | nil => exact ih [] back hback.symm
        | cons b inner =>
          obtain ⟨rfl, -⟩ := List.cons.inj hback
          obtain ⟨rfl, entity, hentity, hwritten⟩ := written_amp hinner
          rw [hback, ← List.nil_append (38 :: inner), ← hinner, hwritten]
          exact ⟨entity, hentity, List.prefix_append _ _⟩

end Photon.Encoding
