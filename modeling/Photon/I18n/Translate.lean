import Mathlib.Data.Finset.Card
import Photon.Lib.Text

/-!
Translation in `utils/i18n/i18n.go`. `T` looks up the text of a key and replaces the
placeholders one after another, in the order in which Go ranges over their map, so that a
placeholder is also found in what was inserted for an earlier one. The characters of a text
carry their position in the message, or none if they were inserted; nothing but the
statements reads it.
-/

namespace Photon.I18n

open Photon.Lib

abbrev Marked := List (Char × Option ℕ)

def marked (text : String) : Marked := text.toList.zipIdx.map fun c => (c.1, some c.2)

def inserted (text : String) : Marked := text.toList.map (·, none)

/-- The loop of `T`; `insertion` is the text of a placeholder, or none where reading it panics.
It returns with the text what was replaced for each placeholder. -/
def replaceLoop (insertion : String → Option String) :
    List String → Marked → Option (Marked × List (String × List Marked))
  | [], text => some (text, [])
  | pKey :: rest, text => (insertion pKey).bind fun new =>
    (replaceLoop insertion rest (replaceAll Prod.fst pKey.toList (inserted new) text)).map
      (Prod.map id ((pKey, occurrences Prod.fst pKey.toList text) :: ·))

/-- A placeholder's value: nil, a number, or anything else with its text by `fmt.Sprint`. -/
inductive Value (N : Type) where
  | nil
  | number (n : N)
  | other (text : String)

/-- The package's variables. A printer is the number formatting it does, and an entry of the
message store may be something else than a map of texts. -/
structure Translations (N : Type) where
  defaultLocale : String
  translators : String → Option (N → String)
  messageStore : String → Option (Option (String → Option String))

/-- The text of a placeholder in the places where the message has it. An empty placeholder
stands before every character and at the end. -/
def place (message : Marked) (pKey new : String) (text : Marked) : Marked :=
  if pKey = "" then replaceAll Prod.fst [] (inserted new) text
  else putAt (occurrences Prod.fst pKey.toList message) (inserted new) text

def placeAll (message : Marked) (insertion : String → String) (placed : List String) : Marked :=
  placed.foldr (fun pKey => place message pKey (insertion pKey)) message

/-- Whatever other placeholders have their text in their places, a placeholder is found where
the message has it and nowhere else. -/
def Apart (message : Marked) (insertion : String → String) (keys : Finset String) : Prop :=
  ∀ placed : List String, placed.Nodup → (∀ pKey ∈ placed, pKey ∈ keys) →
    ∀ pKey ∈ keys, pKey ∉ placed →
      occurrences Prod.fst pKey.toList (placeAll message insertion placed) =
        occurrences Prod.fst pKey.toList message

section Places

variable {message : Marked} (hmessage : ∀ c ∈ message, c.2 ≠ none)

theorem inserted_none {new : String} {c : Char × Option ℕ} (h : c ∈ inserted new) :
    c.2 = none := by
  obtain ⟨_, -, rfl⟩ := List.mem_map.mp h
  rfl

include hmessage in
/-- What is replaced in the message was not inserted. -/
theorem occurrences_own {pKey : String} {found : Marked}
    (hfound : found ∈ occurrences Prod.fst pKey.toList message) {c : Char × Option ℕ}
    (hc : c ∈ found) : c.2 ≠ none :=
  hmessage c (mem_of_occurrences hfound hc)

/-- Placing text keeps the characters of the message apart. -/
theorem place_nodup {pKey new : String} {text : Marked}
    (h : (text.filter fun c => c.2.isSome).Nodup) :
    ((place message pKey new text).filter fun c => c.2.isSome).Nodup := by
  have hnone : (inserted new).filter (fun c => c.2.isSome) = [] := by
    rw [List.filter_eq_nil_iff]
    intro c hc
    simp [inserted_none hc]
  have hsublist : ∀ f : Char × Option ℕ → Marked,
      (∀ c, ((f c).filter fun c => c.2.isSome).Sublist ([c].filter fun c => c.2.isSome)) →
      ((text.flatMap f).filter fun c => c.2.isSome).Nodup := by
    intro f hf
    refine h.sublist ?_
    clear h
    induction text with
    | nil => exact List.Sublist.refl _
    | cons c rest ih =>
      rw [List.flatMap_cons, List.filter_append, ← List.singleton_append, List.filter_append]
      exact (hf c).append ih
  unfold place
  split
  · rw [replaceAll, if_pos rfl, List.filter_append, hnone, List.nil_append]
    refine hsublist _ fun c => ?_
    rw [← List.singleton_append, List.filter_append, hnone, List.append_nil]
  · refine hsublist _ fun c => ?_
    split
    · rw [hnone]
      exact List.nil_sublist _
    · split
      · exact List.nil_sublist _
      · exact List.Sublist.refl _

theorem placeAll_nodup (h : (message.filter fun c => c.2.isSome).Nodup)
    (insertion : String → String) (placed : List String) :
    ((placeAll message insertion placed).filter fun c => c.2.isSome).Nodup := by
  induction placed with
  | nil => exact h
  | cons pKey rest ih => exact place_nodup ih

include hmessage in
/-- Where a placeholder is found just as in the message, replacing it is placing its text. -/
theorem replaceAll_eq_place {pKey new : String} {text : Marked}
    (hnodup : (text.filter fun c => c.2.isSome).Nodup)
    (h : occurrences Prod.fst pKey.toList text = occurrences Prod.fst pKey.toList message) :
    replaceAll Prod.fst pKey.toList (inserted new) text = place message pKey new text := by
  unfold place
  split
  · next hempty => rw [hempty]; rfl
  · next hempty =>
      have hold : pKey.toList ≠ [] := by simpa using hempty
      rw [replaceAll_eq_putAt hold (fun c => c.2.isSome) hnodup, h]
      intro found hfound c hc
      rw [h] at hfound
      exact Option.isSome_iff_ne_none.mpr (occurrences_own hmessage hfound hc)

variable {insertion : String → String} {keys : Finset String}

theorem Apart.one (h : Apart message insertion keys) {first second : String}
    (hfirst : first ∈ keys) (hsecond : second ∈ keys) (hne : second ≠ first) :
    occurrences Prod.fst second.toList (place message first (insertion first) message) =
      occurrences Prod.fst second.toList message :=
  h [first] (List.nodup_singleton first) (by simpa using hfirst) second hsecond (by simpa using hne)

/-- A character of the message is gone where another text was put. -/
theorem gone_of_putAt {found : List Marked} {new : String} {c : Char × Option ℕ}
    (hc : c.2 ≠ none) (hin : c ∈ found.flatten) : c ∉ putAt found (inserted new) message := by
  intro hmem
  obtain ⟨d, -, hd⟩ := List.mem_flatMap.mp hmem
  split at hd
  · exact hc (inserted_none hd)
  · split at hd
    · cases hd
    · next hout =>
        rw [List.mem_singleton.mp hd] at hin
        exact hout hin

include hmessage in
/-- Two placeholders can be placed in either order. -/
theorem Apart.comm (h : Apart message insertion keys) {first second : String}
    (hfirst : first ∈ keys) (hsecond : second ∈ keys) (text : Marked) :
    place message second (insertion second) (place message first (insertion first) text) =
      place message first (insertion first) (place message second (insertion second) text) := by
  rcases eq_or_ne second first with rfl | hne
  · rfl
  have hnone : ∀ {pKey}, pKey ∈ keys → "" ∈ keys → pKey ≠ "" → ∀ new text,
      place message pKey new text = text := by
    intro pKey hpKey hempty hsome new text
    have hsame := h.one hpKey hempty hsome.symm
    rw [place, if_neg hsome] at hsame
    rw [show "".toList = [] from rfl, occurrences_nil, occurrences_nil] at hsame
    have heq : putAt (occurrences Prod.fst pKey.toList message) (inserted (insertion pKey))
        message = message := List.map_injective_iff.mpr List.singleton_injective hsame
    have hgone : occurrences Prod.fst pKey.toList message = [] := by
      rw [List.eq_nil_iff_forall_not_mem]
      intro found hfound
      have hold : pKey.toList ≠ [] := by simpa using hsome
      obtain ⟨c, hc⟩ := List.exists_mem_of_ne_nil found
        (cutScan_ne_nil hold 0 ((mem_occurrences hold).mp hfound))
      have hin := mem_of_occurrences hfound hc
      rw [← heq] at hin
      exact gone_of_putAt (occurrences_own hmessage hfound hc)
        (List.mem_flatten.mpr ⟨found, hfound, hc⟩) hin
    rw [place, if_neg hsome, hgone, putAt]
    simp
  by_cases hsome : first = ""
  · subst hsome
    rw [hnone hsecond hfirst hne, hnone hsecond hfirst hne]
  by_cases hother : second = ""
  · subst hother
    rw [hnone hfirst hsecond hsome, hnone hfirst hsecond hsome]
  unfold place
  simp only [if_neg hsome, if_neg hother]
  have hown : ∀ {pKey : String} {c}, c ∈ (occurrences Prod.fst pKey.toList message).flatten →
      c.2 ≠ none := by
    intro pKey c hc
    obtain ⟨found, hfound, hc⟩ := List.mem_flatten.mp hc
    exact occurrences_own hmessage hfound hc
  refine putAt_comm (fun c hc hin => ?_) (fun c hc hin => hown hin (inserted_none hc))
    (fun c hc hin => hown hin (inserted_none hc)) text
  obtain ⟨found, hfound, hcin⟩ := List.mem_flatten.mp hin
  rw [← h.one hfirst hsecond hne, place, if_neg hsome] at hfound
  exact gone_of_putAt (hown hc) hc (mem_of_occurrences hfound hcin)

end Places

section Loop

variable {message : Marked} (hmessage : ∀ c ∈ message, c.2 ≠ none)
  (hnodup : (message.filter fun c => c.2.isSome).Nodup) {reading : String → Option String}
  {insertion : String → String}

include hmessage hnodup

/-- The loop replaces what the message has exactly when each placeholder is found there after
those before it, and it has then placed them all. -/
theorem replaceLoop_placed (placed : List String) {order : List String}
    (hreads : ∀ pKey ∈ order, reading pKey = some (insertion pKey))
    {out : Marked × List (String × List Marked)}
    (hout : replaceLoop reading order (placeAll message insertion placed) = some out) :
    ((∀ entry ∈ out.2, entry.2 = occurrences Prod.fst entry.1.toList message) ↔
      ∀ before pKey after, order = before ++ pKey :: after →
        occurrences Prod.fst pKey.toList
            (placeAll message insertion (before.reverse ++ placed)) =
          occurrences Prod.fst pKey.toList message) ∧
    ((∀ entry ∈ out.2, entry.2 = occurrences Prod.fst entry.1.toList message) →
      out.1 = placeAll message insertion (order.reverse ++ placed)) := by
  induction order generalizing placed out with
  | nil =>
    cases hout
    exact ⟨⟨fun _ before pKey after h => by simp at h, fun _ entry hentry => by cases hentry⟩,
      fun _ => rfl⟩
  | cons first rest ih =>
    obtain ⟨hfirst, hrest⟩ := List.forall_mem_cons.mp hreads
    rw [replaceLoop, hfirst, Option.bind_some] at hout
    obtain ⟨later, hlater, rfl⟩ := Option.map_eq_some_iff.mp hout
    simp only [Prod.map_snd, Prod.map_fst, id, List.forall_mem_cons]
    by_cases hfound : occurrences Prod.fst first.toList (placeAll message insertion placed) =
        occurrences Prod.fst first.toList message
    · rw [replaceAll_eq_place hmessage (placeAll_nodup hnodup insertion placed) hfound] at hlater
      obtain ⟨hsplits, htext⟩ := ih (first :: placed) hrest hlater
      refine ⟨⟨fun h before pKey after heq => ?_, fun h => ⟨hfound, hsplits.mpr ?_⟩⟩, fun h => ?_⟩
      · cases before with
        | nil =>
          obtain ⟨rfl, -⟩ := List.cons.inj heq
          exact hfound
        | cons b before =>
          obtain ⟨rfl, hrest⟩ := List.cons.inj heq
          rw [List.reverse_cons, List.append_assoc]
          exact hsplits.mp h.2 before pKey after hrest
      · intro before pKey after heq
        have hlonger := h (first :: before) pKey after (by rw [heq]; rfl)
        rwa [List.reverse_cons, List.append_assoc] at hlonger
      · rw [htext h.2, List.reverse_cons, List.append_assoc]
        rfl
    · exact ⟨⟨fun h => absurd h.1 hfound, fun h => absurd (h [] first rest rfl) hfound⟩,
        fun h => absurd h.1 hfound⟩

end Loop

theorem replaceLoop_eq_none_iff {insertion : String → Option String} {order : List String}
    (text : Marked) :
    replaceLoop insertion order text = none ↔ ∃ pKey ∈ order, insertion pKey = none := by
  induction order generalizing text with
  | nil => simp [replaceLoop]
  | cons pKey rest ih => cases hnew : insertion pKey <;> simp [replaceLoop, hnew, ih]

theorem marked_own (text : String) : ∀ c ∈ marked text, c.2 ≠ none := by
  intro c hc
  obtain ⟨_, -, rfl⟩ := List.mem_map.mp hc
  exact Option.some_ne_none _

theorem marked_nodup (text : String) : ((marked text).filter fun c => c.2.isSome).Nodup := by
  refine List.Nodup.filter _ (List.Nodup.of_map Prod.snd ?_)
  have hpositions : (marked text).map Prod.snd = (text.toList.zipIdx.map Prod.snd).map some := by
    rw [marked, List.map_map, List.map_map]
    rfl
  rw [hpositions, List.zipIdx_map_snd]
  exact (List.nodup_range' ..).map (Option.some_injective _)

namespace Translations

variable {N : Type} (sprint : N → String) (st : Translations N) (locale key : String)

def localeOf : String := if locale = "" then st.defaultLocale else locale

def message : Option String :=
  ((st.messageStore (st.localeOf locale)).bind id).bind fun messages => messages key

variable (values : String → Value N)

/-- `types.IsNumber` asks for the kind of the value's type, and nil has none. -/
def insertion (pKey : String) : Option String :=
  match values pKey with
  | .nil => none
  | .number n => some (((st.translators (st.localeOf locale)).getD sprint) n)
  | .other text => some text

/-- The text of a placeholder whose value is not nil. -/
def insertionText (pKey : String) : String :=
  (st.insertion sprint locale values pKey).getD ""

def replace (order : List String) (text : String) : Option (Marked × List (String × List Marked)) :=
  replaceLoop (st.insertion sprint locale values) order (marked text)

/-- `T` for the locale of the context and the order in which the map is visited; none where it
panics. -/
def T (order : List String) : Option String :=
  match st.message locale key with
  | none => some key
  | some text => (st.replace sprint locale values order text).map
      fun out => String.ofList (out.1.map Prod.fst)

/-- Every order of the placeholders gives one text, no character that was inserted is part of a
placeholder that is replaced, and each placeholder is replaced where the message has it. -/
structure OrderFree (keys : Finset String) (values : String → Value N) : Prop where
  same : ∃ text, ∀ order, order.Perm keys.toList → st.T sprint locale key values order = some text
  kept : ∀ text order, st.message locale key = some text → order.Perm keys.toList →
    ∀ out ∈ st.replace sprint locale values order text,
      ∀ entry ∈ out.2, ∀ found ∈ entry.2, ∀ c ∈ found, c.2 ≠ none
  alike : ∀ text order, st.message locale key = some text → order.Perm keys.toList →
    ∀ out ∈ st.replace sprint locale values order text,
      ∀ entry ∈ out.2, entry.2 = occurrences Prod.fst entry.1.toList (marked text)

variable {sprint st locale key} {keys : Finset String} {values : String → Value N} {text : String}

theorem insertion_eq_none_iff {pKey : String} :
    st.insertion sprint locale values pKey = none ↔ values pKey = .nil := by
  unfold insertion
  split <;> simp_all

/-- A loop over all placeholders returns, if no value is nil. -/
theorem replace_placed (hvalues : ∀ pKey ∈ keys, values pKey ≠ .nil) {order : List String}
    (hperm : order.Perm keys.toList) (text : String) :
    ∃ out, st.replace sprint locale values order text = some out ∧
      ((∀ entry ∈ out.2, entry.2 = occurrences Prod.fst entry.1.toList (marked text)) ↔
        ∀ before pKey after, order = before ++ pKey :: after →
          occurrences Prod.fst pKey.toList (placeAll (marked text)
              (st.insertionText sprint locale values) before.reverse) =
            occurrences Prod.fst pKey.toList (marked text)) ∧
      ((∀ entry ∈ out.2, entry.2 = occurrences Prod.fst entry.1.toList (marked text)) →
        out.1 = placeAll (marked text) (st.insertionText sprint locale values) order.reverse) := by
  have hreads : ∀ pKey ∈ order, st.insertion sprint locale values pKey =
      some (st.insertionText sprint locale values pKey) := by
    intro pKey hpKey
    have hvalue := hvalues pKey (Finset.mem_toList.mp (hperm.mem_iff.mp hpKey))
    obtain ⟨new, hnew⟩ := Option.ne_none_iff_exists'.mp (mt insertion_eq_none_iff.mp hvalue)
    rw [insertionText, hnew, Option.getD_some]
  cases hout : st.replace sprint locale values order text with
  | none =>
    obtain ⟨pKey, hpKey, hnone⟩ := (replaceLoop_eq_none_iff _).mp hout
    rw [hreads pKey hpKey] at hnone
    cases hnone
  | some out =>
    have hloop := replaceLoop_placed (marked_own text) (marked_nodup text) [] hreads hout
    simp only [List.append_nil] at hloop
    exact ⟨out, rfl, hloop⟩

/-- An order of the placeholders that begins with given ones. -/
theorem exists_order {begun : List String} (hnodup : begun.Nodup)
    (hbegun : ∀ pKey ∈ begun, pKey ∈ keys) : ∃ rest, (begun ++ rest).Perm keys.toList := by
  obtain ⟨found, hfound, hsublist⟩ := List.subperm_of_subset hnodup fun pKey hpKey =>
    Finset.mem_toList.mpr (hbegun pKey hpKey)
  obtain ⟨rest, hrest⟩ := hsublist.exists_perm_append
  exact ⟨rest, (hfound.symm.append_right rest).trans hrest.symm⟩

section

variable (hmessage : st.message locale key = some text)
include hmessage

theorem values_of_orderFree (h : st.OrderFree sprint locale key keys values) :
    ∀ pKey ∈ keys, values pKey ≠ .nil := by
  intro pKey hpKey hnil
  have hpanic : st.replace sprint locale values keys.toList text = none :=
    (replaceLoop_eq_none_iff _).mpr ⟨pKey, Finset.mem_toList.mpr hpKey,
      insertion_eq_none_iff.mpr hnil⟩
  obtain ⟨result, hsame⟩ := h.same
  have hresult := hsame keys.toList (List.Perm.refl _)
  simp [T, hmessage, hpanic] at hresult

theorem apart_of_orderFree (h : st.OrderFree sprint locale key keys values) :
    Apart (marked text) (st.insertionText sprint locale values) keys := by
  intro placed hnodup hplaced pKey hpKey hnew
  obtain ⟨rest, hperm⟩ := exists_order
    (List.nodup_reverse.mpr (List.nodup_cons.mpr ⟨hnew, hnodup⟩)) fun q hq => by
      rcases List.mem_cons.mp (List.mem_reverse.mp hq) with rfl | hq
      · exact hpKey
      · exact hplaced q hq
  obtain ⟨out, hout, hsplits, -⟩ := replace_placed (values_of_orderFree hmessage h) hperm text
  have hfound := hsplits.mp (h.alike text _ hmessage hperm out hout) placed.reverse pKey rest
    (by simp)
  rwa [List.reverse_reverse] at hfound

theorem orderFree_of_apart (hvalues : ∀ pKey ∈ keys, values pKey ≠ .nil)
    (h : Apart (marked text) (st.insertionText sprint locale values) keys) :
    st.OrderFree sprint locale key keys values := by
  have halike : ∀ order, order.Perm keys.toList →
      ∃ out, st.replace sprint locale values order text = some out ∧
        out.1 = placeAll (marked text) (st.insertionText sprint locale values) keys.toList ∧
        ∀ entry ∈ out.2, entry.2 = occurrences Prod.fst entry.1.toList (marked text) := by
    intro order hperm
    have hmem {pKey : String} : pKey ∈ order → pKey ∈ keys := fun hin =>
      Finset.mem_toList.mp (hperm.mem_iff.mp hin)
    obtain ⟨out, hout, hsplits, htext⟩ := replace_placed hvalues hperm text
    have hentries := hsplits.mpr fun before pKey after heq => by
      have hdistinct := List.nodup_append.mp (heq ▸ hperm.nodup_iff.mpr keys.nodup_toList)
      refine h before.reverse (List.nodup_reverse.mpr hdistinct.1) (fun q hq => ?_) pKey ?_ ?_
      · exact hmem (heq ▸ List.mem_append_left _ (List.mem_reverse.mp hq))
      · exact hmem (heq ▸ List.mem_append_right _ List.mem_cons_self)
      · intro hq
        exact hdistinct.2.2 _ (List.mem_reverse.mp hq) pKey List.mem_cons_self rfl
    refine ⟨out, hout, ?_, hentries⟩
    rw [htext hentries]
    refine ((List.reverse_perm order).trans hperm).foldr_eq' (fun first hfirst second hsecond =>
      ?_) _
    exact h.comm (marked_own text) (hmem (List.mem_reverse.mp hfirst))
      (hmem (List.mem_reverse.mp hsecond))
  refine ⟨⟨String.ofList ((placeAll (marked text) (st.insertionText sprint locale values)
      keys.toList).map Prod.fst), fun order hperm => ?_⟩,
    fun found order hfound hperm out hout entry hentry occurrence hin c hc => ?_,
    fun found order hfound hperm out hout => ?_⟩
  · obtain ⟨out, hout, htext, -⟩ := halike order hperm
    simp [T, hmessage, hout, htext]
  · cases hmessage.symm.trans hfound
    obtain ⟨_, hsome, -, hentries⟩ := halike order hperm
    cases hsome.symm.trans hout
    rw [hentries entry hentry] at hin
    exact occurrences_own (marked_own text) hin hc
  · cases hmessage.symm.trans hfound
    obtain ⟨_, hsome, -, hentries⟩ := halike order hperm
    cases hsome.symm.trans hout
    exact hentries

end

/-- `T` gives one text for every order, by the same replacements and none of them in what it
inserted, exactly when it finds no text, or no value is nil and every placeholder is found where
the message has it, whatever others have been replaced. -/
theorem translation_order_free_iff (sprint : N → String) (st : Translations N)
    (locale key : String) (keys : Finset String) (values : String → Value N) :
    st.OrderFree sprint locale key keys values ↔
      ∀ text, st.message locale key = some text →
        (∀ pKey ∈ keys, values pKey ≠ .nil) ∧
        Apart (marked text) (st.insertionText sprint locale values) keys := by
  constructor
  · intro h text hmessage
    exact ⟨values_of_orderFree hmessage h, apart_of_orderFree hmessage h⟩
  · intro h
    cases hmessage : st.message locale key with
    | none =>
      refine ⟨⟨key, fun order _ => by simp [T, hmessage]⟩, fun text order hfound => ?_,
        fun text order hfound => ?_⟩
      all_goals cases hmessage.symm.trans hfound
    | some text =>
      obtain ⟨hvalues, hapart⟩ := h text hmessage
      exact orderFree_of_apart hmessage hvalues hapart

def greetings : Translations Nat :=
  ⟨"en", fun _ => none, fun _ => some (some fun _ => some "Hello NAME")⟩

def nicknames : String → Value Nat
  | "NAME" => .other "CITY"
  | _ => .other "Paris"

/-- A name that is a placeholder too is replaced or not, as the map is visited. -/
theorem name_replaced_by_city :
    greetings.T toString "en" "hello" nicknames ["NAME", "CITY"] = some "Hello Paris" ∧
      greetings.T toString "en" "hello" nicknames ["CITY", "NAME"] = some "Hello CITY" := by
  decide

end Translations

end Photon.I18n
