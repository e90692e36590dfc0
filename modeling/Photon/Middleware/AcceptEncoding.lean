import Mathlib
import Photon.Middleware.Compressor

/-!
Which `Accept-Encoding` headers the compressor honours. The grammar of the header is that of
HTTP: codings with optional weights between commas. The compressor looks for the names of its
encoders anywhere in the elements, so a name that an element holds as a part, or refuses with
`q=0`, is taken for an accepted one unless a name before it in the precedence is listed.
-/

namespace Photon.Middleware

/-! ### The grammar -/

def isBlank (r : Char) : Bool := r == ' ' || r == '\t'

def isTokenChar (r : Char) : Bool := r.isAlphanum || "!#$%&'*+-.^_`|~".toList.contains r

/-- Zero or one, with up to three decimals; those of one are zeros. -/
structure QValue where
  one : Bool
  decimals : Option Text
  digits : ∀ ds ∈ decimals, ds.length ≤ 3 ∧ ∀ d ∈ ds, d.isDigit = true ∧ (one = true → d = '0')

def QValue.text (q : QValue) : Text :=
  (if q.one then '1' else '0') :: q.decimals.elim [] ('.' :: ·)

def QValue.Positive (q : QValue) : Prop := q.one = true ∨ ∃ ds ∈ q.decimals, ∃ d ∈ ds, d ≠ '0'

structure Weight where
  before : Text
  after : Text
  blank : ∀ r ∈ before ++ after, isBlank r = true
  upper : Bool
  value : QValue

def Weight.text (weight : Weight) : Text :=
  weight.before ++ ';' :: weight.after ++ (if weight.upper then 'Q' else 'q') :: '=' ::
    weight.value.text

structure Coding where
  name : Text
  token : name ≠ [] ∧ ∀ r ∈ name, isTokenChar r = true
  weight : Option Weight

def Coding.text (coding : Coding) : Text := coding.name ++ coding.weight.elim [] Weight.text

def Coding.Accepted (coding : Coding) : Prop := ∀ weight ∈ coding.weight, weight.value.Positive

structure Element where
  before : Text
  after : Text
  blank : ∀ r ∈ before ++ after, isBlank r = true
  coding : Option Coding

def Element.text (element : Element) : Text :=
  element.before ++ element.coding.elim [] Coding.text ++ element.after

abbrev AcceptEncoding := List Element

def AcceptEncoding.text (header : AcceptEncoding) : Text :=
  [','].intercalate (header.map Element.text)

/-- The header lists the name as one of its codings, with a weight above zero. -/
def AcceptEncoding.Listed (table : Char → Char) (header : AcceptEncoding) (name : Text) : Prop :=
  ∃ element ∈ header, ∃ coding ∈ element.coding,
    toLower table coding.name = name ∧ coding.Accepted

def AcceptEncoding.Holds (table : Char → Char) (header : AcceptEncoding) (name : Text) : Prop :=
  ∃ element ∈ header, name <:+: toLower table element.text

/-! ### Elements between commas -/

def isInner (r : Char) : Bool := r.toNat < 128 && r != ','

variable {r : Char} (table : Char → Char)

theorem isInner_of_ne (hascii : r.toNat < 128) (hcomma : r ≠ ',') : isInner r = true := by
  simp [isInner, hascii, hcomma]

theorem isInner_of_isBlank (h : isBlank r = true) : isInner r = true := by
  simp only [isBlank, Bool.or_eq_true, beq_iff_eq] at h
  rcases h with rfl | rfl <;> decide

theorem ascii_of_isAlphanum (h : r.isAlphanum = true) : r.toNat < 128 := by
  simp [Char.isAlphanum, Char.isAlpha, Char.isUpper, Char.isLower, Char.isDigit,
    UInt32.le_iff_toNat_le] at h
  omega

theorem isInner_of_isTokenChar (h : isTokenChar r = true) : isInner r = true := by
  have hmarks : "!#$%&'*+-.^_`|~".toList.all (fun r => decide (r.toNat < 128)) = true := by decide
  refine isInner_of_ne ?_ ?_
  · rcases (Bool.or_eq_true _ _).mp h with halpha | hmark
    · exact ascii_of_isAlphanum halpha
    · exact of_decide_eq_true (List.all_eq_true.mp hmarks r (List.contains_iff_mem.mp hmark))
  · rintro rfl
    exact absurd h (by decide)

theorem toLower_ne_comma (h : r ≠ ',') : r.toLower ≠ ',' := by
  rw [Char.toLower]
  split_ifs with hupper
  · intro heq
    have hval := congrArg (fun c : Char => c.val.toNat) heq
    simp [UInt32.le_iff_toNat_le] at hupper
    simp at hval
    omega
  · exact h

theorem runeToLower_ne_comma (h : isInner r = true) : runeToLower table r ≠ ',' := by
  simp only [isInner, Bool.and_eq_true, decide_eq_true_eq, bne_iff_ne] at h
  rw [runeToLower, if_pos h.1]
  exact toLower_ne_comma h.2

theorem QValue.isInner_of_mem {q : QValue} (h : r ∈ q.text) : isInner r = true := by
  rcases List.mem_cons.mp h with rfl | hdecimals
  · split_ifs <;> decide
  · cases hq : q.decimals with
    | none => simp [hq] at hdecimals
    | some ds =>
      simp only [hq, Option.elim_some, List.mem_cons] at hdecimals
      rcases hdecimals with rfl | hr
      · decide
      · refine isInner_of_isTokenChar ?_
        rw [isTokenChar, Char.isAlphanum, ((q.digits ds hq).2 r hr).1, Bool.or_true, Bool.true_or]

theorem Weight.isInner_of_mem {weight : Weight} (h : r ∈ weight.text) : isInner r = true := by
  simp only [Weight.text, List.append_assoc, List.cons_append, List.mem_append,
    List.mem_cons] at h
  rcases h with hbefore | rfl | hafter | rfl | rfl | hvalue
  · exact isInner_of_isBlank (weight.blank r (List.mem_append_left _ hbefore))
  · decide
  · exact isInner_of_isBlank (weight.blank r (List.mem_append_right _ hafter))
  · split_ifs <;> decide
  · decide
  · exact QValue.isInner_of_mem hvalue

theorem Coding.isInner_of_mem {coding : Coding} (h : r ∈ coding.text) : isInner r = true := by
  rcases List.mem_append.mp h with hname | hweight
  · exact isInner_of_isTokenChar (coding.token.2 r hname)
  · cases hw : coding.weight with
    | none => simp [hw] at hweight
    | some weight =>
      rw [hw] at hweight
      exact Weight.isInner_of_mem hweight

theorem Element.isInner_of_mem {element : Element} (h : r ∈ element.text) : isInner r = true := by
  rw [Element.text, List.append_assoc, List.mem_append, List.mem_append] at h
  rcases h with hbefore | hcoding | hafter
  · exact isInner_of_isBlank (element.blank r (List.mem_append_left _ hbefore))
  · cases hc : element.coding with
    | none => simp [hc] at hcoding
    | some coding =>
      rw [hc] at hcoding
      exact Coding.isInner_of_mem hcoding
  · exact isInner_of_isBlank (element.blank r (List.mem_append_right _ hafter))

theorem toLower_append (s t : Text) :
    toLower table (s ++ t) = toLower table s ++ toLower table t := List.map_append

theorem toLower_intercalate (parts : List Text) :
    toLower table ([','].intercalate parts) = [','].intercalate (parts.map (toLower table)) := by
  induction parts with
  | nil => rfl
  | cons part parts ih =>
    cases parts with
    | nil => simp
    | cons next parts =>
      have hcomma : toLower table [','] = [','] := rfl
      rw [List.intercalate_cons_cons, toLower_append, toLower_append, ih, hcomma]
      simp

namespace AcceptEncoding

variable (table : Char → Char)

theorem acceptedNames_text {header : AcceptEncoding} (hne : header ≠ []) :
    acceptedNames table header.text = header.map fun element => toLower table element.text := by
  rw [acceptedNames, text, toLower_intercalate, List.map_map]
  refine List.splitOn_intercalate ',' ?_ (by simpa using hne)
  intro part hpart hcomma
  obtain ⟨element, -, rfl⟩ := List.mem_map.mp hpart
  obtain ⟨r, hr, hlower⟩ := List.mem_map.mp hcomma
  exact runeToLower_ne_comma table (Element.isInner_of_mem hr) hlower

theorem matchAcceptEncoding_iff (header : AcceptEncoding) {name : Text} (hname : name ≠ []) :
    matchAcceptEncoding (acceptedNames table header.text) name = true ↔
      header.Holds table name := by
  rcases eq_or_ne header [] with rfl | hne
  · have hnames : acceptedNames table (text []) = [[]] := rfl
    simp [hnames, matchAcceptEncoding, Holds, hname]
  · rw [acceptedNames_text table hne]
    simp [matchAcceptEncoding, Holds]

/-- A listed name is held by the element that lists it. -/
theorem Listed.holds {header : AcceptEncoding} {name : Text} (h : header.Listed table name) :
    header.Holds table name := by
  obtain ⟨element, helement, coding, hcoding, rfl, -⟩ := h
  refine ⟨element, helement, ?_⟩
  refine ⟨toLower table element.before,
    toLower table (coding.weight.elim [] Weight.text ++ element.after), ?_⟩
  rw [Element.text, Option.mem_def.mp hcoding, Option.elim_some, Coding.text]
  simp [toLower_append]

end AcceptEncoding

/-! ### The choice -/

/-- The first element that satisfies `p` has the property just if every element that satisfies
`p` without having it comes after one that has both. -/
theorem find?_forall_iff {α : Type} {p : α → Bool} {P : α → Prop} {l : List α} :
    (∀ a, l.find? p = some a → P a) ↔
      ∀ before a after, l = before ++ a :: after → p a = true → ¬ P a →
        ∃ b ∈ before, p b = true ∧ P b := by
  constructor
  · rintro h before a after rfl hp hP
    cases hfind : before.find? p with
    | none =>
      refine absurd (h a ?_) hP
      rw [List.find?_append, hfind, Option.none_or, List.find?_cons_of_pos hp]
    | some b =>
      refine ⟨b, List.mem_of_find?_eq_some hfind, List.find?_some hfind, h b ?_⟩
      rw [List.find?_append, hfind, Option.some_or]
  · intro h a hfind
    obtain ⟨hp, before, after, hl, hbefore⟩ := List.find?_eq_some_iff_append.mp hfind
    by_contra hP
    obtain ⟨b, hb, hpb, -⟩ := h before a after hl hp hP
    have hnot := hbefore b hb
    rw [hpb] at hnot
    exact Bool.false_ne_true hnot

/-- The function registered for the name gives an encoder that can be reset, or no encoder for
the pool. -/
def Compressor.Usable (c : Compressor) (name : Text) : Prop :=
  ∃ fn, c.registered name = some fn ∧ ∀ encoder ∈ fn .discard c.level, encoder.resets = true

theorem EncoderFunc.take_eq_ok_iff {fn : EncoderFunc} {level : Int} :
    (∃ encoder, fn.take level = .ok encoder) ↔
      ∀ encoder ∈ fn .discard level, encoder.resets = true := by
  cases hfn : fn .discard level with
  | none => simp [EncoderFunc.take, hfn]
  | some encoder =>
    simp only [EncoderFunc.take, hfn, Option.mem_some_iff, forall_eq']
    split_ifs with hresets <;> simp [hresets]

/-- A name is returned if it is the first that matches and its encoder can be had. -/
theorem Compressor.WellFormed.selectEncoder_iff {c : Compressor} (h : c.WellFormed)
    (table : Char → Char) (header : Text) {name : Text} (hname : name ≠ []) :
    (∃ encoder, c.selectEncoder table header = .ok (encoder, name)) ↔
      c.encodingPrecedence.find? (matchAcceptEncoding (acceptedNames table header)) = some name ∧
        c.Usable name := by
  rw [Compressor.selectEncoder, h.selectLoop_eq _ h.listed]
  cases hfind : c.encodingPrecedence.find? (matchAcceptEncoding (acceptedNames table header)) with
  | none => simp [hname.symm]
  | some first =>
    obtain ⟨fn, hfn⟩ := h.listed first (List.mem_of_find?_eq_some hfind)
    simp only [hfn]
    constructor
    · rintro ⟨encoder, hselect⟩
      cases htake : fn.take c.level with
      | error e => simp [htake, Except.map] at hselect
      | ok taken =>
        simp only [htake, Except.map, Except.ok.injEq, Prod.mk.injEq] at hselect
        obtain ⟨-, rfl⟩ := hselect
        exact ⟨rfl, fn, hfn, EncoderFunc.take_eq_ok_iff.mp ⟨taken, htake⟩⟩
    · rintro ⟨hfirst, other, hother, husable⟩
      cases hfirst
      cases hfn.symm.trans hother
      obtain ⟨taken, htake⟩ := EncoderFunc.take_eq_ok_iff.mpr husable
      exact ⟨taken, by rw [htake]; rfl⟩

theorem Compressor.WellFormed.returns_forall_iff {c : Compressor} (h : c.WellFormed)
    (table : Char → Char) (header : Text) (P : Text → Prop) :
    (∀ encoder name, c.selectEncoder table header = .ok (encoder, name) → name ≠ [] → P name) ↔
      ∀ name, c.encodingPrecedence.find? (matchAcceptEncoding (acceptedNames table header)) =
        some name → c.Usable name → P name := by
  constructor
  · intro hreturns name hfind husable
    have hne := h.named name (List.mem_of_find?_eq_some hfind)
    obtain ⟨encoder, hselect⟩ := (h.selectEncoder_iff table header hne).mpr ⟨hfind, husable⟩
    exact hreturns encoder name hselect hne
  · intro hfound encoder name hselect hne
    obtain ⟨hfind, husable⟩ := (h.selectEncoder_iff table header hne).mp ⟨encoder, hselect⟩
    exact hfound name hfind husable

/-- Every registered name that the header holds without listing it comes after one that is
listed, or after one whose encoder is asked for in vain. -/
def Compressor.Shields (table : Char → Char) (c : Compressor) (header : AcceptEncoding) : Prop :=
  ∀ before name after, c.encodingPrecedence = before ++ name :: after → c.Usable name →
    header.Holds table name → ¬ header.Listed table name →
      ∃ other ∈ before, header.Listed table other ∨ header.Holds table other ∧ ¬ c.Usable other

theorem Compressor.WellFormed.honours_iff {c : Compressor} (h : c.WellFormed)
    (table : Char → Char) (header : AcceptEncoding) :
    (∀ encoder name, c.selectEncoder table header.text = .ok (encoder, name) → name ≠ [] →
        header.Listed table name) ↔ c.Shields table header := by
  have hmatch : ∀ name ∈ c.encodingPrecedence,
      (matchAcceptEncoding (acceptedNames table header.text) name = true ↔
        header.Holds table name) := fun name hname =>
    AcceptEncoding.matchAcceptEncoding_iff table header (h.named name hname)
  rw [h.returns_forall_iff, find?_forall_iff, Shields]
  refine forall₄_congr fun before name after hsplit => ?_
  have hname : name ∈ c.encodingPrecedence := by
    rw [hsplit]
    exact List.mem_append_right _ List.mem_cons_self
  have hother : ∀ other ∈ before,
      (matchAcceptEncoding (acceptedNames table header.text) other = true ∧
          (c.Usable other → header.Listed table other) ↔
        header.Listed table other ∨ header.Holds table other ∧ ¬ c.Usable other) := by
    intro other hbefore
    have hmem : other ∈ c.encodingPrecedence := by
      rw [hsplit]
      exact List.mem_append_left _ hbefore
    have hholds : header.Listed table other → header.Holds table other :=
      AcceptEncoding.Listed.holds table
    rw [hmatch other hmem]
    tauto
  have hexists : (∃ other ∈ before,
      matchAcceptEncoding (acceptedNames table header.text) other = true ∧
        (c.Usable other → header.Listed table other)) ↔
      ∃ other ∈ before,
        header.Listed table other ∨ header.Holds table other ∧ ¬ c.Usable other :=
    exists_congr fun other => and_congr_right (hother other)
  rw [hmatch name hname, hexists, Classical.not_imp]
  constructor
  · intro hall husable hholds hnot
    exact hall hholds ⟨husable, hnot⟩
  · rintro hall hholds ⟨husable, hnot⟩
    exact hall husable hholds hnot

/-- The returned encodings are listed just if no name is misread before a listed one. -/
theorem selectEncoder_listed_iff {table : Char → Char} {codecs : Codecs} {level : Int}
    {types : List Text} {base : Compressor}
    (hbase : newCompressor table codecs level types = .ok base)
    (calls : List (Text × Option EncoderFunc)) (header : AcceptEncoding) :
    (∀ encoder name,
        (base.setEncoders table calls).selectEncoder table header.text = .ok (encoder, name) →
        name ≠ [] → header.Listed table name) ↔
      (base.setEncoders table calls).Shields table header := by
  have hformed := (Compressor.wellFormed_newCompressor hbase).1.setEncoders table calls
  exact hformed.1.honours_iff table header

/-- A block for each write, with its length before it, and an empty block at the end. -/
def Codecs.stored : Codecs where
  gzip _ := ⟨true, fun _ p => [31 :: p.length.toUInt8 :: p], fun _ => [[31, 0]]⟩
  flate _ := ⟨true, fun _ p => [p.length.toUInt8 :: p], fun _ => [[0]]⟩
  gzip_resets _ := rfl
  flate_resets _ := rfl

theorem gzip_isToken :
    "gzip".toList ≠ [] ∧ ∀ r ∈ "gzip".toList, isTokenChar r = true := by
  exact ⟨List.cons_ne_nil _ _, List.all_eq_true.mp (by decide)⟩

theorem no_blanks : ∀ r ∈ ([] ++ [] : Text), isBlank r = true := by
  intro r hr
  cases hr

def qZero : QValue := ⟨false, none, fun _ h => by cases h⟩

def acceptsGzip : AcceptEncoding := [⟨[], [], no_blanks, some ⟨"gzip".toList, gzip_isToken, none⟩⟩]

def refusesGzip : AcceptEncoding :=
  [⟨[], [], no_blanks,
    some ⟨"gzip".toList, gzip_isToken, some ⟨[], [], no_blanks, false, qZero⟩⟩⟩]

theorem gzip_header_honoured :
    ∃ base, newCompressor id .stored 5 [] = .ok base ∧
      ∀ encoder name,
        (base.setEncoders id []).selectEncoder id acceptsGzip.text = .ok (encoder, name) →
        name ≠ [] → acceptsGzip.Listed id name := by
  have hbase : newCompressor id .stored 5 [] = .ok _ := rfl
  refine ⟨_, hbase, (selectEncoder_listed_iff hbase [] acceptsGzip).mpr ?_⟩
  intro before name after hsplit _ hholds hnot
  have hname : name ∈ ["gzip".toList, "deflate".toList] := by
    have hmem : name ∈ before ++ name :: after := List.mem_append_right _ List.mem_cons_self
    rwa [← hsplit] at hmem
  rcases List.mem_pair.mp hname with rfl | rfl
  · refine absurd ?_ hnot
    exact ⟨_, List.mem_cons_self, _, rfl, rfl, fun _ h => by cases h⟩
  · obtain ⟨element, helement, hpart⟩ := hholds
    obtain rfl := List.mem_singleton.mp helement
    exact absurd hpart (by decide)

/-- `gzip;q=0` refuses gzip, and gzip is what the client gets. -/
theorem refused_gzip_selected :
    ∃ base, newCompressor id .stored 5 [] = .ok base ∧
      refusesGzip.text = "gzip;q=0".toList ∧
      base.selectEncoder id refusesGzip.text =
        .ok (some (Codecs.stored.gzip 5), "gzip".toList) ∧
      ¬ refusesGzip.Listed id "gzip".toList := by
  refine ⟨_, rfl, by decide, rfl, ?_⟩
  rintro ⟨element, helement, coding, hcoding, -, haccepted⟩
  obtain rfl := List.mem_singleton.mp helement
  cases hcoding
  obtain hone | ⟨ds, hds, -⟩ := haccepted _ rfl
  · cases hone
  · cases hds

end Photon.Middleware
