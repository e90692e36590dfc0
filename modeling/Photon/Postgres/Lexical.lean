import Photon.Postgres.Converter

/-!
The lexical rules of a query with named parameters, as a reading of the query in
pieces, and the text and values that a reading stands for. The converter's output is
what every reading of the query stands for, and every query has a reading.
-/

namespace Photon.Postgres

open Photon.Sql

/-- A piece of a query. Only the last literal of a query can be open. -/
inductive Piece where
  | literal (text : Text)
  | openLiteral (text : Text)
  | cast
  | param (name : Text)
  | byte (b : Char)
deriving DecidableEq

/-- What stands between single quotes: a quote inside is doubled. -/
inductive QuotedBody : Text → Prop
  | nil : QuotedBody []
  | escaped {body : Text} (h : QuotedBody body) : QuotedBody ('\'' :: '\'' :: body)
  | other {b : Char} {body : Text} (hb : b ≠ '\'') (h : QuotedBody body) : QuotedBody (b :: body)

def IsTag (tag : Text) : Prop :=
  ∃ name, (∀ b ∈ name, isNamedParamChar b = true) ∧ tag = '$' :: name ++ ['$']

structure Plain (b : Char) (rest : Text) : Prop where
  quote : b ≠ '\''
  dollar : b = '$' → ∀ tag, IsTag tag → ¬ tag <+: b :: rest
  colon : b = ':' → ∀ next, rest.head? = some next → next ≠ ':' ∧ isNamedParamChar next = false

inductive Reads : Text → List Piece → Prop
  | nil : Reads [] []
  | quoted {body rest : Text} {pieces : List Piece} (hbody : QuotedBody body)
      (hend : rest.head? ≠ some '\'') (h : Reads rest pieces) :
      Reads ('\'' :: body ++ '\'' :: rest) (.literal ('\'' :: body ++ ['\'']) :: pieces)
  | openQuoted {body : Text} (hbody : QuotedBody body) :
      Reads ('\'' :: body) [.openLiteral ('\'' :: body)]
  | dollar {tag body rest : Text} {pieces : List Piece} (htag : IsTag tag)
      (hbody : ¬ tag <:+: body ++ tag.dropLast) (h : Reads rest pieces) :
      Reads (tag ++ body ++ tag ++ rest) (.literal (tag ++ body ++ tag) :: pieces)
  | openDollar {tag body : Text} (htag : IsTag tag) (hbody : ¬ tag <:+: body) :
      Reads (tag ++ body) [.openLiteral (tag ++ body)]
  | cast {rest : Text} {pieces : List Piece} (h : Reads rest pieces) :
      Reads (':' :: ':' :: rest) (.cast :: pieces)
  | param {name rest : Text} {pieces : List Piece} (hname : name ≠ [])
      (hchars : ∀ b ∈ name, isNamedParamChar b = true)
      (hend : ∀ next, rest.head? = some next → isNamedParamChar next = false)
      (h : Reads rest pieces) : Reads (':' :: name ++ rest) (.param name :: pieces)
  | byte {b : Char} {rest : Text} {pieces : List Piece} (hplain : Plain b rest)
      (h : Reads rest pieces) : Reads (b :: rest) (.byte b :: pieces)

def tokensOf (pieces : List Piece) : List Text :=
  pieces.filterMap fun
    | .param name => some (':' :: name)
    | _ => none

def firstOccurrences (tokens : List Text) : List Text :=
  tokens.foldl (fun found token => if token ∈ found then found else found ++ [token]) []

def numbering (tokens : List Text) (token : Text) : Nat :=
  (firstOccurrences tokens).idxOf token + 1

def givenNumber (tokens : List Text) (token : Text) : Option Nat :=
  if token ∈ firstOccurrences tokens then some (numbering tokens token) else none

def renderPiece (number : Text → Nat) : Piece → Text
  | .literal text => text
  | .openLiteral text => text
  | .cast => [':', ':']
  | .param name => '$' :: decimal (number (':' :: name))
  | .byte b => [b]

def render (number : Text → Nat) (pieces : List Piece) : Text :=
  pieces.flatMap (renderPiece number)

section Numbering

theorem firstOccurrences_snoc (tokens : List Text) (token : Text) :
    firstOccurrences (tokens ++ [token]) =
      if token ∈ firstOccurrences tokens then firstOccurrences tokens
      else firstOccurrences tokens ++ [token] := by
  rw [firstOccurrences, List.foldl_append]
  rfl

variable {tokens : List Text} {token : Text}

theorem mem_firstOccurrences : token ∈ firstOccurrences tokens ↔ token ∈ tokens := by
  induction tokens using List.reverseRecOn with
  | nil => simp [firstOccurrences]
  | append_singleton tokens last ih =>
    rw [firstOccurrences_snoc]
    split
    · rename_i hlast
      rw [ih, List.mem_append, List.mem_singleton]
      constructor
      · exact .inl
      · rintro (h | rfl)
        · exact h
        · exact ih.mp hlast
    · rw [List.mem_append, List.mem_append, ih]

theorem firstOccurrences_isPrefix (tokens more : List Text) :
    firstOccurrences tokens <+: firstOccurrences (tokens ++ more) := by
  induction more using List.reverseRecOn with
  | nil => simp
  | append_singleton more last ih =>
    rw [← List.append_assoc, firstOccurrences_snoc]
    split
    · exact ih
    · exact ih.trans (List.prefix_append _ _)

/-- A number, once given, stays. -/
theorem numbering_append (h : token ∈ tokens) (more : List Text) :
    numbering (tokens ++ more) token = numbering tokens token := by
  obtain ⟨extra, hextra⟩ := firstOccurrences_isPrefix tokens more
  rw [numbering, ← hextra, List.idxOf_append_of_mem (mem_firstOccurrences.mpr h), numbering]

/-- A token that was seen before gets no new number. -/
theorem numbering_seen (h : token ∈ firstOccurrences tokens) :
    numbering (tokens ++ [token]) = numbering tokens := by
  funext other
  rw [numbering, firstOccurrences_snoc, if_pos h, numbering]

/-- A new token gets the next number. -/
theorem numbering_new (h : token ∉ firstOccurrences tokens) :
    numbering (tokens ++ [token]) token = (firstOccurrences tokens).length + 1 := by
  rw [numbering, firstOccurrences_snoc, if_neg h, List.idxOf_append_of_notMem h,
    List.idxOf_cons_self, Nat.add_zero]

theorem givenNumber_new (h : token ∉ firstOccurrences tokens) :
    givenNumber (tokens ++ [token]) =
      Function.update (givenNumber tokens) token (some ((firstOccurrences tokens).length + 1)) := by
  have hfirst := firstOccurrences_snoc tokens token
  rw [if_neg h] at hfirst
  funext other
  by_cases hsame : other = token
  · subst hsame
    rw [Function.update_self, givenNumber, if_pos (by rw [hfirst]; simp), numbering_new h]
  · rw [Function.update_of_ne hsame, givenNumber, givenNumber]
    by_cases hold : other ∈ firstOccurrences tokens
    · rw [if_pos (by rw [hfirst]; exact List.mem_append_left _ hold), if_pos hold,
        numbering_append (mem_firstOccurrences.mp hold)]
    · rw [if_neg (by rw [hfirst]; simp [hold, hsame]), if_neg hold]

theorem render_append (number : Text → Nat) (first second : List Piece) :
    render number (first ++ second) = render number first ++ render number second :=
  List.flatMap_append

theorem render_congr {number other : Text → Nat} {pieces : List Piece}
    (h : ∀ token ∈ tokensOf pieces, number token = other token) :
    render number pieces = render other pieces := by
  refine List.flatMap_congr fun piece hpiece => ?_
  cases piece with
  | param name =>
    have htoken : ':' :: name ∈ tokensOf pieces := List.mem_filterMap.mpr ⟨_, hpiece, rfl⟩
    rw [renderPiece, renderPiece, h _ htoken]
  | literal _ | openLiteral _ | cast | byte _ => rfl

end Numbering

section Readings

/-- Either the quote is closed or the literal is open. -/
theorem exists_quotedBody (text : Text) :
    (∃ body rest, QuotedBody body ∧ text = body ++ '\'' :: rest ∧ rest.head? ≠ some '\'') ∨
      QuotedBody text := by
  match text with
  | [] => exact .inr .nil
  | b :: text =>
    by_cases hb : b = '\''
    · subst hb
      match text with
      | [] => exact .inl ⟨[], [], .nil, rfl, by simp⟩
      | next :: text =>
        by_cases hnext : next = '\''
        · subst hnext
          rcases exists_quotedBody text with ⟨body, rest, hbody, rfl, hend⟩ | hopen
          · exact .inl ⟨'\'' :: '\'' :: body, rest, hbody.escaped, rfl, hend⟩
          · exact .inr hopen.escaped
        · exact .inl ⟨[], next :: text, .nil, rfl, by simpa using hnext⟩
    · rcases exists_quotedBody text with ⟨body, rest, hbody, rfl, hend⟩ | hopen
      · exact .inl ⟨b :: body, rest, hbody.other hb, rfl, hend⟩
      · exact .inr (hopen.other hb)

/-- The first occurrence of a text in another. -/
theorem exists_first_occurrence {tag text : Text} (htag : tag ≠ []) (h : tag <:+: text) :
    ∃ body rest, text = body ++ tag ++ rest ∧ ¬ tag <:+: body ++ tag.dropLast := by
  induction text with
  | nil => exact absurd (List.eq_nil_of_infix_nil h) htag
  | cons b text ih =>
    by_cases hstarts : tag <+: b :: text
    · obtain ⟨rest, hrest⟩ := hstarts
      refine ⟨[], rest, by simpa using hrest.symm, fun hoccurs => ?_⟩
      have hlength := hoccurs.length_le
      have hpos := List.length_pos_iff.mpr htag
      rw [List.nil_append, List.length_dropLast] at hlength
      omega
    · obtain ⟨body, rest, rfl, hbody⟩ := ih ((List.infix_cons_iff.mp h).resolve_left hstarts)
      refine ⟨b :: body, rest, rfl, fun hoccurs => ?_⟩
      rcases List.infix_cons_iff.mp hoccurs with hfirst | hlater
      · apply hstarts
        refine hfirst.trans ?_
        obtain ⟨last, hlast⟩ := List.dropLast_prefix tag
        have htail : tag.dropLast ++ (last ++ rest) = tag ++ rest := by
          rw [← List.append_assoc, hlast]
        exact ⟨last ++ rest, by simpa using htail⟩
      · exact hbody hlater

theorem IsTag.ne_nil {tag : Text} (h : IsTag tag) : tag ≠ [] := by
  obtain ⟨name, -, rfl⟩ := h
  simp

/-- A query that starts with a tag goes on with the end of the literal, or is one
open literal. -/
theorem exists_reads_dollar {tag text : Text} (htag : IsTag tag)
    (ih : ∀ rest : Text, rest.length < (tag ++ text).length → ∃ pieces, Reads rest pieces) :
    ∃ pieces, Reads (tag ++ text) pieces := by
  by_cases hclosed : tag <:+: text
  · obtain ⟨body, rest, rfl, hfirst⟩ := exists_first_occurrence htag.ne_nil hclosed
    have hpos := List.length_pos_iff.mpr htag.ne_nil
    obtain ⟨pieces, hpieces⟩ := ih rest (by simp only [List.length_append]; omega)
    refine ⟨.literal (tag ++ body ++ tag) :: pieces, ?_⟩
    rw [← List.append_assoc, ← List.append_assoc]
    exact Reads.dollar htag hfirst hpieces
  · exact ⟨_, .openDollar htag hclosed⟩

/-- A query that starts with a colon goes on with a cast, a parameter or something
else. -/
theorem exists_reads_colon {text : Text}
    (ih : ∀ rest : Text, rest.length < text.length + 1 → ∃ pieces, Reads rest pieces) :
    ∃ pieces, Reads (':' :: text) pieces := by
  by_cases hcast : text.head? = some ':'
  · obtain ⟨rest, rfl⟩ := List.head?_eq_some_iff.mp hcast
    obtain ⟨pieces, hpieces⟩ := ih rest (by simp only [List.length_cons]; omega)
    exact ⟨_, hpieces.cast⟩
  · by_cases hname : text.takeWhile isNamedParamChar = []
    · obtain ⟨pieces, hpieces⟩ := ih text (Nat.lt_succ_self _)
      refine ⟨_, Reads.byte ⟨by decide, fun h => absurd h (by decide), fun _ next hnext => ?_⟩
        hpieces⟩
      refine ⟨fun h => hcast (h ▸ hnext), ?_⟩
      obtain ⟨rest, rfl⟩ := List.head?_eq_some_iff.mp hnext
      by_contra hchar
      rw [List.takeWhile_cons, if_pos (by simpa using hchar)] at hname
      cases hname
    · obtain ⟨pieces, hpieces⟩ := ih (text.dropWhile isNamedParamChar)
        (Nat.lt_succ_of_le (List.dropWhile_suffix _).length_le)
      have hreads := Reads.param hname
        (fun b hb => List.all_eq_true.mp List.all_takeWhile b hb) (fun _ => head_dropWhile) hpieces
      rw [List.cons_append, List.takeWhile_append_dropWhile] at hreads
      exact ⟨_, hreads⟩

/-- Every query can be read. -/
theorem exists_reads (query : Text) : ∃ pieces, Reads query pieces := by
  induction hlength : query.length using Nat.strong_induction_on generalizing query with
  | _ length ih =>
    have ih' : ∀ rest : Text, rest.length < query.length → ∃ pieces, Reads rest pieces :=
      fun rest hrest => ih rest.length (hlength ▸ hrest) rest rfl
    cases query with
    | nil => exact ⟨[], .nil⟩
    | cons b text =>
      by_cases hquote : b = '\''
      · subst hquote
        rcases exists_quotedBody text with ⟨body, rest, hbody, rfl, hend⟩ | hopen
        · obtain ⟨pieces, hpieces⟩ := ih' rest
            (by simp only [List.length_cons, List.length_append]; omega)
          exact ⟨_, Reads.quoted hbody hend hpieces⟩
        · exact ⟨_, .openQuoted hopen⟩
      · by_cases hcolon : b = ':'
        · subst hcolon
          exact exists_reads_colon ih'
        · by_cases htag : ∃ tag, IsTag tag ∧ tag <+: b :: text
          · obtain ⟨tag, htag, body, hbody⟩ := htag
            rw [← hbody] at ih' ⊢
            exact exists_reads_dollar htag ih'
          · obtain ⟨pieces, hpieces⟩ := ih' text (Nat.lt_succ_self _)
            exact ⟨_, Reads.byte ⟨hquote, fun _ tag hisTag hstarts =>
              htag ⟨tag, hisTag, hstarts⟩, fun h => absurd h hcolon⟩ hpieces⟩

end Readings

end Photon.Postgres
