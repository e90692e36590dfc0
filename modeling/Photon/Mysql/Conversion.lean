import Photon.Mysql.NamedParams

/-!
What the MySQL converter computes. Replacing the tokens one after the other at their
first occurrence replaces each of them in its place, because what has been passed
holds no token any more. But the converter is blind to literals: it replaces the
tokens inside them as well.
-/

namespace Photon.Mysql

open Photon.Sql

/-- A piece of a query. Only the last literal of a query can be open. -/
inductive Piece where
  | literal (text : Text)
  | openLiteral (text : Text)
  | param (name : Text)
  | byte (b : Char)
deriving DecidableEq

def tokensOf (pieces : List Piece) : List Text :=
  pieces.filterMap fun
    | .param name => some (':' :: name)
    | _ => none

def renderPiece : Piece → Text
  | .literal text => text
  | .openLiteral text => text
  | .param _ => ['?']
  | .byte b => [b]

def render (pieces : List Piece) : Text := pieces.flatMap renderPiece

/-- What stands between two quotes: a quote inside is doubled or escaped. -/
inductive LiteralBody (quote : Char) : Text → Prop
  | nil : LiteralBody quote []
  | escaped {c : Char} {body : Text} (h : LiteralBody quote body) :
      LiteralBody quote ('\\' :: c :: body)
  | doubled {body : Text} (h : LiteralBody quote body) : LiteralBody quote (quote :: quote :: body)
  | other {c : Char} {body : Text} (hquote : c ≠ quote) (hslash : c ≠ '\\')
      (h : LiteralBody quote body) : LiteralBody quote (c :: body)

def IsQuote (c : Char) : Prop := c = '\'' ∨ c = '"'

instance : DecidablePred IsQuote := fun c => inferInstanceAs (Decidable (c = '\'' ∨ c = '"'))

/-- A query read in pieces, from left to right. An open literal can end in the middle
of an escape. -/
inductive Reads : Text → List Piece → Prop
  | nil : Reads [] []
  | literal {quote : Char} {body rest : Text} {pieces : List Piece} (hquote : IsQuote quote)
      (hbody : LiteralBody quote body) (hend : rest.head? ≠ some quote) (h : Reads rest pieces) :
      Reads (quote :: body ++ quote :: rest) (.literal (quote :: body ++ [quote]) :: pieces)
  | openLiteral {quote : Char} {body slash : Text} (hquote : IsQuote quote)
      (hbody : LiteralBody quote body) (hslash : slash = [] ∨ slash = ['\\']) :
      Reads (quote :: body ++ slash) [.openLiteral (quote :: body ++ slash)]
  | param {name rest : Text} {pieces : List Piece} (hname : name ≠ [])
      (hchars : ∀ c ∈ name, isNamedParamChar c = true)
      (hend : ∀ next, rest.head? = some next → isNamedParamChar next = false)
      (h : Reads rest pieces) : Reads (':' :: name ++ rest) (.param name :: pieces)
  | byte {b : Char} {rest : Text} {pieces : List Piece} (hquote : ¬ IsQuote b)
      (hcolon : b = ':' → ∀ next, rest.head? = some next → isNamedParamChar next = false)
      (h : Reads rest pieces) : Reads (b :: rest) (.byte b :: pieces)

def readBlind : Nat → Text → List Piece
  | _, [] => []
  | skip + 1, _ :: rest => readBlind skip rest
  | 0, c :: rest =>
    match tokenAt (c :: rest) with
    | some token => .param token.tail :: readBlind (token.length - 1) rest
    | none => .byte c :: readBlind 0 rest

def TokenFree (text : Text) : Prop :=
  ∀ c, isNamedParamChar c = true → ¬ [':', c] <:+: text

theorem tokensOf_append (first second : List Piece) :
    tokensOf (first ++ second) = tokensOf first ++ tokensOf second := List.filterMap_append

theorem render_append (first second : List Piece) :
    render (first ++ second) = render first ++ render second := List.flatMap_append

theorem render_bytes (text : Text) : render (text.map .byte) = text := by
  induction text with
  | nil => rfl
  | cons c text ih => exact congrArg (c :: ·) ih

section Blind

theorem readBlind_skip (skip : Nat) (text : Text) :
    readBlind skip text = readBlind 0 (text.drop skip) := by
  induction text generalizing skip with
  | nil => simp [readBlind]
  | cons c rest ih =>
    cases skip with
    | zero => rfl
    | succ skip => exact ih skip

theorem readBlind_token {name rest : Text}
    (h : tokenAt (':' :: name ++ rest) = some (':' :: name)) :
    readBlind 0 (':' :: name ++ rest) = .param name :: readBlind 0 rest := by
  rw [List.cons_append] at h ⊢
  rw [readBlind, h]
  simp only
  rw [readBlind_skip]
  simp

theorem readBlind_other {c : Char} {rest : Text} (h : tokenAt (c :: rest) = none) :
    readBlind 0 (c :: rest) = .byte c :: readBlind 0 rest := by
  rw [readBlind, h]

/-- A text is a token followed by the rest, or a character followed by the rest. -/
theorem text_cases {P : Text → Prop} (hnil : P [])
    (htoken : ∀ name rest, name ≠ [] → (∀ c ∈ name, isNamedParamChar c = true) →
      tokenAt (':' :: name ++ rest) = some (':' :: name) → P rest → P (':' :: name ++ rest))
    (hother : ∀ c rest, tokenAt (c :: rest) = none → P rest → P (c :: rest)) (text : Text) :
    P text := by
  induction hlength : text.length using Nat.strong_induction_on generalizing text with
  | _ length ih =>
    cases text with
    | nil => exact hnil
    | cons c rest =>
      cases htok : tokenAt (c :: rest) with
      | none => exact hother c rest htok (ih rest.length (hlength ▸ Nat.lt_succ_self _) rest rfl)
      | some token =>
        obtain ⟨name, more, rfl, hname, hchars, -, heq⟩ := tokenAt_eq_some htok
        rw [heq] at htok hlength ⊢
        refine htoken name more hname hchars htok (ih more.length ?_ more rfl)
        rw [← hlength, List.length_append, List.length_cons]
        omega

end Blind

variable {text : Text}

section Replacing

theorem TokenFree.snoc (h : TokenFree text) {last : Char}
    (hlast : ∀ init, text = init ++ [':'] → isNamedParamChar last = false) :
    TokenFree (text ++ [last]) := by
  intro c hc hoccurs
  rcases List.infix_concat_iff.mp hoccurs with ⟨init, hinit⟩ | hinside
  · have hsplit : (init ++ [':']) ++ [c] = text ++ [last] := by simpa using hinit
    obtain ⟨htext, hsame⟩ := List.append_inj' hsplit rfl
    obtain rfl : c = last := by simpa using hsame
    rw [hlast init htext.symm] at hc
    cases hc
  · exact h c hc hinside

theorem TokenFree.of_append {first second : Text} (h : TokenFree (first ++ second)) :
    TokenFree first :=
  fun c hc hoccurs => h c hc (hoccurs.trans (List.prefix_append first second).isInfix)

/-- A token cannot begin in what has been passed. -/
theorem replaceFirst_passed {name rest done new : Text} (hname : name ≠ [])
    (hchars : ∀ c ∈ name, isNamedParamChar c = true) (hfree : TokenFree (done ++ [':'])) :
    replaceFirst (':' :: name) new (done ++ (':' :: name ++ rest)) = done ++ (new ++ rest) := by
  obtain ⟨first, more, rfl⟩ := List.exists_cons_of_ne_nil hname
  have hfirst := hchars first List.mem_cons_self
  induction done with
  | nil =>
    have hstarts : (':' :: first :: more).isPrefixOf (':' :: (first :: more) ++ rest) = true :=
      List.isPrefixOf_iff_prefix.mpr (List.prefix_append _ _)
    rw [List.nil_append, List.cons_append, replaceFirst, ← List.cons_append, if_pos hstarts,
      List.drop_left]
    rfl
  | cons d done ih =>
    have hnot : ¬ (':' :: first :: more).isPrefixOf
        (d :: (done ++ (':' :: (first :: more) ++ rest))) = true := by
      intro hstarts
      have hpair : [':', first] <+: d :: (done ++ [':']) := by
        have hstart : [':', first] <+: ':' :: first :: more := List.prefix_append [':', first] more
        have hpassed : d :: (done ++ [':']) <+: d :: (done ++ (':' :: (first :: more) ++ rest)) :=
          ⟨first :: more ++ rest, by simp⟩
        exact List.prefix_of_prefix_length_le
          (hstart.trans (List.isPrefixOf_iff_prefix.mp hstarts)) hpassed (by simp)
      exact hfree first hfirst hpair.isInfix
    rw [List.cons_append, replaceFirst, if_neg hnot, ih]
    · rfl
    · exact fun c hc hoccurs => hfree c hc (hoccurs.trans (List.suffix_cons d _).isInfix)

/-- The loop of the converter, behind a part of the query without tokens. -/
theorem replaceAll_passed {V : Type} (value : Text → V) (text : Text) :
    ∀ (done : Text) (values : List V), TokenFree (done ++ text.take 1) →
      (findAllTokens 0 text).foldl (replaceToken value) (done ++ text, values) =
      (done ++ render (readBlind 0 text), values ++ (tokensOf (readBlind 0 text)).map value) := by
  induction text using text_cases with
  | hnil =>
    intro done values _
    simp [findAllTokens, readBlind, render, tokensOf]
  | htoken name rest hname hchars htok ih =>
    intro done values hfree
    have hfree : TokenFree (done ++ [':']) := hfree
    have hnext : TokenFree (done ++ ['?'] ++ rest.take 1) := by
      have hmark : TokenFree (done ++ ['?']) := hfree.of_append.snoc fun _ _ => rfl
      cases rest with
      | nil => simpa using hmark
      | cons c rest =>
        refine hmark.snoc fun init hinit => ?_
        have hlast := (List.append_inj' hinit rfl).2
        cases hlast
    rw [findAllTokens_token htok, readBlind_token htok, List.drop_left, List.foldl_cons,
      replaceToken, replaceFirst_passed hname hchars hfree, ← List.append_assoc, ih _ _ hnext]
    simp [render, renderPiece, tokensOf]
  | hother c rest htok ih =>
    intro done values hfree
    have hfree : TokenFree (done ++ [c]) := hfree
    have hnext : TokenFree (done ++ [c] ++ rest.take 1) := by
      cases rest with
      | nil => simpa using hfree
      | cons next rest =>
        refine hfree.snoc fun init hinit => ?_
        have hlast := (List.append_inj' hinit rfl).2
        cases hlast
        exact not_name_of_tokenAt_none htok
    rw [findAllTokens, htok, readBlind_other htok]
    have hmore := ih (done ++ [c]) values hnext
    rw [List.append_assoc, List.singleton_append] at hmore
    rw [hmore]
    simp [render, renderPiece, tokensOf]

/-- Each token is replaced in its place, in literals too. -/
theorem convert_eq {V : Type} [Inhabited V] (query : Text) (params : List (Params V)) :
    convertQueryAndNamedParams query params =
      (render (readBlind 0 query),
        (tokensOf (readBlind 0 query)).map fun token => (lastValue params token).getD default) := by
  have hfree : TokenFree ([] ++ query.take 1) := by
    intro c _ hoccurs
    have hlength := hoccurs.length_le
    rw [List.nil_append, List.length_take] at hlength
    simp at hlength
  have hall := replaceAll_passed
    (fun token => ((mergeNamedParams params).lookup token).getD default) query [] [] hfree
  simp only [lookup_mergeNamedParams, List.nil_append] at hall
  simpa only [convertQueryAndNamedParams, lookup_mergeNamedParams] using hall

end Replacing

variable {pieces : List Piece}

section Literals

theorem takeWhile_append_of_stop (h : ∃ c ∈ text, isNamedParamChar c = false) (rest : Text) :
    (text ++ rest).takeWhile isNamedParamChar = text.takeWhile isNamedParamChar := by
  induction text with
  | nil => simp at h
  | cons c text ih =>
    rw [List.cons_append, List.takeWhile_cons, List.takeWhile_cons]
    by_cases hc : isNamedParamChar c = true
    · obtain ⟨stop, hstop, hfalse⟩ := h
      rw [if_pos hc, if_pos hc, ih]
      rcases List.mem_cons.mp hstop with rfl | hstop
      · rw [hfalse] at hc
        cases hc
      · exact ⟨stop, hstop, hfalse⟩
    · rw [if_neg hc, if_neg hc]

/-- Whether a token starts here is settled by the next character that is in no name. -/
theorem tokenAt_append {c : Char} {more : Text} (h : ∃ stop ∈ more, isNamedParamChar stop = false)
    (rest : Text) : tokenAt (c :: more ++ rest) = tokenAt (c :: more) := by
  by_cases hc : c = ':'
  · subst hc
    simp [tokenAt, takeWhile_append_of_stop h rest]
  · rw [List.cons_append, tokenAt_of_ne hc, tokenAt_of_ne hc]

/-- A text that ends in neither a colon nor a name is read apart from what follows. -/
theorem readBlind_append {last : Char} (hcolon : last ≠ ':')
    (hlast : isNamedParamChar last = false) (text rest : Text) :
    text.getLast? = some last →
      readBlind 0 (text ++ rest) = readBlind 0 text ++ readBlind 0 rest := by
  induction text using text_cases with
  | hnil => intro h; cases h
  | htoken name more hname hchars htok ih =>
    intro hends
    have hmore : more.getLast? = some last := by
      cases hcases : more.getLast? with
      | some other =>
        rw [List.getLast?_append, hcases] at hends
        simpa using hends
      | none =>
        rw [List.getLast?_eq_none_iff.mp hcases, List.append_nil] at hends
        have hmem := List.mem_of_getLast? hends
        rcases List.mem_cons.mp hmem with h | h
        · exact absurd h hcolon
        · rw [hchars last h] at hlast
          cases hlast
    have hstop : ∃ stop ∈ name ++ more, isNamedParamChar stop = false :=
      ⟨last, List.mem_append_right _ (List.mem_of_getLast? hmore), hlast⟩
    have htok' : tokenAt (':' :: name ++ (more ++ rest)) = some (':' :: name) := by
      rw [← List.append_assoc, List.cons_append, tokenAt_append hstop, ← List.cons_append]
      exact htok
    rw [List.append_assoc, readBlind_token htok', readBlind_token htok, ih hmore]
    rfl
  | hother c more htok ih =>
    intro hends
    cases more with
    | nil =>
      obtain rfl : c = last := by simpa using hends
      rw [List.singleton_append, readBlind_other (tokenAt_of_ne hcolon rest),
        readBlind_other htok]
      rfl
    | cons next more =>
      have hmore : (next :: more).getLast? = some last := by simpa using hends
      have hstop : ∃ stop ∈ next :: more, isNamedParamChar stop = false :=
        ⟨last, List.mem_of_getLast? hmore, hlast⟩
      have htok' := (tokenAt_append (c := c) hstop rest).trans htok
      rw [List.cons_append] at htok' ⊢
      rw [readBlind_other htok', readBlind_other htok, ih hmore]
      rfl

def expandPiece : Piece → List Piece
  | .literal text => readBlind 0 text
  | .openLiteral text => readBlind 0 text
  | .param name => [.param name]
  | .byte b => [.byte b]

def expand (pieces : List Piece) : List Piece := pieces.flatMap expandPiece

theorem IsQuote.not_name {c : Char} (h : IsQuote c) : isNamedParamChar c = false ∧ c ≠ ':' := by
  rcases h with rfl | rfl <;> decide

theorem readBlind_eq_expand (h : Reads text pieces) : readBlind 0 text = expand pieces := by
  induction h with
  | nil => rfl
  | @literal quote body rest pieces hquote hbody hend _ ih =>
    obtain ⟨hname, hcolon⟩ := hquote.not_name
    have hsplit : quote :: body ++ quote :: rest = (quote :: body ++ [quote]) ++ rest := by simp
    rw [hsplit, readBlind_append hcolon hname _ rest List.getLast?_concat, ih]
    rfl
  | openLiteral => simp [expand, expandPiece]
  | param hname hchars hend _ ih =>
    rw [readBlind_token (tokenAt_colon hname hchars hend), ih]
    rfl
  | @byte b rest pieces hquote hcolon _ ih =>
    have htok : tokenAt (b :: rest) = none := by
      by_cases hb : b = ':'
      · subst hb
        simp [tokenAt, takeWhile_of_head (hcolon rfl)]
      · exact tokenAt_of_ne hb rest
    rw [readBlind_other htok, ih]
    rfl

theorem TokenFree.readBlind_eq (h : TokenFree text) : readBlind 0 text = text.map .byte := by
  induction text using text_cases with
  | hnil => rfl
  | htoken name rest hname hchars _ _ =>
    obtain ⟨first, more, rfl⟩ := List.exists_cons_of_ne_nil hname
    have hpair : [':', first] <+: ':' :: (first :: more) ++ rest := ⟨more ++ rest, rfl⟩
    exact absurd hpair.isInfix (h first (hchars first List.mem_cons_self))
  | hother c rest htok ih =>
    rw [readBlind_other htok, ih]
    · rfl
    · exact fun d hd hoccurs => h d hd (hoccurs.trans (List.suffix_cons c rest).isInfix)

/-- A text without tokens is one that the blind reading finds no parameter in. -/
theorem tokensOf_readBlind_iff (text : Text) :
    tokensOf (readBlind 0 text) = [] ↔ TokenFree text := by
  constructor
  · induction text using text_cases with
    | hnil =>
      intro _ c _ hoccurs
      exact absurd (List.eq_nil_of_infix_nil hoccurs) (by simp)
    | htoken name rest hname hchars htok _ =>
      intro htokens
      rw [readBlind_token htok] at htokens
      cases htokens
    | hother c rest htok ih =>
      intro htokens
      rw [readBlind_other htok] at htokens
      intro d hd hoccurs
      rcases List.infix_cons_iff.mp hoccurs with hstarts | hlater
      · obtain ⟨more, hmore⟩ := hstarts
        cases hmore
        have hchar : isNamedParamChar d = false := not_name_of_tokenAt_none htok
        rw [hd] at hchar
        cases hchar
      · exact ih htokens d hd hlater
  · intro hfree
    simp [hfree.readBlind_eq, tokensOf]

end Literals

section Readings

/-- Either the quote is closed or the literal is open. -/
theorem exists_literalBody {quote : Char} (hquote : quote ≠ '\\') (text : Text) :
    (∃ body rest, LiteralBody quote body ∧ text = body ++ quote :: rest ∧
      rest.head? ≠ some quote) ∨
    ∃ body slash, LiteralBody quote body ∧ (slash = [] ∨ slash = ['\\']) ∧
      text = body ++ slash := by
  match text with
  | [] => exact .inr ⟨[], [], .nil, .inl rfl, rfl⟩
  | [c] =>
    by_cases hc : c = quote
    · exact .inl ⟨[], [], .nil, by rw [hc]; rfl, by simp⟩
    · by_cases hslash : c = '\\'
      · exact .inr ⟨[], ['\\'], .nil, .inr rfl, by rw [hslash]; rfl⟩
      · exact .inr ⟨[c], [], .other hc hslash .nil, .inl rfl, rfl⟩
  | c :: next :: text =>
    by_cases hc : c = quote
    · by_cases hnext : next = quote
      · rcases exists_literalBody hquote text with
          ⟨body, rest, hbody, rfl, hend⟩ | ⟨body, slash, hbody, hslash, rfl⟩
        · exact .inl ⟨_, rest, hbody.doubled, by rw [hc, hnext]; rfl, hend⟩
        · exact .inr ⟨_, slash, hbody.doubled, hslash, by rw [hc, hnext]; rfl⟩
      · exact .inl ⟨[], next :: text, .nil, by rw [hc]; rfl, by simpa using hnext⟩
    · by_cases hslash : c = '\\'
      · rcases exists_literalBody hquote text with
          ⟨body, rest, hbody, rfl, hend⟩ | ⟨body, slash, hbody, hopen, rfl⟩
        · exact .inl ⟨_, rest, hbody.escaped (c := next), by rw [hslash]; rfl, hend⟩
        · exact .inr ⟨_, slash, hbody.escaped (c := next), hopen, by rw [hslash]; rfl⟩
      · rcases exists_literalBody hquote (next :: text) with
          ⟨body, rest, hbody, heq, hend⟩ | ⟨body, slash, hbody, hopen, heq⟩
        · exact .inl ⟨_, rest, hbody.other hc hslash, by rw [heq]; rfl, hend⟩
        · exact .inr ⟨_, slash, hbody.other hc hslash, hopen, by rw [heq]; rfl⟩

/-- Every query can be read. -/
theorem exists_reads (query : Text) : ∃ pieces, Reads query pieces := by
  induction hlength : query.length using Nat.strong_induction_on generalizing query with
  | _ length ih =>
    have ih' : ∀ rest : Text, rest.length < query.length → ∃ pieces, Reads rest pieces :=
      fun rest hrest => ih rest.length (hlength ▸ hrest) rest rfl
    cases query with
    | nil => exact ⟨[], .nil⟩
    | cons b text =>
      by_cases hquote : IsQuote b
      · have hslash : b ≠ '\\' := by rcases hquote with rfl | rfl <;> decide
        rcases exists_literalBody hslash text with
          ⟨body, rest, hbody, rfl, hend⟩ | ⟨body, slash, hbody, hopen, rfl⟩
        · obtain ⟨pieces, hpieces⟩ := ih' rest
            (by simp only [List.length_cons, List.length_append]; omega)
          exact ⟨_, Reads.literal hquote hbody hend hpieces⟩
        · exact ⟨_, Reads.openLiteral hquote hbody hopen⟩
      · cases htok : tokenAt (b :: text) with
        | none =>
          obtain ⟨pieces, hpieces⟩ := ih' text (Nat.lt_succ_self _)
          refine ⟨_, Reads.byte hquote (fun hb next hnext => ?_) hpieces⟩
          obtain ⟨rest, rfl⟩ := List.head?_eq_some_iff.mp hnext
          subst hb
          exact not_name_of_tokenAt_none htok
        | some token =>
          obtain ⟨name, rest, rfl, hname, hchars, hend, heq⟩ := tokenAt_eq_some htok
          rw [heq] at ih' ⊢
          obtain ⟨pieces, hpieces⟩ := ih' rest
            (by simp only [List.length_append, List.length_cons]; omega)
          exact ⟨_, Reads.param hname hchars hend hpieces⟩

theorem count_render (h : Reads text pieces) :
    (render pieces).count '?' = text.count '?' + (tokensOf pieces).length := by
  induction h with
  | nil => rfl
  | @literal quote body rest pieces _ _ _ _ ih =>
    have hrender : render (.literal (quote :: body ++ [quote]) :: pieces) =
        quote :: body ++ [quote] ++ render pieces := rfl
    have hsplit : quote :: body ++ quote :: rest = quote :: body ++ [quote] ++ rest := by simp
    have htokens : tokensOf (.literal (quote :: body ++ [quote]) :: pieces) = tokensOf pieces :=
      rfl
    simp only [hrender, hsplit, htokens, List.count_append, ih, Nat.add_assoc]
  | openLiteral => simp [render, renderPiece, tokensOf]
  | @param name rest pieces _ hchars _ _ ih =>
    have hname : (':' :: name).count '?' = 0 := by
      refine List.count_eq_zero.mpr fun hmem => ?_
      rcases List.mem_cons.mp hmem with h | h
      · cases h
      · exact absurd (hchars _ h) (by decide)
    have hrender : render (.param name :: pieces) = '?' :: render pieces := rfl
    have htokens : tokensOf (.param name :: pieces) = (':' :: name) :: tokensOf pieces := rfl
    rw [hrender, htokens, List.count_cons_self, ih, List.count_append, hname, List.length_cons]
    omega
  | @byte b rest pieces _ _ _ ih =>
    have hrender : render (.byte b :: pieces) = b :: render pieces := rfl
    have htokens : tokensOf (.byte b :: pieces) = tokensOf pieces := rfl
    rw [hrender, htokens, List.count_cons, List.count_cons, ih]
    omega

end Readings

section Expansion

def Piece.LiteralFree : Piece → Prop
  | .literal text => TokenFree text
  | .openLiteral text => TokenFree text
  | .param _ => True
  | .byte _ => True

instance (text : Text) : Decidable (TokenFree text) :=
  decidable_of_iff _ (tokensOf_readBlind_iff text)

instance : DecidablePred Piece.LiteralFree
  | .literal text => inferInstanceAs (Decidable (TokenFree text))
  | .openLiteral text => inferInstanceAs (Decidable (TokenFree text))
  | .param _ => .isTrue trivial
  | .byte _ => .isTrue trivial

theorem render_expandPiece {piece : Piece} (h : piece.LiteralFree) :
    render (expandPiece piece) = renderPiece piece := by
  cases piece with
  | literal text | openLiteral text =>
    rw [expandPiece, TokenFree.readBlind_eq h, render_bytes, renderPiece]
  | param _ | byte _ => rfl

/-- The blind reading finds the parameters of a piece, and more in a literal that is
not free of tokens. -/
theorem tokensOf_expandPiece (piece : Piece) :
    (tokensOf [piece] = [] ∨ piece.LiteralFree) ∧
      (piece.LiteralFree ↔ tokensOf (expandPiece piece) = tokensOf [piece]) := by
  cases piece with
  | literal text | openLiteral text => exact ⟨.inl rfl, (tokensOf_readBlind_iff text).symm⟩
  | param _ | byte _ => exact ⟨.inr trivial, iff_of_true trivial rfl⟩

theorem length_tokensOf_expandPiece (piece : Piece) :
    (tokensOf [piece]).length ≤ (tokensOf (expandPiece piece)).length := by
  obtain ⟨hnone | hfree, hiff⟩ := tokensOf_expandPiece piece
  · rw [hnone]
    exact Nat.zero_le _
  · rw [hiff.mp hfree]

theorem tokensOf_cons (piece : Piece) (pieces : List Piece) :
    tokensOf (piece :: pieces) = tokensOf [piece] ++ tokensOf pieces :=
  tokensOf_append [piece] pieces

theorem tokensOf_expand_cons (piece : Piece) (pieces : List Piece) :
    tokensOf (expand (piece :: pieces)) =
      tokensOf (expandPiece piece) ++ tokensOf (expand pieces) :=
  tokensOf_append (expandPiece piece) (expand pieces)

theorem length_tokensOf_expand (pieces : List Piece) :
    (tokensOf pieces).length ≤ (tokensOf (expand pieces)).length := by
  induction pieces with
  | nil => exact Nat.le_refl _
  | cons piece pieces ih =>
    rw [tokensOf_cons, tokensOf_expand_cons, List.length_append, List.length_append]
    exact Nat.add_le_add (length_tokensOf_expandPiece piece) ih

/-- If the blind reading finds no more tokens, then there are none in literals. -/
theorem literalFree_of_length (h : (tokensOf (expand pieces)).length = (tokensOf pieces).length) :
    ∀ piece ∈ pieces, piece.LiteralFree := by
  induction pieces with
  | nil => intro piece hpiece; cases hpiece
  | cons piece pieces ih =>
    rw [tokensOf_cons, tokensOf_expand_cons, List.length_append, List.length_append] at h
    have hpiece := length_tokensOf_expandPiece piece
    have hpieces := length_tokensOf_expand pieces
    have hfree : piece.LiteralFree := by
      obtain ⟨hnone | hfree, hiff⟩ := tokensOf_expandPiece piece
      · rw [hnone] at h hiff
        refine hiff.mpr (List.eq_nil_of_length_eq_zero ?_)
        rw [List.length_nil] at h
        omega
      · exact hfree
    exact List.forall_mem_cons.mpr ⟨hfree, ih (by omega)⟩

theorem expand_of_literalFree (h : ∀ piece ∈ pieces, piece.LiteralFree) :
    render (expand pieces) = render pieces ∧ tokensOf (expand pieces) = tokensOf pieces := by
  induction pieces with
  | nil => exact ⟨rfl, rfl⟩
  | cons piece pieces ih =>
    obtain ⟨hpiece, hpieces⟩ := List.forall_mem_cons.mp h
    obtain ⟨hrender, htokens⟩ := ih hpieces
    constructor
    · have hsplit : render (expand (piece :: pieces)) =
          render (expandPiece piece) ++ render (expand pieces) := render_append _ _
      rw [hsplit, render_expandPiece hpiece, hrender]
      rfl
    · rw [tokensOf_expand_cons, (tokensOf_expandPiece piece).2.mp hpiece, htokens, ← tokensOf_cons]

theorem convert_of_literalFree {V : Type} [Inhabited V] (params : List (Params V)) {query : Text}
    (h : Reads query pieces) (hfree : ∀ piece ∈ pieces, piece.LiteralFree) :
    convertQueryAndNamedParams query params =
      (render pieces,
        (tokensOf pieces).map fun token => (lastValue params token).getD default) := by
  obtain ⟨hrender, htokens⟩ := expand_of_literalFree hfree
  rw [convert_eq, readBlind_eq_expand h, hrender, htokens]

/-- The converter leaves the literals alone and binds each placeholder to its token, if
and only if no literal holds a token. -/
theorem convert_iff_literals_free {V : Type} [Inhabited V] (query : Text)
    (params : List (Params V)) (hmark : '?' ∉ query) :
    (∃ pieces, Reads query pieces) ∧
    ∀ pieces, Reads query pieces →
      ((convertQueryAndNamedParams query params =
          (render pieces,
            (tokensOf pieces).map fun token => (lastValue params token).getD default) ∧
        (render pieces).count '?' = (tokensOf pieces).length) ↔
      ∀ piece ∈ pieces, piece.LiteralFree) := by
  refine ⟨exists_reads query, fun pieces hreads => ?_⟩
  constructor
  · rintro ⟨hconvert, -⟩
    rw [convert_eq, readBlind_eq_expand hreads] at hconvert
    have hlength := congrArg (fun result => result.2.length) hconvert
    simp only [List.length_map] at hlength
    exact literalFree_of_length hlength
  · intro hfree
    refine ⟨convert_of_literalFree params hreads hfree, ?_⟩
    rw [count_render hreads, List.count_eq_zero.mpr hmark, Nat.zero_add]

/-- A literal without tokens is copied, and `:a` is bound also where `:ab` stands
first. -/
theorem convert_copies_tokenfree_literal :
    convertQueryAndNamedParams ":ab ':' :a".toList
        [AList.singleton ":a".toList 1, AList.singleton ":ab".toList 2] =
      ("? ':' ?".toList, [2, 1]) := by
  have hparam : Reads [':', 'a'] [.param ['a']] :=
    .param (List.cons_ne_nil 'a' []) (List.all_eq_true.mp rfl) (fun _ h => by cases h) .nil
  have hliteral : Reads ['\'', ':', '\'', ' ', ':', 'a']
      [.literal ['\'', ':', '\''], .byte ' ', .param ['a']] :=
    .literal (.inl rfl) (.other (by decide : ':' ≠ '\'') (by decide) .nil) (by decide)
      (.byte (by decide) (by decide) hparam)
  have hreads : Reads ":ab ':' :a".toList
      [.param ['a', 'b'], .byte ' ', .literal ['\'', ':', '\''], .byte ' ', .param ['a']] :=
    .param (List.cons_ne_nil 'a' ['b']) (List.all_eq_true.mp rfl)
      (fun next hnext => by cases hnext; decide)
      (.byte (by decide : ¬ IsQuote ' ') (by decide) hliteral)
  exact (((convert_iff_literals_free _ _ (by decide)).2 _ hreads).mpr (by decide)).1

/-- The time in a literal is taken for a parameter. -/
theorem convert_changes_literal :
    Reads "'1:2'".toList [.literal "'1:2'".toList] ∧
      convertQueryAndNamedParams "'1:2'".toList ([] : List (Params (Option Nat))) =
        ("'1?'".toList, [none]) := by
  refine ⟨?_, by decide⟩
  have hbody : LiteralBody '\'' ['1', ':', '2'] :=
    .other (by decide) (by decide) (.other (by decide) (by decide)
      (.other (by decide) (by decide) .nil))
  exact .literal (.inl rfl) hbody (by decide) .nil

end Expansion

end Photon.Mysql
