import Photon.Postgres.Lexical

/-!
The converter follows the lexical rules. Each rule of the reading is a few turns of
the loop, between states in which no literal is open and the output stands for the
pieces read so far.
-/

namespace Photon.Postgres

open Photon.Sql

variable {V : Type} [Inhabited V]

/-- The loop gets from one state to another, with turns enough left for the rest. -/
def Leads (c next : NamedParamConverter V) : Prop :=
  ∀ turns, c.rest.length ≤ turns →
    ∃ left, next.rest.length ≤ left ∧ convertLoop turns c = convertLoop left next

theorem Leads.refl (c : NamedParamConverter V) : Leads c c :=
  fun turns hturns => ⟨turns, hturns, rfl⟩

theorem Leads.trans {c middle next : NamedParamConverter V} (first : Leads c middle)
    (second : Leads middle next) : Leads c next := by
  intro turns hturns
  obtain ⟨left, hleft, heq⟩ := first turns hturns
  obtain ⟨last, hlast, heq'⟩ := second left hleft
  exact ⟨last, hlast, heq.trans heq'⟩

/-- One turn, which goes forward. -/
theorem Leads.step {c next : NamedParamConverter V} (h : convertStep c = next)
    (hforward : next.rest.length < c.rest.length) : Leads c next := by
  intro turns hturns
  obtain ⟨turns, rfl⟩ : ∃ left, turns = left + 1 := ⟨turns - 1, by omega⟩
  have hne : c.rest ≠ [] := by
    intro hnil
    rw [hnil] at hforward
    exact Nat.not_lt_zero _ hforward
  exact ⟨turns, by omega, by rw [convertLoop, if_neg hne, h]⟩

section Literals

variable {c : NamedParamConverter V} {b : Char} {rest : Text}

section

variable (hsingle : c.inSingleQuote = true) (hdollar : c.inDollarQuote = false)
include hsingle hdollar

theorem step_quote_other (hb : b ≠ '\'') (hrest : c.rest = b :: rest) :
    Leads c { c with out := c.out ++ [b], rest := rest } := by
  refine Leads.step ?_ (by simp [hrest])
  simp [convertStep, handleDollarQuote, handleSingleQuote, copyQuotedByte, NamedParamConverter.copy,
    hsingle, hdollar, hrest, hb]

theorem step_quote_escaped (hrest : c.rest = '\'' :: '\'' :: rest) :
    Leads c { c with out := c.out ++ ['\'', '\''], rest := rest } := by
  refine Leads.step ?_ (by simp [hrest])
  simp [convertStep, handleDollarQuote, handleSingleQuote, NamedParamConverter.copy, hsingle,
    hdollar, hrest]

theorem step_quote_closes (hrest : c.rest = '\'' :: rest) (hend : rest.head? ≠ some '\'') :
    Leads c { c with out := c.out ++ ['\''], rest := rest, inSingleQuote := false } := by
  have hnext : c.rest[1]? ≠ some '\'' := by
    rw [hrest]
    simpa [List.head?_eq_getElem?] using hend
  refine Leads.step ?_ (by simp [hrest])
  simp [convertStep, handleDollarQuote, handleSingleQuote, NamedParamConverter.copy, hsingle,
    hdollar, hnext]
  simp [hrest]

end

/-- The inside of a single-quoted literal is copied. -/
theorem quotedBody_leads {body : Text} (hbody : QuotedBody body) {c : NamedParamConverter V}
    (hsingle : c.inSingleQuote = true) (hdollar : c.inDollarQuote = false)
    (hrest : c.rest = body ++ rest) :
    Leads c { c with out := c.out ++ body, rest := rest } := by
  induction hbody generalizing c with
  | nil =>
    have hsame : { c with out := c.out ++ [], rest := rest } = c := by
      cases c
      simp_all
    rw [hsame]
    exact .refl c
  | @escaped body _ ih =>
    refine (step_quote_escaped hsingle hdollar hrest).trans ?_
    have hmore := ih (c := { c with out := c.out ++ ['\'', '\''], rest := body ++ rest })
      hsingle hdollar rfl
    simpa using hmore
  | @other b body hb _ ih =>
    refine (step_quote_other hsingle hdollar hb hrest).trans ?_
    have hmore := ih (c := { c with out := c.out ++ [b], rest := body ++ rest })
      hsingle hdollar rfl
    simpa using hmore

theorem parseDollarTag_of_isTag {tag : Text} (htag : IsTag tag) (rest : Text) :
    parseDollarTag (tag ++ rest) = some tag := by
  obtain ⟨name, hname, rfl⟩ := htag
  have hdollar : isNamedParamChar '$' = false := by decide
  simp [parseDollarTag, List.dropWhile_append_of_pos hname, List.takeWhile_append_of_pos hname,
    hdollar]

theorem isTag_of_parseDollarTag {text tag : Text} (h : parseDollarTag text = some tag) :
    IsTag tag ∧ tag <+: text := by
  unfold parseDollarTag at h
  split at h
  case h_2 => cases h
  case h_1 rest =>
    split at h
    case h_2 => cases h
    case h_1 more hmore =>
      cases h
      refine ⟨⟨_, fun b hb => List.all_eq_true.mp List.all_takeWhile b hb, rfl⟩, more, ?_⟩
      have hsplit := List.takeWhile_append_dropWhile (p := isNamedParamChar) (l := rest)
      rw [hmore] at hsplit
      simpa using hsplit

section

variable (hsingle : c.inSingleQuote = false) (hdollar : c.inDollarQuote = true)
include hsingle hdollar

theorem step_dollar_closes (htag : IsTag c.dollarTag) (hrest : c.rest = c.dollarTag ++ rest) :
    Leads c { c with
      out := c.out ++ c.dollarTag, rest := rest, inDollarQuote := false, dollarTag := [] } := by
  have hpos := List.length_pos_iff.mpr htag.ne_nil
  have hhead : c.rest.head? = some '$' := by
    obtain ⟨name, -, heq⟩ := htag
    rw [hrest, heq]
    rfl
  refine Leads.step ?_ (by rw [hrest, List.length_append]; dsimp only; omega)
  simp [convertStep, handleDollarQuote, NamedParamConverter.copy, hsingle, hdollar, hhead,
    htag.ne_nil]
  simp [hrest]

theorem step_dollar_other (htag : ¬ c.dollarTag <+: c.rest) (hrest : c.rest = b :: rest) :
    Leads c { c with out := c.out ++ [b], rest := rest } := by
  refine Leads.step ?_ (by simp [hrest])
  simp [convertStep, handleDollarQuote, handleSingleQuote, copyQuotedByte, NamedParamConverter.copy,
    hsingle, hdollar, htag]
  simp [hrest]

end

/-- The inside of a dollar-quoted literal is copied up to the first occurrence of its
tag. -/
theorem dollarBody_leads {body : Text} {c : NamedParamConverter V}
    (hsingle : c.inSingleQuote = false) (hdollar : c.inDollarQuote = true)
    (hrest : c.rest = body ++ rest)
    (htag : ∀ first second, body = first ++ second → second ≠ [] →
      ¬ c.dollarTag <+: second ++ rest) :
    Leads c { c with out := c.out ++ body, rest := rest } := by
  induction body generalizing c with
  | nil =>
    have hsame : { c with out := c.out ++ [], rest := rest } = c := by
      cases c
      simp_all
    rw [hsame]
    exact .refl c
  | cons b body ih =>
    have hhere : ¬ c.dollarTag <+: c.rest := by
      rw [hrest]
      exact htag [] (b :: body) rfl (by simp)
    refine (step_dollar_other hsingle hdollar hhere hrest).trans ?_
    have hmore := ih (c := { c with out := c.out ++ [b], rest := body ++ rest }) hsingle hdollar rfl
      (fun first second hsplit hne => htag (b :: first) second (by rw [hsplit]; rfl) hne)
    simpa using hmore

section

variable (hsingle : c.inSingleQuote = false) (hdollar : c.inDollarQuote = false)
include hsingle hdollar

theorem step_quote_opens (hrest : c.rest = '\'' :: rest) :
    Leads c { c with out := c.out ++ ['\''], rest := rest, inSingleQuote := true } := by
  refine Leads.step ?_ (by simp [hrest])
  simp [convertStep, handleDollarQuote, handleSingleQuote, NamedParamConverter.copy, hsingle,
    hdollar, hrest]

theorem step_dollar_opens {tag : Text} (htag : IsTag tag) (hrest : c.rest = tag ++ rest) :
    Leads c { c with
      out := c.out ++ tag, rest := rest, inDollarQuote := true, dollarTag := tag } := by
  have hparse := parseDollarTag_of_isTag htag rest
  have hpos := List.length_pos_iff.mpr htag.ne_nil
  have hhead : c.rest.head? = some '$' := by
    obtain ⟨name, -, rfl⟩ := htag
    rw [hrest]
    rfl
  refine Leads.step ?_ (by rw [hrest, List.length_append]; dsimp only; omega)
  simp [convertStep, handleDollarQuote, NamedParamConverter.copy, hsingle, hdollar, hhead]
  simp [hrest, hparse]

/-- Outside literals a plain byte is copied. -/
theorem step_plain (hplain : Plain b rest) (hrest : c.rest = b :: rest) :
    Leads c { c with out := c.out ++ [b], rest := rest } := by
  refine Leads.step ?_ (by simp [hrest])
  have hnoDollar : handleDollarQuote c = none := by
    unfold handleDollarQuote
    split
    · rfl
    · rename_i hhead
      have hb : b = '$' := by simpa [hrest, hsingle] using hhead
      have hparse : parseDollarTag c.rest = none := by
        by_contra hsome
        obtain ⟨tag, htag⟩ := Option.ne_none_iff_exists'.mp hsome
        obtain ⟨hisTag, hstarts⟩ := isTag_of_parseDollarTag htag
        exact hplain.dollar hb tag hisTag (hrest ▸ hstarts)
      simp [hdollar, hparse]
  have hnoSingle : handleSingleQuote c = none := by
    simp [handleSingleQuote, hrest, hplain.quote]
  have hnoQuoted : copyQuotedByte c = none := by
    simp [copyQuotedByte, hsingle, hdollar]
  by_cases hb : b = ':'
  · have hnext := hplain.colon hb
    have hcast : c.rest[1]? ≠ some ':' := by
      intro h
      rw [hrest, List.getElem?_cons_succ, ← List.head?_eq_getElem?] at h
      exact (hnext ':' h).1 rfl
    subst hb
    have hhead : c.rest.head? = some ':' := by rw [hrest]; rfl
    have hname : (c.rest.drop 1).takeWhile isNamedParamChar = [] := by
      rw [hrest]
      exact takeWhile_of_head fun next h => (hnext next h).2
    have hnamed : handleNamedParam c = some (c.copy [':']) := by
      rw [handleNamedParam, if_neg (not_not.mpr hhead), copyPostgresCast, if_pos hcast]
      simp only [hname, if_true]
    rw [convertStep, hnoDollar, hnoSingle, hnoQuoted, hnamed]
    simp only [NamedParamConverter.copy, hrest]
    rfl
  · simp [convertStep, hnoDollar, hnoSingle, hnoQuoted, handleNamedParam, NamedParamConverter.copy,
      hrest, hb]

theorem step_cast (hrest : c.rest = ':' :: ':' :: rest) :
    Leads c { c with out := c.out ++ [':', ':'], rest := rest } := by
  refine Leads.step ?_ (by simp [hrest])
  simp [convertStep, handleDollarQuote, handleSingleQuote, copyQuotedByte, handleNamedParam,
    copyPostgresCast, NamedParamConverter.copy, hsingle, hdollar, hrest]

theorem step_param {name : Text} (hname : name ≠ [])
    (hchars : ∀ b ∈ name, isNamedParamChar b = true)
    (hend : ∀ next, rest.head? = some next → isNamedParamChar next = false)
    (hrest : c.rest = ':' :: name ++ rest) :
    Leads c { writeNamedParam c (':' :: name) with rest := rest } := by
  have hcast : c.rest[1]? ≠ some ':' := by
    obtain ⟨first, more, rfl⟩ := List.exists_cons_of_ne_nil hname
    have hfirst := hchars first List.mem_cons_self
    rw [hrest]
    intro h
    obtain rfl : first = ':' := by simpa using h
    exact absurd hfirst (by decide)
  have htake : (c.rest.drop 1).takeWhile isNamedParamChar = name := by
    rw [hrest, List.cons_append, List.drop_one, List.tail_cons,
      List.takeWhile_append_of_pos hchars, takeWhile_of_head hend, List.append_nil]
  have hdrop : c.rest.drop (name.length + 1) = rest := by
    rw [hrest, List.cons_append, List.drop_succ_cons, List.drop_left]
  have hhead : c.rest.head? = some ':' := by
    rw [hrest]
    rfl
  refine Leads.step ?_ (by rw [hrest]; simp)
  simp only [convertStep, handleDollarQuote, handleSingleQuote, copyQuotedByte, handleNamedParam,
    copyPostgresCast, hsingle, hdollar, hhead, htake, hdrop, if_neg hname, if_pos hcast]
  simp

end

end Literals

def orderedValues (lookup : Text → Option V) (tokens : List Text) : List V :=
  (firstOccurrences tokens).map fun token => (lookup token).getD default

def converted (params : Params V) (done : List Piece) (rest : Text) : NamedParamConverter V where
  rest := rest
  params := params
  out := render (numbering (tokensOf done)) done
  ordered := orderedValues params.lookup (tokensOf done)
  seen := givenNumber (tokensOf done)
  argPos := (firstOccurrences (tokensOf done)).length + 1
  inSingleQuote := false
  inDollarQuote := false
  dollarTag := []

/-- A piece without a token is only written. -/
theorem converted_quiet (params : Params V) {done : List Piece} {piece : Piece}
    (h : tokensOf (done ++ [piece]) = tokensOf done) {text : Text}
    (htext : ∀ number, renderPiece number piece = text) (old rest : Text) :
    converted params (done ++ [piece]) rest =
      { converted params done old with
        out := (converted params done old).out ++ text, rest := rest } := by
  simp only [converted, h, render_append]
  simp [render, htext]

theorem tokensOf_append (first second : List Piece) :
    tokensOf (first ++ second) = tokensOf first ++ tokensOf second := List.filterMap_append

/-- A parameter is written with its number, which it gets when it is new. -/
theorem converted_param (params : Params V) (done : List Piece) (name old rest : Text) :
    converted params (done ++ [.param name]) rest =
      { writeNamedParam (converted params done old) (':' :: name) with rest := rest } := by
  have htokens : tokensOf (done ++ [.param name]) = tokensOf done ++ [':' :: name] := by
    rw [tokensOf_append]
    rfl
  have hrender : render (numbering (tokensOf done ++ [':' :: name])) done =
      render (numbering (tokensOf done)) done :=
    render_congr fun token htoken => numbering_append htoken _
  have hout : render (numbering (tokensOf done ++ [':' :: name])) (done ++ [.param name]) =
      render (numbering (tokensOf done)) done ++
        '$' :: decimal (numbering (tokensOf done ++ [':' :: name]) (':' :: name)) := by
    rw [render_append, hrender]
    simp [render, renderPiece]
  have hfirst := firstOccurrences_snoc (tokensOf done) (':' :: name)
  by_cases hseen : ':' :: name ∈ firstOccurrences (tokensOf done)
  · rw [if_pos hseen] at hfirst
    have hnumber := numbering_seen hseen
    have hgiven : givenNumber (tokensOf done ++ [':' :: name]) = givenNumber (tokensOf done) := by
      funext token
      rw [givenNumber, hfirst, hnumber, givenNumber]
    have hpos : givenNumber (tokensOf done) (':' :: name) =
        some (numbering (tokensOf done) (':' :: name)) := if_pos hseen
    rw [hnumber] at hout
    simp [converted, htokens, hnumber, hout, orderedValues, writeNamedParam, hpos, hgiven, hfirst]
  · rw [if_neg hseen] at hfirst
    have hgiven := givenNumber_new hseen
    have hpos : givenNumber (tokensOf done) (':' :: name) = none := if_neg hseen
    rw [numbering_new hseen] at hout
    simp only [converted, htokens, hout, orderedValues, writeNamedParam, hpos, hgiven, hfirst,
      List.map_append, List.length_append]
    rfl

/-- The loop runs to the end of the query, with this output and these values. -/
def Finishes (c : NamedParamConverter V) (out : Text) (ordered : List V) : Prop :=
  ∀ turns, c.rest.length ≤ turns → (convertLoop turns c).out = out ∧
    (convertLoop turns c).ordered = ordered ∧ (convertLoop turns c).rest = []

theorem Leads.finishes {c next : NamedParamConverter V} (h : Leads c next) {out : Text}
    {ordered : List V} (hnext : Finishes next out ordered) : Finishes c out ordered := by
  intro turns hturns
  obtain ⟨left, hleft, heq⟩ := h turns hturns
  rw [heq]
  exact hnext left hleft

theorem finishes_of_rest_nil {c : NamedParamConverter V} (h : c.rest = []) :
    Finishes c c.out c.ordered := by
  intro turns _
  cases turns with
  | zero => exact ⟨rfl, rfl, h⟩
  | succ turns =>
    rw [convertLoop, if_pos h]
    exact ⟨rfl, rfl, h⟩

theorem tokensOf_quiet (done : List Piece) (piece : Piece) (h : tokensOf [piece] = []) :
    tokensOf (done ++ [piece]) = tokensOf done := by
  rw [tokensOf_append, h, List.append_nil]

/-- A single-quoted literal, closed or open. -/
theorem quoted_leads {body : Text} (hbody : QuotedBody body) {c : NamedParamConverter V}
    (hsingle : c.inSingleQuote = false) (hdollar : c.inDollarQuote = false) (rest : Text)
    (hrest : c.rest = '\'' :: body ++ rest) :
    Leads c { c with out := c.out ++ '\'' :: body, rest := rest, inSingleQuote := true } := by
  refine (step_quote_opens hsingle hdollar hrest).trans ?_
  have hmore := quotedBody_leads hbody
    (c := { c with out := c.out ++ ['\''], rest := body ++ rest, inSingleQuote := true })
    rfl hdollar rfl
  simpa using hmore

/-- A dollar-quoted literal, closed or open. -/
theorem dollar_leads {tag : Text} (htag : IsTag tag) (body rest : Text) {c : NamedParamConverter V}
    (hsingle : c.inSingleQuote = false) (hdollar : c.inDollarQuote = false)
    (hrest : c.rest = tag ++ (body ++ rest))
    (hfirst : ∀ first second, body = first ++ second → second ≠ [] → ¬ tag <+: second ++ rest) :
    Leads c { c with
      out := c.out ++ (tag ++ body), rest := rest, inDollarQuote := true, dollarTag := tag } := by
  refine (step_dollar_opens hsingle hdollar htag hrest).trans ?_
  have hmore := dollarBody_leads
    (c := { c with
      out := c.out ++ tag, rest := body ++ rest, inDollarQuote := true, dollarTag := tag })
    hsingle rfl rfl hfirst
  simpa using hmore

/-- Before the first occurrence of the tag there is none. -/
theorem not_isPrefix_of_first {tag body rest : Text} (h : ¬ tag <:+: body ++ tag.dropLast)
    {first second : Text} (hsplit : body = first ++ second) (hne : second ≠ []) :
    ¬ tag <+: second ++ (tag ++ rest) := by
  intro hstarts
  apply h
  have hlong : tag.length ≤ (second ++ tag.dropLast).length := by
    have hpos := List.length_pos_iff.mpr hne
    rw [List.length_append, List.length_dropLast]
    omega
  have hstart : second ++ tag.dropLast <+: second ++ (tag ++ rest) :=
    (List.prefix_append_right_inj second).mpr
      ((List.dropLast_prefix tag).trans (List.prefix_append tag rest))
  have hinside := List.prefix_of_prefix_length_le hstarts hstart hlong
  rw [hsplit, List.append_assoc]
  exact hinside.isInfix.trans (List.suffix_append first _).isInfix

/-- A piece without a token that the loop only copies. -/
theorem quiet_finishes {params : Params V} {done pieces : List Piece} {piece : Piece}
    {text copied rest : Text} (hquiet : tokensOf [piece] = [])
    (htext : ∀ number, renderPiece number piece = copied)
    (hleads : Leads (converted params done text) { converted params done text with
      out := (converted params done text).out ++ copied, rest := rest })
    (hrest : Finishes (converted params (done ++ [piece]) rest)
      (render (numbering (tokensOf (done ++ [piece] ++ pieces))) (done ++ [piece] ++ pieces))
      (orderedValues params.lookup (tokensOf (done ++ [piece] ++ pieces)))) :
    Finishes (converted params done text)
      (render (numbering (tokensOf (done ++ piece :: pieces))) (done ++ piece :: pieces))
      (orderedValues params.lookup (tokensOf (done ++ piece :: pieces))) := by
  rw [converted_quiet params (tokensOf_quiet done piece hquiet) htext text rest, List.append_assoc,
    List.singleton_append] at hrest
  exact hleads.finishes hrest

/-- An open literal is copied to the end. -/
theorem open_finishes {params : Params V} {done : List Piece} {text : Text}
    {last : NamedParamConverter V} (hleads : Leads (converted params done text) last)
    (hrest : last.rest = []) (hout : last.out = (converted params done text).out ++ text)
    (hordered : last.ordered = (converted params done text).ordered) :
    Finishes (converted params done text)
      (render (numbering (tokensOf (done ++ [.openLiteral text]))) (done ++ [.openLiteral text]))
      (orderedValues params.lookup (tokensOf (done ++ [.openLiteral text]))) := by
  have hdone := converted_quiet params (tokensOf_quiet done (.openLiteral text) rfl)
    (fun _ => rfl) text []
  have hrender : render (numbering (tokensOf (done ++ [.openLiteral text])))
      (done ++ [.openLiteral text]) = (converted params done text).out ++ text :=
    congrArg NamedParamConverter.out hdone
  have hvalues : orderedValues params.lookup (tokensOf (done ++ [.openLiteral text])) =
      (converted params done text).ordered :=
    congrArg NamedParamConverter.ordered hdone
  rw [hrender, hvalues, ← hout, ← hordered]
  exact hleads.finishes (finishes_of_rest_nil hrest)

/-- The converter turns a reading into the text and the values it stands for. -/
theorem reads_finishes (params : Params V) {text : Text} {pieces : List Piece}
    (h : Reads text pieces) (done : List Piece) :
    Finishes (converted params done text)
      (render (numbering (tokensOf (done ++ pieces))) (done ++ pieces))
      (orderedValues params.lookup (tokensOf (done ++ pieces))) := by
  induction h generalizing done with
  | nil =>
    rw [List.append_nil]
    exact finishes_of_rest_nil rfl
  | @quoted body rest pieces hbody hend _ ih =>
    have hliteral := (quoted_leads hbody (c := converted params done _) rfl rfl
      ('\'' :: rest) rfl).trans (step_quote_closes rfl rfl rfl hend)
    rw [List.append_assoc] at hliteral
    exact quiet_finishes rfl (fun _ => rfl) hliteral (ih _)
  | @openQuoted body hbody =>
    refine open_finishes (quoted_leads hbody rfl rfl [] ?_) rfl rfl rfl
    rw [List.append_nil]
    rfl
  | @dollar tag body rest pieces htag hbody _ ih =>
    have hliteral := (dollar_leads htag body (tag ++ rest)
      (c := converted params done (tag ++ body ++ tag ++ rest)) rfl rfl (by simp [converted])
      (fun _ _ hsplit hne => not_isPrefix_of_first hbody hsplit hne)).trans
      (step_dollar_closes rfl rfl htag rfl)
    rw [List.append_assoc (converted params done (tag ++ body ++ tag ++ rest)).out] at hliteral
    exact quiet_finishes rfl (fun _ => rfl) hliteral (ih _)
  | @openDollar tag body htag hbody =>
    refine open_finishes (dollar_leads htag body [] rfl rfl ?_ ?_) rfl rfl rfl
    · rw [List.append_nil]
      rfl
    · intro first second hsplit _ hstarts
      apply hbody
      rw [List.append_nil] at hstarts
      rw [hsplit]
      exact hstarts.isInfix.trans (List.suffix_append first second).isInfix
  | @cast rest pieces _ ih =>
    exact quiet_finishes rfl (fun _ => rfl) (step_cast rfl rfl rfl) (ih _)
  | @param name rest pieces hname hchars hend _ ih =>
    have hstep := step_param (c := converted params done (':' :: name ++ rest)) rfl rfl hname hchars
      hend rfl
    rw [← converted_param] at hstep
    have hnext := ih (done ++ [.param name])
    rw [List.append_assoc, List.singleton_append] at hnext
    exact hstep.finishes hnext
  | @byte b rest pieces hplain _ ih =>
    exact quiet_finishes rfl (fun _ => rfl) (step_plain rfl rfl hplain rfl) (ih _)

/-- The whole run, for a query with a reading. -/
theorem convert_reads (params : List (Params V)) {query : Text} {pieces : List Piece}
    (h : Reads query pieces) :
    convertQueryAndNamedParams query params =
      (render (numbering (tokensOf pieces)) pieces,
        orderedValues (lastValue params) (tokensOf pieces)) ∧
    (convert (newNamedParamConverter query (mergeNamedParams params))).rest = [] := by
  have hstart : newNamedParamConverter query (mergeNamedParams params) =
      converted (mergeNamedParams params) [] query := rfl
  have hlookup : (mergeNamedParams params).lookup = lastValue params :=
    funext (lookup_mergeNamedParams params)
  obtain ⟨hout, hordered, hrest⟩ :=
    reads_finishes (mergeNamedParams params) h [] query.length le_rfl
  rw [List.nil_append, hlookup] at hordered
  exact ⟨Prod.ext hout hordered, hrest⟩

/-- The converter reads every query to its end, and its output is the query with its
parameters replaced, whichever way the query is read. -/
theorem convert_follows_lexical_rules (query : Text) (params : List (Params V)) :
    (convert (newNamedParamConverter query (mergeNamedParams params))).rest = [] ∧
    (∃ pieces, Reads query pieces) ∧
    ∀ pieces, Reads query pieces → convertQueryAndNamedParams query params =
      (render (numbering (tokensOf pieces)) pieces,
        orderedValues (lastValue params) (tokensOf pieces)) := by
  obtain ⟨pieces, hpieces⟩ := exists_reads query
  exact ⟨(convert_reads params hpieces).2, ⟨pieces, hpieces⟩,
    fun _ hother => (convert_reads params hother).1⟩

example : convertQueryAndNamedParams "a=:x::int or b=':y' or c=:z+:x or d=$t$:y$t$".toList
    [(∅ : Params Nat).insert ":x".toList 7] =
      ("a=$1::int or b=':y' or c=$2+$1 or d=$t$:y$t$".toList, [7, 0]) := by
  decide +kernel

end Photon.Postgres
