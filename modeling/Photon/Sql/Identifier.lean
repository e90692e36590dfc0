import Photon.Lib.Text
import Photon.Sql.NamedParams

/-!
The identifiers that the statement builders splice into their queries. `safeIdent` and
`safeMySQLIdent` either refuse an identifier or put each of its segments between
quotes, and the quoted text is read back as exactly these segments, whatever follows
it in the statement.
-/

namespace Photon.Sql

open Photon.Lib

structure Errorf where
  format : String
  args : List Runes
deriving DecidableEq

def quoteParts (quote : Char) (valid : Runes → Bool) (ident : Runes) :
    List Runes → Except Errorf (List Runes)
  | [] => .ok []
  | part :: parts =>
    if valid part then do
      let quoted ← quoteParts quote valid ident parts
      return (quote :: part ++ [quote]) :: quoted
    else .error ⟨"invalid identifier %q", [ident]⟩

/-- The runes that `safeIdent` lets pass. -/
def isIdentRune (r : Char) : Bool :=
  inRange 'a' 'z' r || inRange 'A' 'Z' r || inRange '0' '9' r || r == '_' || r == '.'

def safeIdent (ident : Runes) : Except Errorf Runes :=
  let ident := Runes.trimSpace ident
  if ident = [] then .error ⟨"empty identifier", []⟩
  else if ident.any fun r => !isIdentRune r then .error ⟨"invalid identifier %q", [ident]⟩
  else do
    let parts ← quoteParts '"' (fun p => p ≠ []) ident (ident.splitOn '.')
    return ['.'].intercalate parts

/-- The match of `^[A-Za-z_][A-Za-z0-9_]*$`. -/
def mysqlIdentifierRegexp : Runes → Bool
  | [] => false
  | first :: rest =>
    (inRange 'A' 'Z' first || inRange 'a' 'z' first || first == '_') && rest.all isNamedParamChar

def backquote : Char := Char.ofNat 96

def safeMySQLIdent (ident : Runes) : Except Errorf Runes :=
  let ident := Runes.trimSpace ident
  if ident = [] then .error ⟨"empty identifier", []⟩
  else do
    let parts ← quoteParts backquote mysqlIdentifierRegexp ident (ident.splitOn '.')
    return ['.'].intercalate parts

/-- A name behind its opening quote, up to the quote that closes it. A quote in the
name is doubled. -/
inductive ReadsName (quote : Char) : Runes → Runes → Runes → Prop
  | closes {rest : Runes} (h : rest.head? ≠ some quote) : ReadsName quote (quote :: rest) [] rest
  | doubled {text name rest : Runes} (h : ReadsName quote text name rest) :
      ReadsName quote (quote :: quote :: text) (quote :: name) rest
  | other {c : Char} {text name rest : Runes} (hc : c ≠ quote)
      (h : ReadsName quote text name rest) :
      ReadsName quote (c :: text) (c :: name) rest

/-- A quoted identifier at the beginning of a text, with its segments and the text
behind it. It goes on as long as a dot follows. -/
inductive ReadsIdent (quote : Char) : Runes → List Runes → Runes → Prop
  | last {text name rest : Runes} (hname : ReadsName quote text name rest) (hne : name ≠ [])
      (hend : rest.head? ≠ some '.') : ReadsIdent quote (quote :: text) [name] rest
  | qualified {text name more : Runes} {names : List Runes} {rest : Runes}
      (hname : ReadsName quote text name ('.' :: more)) (hne : name ≠ [])
      (h : ReadsIdent quote more names rest) : ReadsIdent quote (quote :: text) (name :: names) rest

section Grammar

variable {quote : Char}

theorem ReadsName.unique {text name rest other more : Runes} (h : ReadsName quote text name rest)
    (h' : ReadsName quote text other more) : name = other ∧ rest = more := by
  induction h generalizing other with
  | @closes rest hend =>
    cases h' with
    | closes => exact ⟨rfl, rfl⟩
    | doubled => exact absurd rfl hend
    | other hc => exact absurd rfl hc
  | doubled _ ih =>
    cases h' with
    | closes hend => exact absurd rfl hend
    | doubled h' =>
      obtain ⟨rfl, rfl⟩ := ih h'
      exact ⟨rfl, rfl⟩
    | other hc => exact absurd rfl hc
  | other hc _ ih =>
    cases h' with
    | closes | doubled => exact absurd rfl hc
    | other _ h' =>
      obtain ⟨rfl, rfl⟩ := ih h'
      exact ⟨rfl, rfl⟩

theorem ReadsIdent.unique {text rest more : Runes} {names others : List Runes}
    (h : ReadsIdent quote text names rest) (h' : ReadsIdent quote text others more) :
    names = others ∧ rest = more := by
  induction h generalizing others with
  | last hname _ hend =>
    cases h' with
    | last hname' =>
      obtain ⟨rfl, rfl⟩ := hname.unique hname'
      exact ⟨rfl, rfl⟩
    | qualified hname' =>
      obtain ⟨-, rfl⟩ := hname.unique hname'
      exact absurd rfl hend
  | qualified hname _ _ ih =>
    cases h' with
    | last hname' _ hend =>
      obtain ⟨-, rfl⟩ := hname.unique hname'
      exact absurd rfl hend
    | qualified hname' _ h' =>
      obtain ⟨rfl, hmore⟩ := hname.unique hname'
      cases hmore
      obtain ⟨rfl, rfl⟩ := ih h'
      exact ⟨rfl, rfl⟩

theorem readsName_of_notMem {name rest : Runes} (hname : quote ∉ name)
    (hrest : rest.head? ≠ some quote) : ReadsName quote (name ++ quote :: rest) name rest := by
  induction name with
  | nil => exact .closes hrest
  | cons c name ih =>
    have hc : c ≠ quote := fun h => hname (h ▸ List.mem_cons_self)
    exact .other hc (ih fun h => hname (List.mem_cons_of_mem c h))

/-- Segments without quotes, each between quotes, are read back. -/
theorem readsIdent_intercalate {segments : List Runes} (hne : segments ≠ [])
    (hsegments : ∀ segment ∈ segments, segment ≠ [] ∧ quote ∉ segment) (hdot : quote ≠ '.')
    {rest : Runes} (hquote : rest.head? ≠ some quote) (hend : rest.head? ≠ some '.') :
    ReadsIdent quote
      (['.'].intercalate (segments.map fun s => quote :: s ++ [quote]) ++ rest) segments rest := by
  induction segments with
  | nil => exact absurd rfl hne
  | cons segment segments ih =>
    obtain ⟨⟨hsegment, hfree⟩, hmore⟩ := List.forall_mem_cons.mp hsegments
    cases segments with
    | nil =>
      rw [List.map_singleton, List.intercalate_singleton, List.cons_append, List.cons_append,
        List.append_assoc]
      exact .last (readsName_of_notMem hfree hquote) hsegment hend
    | cons next segments =>
      have htail := ih (by simp) hmore
      rw [List.map_cons] at htail ⊢
      rw [List.map_cons, List.intercalate_cons_cons]
      simp only [List.cons_append, List.append_assoc]
      refine .qualified (readsName_of_notMem hfree ?_) hsegment htail
      simpa using hdot.symm

end Grammar

section Quoting

theorem quoteParts_eq (quote : Char) (valid : Runes → Bool) (ident : Runes) (parts : List Runes) :
    quoteParts quote valid ident parts =
      if parts.all valid then .ok (parts.map fun p => quote :: p ++ [quote])
      else .error ⟨"invalid identifier %q", [ident]⟩ := by
  induction parts with
  | nil => rfl
  | cons part parts ih =>
    rw [quoteParts, ih, List.all_cons]
    cases valid part <;> cases parts.all valid <;> rfl

/-- What is in a segment is in the identifier, and no dot. -/
theorem of_mem_segment {text segment : Runes} (hsegment : segment ∈ text.splitOn '.') {r : Char}
    (hr : r ∈ segment) : r ∈ text ∧ r ≠ '.' := by
  induction text generalizing segment r with
  | nil =>
    rw [List.mem_singleton.mp hsegment] at hr
    cases hr
  | cons c text ih =>
    rw [List.splitOn, List.splitOnP_cons_eq_if_modifyHead] at hsegment
    obtain ⟨first, segments, hsplit⟩ :=
      List.exists_cons_of_ne_nil (List.splitOnP_ne_nil (· == '.') text)
    have ih' : ∀ segment ∈ first :: segments, ∀ r ∈ segment, r ∈ text ∧ r ≠ '.' :=
      fun segment hmem r hr => ih (by rw [List.splitOn, hsplit]; exact hmem) hr
    rw [hsplit] at hsegment
    split at hsegment
    · rcases List.mem_cons.mp hsegment with rfl | hsegment
      · cases hr
      · exact (ih' segment hsegment r hr).imp_left (List.mem_cons_of_mem c)
    · rename_i hc
      rcases List.mem_cons.mp hsegment with rfl | hsegment
      · rcases List.mem_cons.mp hr with rfl | hr
        · exact ⟨List.mem_cons_self, by simpa using hc⟩
        · exact (ih' first List.mem_cons_self r hr).imp_left (List.mem_cons_of_mem c)
      · exact (ih' segment (List.mem_cons_of_mem _ hsegment) r hr).imp_left
          (List.mem_cons_of_mem c)

def segmentsOf (ident : Runes) : List Runes := (Runes.trimSpace ident).splitOn '.'

theorem isNamedParamChar_of_isIdentRune {r : Char} (h : isIdentRune r = true) (hdot : r ≠ '.') :
    isNamedParamChar r = true := by
  simpa [isIdentRune, isNamedParamChar, hdot, or_assoc] using h

def Allowed (segment : Runes) : Prop :=
  segment ≠ [] ∧ ∀ r ∈ segment, isNamedParamChar r = true

theorem safeIdent_ok {ident out : Runes} (h : safeIdent ident = .ok out) :
    (∀ segment ∈ segmentsOf ident, Allowed segment) ∧
      out = ['.'].intercalate ((segmentsOf ident).map fun s => '"' :: s ++ ['"']) := by
  simp only [safeIdent, quoteParts_eq] at h
  split at h
  · cases h
  · split at h
    · cases h
    · rename_i hrunes
      split at h
      · rename_i hparts
        cases h
        refine ⟨fun segment hsegment => ⟨?_, fun r hr => ?_⟩, rfl⟩
        · simpa using List.all_eq_true.mp hparts segment hsegment
        · obtain ⟨hmem, hdot⟩ := of_mem_segment hsegment hr
          refine isNamedParamChar_of_isIdentRune ?_ hdot
          by_contra hr
          exact hrunes (List.any_eq_true.mpr ⟨r, hmem, by simpa using hr⟩)
      · cases h

theorem allowed_of_mysqlIdentifierRegexp {part : Runes} (h : mysqlIdentifierRegexp part = true) :
    Allowed part := by
  cases part with
  | nil => cases h
  | cons first rest =>
    obtain ⟨hfirst, hrest⟩ := Bool.and_eq_true_iff.mp h
    refine ⟨List.cons_ne_nil first rest, List.forall_mem_cons.mpr ⟨?_, List.all_eq_true.mp hrest⟩⟩
    have hcases : (inRange 'A' 'Z' first = true ∨ inRange 'a' 'z' first = true) ∨ first = '_' := by
      simpa using hfirst
    rcases hcases with (h | h) | h <;> simp [isNamedParamChar, h]

theorem safeMySQLIdent_ok {ident out : Runes} (h : safeMySQLIdent ident = .ok out) :
    (∀ segment ∈ segmentsOf ident, Allowed segment) ∧
      out = ['.'].intercalate ((segmentsOf ident).map fun s => backquote :: s ++ [backquote]) := by
  simp only [safeMySQLIdent, quoteParts_eq] at h
  split at h
  · cases h
  · split at h
    · rename_i hparts
      cases h
      exact ⟨fun segment hsegment =>
        allowed_of_mysqlIdentifierRegexp (List.all_eq_true.mp hparts segment hsegment), rfl⟩
    · cases h

/-- What is returned is read as one identifier with the segments of the input, up to
whatever follows it, and an input with a segment that is not allowed is refused. -/
def QuotesSafely (quote : Char) (quoter : Runes → Except Errorf Runes) : Prop :=
  ∀ ident,
    (∀ out, quoter ident = .ok out →
      (∀ segment ∈ segmentsOf ident, segment ≠ []) ∧
      ∀ rest, rest.head? ≠ some quote → rest.head? ≠ some '.' →
        ReadsIdent quote (out ++ rest) (segmentsOf ident) rest ∧
        ∀ names more, ReadsIdent quote (out ++ rest) names more →
          names = segmentsOf ident ∧ more = rest) ∧
    ∀ segment ∈ segmentsOf ident, (segment = [] ∨ ∃ r ∈ segment, isNamedParamChar r = false) →
      ∃ e, quoter ident = .error e

theorem quotesSafely_of {quote : Char} {quoter : Runes → Except Errorf Runes}
    (hquote : isNamedParamChar quote = false) (hdot : quote ≠ '.')
    (hok : ∀ ident out, quoter ident = .ok out →
      (∀ segment ∈ segmentsOf ident, Allowed segment) ∧
        out = ['.'].intercalate ((segmentsOf ident).map fun s => quote :: s ++ [quote])) :
    QuotesSafely quote quoter := by
  intro ident
  constructor
  · intro out hout
    obtain ⟨hallowed, rfl⟩ := hok ident out hout
    refine ⟨fun segment hsegment => (hallowed segment hsegment).1, fun rest hrest hend => ?_⟩
    have hfree : ∀ segment ∈ segmentsOf ident, segment ≠ [] ∧ quote ∉ segment := by
      intro segment hsegment
      obtain ⟨hne, hchars⟩ := hallowed segment hsegment
      refine ⟨hne, fun hmem => ?_⟩
      rw [hchars quote hmem] at hquote
      cases hquote
    have hreads := readsIdent_intercalate (List.splitOn_ne_nil _ _) hfree hdot hrest hend
    exact ⟨hreads, fun names more hother => hother.unique hreads⟩
  · intro segment hsegment hbad
    cases hresult : quoter ident with
    | error e => exact ⟨e, rfl⟩
    | ok out =>
      obtain ⟨hne, hchars⟩ := (hok ident out hresult).1 segment hsegment
      rcases hbad with hnil | ⟨r, hr, hfalse⟩
      · exact absurd hnil hne
      · rw [hchars r hr] at hfalse
        cases hfalse

/-- Both helpers quote safely. -/
theorem identifiers_quoted_safely :
    QuotesSafely '"' safeIdent ∧ QuotesSafely backquote safeMySQLIdent :=
  ⟨quotesSafely_of (by decide) (by decide) fun _ _ => safeIdent_ok,
    quotesSafely_of (by decide) (by decide) fun _ _ => safeMySQLIdent_ok⟩

example : safeIdent " public.tbl\n".toList = .ok "\"public\".\"tbl\"".toList := by decide

end Quoting

end Photon.Sql
