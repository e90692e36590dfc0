import Photon.Postgres.Conversion
import Photon.Mysql.Conversion

/-!
Queries with several generated IN clauses, converted with all the generated maps. The
names that the clauses generate share one namespace: a name is the column followed by
a decimal index, and the name `:a11` comes from column `a` as well as from column
`a1`. The converters bind every clause to its values if and only if names that
coincide stand for equal values.
-/

namespace Photon.Sql

/-- The lexical rules of a dialect, as far as a generated clause depends on them. -/
structure Dialect (P : Type) where
  Reads : Text → List P → Prop
  param : Text → P
  byte : Char → P
  /-- A literal without end. -/
  openLiteral : Text → P
  token : P → Option Text
  /-- What the converter asks of the text around the clauses. -/
  Fits : Text → List P → Prop
  token_param : ∀ name, token (param name) = some (':' :: name)
  token_byte : ∀ b, token (byte b) = none
  reads_param : ∀ {name rest : Text} {pieces : List P}, name ≠ [] →
    (∀ c ∈ name, isNamedParamChar c = true) →
    (∀ next, rest.head? = some next → isNamedParamChar next = false) → Reads rest pieces →
    Reads (':' :: name ++ rest) (param name :: pieces)
  reads_mark : ∀ {rest : Text} {pieces : List P}, ∀ mark ∈ ['(', ')', ','],
    Reads rest pieces → Reads (mark :: rest) (byte mark :: pieces)
  reads_append : ∀ {text tail : Text} {pieces more : List P}, Reads text pieces →
    (∀ text, openLiteral text ∉ pieces) → Reads ('(' :: tail) more →
    Reads (text ++ '(' :: tail) (pieces ++ more)

variable {P V : Type}

structure Fragment (d : Dialect P) where
  text : Text
  pieces : List P
  reads : d.Reads text pieces
  fits : d.Fits text pieces

/-- A text such as `… AND a IN `, with the column and the values of the clause that
stands behind it in parentheses. -/
structure Segment (d : Dialect P) (V : Type) extends Fragment d where
  closed : ∀ text, d.openLiteral text ∉ pieces
  column : Text
  named : ∀ c ∈ column, isNamedParamChar c = true
  values : List V

def Segment.clause {d : Dialect P} (s : Segment d V) : Text × List V := (s.column, s.values)

def placed {S : Type} (text clause : S → Text) (segments : List S) : Text :=
  segments.flatMap fun s => text s ++ '(' :: clause s ++ [')']

def inQuery {d : Dialect P} (helper : Text → List V → Text × Params V)
    (segments : List (Segment d V)) (last : Text) : Text :=
  placed (fun s => s.text) (fun s => (helper s.column s.values).1) segments ++ last

def inParams {d : Dialect P} (helper : Text → List V → Text × Params V)
    (segments : List (Segment d V)) : List (Params V) :=
  segments.map fun s => (helper s.column s.values).2

def commaSeparated (count : Nat) (item : Nat → Text) : Text :=
  [','].intercalate ((List.range count).map item)

def NamesAgree (clauses : List (Text × List V)) : Prop :=
  ∀ first ∈ clauses, ∀ second ∈ clauses, ∀ i j v w,
    first.2[i]? = some v → second.2[j]? = some w →
    first.1 ++ decimal (i + 1) = second.1 ++ decimal (j + 1) → v = w

section Clause

theorem decimal_named {n : Nat} : ∀ c ∈ decimal n, isNamedParamChar c = true := by
  intro c hc
  have hdigit : c.isDigit = true := Nat.isDigit_of_mem_toDigits (by norm_num) (by norm_num) hc
  have hrange : inRange '0' '9' c = true := by
    simpa [inRange, Char.isDigit, UInt32.le_iff_toNat_le] using hdigit
  simp [isNamedParamChar, hrange]

theorem flatMap_comma (item : Text) (items : List Text) :
    (item :: items).flatMap (· ++ [',']) = [','].intercalate (item :: items) ++ [','] := by
  induction items generalizing item with
  | nil => simp
  | cons next items ih =>
    rw [List.flatMap_cons, ih, List.intercalate_cons_cons]
    simp

theorem trimSuffix_flatMap_comma (items : List Text) :
    trimSuffix (items.flatMap (· ++ [','])) [','] = [','].intercalate items := by
  cases items with
  | nil => rfl
  | cons item items =>
    rw [flatMap_comma, trimSuffix, if_pos (by simp)]
    simp

/-- The text of a clause. -/
theorem parameterizedInClause_text (column : Text) (values : List V) :
    (parameterizedInClause column values).1 =
      commaSeparated values.length (inClauseKey column) := by
  have hkeys : (values.zipIdx.map fun p => inClauseKey column p.2) =
      (List.range values.length).map (inClauseKey column) := by
    rw [List.range_eq_range', ← List.zipIdx_map_snd 0 values, List.map_map]
    rfl
  rw [commaSeparated, ← hkeys, ← trimSuffix_flatMap_comma, List.flatMap_map]
  simp only [parameterizedInClause, List.flatMap_map]

/-- The map of a clause. -/
theorem lookup_parameterizedInClause (column : Text) (values : List V) (token : Text) (v : V) :
    (parameterizedInClause column values).2.lookup token = some v ↔
      ∃ i, values[i]? = some v ∧ inClauseKey column i = token := by
  let entries : List (Sigma fun _ : Text => V) :=
    values.zipIdx.map fun p => ⟨inClauseKey column p.2, p.1⟩
  have hmap : (parameterizedInClause column values).2 =
      entries.foldl (fun all e => all.insert e.1 e.2) ∅ := by
    simp only [parameterizedInClause, entries, List.foldl_map]
  have hkeys : entries.NodupKeys := by
    rw [List.nodupKeys_iff_pairwise, List.pairwise_map, List.pairwise_iff_getElem]
    intro i j hi hj hij hsame
    have hindex := decimal_inj (@List.append_cancel_left _ (':' :: column) _ _ hsame)
    simp only [List.getElem_zipIdx] at hindex
    omega
  rw [hmap, lookup_insert_all entries ∅ hkeys, AList.lookup_empty, Option.or_none,
    ← Option.mem_def, List.mem_dlookup_iff hkeys]
  constructor
  · intro hmem
    obtain ⟨⟨w, i⟩, hvalue, heq⟩ := List.mem_map.mp hmem
    cases heq
    exact ⟨i, List.mem_zipIdx_iff_getElem?.mp hvalue, rfl⟩
  · rintro ⟨i, hvalue, rfl⟩
    exact List.mem_map.mpr ⟨(v, i), List.mem_zipIdx_iff_getElem?.mpr hvalue, rfl⟩

theorem lastValue_agree_iff [Inhabited V] (clauses : List (Text × List V)) :
    (∀ clause ∈ clauses, ∀ i v, clause.2[i]? = some v →
      (lastValue (clauses.map fun c => (parameterizedInClause c.1 c.2).2)
        (inClauseKey clause.1 i)).getD default = v) ↔ NamesAgree clauses := by
  constructor
  · intro hbound first hfirst second hsecond i j v w hv hw hname
    have hkey : inClauseKey first.1 i = inClauseKey second.1 j := congrArg (':' :: ·) hname
    rw [← hbound first hfirst i v hv, hkey, hbound second hsecond j w hw]
  · intro hagree clause hclause i v hv
    have hdefined : ((parameterizedInClause clause.1 clause.2).2.lookup
        (inClauseKey clause.1 i)).isSome = true := by
      rw [(lookup_parameterizedInClause _ _ _ v).mpr ⟨i, hv, rfl⟩]
      rfl
    have hsome : (lastValue (clauses.map fun c => (parameterizedInClause c.1 c.2).2)
        (inClauseKey clause.1 i)).isSome = true :=
      List.findSome?_isSome_iff.mpr
        ⟨_, List.mem_reverse.mpr (List.mem_map_of_mem hclause), hdefined⟩
    obtain ⟨w, hw⟩ := Option.isSome_iff_exists.mp hsome
    obtain ⟨mp, hmp, hlookup⟩ := List.exists_of_findSome?_eq_some hw
    obtain ⟨other, hother, rfl⟩ := List.mem_map.mp (List.mem_reverse.mp hmp)
    obtain ⟨j, hj, hkey⟩ := (lookup_parameterizedInClause _ _ _ w).mp hlookup
    rw [hw]
    exact hagree other hother clause hclause j i w v hj hv (List.cons.inj hkey).2

end Clause

variable {rest : Text}

section Readings

variable {d : Dialect P}

def clausePieces (d : Dialect P) (column : Text) (count : Nat) : List P :=
  ((List.range count).map fun i => d.param (column ++ decimal (i + 1))).intersperse (d.byte ',')

def queryPieces (segments : List (Segment d V)) (last : List P) : List P :=
  (segments.flatMap fun s =>
    s.pieces ++ d.byte '(' :: clausePieces d s.column s.values.length ++ [d.byte ')']) ++ last

theorem reads_names (names : List Text)
    (hnames : ∀ name ∈ names, name ≠ [] ∧ ∀ c ∈ name, isNamedParamChar c = true) {pieces : List P}
    (h : d.Reads (')' :: rest) pieces) :
    d.Reads ([','].intercalate (names.map (':' :: ·)) ++ ')' :: rest)
      ((names.map d.param).intersperse (d.byte ',') ++ pieces) := by
  induction names with
  | nil => exact h
  | cons name names ih =>
    obtain ⟨⟨hne, hchars⟩, hmore⟩ := List.forall_mem_cons.mp hnames
    cases names with
    | nil =>
      rw [List.map_singleton, List.intercalate_singleton]
      refine d.reads_param hne hchars (fun next hnext => ?_) h
      cases hnext
      rfl
    | cons next names =>
      rw [List.map_cons, List.map_cons, List.intercalate_cons_cons, List.map_cons, List.map_cons,
        List.intersperse_cons_cons, List.append_assoc, List.append_assoc]
      refine d.reads_param hne hchars (fun next hnext => ?_) (d.reads_mark ',' (by simp) (ih hmore))
      cases hnext
      rfl

theorem reads_clause {column : Text} (hcolumn : ∀ c ∈ column, isNamedParamChar c = true)
    (values : List V) {pieces : List P} (h : d.Reads (')' :: rest) pieces) :
    d.Reads ((parameterizedInClause column values).1 ++ ')' :: rest)
      (clausePieces d column values.length ++ pieces) := by
  have hreads := reads_names ((List.range values.length).map fun i => column ++ decimal (i + 1))
    ?_ h
  · rw [List.map_map, List.map_map] at hreads
    rw [parameterizedInClause_text]
    exact hreads
  · intro name hname
    obtain ⟨i, -, rfl⟩ := List.mem_map.mp hname
    refine ⟨List.append_ne_nil_of_right_ne_nil _ Nat.toDigits_ne_nil, fun c hc => ?_⟩
    rcases List.mem_append.mp hc with hc | hc
    · exact hcolumn c hc
    · exact decimal_named c hc

/-- The query is read segment by segment. -/
theorem reads_inQuery (segments : List (Segment d V)) {last : Text} {pieces : List P}
    (h : d.Reads last pieces) :
    d.Reads (inQuery parameterizedInClause segments last) (queryPieces segments pieces) := by
  induction segments with
  | nil => exact h
  | cons s segments ih =>
    have hclose := d.reads_mark ')' (by simp) ih
    have hopen := d.reads_mark '(' (by simp) (reads_clause s.named s.values hclose)
    have hsegment := d.reads_append s.reads s.closed hopen
    simpa [inQuery, placed, queryPieces] using hsegment

theorem flatMap_intersperse {β : Type} (write : P → List β) (sep : P) (items : List P) :
    (items.intersperse sep).flatMap write = (write sep).intercalate (items.map write) := by
  induction items with
  | nil => rfl
  | cons item items ih =>
    cases items with
    | nil => simp
    | cons next items =>
      rw [List.intersperse_cons_cons, List.map_cons, List.map_cons, List.intercalate_cons_cons,
        List.flatMap_cons, List.flatMap_cons, ih, List.map_cons, List.append_assoc]

/-- What is written for the pieces of a query. -/
theorem flatMap_queryPieces (write : P → Text) (hwrite : ∀ c, write (d.byte c) = [c])
    (segments : List (Segment d V)) (last : List P) :
    (queryPieces segments last).flatMap write =
      placed (fun s => s.pieces.flatMap write)
        (fun s => commaSeparated s.values.length fun i =>
          write (d.param (s.column ++ decimal (i + 1))))
        segments ++ last.flatMap write := by
  induction segments with
  | nil => rfl
  | cons s segments ih =>
    have hcons : queryPieces (s :: segments) last = s.pieces ++ d.byte '(' ::
        clausePieces d s.column s.values.length ++ [d.byte ')'] ++ queryPieces segments last := by
      simp [queryPieces]
    rw [hcons, List.flatMap_append, ih]
    simp [placed, clausePieces, flatMap_intersperse, hwrite, commaSeparated, Function.comp_def]

theorem of_mem_intersperse {sep piece : P} {items : List P} (h : piece ∈ items.intersperse sep) :
    piece = sep ∨ piece ∈ items := by
  induction items with
  | nil => cases h
  | cons item items ih =>
    cases items with
    | nil => exact .inr h
    | cons next items =>
      rw [List.intersperse_cons_cons] at h
      rcases List.mem_cons.mp h with rfl | h
      · exact .inr List.mem_cons_self
      · rcases List.mem_cons.mp h with rfl | h
        · exact .inl rfl
        · exact (ih h).imp_right (List.mem_cons_of_mem _)

theorem filterMap_intersperse {sep : P} (hsep : d.token sep = none) (items : List P) :
    (items.intersperse sep).filterMap d.token = items.filterMap d.token := by
  induction items with
  | nil => rfl
  | cons item items ih =>
    cases items with
    | nil => rfl
    | cons next items =>
      rw [List.intersperse_cons_cons, List.filterMap_cons, List.filterMap_cons_none hsep, ih]
      exact List.filterMap_cons.symm

/-- The tokens of a clause are the generated names. -/
theorem tokens_clausePieces (column : Text) (count : Nat) :
    (clausePieces d column count).filterMap d.token =
      (List.range count).map (inClauseKey column) := by
  rw [clausePieces, filterMap_intersperse (d.token_byte ','), List.filterMap_map]
  refine List.filterMap_eq_map_iff_forall_eq_some.mpr fun i _ => ?_
  exact d.token_param _

/-- The tokens up to a clause, those of the clause, and those behind it. -/
theorem tokens_queryPieces (before : List (Segment d V)) (s : Segment d V)
    (after : List (Segment d V)) (last : List P) :
    (queryPieces (before ++ s :: after) last).filterMap d.token =
      (queryPieces before s.pieces).filterMap d.token ++
        (List.range s.values.length).map (inClauseKey s.column) ++
        (queryPieces after last).filterMap d.token := by
  have hsplit : queryPieces (before ++ s :: after) last =
      queryPieces before s.pieces ++ (d.byte '(' :: clausePieces d s.column s.values.length) ++
        d.byte ')' :: queryPieces after last := by
    simp [queryPieces]
  rw [hsplit, List.filterMap_append, List.filterMap_append,
    List.filterMap_cons_none (d.token_byte '('), List.filterMap_cons_none (d.token_byte ')'),
    tokens_clausePieces]

/-- The values that the names of the clauses stand for. -/
theorem lastValue_inParams_iff [Inhabited V] (segments : List (Segment d V)) :
    (∀ s ∈ segments, ∀ i v, s.values[i]? = some v →
      (lastValue (inParams parameterizedInClause segments)
        (inClauseKey s.column i)).getD default = v) ↔ NamesAgree (segments.map Segment.clause) := by
  rw [← lastValue_agree_iff, List.forall_mem_map, List.map_map]
  rfl

theorem head_append_paren {Q : Char → Prop} (tail : Text)
    (hrest : ∀ next, rest.head? = some next → Q next) (hparen : Q '(') :
    ∀ next, (rest ++ '(' :: tail).head? = some next → Q next := by
  intro next hnext
  cases rest with
  | nil =>
    cases hnext
    exact hparen
  | cons first rest => exact hrest next hnext

end Readings

section Postgres

open Postgres

/-- No tag reaches over a parenthesis. -/
theorem plain_append_paren {b : Char} (h : Plain b rest) (tail : Text) :
    Plain b (rest ++ '(' :: tail) where
  quote := h.quote
  dollar hb tag htag hstarts := by
    have hstart : b :: rest <+: b :: (rest ++ '(' :: tail) := ⟨'(' :: tail, rfl⟩
    rcases List.prefix_or_prefix_of_prefix hstarts hstart with hinside | ⟨more, hmore⟩
    · exact h.dollar hb tag htag hinside
    · cases more with
      | nil => exact h.dollar hb tag htag ⟨[], by simpa using hmore.symm⟩
      | cons c more =>
        have hc : c = '(' := by
          rw [← hmore] at hstarts
          have hcut : c :: more <+: '(' :: tail := by
            rw [← List.cons_append, List.prefix_append_right_inj] at hstarts
            exact hstarts
          exact (List.cons_prefix_cons.mp hcut).1
        have hmem : '(' ∈ tag := by
          rw [← hmore, hc]
          simp
        obtain ⟨name, hname, rfl⟩ := htag
        rcases List.mem_append.mp hmem with hmem | hmem
        · rcases List.mem_cons.mp hmem with hmem | hmem
          · cases hmem
          · exact absurd (hname _ hmem) (by decide)
        · exact absurd (List.mem_singleton.mp hmem) (by decide)
  colon hb := head_append_paren tail (h.colon hb) (by decide)

theorem postgres_reads_append {text tail : Text} {pieces more : List Piece} (h : Reads text pieces)
    (hclosed : ∀ text, Piece.openLiteral text ∉ pieces) (htail : Reads ('(' :: tail) more) :
    Reads (text ++ '(' :: tail) (pieces ++ more) := by
  induction h with
  | nil => exact htail
  | openQuoted | openDollar => exact absurd List.mem_cons_self (hclosed _)
  | @quoted body rest pieces hbody hend _ ih =>
    have hrest := ih fun text hmem => hclosed text (List.mem_cons_of_mem _ hmem)
    rw [List.append_assoc]
    refine Reads.quoted hbody (fun hhead => ?_) hrest
    exact head_append_paren (Q := (· ≠ '\'')) tail (fun _ hnext => fun heq => hend (heq ▸ hnext))
      (by decide) _ hhead rfl
  | @dollar tag body rest pieces htag hbody _ ih =>
    have hrest := ih fun text hmem => hclosed text (List.mem_cons_of_mem _ hmem)
    rw [List.append_assoc]
    exact Reads.dollar htag hbody hrest
  | cast _ ih => exact Reads.cast (ih fun text hmem => hclosed text (List.mem_cons_of_mem _ hmem))
  | param hname hchars hend _ ih =>
    rw [List.append_assoc]
    exact Reads.param hname hchars (head_append_paren tail hend (by decide))
      (ih fun text hmem => hclosed text (List.mem_cons_of_mem _ hmem))
  | byte hplain _ ih =>
    exact Reads.byte (plain_append_paren hplain tail)
      (ih fun text hmem => hclosed text (List.mem_cons_of_mem _ hmem))

def postgres : Dialect Piece where
  Reads := Reads
  param := .param
  byte := .byte
  openLiteral := .openLiteral
  token
    | .param name => some (':' :: name)
    | _ => none
  Fits _ _ := True
  token_param _ := rfl
  token_byte _ := rfl
  reads_param := Reads.param
  reads_mark mark hmark h := by
    have hplain : mark ≠ '\'' ∧ mark ≠ '$' ∧ mark ≠ ':' := by
      fin_cases hmark <;> decide
    exact Reads.byte ⟨hplain.1, fun heq => absurd heq hplain.2.1,
      fun heq => absurd heq hplain.2.2⟩ h
  reads_append := postgres_reads_append

theorem getElem_orderedValues [Inhabited V] {tokens : List Text} {token : Text} (h : token ∈ tokens)
    (lookup : Text → Option V) :
    (orderedValues lookup tokens)[numbering tokens token - 1]? =
      some ((lookup token).getD default) := by
  have hindex : (firstOccurrences tokens)[(firstOccurrences tokens).idxOf token]? = some token :=
    List.getElem?_idxOf (mem_firstOccurrences.mpr h)
  rw [orderedValues, numbering, Nat.add_sub_cancel, List.getElem?_map, hindex]
  rfl

/-- The value behind the number of a placeholder. -/
theorem postgres_bound [Inhabited V] {segments : List (Segment postgres V)}
    (last : Fragment postgres) (params : List (Params V)) {s : Segment postgres V}
    (hs : s ∈ segments) {i : Nat} (hi : i < s.values.length) :
    (orderedValues (lastValue params) (tokensOf (queryPieces segments last.pieces)))[
        numbering (tokensOf (queryPieces segments last.pieces)) (inClauseKey s.column i) - 1]? =
      some ((lastValue params (inClauseKey s.column i)).getD default) := by
  refine getElem_orderedValues ?_ _
  obtain ⟨before, after, rfl⟩ := List.append_of_mem hs
  have htokens : tokensOf (queryPieces (before ++ s :: after) last.pieces) = _ :=
    tokens_queryPieces before s after last.pieces
  rw [htokens]
  refine List.mem_append_left _ (List.mem_append_right _ ?_)
  exact List.mem_map_of_mem (List.mem_range.mpr hi)

theorem postgres_binds_iff [Inhabited V] (segments : List (Segment postgres V))
    (last : Fragment postgres) :
    (∀ s ∈ segments, ∀ i v, s.values[i]? = some v →
      (orderedValues (lastValue (inParams parameterizedInClause segments))
        (tokensOf (queryPieces segments last.pieces)))[
          numbering (tokensOf (queryPieces segments last.pieces)) (inClauseKey s.column i) - 1]? =
        some v) ↔ NamesAgree (segments.map Segment.clause) := by
  rw [← lastValue_inParams_iff]
  refine forall₂_congr fun s hs => forall₃_congr fun i v hv => ?_
  obtain ⟨hi, -⟩ := List.getElem?_eq_some_iff.mp hv
  rw [postgres_bound last _ hs hi, Option.some_inj]

end Postgres

section Mysql

open Mysql

theorem mysql_reads_append {text tail : Text} {pieces more : List Piece} (h : Reads text pieces)
    (hclosed : ∀ text, Piece.openLiteral text ∉ pieces) (htail : Reads ('(' :: tail) more) :
    Reads (text ++ '(' :: tail) (pieces ++ more) := by
  induction h with
  | nil => exact htail
  | openLiteral => exact absurd List.mem_cons_self (hclosed _)
  | @literal quote body rest pieces hquote hbody hend _ ih =>
    have hrest := ih fun text hmem => hclosed text (List.mem_cons_of_mem _ hmem)
    have hparen : '(' ≠ quote := by rcases hquote with rfl | rfl <;> decide
    rw [List.append_assoc]
    refine Reads.literal hquote hbody (fun hhead => ?_) hrest
    exact head_append_paren (Q := (· ≠ quote)) tail (fun _ hnext => fun heq => hend (heq ▸ hnext))
      hparen _ hhead rfl
  | param hname hchars hend _ ih =>
    rw [List.append_assoc]
    exact Reads.param hname hchars (head_append_paren tail hend (by decide))
      (ih fun text hmem => hclosed text (List.mem_cons_of_mem _ hmem))
  | byte hquote hcolon _ ih =>
    exact Reads.byte hquote (fun hb => head_append_paren tail (hcolon hb) (by decide))
      (ih fun text hmem => hclosed text (List.mem_cons_of_mem _ hmem))

/-- Around the clauses there is no placeholder, and no token in a literal. -/
def mysql : Dialect Piece where
  Reads := Reads
  param := .param
  byte := .byte
  openLiteral := .openLiteral
  token
    | .param name => some (':' :: name)
    | _ => none
  Fits text pieces := '?' ∉ text ∧ ∀ piece ∈ pieces, piece.LiteralFree
  token_param _ := rfl
  token_byte _ := rfl
  reads_param := Reads.param
  reads_mark mark hmark h := by
    have hplain : ¬ IsQuote mark ∧ mark ≠ ':' := by
      fin_cases hmark <;> decide
    exact Reads.byte hplain.1 (fun heq => absurd heq hplain.2) h
  reads_append := mysql_reads_append

variable (segments : List (Segment mysql V)) (last : Fragment mysql)

theorem literalFree_queryPieces {last : List Piece} (hlast : ∀ piece ∈ last, piece.LiteralFree) :
    ∀ piece ∈ queryPieces segments last, piece.LiteralFree := by
  intro piece hpiece
  rcases List.mem_append.mp hpiece with hpiece | hpiece
  · obtain ⟨s, -, hpiece⟩ := List.mem_flatMap.mp hpiece
    rcases List.mem_append.mp hpiece with hpiece | hpiece
    · rcases List.mem_append.mp hpiece with hpiece | hpiece
      · exact s.fits.2 piece hpiece
      · rcases List.mem_cons.mp hpiece with rfl | hpiece
        · trivial
        · rcases of_mem_intersperse hpiece with rfl | hpiece
          · trivial
          · obtain ⟨i, -, rfl⟩ := List.mem_map.mp hpiece
            trivial
    · rw [List.mem_singleton.mp hpiece]
      trivial
  · exact hlast piece hpiece

theorem count_fragment (fragment : Fragment mysql) :
    (render fragment.pieces).count '?' = (tokensOf fragment.pieces).length := by
  rw [count_render fragment.reads, List.count_eq_zero.mpr fragment.fits.1, Nat.zero_add]

theorem count_marks (count : Nat) : (commaSeparated count fun _ => ['?']).count '?' = count := by
  have hitems : ∀ items : List Nat, ([','].intercalate (items.map fun _ => ['?'])).count '?' =
      items.length := by
    intro items
    induction items with
    | nil => rfl
    | cons item items ih =>
      cases items with
      | nil => rfl
      | cons next items =>
        rw [List.map_cons] at ih
        rw [List.map_cons, List.map_cons, List.intercalate_cons_cons, List.count_append, ih,
          List.length_cons, Nat.add_comm]
        rfl
  rw [commaSeparated, hitems, List.length_range]

/-- One placeholder is written for each token. -/
theorem count_written :
    (placed (fun s : Segment mysql V => render s.pieces)
      (fun s => commaSeparated s.values.length fun _ => ['?']) segments ++
        render last.pieces).count '?' = (tokensOf (queryPieces segments last.pieces)).length := by
  induction segments with
  | nil => exact count_fragment last
  | cons s segments ih =>
    have htokens : tokensOf (queryPieces (s :: segments) last.pieces) =
        tokensOf s.pieces ++ (List.range s.values.length).map (inClauseKey s.column) ++
          tokensOf (queryPieces segments last.pieces) :=
      tokens_queryPieces [] s segments last.pieces
    have hfirst := count_fragment s.toFragment
    have hparen : '(' ≠ '?' := by decide
    have hmark : [')'].count '?' = 0 := by decide
    rw [htokens, List.length_append, List.length_append, List.length_map, List.length_range, ← ih,
      ← hfirst]
    simp only [placed, List.flatMap_cons, List.count_append, List.count_cons_of_ne hparen,
      count_marks, hmark, Nat.add_zero, Nat.add_assoc]

/-- The value of a placeholder, by its place among all of them. -/
theorem mysql_bound [Inhabited V] (before : List (Segment mysql V)) (s : Segment mysql V)
    (after : List (Segment mysql V)) (last : Fragment mysql) (params : List (Params V)) {i : Nat}
    (hi : i < s.values.length) :
    ((tokensOf (queryPieces (before ++ s :: after) last.pieces)).map fun token =>
        (lastValue params token).getD default)[
      (placed (fun s : Segment mysql V => render s.pieces)
        (fun s => commaSeparated s.values.length fun _ => ['?']) before ++
          render s.pieces).count '?' + i]? =
      some ((lastValue params (inClauseKey s.column i)).getD default) := by
  have htokens : tokensOf (queryPieces (before ++ s :: after) last.pieces) =
      tokensOf (queryPieces before s.pieces) ++
        (List.range s.values.length).map (inClauseKey s.column) ++
        tokensOf (queryPieces after last.pieces) :=
    tokens_queryPieces before s after last.pieces
  rw [count_written before s.toFragment, htokens, List.getElem?_map, List.append_assoc,
    List.getElem?_append_right (Nat.le_add_right _ _), Nat.add_sub_cancel_left,
    List.getElem?_append_left (by simpa using hi), List.getElem?_map, List.getElem?_range hi]
  rfl

theorem mysql_binds_iff [Inhabited V] :
    (∀ before s after, segments = before ++ s :: after → ∀ i v, s.values[i]? = some v →
      ((tokensOf (queryPieces segments last.pieces)).map fun token =>
        (lastValue (inParams parameterizedInClause segments) token).getD default)[
          (placed (fun s : Segment mysql V => render s.pieces)
            (fun s => commaSeparated s.values.length fun _ => ['?']) before ++
              render s.pieces).count '?' + i]? = some v) ↔
      NamesAgree (segments.map Segment.clause) := by
  rw [← lastValue_inParams_iff]
  constructor
  · intro h s hs i v hv
    obtain ⟨hi, -⟩ := List.getElem?_eq_some_iff.mp hv
    obtain ⟨before, after, rfl⟩ := List.append_of_mem hs
    have hvalue := h before s after rfl i v hv
    rw [mysql_bound before s after last _ hi] at hvalue
    exact Option.some_inj.mp hvalue
  · rintro h before s after rfl i v hv
    obtain ⟨hi, -⟩ := List.getElem?_eq_some_iff.mp hv
    rw [mysql_bound before s after last _ hi,
      h s (List.mem_append_right _ List.mem_cons_self) i v hv]

end Mysql

/-- Both converters replace the names of the clauses in their places. The clauses are
all bound to their values if and only if names that coincide stand for equal
values. -/
theorem in_clauses_compose_iff {V : Type} [Inhabited V] :
    (∀ (segments : List (Segment postgres V)) (last : Fragment postgres),
      let number := Postgres.numbering (Postgres.tokensOf (queryPieces segments last.pieces))
      let result := Postgres.convertQueryAndNamedParams
        (inQuery Postgres.getParameterizedInClause segments last.text)
        (inParams Postgres.getParameterizedInClause segments)
      result.1 = placed (fun s => Postgres.render number s.pieces)
        (fun s => commaSeparated s.values.length fun i =>
          '$' :: decimal (number (inClauseKey s.column i)))
        segments ++ Postgres.render number last.pieces ∧
      ((∀ s ∈ segments, ∀ i v, s.values[i]? = some v →
          result.2[number (inClauseKey s.column i) - 1]? = some v) ↔
        NamesAgree (segments.map Segment.clause))) ∧
    ∀ (segments : List (Segment mysql V)) (last : Fragment mysql),
      let written := placed (fun s : Segment mysql V => Mysql.render s.pieces)
        fun s => commaSeparated s.values.length fun _ => ['?']
      let result := Mysql.convertQueryAndNamedParams
        (inQuery Mysql.getParameterizedInClause segments last.text)
        (inParams Mysql.getParameterizedInClause segments)
      result.1 = written segments ++ Mysql.render last.pieces ∧
      ((∀ before s after, segments = before ++ s :: after → ∀ i v, s.values[i]? = some v →
          result.2[(written before ++ Mysql.render s.pieces).count '?' + i]? = some v) ↔
        NamesAgree (segments.map Segment.clause)) := by
  constructor
  · intro segments last number result
    have hresult : result = _ := (Postgres.convert_reads _ (reads_inQuery segments last.reads)).1
    rw [hresult]
    exact ⟨flatMap_queryPieces (d := postgres) (Postgres.renderPiece number) (fun _ => rfl)
      segments _, postgres_binds_iff segments last⟩
  · intro segments last written result
    have hresult : result = _ := Mysql.convert_of_literalFree _ (reads_inQuery segments last.reads)
      (literalFree_queryPieces segments last.fits.2)
    rw [hresult]
    exact ⟨flatMap_queryPieces (d := mysql) Mysql.renderPiece (fun _ => rfl) segments _,
      mysql_binds_iff segments last⟩

/-- Two columns whose names never coincide. -/
theorem two_columns_compose :
    let segments : List (Segment postgres Nat) :=
      [⟨⟨['a', ' '], [.byte 'a', .byte ' '],
          .byte ⟨by decide, by simp, by simp⟩ (.byte ⟨by decide, by simp, by simp⟩ .nil), trivial⟩,
        by simp [postgres], ['a'], List.all_eq_true.mp rfl, [5]⟩,
      ⟨⟨[], [], .nil, trivial⟩, by simp, ['b'], List.all_eq_true.mp rfl, [6]⟩]
    let result := Postgres.convertQueryAndNamedParams
      (inQuery Postgres.getParameterizedInClause segments [])
      (inParams Postgres.getParameterizedInClause segments)
    result = ("a ($1)($2)".toList, [5, 6]) ∧
      ∀ s ∈ segments, ∀ i v, s.values[i]? = some v →
        result.2[Postgres.numbering (Postgres.tokensOf (queryPieces segments []))
          (inClauseKey s.column i) - 1]? = some v := by
  intro segments result
  have hagree : NamesAgree [(['a'], [5]), (['b'], [6])] := by
    intro first hfirst second hsecond i j v w hv hw hname
    have hcases : ∀ clause ∈ [(['a'], [5]), (['b'], [6])],
        clause = (['a'], [5]) ∨ clause = (['b'], [6]) := by simp
    rcases hcases first hfirst with rfl | rfl <;> rcases hcases second hsecond with rfl | rfl
    · exact (List.mem_singleton.mp (List.mem_of_getElem? hv)).trans
        (List.mem_singleton.mp (List.mem_of_getElem? hw)).symm
    · cases (List.cons.inj hname).1
    · cases (List.cons.inj hname).1
    · exact (List.mem_singleton.mp (List.mem_of_getElem? hv)).trans
        (List.mem_singleton.mp (List.mem_of_getElem? hw)).symm
  exact ⟨by decide +kernel,
    ((in_clauses_compose_iff.1 segments ⟨[], [], .nil, trivial⟩).2.mpr hagree)⟩

/-- The eleventh name of column `a` is the first one of column `a1`. -/
theorem eleventh_name_collides :
    let query (helper : Text → List Nat → Text × Params Nat) : Text :=
      "a IN (".toList ++ (helper ['a'] (List.range 11)).1 ++ ") AND a1 IN (".toList ++
        (helper ['a', '1'] [99]).1 ++ [')']
    let maps (helper : Text → List Nat → Text × Params Nat) : List (Params Nat) :=
      [(helper ['a'] (List.range 11)).2, (helper ['a', '1'] [99]).2]
    Postgres.convertQueryAndNamedParams (query Postgres.getParameterizedInClause)
        (maps Postgres.getParameterizedInClause) =
      ("a IN ($1,$2,$3,$4,$5,$6,$7,$8,$9,$10,$11) AND a1 IN ($11)".toList,
        [0, 1, 2, 3, 4, 5, 6, 7, 8, 9, 99]) ∧
    Mysql.convertQueryAndNamedParams (query Mysql.getParameterizedInClause)
        (maps Mysql.getParameterizedInClause) =
      ("a IN (?,?,?,?,?,?,?,?,?,?,?) AND a1 IN (?)".toList,
        [0, 1, 2, 3, 4, 5, 6, 7, 8, 9, 99, 99]) := by
  decide +kernel

end Photon.Sql
