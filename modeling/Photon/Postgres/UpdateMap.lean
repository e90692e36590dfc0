import Photon.Lib.Delimited
import Photon.Postgres.BulkInsert

/-!
`UpdateFromMap` of the Postgres helper. The columns are set in sorted order, and the
question marks of the WHERE text become the placeholders behind those of the columns. The
helper counts and replaces every question mark, also those inside literals, and nothing
separates a placeholder from a digit behind it. All texts are runes, as the names have to be: a
question mark is found alike among bytes, and bytes are in the order of their runes.
-/

namespace Photon.Postgres

open Photon.Lib Photon.Sql

section Code

abbrev ColumnValues (V : Type) := AList fun _ : Runes => V

def replaceFirstMark (new : Runes) : Runes → Runes
  | [] => []
  | b :: rest => if b = '?' then new ++ rest else b :: replaceFirstMark new rest

theorem mark_not_mem_placeholder (pos : Nat) : '?' ∉ '$' :: decimal pos := by
  intro h
  rcases List.mem_cons.mp h with h | h
  · exact absurd h (by decide)
  · exact absurd (Nat.isDigit_of_mem_toDigits (by norm_num) (by norm_num) h) (by decide)

theorem replaceFirstMark_append {before : Runes} (hbefore : '?' ∉ before) (new rest : Runes) :
    replaceFirstMark new (before ++ '?' :: rest) = before ++ (new ++ rest) := by
  induction before with
  | nil => simp [replaceFirstMark]
  | cons b before ih =>
    have hb : b ≠ '?' := (List.ne_of_not_mem_cons hbefore).symm
    rw [List.cons_append, replaceFirstMark, if_neg hb,
      ih (List.not_mem_of_not_mem_cons hbefore), List.cons_append]

theorem count_replaceFirstMark {out : Runes} (hout : '?' ∈ out) (pos : Nat) :
    (replaceFirstMark ('$' :: decimal pos) out).count '?' < out.count '?' := by
  obtain ⟨before, rest, rfl, hbefore⟩ := List.eq_append_cons_of_mem hout
  rw [replaceFirstMark_append hbefore, List.count_append, List.count_append, List.count_append,
    List.count_eq_zero_of_not_mem (mark_not_mem_placeholder pos), List.count_cons_self]
  omega

def replaceMarks (out : Runes) (pos : Nat) : Runes :=
  if '?' ∈ out then replaceMarks (replaceFirstMark ('$' :: decimal pos) out) (pos + 1) else out
termination_by out.count '?'
decreasing_by exact count_replaceFirstMark (by assumption) pos

variable {V : Type}

def convertWhereParamsToPg (whereClause : Runes) (start : Nat) (params : List V) :
    Except Errorf (Runes × List V) :=
  if '?' ∉ whereClause then .ok (whereClause, params)
  else if whereClause.count '?' ≠ params.length then
    .error ⟨"postgres: where placeholder mismatch: found %d '?' but got %d params",
      [decimal (whereClause.count '?'), decimal params.length]⟩
  else .ok (replaceMarks whereClause start, params)

variable [Inhabited V]

def valueOf (data : ColumnValues V) (col : Runes) : V := (data.lookup col).getD default

def setText (column : Runes) (pos : Nat) : Runes := column ++ " = $".toList ++ decimal pos

/-- The loop over the sorted columns, with the slices built so far and the next position. -/
def setLoop (data : ColumnValues V) :
    List Runes → List Runes → List V → Nat → Except Errorf (List Runes × List V × Nat)
  | [], setParts, values, argPos => .ok (setParts, values, argPos)
  | col :: keys, setParts, values, argPos => do
      let qc ← safeIdent col
      setLoop data keys (setParts ++ [setText qc argPos]) (values ++ [valueOf data col])
        (argPos + 1)

def updateText (tbl : Runes) (setParts : List Runes) (whereClause : Runes) : Runes :=
  "UPDATE ".toList ++ tbl ++ " SET ".toList ++ joinComma setParts ++ " WHERE ".toList ++ whereClause

/-- What `UpdateFromMapContext` hands to `ExecContext`; `connected` tells whether there is a
database context. -/
def updateFromMapContext (connected : Bool) (tableName : Runes) (data : ColumnValues V)
    (whereClause : Runes) (params : List V) : Except Errorf (Runes × List V) :=
  if !connected then .error ⟨"nil DB context provided, cannot execute the query", []⟩
  else if data.keys.length = 0 then .error ⟨"empty update map", []⟩
  else do
    let tbl ← safeIdent tableName
    let (setParts, values, argPos) ← setLoop data (sortStrings data.keys) [] [] 1
    let (convertedWhere, whereVals) ← convertWhereParamsToPg whereClause argPos params
    return (updateText tbl setParts convertedWhere, values ++ whereVals)

end Code

section Specification

/-- Whether a text ends inside a literal, if it begins inside one or not. A doubled quote
ends a literal and begins the next one. -/
def quotedAfter (quoted : Bool) (text : Runes) : Bool :=
  text.foldl (fun quoted b => if b = '\'' then !quoted else quoted) quoted

def marksOutside : Bool → Runes → Nat
  | _, [] => 0
  | quoted, b :: rest =>
    if b = '\'' then marksOutside (!quoted) rest
    else if b = '?' ∧ quoted = false then marksOutside quoted rest + 1
    else marksOutside quoted rest

/-- The text with the question marks outside literals numbered from `pos` on. -/
def renumber : Bool → Nat → Runes → Runes
  | _, _, [] => []
  | quoted, pos, b :: rest =>
    if b = '\'' then b :: renumber (!quoted) pos rest
    else if b = '?' ∧ quoted = false then '$' :: decimal pos ++ renumber quoted (pos + 1) rest
    else b :: renumber quoted pos rest

/-- Every mark outside literals is read as the placeholder of its own number: the digits
behind the dollar sign are those of the number and no others. -/
def OwnNumbers (m : Nat) (whereClause : Runes) : Prop :=
  ∀ before after, whereClause = before ++ '?' :: after → quotedAfter false before = false →
    (decimal (m + 1 + marksOutside false before) ++
      renumber false (m + 1 + marksOutside false before + 1) after).takeWhile Char.isDigit =
        decimal (m + 1 + marksOutside false before)

def DigitFree (whereClause : Runes) : Prop :=
  ∀ before after, whereClause = before ++ '?' :: after → quotedAfter false before = false →
    ∀ d, after.head? = some d → d.isDigit = false

variable {V : Type} [Inhabited V]

def ValidNames (tableName : Runes) (data : ColumnValues V) : Prop :=
  (∃ tbl, safeIdent tableName = .ok tbl) ∧ ∀ col ∈ data.keys, ∃ column, safeIdent col = .ok column

def setTexts (columns : List Runes) (start : Nat) : List Runes :=
  (columns.zipIdx start).map fun (column, pos) => setText column pos

/-- A call is accepted exactly with as many parameters as there are marks outside literals.
Then the columns in sorted order have the first placeholders, the marks the next ones,
the values stand in the same order, and nothing else of the WHERE text is changed. -/
structure RewritesMarks (tableName : Runes) (data : ColumnValues V) (whereClause : Runes)
    (params : List V) : Prop where
  accepted_iff : (∃ stmt, updateFromMapContext true tableName data whereClause params = .ok stmt) ↔
    ValidNames tableName data ∧ marksOutside false whereClause = params.length
  statement : ∀ stmt, updateFromMapContext true tableName data whereClause params = .ok stmt →
    ∃ tbl cols columns, safeIdent tableName = .ok tbl ∧
      cols.Perm data.keys ∧ cols.Pairwise (fun a b => textLe a b = true) ∧
      List.Forall₂ (fun col column => safeIdent col = .ok column) cols columns ∧
      stmt = (updateText tbl (setTexts columns 1) (renumber false (cols.length + 1) whereClause),
        cols.map (valueOf data) ++ params)
  reads : ∀ stmt, updateFromMapContext true tableName data whereClause params = .ok stmt →
    OwnNumbers data.keys.length whereClause

/-- The WHERE texts and parameters that are handled as they should be. Without any question
mark there are no parameters; with question marks inside literals the call has to be
refused anyway; otherwise no mark stands before a digit. -/
structure WellMarked (whereClause : Runes) (params : List V) : Prop where
  unmarked : '?' ∉ whereClause → params = []
  inside : marksOutside false whereClause ≠ whereClause.count '?' →
    params.length ≠ marksOutside false whereClause ∧ params.length ≠ whereClause.count '?'
  outside : '?' ∈ whereClause → params.length = whereClause.count '?' → DigitFree whereClause

end Specification

section Marks

def numberAll : Nat → Runes → Runes
  | _, [] => []
  | pos, b :: rest =>
    if b = '?' then '$' :: decimal pos ++ numberAll (pos + 1) rest else b :: numberAll pos rest

theorem numberAll_append {before : Runes} (hbefore : '?' ∉ before) (pos : Nat) (rest : Runes) :
    numberAll pos (before ++ rest) = before ++ numberAll pos rest := by
  induction before with
  | nil => rfl
  | cons b before ih =>
    have hb : b ≠ '?' := (List.ne_of_not_mem_cons hbefore).symm
    rw [List.cons_append, numberAll, if_neg hb, ih (List.not_mem_of_not_mem_cons hbefore),
      List.cons_append]

theorem numberAll_of_not_mem {text : Runes} (h : '?' ∉ text) (pos : Nat) :
    numberAll pos text = text := by
  simpa [numberAll] using numberAll_append h pos []

/-- The loop numbers the marks from left to right. -/
theorem replaceMarks_eq (out : Runes) (pos : Nat) : replaceMarks out pos = numberAll pos out := by
  induction hcount : out.count '?' using Nat.strong_induction_on generalizing out pos with
  | h count ih =>
    rw [replaceMarks]
    split
    · next hmem =>
        have hless := count_replaceFirstMark hmem pos
        rw [ih _ (hcount ▸ hless) _ (pos + 1) rfl]
        obtain ⟨before, rest, rfl, hbefore⟩ := List.eq_append_cons_of_mem hmem
        rw [replaceFirstMark_append hbefore, numberAll_append hbefore, numberAll_append hbefore,
          numberAll_append (mark_not_mem_placeholder pos), numberAll, if_pos rfl]
    · next hmem => exact (numberAll_of_not_mem hmem pos).symm

theorem marksOutside_le (quoted : Bool) (text : Runes) :
    marksOutside quoted text ≤ text.count '?' := by
  induction text generalizing quoted with
  | nil => exact le_rfl
  | cons b rest ih =>
    have htail := ih quoted
    have htail' := ih (!quoted)
    rw [marksOutside, List.count_cons]
    split
    · omega
    · split
      · next hmark =>
          rw [hmark.1]
          simpa using htail
      · omega

theorem marksOutside_of_not_mem (quoted : Bool) {text : Runes} (h : '?' ∉ text) :
    marksOutside quoted text = 0 := by
  have hle := marksOutside_le quoted text
  rw [List.count_eq_zero_of_not_mem h] at hle
  exact Nat.le_zero.mp hle

/-- Where all marks are outside literals, the numbering is that of all marks. -/
theorem renumber_eq_numberAll {quoted : Bool} {text : Runes} (pos : Nat)
    (h : marksOutside quoted text = text.count '?') :
    renumber quoted pos text = numberAll pos text := by
  induction text generalizing quoted pos with
  | nil => rfl
  | cons b rest ih =>
    have hle := marksOutside_le quoted rest
    rw [marksOutside, List.count_cons] at h
    rw [renumber, numberAll]
    split at h
    · next hquote =>
        have hb : b ≠ '?' := by
          rw [hquote]
          decide
        rw [if_pos hquote, if_neg hb, ih pos (by simpa [hb] using h)]
    · next hquote =>
        rw [if_neg hquote]
        split at h
        · next hmark =>
            rw [if_pos hmark, if_pos hmark.1, ih (pos + 1) (by simpa [hmark.1] using h)]
        · next hmark =>
            have hb : b ≠ '?' := by
              intro hb
              rw [hb] at h
              simp only [beq_self_eq_true, if_true] at h
              omega
            rw [if_neg hmark, if_neg hb, ih pos (by simpa [hb] using h)]

theorem digit_head_renumber (quoted : Bool) (pos : Nat) (text : Runes) :
    (∃ d, (renumber quoted pos text).head? = some d ∧ d.isDigit = true) ↔
      ∃ d, text.head? = some d ∧ d.isDigit = true := by
  cases text with
  | nil => rfl
  | cons b rest =>
    rw [renumber]
    split
    · rfl
    · split
      · next hmark =>
          rw [hmark.1]
          refine iff_of_false ?_ ?_
          · rintro ⟨d, hd, hdigit⟩
            cases hd
            exact absurd hdigit (by decide)
          · rintro ⟨d, hd, hdigit⟩
            cases hd
            exact absurd hdigit (by decide)
      · rfl

theorem takeWhile_decimal (n : Nat) (rest : Runes) :
    (decimal n ++ rest).takeWhile Char.isDigit = decimal n ↔
      ∀ d, rest.head? = some d → d.isDigit = false := by
  have hdigits : ∀ d ∈ decimal n, d.isDigit = true := fun d hd =>
    Nat.isDigit_of_mem_toDigits (by norm_num) (by norm_num) hd
  rw [List.takeWhile_append_of_pos hdigits, List.append_right_eq_self]
  cases rest with
  | nil => simp
  | cons d rest => simp [List.takeWhile_cons]

theorem ownNumbers_iff (m : Nat) (whereClause : Runes) :
    OwnNumbers m whereClause ↔ DigitFree whereClause := by
  refine forall₄_congr fun before after _ _ => ?_
  rw [takeWhile_decimal]
  have hhead := not_congr
    (digit_head_renumber false (m + 1 + marksOutside false before + 1) after)
  push Not at hhead
  simpa using hhead

end Marks

section Statement

variable {V : Type} [Inhabited V] {tableName : Runes} {data : ColumnValues V} {whereClause : Runes}
  {params : List V}

/-- The loop succeeds if all columns can be quoted, and numbers them. -/
theorem setLoop_ok_iff {keys setParts : List Runes} {values : List V} {argPos : Nat}
    {out : List Runes × List V × Nat} :
    setLoop data keys setParts values argPos = .ok out ↔
      ∃ columns, List.Forall₂ (fun col column => safeIdent col = .ok column) keys columns ∧
        out = (setParts ++ setTexts columns argPos, values ++ keys.map (valueOf data),
          argPos + keys.length) := by
  induction keys generalizing setParts values argPos with
  | nil =>
    rw [setLoop]
    simp [setTexts, eq_comm]
  | cons col keys ih =>
    rw [setLoop, bind_eq_ok_iff]
    simp only [ih]
    constructor
    · rintro ⟨column, hcol, columns, hcolumns, rfl⟩
      refine ⟨column :: columns, .cons hcol hcolumns, ?_⟩
      simp [setTexts, Nat.add_comm, Nat.add_left_comm]
    · rintro ⟨_, hcolumns, rfl⟩
      cases hcolumns with
      | cons hcol hcolumns =>
        refine ⟨_, hcol, _, hcolumns, ?_⟩
        simp [setTexts, Nat.add_comm, Nat.add_left_comm]

omit [Inhabited V] in
theorem convertWhereParamsToPg_ok_iff {start : Nat} {out : Runes × List V} :
    convertWhereParamsToPg whereClause start params = .ok out ↔
      ('?' ∈ whereClause → whereClause.count '?' = params.length) ∧
        out = (numberAll start whereClause, params) := by
  unfold convertWhereParamsToPg
  split
  · next hmem =>
      rw [numberAll_of_not_mem hmem]
      simp [hmem, eq_comm]
  · next hmem =>
      rw [not_not] at hmem
      split
      · next hcount => simp [hmem, hcount]
      · next hcount =>
          rw [replaceMarks_eq]
          simp [hmem, not_not.mp hcount, eq_comm]

/-- The statement of an accepted call, with every question mark numbered. -/
theorem updateFromMapContext_ok_iff (hdata : data.keys ≠ []) {stmt : Runes × List V} :
    updateFromMapContext true tableName data whereClause params = .ok stmt ↔
      ∃ tbl columns, safeIdent tableName = .ok tbl ∧
        List.Forall₂ (fun col column => safeIdent col = .ok column) (sortStrings data.keys)
          columns ∧
        ('?' ∈ whereClause → whereClause.count '?' = params.length) ∧
        stmt = (updateText tbl (setTexts columns 1)
            (numberAll ((sortStrings data.keys).length + 1) whereClause),
          (sortStrings data.keys).map (valueOf data) ++ params) := by
  have hlength : data.keys.length ≠ 0 := fun h => hdata (List.length_eq_zero_iff.mp h)
  simp only [updateFromMapContext, Bool.not_true, Bool.false_eq_true, if_false, if_neg hlength]
  rw [bind_eq_ok_iff]
  constructor
  · rintro ⟨tbl, htbl, h⟩
    obtain ⟨out, hset, h⟩ := bind_eq_ok_iff.mp h
    obtain ⟨columns, hcolumns, rfl⟩ := setLoop_ok_iff.mp hset
    obtain ⟨out, hwhere, h⟩ := bind_eq_ok_iff.mp h
    obtain ⟨hcount, rfl⟩ := convertWhereParamsToPg_ok_iff.mp hwhere
    refine ⟨tbl, columns, htbl, hcolumns, hcount, ?_⟩
    rw [Nat.add_comm _ 1]
    exact (Except.ok.inj h).symm
  · rintro ⟨tbl, columns, htbl, hcolumns, hcount, rfl⟩
    refine ⟨tbl, htbl, bind_eq_ok_iff.mpr ⟨_, setLoop_ok_iff.mpr ⟨columns, hcolumns, rfl⟩, ?_⟩⟩
    refine bind_eq_ok_iff.mpr ⟨_, convertWhereParamsToPg_ok_iff.mpr ⟨hcount, rfl⟩, ?_⟩
    rw [Nat.add_comm _ 1]
    rfl

/-- Every column has a quoted name, in any order of the columns. -/
theorem exists_columns_iff {keys cols : List Runes} (hperm : cols.Perm keys) :
    (∃ columns, List.Forall₂ (fun col column => safeIdent col = .ok column) cols columns) ↔
      ∀ col ∈ keys, ∃ column, safeIdent col = .ok column := by
  simp only [← hperm.mem_iff]
  clear hperm
  induction cols with
  | nil => simp
  | cons col cols ih =>
    rw [List.forall_mem_cons, ← ih]
    constructor
    · rintro ⟨_, hcolumns⟩
      cases hcolumns with
      | cons hcol hcolumns => exact ⟨⟨_, hcol⟩, _, hcolumns⟩
    · rintro ⟨⟨column, hcol⟩, columns, hcolumns⟩
      exact ⟨column :: columns, .cons hcol hcolumns⟩

/-- All marks are counted, wherever they stand. -/
theorem accepted_iff (hdata : data.keys ≠ []) :
    (∃ stmt, updateFromMapContext true tableName data whereClause params = .ok stmt) ↔
      ValidNames tableName data ∧
        ('?' ∈ whereClause → whereClause.count '?' = params.length) := by
  simp only [updateFromMapContext_ok_iff hdata, ValidNames,
    ← exists_columns_iff (sortStrings_perm data.keys)]
  constructor
  · rintro ⟨_, tbl, columns, htbl, hcolumns, hcount, -⟩
    exact ⟨⟨⟨tbl, htbl⟩, columns, hcolumns⟩, hcount⟩
  · rintro ⟨⟨⟨tbl, htbl⟩, columns, hcolumns⟩, hcount⟩
    exact ⟨_, tbl, columns, htbl, hcolumns, hcount, rfl⟩

omit [Inhabited V] in
/-- In a call that is handled as it should be, all marks are outside literals. -/
theorem WellMarked.marks_eq (h : WellMarked whereClause params)
    (hcount : '?' ∈ whereClause → whereClause.count '?' = params.length) :
    marksOutside false whereClause = whereClause.count '?' := by
  by_contra hne
  by_cases hmem : '?' ∈ whereClause
  · exact (h.inside hne).2 (hcount hmem).symm
  · rw [marksOutside_of_not_mem false hmem, List.count_eq_zero_of_not_mem hmem] at hne
    exact hne rfl

omit [Inhabited V] in
/-- For well marked texts, counting all marks is counting those outside literals. -/
theorem WellMarked.count_iff (h : WellMarked whereClause params) :
    ('?' ∈ whereClause → whereClause.count '?' = params.length) ↔
      marksOutside false whereClause = params.length := by
  constructor
  · intro hcount
    rw [h.marks_eq hcount]
    by_cases hmem : '?' ∈ whereClause
    · exact hcount hmem
    · rw [h.unmarked hmem, List.count_eq_zero_of_not_mem hmem]
      rfl
  · intro hmarks _
    by_contra hne
    exact (h.inside fun heq => hne (heq ▸ hmarks)).1 hmarks.symm

/-- A call that is handled as it should be has a well marked WHERE text. -/
theorem wellMarked_of_rewritesMarks (h : RewritesMarks tableName data whereClause params)
    (hdata : data.keys ≠ []) (hnames : ValidNames tableName data) :
    WellMarked whereClause params := by
  have haccepted : ('?' ∈ whereClause → whereClause.count '?' = params.length) ↔
      marksOutside false whereClause = params.length := by
    have hboth := (accepted_iff hdata).symm.trans h.accepted_iff
    exact ⟨fun hcount => (hboth.mp ⟨hnames, hcount⟩).2,
      fun hmarks => (hboth.mpr ⟨hnames, hmarks⟩).2⟩
  refine ⟨fun hmem => ?_, fun hne => ⟨fun hmarks => ?_, fun hcount => ?_⟩, fun hmem hcount => ?_⟩
  · have hmarks := haccepted.mp fun hin => absurd hin hmem
    rw [marksOutside_of_not_mem false hmem] at hmarks
    exact List.length_eq_zero_iff.mp hmarks.symm
  · have hmem : '?' ∈ whereClause := by
      by_contra hmem
      rw [marksOutside_of_not_mem false hmem, List.count_eq_zero_of_not_mem hmem] at hne
      exact hne rfl
    exact hne (hmarks ▸ (haccepted.mpr hmarks.symm hmem).symm)
  · exact hne ((haccepted.mp fun _ => hcount.symm).trans hcount)
  · obtain ⟨stmt, hstmt⟩ := (accepted_iff hdata).mpr ⟨hnames, fun _ => hcount.symm⟩
    exact (ownNumbers_iff _ _).mp (h.reads stmt hstmt)

/-- The update is as it should be exactly for well marked WHERE texts: each question mark
outside literals, and no other, becomes the placeholder that its parameter is bound to. -/
theorem update_rewrites_marks_iff (hdata : data.keys ≠ []) :
    RewritesMarks tableName data whereClause params ↔
      (ValidNames tableName data → WellMarked whereClause params) := by
  constructor
  · exact fun h hnames => wellMarked_of_rewritesMarks h hdata hnames
  · intro h
    refine ⟨?_, fun stmt hstmt => ?_, fun stmt hstmt => ?_⟩
    · rw [accepted_iff hdata]
      exact and_congr_right fun hnames => (h hnames).count_iff
    · obtain ⟨hnames, hcount⟩ := (accepted_iff hdata).mp ⟨stmt, hstmt⟩
      obtain ⟨tbl, columns, htbl, hcolumns, -, rfl⟩ := (updateFromMapContext_ok_iff hdata).mp hstmt
      refine ⟨tbl, sortStrings data.keys, columns, htbl, sortStrings_perm _, sortStrings_sorted _,
        hcolumns, ?_⟩
      rw [renumber_eq_numberAll _ ((h hnames).marks_eq hcount)]
    · obtain ⟨hnames, hcount⟩ := (accepted_iff hdata).mp ⟨stmt, hstmt⟩
      refine (ownNumbers_iff _ _).mpr ?_
      by_cases hmem : '?' ∈ whereClause
      · exact (h hnames).outside hmem (hcount hmem).symm
      · intro before after heq
        exact absurd (heq ▸ List.mem_append_right before List.mem_cons_self) hmem

theorem digitFree_of_last {body : Runes} (hbody : '?' ∉ body) : DigitFree (body ++ ['?']) := by
  intro before after heq _ d hd
  have hcount := congrArg (List.count '?') heq
  rw [List.count_append, List.count_append, List.count_cons_self, List.count_cons_self,
    List.count_nil, List.count_eq_zero_of_not_mem hbody] at hcount
  have hafter : '?' ∉ after := List.not_mem_of_count_eq_zero (by omega)
  obtain ⟨-, rfl⟩ := Lib.append_cons_inj_right List.not_mem_nil hafter heq
  cases hd

def nameColumn : ColumnValues Nat := AList.singleton "name".toList 1

theorem update_by_id_rewrites_marks :
    RewritesMarks "users".toList nameColumn "id = ?".toList [2] := by
  refine (update_rewrites_marks_iff (by decide)).mpr fun _ => ⟨?_, ?_, fun _ _ => ?_⟩
  · exact fun hmem => absurd (by decide) hmem
  · exact fun hne => absurd (by decide) hne
  · exact digitFree_of_last (by decide : '?' ∉ "id = ".toList)

/-- A question mark in a literal is counted and rewritten, and a digit behind a question
mark makes another placeholder of it. -/
theorem literal_mark_rewritten :
    marksOutside false "note = '?' AND id = ?".toList = 1 ∧
      updateFromMapContext true "users".toList nameColumn "note = '?' AND id = ?".toList [2] =
        .error ⟨"postgres: where placeholder mismatch: found %d '?' but got %d params",
          ["2".toList, "1".toList]⟩ ∧
      updateFromMapContext true "users".toList nameColumn "note = '?' AND id = ?".toList [2, 3] =
        .ok ("UPDATE \"users\" SET \"name\" = $1 WHERE note = '$2' AND id = $3".toList,
          [1, 2, 3]) ∧
      updateFromMapContext true "users".toList nameColumn "id = ?5".toList [2] =
        .ok ("UPDATE \"users\" SET \"name\" = $1 WHERE id = $25".toList, [1, 2]) := by
  have hnames : List.Forall₂ (fun col column => safeIdent col = .ok column)
      (sortStrings nameColumn.keys) ["\"name\"".toList] := .cons (by decide) .nil
  refine ⟨by decide, by decide, ?_, ?_⟩
  · exact (updateFromMapContext_ok_iff (by decide)).mpr
      ⟨"\"users\"".toList, _, by decide, hnames, fun _ => by decide, by decide⟩
  · exact (updateFromMapContext_ok_iff (by decide)).mpr
      ⟨"\"users\"".toList, _, by decide, hnames, fun _ => by decide, by decide⟩

end Statement

end Photon.Postgres
