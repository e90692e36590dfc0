import Photon.Postgres.BulkInsert

/-!
What the statement of a bulk insert binds. The tuples, their entries and the numbering of
the placeholders are right for every slice of rows. The fields of every row are looked up in the
type of the first row, so an entry is bound to the row's own field of its column iff the field at
the index that the first type has for the column gives the same under the options of its tag there.
-/

namespace Photon.Postgres

open Photon.Lib Photon.Sql

variable {D E : Type}

/-- What a row has for a column: its default, or a value to bind. -/
inductive Cell (D : Type)
  | default
  | bound (value : D)

def Cell.value? : Cell D → Option D
  | .default => none
  | .bound value => some value

variable (R : Runtime D E)

def omits (dbTag : Runes) (value : D) : Bool :=
  (dbTag.splitOn ',').contains "omitempty".toList && isEmpty R value

/-- The value that is bound under a tag; none if it has no JSON. -/
def encode (dbTag : Runes) (kind : Kind) (value : D) : Option D :=
  if (dbTag.splitOn ',').contains "marshaljson".toList && kind = .struct then
    (R.marshal value).toOption.map R.ofString
  else some value

/-- What a tag makes of the value of a field. -/
def cellOf (dbTag : Runes) (kind : Kind) (value : D) : Option (Cell D) :=
  if omits R dbTag value then some .default else (encode R dbTag kind value).map .bound

/-- The last field of a type that is tagged with the column, and its index. -/
def StructType.lastTagged (t : StructType) (c : Runes) : Option (StructField × Nat) :=
  t.fields.zipIdx.reverse.find? fun p => dbTagName p.1 = (c, true)

/-- The cell from the field at an index, under the tag of the given field. -/
def StructValue.cellAt (sv : StructValue D) (field : StructField) (index : Nat) : Option (Cell D) :=
  match sv.values[index]?, sv.type.fields[index]? with
  | some value, some own => cellOf R field.dbTag own.kind value
  | _, _ => none

/-- The cell of a column, with the field looked up in the type `t`. -/
def StructValue.cellBy (t : StructType) (sv : StructValue D) (c : Runes) : Option (Cell D) :=
  (t.lastTagged c).bind fun p => sv.cellAt R p.1 p.2

def StructValue.ownCell (sv : StructValue D) (c : Runes) : Option (Cell D) :=
  sv.cellBy R sv.type c

inductive Entry
  | default
  | placeholder (pos : Nat)

def Entry.text : Entry → Runes
  | .default => "DEFAULT".toList
  | .placeholder pos => '$' :: decimal pos

@[simp]
theorem Entry.text_default : Entry.default.text = "DEFAULT".toList := rfl

@[simp]
theorem Entry.text_placeholder (pos : Nat) :
    (Entry.placeholder pos).text = '$' :: decimal pos := rfl

def Entry.pos? : Entry → Option Nat
  | .default => none
  | .placeholder pos => some pos

/-- The entry stands for the cell when the statement runs with the values. -/
def Entry.Means (values : List D) : Entry → Cell D → Prop
  | .default, .default => True
  | .placeholder pos, .bound value => 0 < pos ∧ values[pos - 1]? = some value
  | _, _ => False

def tupleText (entries : List Entry) : Runes :=
  '(' :: joinComma (entries.map Entry.text) ++ [')']

/-- The statement is made of these tuples, and its placeholders are `$1` to `$n` for the `n`
values. -/
structure Written (E : Type) (tableName : Runes) (columns : List Runes)
    (tuples : List (List Entry)) (query : Runes) (values : List D) : Prop where
  text : ∃ tbl quotedCols, safeIdent tableName = .ok tbl ∧
    (quoteIdentifiers columns : Except (Failure E) _) = .ok quotedCols ∧
    query = insertText tbl quotedCols (tuples.map tupleText)
  numbers : tuples.flatten.filterMap Entry.pos? = List.range' 1 values.length

/-- There is one tuple for each row, with one entry for each column in their order, and each entry
stands for the cell that `cell` finds for the row and the column. -/
def Binds (columns : List Runes) (cell : StructValue D → Runes → Option (Cell D))
    (structs : List (StructValue D)) (tuples : List (List Entry)) (values : List D) : Prop :=
  List.Forall₂ (fun sv tuple => List.Forall₂ (fun c entry =>
    ∃ found, cell sv c = some found ∧ entry.Means values found) columns tuple) structs tuples

theorem Entry.Means.unique {values : List D} {entry : Entry} {cell other : Cell D}
    (h : entry.Means values cell) (h' : entry.Means values other) : cell = other := by
  cases entry <;> cases cell <;> cases other <;>
    simp_all only [Entry.Means, Option.some.injEq, true_and]

section Numbering

def boundValues (cells : List (Cell D)) : List D := cells.filterMap Cell.value?

@[simp]
theorem boundValues_nil : boundValues ([] : List (Cell D)) = [] := rfl

@[simp]
theorem boundValues_default (cells : List (Cell D)) :
    boundValues (.default :: cells) = boundValues cells := rfl

@[simp]
theorem boundValues_bound (value : D) (cells : List (Cell D)) :
    boundValues (.bound value :: cells) = value :: boundValues cells := rfl

@[simp]
theorem boundValues_append (cells more : List (Cell D)) :
    boundValues (cells ++ more) = boundValues cells ++ boundValues more :=
  List.filterMap_append

def numberCells : Nat → List (Cell D) → List Entry
  | _, [] => []
  | pos, .default :: cells => .default :: numberCells pos cells
  | pos, .bound _ :: cells => .placeholder pos :: numberCells (pos + 1) cells

def numberRows : Nat → List (List (Cell D)) → List (List Entry)
  | _, [] => []
  | pos, cells :: rows =>
    numberCells pos cells :: numberRows (pos + (boundValues cells).length) rows

def RowMaps.cell (maps : RowMaps D) (c : Runes) : Cell D :=
  if maps.fieldIsDefault c then .default else .bound (maps.fieldValues c)

theorem placeholderLoop_eq (maps : RowMaps D) (fields placeholders : List Runes) (values : List D)
    (pos : Nat) :
    placeholderLoop maps fields placeholders values pos =
      (placeholders ++ (numberCells pos (fields.map maps.cell)).map Entry.text,
        values ++ boundValues (fields.map maps.cell),
        pos + (boundValues (fields.map maps.cell)).length) := by
  induction fields generalizing placeholders values pos with
  | nil => simp [placeholderLoop, numberCells]
  | cons name fields ih =>
    rw [placeholderLoop]
    split
    · next hdefault =>
        have hcell : maps.cell name = .default := if_pos hdefault
        rw [ih, List.map_cons, hcell]
        rw [numberCells, boundValues_default, List.map_cons, Entry.text_default, List.append_assoc,
          List.singleton_append]
    · next hbound =>
        have hcell : maps.cell name = .bound (maps.fieldValues name) := if_neg hbound
        rw [ih, List.map_cons, hcell]
        rw [numberCells, boundValues_bound, List.map_cons, Entry.text_placeholder,
          List.append_assoc, List.append_assoc, List.singleton_append, List.singleton_append,
          List.length_cons, Nat.succ_add_eq_add_succ]

theorem multiInsertPlaceholders_eq (fields : List Runes) (maps : RowMaps D) (pos : Nat) :
    multiInsertPlaceholders fields maps pos =
      (tupleText (numberCells pos (fields.map maps.cell)), boundValues (fields.map maps.cell),
        pos + (boundValues (fields.map maps.cell)).length) := by
  simp [multiInsertPlaceholders, placeholderLoop_eq, tupleText]

theorem numberCells_numbers (pos : Nat) (cells : List (Cell D)) :
    (numberCells pos cells).filterMap Entry.pos? = List.range' pos (boundValues cells).length := by
  induction cells generalizing pos with
  | nil => rfl
  | cons cell cells ih =>
    cases cell with
    | default => exact ih pos
    | bound value =>
      have hpos : Entry.pos? (.placeholder pos) = some pos := rfl
      rw [numberCells, List.filterMap_cons_some hpos, ih, boundValues_bound, List.length_cons,
        List.range'_succ]

theorem numberRows_numbers (pos : Nat) (rows : List (List (Cell D))) :
    (numberRows pos rows).flatten.filterMap Entry.pos? =
      List.range' pos (boundValues rows.flatten).length := by
  induction rows generalizing pos with
  | nil => rfl
  | cons cells rows ih =>
    rw [numberRows, List.flatten_cons, List.filterMap_append, numberCells_numbers, ih,
      List.flatten_cons, boundValues_append, List.length_append, ← List.range'_append,
      Nat.one_mul]

/-- A placeholder finds the value of its cell behind the values of the cells before. -/
theorem numberCells_means (before after : List D) (cells : List (Cell D)) :
    List.Forall₂ (Entry.Means (before ++ boundValues cells ++ after))
      (numberCells (before.length + 1) cells) cells := by
  induction cells generalizing before with
  | nil => exact .nil
  | cons cell cells ih =>
    cases cell with
    | default => exact .cons trivial (ih before)
    | bound value =>
      have hshift : before ++ boundValues (.bound value :: cells) ++ after =
          (before ++ [value]) ++ boundValues cells ++ after := by
        simp
      have htail := ih (before ++ [value])
      rw [List.length_append, List.length_singleton, ← hshift] at htail
      exact .cons ⟨Nat.succ_pos _, by simp⟩ htail

theorem numberRows_means (before : List D) (rows : List (List (Cell D))) :
    List.Forall₂ (List.Forall₂ (Entry.Means (before ++ boundValues rows.flatten)))
      (numberRows (before.length + 1) rows) rows := by
  induction rows generalizing before with
  | nil => exact .nil
  | cons cells rows ih =>
    have hsplit : before ++ boundValues (cells :: rows).flatten =
        before ++ boundValues cells ++ boundValues rows.flatten := by
      simp
    have htail := ih (before ++ boundValues cells)
    rw [List.length_append, Nat.add_right_comm, ← hsplit] at htail
    have hhead := numberCells_means before (boundValues rows.flatten) cells
    rw [← hsplit] at hhead
    exact .cons hhead htail

end Numbering

section Cells

variable {R : Runtime D E} {sv : StructValue D} {t : StructType}

/-- Where a field can be read, its cell is what its tag makes of the value read. -/
theorem cellAt_of_field {index : Nat} {value : D} {kind : Kind}
    (h : (sv.field index : Except (Failure E) _) = .ok (value, kind)) (field : StructField) :
    sv.cellAt R field index = cellOf R field.dbTag kind value := by
  unfold StructValue.field at h
  unfold StructValue.cellAt
  generalize sv.values[index]? = read, sv.type.fields[index]? = own at h
  cases read with
  | none => cases h
  | some read =>
    cases own with
    | none => cases h
    | some own =>
      dsimp only at h ⊢
      split at h <;> cases h
      rfl

variable {maps maps' : RowMaps D}

/-- What one field writes, once its value is read. -/
private theorem written_cell {tag name : Runes} {kind : Kind} {value : D} {useDefault : Bool}
    (hdefault : useDefault = omits R tag value)
    (h : (if !useDefault && (tag.splitOn ',').contains "marshaljson".toList &&
          kind = .struct then do
        let jsonValue ← (R.marshal value).mapError Failure.marshal
        return maps.set name (R.ofString jsonValue) useDefault
      else return maps.set name value useDefault) = Except.ok maps') :
    ∃ written, maps' = maps.set name written useDefault ∧
      cellOf R tag kind value = some (if useDefault then .default else .bound written) := by
  rw [cellOf, ← hdefault]
  cases useDefault with
  | true =>
    cases h
    exact ⟨value, rfl, rfl⟩
  | false =>
    simp only [Bool.not_false, Bool.true_and, Bool.false_eq_true, if_false, encode] at h ⊢
    split at h
    · next hjson =>
        obtain ⟨jsonValue, hmarshal, h⟩ := bind_eq_ok_iff.mp h
        cases h
        refine ⟨R.ofString jsonValue, rfl, ?_⟩
        rw [if_pos hjson]
        cases hvalue : R.marshal value with
        | error e => simp [hvalue, Except.mapError] at hmarshal
        | ok json =>
          rw [hvalue] at hmarshal
          cases hmarshal
          rfl
    · next hjson =>
        cases h
        exact ⟨value, rfl, by rw [if_neg hjson, Option.map_some]⟩

/-- One field writes the cell of its own column only. -/
theorem setMultiInsertFieldValue_ok {field : StructField} {index : Nat}
    (h : setMultiInsertFieldValue R sv field index maps = .ok maps') (c : Runes) :
    if dbTagName field = (c, true) then sv.cellAt R field index = some (maps'.cell c)
    else maps'.cell c = maps.cell c := by
  unfold setMultiInsertFieldValue at h
  unfold dbTagName
  split at h
  · next hempty =>
      cases h
      simp [hempty]
  · next hempty =>
      rw [if_neg hempty]
      dsimp only at h ⊢
      generalize hname : (field.dbTag.splitOn ',').headD [] = name at h ⊢
      split at h
      · next hdash =>
          cases h
          simp [hdash]
      · next hdash =>
          obtain ⟨⟨value, kind⟩, hread, h⟩ := bind_eq_ok_iff.mp h
          obtain ⟨written, rfl, hcell⟩ := written_cell rfl h
          simp only [hdash, ne_eq, not_false_eq_true, decide_true, Prod.mk.injEq, and_true]
          split
          · next heq =>
              rw [cellAt_of_field hread, hcell, ← heq]
              simp [RowMaps.set, RowMaps.cell]
          · next hne => simp [RowMaps.set, RowMaps.cell, Ne.symm hne]

/-- The loop over the fields keeps for each column the cell of the last field with its
tag, and leaves the other columns alone. -/
theorem fields_foldlM_ok (fields : List (StructField × Nat))
    (h : fields.foldlM (fun maps p => setMultiInsertFieldValue R sv p.1 p.2 maps) maps = .ok maps')
    (c : Runes) :
    match fields.reverse.find? fun p => dbTagName p.1 = (c, true) with
    | some p => sv.cellAt R p.1 p.2 = some (maps'.cell c)
    | none => maps'.cell c = maps.cell c := by
  -- the last field is processed last, so the induction is on the list from its end
  induction fields using List.reverseRecOn generalizing maps' with
  | nil =>
    cases h
    rfl
  | append_singleton fields last ih =>
    rw [List.foldlM_append] at h
    obtain ⟨middle, hmiddle, hlast⟩ := bind_eq_ok_iff.mp h
    rw [List.foldlM_cons] at hlast
    obtain ⟨final, hset, hfinal⟩ := bind_eq_ok_iff.mp hlast
    cases hfinal
    have hstep := setMultiInsertFieldValue_ok hset c
    rw [List.reverse_append, List.reverse_singleton, List.singleton_append, List.find?_cons]
    split at hstep
    · next htag => simpa [htag] using hstep
    · next htag =>
        simp only [htag, decide_false]
        rw [hstep]
        exact ih hmiddle

/-- The columns are the names of the tagged fields. -/
theorem mem_dbFields_iff (t : StructType) (c : Runes) :
    c ∈ (dbFields t).1 ↔ ∃ field ∈ t.fields, dbTagName field = (c, true) := by
  unfold dbFields
  induction t.fields using List.reverseRecOn with
  | nil => simp
  | append_singleton fields last ih =>
    rw [List.foldl_append, List.foldl_cons, List.foldl_nil]
    generalize fields.foldl _ ([], 0) = acc at ih ⊢
    obtain ⟨names, count⟩ := acc
    have hsplit : (∃ field ∈ fields ++ [last], dbTagName field = (c, true)) ↔
        c ∈ names ∨ dbTagName last = (c, true) := by
      simp [or_and_right, exists_or, ← ih]
    rw [hsplit]
    generalize dbTagName last = tagged
    obtain ⟨name, ok⟩ := tagged
    cases ok with
    | false => simp
    | true =>
      simp only [Bool.not_true, Bool.false_eq_true, if_false, Prod.mk.injEq, and_true]
      split
      · next hseen =>
          refine (or_iff_left_of_imp ?_).symm
          rintro rfl
          simpa using hseen
      · simp [eq_comm]

theorem exists_lastTagged {c : Runes} (hc : c ∈ (dbFields t).1) : ∃ p, t.lastTagged c = some p := by
  obtain ⟨field, hfield, htag⟩ := (mem_dbFields_iff t c).mp hc
  obtain ⟨index, hindex⟩ := List.mem_iff_getElem?.mp hfield
  refine Option.isSome_iff_exists.mp ?_
  rw [StructType.lastTagged, List.find?_isSome]
  exact ⟨(field, index), List.mem_reverse.mpr (List.mk_mem_zipIdx_iff_getElem?.mpr hindex),
    by simpa using htag⟩

theorem structOf_ok {row : Row D} (h : (structOf row : Except (Failure E) _) = .ok sv) :
    row.struct? = some sv := by
  unfold structOf at h
  split at h
  · next hrow =>
      cases h
      exact hrow
  · cases h

/-- The maps of a row hold its cells, with the fields looked up in the type `t`. -/
theorem multiInsertRowValues_ok {row : Row D} {maps : RowMaps D}
    (h : multiInsertRowValues R row t = .ok maps) :
    ∃ sv, row.struct? = some sv ∧ ∀ c ∈ (dbFields t).1, sv.cellBy R t c = some (maps.cell c) := by
  obtain ⟨sv, hsv, hloop⟩ := bind_eq_ok_iff.mp h
  refine ⟨sv, structOf_ok hsv, fun c hc => ?_⟩
  obtain ⟨p, hp⟩ := exists_lastTagged hc
  have hcell := fields_foldlM_ok t.fields.zipIdx hloop c
  rw [← StructType.lastTagged, hp] at hcell
  rw [StructValue.cellBy, hp]
  exact hcell

/-- What the loop over the rows has built when it ends. -/
theorem tupleLoop_ok {rows : List (Row D)} {tuples out : List Runes} {values all : List D}
    {pos : Nat} (h : tupleLoop R t (dbFields t).1 rows tuples values pos = .ok (out, all)) :
    ∃ structs cells,
      rows.map Row.struct? = structs.map some ∧
      List.Forall₂ (fun (sv : StructValue D) =>
        List.Forall₂ (fun c cell => sv.cellBy R t c = some cell) (dbFields t).1) structs cells ∧
      out = tuples ++ (numberRows pos cells).map tupleText ∧
      all = values ++ boundValues cells.flatten := by
  induction rows generalizing tuples values pos with
  | nil =>
    cases h
    exact ⟨[], [], rfl, .nil, by simp [numberRows], by simp⟩
  | cons row rows ih =>
    obtain ⟨maps, hmaps, h⟩ := bind_eq_ok_iff.mp h
    obtain ⟨sv, hrow, hcells⟩ := multiInsertRowValues_ok hmaps
    rw [multiInsertPlaceholders_eq] at h
    obtain ⟨structs, cells, hrows, hall, rfl, rfl⟩ := ih h
    refine ⟨sv :: structs, (dbFields t).1.map maps.cell :: cells, ?_, .cons ?_ hall, ?_, ?_⟩
    · rw [List.map_cons, List.map_cons, hrow, hrows]
    · rw [List.forall₂_map_right_iff]
      exact List.forall₂_same.mpr hcells
    · rw [numberRows, List.map_cons, List.append_assoc, List.singleton_append]
    · rw [List.flatten_cons, boundValues_append, List.append_assoc]

end Cells

private theorem mapError_eq_ok {ε ε' α : Type} {f : ε → ε'} {x : Except ε α} {a : α}
    (h : x.mapError f = .ok a) : x = .ok a := by
  cases x with
  | error e => cases h
  | ok b => simpa [Except.mapError] using h

/-- Two lists matched with a third one are matched with each other. -/
private theorem forall₂_through {α β γ : Type} {P : α → β → Prop} {Q : γ → β → Prop}
    {S : α → γ → Prop} (hcompose : ∀ a b c, P a b → Q c b → S a c) {xs : List α} {ys : List β}
    {zs : List γ} (hxy : List.Forall₂ P xs ys) (hzy : List.Forall₂ Q zs ys) :
    List.Forall₂ S xs zs := by
  induction hxy generalizing zs with
  | nil =>
    cases hzy
    exact .nil
  | cons hab _ ih =>
    cases hzy with
    | cons hcb hrest => exact .cons (hcompose _ _ _ hab hcb) (ih hrest)

/-- A call that returns a statement has taken apart a first row and the others, and
every row has an entry for its cells as the type of the first row places them. -/
theorem binds_first_type {R : Runtime D E} {tableName query : Runes} {data : List (Row D)}
    {values : List D}
    (h : generateMultiInsertQueriesFromStructArray R tableName data = .ok (query, values)) :
    ∃ first rest tuples, data.map Row.struct? = (first :: rest).map some ∧
      Written E tableName (dbFields first.type).1 tuples query values ∧
      Binds (dbFields first.type).1 (fun sv => sv.cellBy R first.type) (first :: rest) tuples
        values := by
  obtain ⟨tbl, htbl, h⟩ := bind_eq_ok_iff.mp h
  cases data with
  | nil => cases h
  | cons row data =>
    obtain ⟨t, ht, h⟩ := bind_eq_ok_iff.mp h
    obtain ⟨v, hv, ht⟩ := bind_eq_ok_iff.mp ht
    cases ht
    obtain ⟨quotedCols, hquoted, h⟩ := bind_eq_ok_iff.mp h
    obtain ⟨⟨tuples, all⟩, hloop, h⟩ := bind_eq_ok_iff.mp h
    cases h
    obtain ⟨structs, cells, hrows, hcells, rfl, rfl⟩ := tupleLoop_ok hloop
    cases structs with
    | nil => cases hrows
    | cons first rest =>
      have hfirst : v = first := by
        rw [List.map_cons, List.map_cons, structOf_ok hv] at hrows
        exact Option.some.inj (List.cons.inj hrows).1
      subst hfirst
      refine ⟨v, rest, numberRows 1 cells, hrows,
        ⟨⟨tbl, quotedCols, mapError_eq_ok htbl, hquoted, rfl⟩, numberRows_numbers 1 cells⟩, ?_⟩
      refine forall₂_through (fun sv row tuple hrow htuple => ?_) hcells
        (numberRows_means [] cells)
      exact forall₂_through (fun c cell entry hcell hentry => ⟨cell, hcell, hentry⟩) hrow htuple

section Unique

variable {columns : List Runes} {cell other : StructValue D → Runes → Option (Cell D)}
  {structs : List (StructValue D)} {tuples : List (List Entry)} {values : List D}

theorem Binds.congr (h : Binds columns cell structs tuples values)
    (hcell : ∀ sv ∈ structs, ∀ c ∈ columns, cell sv c = other sv c) :
    Binds columns other structs tuples values := by
  refine ((List.forall₂_and_left _ _).mpr ⟨hcell, h⟩).imp fun sv tuple hrow => ?_
  refine ((List.forall₂_and_left _ _).mpr hrow).imp fun c entry hc => ?_
  rw [← hc.1]
  exact hc.2

/-- The tuples and the values determine the cells. -/
theorem Binds.unique (h : Binds columns cell structs tuples values)
    (h' : Binds columns other structs tuples values) :
    ∀ sv ∈ structs, ∀ c ∈ columns, ∃ found, cell sv c = some found ∧ other sv c = some found := by
  have hrows : List.Forall₂ (fun sv sv' => List.Forall₂ (fun c c' =>
      ∃ found, cell sv c = some found ∧ other sv' c' = some found) columns columns)
      structs structs := by
    refine forall₂_through (fun sv tuple sv' hrow hrow' => ?_) h h'
    refine forall₂_through (fun c entry c' hc hc' => ?_) hrow hrow'
    obtain ⟨found, hfound, hmeans⟩ := hc
    obtain ⟨found', hfound', hmeans'⟩ := hc'
    exact ⟨found, hfound, by rw [hfound', hmeans.unique hmeans']⟩
  exact fun sv hsv => List.forall₂_same.mp (List.forall₂_same.mp hrows sv hsv)

end Unique

section Agreement

variable {R : Runtime D E} {sv : StructValue D} {t : StructType} {c : Runes}

/-- The row's type has a field for the column, too. The field at the index of the first type's
field and the row's own one are both left out under the options of their tags, or both give the
same value. -/
def AgreesOn (R : Runtime D E) (t : StructType) (sv : StructValue D) (c : Runes) : Prop :=
  ∃ field index own ownIndex read readAs value,
    t.lastTagged c = some (field, index) ∧ sv.type.lastTagged c = some (own, ownIndex) ∧
    sv.values[index]? = some read ∧ sv.type.fields[index]? = some readAs ∧
    sv.values[ownIndex]? = some value ∧
    omits R field.dbTag read = omits R own.dbTag value ∧
    (omits R own.dbTag value = false →
      encode R field.dbTag readAs.kind read = encode R own.dbTag own.kind value)

theorem cellOf_eq_iff {tag tag' : Runes} {kind kind' : Kind} {value value' : D} {found : Cell D}
    (h : cellOf R tag kind value = some found) :
    cellOf R tag' kind' value' = some found ↔ omits R tag value = omits R tag' value' ∧
      (omits R tag' value' = false → encode R tag kind value = encode R tag' kind' value') := by
  unfold cellOf at h ⊢
  generalize omits R tag value = omitted, omits R tag' value' = omitted' at h ⊢
  cases omitted with
  | true =>
    cases h
    cases omitted' <;> simp
  | false =>
    obtain ⟨bound, hbound, rfl⟩ := Option.map_eq_some_iff.mp h
    cases omitted' <;> simp [hbound, eq_comm]

theorem fields_of_lastTagged {field : StructField} {index : Nat}
    (h : t.lastTagged c = some (field, index)) : t.fields[index]? = some field := by
  have hmem := List.mem_of_find?_eq_some h
  exact List.mk_mem_zipIdx_iff_getElem?.mp (List.mem_reverse.mp hmem)

theorem cellBy_eq_some_iff {found : Cell D} :
    sv.cellBy R t c = some found ↔ ∃ field index read readAs,
      t.lastTagged c = some (field, index) ∧ sv.values[index]? = some read ∧
      sv.type.fields[index]? = some readAs ∧
      cellOf R field.dbTag readAs.kind read = some found := by
  rw [StructValue.cellBy, Option.bind_eq_some_iff]
  constructor
  · rintro ⟨⟨field, index⟩, htagged, hcell⟩
    rw [StructValue.cellAt] at hcell
    split at hcell
    · next read readAs hread hreadAs =>
        exact ⟨field, index, read, readAs, htagged, hread, hreadAs, hcell⟩
    · cases hcell
  · rintro ⟨field, index, read, readAs, htagged, hread, hreadAs, hcell⟩
    exact ⟨(field, index), htagged, by simp [StructValue.cellAt, hread, hreadAs, hcell]⟩

/-- The cell that is bound is the row's own one iff the row agrees. -/
theorem ownCell_eq_iff {found : Cell D} (h : sv.cellBy R t c = some found) :
    sv.ownCell R c = some found ↔ AgreesOn R t sv c := by
  obtain ⟨field, index, read, readAs, htagged, hread, hreadAs, hcell⟩ := cellBy_eq_some_iff.mp h
  rw [StructValue.ownCell, cellBy_eq_some_iff]
  constructor
  · rintro ⟨own, ownIndex, value, ownAs, hown, hvalue, hownAs, hownCell⟩
    obtain rfl := Option.some.inj ((fields_of_lastTagged hown).symm.trans hownAs)
    exact ⟨field, index, own, ownIndex, read, readAs, value, htagged, hown, hread, hreadAs, hvalue,
      (cellOf_eq_iff hcell).mp hownCell⟩
  · rintro ⟨field', index', own, ownIndex, read', readAs', value, htagged', hown, hread', hreadAs',
      hvalue, hagree⟩
    cases htagged.symm.trans htagged'
    cases hread.symm.trans hread'
    cases hreadAs.symm.trans hreadAs'
    exact ⟨own, ownIndex, value, own, hown, hvalue, fields_of_lastTagged hown,
      (cellOf_eq_iff hcell).mpr hagree⟩

end Agreement

/-- A statement of the bulk insert always has one tuple per row and one entry per column,
numbers its placeholders from `$1` to the number of values, and binds the cells that
the first row's type finds in each row. These are the row's own cells iff every other
row agrees with that type, as it does if it has the columns in the same fields. -/
theorem bulk_insert_binds_own_cells_iff (R : Runtime D E) (tableName query : Runes)
    (data : List (Row D)) (values : List D)
    (h : generateMultiInsertQueriesFromStructArray R tableName data = .ok (query, values)) :
    ∃ first rest tuples, data.map Row.struct? = (first :: rest).map some ∧
      Written E tableName (dbFields first.type).1 tuples query values ∧
      Binds (dbFields first.type).1 (fun sv => sv.cellBy R first.type) (first :: rest) tuples
        values ∧
      (Binds (dbFields first.type).1 (fun sv => sv.ownCell R) (first :: rest) tuples values ↔
        ∀ sv ∈ rest, ∀ c ∈ (dbFields first.type).1, AgreesOn R first.type sv c) ∧
      ((∀ sv ∈ rest, ∀ c ∈ (dbFields first.type).1,
          sv.type.lastTagged c = first.type.lastTagged c) →
        ∀ sv ∈ rest, ∀ c ∈ (dbFields first.type).1, AgreesOn R first.type sv c) := by
  obtain ⟨first, rest, tuples, hrows, hwritten, hbinds⟩ := binds_first_type h
  refine ⟨first, rest, tuples, hrows, hwritten, hbinds,
    ⟨fun hown sv hsv c hc => ?_, fun hagree => ?_⟩, ?_⟩
  · obtain ⟨found, hfound, hfound'⟩ := hbinds.unique hown sv (List.mem_cons_of_mem _ hsv) c hc
    exact (ownCell_eq_iff hfound).mp hfound'
  · refine hbinds.congr fun sv hsv c hc => ?_
    obtain ⟨found, hfound, -⟩ := hbinds.unique hbinds sv hsv c hc
    rcases List.mem_cons.mp hsv with rfl | hsv
    · rfl
    · exact hfound.trans ((ownCell_eq_iff hfound).mpr (hagree sv hsv c hc)).symm
  · intro htagged sv hsv c hc
    obtain ⟨found, hfound, -⟩ := hbinds.unique hbinds sv (List.mem_cons_of_mem _ hsv) c hc
    refine (ownCell_eq_iff hfound).mp ?_
    rw [← hfound, StructValue.ownCell, StructValue.cellBy, StructValue.cellBy, htagged sv hsv c hc]

private def basicRuntime : Runtime (Int ⊕ Runes) Unit where
  nil := .inl 0
  asString := Sum.getRight?
  ofString := .inr
  kind := Sum.elim (fun _ => .int) (fun _ => .string)
  isNil _ := false
  len _ := 0
  isZero := Sum.elim (· = 0) (· = [])
  marshal _ := .error ()

private def idField : StructField := ⟨"id".toList, .int, true⟩

private def nameField : StructField := ⟨"name,omitempty".toList, .string, true⟩

private def user (id : Int) (name : String) : StructValue (Int ⊕ Runes) :=
  ⟨⟨"User", [idField, nameField]⟩, [.inl id, .inr name.toList], rfl⟩

private def guest (name : String) (id : Int) : StructValue (Int ⊕ Runes) :=
  ⟨⟨"Guest", [nameField, idField]⟩, [.inr name.toList, .inl id], rfl⟩

/-- Two rows of one type, the second one a pointer with an empty name. -/
theorem users_bind_own_cells :
    (generateMultiInsertQueriesFromStructArray basicRuntime "users".toList
        [.struct (user 1 "a"), .ptr (.struct (user 2 ""))] =
      .ok ("INSERT INTO \"users\" (\"id\", \"name\") VALUES ($1, $2), ($3, DEFAULT)".toList,
        [.inl 1, .inr "a".toList, .inl 2])) ∧
    ∃ tuples, Binds ["id".toList, "name".toList] (fun sv => sv.ownCell basicRuntime)
      [user 1 "a", user 2 ""] tuples [.inl 1, .inr "a".toList, .inl 2] := by
  refine (and_iff_left_of_imp fun hcall => ?_).mpr rfl
  obtain ⟨first, rest, tuples, hrows, -, -, hiff, htypes⟩ :=
    bulk_insert_binds_own_cells_iff basicRuntime _ _ _ _ hcall
  cases List.map_injective_iff.mpr (Option.some_injective _)
    (show [user 1 "a", user 2 ""].map some = (first :: rest).map some from hrows)
  exact ⟨tuples, hiff.mpr (htypes (List.forall_mem_singleton.mpr fun _ _ => rfl))⟩

/-- A row of another type is bound by position: the third placeholder, in the column `id`, is bound
to the name of the guest, and the fourth one, in the column `name`, to the number. -/
theorem guest_bound_to_wrong_columns :
    generateMultiInsertQueriesFromStructArray basicRuntime "users".toList
        [.struct (user 1 "a"), .struct (guest "b" 2)] =
      .ok ("INSERT INTO \"users\" (\"id\", \"name\") VALUES ($1, $2), ($3, $4)".toList,
        [.inl 1, .inr "a".toList, .inr "b".toList, .inl 2]) ∧
    (guest "b" 2).ownCell basicRuntime "id".toList = some (.bound (.inl 2)) ∧
    (guest "b" 2).ownCell basicRuntime "name".toList = some (.bound (.inr "b".toList)) := by
  exact ⟨rfl, rfl, rfl⟩

end Photon.Postgres
