import Photon.Lib.Fallible
import Photon.Sql.Identifier

/-!
The bulk insert of the Postgres helper. The columns come from the `db` tags of the
first row's struct type; the values of each row are read by field index, and one
running counter numbers the placeholders of all rows. Rows are values of any type, as
reflection shows them.
-/

namespace Photon.Postgres

open Photon.Lib Photon.Sql

inductive Kind
  | invalid | bool | int | int8 | int16 | int32 | int64
  | uint | uint8 | uint16 | uint32 | uint64 | uintptr
  | float32 | float64 | complex64 | complex128
  | array | chan | func | interface | map | ptr | slice | string | struct | unsafePointer
deriving DecidableEq

def Kind.text : Kind → Runes
  | .invalid => "invalid".toList
  | .bool => "bool".toList
  | .int => "int".toList
  | .int8 => "int8".toList
  | .int16 => "int16".toList
  | .int32 => "int32".toList
  | .int64 => "int64".toList
  | .uint => "uint".toList
  | .uint8 => "uint8".toList
  | .uint16 => "uint16".toList
  | .uint32 => "uint32".toList
  | .uint64 => "uint64".toList
  | .uintptr => "uintptr".toList
  | .float32 => "float32".toList
  | .float64 => "float64".toList
  | .complex64 => "complex64".toList
  | .complex128 => "complex128".toList
  | .array => "array".toList
  | .chan => "chan".toList
  | .func => "func".toList
  | .interface => "interface".toList
  | .map => "map".toList
  | .ptr => "ptr".toList
  | .slice => "slice".toList
  | .string => "string".toList
  | .struct => "struct".toList
  | .unsafePointer => "unsafe.Pointer".toList

/-- What the helpers ask of `reflect` and of `json.Marshal` about the value in an
interface. `isZero` is `reflect.DeepEqual(value, reflect.Zero(v.Type()).Interface())`. -/
structure Runtime (D E : Type) where
  nil : D
  asString : D → Option Runes
  ofString : Runes → D
  kind : D → Kind
  isNil : D → Bool
  len : D → Nat
  isZero : D → Bool
  marshal : D → Except E Runes

variable {D E : Type}

def isEmpty (R : Runtime D E) (value : D) : Bool :=
  match R.asString value with
  | some s => s.isEmpty
  | none =>
    match R.kind value with
    | .invalid => true
    | .ptr | .interface => R.isNil value
    | .map => R.isNil value || R.len value == 0
    | .array | .slice => R.len value == 0
    | _ => R.isZero value

/-- `reflect.StructField`, with `Tag.Get("db")`. -/
structure StructField where
  dbTag : Runes
  kind : Kind
  exported : Bool
deriving DecidableEq

structure StructType where
  name : String
  fields : List StructField
deriving DecidableEq

structure StructValue (D : Type) where
  type : StructType
  values : List D
  length_eq : values.length = type.fields.length

/-- A row as `reflect.ValueOf` shows it. The nil interface has kind `invalid`. -/
inductive Row (D : Type)
  | struct (sv : StructValue D)
  | ptr (target : Row D)
  | nilPtr
  | other (kind : Kind) (plain : kind ≠ .struct ∧ kind ≠ .ptr)

def Row.kind : Row D → Kind
  | .struct _ => .struct
  | .ptr _ | .nilPtr => .ptr
  | .other kind _ => kind

/-- `v.Elem()` if the row is a pointer. -/
def Row.elem : Row D → Row D
  | .ptr target => target
  | .nilPtr => .other .invalid (by decide)
  | row => row

def Row.struct? (row : Row D) : Option (StructValue D) :=
  match row.elem with
  | .struct sv => some sv
  | _ => none

/-- A call that does not return its results: it panics, or it returns an error of
`fmt.Errorf` or of `json.Marshal`. -/
inductive Failure (E : Type)
  | panicked
  | errorf (e : Errorf)
  | marshal (e : E)

/-- The check of the kind, in `structTypeOf` and in `multiInsertRowValues`. -/
def structOf (row : Row D) : Except (Failure E) (StructValue D) :=
  match row.struct? with
  | some sv => .ok sv
  | none => .error (.errorf ⟨"expected struct input, got %s", [row.elem.kind.text]⟩)

def structTypeOf (row : Row D) : Except (Failure E) StructType := do
  let v ← structOf row
  return v.type

def dbTagName (field : StructField) : Runes × Bool :=
  if field.dbTag = [] then ([], false)
  else
    let name := (field.dbTag.splitOn ',').headD []
    (name, name ≠ ['-'])

/-- The columns, and the number of tagged fields that sizes the slice of values. A name
is in `fieldsMap` iff it is in `fields`. -/
def dbFields (t : StructType) : List Runes × Nat :=
  t.fields.foldl (fun (fields, estimatedFieldCount) field =>
    let (name, ok) := dbTagName field
    if !ok then (fields, estimatedFieldCount)
    else if fields.contains name then (fields, estimatedFieldCount + 1)
    else (fields ++ [name], estimatedFieldCount + 1)) ([], 0)

def quoteIdentifiers (fields : List Runes) : Except (Failure E) (List Runes) :=
  fields.mapM fun c => (safeIdent c).mapError .errorf

/-- The maps `fieldValues` and `fieldIsDefault` of one row. -/
structure RowMaps (D : Type) where
  fieldValues : Runes → D
  fieldIsDefault : Runes → Bool

def RowMaps.set (maps : RowMaps D) (name : Runes) (value : D) (useDefault : Bool) : RowMaps D where
  fieldValues := Function.update maps.fieldValues name value
  fieldIsDefault := Function.update maps.fieldIsDefault name useDefault

/-- `sv.Field(index).Interface()` and `sv.Field(index).Kind()`. The first panics on an
index outside the struct and on a field that is not exported. -/
def StructValue.field (sv : StructValue D) (index : Nat) : Except (Failure E) (D × Kind) :=
  match sv.values[index]?, sv.type.fields[index]? with
  | some value, some own => if own.exported then .ok (value, own.kind) else .error .panicked
  | _, _ => .error .panicked

def setMultiInsertFieldValue (R : Runtime D E) (sv : StructValue D) (field : StructField)
    (index : Nat) (maps : RowMaps D) : Except (Failure E) (RowMaps D) :=
  if field.dbTag = [] then .ok maps
  else
    let tagParts := field.dbTag.splitOn ','
    let name := tagParts.headD []
    if name = ['-'] then .ok maps
    else do
      let (value, kind) ← sv.field index
      let useDefault := tagParts.contains "omitempty".toList && isEmpty R value
      if !useDefault && tagParts.contains "marshaljson".toList && kind = .struct then
        let jsonValue ← (R.marshal value).mapError .marshal
        return maps.set name (R.ofString jsonValue) useDefault
      else
        return maps.set name value useDefault

def multiInsertRowValues (R : Runtime D E) (row : Row D) (t : StructType) :
    Except (Failure E) (RowMaps D) := do
  let sv ← structOf row
  t.fields.zipIdx.foldlM (fun maps (field, i) => setMultiInsertFieldValue R sv field i maps)
    ⟨fun _ => R.nil, fun _ => false⟩

def joinComma (items : List Runes) : Runes := [',', ' '].intercalate items

/-- The loop over the columns, with the slices built so far and the next position. -/
def placeholderLoop (maps : RowMaps D) :
    List Runes → List Runes → List D → Nat → List Runes × List D × Nat
  | [], placeholders, values, argPos => (placeholders, values, argPos)
  | name :: fields, placeholders, values, argPos =>
    if maps.fieldIsDefault name then
      placeholderLoop maps fields (placeholders ++ ["DEFAULT".toList]) values argPos
    else
      placeholderLoop maps fields (placeholders ++ ['$' :: decimal argPos])
        (values ++ [maps.fieldValues name]) (argPos + 1)

def multiInsertPlaceholders (fields : List Runes) (maps : RowMaps D) (argPos : Nat) :
    Runes × List D × Nat :=
  let (placeholders, values, argPos) := placeholderLoop maps fields [] [] argPos
  ('(' :: joinComma placeholders ++ [')'], values, argPos)

def tupleLoop (R : Runtime D E) (t : StructType) (fields : List Runes) :
    List (Row D) → List Runes → List D → Nat → Except (Failure E) (List Runes × List D)
  | [], valueTuples, allValues, _ => .ok (valueTuples, allValues)
  | row :: data, valueTuples, allValues, argPos => do
      let maps ← multiInsertRowValues R row t
      let (tuple, values, argPos) := multiInsertPlaceholders fields maps argPos
      tupleLoop R t fields data (valueTuples ++ [tuple]) (allValues ++ values) argPos

def insertText (tbl : Runes) (quotedCols valueTuples : List Runes) : Runes :=
  "INSERT INTO ".toList ++ tbl ++ " (".toList ++ joinComma quotedCols ++ ") VALUES ".toList ++
    joinComma valueTuples

def generateMultiInsertQueriesFromStructArray (R : Runtime D E) (tableName : Runes)
    (data : List (Row D)) : Except (Failure E) (Runes × List D) := do
  let tbl ← (safeIdent tableName).mapError .errorf
  match data.head? with
  | none => .error .panicked
  | some row =>
    let t ← structTypeOf row
    let (fields, _) := dbFields t
    let quotedCols ← quoteIdentifiers fields
    let (valueTuples, allValues) ← tupleLoop R t fields data [] [] 1
    return (insertText tbl quotedCols valueTuples, allValues)

end Photon.Postgres
