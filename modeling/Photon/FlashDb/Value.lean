import Mathlib.Data.List.AList
import Photon.Lib.MachineInt

/-!
The dynamic values FlashDB stores, and the reflective size estimate of
`utils/system/os.go` through which `storage/flashdb/utils.go` charges them.
Types the store never distinguishes are grouped by what the estimator sees of
them, with `bits` for their contents; a value of a defined type keeps its
underlying kind but no longer answers to the built-in type switches.
-/

namespace Photon.FlashDb

open Photon.Lib

/-- A Go map with string keys. The entry list carries no duplicate key, and its
order is the order in which a `range` loop happens to visit the entries. -/
abbrev GoMap (V : Type) := AList (fun _ : String => V)

inductive Value where
  | nilInterface : Value
  | int : Int64 → Value
  | int32 : Int32 → Value
  | int64 : Int64 → Value
  | float64 : Float → Value
  | string : String → Value
  | scalar (bytes bits : Nat) : Value
  | slice : List Value → Value
  | mapping : List (Value × Value) → Value
  | nilPointer : Value
  | pointer : Value → Value
  | struct (bytes bits : Nat) : Value
  | named (type : String) : Value → Value
  | unsupported (kind : String) (bits : Nat) : Value

/-- A field map; `none` is the nil map. -/
abbrev FieldMap := Option (GoMap Value)

def stringHeader : Int := 16
def sliceHeader : Int := 24
def mapHeader : Int := 48

/-- The two words of an interface header, which is what the estimator adds for
a pointer. -/
def pointerSize : Int := 16

mutual

def getInMemorySizeInBytes : Value → Except String Int
  | .int _ | .int64 _ | .float64 _ => .ok 8
  | .int32 _ => .ok 4
  | .scalar bytes _ | .struct bytes _ => .ok bytes
  | .string s => .ok (wrapI64 (stringHeader + s.utf8ByteSize))
  | .slice elems => sliceSize sliceHeader elems
  | .mapping entries => mappingSize mapHeader entries
  | .nilPointer => .ok 0
  | .pointer target => do
      let elemSize ← getInMemorySizeInBytes target
      return wrapI64 (pointerSize + elemSize)
  | .named _ underlying => getInMemorySizeInBytes underlying
  | .nilInterface => .error "unsupported type: invalid"
  | .unsupported kind _ => .error ("unsupported type: " ++ kind)

def sliceSize (totalSize : Int) : List Value → Except String Int
  | [] => .ok totalSize
  | elem :: rest => do
      let elemSize ← getInMemorySizeInBytes elem
      sliceSize (wrapI64 (totalSize + elemSize)) rest

def mappingSize (totalSize : Int) : List (Value × Value) → Except String Int
  | [] => .ok totalSize
  | (key, value) :: rest => do
      let keySize ← getInMemorySizeInBytes key
      let valueSize ← getInMemorySizeInBytes value
      mappingSize (wrapI64 (totalSize + wrapI64 (keySize + valueSize))) rest

end

/-- A field map as the estimator receives it; the nil map has no entries. -/
def FieldMap.toValue (m : FieldMap) : Value :=
  .mapping ((m.getD ∅).entries.map (fun entry => (.string entry.1, entry.2)))

def safeDeepSize (v : Value) : Int :=
  match getInMemorySizeInBytes v with
  | .error _ => 0
  | .ok size => if size < 0 then 0 else size

def recordOverhead : Int := 96

def computeSize (key : String) (value : FieldMap) : Int :=
  wrapI64 (wrapI64 (key.utf8ByteSize + recordOverhead) + safeDeepSize value.toValue)

/-- `clone` copies the entries and keeps a nil map nil. -/
def clone : FieldMap → FieldMap
  | none => none
  | some m => some m

@[simp]
theorem clone_eq (m : FieldMap) : clone m = m := by
  cases m <;> rfl

def nonNegativeInt64ToUint64 (v : Int) : Nat :=
  if v ≤ 0 then 0 else v.toNat

/-- What a new record is charged. -/
abbrev costOf (key : String) (value : FieldMap) : Nat :=
  nonNegativeInt64ToUint64 (computeSize key value)

theorem nonNegative_of_nonneg {v : Int} (h : 0 ≤ v) :
    (nonNegativeInt64ToUint64 v : Int) = v := by
  unfold nonNegativeInt64ToUint64
  split <;> omega

def exactSize (key : String) (value : FieldMap) : Int :=
  key.utf8ByteSize + recordOverhead + safeDeepSize value.toValue

theorem safeDeepSize_nonneg (v : Value) : 0 ≤ safeDeepSize v := by
  unfold safeDeepSize
  split
  · exact le_refl 0
  · split <;> omega

theorem exactSize_pos (key : String) (value : FieldMap) : 0 < exactSize key value := by
  have h := safeDeepSize_nonneg value.toValue
  unfold exactSize recordOverhead
  omega

/-- Below `2^63` the charged size is the exact one. -/
theorem computeSize_eq_exactSize {key : String} {value : FieldMap}
    (h : exactSize key value < 2 ^ 63) : computeSize key value = exactSize key value := by
  have hdeep := safeDeepSize_nonneg value.toValue
  unfold exactSize at h ⊢
  unfold computeSize
  unfold recordOverhead at h ⊢
  have hfixed : wrapI64 (key.utf8ByteSize + 96) = key.utf8ByteSize + 96 :=
    wrapI64_of_bounds (by omega) (by omega)
  rw [hfixed, wrapI64_of_bounds (by omega) (by omega)]

end Photon.FlashDb
