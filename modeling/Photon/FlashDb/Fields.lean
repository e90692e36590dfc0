import Photon.FlashDb.Shard

/-!
In-place updates of record fields: `addInt` of `storage/flashdb/utils.go` and the
loops of `Increment` and `Append` in `store.go`. The two loops differ only in
the update of one field, so they are one loop over a partial update. The field
map is returned next to the error, because a failing call has already written
the fields it visited before.
-/

namespace Photon.FlashDb

def int64ToInt32 (v : Int64) : Int32 × Bool :=
  if v < Int32.minValue.toInt64 ∨ Int32.maxValue.toInt64 < v then (0, false)
  else (v.toInt32, true)

/-- `none` is the `false` of the source. -/
def addInt (cur : Value) (delta : Int64) : Option Value :=
  match cur with
  | .int x =>
    if 0 < delta ∧ Int64.maxValue - delta < x then none
    else if delta < 0 ∧ x < Int64.minValue - delta then none
    else some (.int (x + delta))
  | .int32 x =>
    if 0 < delta ∧ Int32.maxValue.toInt64 - delta < x.toInt64 then none
    else if delta < 0 ∧ x.toInt64 < Int32.minValue.toInt64 - delta then none
    else
      let (next, ok) := int64ToInt32 (x.toInt64 + delta)
      if ok then some (.int32 next) else none
  | .int64 x => some (.int64 (x + delta))
  | .float64 x => some (.float64 (x + Float.ofInt delta.toInt))
  | _ => none

def appendString (cur : Value) (suffix : String) : Option Value :=
  match cur with
  | .string base => some (.string (base ++ suffix))
  | _ => none

def FieldMap.field (m : FieldMap) (name : String) : Option Value :=
  m.bind (fun fields => fields.lookup name)

def FieldMap.write (m : FieldMap) (name : String) (value : Value) : FieldMap :=
  m.map (fun fields => fields.insert name value)

/-- Visit the updates in iteration order and stop at the first field that is
missing or has the wrong type. -/
def updateLoop {δ : Type} (apply : Value → δ → Option Value) :
    List (Sigma fun _ : String => δ) → FieldMap → FieldMap × Except Err Unit
  | [], m => (m, .ok ())
  | ⟨name, change⟩ :: rest, m =>
    match m.field name with
    | none => (m, .error .illegalField)
    | some cur =>
      match apply cur change with
      | none => (m, .error .badType)
      | some next => updateLoop apply rest (m.write name next)

def incrementLoop (offsets : GoMap Int64) (m : FieldMap) : FieldMap × Except Err Unit :=
  updateLoop addInt offsets.entries m

def appendLoop (appends : GoMap String) (m : FieldMap) : FieldMap × Except Err Unit :=
  updateLoop appendString appends.entries m

/-- The map `Decrement` hands to `Increment`, in the visiting order of the
caller's map. -/
def negativeOffsets (offsets : GoMap Int64) : GoMap Int64 :=
  ⟨offsets.entries.map (fun entry => ⟨entry.1, -entry.2⟩), by
    have h := offsets.nodupKeys
    rw [List.NodupKeys, List.keys] at h ⊢
    rw [List.map_map]
    exact h⟩

@[simp]
theorem FieldMap.field_write_self {m : FieldMap} {name : String} {value old : Value}
    (hold : m.field name = some old) : (m.write name value).field name = some value := by
  cases m with
  | none => cases hold
  | some fields => exact AList.lookup_insert fields

theorem FieldMap.field_write_ne (m : FieldMap) {name other : String} (value : Value)
    (hne : other ≠ name) : (m.write name value).field other = m.field other := by
  cases m with
  | none => rfl
  | some fields => exact AList.lookup_insert_ne hne

end Photon.FlashDb
