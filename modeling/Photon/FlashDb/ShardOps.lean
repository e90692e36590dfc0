import Photon.FlashDb.Fields

/-!
The critical sections of `storage/flashdb/store.go`, one definition for each
store method. Every method reads the clock before it takes the lock; the
reading is an argument.
-/

namespace Photon.FlashDb

open Photon.Lib Photon.Stdlib

/-- The order in which a `range` loop over a map visits its keys. -/
structure RangeOrder where
  arrange : List String → List String
  perm : ∀ keys, (arrange keys).Perm keys

namespace Shard

variable (sh : Shard)

def touch (key : String) : Shard :=
  {sh with lru := (sh.lru.get key).1}

def rechargedSize (old newSize : Int) : Nat :=
  if old ≤ newSize then
    addU64 sh.currentSize (nonNegativeInt64ToUint64 (wrapI64 (newSize - old)))
  else
    subU64 sh.currentSize (nonNegativeInt64ToUint64 (wrapI64 (old - newSize)))

/-- The lookup every keyed method starts with: a missing record is left alone
and an expired one is removed. -/
def liveRecord (key : String) (now : Time) : Shard × Option Record :=
  match sh.data.lookup key with
  | none => (sh, none)
  | some record =>
    if record.isExpired now then (sh.removeLocked key, none) else (sh, some record)

/-- The section of `Exists` under the read lock: found, and if so expired. -/
def existsRead (key : String) (now : Time) : Option Bool :=
  (sh.data.lookup key).map (fun record => record.isExpired now)

/-- The section of `Exists` under the write lock, entered for an expired record. -/
def existsRemove (key : String) (now : Time) : Shard × Bool :=
  match sh.data.lookup key with
  | some record =>
    if record.isExpired now then (sh.removeLocked key, false) else (sh, true)
  | none => (sh, true)

def existsKey (key : String) (now : Time) : Shard × Bool :=
  match sh.existsRead key now with
  | none => (sh, false)
  | some false => (sh, true)
  | some true => sh.existsRemove key now

def get (key : String) (now : Time) : Shard × Except Err FieldMap :=
  match sh.liveRecord key now with
  | (sh, none) => (sh, .error .notFound)
  | (sh, some record) => (sh.touch key, .ok (clone record.value))

def update (key : String) (record : Record) (value : FieldMap) (exp : Time) : Shard :=
  let newSize := computeSize key value
  let currentSize :=
    if 0 ≤ newSize then sh.rechargedSize record.size newSize else sh.currentSize
  trim ({sh with
    data := sh.data.insert key ⟨clone value, newSize, exp⟩
    currentSize := currentSize}.touch key)

def insert (sh : Shard) (key : String) (value : FieldMap) (exp : Time) : Shard :=
  let newSize := computeSize key value
  {sh with
    data := sh.data.insert key ⟨clone value, newSize, exp⟩
    currentSize := addU64 sh.currentSize (nonNegativeInt64ToUint64 newSize)
    lru := (sh.lru.set key ()).1}

section

variable (sh : Shard) (key : String) (value : FieldMap) (exp : Time)

@[simp]
theorem insert_data :
    (sh.insert key value exp).data =
      sh.data.insert key ⟨value, computeSize key value, exp⟩ := by
  simp [insert]

@[simp]
theorem insert_lru :
    (sh.insert key value exp).lru = (sh.lru.set key ()).1 := rfl

@[simp]
theorem insert_currentSize :
    (sh.insert key value exp).currentSize =
      addU64 sh.currentSize (costOf key value) := rfl

end

def set (sh : Shard) (shouldAdmit : String → Bool) (key : String) (value : FieldMap)
    (exp : Time) : Shard × Bool :=
  match sh.data.lookup key with
  | some record => (sh.update key record value exp, true)
  | none =>
    let newCost := costOf key value
    if sh.capacity < newCost then (sh, false)
    else
      match sh.makeRoom shouldAdmit newCost with
      | (sh, false) => (sh, false)
      | (sh, true) => (sh.insert key value exp, true)

def delete (sh : Shard) (key : String) : Shard × Bool :=
  match sh.data.lookup key with
  | none => (sh, false)
  | some _ => (sh.removeLocked key, true)

/-- Store the fields as the update loop left them; size and expiry stay. -/
def writeFields (sh : Shard) (key : String) (record : Record) (fields : FieldMap) : Shard :=
  {sh with data := sh.data.insert key {record with value := fields}}

def increment (sh : Shard) (key : String) (offsets : GoMap Int64) (now : Time) :
    Shard × Except Err Unit :=
  match sh.liveRecord key now with
  | (sh, none) => (sh, .error .notFound)
  | (sh, some record) =>
    match incrementLoop offsets record.value with
    | (fields, .error e) => (sh.writeFields key record fields, .error e)
    | (fields, .ok ()) => ((sh.writeFields key record fields).touch key, .ok ())

def decrement (sh : Shard) (key : String) (offsets : GoMap Int64) (now : Time) :
    Shard × Except Err Unit :=
  sh.increment key (negativeOffsets offsets) now

def recharge (sh : Shard) (key : String) (record : Record) (fields : FieldMap) : Shard :=
  let newSize := computeSize key fields
  trim ({sh with
    data := sh.data.insert key ⟨fields, newSize, record.expiry⟩
    currentSize := sh.rechargedSize record.size newSize}.touch key)

def append (sh : Shard) (key : String) (appends : GoMap String) (now : Time) :
    Shard × Except Err Unit :=
  match sh.liveRecord key now with
  | (sh, none) => (sh, .error .notFound)
  | (sh, some record) =>
    match appendLoop appends record.value with
    | (fields, .error e) => (sh.writeFields key record fields, .error e)
    | (fields, .ok ()) => (sh.recharge key record fields, .ok ())

/-- `remaining` is the source's hook, which reads the clock a second time. -/
def getTTL (sh : Shard) (key : String) (now : Time) (remaining : Time → Int) :
    Shard × Except Err Int :=
  match sh.liveRecord key now with
  | (sh, none) => (sh, .error .notFound)
  | (sh, some record) =>
    if record.expiry = 0 then (sh, .ok (-1))
    else if remaining record.expiry < 0 then (sh.removeLocked key, .error .notFound)
    else (sh, .ok (remaining record.expiry))

def setTTL (sh : Shard) (key : String) (ttl : Int) (now : Time) :
    Shard × Except Err Unit :=
  match sh.liveRecord key now with
  | (sh, none) => (sh, .error .notFound)
  | (sh, some record) =>
    let expiry := if ttl ≤ 0 then 0 else now + ttl.toNat
    (touch {sh with data := sh.data.insert key {record with expiry := expiry}} key, .ok ())

/-- The inner loop of `janitor`, left early after `limit` deletions. -/
def sweepLoop (now : Time) (limit : Nat) : List String → Nat → Shard → Shard
  | [], _, sh => sh
  | key :: rest, deleted, sh =>
    match sh.data.lookup key with
    | none => sweepLoop now limit rest deleted sh
    | some record =>
      if record.isExpired now then
        if limit ≤ deleted + 1 then sh.removeLocked key
        else sweepLoop now limit rest (deleted + 1) (sh.removeLocked key)
      else sweepLoop now limit rest deleted sh

def maxDeletePerShard : Nat := 1024

def sweep (sh : Shard) (now : Time) (order : RangeOrder) : Shard :=
  sweepLoop now maxDeletePerShard (order.arrange sh.data.keys) 0 sh

end Shard

end Photon.FlashDb
