import Photon.FlashDb.Value
import Photon.Lib.Delimited

/-!
The requests of the cache layer and the physical keys they are made under. A caller names a
record by a namespace, a collection and a key. FlashDB leaves empty names out and joins the
rest with `::`; the Redis and the Memcached cache put a single colon between all three.
-/

namespace Photon.Caching

open Photon.Lib Photon.FlashDb

structure Address where
  ns : String
  coll : String
  key : String
deriving DecidableEq

/-- What the caches ask about the value in an interface: whether it is nil or a
`map[string]any`, what FlashDB stores of it, the bytes of a `[]byte` or a `string`, and
the answer of `json.Marshal`. -/
structure AnyValue (V : Type) where
  isNil : V → Bool
  asFields : V → Option FieldMap
  stored : V → Value
  asBytes : V → Option String
  marshal : V → Except String String

structure SetRequest (V : Type) where
  address : Address
  value : V
  fields : FieldMap
  ttl : Int64

structure IncrementRequest where
  address : Address
  fields : Option (GoMap Int64)
  value : Int64

/-- The maps of keys to fields and of keys to values, both under one namespace and collection. -/
structure MultiSetRequest (V : Type) where
  ns : String
  coll : String
  fieldsMap : GoMap FieldMap
  valueMap : GoMap V
  ttl : Int64

structure SetTTLRequest where
  address : Address
  ttl : Int64

inductive Write (V : Type) where
  | set (req : SetRequest V)
  | delete (address : Address)
  | increment (req : IncrementRequest)

def Write.address {V : Type} : Write V → Address
  | .set req => req.address
  | .delete address => address
  | .increment req => req.address

def getSerialisedValue {V : Type} (R : AnyValue V) (value : V) : Except String String :=
  match R.asBytes value with
  | some bytes => .ok bytes
  | none =>
    match R.marshal value with
    | .ok bytes => .ok bytes
    | .error _ =>
      .error "value should be one of \x7bstring, byteArray, json serialisable\x7d datatype"

def composeKey (ns coll key : String) : Except String String :=
  if key = "" then .error "flashdbcache: empty key provided"
  else if ns = "" ∧ coll = "" then .ok key
  else if ns = "" then .ok (coll ++ "::" ++ key)
  else if coll = "" then .ok (ns ++ "::" ++ key)
  else .ok (ns ++ "::" ++ coll ++ "::" ++ key)

def joinKey (ns coll key : String) : String := ns ++ ":" ++ coll ++ ":" ++ key

def RedisCache.formatKey (ns coll key : String) : String := joinKey ns coll key

def MemcachedCache.formatKey (ns coll key : String) : String := joinKey ns coll key

namespace Address

structure Plain (a : Address) : Prop where
  ns : ':' ∉ a.ns.toList
  coll : ':' ∉ a.coll.toList
  key : ':' ∉ a.key.toList
  nonempty : a.key ≠ ""

/-- What FlashDB keeps of an address: the names that are not empty, and the key. -/
def parts (a : Address) : List String := [a.ns, a.coll].filter (· ≠ "") ++ [a.key]

def components (a : Address) : List String := [a.ns, a.coll, a.key]

theorem components_inj {a b : Address} (h : a.components = b.components) : a = b := by
  obtain ⟨ns, coll, key⟩ := a
  obtain ⟨ns', coll', key'⟩ := b
  simpa [components] using h

theorem Plain.components {a : Address} (h : a.Plain) :
    ∀ part ∈ a.components, ':' ∉ part.toList := by
  simp [Address.components, h.ns, h.coll, h.key]

theorem Plain.parts {a : Address} (h : a.Plain) : ∀ part ∈ a.parts, ':' ∉ part.toList := by
  intro part hpart
  refine h.components part ?_
  rcases List.mem_append.mp hpart with hname | hkey
  · have hmem := List.mem_of_mem_filter hname
    simp only [Address.components, List.mem_cons, List.not_mem_nil, or_false] at hmem ⊢
    tauto
  · simp_all [Address.components]

end Address

theorem joinKey_toList (ns coll key : String) :
    (joinKey ns coll key).toList = ns.toList ++ ':' :: (coll.toList ++ ':' :: key.toList) := by
  simp [joinKey]

/-- Both ways to join are joins of a list of parts. -/
theorem joinKey_eq_intercalate (a : Address) :
    (joinKey a.ns a.coll a.key).toList = [':'].intercalate (a.components.map String.toList) := by
  simp [joinKey_toList, Address.components, List.intercalate_cons_cons]

theorem composeKey_eq_intercalate {a : Address} (hkey : a.key ≠ "") :
    ∃ physical, composeKey a.ns a.coll a.key = .ok physical ∧
      physical.toList = [':', ':'].intercalate (a.parts.map String.toList) := by
  by_cases hns : a.ns = "" <;> by_cases hcoll : a.coll = "" <;>
    simp [composeKey, Address.parts, hkey, hns, hcoll, List.intercalate_cons_cons]

/-- Parts without a colon are told apart after joining. -/
theorem map_toList_inj {parts others : List String}
    (h : parts.map String.toList = others.map String.toList) : parts = others :=
  List.map_injective_iff.mpr (fun _ _ heq => String.toList_inj.mp heq) h

theorem joinKey_inj {a b : Address} (ha : a.Plain) (hb : b.Plain)
    (h : joinKey a.ns a.coll a.key = joinKey b.ns b.coll b.key) : a = b := by
  have htexts := congrArg String.toList h
  rw [joinKey_eq_intercalate, joinKey_eq_intercalate] at htexts
  refine Address.components_inj (map_toList_inj (intercalate_inj ?_ ?_ ?_ ?_ htexts))
  · simp [Address.components]
  · simp [Address.components]
  · simpa using ha.components
  · simpa using hb.components

/-- FlashDB tells two addresses apart exactly by the parts it keeps of them. -/
theorem composeKey_eq_iff {a b : Address} (ha : a.Plain) (hb : b.Plain) :
    composeKey a.ns a.coll a.key = composeKey b.ns b.coll b.key ↔ a.parts = b.parts := by
  obtain ⟨first, hfirst, htext⟩ := composeKey_eq_intercalate ha.nonempty
  obtain ⟨second, hsecond, htext'⟩ := composeKey_eq_intercalate hb.nonempty
  rw [hfirst, hsecond, Except.ok.injEq, ← String.toList_inj, htext, htext']
  constructor
  · intro h
    refine map_toList_inj (intercalate_inj ?_ ?_ ?_ ?_ h)
    · simp [Address.parts]
    · simp [Address.parts]
    · simpa using ha.parts
    · simpa using hb.parts
  · intro h
    rw [h]

end Photon.Caching
