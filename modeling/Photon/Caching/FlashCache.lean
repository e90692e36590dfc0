import Photon.Caching.Keys
import Photon.FlashDb.Frame

/-!
The cache on top of FlashDB. Every method checks its context and its request, composes
the physical key and makes one call to the store. `recordAt` is what the store holds
under an address.
-/

namespace Photon.Caching

open Photon.FlashDb Photon.Lib

/-- An error of a context, of the cache layer, or of the store below it. -/
inductive CacheError where
  | context (e : String)
  | text (message : String)
  | store (e : Err)

structure FlashDBCache (L : Type) where
  store : Store L
  defaultTTL : Int

/-- `time.Duration(s) * time.Second`, none for a negative number. -/
def secondsToDuration (s : Int64) : Int :=
  if s.toInt ≤ 0 then 0 else wrapI64 (s.toInt * 1000000000)

def maxInt64 (a b : Int64) : Int64 := if a > b then a else b

def flashDbDefaultShardCount : UInt8 := 128
def flashDbMaxSizeInBytes : UInt64 := 1073741824
def flashDbDefaultJanitorEvery : Int := 2 * minute

/-- `NewFlashDBCache`; the default TTL is converted once for the store and once for the cache. -/
def newFlashDBCache {L : Type} (newLfu : Options → Except String L) (defaultTTL : Int64) :
    Except String (FlashDBCache L) :=
  match newWith newLfu {
      shards := flashDbDefaultShardCount
      maxStorageSize := flashDbMaxSizeInBytes
      janitorEvery := flashDbDefaultJanitorEvery
      defaultTTL := secondsToDuration (maxInt64 0 defaultTTL)
      lfuDepth := 4
      lfuWidth := 65536
      lfuAgingEvery := 200000} with
  | .error e => .error e
  | .ok store => .ok ⟨store, secondsToDuration defaultTTL⟩

namespace FlashDBCache

variable {L V ρ α : Type} (R : AnyValue V) (c : FlashDBCache L)

/-- What all methods do before they call the store. `ctx` is the error of the context. -/
def withKey (ctx : Option String) (req : Option ρ) (nilText : String) (address : ρ → Address)
    (body : ρ → String → FlashDBCache L × Except CacheError α) :
    FlashDBCache L × Except CacheError α :=
  match ctx, req with
  | some e, _ => (c, .error (.context e))
  | none, none => (c, .error (.text nilText))
  | none, some req =>
    match composeKey (address req).ns (address req).coll (address req).key with
    | .error e => (c, .error (.text e))
    | .ok k => body req k

def after (out : Store L × Except Err α) : FlashDBCache L × Except CacheError α :=
  ({c with store := out.1}, out.2.mapError .store)

def payload (req : SetRequest V) : FieldMap :=
  match req.fields with
  | some fields => some fields
  | none =>
    if R.isNil req.value then some ∅
    else
      match R.asFields req.value with
      | some fields => fields
      | none => some (AList.singleton "bin" (R.stored req.value))

def effectiveTTL (ttl : Int64) : Int :=
  if secondsToDuration ttl = 0 then c.defaultTTL else secondsToDuration ttl

def deleteContext (ctx : Option String) (req : Option Address) :
    FlashDBCache L × Except CacheError Bool :=
  c.withKey ctx req "flashdbcache: invalid DeleteRequest" id fun _ k => c.after (c.store.delete k)

def selected (fields : List String) (value : FieldMap) : FieldMap :=
  if fields = [] then value
  else
    some (fields.foldl (fun out f =>
      match (value.getD ∅).lookup f with
      | some v => out.insert f v
      | none => out) ∅)

def recordAt (a : Address) : Option Record :=
  match composeKey a.ns a.coll a.key with
  | .ok k => c.store.recordOf k
  | .error _ => none

/-- A body that can change the record of its own key only, or take the record at `a`
away if it may. -/
theorem recordAt_withKey {c : FlashDBCache L} {ctx : Option String} {req : ρ} {nilText : String}
    {address : ρ → Address} {body : ρ → String → FlashDBCache L × Except CacheError α}
    {a : Address} {mayEvict : Prop}
    (hne : composeKey (address req).ns (address req).coll (address req).key ≠
      composeKey a.ns a.coll a.key)
    (hbody : ∀ k name, name ≠ k → (body req k).1.store.recordOf name = c.store.recordOf name ∨
      mayEvict ∧ (body req k).1.store.recordOf name = none) :
    (c.withKey ctx (some req) nilText address body).1.recordAt a = c.recordAt a ∨
      mayEvict ∧ (c.withKey ctx (some req) nilText address body).1.recordAt a = none := by
  unfold recordAt
  cases hname : composeKey a.ns a.coll a.key with
  | error e => exact Or.inl rfl
  | ok name =>
    cases ctx with
    | some e => exact Or.inl rfl
    | none =>
      rw [hname] at hne
      simp only [withKey]
      cases hkey : composeKey (address req).ns (address req).coll (address req).key with
      | error e => exact Or.inl rfl
      | ok k => exact hbody k name fun h => hne (by rw [hkey, h])

variable [AdmissionPolicy L]

def getContext (ctx : Option String) (req : Option (Address × List String)) (now : Time) :
    FlashDBCache L × Except CacheError FieldMap :=
  c.withKey ctx req "flashdbcache: nil GetRequest" Prod.fst fun req k =>
    let out := c.store.get k now
    c.after (out.1, out.2.map (selected req.2))

def setContext (ctx : Option String) (req : Option (SetRequest V)) (now : Time) :
    FlashDBCache L × Except CacheError Bool :=
  c.withKey ctx req "flashdbcache: invalid SetRequest" SetRequest.address fun req k =>
    c.after (c.store.set k (payload R req) (c.effectiveTTL req.ttl) now)

def setTTLContext (ctx : Option String) (req : Option SetTTLRequest) (now : Time) :
    FlashDBCache L × Except CacheError Unit :=
  c.withKey ctx req "flashdbcache: invalid SetTTLRequest" SetTTLRequest.address fun req k =>
    c.after (c.store.setTTL k (c.effectiveTTL req.ttl) now)

/-- Where the loops of `MultiSet` stand: the cache, the answers so far and the first error. -/
structure MultiSetState (L : Type) where
  cache : FlashDBCache L
  result : GoMap Bool
  firstErr : Option CacheError

def MultiSetState.put (s : MultiSetState L) (a : Address) (payload : FieldMap) (ttl : Int)
    (now : Time) : MultiSetState L :=
  if a.key = "" then {s with result := s.result.insert a.key false}
  else
    match composeKey a.ns a.coll a.key with
    | .error e =>
      {s with
        result := s.result.insert a.key false
        firstErr := s.firstErr.or (some (.text e))}
    | .ok k =>
      let out := s.cache.store.set k payload ttl now
      let cache := {s.cache with store := out.1}
      match out.2 with
      | .ok ok => ⟨cache, s.result.insert a.key ok, s.firstErr⟩
      | .error e => ⟨cache, s.result.insert a.key false, s.firstErr.or (some (.store e))⟩

def valuePayload (value : V) : FieldMap :=
  match R.asFields value with
  | some fields => fields
  | none => some (AList.singleton "bin" (R.stored value))

/-- One key of `FieldsMap`; no map is an empty one. -/
def MultiSetState.putFields (req : MultiSetRequest V) (ttl : Int) (clock : String → Time)
    (s : MultiSetState L) (key : String) : MultiSetState L :=
  s.put ⟨req.ns, req.coll, key⟩ (some (((req.fieldsMap.lookup key).getD none).getD ∅)) ttl
    (clock key)

/-- One key of `ValueMap`, passed over if it has an answer already. -/
def MultiSetState.putValue (req : MultiSetRequest V) (ttl : Int) (clock : String → Time)
    (s : MultiSetState L) (key : String) : MultiSetState L :=
  match s.result.lookup key, req.valueMap.lookup key with
  | none, some value => s.put ⟨req.ns, req.coll, key⟩ (valuePayload R value) ttl (clock key)
  | _, _ => s

/-- The keys of a map are visited in the order of the `range` loop; the clock is read by each
`Set` of the store. -/
def multiSetContext (ctx : Option String) (req : Option (MultiSetRequest V)) (order : RangeOrder)
    (clock : String → Time) : FlashDBCache L × Except CacheError (GoMap Bool × Option CacheError) :=
  match ctx, req with
  | some e, _ => (c, .error (.context e))
  | none, none => (c, .error (.text "flashdbcache: invalid MultiSetRequest"))
  | none, some req =>
    if req.fieldsMap.keys = [] ∧ req.valueMap.keys = [] then (c, .ok (∅, none))
    else
      let ttl := c.effectiveTTL req.ttl
      let start : MultiSetState L := ⟨c, ∅, none⟩
      let fields := (order.arrange req.fieldsMap.keys).foldl (.putFields req ttl clock) start
      let done := (order.arrange req.valueMap.keys).foldl (.putValue R req ttl clock) fields
      (done.cache, .ok (done.result, done.firstErr))

def incrementContext (ctx : Option String) (req : Option IncrementRequest) (now : Time) :
    FlashDBCache L × Except CacheError Unit :=
  c.withKey ctx req "flashdbcache: invalid IncrementRequest" IncrementRequest.address
    fun req k =>
      match req.fields with
      | some fields => c.after (c.store.increment k fields now)
      | none =>
        if req.value ≠ 0 then
          c.after (c.store.increment k (AList.singleton "bin" req.value) now)
        else (c, .ok ())

def write (ctx : Option String) (now : Time) :
    Write V → FlashDBCache L
  | .set req => (c.setContext R ctx (some req) now).1
  | .delete address => (c.deleteContext ctx (some address)).1
  | .increment req => (c.incrementContext ctx (some req) now).1

/-- A write under a different physical key leaves the record of an address as it is,
unless it is a `Set` that evicted the record. -/
theorem recordAt_write (ctx : Option String) (now : Time) (w : Write V) {a : Address}
    (hne : composeKey w.address.ns w.address.coll w.address.key ≠ composeKey a.ns a.coll a.key) :
    (c.write R ctx now w).recordAt a = c.recordAt a ∨
      (∃ req, w = .set req) ∧ (c.write R ctx now w).recordAt a = none := by
  cases w with
  | set req =>
    refine recordAt_withKey hne fun k name hname => ?_
    rcases c.store.set_recordOf_ne (payload R req) (c.effectiveTTL req.ttl) now hname with
      hnone | hsame
    · exact Or.inr ⟨⟨req, rfl⟩, hnone⟩
    · exact Or.inl hsame
  | delete address =>
    exact recordAt_withKey hne fun k name hname => Or.inl (c.store.delete_recordOf_ne hname)
  | increment req =>
    refine recordAt_withKey hne fun k name hname => Or.inl ?_
    split
    · exact c.store.increment_recordOf_ne _ now hname
    · split
      · exact c.store.increment_recordOf_ne _ now hname
      · rfl

end FlashDBCache

end Photon.Caching
