import Photon.FlashDb.ShardOps
import Photon.Lib.Machine
import Photon.Stdlib.TinyLfu

/-!
The sharded store of `storage/flashdb/store.go`. The store is generic in its
frequency sketch: results hold for whatever an admission policy answers, and
`TinyLfu` is the policy the source installs. A `Call` is one critical section
as a client sees it; a batch method is the sequence of calls it makes, each with
a clock reading of its own.
-/

namespace Photon.FlashDb

open Photon.Lib Photon.Stdlib

class AdmissionPolicy (L : Type) where
  record : L → String → L
  shouldAdmit : L → String → String → Bool

instance : AdmissionPolicy (TinyLfu String) where
  record := TinyLfu.record
  shouldAdmit := TinyLfu.shouldAdmit

structure Options where
  shards : UInt8
  maxStorageSize : UInt64
  defaultTTL : Int
  janitorEvery : Int
  lfuDepth : Int
  lfuWidth : UInt64
  lfuAgingEvery : UInt64

def shardCount : UInt8 := 128

def minute : Int := 60000000000

variable (opts : Options)

def Options.withDefaults : Options where
  shards := if opts.shards ≤ 0 then shardCount else opts.shards
  maxStorageSize := opts.maxStorageSize
  defaultTTL := opts.defaultTTL
  janitorEvery := if opts.janitorEvery = 0 then minute else opts.janitorEvery
  lfuDepth := if opts.lfuDepth = 0 then 4 else opts.lfuDepth
  lfuWidth := if opts.lfuWidth = 0 then 65536 else opts.lfuWidth
  lfuAgingEvery := if opts.lfuAgingEvery = 0 then 200000 else opts.lfuAgingEvery

/-- The expiry of a write; a zero TTL falls back to the default one. -/
def Options.expiryFor (ttl : Int) (now : Time) : Time :=
  let ttl := if ttl = 0 ∧ 0 < opts.defaultTTL then opts.defaultTTL else ttl
  if 0 < ttl then now + ttl.toNat else 0

/-- A write is live when it is made. -/
theorem Options.expiryFor_live (ttl : Int) (now : Time) :
    opts.expiryFor ttl now = 0 ∨ now ≤ opts.expiryFor ttl now := by
  unfold expiryFor
  dsimp only
  generalize (if ttl = 0 ∧ 0 < opts.defaultTTL then opts.defaultTTL else ttl) = effective
  split
  · exact Or.inr (Nat.le_add_right _ _)
  · exact Or.inl rfl

theorem Options.withDefaults_shards_pos : 0 < opts.withDefaults.shards.toNat := by
  unfold withDefaults
  dsimp only
  split
  · decide
  · next hne => simpa [UInt8.le_iff_toNat_le, Nat.pos_iff_ne_zero] using hne

structure Store (L : Type) where
  shards : List Shard
  opts : Options
  lfu : Option L
  nonempty : 0 < shards.length

def emptyShard (perShard : Nat) : Shard :=
  ⟨∅, Lru.new 0 false, perShard, 0⟩

/-- `New`, generic in the construction of the sketch. A positive `janitorEvery`
starts the janitor; its sweeps are calls of their own below. -/
def newWith {L : Type} (newLfu : Options → Except String L) (opts : Options) :
    Except String (Store L) :=
  let opts := opts.withDefaults
  match newLfu opts with
  | .error e => .error e
  | .ok lfu =>
    if opts.maxStorageSize = 0 then .error "flashdb: MaxStorageSize must be > 0"
    else
      let perShard := opts.maxStorageSize.toNat / opts.shards.toNat
      .ok {
        shards := List.replicate opts.shards.toNat (emptyShard perShard)
        opts := opts
        lfu := some lfu
        nonempty := by simpa [opts] using Options.withDefaults_shards_pos _}

def newTinyLfu (opts : Options) : Except String (TinyLfu String) :=
  TinyLfu.new opts.lfuDepth opts.lfuWidth opts.lfuAgingEvery hash64String

def new (opts : Options) : Except String (Store (TinyLfu String)) :=
  newWith newTinyLfu opts

def fnv32a (key : String) : UInt32 :=
  key.toUTF8.data.toList.foldl (fun h b => (h ^^^ b.toUInt32) * 16777619) 2166136261

def shardIndex (count : Nat) (key : String) : Nat := (fnv32a key).toNat % count

namespace Store

variable {L : Type} (st : Store L)

theorem shardIndex_lt (key : String) : shardIndex st.shards.length key < st.shards.length :=
  Nat.mod_lt _ st.nonempty

def shardFor (key : String) : Shard :=
  st.shards.get ⟨shardIndex st.shards.length key, st.shardIndex_lt key⟩

def putShard (key : String) (sh : Shard) : Store L :=
  {st with
    shards := st.shards.set (shardIndex st.shards.length key) sh
    nonempty := by simpa using st.nonempty}

def sweepShard (i : Nat) (now : Time) (order : RangeOrder) : Store L :=
  {st with
    shards := st.shards.modify i (fun sh => sh.sweep now order)
    nonempty := by simpa using st.nonempty}

/-- One tick of `janitor`: the shards in turn, all at the tick's time. -/
def janitor (now : Time) (order : RangeOrder) : Store L :=
  (List.range st.shards.length).foldl (fun st i => st.sweepShard i now order) st

variable [AdmissionPolicy L]

def recordAccess (key : String) : Store L :=
  {st with lfu := st.lfu.map (fun lfu => AdmissionPolicy.record lfu key)}

/-- The admission test of `Set`; without a sketch every victim may go. -/
def admits (key victim : String) : Bool :=
  match st.lfu with
  | none => true
  | some lfu => AdmissionPolicy.shouldAdmit lfu key victim

def recordOk {α : Type} (key : String) : Except Err α → Store L
  | .ok _ => st.recordAccess key
  | .error _ => st

def existsKey (st : Store L) (key : String) (now : Time) : Store L × Except Err Bool :=
  if key = "" then (st, .error .invalidKey)
  else
    let out := (st.shardFor key).existsKey key now
    (st.putShard key out.1, .ok out.2)

def get (st : Store L) (key : String) (now : Time) : Store L × Except Err FieldMap :=
  if key = "" then (st, .error .invalidKey)
  else
    let out := (st.shardFor key).get key now
    ((st.putShard key out.1).recordOk key out.2, out.2)

def set (st : Store L) (key : String) (value : FieldMap) (ttl : Int) (now : Time) :
    Store L × Except Err Bool :=
  if key = "" then (st, .error .invalidKey)
  else
    let exp := st.opts.expiryFor ttl now
    let st := st.recordAccess key
    let out := (st.shardFor key).set (st.admits key) key value exp
    (st.putShard key out.1, .ok out.2)

def delete (st : Store L) (key : String) : Store L × Except Err Bool :=
  if key = "" then (st, .error .invalidKey)
  else
    let out := (st.shardFor key).delete key
    (st.putShard key out.1, .ok out.2)

def increment (st : Store L) (key : String) (offsets : GoMap Int64) (now : Time) :
    Store L × Except Err Unit :=
  if key = "" then (st, .error .invalidKey)
  else
    let out := (st.shardFor key).increment key offsets now
    ((st.putShard key out.1).recordOk key out.2, out.2)

def decrement (key : String) (offsets : GoMap Int64) (now : Time) : Store L × Except Err Unit :=
  st.increment key (negativeOffsets offsets) now

def append (st : Store L) (key : String) (appends : GoMap String) (now : Time) :
    Store L × Except Err Unit :=
  if key = "" then (st, .error .invalidKey)
  else
    let out := (st.shardFor key).append key appends now
    ((st.putShard key out.1).recordOk key out.2, out.2)

def getTTL (st : Store L) (key : String) (now : Time) (remaining : Time → Int) :
    Store L × Except Err Int :=
  if key = "" then (st, .error .invalidKey)
  else
    let out := (st.shardFor key).getTTL key now remaining
    (st.putShard key out.1, out.2)

def setTTL (st : Store L) (key : String) (ttl : Int) (now : Time) :
    Store L × Except Err Unit :=
  if key = "" then (st, .error .invalidKey)
  else
    let out := (st.shardFor key).setTTL key ttl now
    ((st.putShard key out.1).recordOk key out.2, out.2)

/-- The loop of the batch methods: an empty key gets its result without a call,
every other item is one call whose answer is collected. -/
def batch {ι α ρ : Type} (keyOf : ι → String) (one : Store L → ι → Store L × Except Err α)
    (skip : GoMap ρ → ι → GoMap ρ) (collect : GoMap ρ → ι → Except Err α → GoMap ρ)
    (st : Store L) : List ι → GoMap ρ → Store L × GoMap ρ
  | [], res => (st, res)
  | item :: rest, res =>
    if keyOf item = "" then batch keyOf one skip collect st rest (skip res item)
    else
      batch keyOf one skip collect (one st item).1 rest (collect res item (one st item).2)

/-- A missing key is left out of the result of `MultiGet`. -/
def collectFound (out : GoMap FieldMap) (item : String × Time) :
    Except Err FieldMap → GoMap FieldMap
  | .ok value => out.insert item.1 value
  | .error _ => out

/-- An error counts as `false` in the per-key results of the writing batches. -/
def collectFlag (res : GoMap Bool) (key : String) : Except Err Bool → GoMap Bool
  | .ok flag => res.insert key flag
  | .error _ => res.insert key false

/-- `MultiGet` over the requested keys, each with the clock reading of its own
lookup. -/
def multiGet (keys : List (String × Time)) : Store L × GoMap FieldMap :=
  batch Prod.fst (fun st item => st.get item.1 item.2) (fun out _ => out) collectFound
    st keys ∅

/-- `MultiSet` over the items in the order the map yields them. -/
def multiSet (items : List (String × FieldMap × Time)) (ttl : Int) : Store L × GoMap Bool :=
  batch Prod.fst (fun st item => st.set item.1 item.2.1 ttl item.2.2)
    (fun res item => res.insert item.1 false) (fun res item => collectFlag res item.1)
    st items ∅

def multiDelete (keys : List String) : Store L × GoMap Bool :=
  batch id delete (fun res key => res.insert key false) collectFlag st keys ∅

end Store

/-- One critical section of a client or of the janitor. `sweepShard` names the
shard by its index. -/
inductive Call where
  | existsKey (key : String) (now : Time)
  | get (key : String) (now : Time)
  | set (key : String) (value : FieldMap) (ttl : Int) (now : Time)
  | delete (key : String)
  | increment (key : String) (offsets : GoMap Int64) (now : Time)
  | decrement (key : String) (offsets : GoMap Int64) (now : Time)
  | append (key : String) (appends : GoMap String) (now : Time)
  | getTTL (key : String) (now : Time) (remaining : Time → Int)
  | setTTL (key : String) (ttl : Int) (now : Time)
  | sweepShard (shard : Nat) (now : Time) (order : RangeOrder)

inductive Reply where
  | found (answer : Except Err Bool)
  | value (answer : Except Err FieldMap)
  | stored (answer : Except Err Bool)
  | deleted (answer : Except Err Bool)
  | done (answer : Except Err Unit)
  | seconds (answer : Except Err Int)
  | swept

section Runs

variable {L : Type} [AdmissionPolicy L]

def perform (st : Store L) : Call → Store L × Reply
  | .existsKey key now => (st.existsKey key now).map id .found
  | .get key now => (st.get key now).map id .value
  | .set key value ttl now => (st.set key value ttl now).map id .stored
  | .delete key => (st.delete key).map id .deleted
  | .increment key offsets now => (st.increment key offsets now).map id .done
  | .decrement key offsets now => (st.decrement key offsets now).map id .done
  | .append key appends now => (st.append key appends now).map id .done
  | .getTTL key now remaining => (st.getTTL key now remaining).map id .seconds
  | .setTTL key ttl now => (st.setTTL key ttl now).map id .done
  | .sweepShard i now order => (st.sweepShard i now order, .swept)

def storeMachine : Machine (Store L) Call Reply := ⟨perform⟩

inductive Op where
  | call (c : Call)
  | multiGet (keys : List (String × Time))
  | multiSet (items : List (String × FieldMap × Time)) (ttl : Int)
  | multiDelete (keys : List String)
  | janitor (now : Time) (order : RangeOrder)

def execute (st : Store L) : Op → Store L
  | .call c => (perform st c).1
  | .multiGet keys => (st.multiGet keys).1
  | .multiSet items ttl => (st.multiSet items ttl).1
  | .multiDelete keys => (st.multiDelete keys).1
  | .janitor now order => st.janitor now order

/-- The calls a method makes on a store with `count` shards. Batch methods skip
the empty key. -/
def Op.calls (count : Nat) : Op → List Call
  | .call c => [c]
  | .multiGet keys =>
    (keys.filter (fun item => item.1 ≠ "")).map (fun item => .get item.1 item.2)
  | .multiSet items ttl =>
    (items.filter (fun item => item.1 ≠ "")).map
      (fun item => .set item.1 item.2.1 ttl item.2.2)
  | .multiDelete keys => (keys.filter (fun key => key ≠ "")).map .delete
  | .janitor now order => (List.range count).map (fun i => .sweepShard i now order)

end Runs

end Photon.FlashDb
