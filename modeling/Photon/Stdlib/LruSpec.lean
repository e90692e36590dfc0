import Photon.Lib.Machine
import Photon.Stdlib.Lru

/-!
What `LRU` of `utils/stdlib/lru.go` is for: a recency list of pairs, with the pairs that
have left it. The cache of addresses and index entries simulates the list on every
sequence of calls, and its eviction hook has received the pairs that left.
-/

namespace Photon.Stdlib.LruSpec

open Photon.Lib Photon.Lib.Recency

variable {K V : Type}

inductive Op (K V : Type) where
  | get (key : K)
  | peek (key : K)
  | set (key : K) (value : V)
  | delete (key : K)
  | purge
  | keys
  | tailKey
  | len

inductive Answer (K V : Type) where
  | value (v : Option V)
  | flag (b : Bool)
  | done
  | keys (all : List K)
  | key (k : Option K)
  | count (n : Nat)

/-- The pairs of a cache, and all pairs that have left it, the first one first. -/
structure RecencyList (K V : Type) where
  pairs : List (K × V)
  left : List (K × V)

variable [DecidableEq K]

def perform (c : RawLru K V) : Op K V → RawLru K V × Answer K V
  | .get key => (c.get key).map id .value
  | .peek key => (c, .value (c.peek key))
  | .set key value => (c.set key value).map id .flag
  | .delete key => (c.delete key).map id .flag
  | .purge => (c.purge, .done)
  | .keys => (c, .keys c.keys)
  | .tailKey => (c, .key c.tailKey)
  | .len => (c, .count c.ll.length)

def lruMachine (K V : Type) [DecidableEq K] : Machine (RawLru K V) (Op K V) (Answer K V) :=
  ⟨perform⟩

/-- The calls on the recency list. The flag of `Set` tells whether a pair was pushed
out, the flag of `Delete` whether there was one. -/
def RecencyList.perform (capacity : Nat) (s : RecencyList K V) :
    Op K V → RecencyList K V × Answer K V
  | .get key =>
    match s.pairs.lookup key with
    | some value => ({s with pairs := promote key value s.pairs}, .value (some value))
    | none => (s, .value none)
  | .peek key => (s, .value (s.pairs.lookup key))
  | .set key value =>
    match s.pairs.lookup key with
    | some _ => ({s with pairs := promote key value s.pairs}, .flag false)
    | none =>
      (⟨(enter capacity key value s.pairs).1, s.left ++ (enter capacity key value s.pairs).2⟩,
        .flag (decide (0 < capacity ∧ capacity ≤ s.pairs.length)))
  | .delete key =>
    match s.pairs.lookup key with
    | some value => (⟨without key s.pairs, s.left ++ [(key, value)]⟩, .flag true)
    | none => (s, .flag false)
  | .purge => (⟨[], s.left ++ s.pairs.reverse⟩, .done)
  | .keys => (s, .keys (s.pairs.map Prod.fst))
  | .tailKey => (s, .key (s.pairs.getLast?.map Prod.fst))
  | .len => (s, .count s.pairs.length)

def recencyMachine (K V : Type) [DecidableEq K] (capacity : Nat) :
    Machine (RecencyList K V) (Op K V) (Answer K V) :=
  ⟨RecencyList.perform capacity⟩

def hookCalls (hook : Bool) (calls : List (K × V)) : Option (List (K × V)) :=
  if hook then some calls else none

omit [DecidableEq K] in
theorem hookCalls_append (hook : Bool) (calls more : List (K × V)) :
    (hookCalls hook calls).map (· ++ more) = hookCalls hook (calls ++ more) := by
  cases hook <;> rfl

structure Represents (capacity : Nat) (hook : Bool) (c : RawLru K V) (s : RecencyList K V) :
    Prop where
  wf : c.Wf
  cap : c.cap = capacity
  pairs : c.pairs = s.pairs
  evict : c.evict = hookCalls hook s.left
  bound : 0 < capacity → s.pairs.length ≤ capacity

section Step

variable {capacity : Nat} {hook : Bool} {c : RawLru K V} {s : RecencyList K V}

theorem represents_new (capacity : Nat) (hook : Bool) :
    Represents capacity hook (RawLru.new capacity hook : RawLru K V) ⟨[], []⟩ :=
  ⟨RawLru.new_wf capacity hook, rfl, rfl, rfl, fun _ => Nat.zero_le _⟩

section

variable (h : Represents capacity hook c s)
include h

/-- The pair of an indexed key, with the address of its element. -/
theorem Represents.hit {key : K} {e : Nat} (hindex : c.items.lookup key = some e) :
    ∃ value, c.heap[e]? = some (key, value) ∧ s.pairs.lookup key = some value ∧
      key ∈ s.pairs.map Prod.fst := by
  obtain ⟨hmem, value, hvalue⟩ := h.wf.linked key e hindex
  have hlookup := lookup_of_mem h.wf.pairs_nodup (List.mem_filterMap.mpr ⟨e, hmem, hvalue⟩)
  rw [h.pairs] at hlookup
  refine ⟨value, hvalue, hlookup, ?_⟩
  by_contra habsent
  rw [lookup_eq_none.mpr habsent] at hlookup
  cases hlookup

theorem Represents.miss {key : K} (hindex : c.items.lookup key = none) :
    s.pairs.lookup key = none := by
  rw [← h.pairs, lookup_eq_none, ← RawLru.keys_eq_map_pairs, h.wf.mem_keys]
  exact AList.lookup_eq_none.mp hindex

/-- A use of a key of the list. -/
theorem Represents.promote {next : RawLru K V} {key : K} (hmem : key ∈ s.pairs.map Prod.fst)
    (value : V) (hwf : next.Wf) (hcap : next.cap = c.cap)
    (hpairs : next.pairs = promote key value c.pairs) (hevict : next.evict = c.evict) :
    Represents capacity hook next {s with pairs := Recency.promote key value s.pairs} where
  wf := hwf
  cap := hcap.trans h.cap
  pairs := h.pairs ▸ hpairs
  evict := hevict.trans h.evict
  bound := fun hpos => (length_promote_le hmem value).trans (h.bound hpos)

theorem get_represents (key : K) :
    (perform c (.get key)).2 = (s.perform capacity (.get key)).2 ∧
      Represents capacity hook (perform c (.get key)).1 (s.perform capacity (.get key)).1 := by
  have hwf := RawLru.get_wf h.wf key
  cases hindex : c.items.lookup key with
  | none =>
    have hmiss := h.miss hindex
    simp only [perform, RecencyList.perform, hmiss, RawLru.get, hindex, Prod.map_apply, id_eq]
    exact ⟨trivial, h⟩
  | some e =>
    obtain ⟨value, hvalue, hlookup, hmem⟩ := h.hit hindex
    have hpairs := h.wf.pairs_get hindex hvalue
    simp only [RawLru.get, hindex] at hwf hpairs
    simp only [perform, RecencyList.perform, hlookup, RawLru.get, hindex, hvalue, Prod.map_apply,
      Option.map_some, id_eq]
    exact ⟨trivial, h.promote hmem value hwf rfl hpairs rfl⟩

theorem peek_eq (key : K) : c.peek key = s.pairs.lookup key := by
  unfold RawLru.peek
  cases hindex : c.items.lookup key with
  | none => exact (h.miss hindex).symm
  | some e =>
    obtain ⟨value, hvalue, hlookup, -⟩ := h.hit hindex
    simp [hlookup, hvalue]

theorem set_represents (key : K) (value : V) :
    (perform c (.set key value)).2 = (s.perform capacity (.set key value)).2 ∧
      Represents capacity hook (perform c (.set key value)).1
        (s.perform capacity (.set key value)).1 := by
  have hwf := RawLru.set_wf h.wf key value
  have hcap := RawLru.cap_set c key value
  cases hindex : c.items.lookup key with
  | none =>
    obtain ⟨hpairs, hevict, hflag⟩ := h.wf.set_miss hindex value
    simp only [perform, RecencyList.perform, h.miss hindex]
    rw [h.cap, h.pairs] at hpairs hevict hflag
    rw [h.evict, hookCalls_append] at hevict
    exact ⟨congrArg Answer.flag hflag, hwf, hcap.trans h.cap, hpairs, hevict, fun hpos =>
      length_enter_le hpos (h.bound hpos) key value⟩
  | some e =>
    obtain ⟨old, -, hlookup, hmem⟩ := h.hit hindex
    have hpairs := h.wf.pairs_set_hit hindex value
    have hhit : (c.set key value).2 = false ∧ (c.set key value).1.evict = c.evict := by
      simp [RawLru.set, hindex]
    simp only [perform, RecencyList.perform, hlookup]
    exact ⟨congrArg Answer.flag hhit.1, h.promote hmem value hwf hcap hpairs hhit.2⟩

theorem delete_represents (key : K) :
    (perform c (.delete key)).2 = (s.perform capacity (.delete key)).2 ∧
      Represents capacity hook (perform c (.delete key)).1
        (s.perform capacity (.delete key)).1 := by
  have hwf := RawLru.delete_wf h.wf key
  cases hindex : c.items.lookup key with
  | none =>
    simp only [perform, RecencyList.perform, h.miss hindex, RawLru.delete, hindex,
      Prod.map_apply, id_eq]
    exact ⟨trivial, h⟩
  | some e =>
    obtain ⟨value, hvalue, hlookup, -⟩ := h.hit hindex
    have hpairs := h.wf.pairs_delete hindex
    simp only [RawLru.delete, hindex, RawLru.removeElement, hvalue] at hwf hpairs
    simp only [perform, RecencyList.perform, hlookup, RawLru.delete, hindex,
      RawLru.removeElement, hvalue, Prod.map_apply, id_eq]
    refine ⟨trivial, hwf, h.cap, hpairs.trans (by rw [h.pairs]), ?_, fun hpos =>
      (List.length_filter_le _ _).trans (h.bound hpos)⟩
    simp [h.evict, hookCalls_append]

theorem purge_represents :
    Represents capacity hook c.purge ⟨[], s.left ++ s.pairs.reverse⟩ where
  wf := RawLru.purge_wf c
  cap := h.cap
  pairs := rfl
  evict := by
    simp only [RawLru.purge, h.evict, hookCalls_append, List.filterMap_reverse]
    rw [← h.pairs]
    rfl
  bound := fun _ => Nat.zero_le _

end

/-- One call on the cache is the same call on the list. -/
theorem step_represents (c : RawLru K V) (s : RecencyList K V) (op : Op K V)
    (h : Represents capacity hook c s) :
    (perform c op).2 = (s.perform capacity op).2 ∧
      Represents capacity hook (perform c op).1 (s.perform capacity op).1 := by
  cases op with
  | get key => exact get_represents h key
  | peek key => exact ⟨congrArg Answer.value (peek_eq h key), h⟩
  | set key value => exact set_represents h key value
  | delete key => exact delete_represents h key
  | purge => exact ⟨rfl, purge_represents h⟩
  | keys =>
    refine ⟨congrArg Answer.keys ?_, h⟩
    rw [RawLru.keys_eq_map_pairs, h.pairs]
  | tailKey =>
    refine ⟨congrArg Answer.key ?_, h⟩
    rw [h.wf.tailKey_eq, RawLru.keys_eq_map_pairs, h.pairs, List.getLast?_map]
  | len =>
    refine ⟨congrArg Answer.count ?_, h⟩
    rw [← h.pairs, h.wf.length_pairs]

end Step

/-- On every sequence of calls a new cache answers as the recency list does. Its linked
payloads are the pairs of the list, without a repeated key; a positive capacity is kept;
and the hook has received the pairs that left the list, in that order. -/
theorem lru_refines_recency_list (capacity : Nat) (hook : Bool) (ops : List (Op K V)) :
    (lruMachine K V).trace (RawLru.new capacity hook) ops =
      (recencyMachine K V capacity).trace ⟨[], []⟩ ops ∧
    let c := (lruMachine K V).run (RawLru.new capacity hook) ops
    let s := (recencyMachine K V capacity).run ⟨[], []⟩ ops
    c.Wf ∧ c.pairs = s.pairs ∧ (s.pairs.map Prod.fst).Nodup ∧
      (0 < capacity → c.ll.length ≤ capacity) ∧
      c.evict = if hook then some s.left else none := by
  obtain ⟨htrace, h⟩ := (lruMachine K V).simulation (recencyMachine K V capacity)
    (Represents capacity hook) (fun c s op h => step_represents c s op h)
    (represents_new capacity hook) ops
  refine ⟨htrace, h.wf, h.pairs, ?_, fun hpos => ?_, h.evict⟩
  · rw [← h.pairs]
    exact h.wf.pairs_nodup
  · rw [← h.wf.length_pairs, h.pairs]
    exact h.bound hpos

end Photon.Stdlib.LruSpec
