import Photon.Encoding.Murmur
import Photon.Lib.Machine
import Photon.Stdlib.BitSet

/-!
The Bloom filter of `utils/stdlib/bloom.go`, and several filters that are filled and
merged by a sequence of calls. A filter takes its size from `max(size, 1)` and its bit
set from `size`, and it has a table of 111 seeds for up to 255 hashes.
-/

namespace Photon.Stdlib

open Photon.Lib Photon.Encoding

def primeSeeds : List UInt64 :=
  [2, 3, 5, 7, 11, 13, 17, 19, 23, 29, 31, 37, 41, 43, 47, 53, 59, 61, 67, 71,
    73, 79, 83, 89, 97, 101, 103, 107, 109, 113, 127, 131, 137, 139, 149, 151,
    157, 163, 167, 173, 179, 181, 191, 193, 197, 199, 211, 223, 227, 229, 233,
    239, 241, 251, 257, 263, 269, 271, 277, 281, 283, 293, 307, 311, 313, 317,
    331, 337, 347, 349, 353, 359, 367, 373, 379, 383, 389, 397, 401, 409, 419,
    421, 431, 433, 439, 443, 449, 457, 461, 463, 467, 479, 487, 491, 499, 503,
    509, 521, 523, 541, 547, 557, 563, 569, 571, 577, 587, 593, 599, 601, 607]

def maxUint64 (a b : UInt64) : UInt64 := if b < a then a else b

def maxUint8 (a b : UInt8) : UInt8 := if b < a then a else b

abbrev BloomKey := List UInt8

structure BloomFilter where
  size : UInt64
  hashCount : UInt8
  bitset : BitSet

namespace BloomFilter

/-- `NewBloomFilter`, with the number of words that can be allocated. -/
def new (maxWords : Nat) (size : UInt64) (hashCount : UInt8) : Option BloomFilter :=
  (BitSet.new maxWords size).map fun bitset => ⟨maxUint64 size 1, maxUint8 hashCount 1, bitset⟩

def hash (bf : BloomFilter) (key : BloomKey) (seed : UInt64) : UInt64 :=
  murmurHash64 key seed % bf.size

/-- The loop of `Add` at the indices that are left. The flag tells whether it panicked;
an error of the bit set ends the loop without one. -/
def addLoop (bf : BloomFilter) (key : BloomKey) : List Nat → BitSet → BitSet × Bool
  | [], bitset => (bitset, false)
  | i :: rest, bitset =>
    match primeSeeds[i % bf.hashCount.toNat]? with
    | none => (bitset, true)
    | some seed =>
      match bitset.set (bf.hash key seed) with
      | .ok next => addLoop bf key rest next
      | .error (.err _) => (bitset, false)
      | .error .panic => (bitset, true)

def add (bf : BloomFilter) (key : BloomKey) : BloomFilter × Bool :=
  (bf.addLoop key (List.range bf.hashCount.toNat) bf.bitset).map
    (fun bitset => {bf with bitset := bitset}) id

/-- The loop of `Exists`; `none` is a panic. -/
def existsLoop (bf : BloomFilter) (key : BloomKey) : List Nat → Option Bool
  | [] => some true
  | i :: rest =>
    match primeSeeds[i % bf.hashCount.toNat]? with
    | none => none
    | some seed =>
      match bf.bitset.isSet (bf.hash key seed) with
      | .ok true => existsLoop bf key rest
      | .ok false => some false
      | .error (.err _) => some false
      | .error .panic => none

def existsKey (bf : BloomFilter) (key : BloomKey) : Option Bool :=
  bf.existsLoop key (List.range bf.hashCount.toNat)

/-- The loop of `Merge`. Errors of the other bit set count as a clear bit. -/
def mergeLoop (other : BitSet) : List Nat → BitSet → BitSet × Except BitFailure Unit
  | [], bitset => (bitset, .ok ())
  | i :: rest, bitset =>
    match other.isSet (UInt64.ofNat i) with
    | .ok true =>
      match bitset.set (UInt64.ofNat i) with
      | .ok next => mergeLoop other rest next
      | .error failure => (bitset, .error failure)
    | .ok false => mergeLoop other rest bitset
    | .error (.err _) => mergeLoop other rest bitset
    | .error .panic => (bitset, .error .panic)

def merge (bf other : BloomFilter) : BloomFilter × Except BitFailure Unit :=
  if bf.size ≠ other.size ∨ bf.hashCount ≠ other.hashCount then
    (bf, .error (.err "bloom filters must have the same size and hash count to be merged"))
  else
    (mergeLoop other.bitset (List.range bf.size.toNat) bf.bitset).map
      (fun bitset => {bf with bitset := bitset}) id

end BloomFilter

/-- A call on the filters of a pool, which are named by their positions. -/
inductive BloomCall where
  | add (filter : Nat) (key : BloomKey)
  | existsKey (filter : Nat) (key : BloomKey)
  | merge (filter other : Nat)

inductive BloomReply where
  | done
  | err (message : String)
  | found (answer : Bool)
  | panicked
  | noFilter
deriving DecidableEq

def mergeReply : Except BitFailure Unit → BloomReply
  | .ok () => .done
  | .error (.err message) => .err message
  | .error .panic => .panicked

def performBloom (pool : List BloomFilter) : BloomCall → List BloomFilter × BloomReply
  | .add i key =>
    match pool[i]? with
    | none => (pool, .noFilter)
    | some bf => (pool.set i (bf.add key).1, if (bf.add key).2 then .panicked else .done)
  | .existsKey i key =>
    match pool[i]? with
    | none => (pool, .noFilter)
    | some bf => (pool, (bf.existsKey key).elim .panicked .found)
  | .merge i j =>
    match pool[i]?, pool[j]? with
    | some bf, some other => (pool.set i (bf.merge other).1, mergeReply (bf.merge other).2)
    | _, _ => (pool, .noFilter)

def bloomMachine : Machine (List BloomFilter) BloomCall BloomReply := ⟨performBloom⟩

/-- The keys that were added to each filter, or to a filter merged into it. -/
def heldStep (held : Nat → List BloomKey) : BloomCall × BloomReply → Nat → List BloomKey
  | (.add i key, .done) => Function.update held i (key :: held i)
  | (.merge i j, .done) => Function.update held i (held j ++ held i)
  | _ => held

def heldKeys (history : List (BloomCall × BloomReply)) : Nat → List BloomKey :=
  history.foldl heldStep fun _ => []

namespace BloomFilter

/-- A filter whose bit set has a word for each of its positions, with a seed for each of
its hashes. -/
structure Usable (bf : BloomFilter) : Prop where
  pos : 0 < bf.size.toNat
  size : bf.bitset.size = bf.size
  covered : bf.bitset.Covered
  hashes : 0 < bf.hashCount.toNat
  seeds : bf.hashCount.toNat ≤ primeSeeds.length

def Holds (bf : BloomFilter) (key : BloomKey) : Prop :=
  ∀ i, i < bf.hashCount.toNat → ∀ seed, primeSeeds[i]? = some seed →
    bf.bitset.has (bf.hash key seed).toNat = true

structure Grows (bf next : BloomFilter) : Prop where
  size : next.size = bf.size
  hashCount : next.hashCount = bf.hashCount
  bits : ∀ p, bf.bitset.has p = true → next.bitset.has p = true

theorem Grows.holds {bf next : BloomFilter} (h : Grows bf next) {key : BloomKey}
    (hkey : bf.Holds key) : next.Holds key := by
  intro i hi seed hseed
  have hhash : next.hash key seed = bf.hash key seed := by rw [hash, hash, h.size]
  rw [hhash]
  exact h.bits _ (hkey i (h.hashCount ▸ hi) seed hseed)

section Usable

variable {bf : BloomFilter}

theorem hash_lt (hpos : 0 < bf.size.toNat) (key : BloomKey) (seed : UInt64) :
    bf.hash key seed < bf.size := by
  rw [UInt64.lt_iff_toNat_lt, hash, UInt64.toNat_mod]
  exact Nat.mod_lt _ hpos

theorem Usable.seed (h : Usable bf) {i : Nat} (hi : i < bf.hashCount.toNat) :
    ∃ seed, primeSeeds[i % bf.hashCount.toNat]? = some seed ∧ primeSeeds[i]? = some seed := by
  rw [Nat.mod_eq_of_lt hi]
  exact ⟨_, List.getElem?_eq_getElem (hi.trans_le h.seeds), List.getElem?_eq_getElem _⟩

/-- The loop of `Add` sets the bit of each hash, in a bit set of the right size. -/
theorem addLoop_eq (h : Usable bf) (key : BloomKey) {indices : List Nat}
    (hindices : ∀ i ∈ indices, i < bf.hashCount.toNat) {bitset : BitSet}
    (hsize : bitset.size = bf.size) (hcovered : bitset.Covered) :
    ∃ next, bf.addLoop key indices bitset = (next, false) ∧ next.size = bf.size ∧ next.Covered ∧
      (∀ p, bitset.has p = true → next.has p = true) ∧
      ∀ i ∈ indices, ∀ seed, primeSeeds[i]? = some seed →
        next.has (bf.hash key seed).toNat = true := by
  induction indices generalizing bitset with
  | nil => exact ⟨bitset, rfl, hsize, hcovered, fun _ hp => hp, nofun⟩
  | cons i rest ih =>
    obtain ⟨seed, hmod, hseed⟩ := h.seed (hindices i List.mem_cons_self)
    have hpos : bf.hash key seed < bitset.size := hsize ▸ hash_lt h.pos key seed
    obtain ⟨set, hset, hsetSize, hsetCovered, hhas⟩ := BitSet.set_eq hcovered hpos
    obtain ⟨next, hloop, hnextSize, hnextCovered, hmono, hbits⟩ :=
      ih (fun j hj => hindices j (List.mem_cons_of_mem i hj)) (hsetSize.trans hsize) hsetCovered
    refine ⟨next, by rw [addLoop, hmod]; simp [hset, hloop], hnextSize, hnextCovered,
      fun p hp => hmono p (by rw [hhas, hp, Bool.or_true]), fun j hj other hother => ?_⟩
    rcases List.mem_cons.mp hj with rfl | hrest
    · cases hseed.symm.trans hother
      exact hmono _ (by rw [hhas, decide_eq_true rfl, Bool.true_or])
    · exact hbits j hrest other hother

theorem add_eq (h : Usable bf) (key : BloomKey) :
    (bf.add key).2 = false ∧ Usable (bf.add key).1 ∧ Grows bf (bf.add key).1 ∧
      (bf.add key).1.Holds key := by
  obtain ⟨next, hloop, hsize, hcovered, hmono, hbits⟩ := addLoop_eq h key
    (fun i hi => List.mem_range.mp hi) h.size h.covered
  rw [add, hloop]
  exact ⟨rfl, ⟨h.pos, hsize, hcovered, h.hashes, h.seeds⟩, ⟨rfl, rfl, hmono⟩,
    fun i hi seed hseed => hbits i (List.mem_range.mpr hi) seed hseed⟩

/-- `Exists` looks at the bits of all hashes, and stops at a clear one. -/
theorem existsLoop_eq (h : Usable bf) (key : BloomKey) {indices : List Nat}
    (hindices : ∀ i ∈ indices, i < bf.hashCount.toNat) :
    ∃ answer, bf.existsLoop key indices = some answer ∧ (bf.Holds key → answer = true) := by
  induction indices with
  | nil => exact ⟨true, rfl, fun _ => rfl⟩
  | cons i rest ih =>
    have hi := hindices i List.mem_cons_self
    obtain ⟨seed, hmod, hseed⟩ := h.seed hi
    have hpos : bf.hash key seed < bf.bitset.size := h.size ▸ hash_lt h.pos key seed
    have hisSet := BitSet.isSet_eq h.covered hpos
    rw [existsLoop, hmod]
    simp only [hisSet]
    cases hbit : bf.bitset.has (bf.hash key seed).toNat with
    | true => exact ih fun j hj => hindices j (List.mem_cons_of_mem i hj)
    | false =>
      refine ⟨false, rfl, fun hkey => ?_⟩
      rw [hkey i hi seed hseed] at hbit
      cases hbit

/-- The loop of `Merge` adds the bits of the other filter. -/
theorem mergeLoop_eq {size : UInt64} {other : BitSet} (hother : other.size = size)
    (hotherCovered : other.Covered) {indices : List Nat} (hindices : ∀ i ∈ indices, i < size.toNat)
    {bitset : BitSet} (hsize : bitset.size = size) (hcovered : bitset.Covered) :
    ∃ next, mergeLoop other indices bitset = (next, .ok ()) ∧ next.size = size ∧ next.Covered ∧
      (∀ p, bitset.has p = true → next.has p = true) ∧
      ∀ i ∈ indices, other.has i = true → next.has i = true := by
  induction indices generalizing bitset with
  | nil => exact ⟨bitset, rfl, hsize, hcovered, fun _ hp => hp, nofun⟩
  | cons i rest ih =>
    have hi := hindices i List.mem_cons_self
    have hrest := fun j hj => hindices j (List.mem_cons_of_mem i hj)
    have hnat : (UInt64.ofNat i).toNat = i :=
      UInt64.toNat_ofNat_of_lt' (hi.trans size.toNat_lt)
    have hpos : UInt64.ofNat i < size := UInt64.lt_iff_toNat_lt.mpr (by rwa [hnat])
    have hisSet := BitSet.isSet_eq hotherCovered (hother ▸ hpos)
    rw [hnat] at hisSet
    rw [mergeLoop]
    simp only [hisSet]
    cases hbit : other.has i with
    | false =>
      obtain ⟨next, hloop, hnextSize, hnextCovered, hmono, hbits⟩ := ih hrest hsize hcovered
      refine ⟨next, hloop, hnextSize, hnextCovered, hmono, fun j hj hset => ?_⟩
      rcases List.mem_cons.mp hj with rfl | hmem
      · rw [hbit] at hset
        cases hset
      · exact hbits j hmem hset
    | true =>
      obtain ⟨set, hset, hsetSize, hsetCovered, hhas⟩ :=
        BitSet.set_eq hcovered (hsize ▸ hpos)
      rw [hnat] at hhas
      obtain ⟨next, hloop, hnextSize, hnextCovered, hmono, hbits⟩ :=
        ih hrest (hsetSize.trans hsize) hsetCovered
      simp only [hset]
      refine ⟨next, hloop, hnextSize, hnextCovered,
        fun p hp => hmono p (by rw [hhas, hp, Bool.or_true]), fun j hj hset => ?_⟩
      rcases List.mem_cons.mp hj with rfl | hmem
      · exact hmono _ (by rw [hhas, decide_eq_true rfl, Bool.true_or])
      · exact hbits j hmem hset

/-- A merge is refused, or it succeeds and brings every key of the other filter. -/
theorem merge_eq (h : Usable bf) {other : BloomFilter} (hother : Usable other) :
    (∃ message, bf.merge other = (bf, .error (.err message))) ∨
      (bf.merge other).2 = .ok () ∧ Usable (bf.merge other).1 ∧ Grows bf (bf.merge other).1 ∧
        ∀ key, other.Holds key → (bf.merge other).1.Holds key := by
  unfold merge
  split
  · exact Or.inl ⟨_, rfl⟩
  · next hsame =>
      rw [not_or, not_not, not_not] at hsame
      obtain ⟨hsize, hcount⟩ := hsame
      obtain ⟨next, hloop, hnextSize, hnextCovered, hmono, hbits⟩ := mergeLoop_eq
        (hother.size.trans hsize.symm) hother.covered (fun i hi => List.mem_range.mp hi) h.size
        h.covered
      rw [hloop]
      refine Or.inr ⟨rfl, ⟨h.pos, hnextSize, hnextCovered, h.hashes, h.seeds⟩, ⟨rfl, rfl, hmono⟩,
        fun key hkey i hi seed hseed => ?_⟩
      have hlt := UInt64.lt_iff_toNat_lt.mp (hash_lt h.pos key seed)
      have hhash : other.hash key seed = bf.hash key seed := by rw [hash, hash, hsize]
      have hbit := hkey i (hcount ▸ hi) seed hseed
      rw [hhash] at hbit
      exact hbits _ (List.mem_range.mpr hlt) hbit

end Usable

end BloomFilter

end Photon.Stdlib
