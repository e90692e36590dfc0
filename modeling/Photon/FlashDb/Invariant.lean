import Photon.FlashDb.ShardOps

/-!
The bookkeeping of one shard. `Balanced` is what every eviction keeps: the map
and the recency list hold the same keys, and the byte counter is the sum of the
recorded sizes. `Inv` adds the budget, which only holds between calls: a growing
update exceeds it until the trim loop is done.
-/

namespace Photon.FlashDb

open Photon.Lib Photon.Stdlib

namespace Shard

def accounted (sh : Shard) : Int := total Record.size sh.data

structure Balanced (sh : Shard) : Prop where
  unlimited : sh.lru.cap = 0
  sameKeys : ∀ key, key ∈ sh.data ↔ key ∈ sh.lru.keys
  sizes : ∀ key record, sh.data.lookup key = some record → 0 ≤ record.size
  counter : (sh.currentSize : Int) = sh.accounted
  counterBound : sh.currentSize < 2 ^ 64

structure Inv (sh : Shard) : Prop extends Balanced sh where
  budget : sh.currentSize ≤ sh.capacity

theorem emptyShard_inv (capacity : Nat) : Inv ⟨∅, Lru.new 0 false, capacity, 0⟩ := by
  refine ⟨⟨rfl, ?_, ?_, rfl, by norm_num⟩, Nat.zero_le _⟩
  · intro key
    simp
  · intro key record hrecord
    cases hrecord

variable {sh : Shard} {key : String} {record : Record} {data : GoMap Record}

/-- Overwriting one entry changes the accounted size by the difference. -/
theorem total_overwrite (hlookup : data.lookup key = some record) (next : Record) :
    total Record.size (data.insert key next) =
      total Record.size data - record.size + next.size := by
  rw [total_insert, total_erase_of_lookup Record.size data hlookup]
  ring

/-- Keys and sizes of a map in which one present entry was overwritten. -/
theorem overwrite_keys (hlookup : data.lookup key = some record) (next : Record) (name : String) :
    name ∈ data.insert key next ↔ name ∈ data := by
  rw [AList.mem_insert]
  constructor
  · rintro (rfl | hmem)
    · exact AList.lookup_isSome.mp (by simp [hlookup])
    · exact hmem
  · exact Or.inr

theorem insert_sizes {next : Record}
    (hsizes : ∀ name stored, data.lookup name = some stored → 0 ≤ stored.size)
    (hnext : 0 ≤ next.size) :
    ∀ name stored, (data.insert key next).lookup name = some stored → 0 ≤ stored.size := by
  intro name stored hstored
  by_cases hname : name = key
  · subst hname
    rw [AList.lookup_insert] at hstored
    cases hstored
    exact hnext
  · rw [AList.lookup_insert_ne hname] at hstored
    exact hsizes name stored hstored

theorem Balanced.size_le (h : sh.Balanced) (hlookup : sh.data.lookup key = some record) :
    record.size ≤ sh.currentSize := by
  rw [h.counter]
  exact weight_le_total Record.size sh.data h.sizes hlookup

/-- The counter after an eviction is exact: it never wraps below zero. -/
theorem Balanced.removeLocked_counter (h : sh.Balanced)
    (hlookup : sh.data.lookup key = some record) :
    ((sh.removeLocked key).currentSize : Int) = sh.currentSize - record.size := by
  have hnonneg := h.sizes key record hlookup
  have hle := h.size_le hlookup
  have hcost := nonNegative_of_nonneg hnonneg
  simp only [removeLocked, hlookup]
  rw [subU64_of_le (by omega) h.counterBound]
  omega

theorem Balanced.removeLocked_le (h : sh.Balanced) (key : String) :
    (sh.removeLocked key).currentSize ≤ sh.currentSize := by
  cases hlookup : sh.data.lookup key with
  | none => simp [removeLocked, hlookup]
  | some record =>
    have hcounter := h.removeLocked_counter hlookup
    have hnonneg := h.sizes key record hlookup
    omega

theorem Balanced.removeLocked (h : sh.Balanced) (key : String) :
    (sh.removeLocked key).Balanced := by
  constructor
  · exact (Lru.cap_delete sh.lru key).trans h.unlimited
  · intro name
    rw [removeLocked_data, AList.mem_erase, h.sameKeys]
    exact (Lru.mem_keys_delete sh.lru key name).symm
  · intro name stored hstored
    rw [removeLocked_data] at hstored
    by_cases hname : name = key
    · subst hname
      rw [AList.lookup_erase] at hstored
      cases hstored
    · rw [AList.lookup_erase_ne hname] at hstored
      exact h.sizes name stored hstored
  · cases hlookup : sh.data.lookup key with
    | none =>
      simp only [accounted, removeLocked_data, erase_of_lookup_none sh.data hlookup]
      simpa [Shard.removeLocked, hlookup, accounted] using h.counter
    | some record =>
      rw [h.removeLocked_counter hlookup, h.counter]
      exact (total_erase_of_lookup Record.size sh.data hlookup).symm
  · exact lt_of_le_of_lt (h.removeLocked_le key) h.counterBound

theorem Inv.removeLocked (h : sh.Inv) (key : String) : (sh.removeLocked key).Inv :=
  ⟨h.toBalanced.removeLocked key, (h.removeLocked_le key).trans h.budget⟩

theorem Balanced.touch (h : sh.Balanced) (key : String) : (sh.touch key).Balanced := by
  refine ⟨(Lru.cap_get sh.lru key).trans h.unlimited, ?_, h.sizes, h.counter, h.counterBound⟩
  intro name
  exact (h.sameKeys name).trans (Lru.mem_keys_get sh.lru key name).symm

theorem Inv.touch (h : sh.Inv) (key : String) : (sh.touch key).Inv :=
  ⟨h.toBalanced.touch key, h.budget⟩

/-- A shard with nothing left to evict is empty. -/
theorem Balanced.currentSize_of_no_tail (h : sh.Balanced) (htail : sh.tailKeyLocked = none) :
    sh.currentSize = 0 := by
  unfold tailKeyLocked at htail
  rw [Lru.tailKey_eq, List.getLast?_eq_none_iff] at htail
  have hempty : sh.data.entries = [] := by
    rw [List.eq_nil_iff_forall_not_mem]
    intro entry hentry
    have hmem : entry.1 ∈ sh.data := AList.mem_keys.mpr (List.mem_keys_of_mem hentry)
    rw [h.sameKeys, htail] at hmem
    cases hmem
  have hcounter := h.counter
  simp only [accounted, total, hempty, List.map_nil, List.sum_nil] at hcounter
  omega

/-- Trimming restores the budget whatever the sizes are: if the loop runs out of
victims there is nothing left to account for. -/
theorem Balanced.trim_inv (h : sh.Balanced) : sh.trim.Inv := by
  obtain ⟨hbalanced, hexit⟩ := trim_rule Balanced
    (fun s vk hs _ _ => hs.removeLocked vk) sh h
  refine ⟨hbalanced, ?_⟩
  rcases hexit with hfull | htail
  · simpa [isFull] using hfull
  · rw [hbalanced.currentSize_of_no_tail htail]
    exact Nat.zero_le _

/-- Recharging a record keeps the counter exact while both sizes are below
`2^63`. -/
theorem Balanced.rechargedSize_eq (h : sh.Balanced) (hlookup : sh.data.lookup key = some record)
    {newSize : Int} (hnonneg : 0 ≤ newSize) (hsize : newSize < 2 ^ 63)
    (hsum : sh.currentSize < 2 ^ 63) :
    (sh.rechargedSize record.size newSize : Int) =
      sh.currentSize - record.size + newSize := by
  have hold := h.sizes key record hlookup
  have hle := h.size_le hlookup
  unfold rechargedSize
  split
  · next hgrow =>
      have hwrap : wrapI64 (newSize - record.size) = newSize - record.size :=
        wrapI64_of_bounds (by omega) (by omega)
      have hcost := nonNegative_of_nonneg (v := newSize - record.size) (by omega)
      rw [hwrap, addU64_of_lt (by omega)]
      omega
  · next hshrink =>
      have hwrap : wrapI64 (record.size - newSize) = record.size - newSize :=
        wrapI64_of_bounds (by omega) (by omega)
      have hcost := nonNegative_of_nonneg (v := record.size - newSize) (by omega)
      rw [hwrap, subU64_of_le (by omega) h.counterBound]
      omega

/-- The state in which both writing methods enter the trim loop. -/
theorem Balanced.recharged (h : sh.Balanced) (hlookup : sh.data.lookup key = some record)
    (fields : FieldMap) (expiry : Time) {newSize : Int} (hnonneg : 0 ≤ newSize)
    (hsize : newSize < 2 ^ 63) (hsum : sh.currentSize < 2 ^ 63) :
    Balanced {sh with
      data := sh.data.insert key ⟨fields, newSize, expiry⟩
      currentSize := sh.rechargedSize record.size newSize} := by
  have hcounter := h.rechargedSize_eq hlookup hnonneg hsize hsum
  have hold := h.sizes key record hlookup
  constructor
  · exact h.unlimited
  · intro name
    exact (overwrite_keys hlookup _ name).trans (h.sameKeys name)
  · exact insert_sizes h.sizes hnonneg
  · change (sh.rechargedSize record.size newSize : Int) = total Record.size _
    rw [total_overwrite hlookup, hcounter, h.counter]
    rfl
  · change sh.rechargedSize record.size newSize < 2 ^ 64
    omega

/-- What the lookup shared by the keyed methods can do. -/
theorem liveRecord_cases (sh : Shard) (key : String) (now : Time) :
    (∃ record, sh.data.lookup key = some record ∧ record.isExpired now = false ∧
      sh.liveRecord key now = (sh, some record)) ∨
    sh.liveRecord key now = (sh, none) ∨
    (∃ record, sh.data.lookup key = some record ∧ record.isExpired now = true ∧
      sh.liveRecord key now = (sh.removeLocked key, none)) := by
  unfold liveRecord
  cases hlookup : sh.data.lookup key with
  | none => exact Or.inr (Or.inl rfl)
  | some record =>
    cases hexpired : record.isExpired now with
    | false => exact Or.inl ⟨record, rfl, hexpired, by simp [hexpired]⟩
    | true => exact Or.inr (Or.inr ⟨record, rfl, hexpired, by simp [hexpired]⟩)

theorem computeSize_bounds {value : FieldMap} (hsize : exactSize key value < 2 ^ 63) :
    0 ≤ computeSize key value ∧ computeSize key value < 2 ^ 63 := by
  have hpos := exactSize_pos key value
  rw [computeSize_eq_exactSize hsize]
  omega

/-- The admission loop only evicts, so it keeps the books, the capacity and the
absence of the new key. -/
theorem Balanced.makeRoom (h : sh.Balanced) (shouldAdmit : String → Bool) (newCost : Nat)
    (habsent : key ∉ sh.data) :
    (sh.makeRoom shouldAdmit newCost).1.Balanced ∧
      (sh.makeRoom shouldAdmit newCost).1.currentSize ≤ sh.currentSize ∧
      (sh.makeRoom shouldAdmit newCost).1.capacity = sh.capacity ∧
      key ∉ (sh.makeRoom shouldAdmit newCost).1.data := by
  apply (makeRoom_rule shouldAdmit newCost
    (fun s => s.Balanced ∧ s.currentSize ≤ sh.currentSize ∧
      s.capacity = sh.capacity ∧ key ∉ s.data) ?_ sh
    ⟨h, le_refl _, rfl, habsent⟩).1
  rintro s vk ⟨hs, hle, hcapacity, hkey⟩ _ _ _
  refine ⟨hs.removeLocked vk, (hs.removeLocked_le vk).trans hle, hcapacity, ?_⟩
  rw [removeLocked_data, AList.mem_erase]
  exact fun hmem => hkey hmem.2

theorem Balanced.insert_inv (h : sh.Balanced) (habsent : key ∉ sh.data) (value : FieldMap)
    (exp : Time) (hnonneg : 0 ≤ computeSize key value) (hlt : computeSize key value < 2 ^ 63)
    (hsum : sh.currentSize < 2 ^ 63) (hroom : sh.isFullAfter (costOf key value) = false) :
    (sh.insert key value exp).Inv := by
  have hcost : (costOf key value : Int) = computeSize key value := nonNegative_of_nonneg hnonneg
  have hadd : addU64 sh.currentSize (costOf key value) = sh.currentSize + costOf key value :=
    addU64_of_lt (by omega)
  have hlookup : sh.data.lookup key = none := AList.lookup_eq_none.mpr habsent
  refine ⟨⟨?_, ?_, ?_, ?_, ?_⟩, ?_⟩
  · exact Lru.cap_set sh.lru h.unlimited key ()
  · intro name
    rw [insert_data, insert_lru, Lru.keys_set sh.lru h.unlimited, AList.mem_insert,
      h.sameKeys, List.mem_cons, sh.lru.keys_nodup.mem_erase_iff]
    by_cases hname : name = key
    · simp [hname]
    · simp [hname]
  · rw [insert_data]
    apply insert_sizes h.sizes
    dsimp only
    exact hnonneg
  · have hcounter := h.counter
    unfold accounted at hcounter ⊢
    rw [insert_data, insert_currentSize, total_insert,
      erase_of_lookup_none sh.data hlookup, hadd]
    push_cast
    omega
  · rw [insert_currentSize, hadd]
    omega
  · simpa [isFullAfter, insert] using hroom

/-- Rewriting a record without changing its size leaves the books alone. -/
theorem Inv.overwrite (h : sh.Inv) (hlookup : sh.data.lookup key = some record) (next : Record)
    (hsize : next.size = record.size) :
    Inv {sh with data := sh.data.insert key next} := by
  refine ⟨⟨h.unlimited, ?_, ?_, ?_, h.counterBound⟩, h.budget⟩
  · intro name
    exact (overwrite_keys hlookup next name).trans (h.sameKeys name)
  · apply insert_sizes h.sizes
    rw [hsize]
    exact h.sizes key record hlookup
  · change (sh.currentSize : Int) = total Record.size _
    rw [total_overwrite hlookup, h.counter, hsize]
    unfold accounted
    ring

section

variable (key : String) (sh : Shard) (Stores : Record → Prop)

/-- All that a keyed method can do to its shard: the key is promoted if `used`, and a record
stored for it is one that `Stores` allows. -/
inductive Edit : Shard → Bool → Prop
  | idle : Edit sh false
  | remove : Edit (sh.removeLocked key) false
  | touch : Edit (sh.touch key) true
  | refuse (shouldAdmit : String → Bool) (newCost : Nat) (hlookup : sh.data.lookup key = none) :
      Edit (sh.makeRoom shouldAdmit newCost).1 false
  | overwrite {record next : Record} (hstores : Stores next)
      (hlookup : sh.data.lookup key = some record) (hsize : next.size = record.size) :
      Edit {sh with data := sh.data.insert key next} false
  | rewrite {record next : Record} (hstores : Stores next)
      (hlookup : sh.data.lookup key = some record) (hsize : next.size = record.size) :
      Edit (Shard.touch {sh with data := sh.data.insert key next} key) true
  | recharge {record next : Record} (size : Nat) (hstores : Stores next)
      (hlookup : sh.data.lookup key = some record)
      (hcharge : 0 ≤ next.size → size = sh.rechargedSize record.size next.size) :
      Edit (trim (Shard.touch {sh with data := sh.data.insert key next, currentSize := size} key))
        true
  | insert {shouldAdmit : String → Bool} {room : Shard} (value : FieldMap) (exp : Time)
      (hstores : Stores ⟨value, computeSize key value, exp⟩) (hlookup : sh.data.lookup key = none)
      (hroom : sh.makeRoom shouldAdmit (costOf key value) = (room, true)) :
      Edit (room.insert key value exp) true

end

/-- The record stored for `key` is replaced by one of its size, with the expiry given. -/
def Rewrites (sh : Shard) (key : String) (expiry : Record → Time) (next : Record) : Prop :=
  ∃ record, sh.data.lookup key = some record ∧ next.size = record.size ∧
    next.expiry = expiry record

variable {Stores : Record → Prop}

section

variable (sh : Shard) (key : String)

theorem existsKey_edit (now : Time) (Stores : Record → Prop) :
    Edit key sh Stores (sh.existsKey key now).1 false := by
  unfold existsKey
  split
  · exact .idle
  · exact .idle
  · unfold existsRemove
    split
    · split
      · exact .remove
      · exact .idle
    · exact .idle

theorem get_edit (now : Time) (Stores : Record → Prop) :
    Edit key sh Stores (sh.get key now).1 (sh.get key now).2.isOk := by
  unfold get
  rcases liveRecord_cases sh key now with ⟨_, _, _, hlive⟩ | hlive | ⟨_, _, _, hlive⟩
  · simp only [hlive]
    exact .touch
  · simp only [hlive]
    exact .idle
  · simp only [hlive]
    exact .remove

theorem delete_edit (Stores : Record → Prop) : Edit key sh Stores (sh.delete key).1 false := by
  unfold delete
  split
  · exact .idle
  · exact .remove

theorem getTTL_edit (now : Time) (remaining : Time → Int) (Stores : Record → Prop) :
    Edit key sh Stores (sh.getTTL key now remaining).1 false := by
  unfold getTTL
  rcases liveRecord_cases sh key now with ⟨_, _, _, hlive⟩ | hlive | ⟨_, _, _, hlive⟩
  · simp only [hlive]
    split
    · exact .idle
    · split
      · exact .remove
      · exact .idle
  · simp only [hlive]
    exact .idle
  · simp only [hlive]
    exact .remove

theorem increment_edit (offsets : GoMap Int64) (now : Time)
    (hstores : ∀ record, sh.data.lookup key = some record →
      Stores {record with value := (incrementLoop offsets record.value).1}) :
    Edit key sh Stores (sh.increment key offsets now).1 (sh.increment key offsets now).2.isOk := by
  unfold increment
  rcases liveRecord_cases sh key now with ⟨record, hlookup, _, hlive⟩ | hlive | ⟨_, _, _, hlive⟩
  · simp only [hlive]
    have hnext := hstores record hlookup
    generalize incrementLoop offsets record.value = out at hnext ⊢
    rcases out with ⟨fields, _ | _⟩
    · exact .overwrite hnext hlookup rfl
    · exact .rewrite hnext hlookup rfl
  · simp only [hlive]
    exact .idle
  · simp only [hlive]
    exact .remove

/-- `Append` keeps the size of the record if it refuses a field, and computes it anew if not. -/
theorem append_edit (appends : GoMap String) (now : Time)
    (hstores : ∀ record, sh.data.lookup key = some record →
      record.isExpired now = false →
      ((appendLoop appends record.value).2 ≠ .ok () →
        Stores {record with value := (appendLoop appends record.value).1}) ∧
      Stores ⟨(appendLoop appends record.value).1,
        computeSize key (appendLoop appends record.value).1, record.expiry⟩) :
    Edit key sh Stores (sh.append key appends now).1 (sh.append key appends now).2.isOk := by
  unfold append
  rcases liveRecord_cases sh key now with ⟨record, hlookup, hnot, hlive⟩ | hlive | ⟨_, _, _, hlive⟩
  · simp only [hlive]
    obtain ⟨hrefused, hdone⟩ := hstores record hlookup hnot
    generalize appendLoop appends record.value = out at hrefused hdone ⊢
    rcases out with ⟨fields, _ | _⟩
    · exact .overwrite (hrefused (by intro h; cases h)) hlookup rfl
    · simp only [Shard.recharge]
      refine .recharge _ hdone hlookup ?_
      dsimp only
      exact fun _ => rfl
  · simp only [hlive]
    exact .idle
  · simp only [hlive]
    exact .remove

theorem setTTL_edit (ttl : Int) (now : Time) (hstores : ∀ record, sh.data.lookup key = some record →
      Stores {record with expiry := if ttl ≤ 0 then 0 else now + ttl.toNat}) :
    Edit key sh Stores (sh.setTTL key ttl now).1 (sh.setTTL key ttl now).2.isOk := by
  unfold setTTL
  rcases liveRecord_cases sh key now with ⟨record, hlookup, _, hlive⟩ | hlive | ⟨_, _, _, hlive⟩
  · simp only [hlive]
    exact .rewrite (hstores record hlookup) hlookup rfl
  · simp only [hlive]
    exact .idle
  · simp only [hlive]
    exact .remove

end

theorem set_edit (sh : Shard) (shouldAdmit : String → Bool) (key : String) (value : FieldMap)
    (exp : Time) (Stores : Record → Prop) (hstores : Stores ⟨value, computeSize key value, exp⟩) :
    Edit key sh Stores (sh.set shouldAdmit key value exp).1
      (sh.set shouldAdmit key value exp).2 := by
  cases hlookup : sh.data.lookup key with
  | some record =>
    simp only [set, hlookup, update, clone_eq]
    refine .recharge _ hstores hlookup ?_
    dsimp only
    exact fun hnonneg => if_pos hnonneg
  | none =>
    simp only [set, hlookup]
    split
    · exact .idle
    · split
      · next room hroom =>
          have hleft : (sh.makeRoom shouldAdmit _).1 = room := congrArg Prod.fst hroom
          dsimp only
          rw [← hleft]
          exact .refuse shouldAdmit _ hlookup
      · next room hroom => exact .insert value exp hstores hlookup hroom

/-- An edit keeps the books while the sizes it works with are below `2^63`. -/
theorem Edit.inv {after : Shard} {used : Bool} (e : Edit key sh Stores after used) (h : sh.Inv)
    (hsum : sh.currentSize < 2 ^ 63)
    (hsizes : ∀ next, Stores next → 0 ≤ next.size ∧ next.size < 2 ^ 63) : after.Inv := by
  cases e with
  | idle => exact h
  | remove => exact h.removeLocked key
  | touch => exact h.touch key
  | refuse shouldAdmit newCost hlookup =>
    obtain ⟨hbalanced, hle, hcapacity, -⟩ := h.toBalanced.makeRoom shouldAdmit newCost
      (AList.lookup_eq_none.mp hlookup)
    exact ⟨hbalanced, hcapacity ▸ hle.trans h.budget⟩
  | overwrite _ hlookup hsize => exact h.overwrite hlookup _ hsize
  | rewrite _ hlookup hsize => exact (h.overwrite hlookup _ hsize).touch key
  | @recharge record next size hstores hlookup hcharge =>
    obtain ⟨hnonneg, hlt⟩ := hsizes _ hstores
    rw [hcharge hnonneg]
    have hbalanced := h.toBalanced.recharged hlookup next.value next.expiry hnonneg hlt hsum
    exact (hbalanced.touch key).trim_inv
  | @insert shouldAdmit room value exp hstores hlookup hroom =>
    obtain ⟨hnonneg, hlt⟩ := hsizes _ hstores
    dsimp only at hnonneg hlt
    obtain ⟨hbalanced, hle, -, hkey⟩ := h.toBalanced.makeRoom shouldAdmit
      (costOf key value) (AList.lookup_eq_none.mp hlookup)
    have hexit := (makeRoom_rule shouldAdmit (costOf key value)
      (fun _ => True) (fun _ _ _ _ _ _ => trivial) sh trivial).2
    rw [hroom] at hbalanced hle hkey hexit
    exact hbalanced.insert_inv hkey value exp hnonneg hlt (lt_of_le_of_lt hle hsum) (hexit rfl)

theorem Inv.sweepLoop (h : sh.Inv) (now : Time) (limit : Nat) (keys : List String) (deleted : Nat) :
    (sweepLoop now limit keys deleted sh).Inv := by
  induction keys generalizing sh deleted with
  | nil => exact h
  | cons key rest ih =>
    unfold Shard.sweepLoop
    split
    · exact ih h deleted
    · split
      · split
        · exact h.removeLocked key
        · exact ih (h.removeLocked key) (deleted + 1)
      · exact ih h deleted

end Shard

end Photon.FlashDb
