import Photon.FlashDb.Readback

/-!
Which records the two eviction loops leave. In a shard that keeps its books the byte
count without some victims is the sum of the recorded sizes of the others, so both
loops stop at the longest front part of the recency order that leaves enough room:
trimming at the capacity, admission at the capacity less the size of the newcomer.
-/

namespace Photon.FlashDb

open Photon.Lib Photon.Lib.Recency Photon.Stdlib

namespace Shard

def charges (sh : Shard) (keys : List String) : Int := totalOn Record.size sh.data keys

variable {sh : Shard} {key : String}

theorem Balanced.keys_perm (h : sh.Balanced) : sh.lru.keys.Perm sh.data.keys := by
  rw [List.perm_ext_iff_of_nodup sh.lru.keys_nodup sh.data.keys_nodup]
  exact fun key => (h.sameKeys key).symm

theorem Balanced.charges_keys (h : sh.Balanced) : sh.charges sh.lru.keys = sh.currentSize := by
  rw [h.counter, accounted, total_eq_totalOn Record.size sh.data h.keys_perm, charges]

/-- The byte count without some victims is what the others are charged. -/
theorem Balanced.sizeWithout_eq (h : sh.Balanced) {gone left : List String}
    (horder : sh.victimOrder = gone ++ left) :
    (sh.sizeWithout gone : Int) = sh.charges left.reverse := by
  induction gone generalizing sh with
  | nil =>
    rw [List.nil_append] at horder
    rw [← horder, victimOrder, List.reverse_reverse, h.charges_keys]
    rfl
  | cons vk gone ih =>
    have hnodup := sh.victimOrder_nodup
    rw [horder, List.cons_append] at hnodup
    obtain ⟨hfresh, -⟩ := List.nodup_cons.mp hnodup
    have hgone : vk ∉ gone := fun hmem => hfresh (List.mem_append_left _ hmem)
    rw [← removeLocked_sizeWithout hgone,
      ih (h.removeLocked vk) (removeLocked_victimOrder horder)]
    refine totalOn_congr Record.size fun key hkey => ?_
    have hne : key ≠ vk := by
      rintro rfl
      exact hfresh (List.mem_append_right _ (List.mem_reverse.mp hkey))
    exact removeLocked_lookup_ne sh hne

theorem evictAll_keys {gone left : List String} (horder : sh.victimOrder = gone ++ left) :
    (sh.evictAll gone).lru.keys = left.reverse := by
  induction gone generalizing sh with
  | nil =>
    rw [List.nil_append] at horder
    rw [← horder, victimOrder, List.reverse_reverse]
    rfl
  | cons vk gone ih => exact ih (removeLocked_victimOrder horder)

/-- Trimming keeps the most recent records that fit. -/
theorem Balanced.trim_keepsMost (h : sh.Balanced) :
    KeepsMost (fun keys => sh.charges keys ≤ sh.capacity) sh.lru.keys sh.trim.lru.keys := by
  obtain ⟨gone, left, htrim⟩ := sh.trim_trimming
  rw [htrim.state, evictAll_keys htrim.order]
  refine keepsMost_of_victims htrim.order ?_ ?_
  · rcases htrim.settled with rfl | hfits
    · exact Int.natCast_nonneg _
    · rw [← h.sizeWithout_eq htrim.order]
      exact Int.ofNat_le.mpr hfits
  · intro part rest horder hpart hne
    have hfull := htrim.pressed part hpart hne
    rw [← h.sizeWithout_eq horder]
    omega

/-- An admission loop that made room keeps the most recent records that leave room. -/
theorem Balanced.makeRoom_keepsMost (h : sh.Balanced) (hsum : sh.currentSize < 2 ^ 63)
    (shouldAdmit : String → Bool) (newCost : Nat) (hcost : newCost < 2 ^ 63)
    (hroom : (sh.makeRoom shouldAdmit newCost).2 = true) :
    KeepsMost (fun keys => sh.charges keys + newCost ≤ sh.capacity) sh.lru.keys
      (sh.makeRoom shouldAdmit newCost).1.lru.keys := by
  obtain ⟨gone, left, hadmission⟩ := sh.makeRoom_admission shouldAdmit newCost
  have hfull {part rest : List String} (horder : sh.victimOrder = part ++ rest) :
      sh.FullWithout newCost part ↔ ¬ sh.charges rest.reverse + newCost ≤ sh.capacity := by
    have hsize := h.sizeWithout_eq horder
    have hless : sh.charges rest.reverse ≤ sh.currentSize := by
      have hkeys : sh.lru.keys = rest.reverse ++ part.reverse := by
        rw [← List.reverse_append, ← horder, victimOrder, List.reverse_reverse]
      have hpart := totalOn_nonneg Record.size h.sizes part.reverse
      rw [← h.charges_keys, hkeys, charges, charges, totalOn_append]
      omega
    rw [FullWithout, addU64_of_lt (by omega)]
    omega
  rw [hadmission.state, evictAll_keys hadmission.order]
  refine keepsMost_of_victims hadmission.order ?_ ?_
  · by_contra hstill
    exact hadmission.room hroom ((hfull hadmission.order).mpr hstill)
  · intro part rest horder hpart hne
    exact (hfull horder).mp (hadmission.pressed part hpart hne)

/-- Taking records away leaves the records of the keys that are left. -/
theorem Balanced.lookup_of_shrinks {before after : Shard} (h : after.Balanced)
    (hshrinks : Shrinks before after) (name : String) :
    after.data.lookup name = if name ∈ after.lru.keys then before.data.lookup name else none := by
  split
  · next hmem =>
      have hstored : after.data.lookup name ≠ none := by
        rw [ne_eq, AList.lookup_eq_none, not_not, h.sameKeys]
        exact hmem
      rcases hshrinks name with hnone | heq
      · exact absurd hnone hstored
      · exact heq
  · next hmem => rwa [AList.lookup_eq_none, h.sameKeys]

/-- What a shard holds when `next` was written to `key` and the keys `kept` are left:
their records, with `next` for `key`, and no others. -/
def Holds (before after : Shard) (key : String) (next : Record) (kept : List String) : Prop :=
  ∀ name, after.data.lookup name =
    if name ∈ kept then (before.data.insert key next).lookup name else none

/-- A new record was stored, and of the keys in `order` the least recent ones went, no
more of them than had to; the others keep their records and their order. -/
def Inserted (order orderAfter : List String) (before after : Shard) (key : String)
    (next : Record) : Prop :=
  ∃ kept, KeepsMost (fun keys => before.charges keys + next.size ≤ before.capacity) order kept ∧
    orderAfter = key :: kept ∧ before.Holds after key next (key :: kept)

/-- A record was rewritten and became the most recent one, and then the least recent
keys went, no more of them than had to. -/
def Replaced (order orderAfter : List String) (before after : Shard) (key : String)
    (next : Record) : Prop :=
  KeepsMost (fun keys => totalOn Record.size (before.data.insert key next) keys ≤ before.capacity)
    (key :: order.erase key) orderAfter ∧ before.Holds after key next orderAfter

/-- `Set` of an absent key. -/
theorem Inv.set_inserted (h : sh.Inv) (shouldAdmit : String → Bool) {value : FieldMap}
    {exp : Time} (hlookup : sh.data.lookup key = none) (hsize : exactSize key value < 2 ^ 63)
    (hsum : sh.currentSize < 2 ^ 63) (hstored : (sh.set shouldAdmit key value exp).2 = true) :
    Inserted sh.lru.keys (sh.set shouldAdmit key value exp).1.lru.keys sh
      (sh.set shouldAdmit key value exp).1 key ⟨value, computeSize key value, exp⟩ := by
  have habsent : key ∉ sh.data := AList.lookup_eq_none.mp hlookup
  obtain ⟨hnonneg, hlt⟩ := computeSize_bounds hsize
  have hcost : (costOf key value : Int) = computeSize key value := nonNegative_of_nonneg hnonneg
  rcases Nat.lt_or_ge sh.capacity (costOf key value) with hlarge | hfits
  · simp only [Shard.set, hlookup, if_pos hlarge] at hstored
    cases hstored
  · have hmost := h.makeRoom_keepsMost hsum shouldAdmit (costOf key value) (by omega)
    obtain ⟨hbalanced, -, -, hkey⟩ := h.toBalanced.makeRoom shouldAdmit (costOf key value) habsent
    have hshrinks := sh.shrinks_makeRoom shouldAdmit (costOf key value)
    rw [set_of_absent shouldAdmit exp hlookup hfits] at hstored ⊢
    rcases hroom : sh.makeRoom shouldAdmit (costOf key value) with ⟨room, flag⟩
    rw [hroom] at hstored hmost hbalanced hkey hshrinks
    cases flag with
    | false => exact absurd hstored Bool.false_ne_true
    | true =>
      have hmiss : key ∉ room.lru.keys := by
        rwa [← hbalanced.sameKeys]
      refine ⟨room.lru.keys, ?_, ?_, ?_⟩
      · simpa only [hcost] using hmost rfl
      · rw [insert_lru, room.lru.keys_set hbalanced.unlimited, List.erase_of_not_mem hmiss]
      · intro name
        rw [insert_data]
        by_cases hname : name = key
        · subst hname
          rw [AList.lookup_insert, if_pos List.mem_cons_self, AList.lookup_insert]
        · rw [AList.lookup_insert_ne hname, AList.lookup_insert_ne hname,
            hbalanced.lookup_of_shrinks hshrinks name]
          simp [hname]

/-- A record that was rewritten and charged, after the trim loop. -/
theorem charged_trim_replaced {next : Record} {size : Nat}
    (h : (sh.charged key next size).Balanced) (hmem : key ∈ sh.lru.keys) :
    Replaced sh.lru.keys (sh.charged key next size).trim.lru.keys sh
      (sh.charged key next size).trim key next := by
  have hkeys : (sh.charged key next size).lru.keys = key :: sh.lru.keys.erase key :=
    sh.lru.keys_get hmem
  refine ⟨?_, h.trim_inv.toBalanced.lookup_of_shrinks (shrinks_trim _)⟩
  rw [← hkeys]
  exact h.trim_keepsMost

/-- `Set` of a present key. -/
theorem Inv.update_replaced (h : sh.Inv) {record : Record}
    (hlookup : sh.data.lookup key = some record) (value : FieldMap) (exp : Time)
    (hsize : exactSize key value < 2 ^ 63) (hsum : sh.currentSize < 2 ^ 63) :
    Replaced sh.lru.keys (sh.update key record value exp).lru.keys sh
      (sh.update key record value exp) key ⟨value, computeSize key value, exp⟩ := by
  obtain ⟨hnonneg, hlt⟩ := computeSize_bounds hsize
  have hmem : key ∈ sh.lru.keys :=
    (h.sameKeys key).mp (AList.lookup_isSome.mp (by simp [hlookup]))
  rw [update_eq, updatedSize, if_pos hnonneg]
  exact charged_trim_replaced
    ((h.toBalanced.recharged hlookup value exp hnonneg hlt hsum).touch key) hmem

/-- `Append` to a live record. -/
theorem Inv.recharge_replaced (h : sh.Inv) {record : Record}
    (hlookup : sh.data.lookup key = some record) {fields : FieldMap}
    (hsize : exactSize key fields < 2 ^ 63) (hsum : sh.currentSize < 2 ^ 63) :
    Replaced sh.lru.keys (sh.recharge key record fields).lru.keys sh
      (sh.recharge key record fields) key ⟨fields, computeSize key fields, record.expiry⟩ := by
  obtain ⟨hnonneg, hlt⟩ := computeSize_bounds hsize
  have hmem : key ∈ sh.lru.keys :=
    (h.sameKeys key).mp (AList.lookup_isSome.mp (by simp [hlookup]))
  rw [recharge_eq]
  exact charged_trim_replaced
    ((h.toBalanced.recharged hlookup fields record.expiry hnonneg hlt hsum).touch key) hmem

/-- An `Append` that succeeds has recharged a live record; one that fails removes no
record but an expired one of its own key. -/
theorem append_cases (sh : Shard) (key : String) (appends : GoMap String) (now : Time) :
    (∃ record, sh.data.lookup key = some record ∧
      sh.append key appends now =
        (sh.recharge key record (appendLoop appends record.value).1, .ok ())) ∨
    (∃ e, (sh.append key appends now).2 = .error e ∧
      ∀ name, name ≠ key →
        (sh.append key appends now).1.data.lookup name = sh.data.lookup name) := by
  unfold append
  rcases liveRecord_cases sh key now with
    ⟨record, hlookup, _, heq⟩ | heq | ⟨record, hlookup, _, heq⟩
  · simp only [heq]
    rcases hloop : appendLoop appends record.value with ⟨fields, e | _⟩
    · exact Or.inr ⟨e, rfl, fun name hname => AList.lookup_insert_ne hname⟩
    · exact Or.inl ⟨record, hlookup, by rw [hloop]⟩
  · simp only [heq]
    exact Or.inr ⟨.notFound, rfl, fun _ _ => trivial⟩
  · simp only [heq]
    exact Or.inr ⟨.notFound, rfl, fun name hname => removeLocked_lookup_ne sh hname⟩

end Shard

end Photon.FlashDb
