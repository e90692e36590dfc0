import Photon.Stdlib.Bloom

/-!
What a pool of Bloom filters answers after any sequence of calls. A filter is sound when
its size is positive and does not wrap the number of words, and when the seed table is
long enough for its hashes; one filter outside these limits is enough to lose a key or
to panic.
-/

namespace Photon.Stdlib

open Photon.Lib

/-- The parameters with a word for every position and a seed for every hash. -/
def WithinLimits (size : UInt64) (hashCount : UInt8) : Prop :=
  0 < size.toNat ∧ size.toNat + 63 < 2 ^ 64 ∧ hashCount.toNat ≤ primeSeeds.length

instance (size : UInt64) (hashCount : UInt8) : Decidable (WithinLimits size hashCount) :=
  inferInstanceAs (Decidable (_ ∧ _))

theorem numWords_toNat {size : UInt64} (h : size.toNat + 63 < 2 ^ 64) :
    (BitSet.numWords size).toNat = (size.toNat + 63) / 64 := by
  have hadd : (size + 63).toNat = size.toNat + 63 :=
    (UInt64.toNat_add size 63).trans (Nat.mod_eq_of_lt h)
  rw [BitSet.numWords, UInt64.toNat_div, hadd]
  rfl

theorem numWords_wrapped {size : UInt64} (h : 2 ^ 64 ≤ size.toNat + 63) :
    (BitSet.numWords size).toNat = 0 := by
  have hlt := size.toNat_lt
  have hadd : (size + 63).toNat = size.toNat + 63 - 2 ^ 64 := by
    refine (UInt64.toNat_add size 63).trans ?_
    change (size.toNat + 63) % 2 ^ 64 = _
    omega
  rw [BitSet.numWords, UInt64.toNat_div, hadd]
  change (size.toNat + 63 - 2 ^ 64) / 64 = 0
  omega

section Built

variable {maxWords : Nat} {size : UInt64} {hashCount : UInt8} {bf : BloomFilter}

theorem new_eq_some (hnew : BloomFilter.new maxWords size hashCount = some bf) :
    bf = ⟨maxUint64 size 1, maxUint8 hashCount 1,
      List.replicate (BitSet.numWords size).toNat 0, size⟩ := by
  obtain ⟨bitset, hbitset, rfl⟩ := Option.map_eq_some_iff.mp hnew
  unfold BitSet.new at hbitset
  split at hbitset
  · rw [← Option.some.inj hbitset]
  · cases hbitset

theorem maxUint64_one (hpos : 0 < size.toNat) : maxUint64 size 1 = size := by
  unfold maxUint64
  split
  · rfl
  · next h =>
      rw [UInt64.lt_iff_toNat_lt] at h
      refine UInt64.toNat_inj.mp ?_
      have hone : (1 : UInt64).toNat = 1 := rfl
      omega

theorem maxUint8_one_pos (hashCount : UInt8) : 0 < (maxUint8 hashCount 1).toNat := by
  unfold maxUint8
  split
  · next h => exact lt_of_le_of_lt (Nat.zero_le _) (UInt8.lt_iff_toNat_lt.mp h)
  · decide

theorem maxUint8_one_le (hashCount : UInt8) :
    (maxUint8 hashCount 1).toNat ≤ primeSeeds.length ↔ hashCount.toNat ≤ primeSeeds.length := by
  unfold maxUint8
  split
  · rfl
  · next h =>
      have hle : hashCount.toNat ≤ 1 :=
        Nat.le_of_not_lt fun hlt => h (UInt8.lt_iff_toNat_lt.mpr hlt)
      exact iff_of_true (by decide) (hle.trans (by decide))

theorem new_usable (hnew : BloomFilter.new maxWords size hashCount = some bf)
    (h : WithinLimits size hashCount) : bf.Usable := by
  obtain rfl := new_eq_some hnew
  obtain ⟨hpos, hwords, hseeds⟩ := h
  have hsize := maxUint64_one hpos
  refine ⟨by rw [hsize]; exact hpos, hsize.symm, ?_, maxUint8_one_pos hashCount,
    (maxUint8_one_le hashCount).mpr hseeds⟩
  rw [BitSet.Covered, List.length_replicate, numWords_toNat hwords]
  dsimp only
  omega

/-- A filter without a position for its key drops it, and does not find it. -/
theorem add_empty (hsize : bf.bitset.size = 0) (hhashes : 0 < bf.hashCount.toNat)
    (key : BloomKey) :
    bf.add key = (bf, false) ∧ bf.existsKey key = some false := by
  obtain ⟨hashes, hcount⟩ : ∃ n, bf.hashCount.toNat = n + 1 :=
    ⟨_, (Nat.succ_pred_eq_of_pos hhashes).symm⟩
  have hseed : primeSeeds[0 % bf.hashCount.toNat]? = some 2 := by
    rw [Nat.zero_mod]
    rfl
  have hbound : ∀ pos, bf.bitset.size ≤ pos := by
    intro pos
    rw [hsize]
    exact UInt64.le_iff_toNat_le.mpr (Nat.zero_le _)
  constructor
  · rw [BloomFilter.add, hcount, List.range_succ_eq_map, BloomFilter.addLoop, hseed]
    simp only [BitSet.set, BitSet.modify, if_pos (hbound _), BitSet.outOfBounds]
    rfl
  · rw [BloomFilter.existsKey, hcount, List.range_succ_eq_map, BloomFilter.existsLoop, hseed]
    simp only [BitSet.isSet, if_pos (hbound _), BitSet.outOfBounds]

/-- A filter without words panics at its first bit. -/
theorem add_without_words (hpos : 0 < bf.size.toNat) (hsize : bf.bitset.size = bf.size)
    (hbits : bf.bitset.bits = []) (hhashes : 0 < bf.hashCount.toNat) (key : BloomKey) :
    (bf.add key).2 = true := by
  obtain ⟨hashes, hcount⟩ : ∃ n, bf.hashCount.toNat = n + 1 :=
    ⟨_, (Nat.succ_pred_eq_of_pos hhashes).symm⟩
  have hseed : primeSeeds[0 % bf.hashCount.toNat]? = some 2 := by
    rw [Nat.zero_mod]
    rfl
  have hlt : ¬ bf.bitset.size ≤ bf.hash key 2 :=
    UInt64.not_le.mpr (hsize ▸ BloomFilter.hash_lt hpos key 2)
  rw [BloomFilter.add, hcount, List.range_succ_eq_map, BloomFilter.addLoop, hseed]
  simp only [BitSet.set, BitSet.modify, if_neg hlt, hbits, List.getElem?_nil]
  rfl

/-- A hash beyond the seed table panics, once the loop reaches it. -/
theorem addLoop_without_seed (hpos : 0 < bf.size.toNat) (key : BloomKey) {indices : List Nat}
    (hbeyond : ∃ i ∈ indices, primeSeeds.length ≤ i % bf.hashCount.toNat) {bitset : BitSet}
    (hsize : bitset.size = bf.size) (hcovered : bitset.Covered) :
    (bf.addLoop key indices bitset).2 = true := by
  induction indices generalizing bitset with
  | nil =>
    obtain ⟨i, hi, -⟩ := hbeyond
    cases hi
  | cons first rest ih =>
    rw [BloomFilter.addLoop]
    cases hseed : primeSeeds[first % bf.hashCount.toNat]? with
    | none => rfl
    | some seed =>
      obtain ⟨next, hset, hnextSize, hnextCovered, -⟩ := BitSet.set_eq hcovered
        (show bf.hash key seed < bitset.size from hsize ▸ BloomFilter.hash_lt hpos key seed)
      simp only [hset]
      refine ih ?_ (hnextSize.trans hsize) hnextCovered
      obtain ⟨i, hi, hlarge⟩ := hbeyond
      rcases List.mem_cons.mp hi with rfl | hrest
      · rw [List.getElem?_eq_none hlarge] at hseed
        cases hseed
      · exact ⟨i, hrest, hlarge⟩

/-- Outside the limits one key is enough: it is lost, or adding it panics. -/
theorem add_outside_limits (hnew : BloomFilter.new maxWords size hashCount = some bf)
    (h : ¬ WithinLimits size hashCount) (key : BloomKey) :
    bf.add key = (bf, false) ∧ bf.existsKey key = some false ∨ (bf.add key).2 = true := by
  obtain rfl := new_eq_some hnew
  have hhashes := maxUint8_one_pos hashCount
  rcases Nat.eq_zero_or_pos size.toNat with hzero | hpos
  · exact Or.inl (add_empty (UInt64.toNat_inj.mp hzero) hhashes key)
  · have hsize := maxUint64_one hpos
    refine Or.inr ?_
    rcases Nat.lt_or_ge (size.toNat + 63) (2 ^ 64) with hwords | hwrapped
    · have hseeds : ¬ (maxUint8 hashCount 1).toNat ≤ primeSeeds.length := fun hle =>
        h ⟨hpos, hwords, (maxUint8_one_le hashCount).mp hle⟩
      refine addLoop_without_seed (by rw [hsize]; exact hpos) key
        ⟨primeSeeds.length, List.mem_range.mpr (Nat.lt_of_not_le hseeds), ?_⟩ hsize.symm ?_
      · exact (Nat.mod_eq_of_lt (Nat.lt_of_not_le hseeds)).ge
      · rw [BitSet.Covered, List.length_replicate, numWords_toNat hwords]
        dsimp only
        omega
    · refine add_without_words (by rw [hsize]; exact hpos) hsize.symm ?_ hhashes key
      rw [numWords_wrapped hwrapped]
      rfl

end Built

/-- Every key that was added to a filter, or to a filter merged into it, is found there,
and no call panics. -/
def NoFalseNegatives (pool : List BloomFilter) : Prop :=
  ∀ calls : List BloomCall,
    (∀ event ∈ bloomMachine.trace pool calls, event.2 ≠ .panicked) ∧
    ∀ i key, key ∈ heldKeys (bloomMachine.trace pool calls) i →
      (bloomMachine.step (bloomMachine.run pool calls) (.existsKey i key)).2 = .found true

structure PoolHolds (pool : List BloomFilter) (held : Nat → List BloomKey) : Prop where
  usable : ∀ bf ∈ pool, bf.Usable
  holds : ∀ i, ∀ key ∈ held i, ∃ bf, pool[i]? = some bf ∧ bf.Holds key

section Run

private theorem set_getElem?_self {pool : List BloomFilter} {i : Nat} {bf : BloomFilter}
    (h : pool[i]? = some bf) : pool.set i bf = pool := by
  obtain ⟨hi, rfl⟩ := List.getElem?_eq_some_iff.mp h
  exact List.set_getElem_self hi

variable {pool : List BloomFilter} {held : Nat → List BloomKey}

/-- A filter that grew, and the keys it holds beyond those it had. -/
theorem PoolHolds.set (h : PoolHolds pool held) {i : Nat} {bf next : BloomFilter}
    (hbf : pool[i]? = some bf) (husable : next.Usable) (hgrows : BloomFilter.Grows bf next)
    (more : List BloomKey) (hmore : ∀ key ∈ more, next.Holds key) :
    PoolHolds (pool.set i next) (Function.update held i (more ++ held i)) := by
  obtain ⟨hi, -⟩ := List.getElem?_eq_some_iff.mp hbf
  refine ⟨fun other hother => ?_, fun j key hkey => ?_⟩
  · rcases List.mem_or_eq_of_mem_set hother with hmem | rfl
    · exact h.usable other hmem
    · exact husable
  · by_cases hij : j = i
    · subst hij
      rw [Function.update_self, List.mem_append] at hkey
      refine ⟨next, by rw [List.getElem?_set_self hi], ?_⟩
      rcases hkey with hnew | hold
      · exact hmore key hnew
      · obtain ⟨old, hgiven, hholds⟩ := h.holds j key hold
        cases hbf.symm.trans hgiven
        exact hgrows.holds hholds
    · rw [Function.update_of_ne hij] at hkey
      rw [List.getElem?_set_ne (Ne.symm hij)]
      exact h.holds j key hkey

/-- One call keeps the keys and does not panic. -/
theorem performBloom_holds (h : PoolHolds pool held) (call : BloomCall) :
    (performBloom pool call).2 ≠ .panicked ∧
      PoolHolds (performBloom pool call).1 (heldStep held (call, (performBloom pool call).2)) := by
  cases call with
  | add i key =>
    cases hbf : pool[i]? with
    | none => simpa only [performBloom, hbf] using ⟨nofun, h⟩
    | some bf =>
      obtain ⟨hflag, husable, hgrows, hholds⟩ :=
        BloomFilter.add_eq (h.usable bf (List.mem_of_getElem? hbf)) key
      simp only [performBloom, hbf, hflag, Bool.false_eq_true, if_false]
      exact ⟨nofun, h.set hbf husable hgrows [key] (by simpa using hholds)⟩
  | existsKey i key =>
    cases hbf : pool[i]? with
    | none => simpa only [performBloom, hbf] using ⟨nofun, h⟩
    | some bf =>
      obtain ⟨answer, hanswer, -⟩ := BloomFilter.existsLoop_eq
        (h.usable bf (List.mem_of_getElem? hbf)) key fun i hi => List.mem_range.mp hi
      simp only [performBloom, hbf, BloomFilter.existsKey, hanswer]
      exact ⟨nofun, h⟩
  | merge i j =>
    cases hbf : pool[i]? with
    | none => simpa only [performBloom, hbf] using ⟨nofun, h⟩
    | some bf =>
      cases hother : pool[j]? with
      | none => simpa only [performBloom, hbf, hother] using ⟨nofun, h⟩
      | some other =>
        rcases BloomFilter.merge_eq (h.usable bf (List.mem_of_getElem? hbf))
          (h.usable other (List.mem_of_getElem? hother)) with
          ⟨message, hrefused⟩ | ⟨hok, husable, hgrows, hholds⟩
        · simp only [performBloom, hbf, hother, hrefused, mergeReply]
          rw [set_getElem?_self hbf]
          exact ⟨nofun, h⟩
        · simp only [performBloom, hbf, hother, hok, mergeReply]
          refine ⟨nofun, h.set hbf husable hgrows (held j) fun key hkey => ?_⟩
          obtain ⟨source, hsource, hkeyHolds⟩ := h.holds j key hkey
          cases hother.symm.trans hsource
          exact hholds key hkeyHolds

theorem usable_pool_sound (h : ∀ bf ∈ pool, bf.Usable) : NoFalseNegatives pool := by
  intro calls
  have hrun := bloomMachine.trace_invariant
    (fun past pool => (∀ event ∈ past, event.2 ≠ .panicked) ∧ PoolHolds pool (heldKeys past))
    (fun _ _ => True) (fun past pool call hinv _ => by
      obtain ⟨hpast, hholds⟩ := hinv
      obtain ⟨hcall, hnext⟩ := performBloom_holds hholds call
      refine ⟨fun event hevent => ?_, ?_⟩
      · rcases List.mem_append.mp hevent with hold | hnew
        · exact hpast event hold
        · rw [List.mem_singleton.mp hnew]
          exact hcall
      · rw [heldKeys, List.foldl_append]
        exact hnext) [] pool calls ⟨nofun, h, nofun⟩
    (bloomMachine.allSteps_of_forall_mem pool fun _ _ => trivial)
  rw [List.nil_append] at hrun
  obtain ⟨hpanic, hholds⟩ := hrun
  refine ⟨hpanic, fun i key hkey => ?_⟩
  obtain ⟨bf, hbf, hbfHolds⟩ := hholds.holds i key hkey
  obtain ⟨answer, hanswer, hfound⟩ := BloomFilter.existsLoop_eq
    (hholds.usable bf (List.mem_of_getElem? hbf)) key fun i hi => List.mem_range.mp hi
  change (performBloom _ _).2 = _
  simp only [performBloom, hbf, BloomFilter.existsKey, hanswer, hfound hbfHolds]
  rfl

end Run

/-- A pool of filters that `NewBloomFilter` built has no false negatives and never
panics, if and only if all of them were built within the limits. -/
theorem bloom_sound_iff (maxWords : Nat) {builds : List (UInt64 × UInt8)}
    {pool : List BloomFilter}
    (hbuilt : List.Forall₂ (fun b bf => BloomFilter.new maxWords b.1 b.2 = some bf) builds pool) :
    NoFalseNegatives pool ↔ ∀ b ∈ builds, WithinLimits b.1 b.2 := by
  constructor
  · intro h b hb
    by_contra hlimits
    obtain ⟨i, hi, rfl⟩ := List.mem_iff_getElem.mp hb
    obtain ⟨bf, hbf, hnew⟩ : ∃ bf, pool[i]? = some bf ∧
        BloomFilter.new maxWords builds[i].1 builds[i].2 = some bf :=
      ⟨_, List.getElem?_eq_getElem (hbuilt.length_eq ▸ hi), hbuilt.get hi _⟩
    obtain ⟨hpanic, hfound⟩ := h [.add i []]
    rcases add_outside_limits hnew hlimits [] with ⟨hadd, hexists⟩ | hpanics
    · have hstep : bloomMachine.step pool (.add i []) = (pool, .done) := by
        simp [bloomMachine, performBloom, hbf, hadd, set_getElem?_self hbf]
      have hkey := hfound i []
      rw [Machine.trace, Machine.trace, Machine.run, Machine.run, hstep] at hkey
      have hlost := hkey (by simp [heldKeys, heldStep])
      simp only [bloomMachine, performBloom, hbf, hexists] at hlost
      cases hlost
    · refine hpanic (.add i [], (bloomMachine.step pool (.add i [])).2) ?_ ?_
      · exact List.mem_cons_self
      · simp [bloomMachine, performBloom, hbf, hpanics]
  · intro h
    refine usable_pool_sound fun bf hbf => ?_
    obtain ⟨i, hi, rfl⟩ := List.mem_iff_getElem.mp hbf
    have hlength := hbuilt.length_eq
    exact new_usable (List.Forall₂.get hbuilt (hlength ▸ hi) hi) (h _ (List.getElem_mem _))

/-- Two filters, one merged into the other. -/
theorem small_filters_sound :
    ∃ pool, List.Forall₂ (fun b bf => BloomFilter.new 1 b.1 b.2 = some bf)
      [((10 : UInt64), (2 : UInt8)), (10, 2)] pool ∧ NoFalseNegatives pool := by
  have hbuilt := List.Forall₂.cons (R := fun b bf => BloomFilter.new 1 b.1 b.2 = some bf)
    (a := ((10 : UInt64), (2 : UInt8))) rfl (.cons (a := (10, 2)) rfl .nil)
  have hlimits : WithinLimits 10 2 := by decide
  exact ⟨_, hbuilt, (bloom_sound_iff 1 hbuilt).mpr
    (List.forall_mem_cons.mpr ⟨hlimits, List.forall_mem_singleton.mpr hlimits⟩)⟩

/-- A filter of size zero loses its key, one of 112 hashes panics, and one of the
largest size panics. -/
theorem filters_outside_limits_fail :
    (∃ bf, BloomFilter.new 1 0 1 = some bf ∧
      bloomMachine.trace [bf] [.add 0 [97], .existsKey 0 [97]] =
        [(.add 0 [97], .done), (.existsKey 0 [97], .found false)]) ∧
    (∃ bf, BloomFilter.new 1 10 112 = some bf ∧
      bloomMachine.trace [bf] [.add 0 [97]] = [(.add 0 [97], .panicked)]) ∧
    ∃ bf, BloomFilter.new 1 18446744073709551615 1 = some bf ∧
      bloomMachine.trace [bf] [.add 0 [97]] = [(.add 0 [97], .panicked)] := by
  refine ⟨⟨_, rfl, ?_⟩, ⟨_, rfl, ?_⟩, ⟨_, rfl, ?_⟩⟩ <;> rfl

end Photon.Stdlib
