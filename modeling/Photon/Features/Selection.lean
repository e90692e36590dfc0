import Photon.Features.Config

/-!
The choice of a variant. A bucket key is hashed to one of ten thousand residues; the residue
over one hundred is the roll, and the first variant whose cumulative weight reaches the roll is
chosen. Since the comparison is not strict, the first variant gets one residue more than its
share.
-/

namespace Photon.Features

def fnv64a (bytes : List UInt8) : UInt64 :=
  bytes.foldl (fun hash byte => (hash ^^^ byte.toUInt64) * 1099511628211) 14695981039346656037

def residueRoll (r : ℕ) : ℚ := r / 100

def chooseVariant (roll sum : ℚ) : List Variant → Option ℕ
  | [] => none
  | v :: rest =>
    if roll ≤ sum + v.weight then some 0
    else (chooseVariant roll (sum + v.weight) rest).map (· + 1)

/-- `random` is what `randomPercentage` draws; it is read without a bucket key only. -/
def selectVariant (feature : Feature) (bucketKey : String) (random : ℚ) : Value :=
  let roll :=
    if bucketKey ≠ "" then residueRoll ((fnv64a bucketKey.toUTF8.toList).toNat % 10000)
    else random
  match (chooseVariant roll 0 feature.variants).bind (feature.variants[·]?) with
  | some v => .string v.name
  | none => feature.defaultValue

def cumulativeWeight (variants : List Variant) (i : ℕ) : ℚ :=
  ((variants.take i).map Variant.weight).sum

@[simp] theorem cumulativeWeight_zero (variants : List Variant) :
    cumulativeWeight variants 0 = 0 := by
  simp [cumulativeWeight]

@[simp] theorem cumulativeWeight_cons_succ (v : Variant) (variants : List Variant) (i : ℕ) :
    cumulativeWeight (v :: variants) (i + 1) = v.weight + cumulativeWeight variants i := by
  simp [cumulativeWeight]

/-- The loop returns at the first variant whose cumulative weight reaches the roll. -/
theorem chooseVariant_eq_some_iff (roll sum : ℚ) (variants : List Variant) (i : ℕ) :
    chooseVariant roll sum variants = some i ↔
      i < variants.length ∧ roll ≤ sum + cumulativeWeight variants (i + 1) ∧
        ∀ j < i, sum + cumulativeWeight variants (j + 1) < roll := by
  induction variants generalizing sum i with
  | nil => simp [chooseVariant]
  | cons v rest ih =>
    rw [chooseVariant]
    split_ifs with hreach
    · constructor
      · rintro ⟨⟩
        simpa using hreach
      · rintro ⟨-, -, hbefore⟩
        -- a later position would mean that the first weight was passed
        cases i with
        | zero => rfl
        | succ i =>
          have hfirst := hbefore 0 (Nat.succ_pos i)
          simp only [zero_add, cumulativeWeight_cons_succ, cumulativeWeight_zero,
            add_zero] at hfirst
          exact absurd hreach (not_le.mpr hfirst)
    · cases i with
      | zero => simpa using not_le.mp hreach
      | succ i =>
        have hshift : (chooseVariant roll (sum + v.weight) rest).map (· + 1) = some (i + 1) ↔
            chooseVariant roll (sum + v.weight) rest = some i := by
          simp
        rw [hshift, ih]
        simp only [List.length_cons, Nat.add_lt_add_iff_right, cumulativeWeight_cons_succ,
          add_assoc, Nat.forall_lt_succ_left, cumulativeWeight_zero, add_zero]
        simp [not_le.mp hreach]

def residuesOf (variants : List Variant) (i : ℕ) : ℕ :=
  ((Finset.range 10000).filter fun r =>
    chooseVariant (residueRoll r) 0 variants = some i).card

def InHundredths (variants : List Variant) (shares : List ℕ) : Prop :=
  variants.map Variant.weight = shares.map fun n : ℕ => (n : ℚ) / 100

def cumulativeShare (shares : List ℕ) (i : ℕ) : ℕ := (shares.take i).sum

theorem cumulativeShare_mono (shares : List ℕ) {i j : ℕ} (h : i ≤ j) :
    cumulativeShare shares i ≤ cumulativeShare shares j := by
  obtain ⟨k, rfl⟩ := Nat.exists_eq_add_of_le h
  rw [cumulativeShare, cumulativeShare, List.take_add, List.sum_append]
  exact Nat.le_add_right _ _

variable {variants : List Variant} {shares : List ℕ}

theorem cumulativeWeight_eq (h : InHundredths variants shares) (i : ℕ) :
    cumulativeWeight variants i = cumulativeShare shares i / 100 := by
  have hsum : ∀ ns : List ℕ, (ns.map fun n : ℕ => (n : ℚ) / 100).sum = (ns.sum : ℚ) / 100 := by
    intro ns
    induction ns with
    | nil => simp
    | cons n ns ih =>
      simp only [List.map_cons, List.sum_cons, ih]
      push_cast
      ring
  rw [cumulativeWeight, List.map_take, h, ← List.map_take, hsum, cumulativeShare]

/-- The first residue that the variants before position `i` leave. -/
def firstResidue (shares : List ℕ) : ℕ → ℕ
  | 0 => 0
  | i + 1 => cumulativeShare shares (i + 1) + 1

theorem chooseVariant_residue_iff (h : InHundredths variants shares) {i : ℕ}
    (hi : i < variants.length) (r : ℕ) :
    chooseVariant (residueRoll r) 0 variants = some i ↔
      firstResidue shares i ≤ r ∧ r < firstResidue shares (i + 1) := by
  have hle : ∀ n : ℕ, residueRoll r ≤ (n : ℚ) / 100 ↔ r ≤ n := by
    intro n
    rw [residueRoll, div_le_div_iff_of_pos_right (by norm_num), Nat.cast_le]
  have hlt : ∀ n : ℕ, (n : ℚ) / 100 < residueRoll r ↔ n < r := by
    intro n
    rw [← not_le, hle, not_le]
  rw [chooseVariant_eq_some_iff]
  simp only [zero_add, cumulativeWeight_eq h, hle, hlt, hi, true_and]
  have hlast : (∀ j < i, cumulativeShare shares (j + 1) < r) ↔ firstResidue shares i ≤ r := by
    cases i with
    | zero => simp [firstResidue]
    | succ i =>
      constructor
      · intro hbefore
        exact hbefore i (Nat.lt_succ_self i)
      · intro hfirst j hj
        have hmono := cumulativeShare_mono shares (Nat.succ_le_of_lt hj)
        exact lt_of_le_of_lt hmono hfirst
  rw [hlast, and_comm]
  exact and_congr_right fun _ => Nat.lt_succ_iff.symm

/-- The residues of a variant reach from behind the cumulative share of those before it up to
its own. -/
theorem residuesOf_eq (h : InHundredths variants shares) {i : ℕ} (hi : i < variants.length) :
    residuesOf variants i =
      min (firstResidue shares (i + 1)) 10000 - firstResidue shares i := by
  have hset : ((Finset.range 10000).filter fun r =>
      chooseVariant (residueRoll r) 0 variants = some i) =
      Finset.Ico (firstResidue shares i) (min (firstResidue shares (i + 1)) 10000) := by
    ext r
    simp only [Finset.mem_filter, Finset.mem_range, chooseVariant_residue_iff h hi,
      Finset.mem_Ico, lt_min_iff]
    tauto
  rw [residuesOf, hset, Nat.card_Ico]

theorem sumWeights_ok {sum total : ℚ} (h : sumWeights sum variants = .ok total) :
    (∀ v ∈ variants, 0 ≤ v.weight) ∧ total = sum + (variants.map Variant.weight).sum := by
  induction variants generalizing sum with
  | nil =>
    cases h
    simp
  | cons v rest ih =>
    rw [sumWeights] at h
    split_ifs at h with hneg hlarge
    obtain ⟨hrest, htotal⟩ := ih h
    refine ⟨?_, ?_⟩
    · simpa [not_lt.mp hneg] using hrest
    · rw [htotal, List.map_cons, List.sum_cons, add_assoc]

theorem validateVariants_ok (h : validateVariants variants = .ok ()) :
    ∀ v ∈ variants, 0 ≤ v.weight := by
  rw [validateVariants] at h
  cases hsum : sumWeights 0 variants with
  | error text => rw [hsum] at h; cases h
  | ok total => exact (sumWeights_ok hsum).1

/-- Whole hundredths that are not negative are natural numbers of hundredths. -/
theorem exists_inHundredths (hwhole : ∀ v ∈ variants, ∃ n : ℤ, v.weight = n / 100)
    (hnonneg : ∀ v ∈ variants, 0 ≤ v.weight) :
    ∃ shares, InHundredths variants shares := by
  refine ⟨variants.map fun v => (v.weight * 100).floor.toNat, ?_⟩
  rw [InHundredths, List.map_map]
  apply List.map_congr_left
  intro v hv
  obtain ⟨n, hn⟩ := hwhole v hv
  have hpos : (0 : ℚ) ≤ n := by
    have := hnonneg v hv
    rw [hn] at this
    linarith
  have hfloor : v.weight * 100 = n := by rw [hn]; ring
  have hcast : ((n.toNat : ℕ) : ℚ) = n := by
    have hnat : ((n.toNat : ℕ) : ℤ) = n := Int.toNat_of_nonneg (by exact_mod_cast hpos)
    exact_mod_cast hnat
  rw [Function.comp_apply, hfloor, Rat.floor_intCast, hcast, hn]

theorem sum_shares (h : InHundredths variants shares)
    (hsum : (variants.map Variant.weight).sum = 100) :
    shares.sum = 10000 := by
  have hlength : variants.length = shares.length := by
    simpa using congrArg List.length h
  have htotal := cumulativeWeight_eq h variants.length
  rw [cumulativeWeight, List.take_length, hsum, cumulativeShare, hlength, List.take_length]
    at htotal
  have hcast : ((shares.sum : ℕ) : ℚ) = (10000 : ℕ) := by
    rw [Nat.cast_ofNat]
    linarith
  exact Nat.cast_injective hcast

variable {rest : List Variant}

/-- The first variant gets one residue more than its share. -/
theorem residuesOf_first {first : Variant} {n : ℕ} {ns : List ℕ}
    (h : InHundredths (first :: rest) (n :: ns)) :
    residuesOf (first :: rest) 0 = min (n + 1) 10000 := by
  rw [residuesOf_eq h (Nat.succ_pos _)]
  rfl

/-- Nothing is left behind a first variant that has all the weight. -/
theorem residuesOf_behind {first : Variant} {ns : List ℕ}
    (h : InHundredths (first :: rest) (10000 :: ns)) {i : ℕ} (hi : i < rest.length) :
    residuesOf (first :: rest) (i + 1) = 0 := by
  have hfirst : 10000 ≤ cumulativeShare (10000 :: ns) (i + 1) := by
    rw [cumulativeShare, List.take_succ_cons, List.sum_cons]
    exact Nat.le_add_right _ _
  rw [residuesOf_eq h (Nat.succ_lt_succ hi), firstResidue, firstResidue]
  omega

theorem weight_behind {first : Variant} {n : ℕ} {ns : List ℕ}
    (h : InHundredths (first :: rest) (n :: ns)) (hempty : ns.sum = 0) {v : Variant}
    (hv : v ∈ rest) : v.weight = 0 := by
  obtain ⟨-, hrest⟩ := List.cons.inj h
  have hmem : v.weight ∈ ns.map fun n : ℕ => (n : ℚ) / 100 := hrest ▸ List.mem_map_of_mem hv
  obtain ⟨k, hk, hweight⟩ := List.mem_map.mp hmem
  rw [← hweight, List.sum_eq_zero_iff.mp hempty k hk, Nat.cast_zero, zero_div]

/-- For weights in whole hundredths that sum to 100, every variant is chosen by as many
residues as it has hundredths just if the first variant has all the weight. -/
theorem residues_proportional_iff (variants : List Variant)
    (hvalid : validateVariants variants = .ok ())
    (hwhole : ∀ v ∈ variants, ∃ n : ℤ, v.weight = n / 100)
    (hsum : (variants.map Variant.weight).sum = 100) :
    (∀ i, ∀ v ∈ variants[i]?, (residuesOf variants i : ℚ) = 100 * v.weight) ↔
      ∀ v ∈ variants.head?, v.weight = 100 := by
  obtain ⟨shares, hshares⟩ := exists_inHundredths hwhole (validateVariants_ok hvalid)
  have htotal := sum_shares hshares hsum
  cases variants with
  | nil => exact absurd hsum (by norm_num)
  | cons first rest =>
    cases shares with
    | nil => cases hshares
    | cons n ns =>
      obtain ⟨hfirst, -⟩ := List.cons.inj hshares
      constructor
      · intro h v hv
        obtain rfl : first = v := Option.some.inj hv
        have hshare := h 0 first rfl
        rw [residuesOf_first hshares, hfirst, mul_div_cancel₀ _ (by norm_num), Nat.cast_inj]
          at hshare
        have hn : n = 10000 := by omega
        rw [hfirst, hn]
        norm_num
      · intro h i v hv
        have hweight : first.weight = 100 := h first rfl
        obtain rfl : n = 10000 := by
          have hcast : (n : ℚ) = (10000 : ℕ) := by
            push_cast
            linarith [hfirst.symm.trans hweight]
          exact Nat.cast_injective hcast
        have hempty : ns.sum = 0 := by
          rw [List.sum_cons] at htotal
          omega
        cases i with
        | zero =>
          obtain rfl : first = v := Option.some.inj hv
          rw [residuesOf_first hshares, hweight]
          norm_num
        | succ i =>
          have hi : rest[i]? = some v := hv
          obtain ⟨hlt, -⟩ := List.getElem?_eq_some_iff.mp hi
          have hzero := weight_behind hshares hempty (List.mem_of_getElem? hi)
          rw [residuesOf_behind hshares hlt, hzero, Nat.cast_zero, mul_zero]

theorem whole_weight_first_proportional :
    (residuesOf [⟨"on", 100⟩, ⟨"off", 0⟩] 0 : ℚ) = 100 * 100 ∧
      (residuesOf [⟨"on", 100⟩, ⟨"off", 0⟩] 1 : ℚ) = 100 * 0 := by
  have hwhole : ∀ v ∈ [Variant.mk "on" 100, ⟨"off", 0⟩], ∃ n : ℤ, v.weight = n / 100 := by
    intro v hv
    fin_cases hv
    · exact ⟨10000, by norm_num⟩
    · exact ⟨0, by norm_num⟩
  have h := (residues_proportional_iff [⟨"on", 100⟩, ⟨"off", 0⟩]
    (by norm_num [validateVariants, sumWeights, bind, Except.bind]) hwhole (by norm_num)).mpr
    (by rintro v ⟨⟩; rfl)
  exact ⟨h 0 _ rfl, h 1 _ rfl⟩

/-- A variant without weight in the first place is chosen by the residue zero, and the one
with all the weight loses it. -/
theorem variant_without_weight_chosen :
    validateVariants [⟨"off", 0⟩, ⟨"on", 100⟩] = .ok () ∧
      chooseVariant (residueRoll 0) 0 [⟨"off", 0⟩, ⟨"on", 100⟩] = some 0 ∧
      residuesOf [⟨"off", 0⟩, ⟨"on", 100⟩] 0 = 1 ∧
      residuesOf [⟨"off", 0⟩, ⟨"on", 100⟩] 1 = 9999 := by
  have hshares : InHundredths [⟨"off", 0⟩, ⟨"on", 100⟩] [0, 10000] := by
    norm_num [InHundredths]
  refine ⟨?_, ?_, ?_, ?_⟩
  · norm_num [validateVariants, sumWeights, bind, Except.bind]
  · norm_num [chooseVariant, residueRoll]
  · exact residuesOf_first hshares
  · exact residuesOf_eq hshares (by norm_num)

end Photon.Features
