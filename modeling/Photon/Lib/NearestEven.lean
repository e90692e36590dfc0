import Mathlib.Tactic

/-!
Rounding to 53 significant bits, to the nearest number and to the even one of two. The
core library shifts a mantissa right bit by bit and keeps a round and a sticky bit; here the
result is shown to be monotone and exact on what fits. An integer is rounded on either side of
zero alike, so rounding keeps the order of integers and never passes a number that fits.
-/

namespace Photon.Lib.Binary64

open Float.Model Float.Model.UnpackedFloat

private def weight (em : ExtendedMantissa) : ℕ :=
  4 * em.mantissa + 2 * em.roundBit.toNat + em.stickyBit.toNat

variable {em em' : ExtendedMantissa}

private theorem weight_shiftRightOne_mono (h : weight em ≤ weight em') :
    weight em.shiftRightOne ≤ weight em'.shiftRightOne := by
  -- the new weight is twice the old mantissa, and one more if a bit was set behind it
  have hshift : ∀ em : ExtendedMantissa, weight em.shiftRightOne =
      2 * em.mantissa + (em.roundBit || em.stickyBit).toNat := by
    intro em
    have hbit : (em.mantissa % 2 != 0).toNat = em.mantissa % 2 := by
      rcases Nat.mod_two_eq_zero_or_one em.mantissa with hmod | hmod <;> simp [hmod]
    simp only [weight, ExtendedMantissa.shiftRightOne, hbit]
    omega
  obtain ⟨m, r, s⟩ := em
  obtain ⟨m', r', s'⟩ := em'
  simp only [hshift]
  cases r <;> cases s <;> cases r' <;> cases s' <;> simp [weight] at h ⊢ <;> omega

private theorem weight_shiftRight_mono (k : ℕ) (h : weight em ≤ weight em') :
    weight (em >>> k) ≤ weight (em' >>> k) := by
  induction k with
  | zero => exact h
  | succ k ih => exact weight_shiftRightOne_mono ih

private theorem roundedMantissa_mono (h : weight em ≤ weight em') :
    em.roundedMantissa ≤ em'.roundedMantissa := by
  obtain ⟨m, r, s⟩ := em
  obtain ⟨m', r', s'⟩ := em'
  cases r <;> cases s <;> cases r' <;> cases s' <;>
    simp [weight, ExtendedMantissa.roundedMantissa, ExtendedMantissa.accuracy,
      Accuracy.roundToNearestEven] at h ⊢ <;> omega

def roundShift (k m : ℕ) : ℕ := (ExtendedMantissa.mk m false false >>> k).roundedMantissa

theorem roundShift_mono (k : ℕ) {m m' : ℕ} (h : m ≤ m') : roundShift k m ≤ roundShift k m' := by
  apply roundedMantissa_mono
  apply weight_shiftRight_mono
  simpa [weight] using h

theorem roundShift_mul (k m : ℕ) : roundShift k (m * 2 ^ k) = m := by
  -- shifting out zeros sets neither bit
  have hshift : ∀ k : ℕ, ∀ m : ℕ, ExtendedMantissa.mk (m * 2 ^ k) false false >>> k =
      ExtendedMantissa.mk m false false := by
    intro k
    induction k with
    | zero => intro m; simp [HShiftRight.hShiftRight, Nat.repeat]
    | succ k ih =>
      intro m
      have hhalf : m * 2 ^ (k + 1) = m * 2 * 2 ^ k := by ring
      calc ExtendedMantissa.mk (m * 2 ^ (k + 1)) false false >>> (k + 1)
          = (ExtendedMantissa.mk (m * 2 ^ (k + 1)) false false >>> k).shiftRightOne := rfl
        _ = (ExtendedMantissa.mk (m * 2) false false).shiftRightOne := by rw [hhalf, ih]
        _ = ExtendedMantissa.mk m false false := by simp [ExtendedMantissa.shiftRightOne]
  rw [roundShift, hshift]
  rfl

def excess (m : ℕ) : ℕ := m.log2 - 52

def nearestNat (m : ℕ) : ℕ := roundShift (excess m) m * 2 ^ excess m

theorem nearestNat_of_excess_eq_zero {m : ℕ} (h : excess m = 0) : nearestNat m = m := by
  have hround := roundShift_mul 0 m
  rw [pow_zero, mul_one] at hround
  rw [nearestNat, h, hround, pow_zero, mul_one]

theorem excess_eq_zero {m : ℕ} (h : m < 2 ^ 53) : excess m = 0 := by
  rcases Nat.eq_zero_or_pos m with rfl | hpos
  · rfl
  · have hlog : m.log2 < 53 := (Nat.log2_lt hpos.ne').mpr h
    simp only [excess]
    omega

theorem lt_two_pow_excess (m : ℕ) : m < 2 ^ 53 * 2 ^ excess m := by
  calc m < 2 ^ (m.log2 + 1) := Nat.lt_log2_self
    _ ≤ 2 ^ (53 + excess m) := Nat.pow_le_pow_right two_pos (by simp only [excess]; omega)
    _ = 2 ^ 53 * 2 ^ excess m := pow_add 2 53 _

theorem two_pow_excess_le {m : ℕ} (h : excess m ≠ 0) : 2 ^ 52 * 2 ^ excess m ≤ m := by
  have hlog : 52 + excess m = m.log2 := by simp only [excess] at h ⊢; omega
  have hpos : m ≠ 0 := by rintro rfl; simp [excess] at h
  rw [← pow_add, hlog]
  exact Nat.log2_self_le hpos

theorem roundShift_excess_le (m : ℕ) : roundShift (excess m) m ≤ 2 ^ 53 := by
  calc roundShift (excess m) m ≤ roundShift (excess m) (2 ^ 53 * 2 ^ excess m) :=
        roundShift_mono _ (lt_two_pow_excess m).le
    _ = 2 ^ 53 := roundShift_mul _ _

theorem le_roundShift_excess {m : ℕ} (h : excess m ≠ 0) : 2 ^ 52 ≤ roundShift (excess m) m := by
  calc 2 ^ 52 = roundShift (excess m) (2 ^ 52 * 2 ^ excess m) := (roundShift_mul _ _).symm
    _ ≤ roundShift (excess m) m := roundShift_mono _ (two_pow_excess_le h)

theorem excess_mono {m m' : ℕ} (h : m ≤ m') : excess m ≤ excess m' := by
  rcases Nat.eq_zero_or_pos m with rfl | hpos
  · simp [excess]
  · have hlog : m.log2 ≤ m'.log2 :=
      (Nat.le_log2 (by omega)).mpr ((Nat.log2_self_le hpos.ne').trans h)
    simp only [excess]
    omega

theorem nearestNat_mono {m m' : ℕ} (h : m ≤ m') : nearestNat m ≤ nearestNat m' := by
  rcases (excess_mono h).eq_or_lt with heq | hlt
  · rw [nearestNat, nearestNat, heq]
    exact Nat.mul_le_mul_right _ (roundShift_mono _ h)
  · -- `m'` has more bits, and the power of two between them is kept by both roundings
    have hexcess : excess m' ≠ 0 := by omega
    calc nearestNat m ≤ 2 ^ 53 * 2 ^ excess m :=
          Nat.mul_le_mul_right _ (roundShift_excess_le m)
      _ = 2 ^ 52 * 2 ^ (excess m + 1) := by ring
      _ ≤ 2 ^ 52 * 2 ^ excess m' :=
          Nat.mul_le_mul_left _ (Nat.pow_le_pow_right two_pos hlt)
      _ ≤ nearestNat m' := Nat.mul_le_mul_right _ (le_roundShift_excess hexcess)

/-! ### Integers -/

def nearest (n : ℤ) : ℤ := n.sign * nearestNat n.natAbs

theorem nearest_natCast (m : ℕ) : nearest m = nearestNat m := by
  rcases Nat.eq_zero_or_pos m with rfl | hpos
  · rfl
  · rw [nearest, Int.sign_natCast_of_ne_zero hpos.ne', one_mul, Int.natAbs_natCast]

theorem nearest_neg (n : ℤ) : nearest (-n) = -nearest n := by
  rw [nearest, nearest, Int.sign_neg, Int.natAbs_neg, neg_mul]

theorem nearest_of_natAbs_le {n : ℤ} (h : n.natAbs ≤ 2 ^ 53) : nearest n = n := by
  have hnat : nearestNat n.natAbs = n.natAbs := by
    rcases h.lt_or_eq with hlt | heq
    · exact nearestNat_of_excess_eq_zero (excess_eq_zero hlt)
    · rw [heq]
      decide +kernel
  rw [nearest, hnat, Int.sign_mul_natAbs]

theorem nearest_mono {n n' : ℤ} (h : n ≤ n') : nearest n ≤ nearest n' := by
  obtain ⟨m, rfl | rfl⟩ := n.eq_nat_or_neg <;> obtain ⟨m', rfl | rfl⟩ := n'.eq_nat_or_neg
  · simpa only [nearest_natCast, Nat.cast_le] using nearestNat_mono (Int.ofNat_le.mp h)
  · -- only zero lies on both sides
    have hm : m = 0 := by omega
    have hm' : m' = 0 := by omega
    simp [hm, hm']
  · simp only [nearest_neg, nearest_natCast]
    omega
  · have hle : m' ≤ m := by omega
    simpa only [nearest_neg, nearest_natCast, neg_le_neg_iff, Nat.cast_le] using nearestNat_mono hle

def Representable (q : ℚ) : Prop := ∃ (m : ℕ) (e : ℤ), m < 2 ^ 53 ∧ q = m * 2 ^ e

variable {q : ℚ}

/-- A size from `2 ^ (52 + k)` on is a multiple of `2 ^ k`. -/
private theorem Representable.multiple (hq : Representable q) {k : ℕ}
    (h : (2 : ℚ) ^ 52 * 2 ^ k ≤ q) : ∃ c : ℕ, q = ((c * 2 ^ k : ℕ) : ℚ) := by
  obtain ⟨m, e, hm, rfl⟩ := hq
  have hexponent : (k : ℤ) ≤ e := by
    by_contra hlt
    push Not at hlt
    have hpow : (2 : ℚ) ^ (e + 1) ≤ 2 ^ (k : ℤ) := zpow_le_zpow_right₀ one_le_two (by omega)
    have hsmall : (m : ℚ) * 2 ^ e < 2 ^ 53 * 2 ^ e := by
      apply mul_lt_mul_of_pos_right _ (by positivity)
      exact_mod_cast hm
    have heq : (2 : ℚ) ^ 53 * 2 ^ e = 2 ^ 52 * 2 ^ (e + 1) := by
      rw [zpow_add_one₀ two_ne_zero]
      ring
    rw [zpow_natCast] at hpow
    linarith
  refine ⟨m * 2 ^ (e - k).toNat, ?_⟩
  have hsplit : e = ((e - k).toNat : ℤ) + k := by omega
  conv_lhs => rw [hsplit, zpow_add₀ two_ne_zero, zpow_natCast, zpow_natCast]
  push_cast
  ring

private theorem nearestNat_le (hq : Representable q) {n : ℕ} (h : (n : ℚ) ≤ q) :
    (nearestNat n : ℚ) ≤ q := by
  rcases eq_or_ne (excess n) 0 with hzero | hexcess
  · rwa [nearestNat_of_excess_eq_zero hzero]
  · have hlow : ((2 ^ 52 * 2 ^ excess n : ℕ) : ℚ) ≤ n := Nat.cast_le.mpr (two_pow_excess_le hexcess)
    push_cast at hlow
    obtain ⟨c, rfl⟩ := hq.multiple (hlow.trans h)
    rw [Nat.cast_le] at h ⊢
    calc nearestNat n ≤ roundShift (excess n) (c * 2 ^ excess n) * 2 ^ excess n :=
          Nat.mul_le_mul_right _ (roundShift_mono _ h)
      _ = c * 2 ^ excess n := by rw [roundShift_mul]

private theorem le_nearestNat (hq : Representable q) {n : ℕ} (h : q ≤ n) : q ≤ nearestNat n := by
  rcases eq_or_ne (excess n) 0 with hzero | hexcess
  · rwa [nearestNat_of_excess_eq_zero hzero]
  · rcases le_or_gt ((2 : ℚ) ^ 52 * 2 ^ excess n) q with hlarge | hsmall
    · obtain ⟨c, rfl⟩ := hq.multiple hlarge
      rw [Nat.cast_le] at h ⊢
      calc c * 2 ^ excess n = roundShift (excess n) (c * 2 ^ excess n) * 2 ^ excess n := by
            rw [roundShift_mul]
        _ ≤ nearestNat n := Nat.mul_le_mul_right _ (roundShift_mono _ h)
    · have hlow : 2 ^ 52 * 2 ^ excess n ≤ nearestNat n :=
        Nat.mul_le_mul_right _ (le_roundShift_excess hexcess)
      have hcast : ((2 ^ 52 * 2 ^ excess n : ℕ) : ℚ) ≤ nearestNat n := Nat.cast_le.mpr hlow
      push_cast at hcast
      linarith

/-- Rounding does not pass a float. -/
theorem nearest_le (hq : Representable |q|) {n : ℤ} (h : (n : ℚ) ≤ q) : (nearest n : ℚ) ≤ q := by
  obtain ⟨m, rfl | rfl⟩ := n.eq_nat_or_neg
  · rw [nearest_natCast]
    have hpos : 0 ≤ q := (Nat.cast_nonneg m).trans h
    rw [abs_of_nonneg hpos] at hq
    exact nearestNat_le hq h
  · rw [nearest_neg, nearest_natCast]
    push_cast at h ⊢
    rcases le_or_gt 0 q with hpos | hneg
    · have hnonneg : (0 : ℚ) ≤ nearestNat m := Nat.cast_nonneg _
      linarith
    · rw [abs_of_neg hneg] at hq
      linarith [le_nearestNat hq (n := m) (by linarith)]

theorem le_nearest (hq : Representable |q|) {n : ℤ} (h : q ≤ n) : q ≤ nearest n := by
  have hneg : ((nearest (-n) : ℤ) : ℚ) ≤ -q := by
    apply nearest_le (by rwa [abs_neg])
    push_cast
    linarith
  rw [nearest_neg] at hneg
  push_cast at hneg
  linarith

end Photon.Lib.Binary64
