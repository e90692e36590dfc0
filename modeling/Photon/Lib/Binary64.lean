import Mathlib
import Photon.Lib.NearestEven

/-!
The numbers that binary64 floats stand for, and what comparison, subtraction and the
conversion of integers do to them. Every float but NaN stands for a rational or for an
infinity. Comparison is the order of these numbers. A difference is rounded, but its sign is
that of the exact difference, since no nonzero difference of two floats rounds to zero. An
integer is rounded to 53 bits, which keeps the order and leaves the integers up to 2 ^ 53 as
they are.
-/

namespace Photon.Lib.Binary64

open Float.Model Float.Model.UnpackedFloat

/-! ### The numbers of unpacked floats -/

abbrev Extended := WithBot (WithTop ℚ)

def finiteNumber (q : ℚ) : Extended := ((q : WithTop ℚ) : WithBot (WithTop ℚ))

@[simp] theorem finiteNumber_lt_finiteNumber {p q : ℚ} :
    finiteNumber p < finiteNumber q ↔ p < q := by
  rw [finiteNumber, finiteNumber, WithBot.coe_lt_coe, WithTop.coe_lt_coe]

@[simp] theorem finiteNumber_inj {p q : ℚ} : finiteNumber p = finiteNumber q ↔ p = q := by
  rw [finiteNumber, finiteNumber, WithBot.coe_inj, WithTop.coe_inj]

@[simp] theorem finiteNumber_lt_top (q : ℚ) : finiteNumber q < ⊤ :=
  WithBot.coe_lt_coe.mpr (WithTop.coe_lt_top q)

@[simp] theorem bot_lt_finiteNumber (q : ℚ) : ⊥ < finiteNumber q := WithBot.bot_lt_coe _

@[simp] theorem finiteNumber_le_finiteNumber {p q : ℚ} :
    finiteNumber p ≤ finiteNumber q ↔ p ≤ q := by
  rw [← not_lt, finiteNumber_lt_finiteNumber, not_lt]

theorem extended_cases (p : Extended) : p = ⊥ ∨ p = ⊤ ∨ ∃ r, p = finiteNumber r := by
  induction p using WithBot.recBotCoe with
  | bot => exact Or.inl rfl
  | coe p =>
    induction p using WithTop.recTopCoe with
    | top => exact Or.inr (Or.inl rfl)
    | coe r => exact Or.inr (Or.inr ⟨r, rfl⟩)

def infinityNumber : Sign → Extended
  | .positive => ⊤
  | .negative => ⊥

def number : UnpackedFloat → Option Extended
  | .notANumber => none
  | .infinity s => some (infinityNumber s)
  | .zero _ => some (finiteNumber 0)
  | .finite s m e _ => some (finiteNumber ((s.apply m : ℤ) * 2 ^ e))

/-- Mantissas of 53 bits, shorter ones only at the least exponent. -/
structure Shaped (m : ℕ) (e : ℤ) : Prop where
  lt : m < 2 ^ 53
  exponent : -1074 ≤ e
  normal : 2 ^ 52 ≤ m ∨ e = -1074

/-- What unpacking gives: finite floats have the shape and are not too large. -/
def Canonical : UnpackedFloat → Prop
  | .finite _ m e _ => Shaped m e ∧ e ≤ 971
  | _ => True

theorem canonical_unpack (bits : BitVec Format.binary64.numBits) :
    Canonical (UnpackedFloat.unpack .binary64 bits) := by
  have hbias : (Format.binary64.exponentBias : ℤ) = 1023 := rfl
  have hmantissa : (unpackMantissa bits).toNat < 2 ^ 52 := (unpackMantissa bits).isLt
  have hexponent : (unpackExponent bits).toNat < 2 ^ 11 := (unpackExponent bits).isLt
  unfold UnpackedFloat.unpack
  dsimp only
  split_ifs with hfull _ hempty _
  · trivial
  · trivial
  · trivial
  · -- subnormal numbers
    have hzero : (unpackExponent bits).toNat = 0 := by rw [hempty]; rfl
    refine ⟨⟨by omega, ?_, Or.inr ?_⟩, ?_⟩ <;> rw [hzero, hbias] <;> norm_num
  · have hlow : (unpackExponent bits).toNat ≠ 0 := by
      intro heq
      exact hempty (BitVec.eq_of_toNat_eq heq)
    have hhigh : (unpackExponent bits).toNat ≠ 2 ^ 11 - 1 := by
      intro heq
      exact hfull (BitVec.eq_of_toNat_eq heq)
    have hone : (1#1 ++ unpackMantissa bits).toNat = 2 ^ 52 + (unpackMantissa bits).toNat := by
      rw [BitVec.toNat_append, ← Nat.shiftLeft_add_eq_or_of_lt hmantissa]
      rfl
    refine ⟨⟨?_, ?_, Or.inl ?_⟩, ?_⟩ <;> simp only [hone, hbias] <;> omega

def repack (u : UnpackedFloat) : UnpackedFloat := (Float.Model.pack u).unpack

variable (x y : Float) (s : Sign) {m : ℕ} {e : ℤ}

private theorem sign_packComponents (exponent : BitVec 11) (mantissa : BitVec 52) :
    Sign.ofBitVec (unpackSign (packComponents .binary64 s exponent mantissa)) = s := by
  have hbit : unpackSign (packComponents .binary64 s exponent mantissa) = s.toBitVec := by
    apply BitVec.eq_of_getLsbD_eq
    intro i hi
    obtain rfl : i = 0 := by omega
    simp only [unpackSign, packComponents, BitVec.extractLsb, BitVec.getLsbD_cast,
      BitVec.getLsbD_extractLsb']
    rw [BitVec.getLsbD_append, BitVec.getLsbD_append]
    simp
  rw [hbit]
  cases s <;> rfl

private theorem mantissa_pos {mantissa : BitVec 52} (h : mantissa ≠ 0#52) : 0 < mantissa.toNat := by
  rw [Nat.pos_iff_ne_zero]
  intro hzero
  exact h (BitVec.eq_of_toNat_eq hzero)

private theorem leading_pos (mantissa : BitVec 52) : 0 < 2 ^ 52 + mantissa.toNat :=
  Nat.add_pos_left (by decide) _

private theorem unpack_packComponents (exponent : BitVec 11) (mantissa : BitVec 52) :
    UnpackedFloat.unpack .binary64 (packComponents .binary64 s exponent mantissa) =
      if exponent = -1#11 then if mantissa = 0#52 then .infinity s else .notANumber
      else if exponent = 0#11 then
        if h : mantissa = 0#52 then .zero s
        else .finite s mantissa.toNat (exponent.toNat - 1074) (mantissa_pos h)
      else .finite s (2 ^ 52 + mantissa.toNat) (exponent.toNat - 1075) (leading_pos mantissa) := by
  have hbias : (Format.binary64.exponentBias : ℤ) = 1023 := rfl
  have hone : (1#1 ++ mantissa).toNat = 2 ^ 52 + mantissa.toNat := by
    rw [BitVec.toNat_append, ← Nat.shiftLeft_add_eq_or_of_lt mantissa.isLt]
    rfl
  unfold UnpackedFloat.unpack
  simp only [unpackMantissa_packComponents, unpackExponent_packComponents, sign_packComponents,
    hone, hbias]
  split_ifs <;> simp
  all_goals omega

private theorem repack_zero : repack (.zero s) = .zero s := by cases s <;> rfl

private theorem repack_infinity : repack (.infinity s) = .infinity s := by
  cases s <;> rfl

private theorem repack_notANumber : repack .notANumber = .notANumber := by rfl

/-- Finite values come back as they are, or as the infinity of their sign. -/
theorem repack_finite (hpos : 0 < m) (h : Shaped m e) :
    repack (.finite s m e hpos) = if e ≤ 971 then .finite s m e hpos else .infinity s := by
  obtain ⟨hlt, hexponent, hnormal⟩ := h
  have hbiased : (e + Format.binary64.exponentBias + 52).toNat = (e + 1075).toNat := by
    rw [show (Format.binary64.exponentBias : ℤ) = 1023 from rfl]
    omega
  change UnpackedFloat.unpack .binary64 (UnpackedFloat.pack .binary64 (.finite s m e hpos)) = _
  simp only [UnpackedFloat.pack, Nat.cast_ofNat, hbiased, Format.mantissaBits]
  split_ifs with hlarge hle hlog hle hle
  · omega
  · rw [packedInfinity, unpack_packComponents]
    rfl
  · -- normal numbers keep the exponent and lose the leading bit
    have hlow : 2 ^ 52 ≤ m := by
      rw [← show m.log2 = 52 by omega]
      exact Nat.log2_self_le hpos.ne'
    have hexponentNat : (BitVec.ofNat 11 (e + 1075).toNat).toNat = (e + 1075).toNat := by
      rw [BitVec.toNat_ofNat, Nat.mod_eq_of_lt (by omega)]
    have hmantissaNat : (BitVec.ofNat 52 m).toNat = m - 2 ^ 52 := by
      rw [BitVec.toNat_ofNat]
      omega
    have hfull : BitVec.ofNat 11 (e + 1075).toNat ≠ -1#11 := by
      intro heq
      have hnat := congrArg BitVec.toNat heq
      rw [hexponentNat] at hnat
      change _ = 2047 at hnat
      omega
    have hempty : BitVec.ofNat 11 (e + 1075).toNat ≠ 0#11 := by
      intro heq
      have hnat := congrArg BitVec.toNat heq
      rw [hexponentNat] at hnat
      change _ = 0 at hnat
      omega
    rw [unpack_packComponents, if_neg hfull, if_neg hempty]
    simp only [hexponentNat, hmantissaNat, UnpackedFloat.finite.injEq, true_and]
    omega
  · omega
  · have hsmall : m < 2 ^ 52 := by
      by_contra hge
      have hlow : 52 ≤ m.log2 := (Nat.le_log2 hpos.ne').mpr (not_lt.mp hge)
      have hhigh : m.log2 < 53 := (Nat.log2_lt hpos.ne').mpr hlt
      omega
    have hmantissaNat : (BitVec.ofNat 52 m).toNat = m := by
      rw [BitVec.toNat_ofNat, Nat.mod_eq_of_lt hsmall]
    have hnonzero : BitVec.ofNat 52 m ≠ 0#52 := by
      intro heq
      have hnat := congrArg BitVec.toNat heq
      rw [hmantissaNat] at hnat
      change _ = 0 at hnat
      omega
    rw [unpack_packComponents, if_neg (by decide), if_pos rfl, dif_neg hnonzero]
    simp
    omega
  · omega

/-! ### Comparison -/

private theorem Shaped.lt_of_exponent_lt {m₁ m₂ : ℕ} {e₁ e₂ : ℤ} (h₁ : Shaped m₁ e₁)
    (h₂ : Shaped m₂ e₂) (h : e₁ < e₂) :
    (m₁ : ℚ) * 2 ^ e₁ < m₂ * 2 ^ e₂ := by
  have hlow : 2 ^ 52 ≤ m₂ := by
    rcases h₂.normal with hlow | hleast
    · exact hlow
    · have := h₁.exponent
      omega
  have hpow : (2 : ℚ) ^ (e₁ + 1) ≤ 2 ^ e₂ := zpow_le_zpow_right₀ one_le_two (by omega)
  have hm₁ : (m₁ : ℚ) < 2 ^ 53 := by exact_mod_cast h₁.lt
  have hm₂ : (2 : ℚ) ^ 52 ≤ m₂ := by exact_mod_cast hlow
  calc (m₁ : ℚ) * 2 ^ e₁ < 2 ^ 53 * 2 ^ e₁ := mul_lt_mul_of_pos_right hm₁ (by positivity)
    _ = 2 ^ 52 * 2 ^ (e₁ + 1) := by rw [zpow_add_one₀ two_ne_zero]; ring
    _ ≤ m₂ * 2 ^ e₂ := mul_le_mul hm₂ hpow (by positivity) (by positivity)

private theorem compare_magnitudes {m₁ m₂ : ℕ} {e₁ e₂ : ℤ} (h₁ : Shaped m₁ e₁) (h₂ : Shaped m₂ e₂) :
    (compare e₁ e₂).then (compare m₁ m₂) = cmp ((m₁ : ℚ) * 2 ^ e₁) (m₂ * 2 ^ e₂) := by
  rcases lt_trichotomy e₁ e₂ with hlt | rfl | hgt
  · rw [compare_lt_iff_lt.mpr hlt, Ordering.lt_then]
    exact ((cmp_eq_lt_iff _ _).mpr (h₁.lt_of_exponent_lt h₂ hlt)).symm
  · have hmono : StrictMono fun m : ℕ => (m : ℚ) * 2 ^ e₁ := by
      intro m m' hm
      exact mul_lt_mul_of_pos_right (Nat.cast_lt.mpr hm) (by positivity)
    rw [compare_eq_iff_eq.mpr rfl, Ordering.eq_then, hmono.cmp_map_eq, cmp_eq_compare]
  · rw [compare_gt_iff_gt.mpr hgt, Ordering.gt_then]
    exact ((cmp_eq_gt_iff _ _).mpr (h₂.lt_of_exponent_lt h₁ hgt)).symm

theorem cmp_finiteNumber (p q : ℚ) : cmp (finiteNumber p) (finiteNumber q) = cmp p q := by
  have hmono : StrictMono finiteNumber := fun _ _ h => finiteNumber_lt_finiteNumber.mpr h
  exact hmono.cmp_map_eq p q

private theorem bot_lt_top_extended : (⊥ : Extended) < ⊤ :=
  (bot_lt_finiteNumber 0).trans (finiteNumber_lt_top 0)

private theorem compare_signs (s s' : Sign) :
    compare s s' = cmp (infinityNumber s) (infinityNumber s') := by
  cases s <;> cases s'
  · exact (cmp_self_eq_eq (⊥ : Extended)).symm
  · exact ((cmp_eq_lt_iff _ _).mpr bot_lt_top_extended).symm
  · exact ((cmp_eq_gt_iff _ _).mpr bot_lt_top_extended).symm
  · exact (cmp_self_eq_eq (⊤ : Extended)).symm

/-- How a number of this sign stands to zero. -/
private def order : Sign → Ordering
  | .negative => .lt
  | .positive => .gt

private theorem cmp_infinity_finite (q : ℚ) :
    cmp (infinityNumber s) (finiteNumber q) = order s := by
  cases s
  · exact (cmp_eq_lt_iff _ _).mpr (bot_lt_finiteNumber q)
  · exact (cmp_eq_gt_iff _ _).mpr (finiteNumber_lt_top q)

private theorem cmp_finite_infinity (q : ℚ) :
    cmp (finiteNumber q) (infinityNumber s) = (order s).swap := by
  rw [← cmp_swap, cmp_infinity_finite]

private theorem cmp_finite_zero (hpos : 0 < m) (e : ℤ) :
    cmp (finiteNumber ((s.apply m : ℤ) * 2 ^ e)) (finiteNumber 0) = order s := by
  have hmagnitude : (0 : ℚ) < m * 2 ^ e := by positivity
  cases s
  · refine (cmp_eq_lt_iff _ _).mpr (finiteNumber_lt_finiteNumber.mpr ?_)
    simpa [Sign.apply] using hmagnitude
  · refine (cmp_eq_gt_iff _ _).mpr (finiteNumber_lt_finiteNumber.mpr ?_)
    simpa [Sign.apply] using hmagnitude

private theorem cmp_zero_finite (hpos : 0 < m) (e : ℤ) :
    cmp (finiteNumber 0) (finiteNumber ((s.apply m : ℤ) * 2 ^ e)) = (order s).swap := by
  rw [← cmp_swap, cmp_finite_zero s hpos]

/-- Floats compare as their numbers. -/
theorem compare_eq {a b : UnpackedFloat} (ha : Canonical a) (hb : Canonical b) :
    a.compare b = match number a, number b with
      | some x, some y => some (cmp x y)
      | _, _ => none := by
  -- with opposite signs, or with an infinity, the signs decide
  cases a with
  | notANumber => rfl
  | infinity s =>
    cases b with
    | notANumber => cases s <;> rfl
    | infinity s' => exact congrArg some (compare_signs s s')
    | zero | finite => cases s <;> simp [UnpackedFloat.compare, number, order, cmp_infinity_finite]
  | zero s =>
    cases b with
    | notANumber => rfl
    | infinity s' => cases s' <;> simp [UnpackedFloat.compare, number, order, cmp_finite_infinity]
    | zero s' => exact congrArg some (cmp_self_eq_eq _).symm
    | finite s' m e hpos =>
      cases s' <;> simp [UnpackedFloat.compare, number, order, cmp_zero_finite, hpos]
  | finite s m e hpos =>
    cases b with
    | notANumber => rfl
    | infinity s' => cases s' <;> simp [UnpackedFloat.compare, number, order, cmp_finite_infinity]
    | zero s' => cases s <;> simp [UnpackedFloat.compare, number, order, cmp_finite_zero, hpos]
    | finite s' m' e' hpos' =>
      have hmagnitudes := compare_magnitudes ha.1 hb.1
      have hnegative {m : ℕ} (hpos : 0 < m) (e : ℤ) :=
        (cmp_eq_lt_iff _ _).mp (cmp_finite_zero .negative hpos e)
      have hpositive {m : ℕ} (hpos : 0 < m) (e : ℤ) :=
        (cmp_eq_gt_iff _ _).mp (cmp_finite_zero .positive hpos e)
      cases s <;> cases s'
      · have hanti : StrictAnti fun q : ℚ => -q := fun _ _ h => neg_lt_neg h
        calc some ((compare e e').then (compare m m')).swap
            = some (cmp ((m' : ℚ) * 2 ^ e') (m * 2 ^ e)) := by rw [hmagnitudes, cmp_swap]
          _ = some (cmp (-((m : ℚ) * 2 ^ e)) (-(m' * 2 ^ e'))) := by rw [hanti.cmp_map_eq]
          _ = _ := by rw [← cmp_finiteNumber]; simp [number, Sign.apply]
      · exact congrArg some
          ((cmp_eq_lt_iff _ _).mpr ((hnegative hpos e).trans (hpositive hpos' e'))).symm
      · exact congrArg some
          ((cmp_eq_gt_iff _ _).mpr ((hnegative hpos' e').trans (hpositive hpos e))).symm
      · calc some ((compare e e').then (compare m m'))
            = some (cmp ((m : ℚ) * 2 ^ e) (m' * 2 ^ e')) := by rw [hmagnitudes]
          _ = _ := by rw [← cmp_finiteNumber]; simp [number, Sign.apply]

/-! ### Rounding -/

private theorem targetExponent_eq (m : ℕ) (e : ℤ) :
    Format.binary64.targetExponent (totalExponent m e) = max (m.log2 + e - 52) (-1074) := by
  change max ((m.log2 : ℤ) + 1 + e - 53) (-1074) = _
  congr 1
  ring

private theorem shiftToTargetExponent_of_shaped (hpos : 0 < m) (h : Shaped m e) :
    shiftToTargetExponent .binary64 m e .exact = (⟨m, false, false⟩, e) := by
  have hlog : m.log2 < 53 := (Nat.log2_lt hpos.ne').mpr h.lt
  have hstay : (max ((m.log2 : ℤ) + e - 52) (-1074) - e).toNat = 0 := by
    have := h.exponent
    omega
  simp only [shiftToTargetExponent, shiftToExponent, targetExponent_eq, hstay]
  simp [HShiftRight.hShiftRight, Nat.repeat, ExtendedMantissa.ofMantissaAndAccuracy]

private theorem roundWithAccuracy_of_shaped (hpos : 0 < m) (h : Shaped m e) :
    roundWithAccuracy .binary64 s m e .exact = .finite s m e hpos := by
  have hround : (ExtendedMantissa.mk m false false).roundedMantissa = m := rfl
  simp only [roundWithAccuracy, shiftToTargetExponent_of_shaped hpos h, hround]
  rw [dif_neg hpos.ne']

/-- A mantissa of up to 53 bits is moved to its place without rounding. -/
private theorem round_of_excess_eq_zero (hpos : 0 < m) (he : -1074 ≤ e) (hzero : excess m = 0) :
    ∃ (m' : ℕ) (e' : ℤ) (hpos' : 0 < m'), UnpackedFloat.round .binary64 s m e =
      .finite s m' e' hpos' ∧ Shaped m' e' ∧ (m' : ℚ) * 2 ^ e' = m * 2 ^ e := by
  have hlog : m.log2 ≤ 52 := by simp only [excess] at hzero; omega
  obtain ⟨d, hd⟩ : ∃ d : ℕ, (e - max ((m.log2 : ℤ) + e - 52) (-1074)).toNat = d := ⟨_, rfl⟩
  have hshift : m * 2 ^ d ≠ 0 := by positivity
  have hlogShift : (m * 2 ^ d).log2 = m.log2 + d := by
    rw [Nat.log2_eq_iff hshift, add_right_comm, pow_add, pow_add _ _ d]
    have hlow := Nat.log2_self_le hpos.ne'
    have hhigh : m < 2 ^ (m.log2 + 1) := Nat.lt_log2_self
    exact ⟨Nat.mul_le_mul_right _ hlow, Nat.mul_lt_mul_of_pos_right hhigh (by positivity)⟩
  have hshaped : Shaped (m * 2 ^ d) (e - d) := by
    refine ⟨(Nat.log2_lt hshift).mp (by omega), by omega, ?_⟩
    rcases le_or_gt (-1074) ((m.log2 : ℤ) + e - 52) with hnormal | hsub
    · exact Or.inl ((Nat.le_log2 hshift).mp (by omega))
    · exact Or.inr (by omega)
  refine ⟨m * 2 ^ d, e - d, Nat.pos_of_ne_zero hshift, ?_, hshaped, ?_⟩
  · simp only [UnpackedFloat.round, decreaseExponent, targetExponent_eq, hd, Nat.shiftLeft_eq]
    exact roundWithAccuracy_of_shaped s (Nat.pos_of_ne_zero hshift) hshaped
  · rw [zpow_sub₀ two_ne_zero, zpow_natCast]
    push_cast
    field_simp

private theorem shiftToTargetExponent_carry (he : -1074 ≤ e) :
    shiftToTargetExponent .binary64 (2 ^ 53) e .exact = (⟨2 ^ 52, false, false⟩, e + 1) := by
  have hone : (max (((2 ^ 53 : ℕ).log2 : ℤ) + e - 52) (-1074) - e).toNat = 1 := by
    rw [Nat.log2_two_pow]
    omega
  simp only [shiftToTargetExponent, shiftToExponent, targetExponent_eq, hone]
  rfl

/-- A longer mantissa loses bits, and one more if it was rounded up to the next power of
two. -/
private theorem round_of_excess_ne_zero (he : -1074 ≤ e) (hexcess : excess m ≠ 0) :
    ∃ (m' : ℕ) (e' : ℤ) (hpos' : 0 < m'), UnpackedFloat.round .binary64 s m e =
      .finite s m' e' hpos' ∧ Shaped m' e' ∧ (m' : ℚ) * 2 ^ e' = nearestNat m * 2 ^ e := by
  have hlog : m.log2 = 52 + excess m := by simp only [excess] at hexcess ⊢; omega
  have hleft : (e - max ((m.log2 : ℤ) + e - 52) (-1074)).toNat = 0 := by omega
  have hright : (max ((m.log2 : ℤ) + e - 52) (-1074) - e).toNat = excess m := by omega
  have hfirst : shiftToTargetExponent .binary64 m e .exact =
      (ExtendedMantissa.mk m false false >>> excess m, e + excess m) := by
    simp only [shiftToTargetExponent, shiftToExponent, targetExponent_eq, hright]
    rfl
  have hround : UnpackedFloat.round .binary64 s m e =
      roundWithAccuracy .binary64 s m e .exact := by
    simp [UnpackedFloat.round, decreaseExponent, targetExponent_eq, hleft]
  have hvalue : (nearestNat m : ℚ) * 2 ^ e = roundShift (excess m) m * 2 ^ (e + excess m) := by
    rw [nearestNat, zpow_add₀ two_ne_zero, zpow_natCast]
    push_cast
    ring
  have hkept : (ExtendedMantissa.mk m false false >>> excess m).roundedMantissa =
      roundShift (excess m) m := rfl
  rw [hround, hvalue]
  have hlow := le_roundShift_excess hexcess
  rcases (roundShift_excess_le m).lt_or_eq with hlt | hcarry
  · have hpos : 0 < roundShift (excess m) m := by omega
    have hshaped : Shaped (roundShift (excess m) m) (e + excess m) :=
      ⟨hlt, by omega, Or.inl hlow⟩
    refine ⟨_, _, hpos, ?_, hshaped, rfl⟩
    simp only [roundWithAccuracy, hfirst, hkept, shiftToTargetExponent_of_shaped hpos hshaped]
    rw [dif_neg hpos.ne']
  · refine ⟨2 ^ 52, e + excess m + 1, by norm_num, ?_, ⟨by norm_num, by omega, Or.inl le_rfl⟩, ?_⟩
    · have hcarryExponent : -1074 ≤ e + excess m := by omega
      simp only [roundWithAccuracy, hfirst, hkept, hcarry,
        shiftToTargetExponent_carry hcarryExponent]
      rfl
    · rw [hcarry, zpow_add_one₀ two_ne_zero]
      ring

/-- Above the least exponent only the mantissa is rounded. -/
theorem round_eq (hpos : 0 < m) (he : -1074 ≤ e) :
    ∃ (m' : ℕ) (e' : ℤ) (hpos' : 0 < m'), UnpackedFloat.round .binary64 s m e =
      .finite s m' e' hpos' ∧ Shaped m' e' ∧ (m' : ℚ) * 2 ^ e' = nearestNat m * 2 ^ e := by
  rcases eq_or_ne (excess m) 0 with hzero | hexcess
  · rw [nearestNat_of_excess_eq_zero hzero]
    exact round_of_excess_eq_zero s hpos he hzero
  · exact round_of_excess_ne_zero s he hexcess

/-- A value that is packed keeps its sign, also where it becomes infinite. -/
private theorem number_repack (hpos : 0 < m) (h : Shaped m e) :
    ∃ d, number (repack (.finite s m e hpos)) = some d ∧ cmp d (finiteNumber 0) = order s := by
  rw [repack_finite s hpos h]
  split_ifs
  · exact ⟨_, rfl, cmp_finite_zero s hpos e⟩
  · exact ⟨_, rfl, cmp_infinity_finite s 0⟩

private theorem number_normalize {z e : ℤ} (he : -1074 ≤ e) :
    ∃ d, number (repack (UnpackedFloat.normalize .binary64 z e .positive)) = some d ∧
      cmp d (finiteNumber 0) = cmp z 0 := by
  rcases lt_trichotomy z 0 with hneg | rfl | hpos
  · have hmagnitude : 0 < (-z).toNat := by omega
    obtain ⟨m, e', hm, hround, hshaped, -⟩ := round_eq .negative hmagnitude he
    obtain ⟨d, hd, hsign⟩ := number_repack .negative hm hshaped
    refine ⟨d, ?_, hsign.trans ((cmp_eq_lt_iff _ _).mpr hneg).symm⟩
    rw [UnpackedFloat.normalize, compare_lt_iff_lt.mpr hneg]
    simp [hround, hd]
  · refine ⟨finiteNumber 0, ?_, by rw [cmp_self_eq_eq, cmp_self_eq_eq]⟩
    rw [UnpackedFloat.normalize, compare_eq_iff_eq.mpr rfl, repack_zero]
    rfl
  · have hmagnitude : 0 < z.toNat := by omega
    obtain ⟨m, e', hm, hround, hshaped, -⟩ := round_eq .positive hmagnitude he
    obtain ⟨d, hd, hsign⟩ := number_repack .positive hm hshaped
    refine ⟨d, ?_, hsign.trans ((cmp_eq_gt_iff _ _).mpr hpos).symm⟩
    rw [UnpackedFloat.normalize, compare_gt_iff_gt.mpr hpos]
    simp [hround, hd]

/-! ### Differences -/

/-- Moving to a smaller exponent changes nothing. -/
private theorem apply_shiftLeft (m : ℕ) {e t : ℤ} (h : t ≤ e) :
    ((s.apply ((m <<< (e - t).toNat : ℕ) : ℤ) : ℤ) : ℚ) * 2 ^ t = (s.apply m : ℤ) * 2 ^ e := by
  have hsplit : e = t + (e - t).toNat := by omega
  conv_rhs => rw [hsplit, zpow_add₀ two_ne_zero, zpow_natCast]
  rw [Nat.shiftLeft_eq]
  cases s <;> simp only [Sign.apply] <;> push_cast <;> ring

/-- Finite floats are brought to the smaller exponent and subtracted there. -/
private theorem number_sub_finite (s s' : Sign) {m m' : ℕ} {e e' : ℤ} (hpos : 0 < m)
    (hpos' : 0 < m') (he : -1074 ≤ e) (he' : -1074 ≤ e') :
    ∃ d, number (repack (UnpackedFloat.sub .binary64 (.finite s m e hpos)
        (.finite s' m' e' hpos'))) = some d ∧
      cmp d (finiteNumber 0) =
        cmp ((s.apply m : ℤ) * 2 ^ e : ℚ) ((s'.apply m' : ℤ) * 2 ^ e') := by
  obtain ⟨d, hd, hsign⟩ := number_normalize
    (z := s.apply ((m <<< (e - min e e').toNat : ℕ) : ℤ) -
      s'.apply ((m' <<< (e' - min e e').toNat : ℕ) : ℤ)) (e := min e e') (le_min he he')
  have hscale : (0 : ℚ) < 2 ^ min e e' := by positivity
  refine ⟨d, hd, ?_⟩
  rw [hsign, ← apply_shiftLeft s m (min_le_left e e'), ← apply_shiftLeft s' m' (min_le_right e e'),
    cmp_mul_pos_right hscale, cmp_sub_zero]
  exact (Int.cast_strictMono.cmp_map_eq _ _).symm

/-- A difference has the sign of the exact one. It is no number if one of the floats is none,
or if both are the same infinity. -/
theorem number_sub {a b : UnpackedFloat} (ha : Canonical a) (hb : Canonical b) :
    (∃ x y d, number a = some x ∧ number b = some y ∧
      number (repack (UnpackedFloat.sub .binary64 a b)) = some d ∧
      cmp d (finiteNumber 0) = cmp x y) ∨
    number (repack (UnpackedFloat.sub .binary64 a b)) = none ∧
      (number a = none ∨ number b = none ∨ ∃ s, a = .infinity s ∧ b = .infinity s) := by
  have hnan : number (repack .notANumber) = none := by rw [repack_notANumber]; rfl
  have hzero : ∀ s, number (repack (.zero s)) = some (finiteNumber 0) := by
    intro s
    rw [repack_zero]
    rfl
  have hinfinite : ∀ s, number (repack (.infinity s)) = some (infinityNumber s) := by
    intro s
    rw [repack_infinity]
    rfl
  have horder : ∀ s : Sign, order (-s) = (order s).swap := by
    intro s
    cases s <;> rfl
  have hright : ∀ (s : Sign) (q : ℚ), cmp (infinityNumber (-s)) (finiteNumber 0) =
      cmp (finiteNumber q) (infinityNumber s) := by
    intro s q
    rw [cmp_infinity_finite, cmp_finite_infinity, horder]
  cases a with
  | notANumber =>
    refine Or.inr ⟨?_, Or.inl rfl⟩
    cases b <;> exact hnan
  | infinity s =>
    cases b with
    | notANumber => exact Or.inr ⟨by cases s <;> exact hnan, Or.inr (Or.inl rfl)⟩
    | infinity s' =>
      cases s <;> cases s'
      · exact Or.inr ⟨hnan, Or.inr (Or.inr ⟨_, rfl, rfl⟩)⟩
      · exact Or.inl ⟨_, _, _, rfl, rfl, hinfinite .negative,
          (cmp_infinity_finite _ 0).trans (compare_signs .negative .positive)⟩
      · exact Or.inl ⟨_, _, _, rfl, rfl, hinfinite .positive,
          (cmp_infinity_finite _ 0).trans (compare_signs .positive .negative)⟩
      · exact Or.inr ⟨hnan, Or.inr (Or.inr ⟨_, rfl, rfl⟩)⟩
    | zero | finite =>
      exact Or.inl ⟨_, _, _, rfl, rfl, hinfinite s,
        (cmp_infinity_finite s 0).trans (cmp_infinity_finite s _).symm⟩
  | zero s =>
    cases b with
    | notANumber => exact Or.inr ⟨hnan, Or.inr (Or.inl rfl)⟩
    | infinity s' => exact Or.inl ⟨_, _, _, rfl, rfl, hinfinite (-s'), hright s' _⟩
    | zero s' =>
      refine Or.inl ⟨_, _, finiteNumber 0, rfl, rfl, ?_, rfl⟩
      cases s <;> cases s' <;> exact hzero _
    | finite s' m e hpos =>
      obtain ⟨d, hd, hsign⟩ := number_repack (-s') hpos hb.1
      refine Or.inl ⟨_, _, d, rfl, rfl, hd, hsign.trans ?_⟩
      rw [cmp_zero_finite s' hpos, horder]
  | finite s m e hpos =>
    cases b with
    | notANumber => exact Or.inr ⟨hnan, Or.inr (Or.inl rfl)⟩
    | infinity s' => exact Or.inl ⟨_, _, _, rfl, rfl, hinfinite (-s'), hright s' _⟩
    | zero s' =>
      refine Or.inl ⟨_, _, _, rfl, rfl, ?_, rfl⟩
      change number (repack (.finite s m e hpos)) = _
      rw [repack_finite s hpos ha.1, if_pos ha.2]
      rfl
    | finite s' m' e' hpos' =>
      obtain ⟨d, hd, hsign⟩ := number_sub_finite s s' hpos hpos' ha.1.exponent hb.1.exponent
      exact Or.inl ⟨_, _, d, rfl, rfl, hd, by rw [hsign, cmp_finiteNumber]⟩

/-! ### Floats -/

def toNumber (x : Float) : Option Extended := number x.toModel.unpack

private theorem canonical (x : Float) : Canonical x.toModel.unpack := canonical_unpack _

private theorem toNumber_zero : toNumber 0 = some (finiteNumber 0) := rfl

private theorem compare_toModel :
    x.toModel.unpack.compare y.toModel.unpack = match toNumber x, toNumber y with
      | some p, some q => some (cmp p q)
      | _, _ => none :=
  compare_eq (canonical x) (canonical y)

theorem lt_iff : x < y ↔ ∃ p q, toNumber x = some p ∧ toNumber y = some q ∧ p < q := by
  have hlt : x < y ↔ x.toModel.unpack.compare y.toModel.unpack = some .lt := by
    change decide (x.toModel < y.toModel) = true ↔ _
    rw [decide_eq_true_iff]
    change x.toModel.unpack.lt y.toModel.unpack = true ↔ _
    simp [UnpackedFloat.lt]
  rw [hlt, compare_toModel]
  cases toNumber x <;> cases toNumber y <;> simp [cmp_eq_lt_iff]

theorem le_iff : x ≤ y ↔ ∃ p q, toNumber x = some p ∧ toNumber y = some q ∧ p ≤ q := by
  have hle : x ≤ y ↔ (x.toModel.unpack.compare y.toModel.unpack).any Ordering.isLE = true := by
    change decide (x.toModel ≤ y.toModel) = true ↔ _
    rw [decide_eq_true_iff]
    rfl
  rw [hle, compare_toModel]
  cases toNumber x with
  | none => simp
  | some p =>
    cases toNumber y with
    | none => simp
    | some q =>
      have hcmp : (cmp p q).isLE = true ↔ p ≤ q := by
        rw [← not_lt, ← cmp_eq_gt_iff]
        cases cmp p q <;> simp
      simpa using hcmp

theorem beq_iff : (x == y) = true ↔ ∃ p, toNumber x = some p ∧ toNumber y = some p := by
  have hbeq : (x == y) = true ↔ x.toModel.unpack.compare y.toModel.unpack = some .eq := by
    change x.toModel.unpack.beq y.toModel.unpack = true ↔ _
    simp [UnpackedFloat.beq]
  rw [hbeq, compare_toModel]
  cases toNumber x with
  | none => simp
  | some p =>
    cases toNumber y with
    | none => simp
    | some q =>
      rw [Option.some.injEq, cmp_eq_eq_iff]
      simp [eq_comm]

theorem zero_le_zero : (0 : Float) ≤ 0 := by
  rw [le_iff, toNumber_zero]
  exact ⟨_, _, rfl, rfl, le_rfl⟩

theorem not_zero_lt_zero : ¬ (0 : Float) < 0 := by
  rw [lt_iff, toNumber_zero]
  rintro ⟨p, q, hp, hq, hlt⟩
  cases hp.symm.trans hq
  exact lt_irrefl _ hlt

def ofInt (n : ℤ) : Float := Float.ofModel (Float.Model.ofInt n)

private theorem number_ofInt_magnitude (hpos : 0 < m) (h : m ≤ 2 ^ 64) :
    number (repack (UnpackedFloat.round .binary64 s m 0)) =
      some (finiteNumber (s.apply (nearestNat m) : ℤ)) := by
  obtain ⟨m', e', hpos', hround, hshaped, hvalue⟩ := round_eq s hpos (show (-1074 : ℤ) ≤ 0 by omega)
  rw [zpow_zero, mul_one] at hvalue
  have hlarge : nearestNat m ≤ 2 ^ 64 := by
    calc nearestNat m ≤ nearestNat (2 ^ 64) := nearestNat_mono h
      _ = 2 ^ 64 := by decide +kernel
  have hexponent : e' ≤ 971 := by
    by_contra hgt
    push Not at hgt
    have hpow : (2 : ℚ) ^ (64 : ℤ) < 2 ^ e' := zpow_lt_zpow_right₀ one_lt_two (by omega)
    have hone : (1 : ℚ) ≤ m' := by exact_mod_cast hpos'
    have hcast : (nearestNat m : ℚ) ≤ 2 ^ (64 : ℤ) := by exact_mod_cast hlarge
    have hmul : (2 : ℚ) ^ e' ≤ m' * 2 ^ e' := le_mul_of_one_le_left (by positivity) hone
    linarith
  rw [hround, repack_finite s hpos' hshaped, if_pos hexponent]
  cases s <;> simp [number, Sign.apply, hvalue]

theorem toNumber_ofInt {n : ℤ} (h : n.natAbs ≤ 2 ^ 64) :
    toNumber (ofInt n) = some (finiteNumber (nearest n)) := by
  change number (repack (UnpackedFloat.normalize .binary64 n 0 .positive)) = _
  rcases lt_trichotomy n 0 with hneg | rfl | hpos
  · rw [UnpackedFloat.normalize, compare_lt_iff_lt.mpr hneg]
    have hmagnitude : (-n).toNat = n.natAbs := by omega
    simp only [hmagnitude]
    rw [number_ofInt_magnitude .negative (by omega) h, nearest, Int.sign_eq_neg_one_of_neg hneg]
    simp [Sign.apply]
  · rw [UnpackedFloat.normalize, compare_eq_iff_eq.mpr rfl, repack_zero]
    rfl
  · rw [UnpackedFloat.normalize, compare_gt_iff_gt.mpr hpos]
    have hmagnitude : n.toNat = n.natAbs := by omega
    simp only [hmagnitude]
    rw [number_ofInt_magnitude .positive (by omega) h, nearest, Int.sign_eq_one_of_pos hpos]
    simp [Sign.apply]

theorem representable_of_toNumber {x : Float} {q : ℚ} (h : toNumber x = some (finiteNumber q)) :
    Representable |q| := by
  have hshape := canonical x
  rw [toNumber] at h
  cases hx : x.toModel.unpack with
  | notANumber => rw [hx] at h; cases h
  | infinity s =>
    rw [hx] at h
    cases s
    · exact absurd (Option.some.inj h) (bot_lt_finiteNumber q).ne
    · exact absurd (Option.some.inj h) (finiteNumber_lt_top q).ne'
  | zero s =>
    rw [hx] at h
    have hzero : 0 = q := finiteNumber_inj.mp (Option.some.inj h)
    exact ⟨0, 0, by norm_num, by rw [← hzero]; simp⟩
  | finite s m e hpos =>
    rw [hx] at h hshape
    have hvalue : ((s.apply m : ℤ) : ℚ) * 2 ^ e = q := finiteNumber_inj.mp (Option.some.inj h)
    refine ⟨m, e, hshape.1.lt, ?_⟩
    rw [← hvalue, abs_mul, abs_of_pos (show (0 : ℚ) < 2 ^ e by positivity)]
    cases s <;> simp [Sign.apply]

/-- Rounding an integer does not pass a float. -/
theorem nearest_le_toNumber {y : Float} {q : Extended} (hy : toNumber y = some q) {n : ℤ}
    (h : finiteNumber n ≤ q) :
    finiteNumber (nearest n) ≤ q := by
  rcases extended_cases q with rfl | rfl | ⟨r, rfl⟩
  · exact absurd h (not_le.mpr (bot_lt_finiteNumber _))
  · exact le_top
  · rw [finiteNumber_le_finiteNumber] at h ⊢
    exact nearest_le (representable_of_toNumber hy) h

theorem toNumber_le_nearest {x : Float} {p : Extended} (hx : toNumber x = some p) {n : ℤ}
    (h : p ≤ finiteNumber n) :
    p ≤ finiteNumber (nearest n) := by
  rcases extended_cases p with rfl | rfl | ⟨r, rfl⟩
  · exact bot_le
  · exact absurd h (not_le.mpr (finiteNumber_lt_top _))
  · rw [finiteNumber_le_finiteNumber] at h ⊢
    exact le_nearest (representable_of_toNumber hx) h

private theorem toNumber_sub :
    (∃ p q d, toNumber x = some p ∧ toNumber y = some q ∧ toNumber (x - y) = some d ∧
      cmp d (finiteNumber 0) = cmp p q) ∨
    toNumber (x - y) = none ∧ (toNumber x = none ∨ toNumber y = none ∨
      ∃ s, toNumber x = some (infinityNumber s) ∧ toNumber y = some (infinityNumber s)) := by
  rcases number_sub (canonical x) (canonical y) with hnumber | ⟨hnone, hwhy⟩
  · exact Or.inl hnumber
  · refine Or.inr ⟨hnone, ?_⟩
    rcases hwhy with hx | hy | ⟨s, hx, hy⟩
    · exact Or.inl hx
    · exact Or.inr (Or.inl hy)
    · exact Or.inr (Or.inr ⟨s, congrArg number hx, congrArg number hy⟩)

/-- A difference that is a number stands to zero as the floats stand to each other. -/
private theorem sub_zero_iff {R : Extended → Extended → Prop}
    (hR : ∀ {p q d : Extended}, cmp d (finiteNumber 0) = cmp p q →
      (R d (finiteNumber 0) ↔ R p q)) :
    (∃ d, toNumber (x - y) = some d ∧ R d (finiteNumber 0)) ↔
      (∃ p q, toNumber x = some p ∧ toNumber y = some q ∧ R p q) ∧ toNumber (x - y) ≠ none := by
  rcases toNumber_sub x y with ⟨p, q, d, hx, hy, hd, hsign⟩ | ⟨hd, -⟩
  · simp [hx, hy, hd, hR hsign]
  · simp [hd]

theorem sub_lt_zero : x - y < 0 ↔ x < y ∧ toNumber (x - y) ≠ none := by
  rw [lt_iff, lt_iff, toNumber_zero,
    ← sub_zero_iff x y fun h => by rw [← cmp_eq_lt_iff, h, cmp_eq_lt_iff]]
  simp

theorem sub_le_zero : x - y ≤ 0 ↔ x ≤ y ∧ toNumber (x - y) ≠ none := by
  rw [le_iff, le_iff, toNumber_zero,
    ← sub_zero_iff x y fun h => by rw [← not_lt, ← cmp_eq_gt_iff, h, cmp_eq_gt_iff, not_lt]]
  simp

theorem zero_lt_sub : 0 < x - y ↔ y < x ∧ toNumber (x - y) ≠ none := by
  have hiff := sub_zero_iff x y (R := (· > ·)) fun h => by
    rw [gt_iff_lt, ← cmp_eq_gt_iff, h, cmp_eq_gt_iff]
  rw [lt_iff y x, exists_comm, lt_iff, toNumber_zero]
  simpa [and_left_comm] using hiff

theorem zero_le_sub : 0 ≤ x - y ↔ y ≤ x ∧ toNumber (x - y) ≠ none := by
  have hiff := sub_zero_iff x y (R := (· ≥ ·)) fun h => by
    rw [ge_iff_le, ← not_lt, ← cmp_eq_lt_iff, h, cmp_eq_lt_iff, not_lt]
  rw [le_iff y x, exists_comm, le_iff, toNumber_zero]
  simpa [and_left_comm] using hiff

/-- Only the difference of an infinity from itself is no number. -/
theorem toNumber_sub_ne_none {x y : Float} {p : ℚ} {q : Extended}
    (hx : toNumber x = some (finiteNumber p)) (hy : toNumber y = some q) :
    toNumber (x - y) ≠ none := by
  rcases toNumber_sub x y with ⟨_, _, d, -, -, hd, -⟩ | ⟨-, hnone | hnone | ⟨s, hinfinite, -⟩⟩
  · simp [hd]
  · simp [hx] at hnone
  · simp [hy] at hnone
  · rw [hx, Option.some.injEq] at hinfinite
    cases s
    · exact absurd hinfinite (bot_lt_finiteNumber p).ne'
    · exact absurd hinfinite (finiteNumber_lt_top p).ne

end Photon.Lib.Binary64
