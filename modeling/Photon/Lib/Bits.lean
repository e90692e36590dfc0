import Mathlib.Combinatorics.Colex
import Mathlib.Data.Nat.Bitwise
import Mathlib.Tactic

/-!
The bits of a natural number as a finite set. Subtracting one flips the lowest bit and those below
it, so `n &&& (n - 1)` is `n` without its lowest bit; counting how often that can be done counts
the bits.
-/

namespace Photon.Lib

def bitsOf (n : ℕ) : Finset ℕ := n.bitIndices.toFinset

@[simp]
theorem mem_bitsOf {n i : ℕ} : i ∈ bitsOf n ↔ n.testBit i = true := by
  rw [bitsOf, List.mem_toFinset, Nat.mem_bitIndices]

@[simp]
theorem bitsOf_zero : bitsOf 0 = ∅ := rfl

theorem bitsOf_eq_empty_iff {n : ℕ} : bitsOf n = ∅ ↔ n = 0 := by
  constructor
  · intro h
    apply Nat.eq_of_testBit_eq
    intro i
    have hi : i ∉ bitsOf n := by simp [h]
    simpa using hi
  · rintro rfl
    rfl

/-- Below `2^w` only the first `w` bits are used. -/
theorem lt_of_mem_bitsOf {n i w : ℕ} (hn : n < 2 ^ w) (hi : i ∈ bitsOf n) : i < w := by
  by_contra hw
  have hpow : 2 ^ w ≤ 2 ^ i := Nat.pow_le_pow_right (by decide) (not_lt.mp hw)
  have hfalse := Nat.testBit_eq_false_of_lt (hn.trans_le hpow)
  rw [mem_bitsOf.mp hi] at hfalse
  cases hfalse

/-- The bits of a number whose lowest bit is at `k`, and those of its predecessor. -/
theorem testBit_and_pred (k m i : ℕ) :
    ((2 ^ k * (2 * m + 1)) &&& (2 ^ k * (2 * m + 1) - 1)).testBit i =
      ((2 ^ k * (2 * m + 1)).testBit i && decide (i ≠ k)) := by
  have hpos := Nat.two_pow_pos k
  have hpred : 2 ^ k * (2 * m + 1) - 1 = 2 ^ k * (2 * m) + (2 ^ k - 1) := by
    rw [Nat.mul_succ]
    omega
  rw [Nat.testBit_and, hpred, Nat.testBit_two_pow_mul_add _ (by omega), Nat.testBit_two_pow_mul]
  rcases Nat.lt_trichotomy i k with hlt | rfl | hgt
  · simp [Nat.not_le.mpr hlt]
  · simp [Nat.testBit_zero]
  · obtain ⟨j, rfl⟩ := Nat.exists_eq_add_of_lt hgt
    have hshift : k + j + 1 - k = j + 1 := by omega
    have hodd : (2 * m + 1) / 2 = m := by omega
    have heven : 2 * m / 2 = m := by omega
    have hge : ¬k + j + 1 < k := by omega
    simp only [hshift, if_neg hge, Nat.testBit_succ, hodd, heven]
    cases m.testBit j with
    | false => simp
    | true =>
      have hne : k + j + 1 ≠ k := by omega
      simp [hne]

/-- One turn of the count takes one bit away. -/
theorem card_bitsOf_and_pred {n : ℕ} (hn : n ≠ 0) :
    (bitsOf (n &&& (n - 1))).card + 1 = (bitsOf n).card := by
  obtain ⟨k, odd, ⟨m, rfl⟩, rfl⟩ := Nat.exists_eq_two_pow_mul_odd hn
  have hlowest : k ∈ bitsOf (2 ^ k * (2 * m + 1)) := by
    rw [mem_bitsOf, Nat.testBit_two_pow_mul]
    simp [Nat.testBit_zero]
  have herase : bitsOf (2 ^ k * (2 * m + 1) &&& (2 ^ k * (2 * m + 1) - 1)) =
      (bitsOf (2 ^ k * (2 * m + 1))).erase k := by
    ext i
    rw [mem_bitsOf, testBit_and_pred, Finset.mem_erase, mem_bitsOf]
    simp [and_comm]
  rw [herase, Finset.card_erase_add_one hlowest]

end Photon.Lib
