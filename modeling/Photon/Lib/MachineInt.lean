import Mathlib.Tactic

/-!
Fixed-width arithmetic over unbounded numbers. An unsigned 64-bit value is a
natural number reduced modulo `2^64` after every operation; a signed one is an
integer brought back into the balanced range. The lemmas say when the reduction
does nothing, which is all a client needs once it has bounded its operands.
-/

namespace Photon.Lib

def addU64 (a b : Nat) : Nat := (a + b) % 2 ^ 64

def subU64 (a b : Nat) : Nat := (a + (2 ^ 64 - b % 2 ^ 64)) % 2 ^ 64

def wrapI64 (x : Int) : Int := Int.bmod x (2 ^ 64)

theorem addU64_of_lt {a b : Nat} (hsum : a + b < 2 ^ 64) : addU64 a b = a + b :=
  Nat.mod_eq_of_lt hsum

theorem subU64_of_le {a b : Nat} (hle : b ≤ a) (ha : a < 2 ^ 64) :
    subU64 a b = a - b := by
  unfold subU64
  have hb : b % 2 ^ 64 = b := Nat.mod_eq_of_lt (by omega)
  rw [hb]
  omega

theorem wrapI64_of_bounds {x : Int} (hlow : -2 ^ 63 ≤ x) (hhigh : x < 2 ^ 63) :
    wrapI64 x = x := by
  apply Int.bmod_eq_of_le <;> omega

theorem wrapI64_neg_of_overflow {x : Int} (hlow : 2 ^ 63 ≤ x) (hhigh : x < 2 ^ 64) :
    wrapI64 x < 0 := by
  simp only [wrapI64, Int.bmod]
  split <;> omega

/-- A left shift; a count beyond the width leaves nothing. -/
def shlI64 (x : Int64) (count : Nat) : Int64 := Int64.ofInt (x.toInt * 2 ^ count)

theorem toInt_mul_shlI64_one (x : Int64) (count : Nat) :
    (x * shlI64 1 count).toInt = wrapI64 (x.toInt * 2 ^ count) := by
  rw [shlI64, Int64.toInt_mul, Int64.toInt_ofInt, Int64.toInt_one, one_mul]
  exact Int.mul_bmod_bmod

/-- A difference that fits is the difference. -/
theorem toInt_sub_of_bounds {a b : Int64} (hlow : -2 ^ 63 ≤ a.toInt - b.toInt)
    (hhigh : a.toInt - b.toInt < 2 ^ 63) : (a - b).toInt = a.toInt - b.toInt := by
  rw [Int64.toInt_sub]
  exact wrapI64_of_bounds hlow hhigh

end Photon.Lib
