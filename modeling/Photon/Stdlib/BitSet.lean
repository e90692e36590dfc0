import Mathlib.Data.Nat.Bitwise
import Mathlib.Tactic

/-!
The bit set of `utils/stdlib/bitset.go`: words of 64 bits and the number of positions.
`new` is given the number of words that can be allocated; the number it asks for is
computed with the wrap of `uint64`, so a size close to `2^64` gets no words at all.
-/

namespace Photon.Stdlib

inductive BitFailure where
  | err (message : String)
  | panic
deriving DecidableEq

structure BitSet where
  bits : List UInt64
  size : UInt64
deriving DecidableEq

namespace BitSet

def numWords (size : UInt64) : UInt64 := (size + 63) / 64

def new (maxWords : Nat) (size : UInt64) : Option BitSet :=
  if (numWords size).toNat ≤ maxWords then some ⟨List.replicate (numWords size).toNat 0, size⟩
  else none

def outOfBounds : BitFailure := .err "position out of bounds"

variable (bs : BitSet)

def isSet (pos : UInt64) : Except BitFailure Bool :=
  if bs.size ≤ pos then .error outOfBounds
  else
    match bs.bits[(pos / 64).toNat]? with
    | some word => .ok (decide (word &&& 1 <<< (pos % 64) ≠ 0))
    | none => .error .panic

/-- What `Set`, `Clear` and `Toggle` share: a word is replaced, given the mask of the position. -/
def modify (op : UInt64 → UInt64 → UInt64) (bs : BitSet) (pos : UInt64) :
    Except BitFailure BitSet :=
  if bs.size ≤ pos then .error outOfBounds
  else
    match bs.bits[(pos / 64).toNat]? with
    | some word => .ok {bs with bits := bs.bits.set (pos / 64).toNat (op word (1 <<< (pos % 64)))}
    | none => .error .panic

def set (pos : UInt64) : Except BitFailure BitSet :=
  bs.modify (fun word mask => word ||| mask) pos

def clear (pos : UInt64) : Except BitFailure BitSet :=
  bs.modify (fun word mask => word &&& ~~~mask) pos

def toggle (pos : UInt64) : Except BitFailure BitSet :=
  bs.modify (fun word mask => word ^^^ mask) pos

def clearAll : BitSet := {bs with bits := List.replicate bs.bits.length 0}

/-- The loop of `popCount`: the lowest bit is taken away until none is left. -/
def popCountLoop (x : UInt64) (count : Nat) : Nat :=
  if x = 0 then count else popCountLoop (x &&& (x - 1)) (count + 1)
termination_by x.toNat
decreasing_by
  rename_i hx
  have hpos : 0 < x.toNat := Nat.pos_of_ne_zero fun h => hx (UInt64.toNat_inj.mp h)
  have hsub : (x - 1).toNat = x.toNat - 1 :=
    UInt64.toNat_sub_of_le x 1 (UInt64.le_iff_toNat_le.mpr hpos)
  rw [UInt64.toNat_and, hsub]
  exact Nat.and_le_right.trans_lt (Nat.sub_lt hpos (by decide))

def popCount (x : UInt64) : Nat := popCountLoop x 0

def countSetBits : UInt64 :=
  bs.bits.foldl (fun count word => count + UInt64.ofNat (popCount word)) 0

def allSet : Bool :=
  bs.bits.zipIdx.all fun ⟨word, i⟩ => !(word != ~~~0 && decide (UInt64.ofNat i * 64 < bs.size))

def anySet : Bool := bs.bits.any fun word => word != 0

def noneSet : Bool := bs.bits.all fun word => word == 0

/-- One turn of `String`: the error of `IsSet` is dropped, its panic is not. -/
def appendBit (result : String) (i : Nat) : Except BitFailure String :=
  match bs.isSet (UInt64.ofNat i) with
  | .ok isSet => .ok (result ++ if isSet then "1" else "0")
  | .error (.err _) => .ok (result ++ "0")
  | .error .panic => .error .panic

def string : Except BitFailure String :=
  (List.range bs.size.toNat).foldlM bs.appendBit ""

def has (pos : Nat) : Bool := (bs.bits.getD (pos / 64) 0).toNat.testBit (pos % 64)

def Covered : Prop := bs.size.toNat ≤ bs.bits.length * 64

theorem toNat_one_shiftLeft (pos : UInt64) :
    (1 <<< (pos % 64) : UInt64).toNat = 2 ^ (pos.toNat % 64) := by
  have hbit : pos.toNat % 64 < 64 := Nat.mod_lt _ (by decide)
  have hpow : 2 ^ (pos.toNat % 64) < 2 ^ 64 := Nat.pow_lt_pow_right (by decide) hbit
  have hmod : (pos % 64).toNat = pos.toNat % 64 := UInt64.toNat_mod pos 64
  rw [UInt64.toNat_shiftLeft, hmod, Nat.mod_eq_of_lt hbit, Nat.shiftLeft_eq]
  exact (congrArg (· % 2 ^ 64) (Nat.one_mul _)).trans (Nat.mod_eq_of_lt hpow)

theorem toNat_div_word (pos : UInt64) : (pos / 64).toNat = pos.toNat / 64 :=
  UInt64.toNat_div pos 64

variable {pos : UInt64}

/-- The words of a covered set below its size. -/
theorem Covered.word {bs : BitSet} (h : bs.Covered) (hpos : pos < bs.size) :
    pos.toNat / 64 < bs.bits.length := by
  have hlt := UInt64.lt_iff_toNat_lt.mp hpos
  unfold Covered at h
  omega

theorem isSet_eq {bs : BitSet} (h : bs.Covered) (hpos : pos < bs.size) :
    bs.isSet pos = .ok (bs.has pos.toNat) := by
  have hword := h.word hpos
  rw [isSet, if_neg (UInt64.not_le.mpr hpos), toNat_div_word, List.getElem?_eq_getElem hword]
  simp only [Except.ok.injEq, has, List.getD_eq_getElem?_getD, List.getElem?_eq_getElem hword,
    Option.getD_some]
  rw [Bool.eq_iff_iff, decide_eq_true_iff, ne_eq, ← UInt64.toNat_inj, UInt64.toNat_and,
    toNat_one_shiftLeft, Nat.and_two_pow]
  cases (bs.bits[pos.toNat / 64]).toNat.testBit (pos.toNat % 64) <;> simp

/--
Replacing a word of a covered set changes the position asked for and no other, when the operation
on words works bit by bit and leaves a bit alone that is not in the mask.
-/
theorem modify_eq {op : UInt64 → UInt64 → UInt64} {f : Bool → Bool → Bool}
    (hop : ∀ word mask : UInt64, ∀ i < 64,
      (op word mask).toNat.testBit i = f (word.toNat.testBit i) (mask.toNat.testBit i))
    (hkeep : ∀ b, f b false = b) {bs : BitSet} (h : bs.Covered) (hpos : pos < bs.size) :
    ∃ next, bs.modify op pos = .ok next ∧ next.size = bs.size ∧
      next.bits.length = bs.bits.length ∧
      ∀ p, next.has p = if p = pos.toNat then f (bs.has p) true else bs.has p := by
  have hword := h.word hpos
  rw [modify, if_neg (UInt64.not_le.mpr hpos), toNat_div_word, List.getElem?_eq_getElem hword]
  refine ⟨_, rfl, rfl, List.length_set, fun p => ?_⟩
  simp only [has, List.getD_eq_getElem?_getD, List.getElem?_set]
  by_cases hsame : pos.toNat / 64 = p / 64
  · rw [if_pos hsame, if_pos hword, Option.getD_some, hop _ _ _ (Nat.mod_lt p (by decide)),
      toNat_one_shiftLeft, Nat.testBit_two_pow, ← hsame, List.getElem?_eq_getElem hword,
      Option.getD_some]
    by_cases heq : p = pos.toNat
    · rw [if_pos heq, decide_eq_true (by rw [heq])]
    · rw [if_neg heq, decide_eq_false (by omega), hkeep]
  · have hne : p ≠ pos.toNat := fun heq => hsame (by rw [heq])
    rw [if_neg hsame, if_neg hne]

/-- Setting a bit of a covered set adds its position. -/
theorem set_eq {bs : BitSet} (h : bs.Covered) (hpos : pos < bs.size) :
    ∃ next, bs.set pos = .ok next ∧ next.size = bs.size ∧ next.Covered ∧
      ∀ p, next.has p = (decide (p = pos.toNat) || bs.has p) := by
  have hop : ∀ word mask : UInt64, ∀ i < 64,
      (word ||| mask).toNat.testBit i = (word.toNat.testBit i || mask.toNat.testBit i) := by
    intro word mask i _
    rw [UInt64.toNat_or, Nat.testBit_or]
  obtain ⟨next, hnext, hsize, hlength, hhas⟩ := modify_eq hop Bool.or_false h hpos
  refine ⟨next, hnext, hsize, ?_, fun p => ?_⟩
  · unfold Covered at h ⊢
    rwa [hsize, hlength]
  · rw [hhas]
    by_cases heq : p = pos.toNat <;> simp [heq]

end BitSet

end Photon.Stdlib
