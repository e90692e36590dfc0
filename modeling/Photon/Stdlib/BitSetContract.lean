import Photon.Lib.Bits
import Photon.Lib.Machine
import Photon.Stdlib.BitSet

/-!
A bit set against the finite set it stands for. The abstract state is a set of positions below the
size, so that a bit of the padding cannot even be said to be in it; the words are related to it by
`Represents`, which every operation keeps. `AllSet` is the exception among the queries: it compares
whole words, and the padding of the last word is zero.
-/

namespace Photon.Stdlib

open Photon.Lib

/-- The calls on a bit set, `AllSet` apart. -/
inductive BitCall where
  | set (pos : UInt64)
  | clear (pos : UInt64)
  | toggle (pos : UInt64)
  | clearAll
  | isSet (pos : UInt64)
  | countSetBits
  | anySet
  | noneSet
  | string
deriving DecidableEq

inductive BitAnswer where
  | done
  | failed (failure : BitFailure)
  | flag (value : Bool)
  | count (value : Nat)
  | text (value : String)
deriving DecidableEq

/-- A call that changes the set, or fails and leaves it. -/
def BitSet.changed (bs : BitSet) : Except BitFailure BitSet → BitSet × BitAnswer
  | .ok next => (next, .done)
  | .error failure => (bs, .failed failure)

def bitMachine : Machine BitSet BitCall BitAnswer where
  step bs
    | .set pos => bs.changed (bs.set pos)
    | .clear pos => bs.changed (bs.clear pos)
    | .toggle pos => bs.changed (bs.toggle pos)
    | .clearAll => (bs.clearAll, .done)
    | .isSet pos =>
      (bs, match bs.isSet pos with
        | .ok value => .flag value
        | .error failure => .failed failure)
    | .countSetBits => (bs, .count bs.countSetBits.toNat)
    | .anySet => (bs, .flag bs.anySet)
    | .noneSet => (bs, .flag bs.noneSet)
    | .string =>
      (bs, match bs.string with
        | .ok value => .text value
        | .error failure => .failed failure)

section Abstract

variable {n : Nat}

def atPosition (members : Finset (Fin n)) (pos : UInt64)
    (call : Fin n → Finset (Fin n) × BitAnswer) : Finset (Fin n) × BitAnswer :=
  if h : pos.toNat < n then call ⟨pos.toNat, h⟩ else (members, .failed BitSet.outOfBounds)

def characteristic (members : Finset (Fin n)) : String :=
  String.ofList ((List.finRange n).map fun p => if p ∈ members then '1' else '0')

/-- What a bit set is for: a set of positions below `n`. -/
def setMachine (n : Nat) : Machine (Finset (Fin n)) BitCall BitAnswer where
  step members
    | .set pos => atPosition members pos fun p => (insert p members, .done)
    | .clear pos => atPosition members pos fun p => (members.erase p, .done)
    | .toggle pos => atPosition members pos fun p => (symmDiff members {p}, .done)
    | .clearAll => (∅, .done)
    | .isSet pos => atPosition members pos fun p => (members, .flag (decide (p ∈ members)))
    | .countSetBits => (members, .count members.card)
    | .anySet => (members, .flag (decide members.Nonempty))
    | .noneSet => (members, .flag !decide members.Nonempty)
    | .string => (members, .text (characteristic members))

end Abstract

structure Represents {n : Nat} (bs : BitSet) (members : Finset (Fin n)) : Prop where
  size : bs.size.toNat = n
  words : bs.bits.length = (n + 63) / 64
  mem : ∀ p, bs.has p = true ↔ ∃ h : p < n, (⟨p, h⟩ : Fin n) ∈ members

namespace BitSet

theorem popCountLoop_eq (x : UInt64) (count : Nat) :
    popCountLoop x count = count + (bitsOf x.toNat).card := by
  fun_induction popCountLoop x count with
  | case1 count => simp
  | case2 x count hx ih =>
    have hne : x.toNat ≠ 0 := fun h => hx (UInt64.toNat_inj.mp h)
    have hsub : (x - 1).toNat = x.toNat - 1 :=
      UInt64.toNat_sub_of_le x 1 (UInt64.le_iff_toNat_le.mpr (Nat.one_le_iff_ne_zero.mpr hne))
    rw [ih, UInt64.toNat_and, hsub, ← card_bitsOf_and_pred hne]
    omega

/-- Kernighan's loop counts the bits of a word. -/
theorem popCount_eq (x : UInt64) : popCount x = (bitsOf x.toNat).card := by
  rw [popCount, popCountLoop_eq, Nat.zero_add]

theorem has_lt_words {bs : BitSet} {p : Nat} (h : bs.has p = true) : p / 64 < bs.bits.length := by
  by_contra hge
  rw [has, List.getD_eq_default _ _ (not_lt.mp hge)] at h
  simp at h

theorem has_word {bs : BitSet} {w i : Nat} (hi : i < 64) :
    bs.has (w * 64 + i) = (bs.bits.getD w 0).toNat.testBit i := by
  have hdiv : (w * 64 + i) / 64 = w := by omega
  have hmod : (w * 64 + i) % 64 = i := by omega
  rw [has, hdiv, hmod]

theorem has_clearAll (bs : BitSet) (p : Nat) : bs.clearAll.has p = false := by
  rw [has, clearAll, List.getD_eq_getElem?_getD, List.getElem?_replicate]
  split <;> simp

/-- The members in one word are the bits of the word. -/
theorem card_word {bs : BitSet} {positions : Finset Nat}
    (hmem : ∀ p, p ∈ positions ↔ bs.has p = true) (w : Nat) :
    (positions.filter (· / 64 = w)).card = (bitsOf (bs.bits.getD w 0).toNat).card := by
  have hbit {i : Nat} (hi : i ∈ bitsOf (bs.bits.getD w 0).toNat) : i < 64 :=
    lt_of_mem_bitsOf (UInt64.toNat_lt _) hi
  refine Finset.card_nbij' (· % 64) (w * 64 + ·) ?_ ?_ ?_ ?_
  · intro p hp
    obtain ⟨hin, rfl⟩ := Finset.mem_filter.mp hp
    exact mem_bitsOf.mpr ((hmem p).mp hin)
  · intro i hi
    have hlt := hbit hi
    refine Finset.mem_filter.mpr ⟨(hmem _).mpr ?_, ?_⟩
    · rw [has_word hlt]
      exact mem_bitsOf.mp hi
    · show (w * 64 + i) / 64 = w
      omega
  · intro p hp
    obtain ⟨-, rfl⟩ := Finset.mem_filter.mp hp
    show p / 64 * 64 + p % 64 = p
    omega
  · intro i hi
    have hlt := hbit hi
    show (w * 64 + i) % 64 = i
    omega

theorem sum_range_getD (words : List UInt64) (f : UInt64 → Nat) :
    ∑ w ∈ Finset.range words.length, f (words.getD w 0) = (words.map f).sum := by
  induction words with
  | nil => rfl
  | cons word rest ih =>
    rw [List.length_cons, Finset.sum_range_succ', List.map_cons, List.sum_cons, ← ih]
    exact Nat.add_comm _ _

/-- The sum of the counts of the words, in the arithmetic of `uint64`. -/
theorem countSetBits_eq (bs : BitSet) :
    bs.countSetBits.toNat = (bs.bits.map fun word => (bitsOf word.toNat).card).sum % 2 ^ 64 := by
  have hfold (words : List UInt64) (start : UInt64) :
      (words.foldl (fun count word => count + UInt64.ofNat (popCount word)) start).toNat =
        (start.toNat + (words.map fun word => (bitsOf word.toNat).card).sum) % 2 ^ 64 := by
    induction words generalizing start with
    | nil => exact (Nat.mod_eq_of_lt start.toNat_lt).symm
    | cons word rest ih =>
      rw [List.foldl_cons, ih, UInt64.toNat_add, UInt64.toNat_ofNat', popCount_eq, List.map_cons,
        List.sum_cons]
      simp only [Nat.add_mod_mod, Nat.mod_add_mod, Nat.add_assoc]
  have hzero : (0 : UInt64).toNat = 0 := rfl
  rw [countSetBits, hfold, hzero, Nat.zero_add]

end BitSet

/-- A call gives the answer of the set, and leaves the words of the set that is left. -/
def Follows {n : Nat} (out : BitSet × BitAnswer) (spec : Finset (Fin n) × BitAnswer) : Prop :=
  out.2 = spec.2 ∧ Represents out.1 spec.1

namespace Represents

variable {n : Nat} {bs : BitSet} {members : Finset (Fin n)} (h : Represents bs members)
include h

theorem covered : bs.Covered := by
  rw [BitSet.Covered, h.size, h.words]
  omega

theorem size_lt : n < 2 ^ 64 := h.size ▸ bs.size.toNat_lt

theorem pos_lt {pos : UInt64} (hpos : pos.toNat < n) :
    pos < bs.size := UInt64.lt_iff_toNat_lt.mpr (h.size ▸ hpos)

theorem size_le {pos : UInt64} (hpos : ¬pos.toNat < n) :
    bs.size ≤ pos := UInt64.le_iff_toNat_le.mpr (h.size ▸ not_lt.mp hpos)

theorem has_eq (p : Fin n) : bs.has p = decide (p ∈ members) := by
  rw [Bool.eq_iff_iff, h.mem, decide_eq_true_iff]
  exact ⟨fun ⟨_, hp⟩ => hp, fun hp => ⟨p.2, hp⟩⟩

/-- Enough that the words stand for the positions of the new set. -/
theorem of_has {next : BitSet} {nextMembers : Finset (Fin n)} (hsize : next.size = bs.size)
    (hlength : next.bits.length = bs.bits.length) (hlt : ∀ p, next.has p = true → p < n)
    (hhas : ∀ p : Fin n, next.has p = true ↔ p ∈ nextMembers) : Represents next nextMembers where
  size := by rw [hsize, h.size]
  words := by rw [hlength, h.words]
  mem p := ⟨fun hp => ⟨hlt p hp, (hhas ⟨p, hlt p hp⟩).mp hp⟩,
    fun ⟨hp, hmem⟩ => (hhas ⟨p, hp⟩).mpr hmem⟩

theorem lt_of_has {p : Nat} (hp : bs.has p = true) : p < n :=
  ((h.mem p).mp hp).1

/-- The shared step of `Set`, `Clear` and `Toggle`. -/
theorem modify {op : UInt64 → UInt64 → UInt64} {f : Bool → Bool → Bool}
    (hop : ∀ word mask : UInt64, ∀ i < 64,
      (op word mask).toNat.testBit i = f (word.toNat.testBit i) (mask.toNat.testBit i))
    (hkeep : ∀ b, f b false = b) {change : Fin n → Finset (Fin n)} (hchange : ∀ p q, q ∈ change p ↔
      if q = p then f (decide (p ∈ members)) true = true else q ∈ members) (pos : UInt64) :
    Follows (bs.changed (bs.modify op pos))
      (atPosition members pos fun p => (change p, .done)) := by
  by_cases hpos : pos.toNat < n
  · obtain ⟨next, hnext, hsize, hlength, hhas⟩ :=
      BitSet.modify_eq hop hkeep h.covered (h.pos_lt hpos)
    have hnow : Represents next (change ⟨pos.toNat, hpos⟩) := by
      refine h.of_has hsize hlength (fun p hp => ?_) fun q => ?_
      · rw [hhas] at hp
        split at hp
        · next heq => rwa [heq]
        · exact h.lt_of_has hp
      · rw [hhas, hchange, h.has_eq]
        by_cases heq : q = ⟨pos.toNat, hpos⟩
        · rw [if_pos heq, if_pos (congrArg Fin.val heq), heq]
        · rw [if_neg heq, if_neg fun hval => heq (Fin.ext hval), decide_eq_true_iff]
    rw [hnext, atPosition, dif_pos hpos]
    exact ⟨rfl, hnow⟩
  · rw [BitSet.modify, if_pos (h.size_le hpos), atPosition, dif_neg hpos]
    exact ⟨rfl, h⟩

theorem set (pos : UInt64) :
    Follows (bs.changed (bs.set pos))
      (atPosition members pos fun p => (insert p members, .done)) := by
  refine h.modify (f := fun b mask => b || mask) ?_ Bool.or_false ?_ pos
  · intro word mask i _
    rw [UInt64.toNat_or, Nat.testBit_or]
  · intro p q
    by_cases heq : q = p <;> simp [heq]

theorem clear (pos : UInt64) :
    Follows (bs.changed (bs.clear pos))
      (atPosition members pos fun p => (members.erase p, .done)) := by
  refine h.modify (f := fun b mask => b && !mask) ?_ (by simp) ?_ pos
  · intro word mask i hi
    have hnot : (~~~mask).toNat = 2 ^ 64 - (mask.toNat + 1) := by
      rw [UInt64.toNat_not, Nat.sub_sub, Nat.add_comm 1]
      rfl
    rw [UInt64.toNat_and, Nat.testBit_and, hnot, Nat.testBit_two_pow_sub_succ mask.toNat_lt,
      decide_eq_true hi, Bool.true_and]
  · intro p q
    by_cases heq : q = p <;> simp [heq]

theorem toggle (pos : UInt64) :
    Follows (bs.changed (bs.toggle pos))
      (atPosition members pos fun p => (symmDiff members {p}, .done)) := by
  refine h.modify (f := fun b mask => b ^^ mask) ?_ Bool.xor_false ?_ pos
  · intro word mask i _
    rw [UInt64.toNat_xor, Nat.testBit_xor]
  · intro p q
    by_cases heq : q = p <;> simp [heq, Finset.mem_symmDiff]

theorem clearAll : Represents bs.clearAll (∅ : Finset (Fin n)) := by
  refine h.of_has rfl List.length_replicate (fun p hp => ?_) fun p => ?_
  · rw [BitSet.has_clearAll] at hp
    cases hp
  · simp [BitSet.has_clearAll]

theorem isSet (p : Fin n) {pos : UInt64} (hpos : pos.toNat = p) :
    bs.isSet pos = .ok (decide (p ∈ members)) := by
  rw [BitSet.isSet_eq h.covered (h.pos_lt (hpos ▸ p.2)), hpos, h.has_eq]

/-- The positions as numbers. -/
theorem mem_map_val (p : Nat) : p ∈ members.map Fin.valEmbedding ↔ bs.has p = true := by
  rw [h.mem, Finset.mem_map]
  constructor
  · rintro ⟨q, hq, rfl⟩
    exact ⟨q.2, hq⟩
  · rintro ⟨hp, hmem⟩
    exact ⟨⟨p, hp⟩, hmem, rfl⟩

theorem countSetBits : bs.countSetBits.toNat = members.card := by
  have hsum : (bs.bits.map fun word => (bitsOf word.toNat).card).sum = members.card := by
    rw [← BitSet.sum_range_getD bs.bits fun word => (bitsOf word.toNat).card,
      ← Finset.card_map Fin.valEmbedding,
      Finset.card_eq_sum_card_fiberwise (f := (· / 64)) (t := Finset.range bs.bits.length)]
    · exact Finset.sum_congr rfl fun w _ => (BitSet.card_word h.mem_map_val w).symm
    · intro p hp
      have hhas := (h.mem_map_val p).mp hp
      exact Finset.mem_coe.mpr (Finset.mem_range.mpr (BitSet.has_lt_words hhas))
  have hcard : members.card ≤ n := by
    simpa using Finset.card_le_univ members
  rw [BitSet.countSetBits_eq, hsum, Nat.mod_eq_of_lt (hcard.trans_lt h.size_lt)]

/-- A word that is not zero has a bit, and a bit is in a word that is not zero. -/
theorem exists_word_iff : (∃ word ∈ bs.bits, word ≠ 0) ↔ members.Nonempty := by
  constructor
  · rintro ⟨word, hword, hne⟩
    obtain ⟨w, hw, rfl⟩ := List.getElem_of_mem hword
    have hbits : bitsOf (bs.bits[w]).toNat ≠ ∅ := by
      rw [ne_eq, bitsOf_eq_empty_iff]
      exact fun hzero => hne (UInt64.toNat_inj.mp hzero)
    have hgetD : bs.bits.getD w 0 = bs.bits[w] := List.getD_eq_getElem _ _ hw
    rw [← hgetD, ← Finset.nonempty_iff_ne_empty, ← Finset.card_pos,
      ← BitSet.card_word h.mem_map_val, Finset.card_pos] at hbits
    obtain ⟨p, hp⟩ := hbits
    obtain ⟨q, hq, -⟩ := Finset.mem_map.mp (Finset.mem_filter.mp hp).1
    exact ⟨q, hq⟩
  · rintro ⟨p, hp⟩
    have hhas : bs.has p = true := (h.mem p).mpr ⟨p.2, hp⟩
    have hword := BitSet.has_lt_words hhas
    refine ⟨bs.bits[p.val / 64], List.getElem_mem _, fun hzero => ?_⟩
    rw [BitSet.has, List.getD_eq_getElem _ _ hword, hzero] at hhas
    simp at hhas

theorem anySet : bs.anySet = decide members.Nonempty := by
  rw [Bool.eq_iff_iff, decide_eq_true_iff, ← h.exists_word_iff, BitSet.anySet, List.any_eq_true]
  simp

theorem noneSet : bs.noneSet = !decide members.Nonempty := by
  rw [← h.anySet, BitSet.noneSet, BitSet.anySet, List.not_any_eq_all_not]
  simp [bne]

/-- The character `String` appends for a position. -/
theorem appendBit (result : String) (p : Fin n) :
    bs.appendBit result p = .ok (result ++ String.ofList [if p ∈ members then '1' else '0']) := by
  have hisSet : bs.isSet (UInt64.ofNat p) = .ok (decide (p ∈ members)) :=
    h.isSet p (UInt64.toNat_ofNat_of_lt (p.2.trans h.size_lt))
  rw [BitSet.appendBit, hisSet]
  by_cases hp : p ∈ members <;> simp [hp]

theorem foldlM_appendBit (positions : List (Fin n)) (result : String) :
    (positions.map Fin.val).foldlM bs.appendBit result =
      .ok (result ++ String.ofList (positions.map fun p => if p ∈ members then '1' else '0')) := by
  induction positions generalizing result with
  | nil => simp [pure, Except.pure]
  | cons p rest ih =>
    rw [List.map_cons, List.foldlM_cons, h.appendBit]
    refine (ih _).trans ?_
    rw [String.append_assoc, ← String.ofList_append]
    rfl

theorem string : bs.string = .ok (characteristic members) := by
  have hrange : (List.finRange n).map Fin.val = List.range n := List.map_coe_finRange_eq_range
  rw [BitSet.string, h.size, ← hrange, h.foldlM_appendBit, characteristic, String.empty_append]

/-- Every call answers as on the set, and leaves the words of the set it leaves. -/
theorem step (call : BitCall) :
    Follows (bitMachine.step bs call) ((setMachine n).step members call) := by
  cases call with
  | set pos => exact h.set pos
  | clear pos => exact h.clear pos
  | toggle pos => exact h.toggle pos
  | clearAll => exact ⟨rfl, h.clearAll⟩
  | isSet pos =>
    by_cases hpos : pos.toNat < n
    · simp only [bitMachine, setMachine, atPosition, dif_pos hpos]
      exact ⟨by rw [h.isSet ⟨pos.toNat, hpos⟩ rfl], h⟩
    · simp only [bitMachine, setMachine, atPosition, dif_neg hpos]
      exact ⟨by rw [BitSet.isSet, if_pos (h.size_le hpos)], h⟩
  | countSetBits => exact ⟨congrArg BitAnswer.count h.countSetBits, h⟩
  | anySet => exact ⟨congrArg BitAnswer.flag h.anySet, h⟩
  | noneSet => exact ⟨congrArg BitAnswer.flag h.noneSet, h⟩
  | string =>
    refine ⟨?_, h⟩
    simp only [bitMachine, setMachine]
    rw [h.string]

end Represents

theorem BitSet.toNat_numWords {size : UInt64} (h : size.toNat ≤ 2 ^ 64 - 64) :
    (BitSet.numWords size).toNat = (size.toNat + 63) / 64 := by
  have hsum : (size + 63).toNat = size.toNat + 63 := by
    rw [UInt64.toNat_add]
    exact Nat.mod_eq_of_lt (by show size.toNat + 63 < 2 ^ 64; omega)
  rw [BitSet.numWords, UInt64.toNat_div, hsum]
  rfl

/-- A new bit set whose words could be allocated is empty. -/
theorem represents_new {maxWords : Nat} {size : UInt64} {bs : BitSet}
    (hsize : size.toNat ≤ 2 ^ 64 - 64) (hnew : BitSet.new maxWords size = some bs) :
    Represents bs (∅ : Finset (Fin size.toNat)) := by
  rw [BitSet.new] at hnew
  split at hnew
  · cases hnew
    refine ⟨rfl, ?_, fun p => ?_⟩
    · rw [List.length_replicate, BitSet.toNat_numWords hsize]
    · have hzero := BitSet.has_clearAll ⟨List.replicate (BitSet.numWords size).toNat 0, size⟩ p
      rw [BitSet.clearAll, List.length_replicate] at hzero
      simp [hzero]
  · cases hnew

/--
For every size up to `2^64 - 64` and every sequence of calls on a new bit set, the answers are
those of a finite set of positions below the size, and the words represent that set afterwards.
-/
theorem bitset_behaves_as_finite_set (maxWords : Nat) (size : UInt64)
    (hsize : size.toNat ≤ 2 ^ 64 - 64) (bs : BitSet) (hnew : BitSet.new maxWords size = some bs)
    (calls : List BitCall) :
    bitMachine.trace bs calls = (setMachine size.toNat).trace ∅ calls ∧
      Represents (bitMachine.run bs calls) ((setMachine size.toNat).run ∅ calls) :=
  bitMachine.simulation (setMachine size.toNat) Represents
    (fun _ _ call h => h.step call) (represents_new hsize hnew) calls

theorem bitset_of_three_positions :
    let calls := [.set 2, .toggle 0, .set 3, .clear 2, .countSetBits, .string]
    bitMachine.trace ⟨[0], 3⟩ calls = (setMachine 3).trace ∅ calls :=
  (bitset_behaves_as_finite_set 1 3 (by decide) ⟨[0], 3⟩ rfl _).1

/-! ### AllSet -/

/-- A word is full when all its bits are set. -/
theorem BitSet.word_full_iff (word : UInt64) :
    word = ~~~0 ↔ ∀ i < 64, word.toNat.testBit i = true := by
  have hfull : (~~~0 : UInt64).toNat = 2 ^ 64 - 1 := rfl
  constructor
  · rintro rfl i hi
    rw [hfull, Nat.testBit_two_pow_sub_one, decide_eq_true hi]
  · intro h
    apply UInt64.toNat_inj.mp
    apply Nat.eq_of_testBit_eq
    intro i
    rw [hfull, Nat.testBit_two_pow_sub_one]
    by_cases hi : i < 64
    · rw [h i hi, decide_eq_true hi]
    · rw [decide_eq_false hi]
      have hpow : 2 ^ 64 ≤ 2 ^ i := Nat.pow_le_pow_right (by decide) (not_lt.mp hi)
      exact Nat.testBit_eq_false_of_lt (word.toNat_lt.trans_le hpow)

namespace Represents

variable {n : Nat} {bs : BitSet} {members : Finset (Fin n)} (h : Represents bs members)
include h

/-- The words are all below the size, so `AllSet` asks for every bit of every word. -/
theorem allSet_iff : bs.allSet = true ↔ ∀ p < bs.bits.length * 64, bs.has p = true := by
  have hbelow {w : Nat} (hw : w < bs.bits.length) : UInt64.ofNat w * 64 < bs.size := by
    have hlt := h.size_lt
    rw [h.words] at hw
    rw [UInt64.lt_iff_toNat_lt, h.size, UInt64.toNat_mul, UInt64.toNat_ofNat']
    show w % 2 ^ 64 * 64 % 2 ^ 64 < n
    omega
  have hword {w : Nat} (hw : w < bs.bits.length) :
      bs.bits[w] = ~~~0 ↔ ∀ i < 64, bs.has (w * 64 + i) = true := by
    rw [BitSet.word_full_iff]
    apply forall₂_congr
    intro i hi
    rw [BitSet.has_word hi, List.getD_eq_getElem _ _ hw]
  have hall : bs.allSet = true ↔ ∀ w, (hw : w < bs.bits.length) → bs.bits[w] = ~~~0 := by
    rw [BitSet.allSet, List.all_eq_true]
    constructor
    · intro hzip w hw
      have hw' := hzip (bs.bits[w], w) (List.mk_mem_zipIdx_iff_getElem?.mpr
        (List.getElem?_eq_getElem hw))
      simpa [hbelow hw] using hw'
    · rintro hfull ⟨word, w⟩ hmem
      obtain ⟨hw, heq⟩ := List.getElem?_eq_some_iff.mp (List.mk_mem_zipIdx_iff_getElem?.mp hmem)
      simp [← heq, hfull w hw]
  rw [hall]
  constructor
  · intro hfull p hp
    have hmem := (hword (w := p / 64) (by omega)).mp (hfull _ (by omega)) (p % 64)
      (Nat.mod_lt p (by decide))
    rwa [Nat.div_add_mod'] at hmem
  · intro hhas w hw
    exact (hword hw).mpr fun i hi => hhas _ (by omega)

/-- With a size that is no multiple of 64 the last word has padding, and `AllSet` says no. -/
theorem allSet_eq_false (hdvd : ¬64 ∣ n) : bs.allSet = false := by
  rw [← Bool.not_eq_true, h.allSet_iff, h.words]
  intro hall
  exact (Nat.lt_irrefl n) (h.lt_of_has (hall n (by omega)))

theorem forall_isSet_iff :
    (∀ pos < bs.size, bs.isSet pos = .ok true) ↔ ∀ p < n, bs.has p = true := by
  constructor
  · intro hall p hp
    have hpos : (UInt64.ofNat p).toNat = p := UInt64.toNat_ofNat_of_lt (hp.trans h.size_lt)
    have hset := hall _ (h.pos_lt (hpos.symm ▸ hp))
    rw [BitSet.isSet_eq h.covered (h.pos_lt (hpos.symm ▸ hp)), hpos] at hset
    exact Except.ok.inj hset
  · intro hall pos hpos
    rw [BitSet.isSet_eq h.covered hpos, hall _ (h.size ▸ UInt64.lt_iff_toNat_lt.mp hpos)]

/-- `AllSet` is right about a represented set without padding, or with a position missing. -/
theorem allSet_exact_iff :
    (bs.allSet = true ↔ ∀ pos < bs.size, bs.isSet pos = .ok true) ↔
      64 ∣ n ∨ ∃ pos < bs.size, bs.isSet pos = .ok false := by
  have hmissing : (∃ pos < bs.size, bs.isSet pos = .ok false) ↔
      ¬∀ pos < bs.size, bs.isSet pos = .ok true := by
    push Not
    refine exists_congr fun pos => and_congr_right fun hpos => ?_
    rw [BitSet.isSet_eq h.covered hpos]
    simp
  rw [hmissing]
  by_cases hdvd : 64 ∣ n
  · have hexact : (n + 63) / 64 * 64 = n := by omega
    rw [h.allSet_iff, h.words, hexact, h.forall_isSet_iff]
    simp [hdvd]
  · simp [h.allSet_eq_false hdvd, hdvd]

end Represents

/-- Close to `2^64` the number of words wraps to none, and no call brings one back. -/
theorem run_without_words {maxWords : Nat} {size : UInt64} {bs : BitSet}
    (hsize : ¬size.toNat ≤ 2 ^ 64 - 64) (hnew : BitSet.new maxWords size = some bs)
    (calls : List BitCall) : bitMachine.run bs calls = ⟨[], size⟩ := by
  have hwords : (BitSet.numWords size).toNat = 0 := by
    have hlt := size.toNat_lt
    rw [BitSet.numWords, UInt64.toNat_div, UInt64.toNat_add]
    show (size.toNat + 63) % 2 ^ 64 / 64 = 0
    omega
  have hstart : bs = ⟨[], size⟩ := by
    rw [BitSet.new, hwords] at hnew
    simpa using hnew.symm
  have hmodify (op : UInt64 → UInt64 → UInt64) (pos : UInt64) :
      (BitSet.changed ⟨[], size⟩ (BitSet.modify op ⟨[], size⟩ pos)).1 = ⟨[], size⟩ := by
    simp only [BitSet.modify, List.getElem?_nil]
    split <;> rfl
  have hstep : ∀ s call, s = (⟨[], size⟩ : BitSet) →
      (bitMachine.step s call).1 = ⟨[], size⟩ := by
    rintro s call rfl
    cases call with
    | set pos | clear pos | toggle pos => exact hmodify _ pos
    | clearAll | isSet _ | countSetBits | anySet | noneSet | string => rfl
  exact bitMachine.run_invariant_of_step (· = ⟨[], size⟩) hstep bs calls hstart

/--
In every bit set that calls can reach, `AllSet` is true exactly when all positions are set if and
only if the size is a multiple of 64 or a position can be read that is not set.
-/
theorem allSet_exact_iff_no_padding_or_missing (maxWords : Nat) (size : UInt64) (bs : BitSet)
    (hnew : BitSet.new maxWords size = some bs) (calls : List BitCall) :
    ((bitMachine.run bs calls).allSet = true ↔
        ∀ pos < size, (bitMachine.run bs calls).isSet pos = .ok true) ↔
      64 ∣ size.toNat ∨ ∃ pos < size, (bitMachine.run bs calls).isSet pos = .ok false := by
  by_cases hsize : size.toNat ≤ 2 ^ 64 - 64
  · have hrun := (bitMachine.simulation (setMachine size.toNat) Represents
      (fun _ _ call h => h.step call) (represents_new hsize hnew) calls).2
    have hsame : (bitMachine.run bs calls).size = size := UInt64.toNat_inj.mp hrun.size
    have hexact := hrun.allSet_exact_iff
    rwa [hsame] at hexact
  · rw [run_without_words hsize hnew calls]
    have hlt := size.toNat_lt
    have hdvd : ¬64 ∣ size.toNat := by omega
    have hpanic : ∀ pos < size, BitSet.isSet ⟨[], size⟩ pos = .error .panic := by
      intro pos hpos
      simp only [BitSet.isSet, if_neg (UInt64.not_le.mpr hpos), List.getElem?_nil]
    have hzero : (0 : UInt64) < size := UInt64.lt_iff_toNat_lt.mpr (by show 0 < _; omega)
    have hnotAll : ¬∀ pos < size, BitSet.isSet ⟨[], size⟩ pos = .ok true := by
      intro hall
      have hread := hall 0 hzero
      rw [hpanic 0 hzero] at hread
      cases hread
    have hnone : ¬∃ pos < size, BitSet.isSet ⟨[], size⟩ pos = .ok false := by
      rintro ⟨pos, hpos, hread⟩
      rw [hpanic pos hpos] at hread
      cases hread
    simp only [hdvd, hnone, hnotAll, or_self, iff_false, not_not]
    rfl

theorem allSet_exact_for_one_word :
    ((bitMachine.run ⟨[0], 64⟩ [.set 5]).allSet = true ↔
        ∀ pos < 64, (bitMachine.run ⟨[0], 64⟩ [.set 5]).isSet pos = .ok true) ↔
      64 ∣ (64 : UInt64).toNat ∨
        ∃ pos < 64, (bitMachine.run ⟨[0], 64⟩ [.set 5]).isSet pos = .ok false :=
  allSet_exact_iff_no_padding_or_missing 1 64 ⟨[0], 64⟩ rfl [.set 5]

/-- The only position is set, but `AllSet` also asks for the 63 bits of padding. -/
theorem allSet_false_with_the_only_position_set :
    BitSet.new 1 1 = some ⟨[0], 1⟩ ∧
      (∀ pos < 1, (bitMachine.run ⟨[0], 1⟩ [.set 0]).isSet pos = .ok true) ∧
      (bitMachine.run ⟨[0], 1⟩ [.set 0]).allSet = false := by
  refine ⟨rfl, fun pos hpos => ?_, rfl⟩
  have hzero : pos = 0 := by
    apply UInt64.toNat_inj.mp
    have hlt := UInt64.lt_iff_toNat_lt.mp hpos
    exact Nat.lt_one_iff.mp hlt
  rw [hzero]
  rfl

end Photon.Stdlib
