import Photon.Features.Evaluation

/-!
What the comparisons of the rules mean for the numbers that are compared. The order operators
subtract the values as floats, so integers are rounded first. A difference above or below zero
is still right, since rounding keeps the order. A difference of zero is right only for numbers
that rounding tells apart, and it is also what two values give that are no numbers. Equality
asks for the same type as well.
-/

namespace Photon.Features

open Photon.Lib Photon.Lib.Binary64

def Value.number : Value → Option Extended
  | .int n => some (finiteNumber n.toInt)
  | .int64 n => some (finiteNumber n.toInt)
  | .float64 x => toNumber x
  | _ => none

def StandIn (rel : Extended → Extended → Prop) (a b : Value) : Prop :=
  ∃ x y, a.number = some x ∧ b.number = some y ∧ rel x y

def Value.Exact : Value → Prop
  | .int n => n.toInt.natAbs ≤ 2 ^ 53
  | .int64 n => n.toInt.natAbs ≤ 2 ^ 53
  | .float64 _ => True
  | _ => False

def Value.HoldsInteger : Value → Prop
  | .int n => n.toInt.natAbs < 2 ^ 53
  | .int64 n => n.toInt.natAbs < 2 ^ 53
  | .float64 x => ∃ z : ℤ, z.natAbs < 2 ^ 53 ∧ toNumber x = some (finiteNumber z)
  | _ => False

def Value.SameType : Value → Value → Prop
  | .int _, .int _ => True
  | .int64 _, .int64 _ => True
  | .float64 _, .float64 _ => True
  | _, _ => False

theorem natAbs_toInt_le (n : Int64) : n.toInt.natAbs ≤ 2 ^ 64 := by
  have hlow := n.le_toInt
  have hhigh := n.toInt_lt
  omega

/-- The float of an integer is the nearest one; other floats are exact. -/
theorem toFloat64_cases {a : Value} {fa : Float} (h : toFloat64 a = some fa) :
    (∃ n : ℤ, toNumber fa = some (finiteNumber (nearest n)) ∧
      a.number = some (finiteNumber n)) ∨ a.number = toNumber fa := by
  cases a with
  | int n | int64 n =>
    cases h
    exact Or.inl ⟨n.toInt, toNumber_ofInt (natAbs_toInt_le n), rfl⟩
  | float64 x =>
    cases h
    exact Or.inr rfl
  | _ => cases h

variable {a b : Value} {fa fb : Float} (key : String) (expected val : Value)

/-- The floats keep the order of the numbers. -/
theorem toFloat64_mono {x y p q : Extended} (ha : toFloat64 a = some fa)
    (hb : toFloat64 b = some fb) (hx : a.number = some x) (hy : b.number = some y)
    (hp : toNumber fa = some p) (hq : toNumber fb = some q) (h : x ≤ y) :
    p ≤ q := by
  rcases toFloat64_cases ha with ⟨n, hfloat, hnumber⟩ | hexact <;>
    rcases toFloat64_cases hb with ⟨n', hfloat', hnumber'⟩ | hexact'
  · cases hfloat.symm.trans hp
    cases hnumber.symm.trans hx
    cases hfloat'.symm.trans hq
    cases hnumber'.symm.trans hy
    rw [finiteNumber_le_finiteNumber, Int.cast_le] at h ⊢
    exact nearest_mono h
  · cases hfloat.symm.trans hp
    cases hnumber.symm.trans hx
    cases hq.symm.trans (hexact'.symm.trans hy)
    exact nearest_le_toNumber hq h
  · cases hfloat'.symm.trans hq
    cases hnumber'.symm.trans hy
    cases hp.symm.trans (hexact.symm.trans hx)
    exact toNumber_le_nearest hp h
  · cases hp.symm.trans (hexact.symm.trans hx)
    cases hq.symm.trans (hexact'.symm.trans hy)
    exact h

/-- A float that is a number comes from a number. -/
theorem number_of_toFloat64 {a : Value} {fa : Float} {p : Extended} (h : toFloat64 a = some fa)
    (hp : toNumber fa = some p) :
    ∃ x, a.number = some x := by
  rcases toFloat64_cases h with ⟨n, -, hnumber⟩ | hexact
  · exact ⟨_, hnumber⟩
  · exact ⟨p, hexact.trans hp⟩

theorem standIn_lt_of_lt (ha : toFloat64 a = some fa) (hb : toFloat64 b = some fb) (h : fa < fb) :
    StandIn (· < ·) a b := by
  obtain ⟨p, q, hp, hq, hlt⟩ := (lt_iff fa fb).mp h
  obtain ⟨x, hx⟩ := number_of_toFloat64 ha hp
  obtain ⟨y, hy⟩ := number_of_toFloat64 hb hq
  refine ⟨x, y, hx, hy, ?_⟩
  by_contra hge
  exact absurd (toFloat64_mono hb ha hy hx hq hp (not_lt.mp hge)) (not_le.mpr hlt)

theorem compareFloats_of_toFloat64 (ha : toFloat64 a = some fa) (hb : toFloat64 b = some fb) :
    compareFloats a b = fa - fb := by
  rw [compareFloats, ha, hb]

/-- A difference that is not zero comes from two numbers. -/
theorem toFloat64_of_compareFloats_ne (h : compareFloats a b < 0 ∨ 0 < compareFloats a b) :
    ∃ fa fb, toFloat64 a = some fa ∧ toFloat64 b = some fb := by
  cases ha : toFloat64 a with
  | none => simp [compareFloats, ha, not_zero_lt_zero] at h
  | some fa =>
    cases hb : toFloat64 b with
    | none => simp [compareFloats, ha, hb, not_zero_lt_zero] at h
    | some fb => exact ⟨fa, fb, rfl, rfl⟩

theorem standIn_of_compareFloats_pos (h : 0 < compareFloats a b) : StandIn (· > ·) a b := by
  obtain ⟨fa, fb, ha, hb⟩ := toFloat64_of_compareFloats_ne (Or.inr h)
  rw [compareFloats_of_toFloat64 ha hb, zero_lt_sub] at h
  obtain ⟨y, x, hy, hx, hlt⟩ := standIn_lt_of_lt hb ha h.1
  exact ⟨x, y, hx, hy, hlt⟩

theorem standIn_of_compareFloats_neg (h : compareFloats a b < 0) : StandIn (· < ·) a b := by
  obtain ⟨fa, fb, ha, hb⟩ := toFloat64_of_compareFloats_ne (Or.inl h)
  rw [compareFloats_of_toFloat64 ha hb, sub_lt_zero] at h
  exact standIn_lt_of_lt ha hb h.1

/-- An exact number is its float. -/
theorem toFloat64_of_exact {a : Value} (h : a.Exact) :
    ∃ fa, toFloat64 a = some fa ∧ toNumber fa = a.number := by
  cases a with
  | int n | int64 n =>
    refine ⟨_, rfl, ?_⟩
    rw [toNumber_ofInt (natAbs_toInt_le n), nearest_of_natAbs_le h]
    rfl
  | float64 x => exact ⟨x, rfl, rfl⟩
  | _ => cases h

def ToldApart (a b : Value) : Prop :=
  ∃ fa fb, toFloat64 a = some fa ∧ toFloat64 b = some fb ∧
    (toNumber fa = toNumber fb → a.number = b.number)

theorem toldApart_of_exact (ha : a.Exact) (hb : b.Exact) : ToldApart a b := by
  obtain ⟨fa, hfa, hna⟩ := toFloat64_of_exact ha
  obtain ⟨fb, hfb, hnb⟩ := toFloat64_of_exact hb
  exact ⟨fa, fb, hfa, hfb, fun heq => hna.symm.trans (heq.trans hnb)⟩

/-- Floats in the order `≤` come from numbers in that order if these are told apart. -/
theorem standIn_le_of_le (ha : toFloat64 a = some fa) (hb : toFloat64 b = some fb)
    (heq : toNumber fa = toNumber fb → a.number = b.number) (h : fa ≤ fb) :
    StandIn (· ≤ ·) a b := by
  obtain ⟨p, q, hp, hq, hle⟩ := (le_iff fa fb).mp h
  rcases hle.lt_or_eq with hlt | rfl
  · obtain ⟨x, y, hx, hy, hxy⟩ := standIn_lt_of_lt ha hb ((lt_iff fa fb).mpr ⟨p, q, hp, hq, hlt⟩)
    exact ⟨x, y, hx, hy, hxy.le⟩
  · obtain ⟨x, hx⟩ := number_of_toFloat64 ha hp
    have hy : b.number = some x := (heq (hp.trans hq.symm)).symm.trans hx
    exact ⟨x, x, hx, hy, le_rfl⟩

theorem standIn_of_zero_le_compareFloats (hapart : ToldApart a b) (h : 0 ≤ compareFloats a b) :
    StandIn (· ≥ ·) a b := by
  obtain ⟨fa, fb, ha, hb, heq⟩ := hapart
  rw [compareFloats_of_toFloat64 ha hb, zero_le_sub] at h
  obtain ⟨y, x, hy, hx, hle⟩ := standIn_le_of_le hb ha (fun h => (heq h.symm).symm) h.1
  exact ⟨x, y, hx, hy, hle⟩

theorem standIn_of_compareFloats_le_zero (hapart : ToldApart a b) (h : compareFloats a b ≤ 0) :
    StandIn (· ≤ ·) a b := by
  obtain ⟨fa, fb, ha, hb, heq⟩ := hapart
  rw [compareFloats_of_toFloat64 ha hb, sub_le_zero] at h
  exact standIn_le_of_le ha hb heq h.1

theorem number_eq_of_standIn (hge : StandIn (· ≥ ·) a b) (hle : StandIn (· ≤ ·) a b) :
    a.number = b.number := by
  obtain ⟨x, y, hx, hy, hyx⟩ := hge
  obtain ⟨x', y', hx', hy', hxy⟩ := hle
  cases hx.symm.trans hx'
  cases hy.symm.trans hy'
  rw [hx, hy, le_antisymm hxy hyx]

/-- The difference of one finite float from itself is zero. -/
theorem compareFloats_zero {r : ℚ} (ha : toFloat64 a = some fa) (hb : toFloat64 b = some fb)
    (hfa : toNumber fa = some (finiteNumber r)) (hfb : toNumber fb = some (finiteNumber r)) :
    0 ≤ compareFloats a b ∧ compareFloats a b ≤ 0 := by
  have hnumber := toNumber_sub_ne_none hfa hfb
  rw [compareFloats_of_toFloat64 ha hb, zero_le_sub, sub_le_zero, le_iff, le_iff]
  exact ⟨⟨⟨_, _, hfb, hfa, le_rfl⟩, hnumber⟩, ⟨_, _, hfa, hfb, le_rfl⟩, hnumber⟩

/-- Numbers with one float are told apart by neither operator, so both are right only if the
numbers are equal. -/
theorem number_eq_of_sound (ha : toFloat64 a = some fa) (hb : toFloat64 b = some fb)
    (hge : 0 ≤ compareFloats a b → StandIn (· ≥ ·) a b)
    (hle : compareFloats a b ≤ 0 → StandIn (· ≤ ·) a b) (heq : toNumber fa = toNumber fb) :
    a.number = b.number := by
  by_cases hfinite : ∃ r, toNumber fa = some (finiteNumber r)
  · obtain ⟨r, hr⟩ := hfinite
    obtain ⟨habove, hbelow⟩ := compareFloats_zero ha hb hr (heq.symm.trans hr)
    exact number_eq_of_standIn (hge habove) (hle hbelow)
  · -- integers have finite floats, so these are floats already
    have hexact : ∀ {v : Value} {f : Float}, toFloat64 v = some f → toNumber f = toNumber fa →
        v.number = toNumber f := by
      intro v f hv hf
      rcases toFloat64_cases hv with ⟨n, hn, -⟩ | hnumber
      · exact absurd ⟨_, hf.symm.trans hn⟩ hfinite
      · exact hnumber
    rw [hexact ha rfl, hexact hb heq.symm, heq]

theorem toFloat64_of_number {v : Value} {x : Extended} (h : v.number = some x) :
    ∃ f, toFloat64 v = some f := by
  cases v with
  | int | int64 | float64 => exact ⟨_, rfl⟩
  | _ => cases h

/-- Both operators are right just for numbers that are told apart as floats. -/
theorem sound_iff_toldApart (a b : Value) :
    (0 ≤ compareFloats a b → StandIn (· ≥ ·) a b) ∧
      (compareFloats a b ≤ 0 → StandIn (· ≤ ·) a b) ↔ ToldApart a b := by
  constructor
  · rintro ⟨hge, hle⟩
    obtain ⟨fa, fb, ha, hb⟩ : ∃ fa fb, toFloat64 a = some fa ∧ toFloat64 b = some fb := by
      by_contra hnone
      -- the difference is zero, and the operators would be wrong
      have hzero : compareFloats a b = 0 := by
        unfold compareFloats
        split
        · exact absurd ⟨_, _, by assumption, by assumption⟩ hnone
        · rfl
      obtain ⟨x, y, hx, hy, -⟩ := hge (by rw [hzero]; exact zero_le_zero)
      obtain ⟨fa, ha⟩ := toFloat64_of_number hx
      obtain ⟨fb, hb⟩ := toFloat64_of_number hy
      exact hnone ⟨fa, fb, ha, hb⟩
    exact ⟨fa, fb, ha, hb, number_eq_of_sound ha hb hge hle⟩
  · intro hapart
    exact ⟨standIn_of_zero_le_compareFloats hapart, standIn_of_compareFloats_le_zero hapart⟩

theorem Value.HoldsInteger.exact {a : Value} (h : a.HoldsInteger) :
    a.Exact ∧ ∃ z : ℤ, a.number = some (finiteNumber z) := by
  cases a with
  | int n | int64 n => exact ⟨le_of_lt h, n.toInt, rfl⟩
  | float64 x =>
    obtain ⟨z, -, hz⟩ := h
    exact ⟨trivial, z, hz⟩
  | _ => cases h

/-- A difference that is neither above nor below zero is one of equal numbers. -/
theorem compareFloats_zero_iff (ha : a.HoldsInteger) (hb : b.HoldsInteger) :
    0 ≤ compareFloats a b ∧ compareFloats a b ≤ 0 ↔ a.number = b.number := by
  obtain ⟨hexact, z, hz⟩ := ha.exact
  obtain ⟨hexact', -⟩ := hb.exact
  constructor
  · rintro ⟨hge, hle⟩
    have hapart := toldApart_of_exact hexact hexact'
    exact number_eq_of_standIn (standIn_of_zero_le_compareFloats hapart hge)
      (standIn_of_compareFloats_le_zero hapart hle)
  · intro heq
    obtain ⟨fa, hfa, hna⟩ := toFloat64_of_exact hexact
    obtain ⟨fb, hfb, hnb⟩ := toFloat64_of_exact hexact'
    exact compareFloats_zero hfa hfb (hna.trans hz) (hnb.trans (heq.symm.trans hz))

/-- Equality of numbers also compares their types. -/
theorem equal_iff (ha : a.HoldsInteger) (hb : b.HoldsInteger) :
    a.equal b = .ok true ↔ a.SameType b ∧ a.number = b.number := by
  have hint : ∀ n m : Int64, (n == m) = true ↔
      some (finiteNumber n.toInt) = some (finiteNumber m.toInt) := by
    intro n m
    rw [beq_iff_eq, Option.some.injEq, finiteNumber_inj, Int.cast_inj, Int64.toInt_inj]
  cases a with
  | int n =>
    cases b with
    | int m => simpa [Value.equal, Value.SameType, Value.number] using hint n m
    | int64 | float64 => simp [Value.equal, Value.SameType]
    | _ => cases hb
  | int64 n =>
    cases b with
    | int | float64 => simp [Value.equal, Value.SameType]
    | int64 m => simpa [Value.equal, Value.SameType, Value.number] using hint n m
    | _ => cases hb
  | float64 x =>
    cases b with
    | int | int64 => simp [Value.equal, Value.SameType]
    | float64 y =>
      obtain ⟨z, -, hz⟩ := ha
      have hbeq : (x == y) = true ↔ toNumber x = toNumber y := by
        rw [beq_iff]
        constructor
        · rintro ⟨p, hx, hy⟩
          rw [hx, hy]
        · intro heq
          exact ⟨_, hz, heq.symm.trans hz⟩
      simpa [Value.equal, Value.SameType, Value.number] using hbeq
    | _ => cases hb
  | _ => cases ha

def Sound (key operator : String) (rel : Extended → Extended → Prop) (expected val : Value) :
    Prop :=
  matchCondition ⟨key, operator, expected⟩ val = .ok true → StandIn rel val expected

theorem matchCondition_greaterThan :
    matchCondition ⟨key, operatorGreaterThan, expected⟩ val =
      .ok (0 < compareFloats val expected) := by
  rfl

theorem matchCondition_lessThan :
    matchCondition ⟨key, operatorLessThan, expected⟩ val =
      .ok (compareFloats val expected < 0) := by
  rfl

theorem matchCondition_greaterThanOrEqual :
    matchCondition ⟨key, operatorGreaterThanOrEqual, expected⟩ val =
      .ok (0 ≤ compareFloats val expected) := by
  rfl

theorem matchCondition_lessThanOrEqual :
    matchCondition ⟨key, operatorLessThanOrEqual, expected⟩ val =
      .ok (compareFloats val expected ≤ 0) := by
  rfl

theorem matchCondition_equals :
    matchCondition ⟨key, operatorEquals, expected⟩ val = val.equal expected := by
  rfl

/-- Where no condition panics, `AND` is the conjunction of the results and `OR` the
disjunction. -/
theorem evaluateConditions_eq {conditions : List Condition} {ruleCtx : RuleContext}
    {answer : Condition → Bool}
    (h : ∀ c ∈ conditions, matchCondition c (ruleCtx c.key) = .ok (answer c))
    (conjunction : String) :
    (toUpper id conjunction = conjunctionAnd →
      evaluateConditions conditions conjunction ruleCtx = .ok (conditions.all answer)) ∧
    (toUpper id conjunction = conjunctionOr →
      evaluateConditions conditions conjunction ruleCtx = .ok (conditions.any answer)) := by
  have hother : conjunctionAnd ≠ conjunctionOr := by decide
  constructor
  · intro hand
    rw [evaluateConditions, hand, if_neg hother, if_pos rfl]
    exact search_eq false _ answer h
  · intro hor
    rw [evaluateConditions, hor, if_pos rfl]
    exact search_eq true _ answer h

theorem ok_decide_eq_ok_true_iff (p : Prop) [Decidable p] :
    (.ok (decide p) : Except String Bool) = .ok true ↔ p := by
  rw [Except.ok.injEq, decide_eq_true_iff]

/-- Above and below are always right. Above or equal and below or equal are right just for
numbers that are told apart as floats, such as integers up to 2 ^ 53. For integers below 2 ^ 53
they agree with equality unless equal numbers have different types. The rules are the
conjunction or the disjunction of their conditions. -/
theorem rule_comparison_laws (key : String) (expected val : Value) (conditions : List Condition)
    (ruleCtx : RuleContext) :
    Sound key operatorGreaterThan (· > ·) expected val ∧
    Sound key operatorLessThan (· < ·) expected val ∧
    (Sound key operatorGreaterThanOrEqual (· ≥ ·) expected val ∧
      Sound key operatorLessThanOrEqual (· ≤ ·) expected val ↔ ToldApart val expected) ∧
    (val.Exact ∧ expected.Exact → ToldApart val expected) ∧
    (val.HoldsInteger ∧ expected.HoldsInteger →
      ((matchCondition ⟨key, operatorGreaterThanOrEqual, expected⟩ val = .ok true ∧
          matchCondition ⟨key, operatorLessThanOrEqual, expected⟩ val = .ok true ↔
        matchCondition ⟨key, operatorEquals, expected⟩ val = .ok true) ↔
          val.SameType expected ∨ val.number ≠ expected.number)) ∧
    matchCondition ⟨key, operatorNotEquals, expected⟩ val =
      (matchCondition ⟨key, operatorEquals, expected⟩ val).map not ∧
    ∀ answer : Condition → Bool,
      (∀ c ∈ conditions, matchCondition c (ruleCtx c.key) = .ok (answer c)) →
      ∀ conjunction,
        (toUpper id conjunction = conjunctionAnd →
          evaluateConditions conditions conjunction ruleCtx = .ok (conditions.all answer)) ∧
        (toUpper id conjunction = conjunctionOr →
          evaluateConditions conditions conjunction ruleCtx = .ok (conditions.any answer)) := by
  refine ⟨?_, ?_, ?_, fun hexact => toldApart_of_exact hexact.1 hexact.2, ?_, rfl,
    fun answer h conjunction => evaluateConditions_eq h conjunction⟩
  · intro h
    rw [matchCondition_greaterThan, ok_decide_eq_ok_true_iff] at h
    exact standIn_of_compareFloats_pos h
  · intro h
    rw [matchCondition_lessThan, ok_decide_eq_ok_true_iff] at h
    exact standIn_of_compareFloats_neg h
  · rw [Sound, Sound, matchCondition_greaterThanOrEqual, matchCondition_lessThanOrEqual,
      ok_decide_eq_ok_true_iff, ok_decide_eq_ok_true_iff]
    exact sound_iff_toldApart val expected
  · rintro ⟨hval, hexpected⟩
    rw [matchCondition_greaterThanOrEqual, matchCondition_lessThanOrEqual, matchCondition_equals,
      ok_decide_eq_ok_true_iff, ok_decide_eq_ok_true_iff,
      compareFloats_zero_iff hval hexpected, equal_iff hval hexpected]
    tauto

theorem ages_compare :
    StandIn (· ≥ ·) (.int 21) (.int 18) ∧
      ((matchCondition ⟨"age", operatorGreaterThanOrEqual, .int 18⟩ (.int 21) = .ok true ∧
          matchCondition ⟨"age", operatorLessThanOrEqual, .int 18⟩ (.int 21) = .ok true) ↔
        matchCondition ⟨"age", operatorEquals, .int 18⟩ (.int 21) = .ok true) := by
  obtain ⟨-, -, hsound, hexact, hequal, -⟩ :=
    rule_comparison_laws "age" (.int 18) (.int 21) [] (fun _ => .nil)
  have hval : (21 : Int64).toInt.natAbs < 2 ^ 53 := by decide
  have hexpected : (18 : Int64).toInt.natAbs < 2 ^ 53 := by decide
  have hapart := hexact ⟨le_of_lt hval, le_of_lt hexpected⟩
  refine ⟨(hsound.mpr hapart).1 (by decide +kernel), ?_⟩
  exact (hequal ⟨hval, hexpected⟩).mpr (Or.inl trivial)

def aged (operator : String) : Condition := ⟨"age", operator, .float64 18⟩

/-- A missing value is above or equal and below or equal to any number, and an integer is both
for an equal float but is not equal to it. -/
theorem missing_value_compares :
    validateConditions [aged operatorGreaterThanOrEqual, aged operatorLessThanOrEqual,
      aged operatorEquals] = .ok () ∧
    matchCondition (aged operatorGreaterThanOrEqual) .nil = .ok true ∧
    ¬ StandIn (· ≥ ·) .nil (.float64 18) ∧
    matchCondition (aged operatorGreaterThanOrEqual) (.int 18) = .ok true ∧
    matchCondition (aged operatorLessThanOrEqual) (.int 18) = .ok true ∧
    matchCondition (aged operatorEquals) (.int 18) = .ok false := by
  refine ⟨rfl, by decide +kernel, ?_, by decide +kernel, by decide +kernel, rfl⟩
  rintro ⟨x, -, hx, -⟩
  cases hx

end Photon.Features
