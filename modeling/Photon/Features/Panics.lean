import Photon.Features.Evaluation

/-!
When the evaluation of rules panics. The validator accepts arrays and objects as values to
compare with, and Go panics when it compares two of them. The evaluation of an accepted
configuration returns just if no such comparison is reached.
-/

namespace Photon.Features

open Photon.Lib

def Value.clashes : Value → Value → Bool
  | .slice _, .slice _ => true
  | .mapping _, .mapping _ => true
  | .foreign t _, .foreign t' _ => t = t' ∧ t.comparable = false
  | _, _ => false

theorem equal_failed_iff (a b : Value) : Failed (a.equal b) ↔ a.clashes b = true := by
  cases a <;> cases b <;> simp [Value.equal, Value.clashes]
  rename_i t _ t' _
  split_ifs with heq hcomparable <;> simp_all

/-- An item that cannot be compared stands before every item that is equal. -/
def ClashesFirst (val : Value) (items : List Value) : Prop :=
  ∃ before item behind, items = before ++ item :: behind ∧
    (∀ x ∈ before, x.equal val = .ok false) ∧ item.clashes val = true

theorem existsItem_failed_iff (val : Value) (items : List Value) :
    Failed (existsItem val items) ↔ ClashesFirst val items := by
  rw [existsItem, search_failed_iff]
  simp [equal_failed_iff, ClashesFirst]

def Condition.Panics (c : Condition) (val : Value) : Prop :=
  (c.operator = operatorEquals ∨ c.operator = operatorNotEquals) ∧ val.clashes c.value = true ∨
  (c.operator = operatorIn ∨ c.operator = operatorNotIn) ∧
    ∃ items, c.value.asSlice = some items ∧ ClashesFirst val items

private theorem operators_ne :
    operatorIn ≠ operatorEquals ∧ operatorIn ≠ operatorNotEquals ∧
      operatorNotIn ≠ operatorEquals ∧ operatorNotIn ≠ operatorNotEquals := by
  decide

theorem matchCondition_failed_iff (c : Condition) (val : Value) :
    Failed (matchCondition c val) ↔ c.Panics val := by
  obtain ⟨hin, hin', hnotIn, hnotIn'⟩ := operators_ne
  unfold matchCondition Condition.Panics
  split_ifs with hequals hnotEquals hIn hNotIn
  · rw [equal_failed_iff]
    simp [hequals, hin.symm, hnotIn.symm]
  · rw [failed_map, equal_failed_iff]
    simp [hnotEquals, hin'.symm, hnotIn'.symm]
  · cases hslice : c.value.asSlice with
    | none => simp [hIn, hin, hin']
    | some items => simp [hIn, hin, hin', existsItem_failed_iff]
  · cases hslice : c.value.asSlice with
    | none => simp [hNotIn, hnotIn, hnotIn']
    | some items => simp [hNotIn, hnotIn, hnotIn', existsItem_failed_iff]
  all_goals simp [hequals, hnotEquals, hIn, hNotIn]

variable {rules : Rules}

theorem validateRules_ok (h : validateRules rules = .ok ()) :
    rules.conjunction = conjunctionAnd ∨ rules.conjunction = conjunctionOr ∨
      rules.conditions = [] := by
  rw [validateRules] at h
  split_ifs at h with hempty hconjunction
  rw [validConjunctions] at hconjunction
  simp only [List.cons_append, List.nil_append, List.mem_cons, List.not_mem_nil, or_false]
    at hconjunction
  rcases hconjunction with hand | hor | hnone
  · exact Or.inl hand
  · exact Or.inr (Or.inl hor)
  · refine Or.inr (Or.inr ?_)
    rw [not_and, not_lt] at hempty
    exact List.eq_nil_of_length_eq_zero (Nat.le_zero.mp (hempty hnone))

@[simp] theorem wrap_eq_ok_iff {α : Type} {text : String} {result : Except String α} {a : α} :
    wrap text result = .ok a ↔ result = .ok a := by
  cases result <;> simp [wrap, Except.mapError]

/-- The rules of an accepted configuration were accepted. -/
theorem validateFeatureConfig_rules {decoder : Decoder} {json : String} {config : FeatureConfig}
    (h : validateFeatureConfig decoder json = .ok ())
    (hconfig : decoder.unmarshal json = .ok config) {name : String} {feature : Feature}
    (hfeature : (name, feature) ∈ config.features) (hrules : feature.rules = some rules) :
    validateRules rules = .ok () := by
  obtain ⟨_, -, h⟩ := bind_eq_ok_iff.mp h
  obtain ⟨decoded, hdecoded, h⟩ := bind_eq_ok_iff.mp h
  rw [wrap_eq_ok_iff] at hdecoded h
  obtain rfl : config = decoded := Except.ok.inj (hconfig.symm.trans hdecoded)
  have hchecked := wrap_eq_ok_iff.mp (forM_eq_ok_iff.mp h _ hfeature)
  obtain ⟨_, -, hchecked⟩ := bind_eq_ok_iff.mp hchecked
  obtain ⟨_, -, hchecked⟩ := bind_eq_ok_iff.mp hchecked
  obtain ⟨_, -, hchecked⟩ := bind_eq_ok_iff.mp hchecked
  obtain ⟨_, hrulesChecked, -⟩ := bind_eq_ok_iff.mp hchecked
  rwa [hrules] at hrulesChecked

/-- The evaluation goes on behind a condition only if it holds under `AND`, and only if it
does not hold under `OR`. -/
theorem evaluateConditions_failed_iff (h : validateRules rules = .ok ()) (ruleCtx : RuleContext) :
    Failed (evaluateConditions rules.conditions rules.conjunction ruleCtx) ↔
      ∃ before c behind, rules.conditions = before ++ c :: behind ∧
        (∀ p ∈ before, matchCondition p (ruleCtx p.key) =
          .ok (rules.conjunction = conjunctionAnd)) ∧ c.Panics (ruleCtx c.key) := by
  rcases validateRules_ok h with hand | hor | hnone
  · have htest : evaluateConditions rules.conditions rules.conjunction ruleCtx =
        search false (fun c => matchCondition c (ruleCtx c.key)) rules.conditions := by
      rw [evaluateConditions, hand]
      rfl
    rw [htest, search_failed_iff, hand]
    simp [matchCondition_failed_iff]
  · have htest : evaluateConditions rules.conditions rules.conjunction ruleCtx =
        search true (fun c => matchCondition c (ruleCtx c.key)) rules.conditions := by
      rw [evaluateConditions, hor]
      rfl
    have hother : decide (conjunctionOr = conjunctionAnd) = false := by decide
    rw [htest, search_failed_iff, hor]
    simp [matchCondition_failed_iff, hother]
  · have hreturns : ∃ b, evaluateConditions [] rules.conjunction ruleCtx = .ok b := by
      rw [evaluateConditions]
      split_ifs
      · exact ⟨false, rfl⟩
      · exact ⟨true, rfl⟩
      · exact ⟨false, rfl⟩
    rw [returns_iff_not_failed] at hreturns
    simp [hnone, hreturns]

/-- Evaluating the rules of an accepted configuration returns just if the evaluation does not
reach a condition that compares two values of one uncomparable type. -/
theorem evaluation_returns_iff (decoder : Decoder) (json : String) (config : FeatureConfig)
    (haccepted : validateFeatureConfig decoder json = .ok ())
    (hconfig : decoder.unmarshal json = .ok config) (name : String) (feature : Feature)
    (hfeature : (name, feature) ∈ config.features) (rules : Rules)
    (hrules : feature.rules = some rules) (ruleCtx : RuleContext) :
    (∃ b, evaluateConditions rules.conditions rules.conjunction ruleCtx = .ok b) ↔
      ¬ ∃ before c behind, rules.conditions = before ++ c :: behind ∧
        (∀ p ∈ before, matchCondition p (ruleCtx p.key) =
          .ok (rules.conjunction = conjunctionAnd)) ∧ c.Panics (ruleCtx c.key) := by
  have hchecked := validateFeatureConfig_rules haccepted hconfig hfeature hrules
  rw [returns_iff_not_failed, evaluateConditions_failed_iff hchecked]

def ruledFeature (rules : Rules) : Feature where
  enabled := true
  schedule := none
  datatype := "STRING"
  defaultValue := .string "off"
  variants := [⟨"on", 100⟩]
  rules := some rules
  rollouts := [⟨wildCardValue, wildCardValue, wildCardValue, 100⟩]

def ruledDecoder (rules : Rules) : Decoder where
  upper := id
  validateSchema := fun _ => .ok ()
  unmarshal := fun _ => .ok ⟨⟨["web"], ["production"], ["eu"]⟩, [("beta", ruledFeature rules)]⟩
  parseRFC3339 := fun _ => .error "no time"

theorem validateTarget_wildCard (what plural : String) (allowed : List String) :
    validateTarget what plural wildCardValue allowed = .ok () := by
  rw [validateTarget, if_neg (by simp)]

theorem validateRollout_wildCard (attributes : Attributes) :
    validateRollout [⟨wildCardValue, wildCardValue, wildCardValue, 100⟩] attributes = .ok () := by
  apply forM_eq_ok_iff.mpr
  intro rollout hmem
  obtain rfl := List.mem_singleton.mp hmem
  simp only [validateTarget_wildCard, bind, Except.bind]
  rw [if_neg (by norm_num)]

theorem validateFeatureConfig_ruled (h : validateRules rules = .ok ()) (json : String) :
    validateFeatureConfig (ruledDecoder rules) json = .ok () := by
  have hdatatype : validateDatatype (ruledDecoder rules) "STRING" = .ok () := by
    have hvalid : toUpper id "STRING" ∈ validDatatypes := by decide
    exact if_pos hvalid
  have hvariants : validateVariants [⟨"on", 100⟩] = .ok () := by
    norm_num [validateVariants, sumWeights, bind, Except.bind]
  have hfeature : ∀ attributes, validateFeature (ruledDecoder rules) attributes
      (ruledFeature rules) = .ok () := by
    intro attributes
    simp only [validateFeature, ruledFeature, hdatatype, ifSet, ifAny, List.length_singleton,
      gt_iff_lt, zero_lt_one, if_true, hvariants, h, validateRollout_wildCard, bind, Except.bind]
  refine bind_eq_ok_iff.mpr ⟨(), wrap_eq_ok_iff.mpr rfl, ?_⟩
  refine bind_eq_ok_iff.mpr ⟨_, wrap_eq_ok_iff.mpr rfl, wrap_eq_ok_iff.mpr ?_⟩
  apply forM_eq_ok_iff.mpr
  intro entry hmem
  obtain rfl := List.mem_singleton.mp hmem
  exact wrap_eq_ok_iff.mpr (hfeature _)

theorem validateRules_of_conditions {conditions : List Condition}
    (h : ∀ c ∈ conditions, validateCondition c = .ok ()) :
    validateRules ⟨conjunctionAnd, conditions⟩ = .ok () := by
  have hset : conjunctionAnd ≠ "" := by decide
  rw [validateRules, if_neg (by simp [hset]), if_neg (by simp [validConjunctions])]
  exact forM_eq_ok_iff.mpr h

/-- Equality accepts every value but nil. -/
theorem validateCondition_equals {key : String} {value : Value} (hkey : key ≠ "")
    (hvalue : value.isNil = false) : validateCondition ⟨key, operatorEquals, value⟩ = .ok () := by
  simp [validateCondition, hkey, hvalue, validOperators, operatorEquals, operatorIn,
    operatorNotIn]

/-- One condition that compares two strings. -/
theorem string_condition_returns :
    ∃ b, evaluateConditions [⟨"tier", operatorEquals, .string "gold"⟩] conjunctionAnd
      (fun _ => .string "gold") = .ok b := by
  have hrules : validateRules ⟨conjunctionAnd, [⟨"tier", operatorEquals, .string "gold"⟩]⟩ =
      .ok () := by
    apply validateRules_of_conditions
    intro c hc
    obtain rfl := List.mem_singleton.mp hc
    exact validateCondition_equals (by decide) rfl
  refine (evaluation_returns_iff (ruledDecoder _) "" _ (validateFeatureConfig_ruled hrules "") rfl
    "beta" _ List.mem_cons_self _ rfl _).mpr ?_
  rintro ⟨before, c, behind, hsplit, -, hpanics⟩
  have hc : c ∈ before ++ c :: behind := List.mem_append_right _ List.mem_cons_self
  rw [← hsplit] at hc
  obtain rfl := List.mem_singleton.mp hc
  simp [Condition.Panics, Value.clashes, Value.asSlice] at hpanics

/-- A condition with an array is accepted, and panics on an array. -/
theorem array_condition_panics :
    validateFeatureConfig
        (ruledDecoder ⟨conjunctionAnd, [⟨"groups", operatorEquals, .slice []⟩]⟩) "" = .ok () ∧
      evaluateConditions [⟨"groups", operatorEquals, .slice []⟩] conjunctionAnd
        (fun _ => .slice []) =
        .error "runtime error: comparing uncomparable type []interface \x7b\x7d" := by
  refine ⟨validateFeatureConfig_ruled ?_ "", rfl⟩
  apply validateRules_of_conditions
  intro c hc
  obtain rfl := List.mem_singleton.mp hc
  exact validateCondition_equals (by decide) rfl

end Photon.Features
