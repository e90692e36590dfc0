import Mathlib.Tactic

/-!
Feature configurations and the checks that accept them. The schema check and the decoding of
the JSON text are the library's; what the checks on the content read is modelled here. The
weights and percentages are numbers in exact arithmetic. What a condition compares with is a
Go value of any type.
-/

namespace Photon.Features

/-- A type of Go values beyond those that the evaluation tells apart. -/
structure ForeignType where
  name : String
  comparable : Bool
deriving DecidableEq

inductive Value where
  | nil
  | bool (b : Bool)
  | int (n : Int64)
  | int64 (n : Int64)
  | float64 (x : Float)
  | string (s : String)
  | slice (items : List Value)
  | mapping (entries : List (String × Value))
  | foreign (type : ForeignType) (content : Nat)

def Value.isNil : Value → Bool
  | .nil => true
  | _ => false

def Value.asSlice : Value → Option (List Value)
  | .slice items => some items
  | _ => none

structure Attributes where
  platforms : List String
  environments : List String
  regions : List String

structure Variant where
  name : String
  weight : ℚ

structure Condition where
  key : String
  operator : String
  value : Value

structure Rules where
  conjunction : String
  conditions : List Condition

structure Rollout where
  platform : String
  environment : String
  region : String
  percentage : ℚ

structure Schedule where
  start : String
  stop : String

structure Feature where
  enabled : Bool
  schedule : Option Schedule
  datatype : String
  defaultValue : Value
  variants : List Variant
  rules : Option Rules
  rollouts : List Rollout

/-- The features stand in the order in which the map is walked. -/
structure FeatureConfig where
  attributes : Attributes
  features : List (String × Feature)

def wildCardValue : String := "*"

def conjunctionAnd : String := "AND"
def conjunctionOr : String := "OR"

def operatorEquals : String := "EQUALS"
def operatorNotEquals : String := "NOT_EQUALS"
def operatorGreaterThan : String := "GREATER_THAN"
def operatorLessThan : String := "LESS_THAN"
def operatorGreaterThanOrEqual : String := "GREATER_THAN_OR_EQUAL"
def operatorLessThanOrEqual : String := "LESS_THAN_OR_EQUAL"
def operatorIn : String := "IN"
def operatorNotIn : String := "NOT_IN"

def validConjunctions : List String := [conjunctionAnd, conjunctionOr]

def validOperators : List String :=
  [operatorEquals, operatorNotEquals, operatorGreaterThan, operatorLessThan,
    operatorGreaterThanOrEqual, operatorLessThanOrEqual, operatorIn, operatorNotIn]

def validDatatypes : List String := ["STRING", "INTEGER", "FLOAT", "BOOLEAN"]

/-- `unicode.ToUpper`. Of the letters beyond ASCII two have ASCII letters for their upper case;
the others are in a table. -/
def toUpperRune (table : Char → Char) (c : Char) : Char :=
  if c = 'ı' then 'I' else if c = 'ſ' then 'S'
  else if c.toNat < 128 then c.toUpper else table c

def toUpper (table : Char → Char) (s : String) : String :=
  String.ofList (s.toList.map (toUpperRune table))

def showStrings (texts : List String) : String := "[" ++ " ".intercalate texts ++ "]"

/-- `%.2f`, which rounds a half to the even digit. -/
def showHundredths (q : ℚ) : String :=
  let m := (q * 100).floor.toNat
  let n := if q * 100 - m > 1 / 2 ∨ q * 100 - m = 1 / 2 ∧ m % 2 = 1 then m + 1 else m
  let cents := n % 100
  toString (n / 100) ++ "." ++ (if cents < 10 then "0" else "") ++ toString cents

/-- What the checks leave to libraries: the schema, the decoder, the RFC 3339 parser and the
table of the upper case letters. -/
structure Decoder where
  upper : Char → Char
  validateSchema : String → Except String Unit
  unmarshal : String → Except String FeatureConfig
  parseRFC3339 : String → Except String Int

def wrap {α : Type} (text : String) (result : Except String α) : Except String α :=
  result.mapError (text ++ ·)

variable (decoder : Decoder)

def parseTime (value : String) : Except String (Option Int) :=
  if value = "" then .ok none
  else wrap "invalid time format: " ((decoder.parseRFC3339 value).map some)

def validateDatatype (datatype : String) : Except String Unit :=
  if toUpper decoder.upper datatype ∈ validDatatypes then .ok ()
  else .error ("invalid datatype '" ++ toUpper decoder.upper datatype ++ "'")

def validateSchedule (schedule : Schedule) : Except String Unit := do
  let start ← wrap "invalid start time: " (parseTime decoder schedule.start)
  let stop ← wrap "invalid end time: " (parseTime decoder schedule.stop)
  match start, stop with
  | some s, some e => if e < s then .error "start time must be before end time" else .ok ()
  | _, _ => .ok ()

def sumWeights (sum : ℚ) : List Variant → Except String ℚ
  | [] => .ok sum
  | v :: rest =>
    if v.weight < 0 then .error "variant weight must be non-negative"
    else if v.weight > 100 then .error "variant weight must be less than or equal to 100"
    else sumWeights (sum + v.weight) rest

def validateVariants (variants : List Variant) : Except String Unit := do
  let sum ← sumWeights 0 variants
  if |sum - 100| > 1 / 1000 then
    .error ("total variant weight must sum to 100, got " ++ showHundredths sum)
  else .ok ()

def validateCondition (condition : Condition) : Except String Unit :=
  if condition.key = "" then .error "condition key cannot be empty"
  else if condition.value.isNil then
    .error ("condition value cannot be nil for key '" ++ condition.key ++ "'")
  else if condition.operator ∉ validOperators then
    .error ("invalid operator '" ++ condition.operator ++ "' in condition for key '" ++
      condition.key ++ "'")
  else if (condition.operator = operatorIn ∨ condition.operator = operatorNotIn) ∧
      condition.value.asSlice = none then
    .error ("condition with operator '" ++ condition.operator ++ "' must have an array value")
  else .ok ()

def validateConditions (conditions : List Condition) : Except String Unit :=
  conditions.forM validateCondition

def validateRules (rules : Rules) : Except String Unit :=
  if rules.conjunction = "" ∧ rules.conditions.length > 0 then
    .error "conjunction cannot be empty when conditions are present"
  else if rules.conjunction ∉ validConjunctions ++ [""] then
    .error ("conjunction must be one of " ++ showStrings (validConjunctions ++ [""]))
  else validateConditions rules.conditions

/-- One of the three tests of a rollout; an empty list allows every value. -/
def validateTarget (what plural value : String) (allowed : List String) : Except String Unit :=
  if allowed.length > 0 ∧ value ∉ allowed ∧ value ≠ wildCardValue then
    .error ("rollout " ++ what ++ " '" ++ value ++ "' not in allowed " ++ plural ++ ": " ++
      showStrings allowed)
  else .ok ()

def validateRollout (rollouts : List Rollout) (attributes : Attributes) : Except String Unit :=
  rollouts.forM fun rollout => do
    validateTarget "environment" "environments" rollout.environment attributes.environments
    validateTarget "region" "regions" rollout.region attributes.regions
    validateTarget "platform" "platforms" rollout.platform attributes.platforms
    if rollout.percentage < 0 ∨ rollout.percentage > 100 then
      .error "rollout percentage must be between 0 and 100"
    else .ok ()

def ifSet {α : Type} (check : α → Except String Unit) : Option α → Except String Unit
  | none => .ok ()
  | some a => check a

def ifAny {α : Type} (check : List α → Except String Unit) (l : List α) : Except String Unit :=
  if l.length > 0 then check l else .ok ()

def validateFeature (attributes : Attributes) (feature : Feature) :
    Except String Unit := do
  validateDatatype decoder feature.datatype
  ifSet (validateSchedule decoder) feature.schedule
  ifAny validateVariants feature.variants
  ifSet validateRules feature.rules
  ifAny (validateRollout · attributes) feature.rollouts

def applyContentValidations (config : FeatureConfig) : Except String Unit :=
  config.features.forM fun entry =>
    wrap ("feature '" ++ entry.1 ++ "': ") (validateFeature decoder config.attributes entry.2)

def validateFeatureConfig (configJSON : String) : Except String Unit := do
  wrap "schema validation error: " (decoder.validateSchema configJSON)
  let featureConfig ← wrap "failed to unmarshal feature config: " (decoder.unmarshal configJSON)
  wrap "content validation error: " (applyContentValidations decoder featureConfig)

end Photon.Features
