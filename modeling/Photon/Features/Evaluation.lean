import Photon.Features.Config
import Photon.Lib.Binary64
import Photon.Lib.Fallible

/-!
The evaluation of a feature's rules. A condition compares the value of the rule context with
its own: equality is that of Go interfaces, which panics on two values of one uncomparable
type, and order is that of the difference as floats, which is zero for what is no number.
-/

namespace Photon.Features

open Photon.Lib

def uncomparable (type : String) : String :=
  "runtime error: comparing uncomparable type " ++ type

/-- `a == b` for two interfaces; the error is the panic. -/
def Value.equal : Value → Value → Except String Bool
  | .nil, .nil => .ok true
  | .bool a, .bool b => .ok (a == b)
  | .int a, .int b => .ok (a == b)
  | .int64 a, .int64 b => .ok (a == b)
  | .float64 a, .float64 b => .ok (a == b)
  | .string a, .string b => .ok (a == b)
  | .slice _, .slice _ => .error (uncomparable "[]interface \x7b\x7d")
  | .mapping _, .mapping _ => .error (uncomparable "map[string]interface \x7b\x7d")
  | .foreign t a, .foreign t' b =>
    if t ≠ t' then .ok false
    else if t.comparable then .ok (a == b)
    else .error (uncomparable t.name)
  | _, _ => .ok false

def toFloat64 : Value → Option Float
  | .int n => some (Binary64.ofInt n.toInt)
  | .int64 n => some (Binary64.ofInt n.toInt)
  | .float64 x => some x
  | _ => none

def compareFloats (a b : Value) : Float :=
  match toFloat64 a, toFloat64 b with
  | some fa, some fb => fa - fb
  | _, _ => 0

def existsItem (val : Value) (list : List Value) : Except String Bool :=
  search true (fun item => item.equal val) list

def matchCondition (c : Condition) (val : Value) : Except String Bool :=
  if c.operator = operatorEquals then val.equal c.value
  else if c.operator = operatorNotEquals then (val.equal c.value).map not
  else if c.operator = operatorIn then
    match c.value.asSlice with
    | none => .ok false
    | some list => existsItem val list
  else if c.operator = operatorNotIn then
    match c.value.asSlice with
    | none => .ok false
    | some list => (existsItem val list).map not
  else if c.operator = operatorGreaterThan then .ok (compareFloats val c.value > 0)
  else if c.operator = operatorLessThan then .ok (compareFloats val c.value < 0)
  else if c.operator = operatorGreaterThanOrEqual then .ok (compareFloats val c.value ≥ 0)
  else if c.operator = operatorLessThanOrEqual then .ok (compareFloats val c.value ≤ 0)
  else .ok false

abbrev RuleContext := String → Value

/-- No table gives letters of the two words, so the conjunction is compared without one. -/
def evaluateConditions (conditions : List Condition) (conjunction : String)
    (ruleCtx : RuleContext) : Except String Bool :=
  let test := fun condition => matchCondition condition (ruleCtx condition.key)
  if toUpper id conjunction = conjunctionOr then search true test conditions
  else if toUpper id conjunction = conjunctionAnd then search false test conditions
  else .ok false

end Photon.Features
