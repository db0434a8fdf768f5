import Calculator.Evaluation.Request
import Calculator.Wire
/-! Requests to evaluate texts, and their results, as JSON. -/
namespace Calculator.Wire

instance angleUnit : Wire AngleUnit where
  encode u := .string u.name
  decode? := ofNames? AngleUnit.all AngleUnit.name

/-- Numbers of digits are below this bound: they have 32 bits. -/
def precisionBound : Nat := 4294967296

def precision? (fields : Fields) (place : Nat) (name : String) : Option Nat :=
  match fields.at? place name with
  | some v => natBelow? precisionBound v
  | none => some Evaluation.Context.defaultPrecision

open Evaluation in
instance evaluationOptions : Wire Options where
  encode o := .ofMembers <|
    [("precision", encode o.precision), ("angleMode", encode o.angle), ("usePrecisionMode", encode o.precise)] ++
      optionalMember "variables" o.values
  decode? v := do
    let fields ← Fields.of? 4 v
    return {
      precision := ← precision? fields 0 "precision"
      angle := ← fields.withDefault 1 "angleMode" .radians
      precise := ← fields.withDefault 2 "usePrecisionMode" false
      values := ← fields.withDefault 3 "variables" none }

open Evaluation in
instance evaluationRequest : Wire Evaluation.Request where
  encode r := .ofMembers [("expression", encode r.expression), ("options", encode r.options)]
  decode? v := do
    let fields ← Fields.of? 2 v
    return {
      expression := ← fields.required 0 "expression"
      options := ← fields.withDefault 1 "options" {} }

open Evaluation in
instance evaluationResult : Wire Evaluation.Result where
  encode r := .ofMembers [("value", encode r.value), ("formatted", encode r.formatted)]
  decode? v := do
    let fields ← Fields.of? 2 v
    return {
      value := ← fields.nullable 0 "value"
      formatted := ← fields.required 1 "formatted" }

end Calculator.Wire
