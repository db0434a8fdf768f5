import Calculator.Evaluation.Request
/-! Evaluating many texts, each on its own. -/
namespace Calculator.Batch

/-- Texts to evaluate with the same options. -/
structure Request where
  expressions : List String
  options : Evaluation.Options := {}

/-- The outcome of one text. -/
inductive Item
  | value (result : Evaluation.Result)
  | error (message : String)

/-- The outcomes in the order of the texts. -/
structure Result where
  results : List Item

/-- How far the evaluation has come. -/
structure Progress where
  progress : Float
  completed : Nat
  total : Nat

/-- The percentage that `completed` is of `total`, to the nearest whole number. -/
def percentage (completed total : Nat) : Float :=
  (Float.ofNat completed / Float.ofNat total * 100).round

namespace Request

def item (request : Request) (expression : String) : Item :=
  match (Evaluation.Request.mk expression request.options).run with
  | .ok result => .value result
  | .error error => .error error.message

def run (request : Request) : Result :=
  ⟨request.expressions.map request.item⟩

def reports (request : Request) : List Progress :=
  let total := request.expressions.length
  (List.range total).map fun i => ⟨percentage (i + 1) total, i + 1, total⟩

end Request
end Calculator.Batch
