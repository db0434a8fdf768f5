import Calculator.Batch
import Calculator.Wire.Evaluation
/-! Requests to evaluate many texts, their results and their progress, as JSON. -/
namespace Calculator.Wire

instance batchRequest : Wire Batch.Request where
  encode r := .ofMembers [("expressions", encode r.expressions), ("options", encode r.options)]
  decode? v := do
    let fields ← Fields.of? 2 v
    return {
      expressions := ← fields.required 0 "expressions"
      options := ← fields.withDefault 1 "options" {} }

/-- An outcome is read as a value if it can be, and as an error otherwise. -/
instance batchItem : Wire Batch.Item where
  encode
    | .value result => encode result
    | .error message => .ofMembers [("error", encode message)]
  decode? v :=
    match decode? v with
    | some result => some (.value result)
    | none => ((v.get? "error").bind decode?).map .error

instance batchResult : Wire Batch.Result where
  encode r := .ofMembers [("results", encode r.results)]
  decode? v := do
    let fields ← Fields.of? 1 v
    return ⟨← fields.required 0 "results"⟩

instance batchProgress : Wire Batch.Progress where
  encode p := .ofMembers [("progress", encode p.progress), ("completed", encode p.completed), ("total", encode p.total)]
  decode? v := do
    let fields ← Fields.of? 3 v
    return {
      progress := ← fields.required 0 "progress"
      completed := ← fields.required 1 "completed"
      total := ← fields.required 2 "total" }

end Calculator.Wire
