import Calculator.DenseMatrix.Request
import Calculator.Wire
/-! Requests for operations on matrices, and their results, as JSON. -/
namespace Calculator.Wire

instance denseMatrix : Wire (DenseMatrix Float) where
  encode m := .ofMembers [("rows", encode m.rows), ("cols", encode m.cols), ("data", encode m.data)]
  decode? v := do
    let fields ← Fields.of? 3 v
    return {
      rows := ← fields.required 0 "rows"
      cols := ← fields.required 1 "cols"
      data := ← fields.required 2 "data" }

instance matrixOperation : Wire MatrixOperation where
  encode op := .string op.name
  decode? := ofNames? MatrixOperation.all MatrixOperation.name

instance matrixRequest : Wire MatrixRequest where
  encode r := .ofMembers <|
    [("operation", encode r.operation), ("matrices", encode r.matrices)] ++ optionalMember "constants" r.constants
  decode? v := do
    let fields ← Fields.of? 3 v
    return {
      operation := ← fields.required 0 "operation"
      matrices := ← fields.required 1 "matrices"
      constants := ← fields.withDefault 2 "constants" none }

instance matrixResultKind : Wire MatrixResultKind where
  encode k := .string k.name
  decode? := ofNames? MatrixResultKind.all MatrixResultKind.name

/-- A result is sent without its form, and read as the first form that it can have. -/
instance matrixValue : Wire MatrixValue where
  encode
    | .matrix m => encode m
    | .scalar x => encode x
    | .vector xs => encode xs
  decode? v :=
    (decode? v).map .matrix <|> (decode? v).map .scalar <|> (decode? v).map .vector

instance matrixOutput : Wire MatrixOutput where
  encode o := .ofMembers [("result", encode o.result), ("type", encode o.kind)]
  decode? v := do
    let fields ← Fields.of? 2 v
    return { result := ← fields.required 0 "result", kind := ← fields.required 1 "type" }

end Calculator.Wire
