import Calculator.DenseMatrix.Elimination
/-! Operations on matrices that are asked for by name, and the services that carry them out. -/
namespace Calculator

/-- Matrices and what to do with them. -/
structure MatrixRequest where
  operation : MatrixOperation
  matrices : List (DenseMatrix Float)
  constants : Option (List Float) := none

/-- The result of an operation on matrices. -/
inductive MatrixValue
  | matrix (m : DenseMatrix Float)
  | scalar (x : Float)
  | vector (xs : List Float)

/-- The form of a result. -/
inductive MatrixResultKind
  | matrix | scalar | vector
deriving DecidableEq, Repr

namespace MatrixResultKind

def all : List MatrixResultKind := [matrix, scalar, vector]

def name : MatrixResultKind → String
  | matrix => "matrix"
  | scalar => "scalar"
  | vector => "vector"

end MatrixResultKind

def MatrixValue.kind : MatrixValue → MatrixResultKind
  | matrix _ => .matrix
  | scalar _ => .scalar
  | vector _ => .vector

/-- A result and its form. -/
structure MatrixOutput where
  result : MatrixValue
  kind : MatrixResultKind

def MatrixOutput.of (v : MatrixValue) : MatrixOutput := ⟨v, v.kind⟩

/-- What carries out operations on matrices. -/
structure MatrixService where
  multiply : DenseMatrix Float → DenseMatrix Float → Attempt (DenseMatrix Float)
  add : DenseMatrix Float → DenseMatrix Float → Attempt (DenseMatrix Float)
  subtract : DenseMatrix Float → DenseMatrix Float → Attempt (DenseMatrix Float)
  inverse : DenseMatrix Float → Attempt (DenseMatrix Float)
  determinant : DenseMatrix Float → Attempt Float
  solve : DenseMatrix Float → List Float → Attempt (List Float)

namespace MatrixService

def dense : MatrixService where
  multiply a b := a.product b
  add a b := .ok (a.add b)
  subtract a b := .ok (a.subtract b)
  inverse m := .ok m.inverse
  determinant m := .ok m.determinant
  solve m constants := .ok (m.solve constants)

end MatrixService

namespace MatrixRequest

def run (request : MatrixRequest) (service : MatrixService) : Attempt MatrixOutput :=
  let tooFew : Attempt MatrixOutput := .ok (.error (.operands request.operation request.matrices.length))
  let output {α : Type} (form : α → MatrixValue) (outcome : Attempt α) : Attempt MatrixOutput :=
    outcome.map fun result => result.map fun x => MatrixOutput.of (form x)
  match request.operation, request.matrices with
  | .multiply, a :: b :: _ => output .matrix (service.multiply a b)
  | .add, a :: b :: _ => output .matrix (service.add a b)
  | .subtract, a :: b :: _ => output .matrix (service.subtract a b)
  | .inverse, m :: _ => output .matrix (service.inverse m)
  | .determinant, m :: _ => output .scalar (service.determinant m)
  | .solve, m :: _ =>
    match request.constants with
    | some constants => output .vector (service.solve m constants)
    | none => .ok (.error .missingConstants)
  | _, _ => tooFew

end MatrixRequest
end Calculator
