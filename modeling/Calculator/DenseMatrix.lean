import Calculator.Power
/-!
Matrices row by row, over any scalars. A matrix declares its shape, which need not be that of its rows: every
operation checks it first.
-/
namespace Calculator

/-- Scalars of a matrix, with what elimination asks of them. -/
class Scalar (α : Type) extends Add α, Sub α, Mul α, Div α, Neg α where
  zero : α
  one : α
  /-- What a sum of products starts from. -/
  emptySum : α
  /-- The order of the absolute values of two scalars. -/
  compareAbs : α → α → Ordering
  /-- Whether the absolute value is too small for a pivot. -/
  isTiny : α → Bool
  isZero : α → Bool

/-- Pivots with a smaller absolute value are too small. -/
def pivotThreshold : Float := 1e-12

/-- A sum of doubles starts from negative zero; what is not a number counts as greater than infinity. -/
instance : Scalar Float where
  zero := 0
  one := 1
  emptySum := -0.0
  compareAbs x y := compare x.abs.toBits y.abs.toBits
  isTiny x := x.abs < pivotThreshold
  isZero x := x == 0

/-- A matrix. -/
structure DenseMatrix (α : Type) where
  rows : Nat
  cols : Nat
  data : List (List α)

/-- An operation on matrices. -/
inductive MatrixOperation
  | multiply | add | subtract | inverse | determinant | solve
deriving DecidableEq, Repr

namespace MatrixOperation

def all : List MatrixOperation := [multiply, add, subtract, inverse, determinant, solve]

def name : MatrixOperation → String
  | multiply => "multiply"
  | add => "add"
  | subtract => "subtract"
  | inverse => "inverse"
  | determinant => "determinant"
  | solve => "solve"

def operands : MatrixOperation → Nat
  | multiply | add | subtract => 2
  | inverse | determinant | solve => 1

end MatrixOperation

/-- Numbers of rows and columns. -/
structure Shape where
  rows : Nat
  cols : Nat
deriving DecidableEq, Repr

def Shape.text (s : Shape) : String := s!"{s.rows}x{s.cols}"

/-- Two operands that do not fit. -/
inductive Mismatch
  | entrywise (a b : Shape)
  | product (a b : Shape)
  | constants (a : Shape) (count : Nat)
deriving DecidableEq, Repr

def Mismatch.text : Mismatch → String
  | entrywise a b => s!"{a.text} and {b.text}"
  | product a b => s!"{a.text} times {b.text}"
  | constants a count => s!"{a.text} system with {count} constants"

/-- Why an operation on matrices has no result. -/
inductive MatrixError
  | mismatch (what : Mismatch)
  | singular
  | notSquare
  | ragged
  | operands (operation : MatrixOperation) (given : Nat)
  | missingConstants
deriving DecidableEq, Repr

def MatrixError.message : MatrixError → String
  | mismatch what => s!"Matrix dimensions do not match: {what.text}"
  | singular => "Matrix is singular"
  | notSquare => "Matrix must be square"
  | ragged => "Rows have inconsistent lengths"
  | operands operation given =>
    s!"{operation.name} expects {operation.operands} matrices, got {given}"
  | missingConstants => "Missing constants vector for solve"

/-- The end of a program that answers nothing more. -/
structure Crash where
  message? : Option String
deriving DecidableEq, Repr

namespace Crash

def message (c : Crash) : String := c.message?.getD "Worker panicked"

/-- There is no room for a row. -/
def noRoom : Crash := ⟨some "capacity overflow"⟩

/-- A place lies outside of a table. -/
def outside : Crash := ⟨some "index out of bounds"⟩

end Crash

/-- The outcome of an operation, which may crash. -/
abbrev Attempt (α : Type) := Except Crash (Except MatrixError α)

namespace DenseMatrix

variable {α : Type}

/-- The most entries that a row can have: it takes less than 2 ^ 63 bytes, eight for each. -/
def maxRow : Nat := pow2 60 - 1

def shape (m : DenseMatrix α) : Shape := ⟨m.rows, m.cols⟩

/-- Whether the rows have the declared shape. -/
def isWellShaped (m : DenseMatrix α) : Bool :=
  m.data.length == m.rows && m.data.all fun row => row.length == m.cols

def isSquare (m : DenseMatrix α) : Bool := m.rows == m.cols

/-- The matrix of these rows, if they are equally long. -/
def ofRows (rows : List (List α)) : Except MatrixError (DenseMatrix α) :=
  let cols := (rows.head?.map List.length).getD 0
  if rows.all fun row => row.length == cols then .ok ⟨rows.length, cols, rows⟩ else .error .ragged

/-- Refuses a matrix whose rows have not the declared shape. -/
def checkShape (m : DenseMatrix α) : Except MatrixError Unit :=
  if m.isWellShaped then .ok () else .error .ragged

def checkSquare (m : DenseMatrix α) : Except MatrixError Unit :=
  if m.isSquare then .ok () else .error .notSquare

variable [Scalar α]

def identityRows (n : Nat) : List (List α) :=
  (List.range n).map fun i => (List.range n).map fun j => if i = j then Scalar.one else Scalar.zero

def identity (n : Nat) : DenseMatrix α := ⟨n, n, identityRows n⟩

/-- The sum of the products of entries at one place, from left to right. -/
def dot (xs ys : List α) : α :=
  (List.zipWith (· * ·) xs ys).foldl (· + ·) Scalar.emptySum

def column (rows : List (List α)) (j : Nat) : List α :=
  rows.map fun row => row.getD j Scalar.zero

/-- The product, however long its rows are. -/
def multiply (a b : DenseMatrix α) : Except MatrixError (DenseMatrix α) := do
  a.checkShape
  b.checkShape
  if a.cols ≠ b.rows then throw (.mismatch (.product a.shape b.shape))
  return ⟨a.rows, b.cols, a.data.map fun row => (List.range b.cols).map fun j => dot row (column b.data j)⟩

/-- Whether there is a row of the product to fill, but no room for one. Rows are filled behind all checks, and a factor
without rows may declare any number of columns. -/
def lacksRoom (a b : DenseMatrix α) : Bool :=
  a.isWellShaped && b.isWellShaped && a.cols == b.rows && a.rows != 0 && decide (maxRow < b.cols)

/-- The product, for whose rows there has to be room. -/
def product (a b : DenseMatrix α) : Attempt (DenseMatrix α) :=
  if a.lacksRoom b then .error .noRoom else .ok (a.multiply b)

/-- The matrix of the values of `f` at the entries of two matrices. -/
def entrywise (f : α → α → α) (a b : DenseMatrix α) : Except MatrixError (DenseMatrix α) := do
  a.checkShape
  b.checkShape
  if a.shape ≠ b.shape then throw (.mismatch (.entrywise a.shape b.shape))
  return ⟨a.rows, a.cols, List.zipWith (List.zipWith f) a.data b.data⟩

def add (a b : DenseMatrix α) : Except MatrixError (DenseMatrix α) := entrywise (· + ·) a b

def subtract (a b : DenseMatrix α) : Except MatrixError (DenseMatrix α) := entrywise (· - ·) a b

end DenseMatrix
end Calculator
