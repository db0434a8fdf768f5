import Calculator.DenseMatrix.Elimination
/-!
The operations as loops over a table that is changed in place. Every entry is read and written by its place; a place
outside of the table stops the loop.
-/
namespace Calculator

/-- Why a loop stops before its end. -/
inductive Stop
  /-- A place lies outside of the table. -/
  | outside
  /-- A pivot is too small. -/
  | tinyPivot
  /-- A row is too long. -/
  | noRoom
deriving DecidableEq, Repr

namespace Table

variable {α β : Type}

def read (xs : List β) (i : Nat) : Except Stop β :=
  match xs[i]? with
  | some x => .ok x
  | none => .error .outside

def write (xs : List β) (i : Nat) (x : β) : Except Stop (List β) :=
  if i < xs.length then .ok (xs.set i x) else .error .outside

def exchange (xs : List β) (i j : Nat) : Except Stop (List β) := do
  let x ← read xs i
  let y ← read xs j
  write (← write xs i y) j x

/-- What is behind the first `n`. -/
def behind (xs : List β) (n : Nat) : Except Stop (List β) :=
  if n ≤ xs.length then .ok (xs.drop n) else .error .outside

def entry (t : List (List α)) (i j : Nat) : Except Stop α := do
  let row ← read t i
  read row j

def setEntry (t : List (List α)) (i j : Nat) (x : α) : Except Stop (List (List α)) := do
  let row ← read t i
  write t i (← write row j x)

/-- The numbers from `low` up to `high`. -/
def between (low high : Nat) : List Nat := List.range' low (high - low)

variable [Scalar α]

/-- The place of the largest entry of a column from its diagonal on; of equally large ones the last counts. -/
def pivotPlace (t : List (List α)) (col : Nat) : Except Stop Nat :=
  (between (col + 1) t.length).foldlM (fun best i => do
    let x ← entry t best col
    let y ← entry t i col
    return if Scalar.compareAbs x y = .gt then best else i) col

def usablePivot (t : List (List α)) (col : Nat) : Except Stop Nat := do
  let place ← pivotPlace t col
  if Scalar.isTiny (← entry t place col) then throw .tinyPivot else return place

/-- Takes `factor` times row `col` from a row, from column `low` up to `high`. -/
def subtractRow (factor : α) (low high col : Nat) (t : List (List α)) (row : Nat) : Except Stop (List (List α)) :=
  (between low high).foldlM (fun t k => do
    let x ← entry t row k
    let y ← entry t col k
    setEntry t row k (x - factor * y)) t

/-- Eliminates a column from the rows below row `col`. -/
def eliminateBelow (n width : Nat) (t : List (List α)) (col : Nat) : Except Stop (List (List α)) :=
  (between (col + 1) n).foldlM (fun t row => do
    let x ← entry t row col
    let pivot ← entry t col col
    subtractRow (x / pivot) col width col t row) t

/-- Rows change places only if they are different ones, and the sign changes with them. -/
def exchangeSigned (state : α × List (List α)) (i j : Nat) : Except Stop (α × List (List α)) :=
  if i = j then return state else return (-state.1, ← exchange state.2 i j)

def determinantStep (n : Nat) (state : α × List (List α)) (col : Nat) : Except Stop (α × List (List α)) := do
  let place ← usablePivot state.2 col
  let state ← exchangeSigned state place col
  let pivot ← entry state.2 col col
  return (state.1 * pivot, ← eliminateBelow n n state.2 col)

def determinantLoop (rows : List (List α)) (n : Nat) : Except Stop (α × List (List α)) :=
  (List.range n).foldlM (determinantStep n) (Scalar.one, rows)

def solveStep (n : Nat) (t : List (List α)) (col : Nat) : Except Stop (List (List α)) := do
  let place ← usablePivot t col
  eliminateBelow n (n + 1) (← exchange t place col) col

/-- The elimination of a system whose rows end with their constants. -/
def solveLoop (rows : List (List α)) (n : Nat) : Except Stop (List (List α)) :=
  (List.range n).foldlM (solveStep n) rows

/-- What an operation answers after its loops. -/
def answer (tiny : Except MatrixError β) : Except Stop β → ExceptT MatrixError (Except Crash) β
  | .ok x => pure x
  | .error .tinyPivot => liftM tiny
  | .error .outside => (.error .outside : Except Crash _)
  | .error .noRoom => (.error .noRoom : Except Crash _)

end Table

namespace DenseMatrix

open Table

variable {α : Type} [Scalar α]

end DenseMatrix
end Calculator
