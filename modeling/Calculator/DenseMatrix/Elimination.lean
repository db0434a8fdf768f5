import Calculator.DenseMatrix
/-!
Elimination with the largest entry of a column as pivot. Each step takes the pivot's row away and the column
from the rows that are left, so that a step works on a smaller system of the same form.
-/
namespace Calculator.DenseMatrix

variable {α : Type} [Scalar α]

def lead (row : List α) : α := row.headD Scalar.zero

/-- The place of the row with the largest first entry, and that entry; of equally large ones the last counts. -/
def largestLead (best : Nat × α) (place : Nat) : List (List α) → Nat × α
  | [] => best
  | row :: rows =>
    largestLead (if Scalar.compareAbs best.2 (lead row) = .gt then best else (place, lead row)) (place + 1) rows

/-- The first row and the others after the pivot's row has changed places with the first, and whether it has. -/
structure Pivoted (α : Type) where
  exchanged : Bool
  pivotRow : List α
  others : List (List α)

/-- Puts the pivot's row in front of `rest`; the row that was there takes its place. -/
def pivot (first : List α) (rest : List (List α)) : Pivoted α :=
  match (largestLead (0, lead first) 1 rest).1 with
  | 0 => ⟨false, first, rest⟩
  | i + 1 =>
    match rest[i]? with
    | some row => ⟨true, row, rest.set i first⟩
    | none => ⟨false, first, rest⟩

/-- The row less `factor` times the pivot's row. -/
def subtractScaled (factor : α) (row pivotRow : List α) : List α :=
  List.zipWith (fun x y => x - factor * y) row pivotRow

/-- The row behind its first entry, after that entry has been eliminated. -/
def eliminateLead (pivotRow row : List α) : List α :=
  subtractScaled (lead row / lead pivotRow) row.tail pivotRow.tail

/-- The pivot's row of each step from its pivot on, and whether the step exchanged rows; none if a pivot is tiny. -/
def eliminate (rows : List (List α)) : Option (List (Bool × List α)) :=
  match rows with
  | [] => some []
  | first :: rest =>
    let step := pivot first rest
    if Scalar.isTiny (lead step.pivotRow) then none
    else do
      let later ← eliminate (step.others.map (eliminateLead step.pivotRow))
      return (step.exchanged, step.pivotRow) :: later
termination_by rows.length
decreasing_by
  simp only [List.length_map, List.length_cons]
  show (pivot first rest).others.length < rest.length + 1
  unfold pivot
  split
  · exact Nat.lt_succ_self _
  · split <;> simp

/-- The product of the pivots, with the other sign for each exchange. -/
def pivotProduct (steps : List (Bool × List α)) : α :=
  steps.foldl (fun product (exchanged, row) => (if exchanged then -product else product) * lead row) Scalar.one

/-- The determinant; it is zero if a pivot is tiny. -/
def determinant (m : DenseMatrix α) : Except MatrixError α := do
  m.checkShape
  m.checkSquare
  match eliminate m.data with
  | some steps => return pivotProduct steps
  | none => return Scalar.zero

/-- The solution of a triangular system whose rows start with their pivot and end with their constant. -/
def backSubstitute : List (List α) → List α
  | [] => []
  | row :: rows =>
    let xs := backSubstitute rows
    let constant := row.getLastD Scalar.zero
    (constant - dot row.tail xs) / lead row :: xs

def solve (m : DenseMatrix α) (constants : List α) : Except MatrixError (List α) := do
  m.checkShape
  m.checkSquare
  if constants.length ≠ m.rows then throw (.mismatch (.constants m.shape constants.length))
  match eliminate (List.zipWith (fun row c => row ++ [c]) m.data constants) with
  | some steps => return backSubstitute (steps.map Prod.snd)
  | none => throw .singular

/-- The row behind its first entry, after that entry has been cleared by a pivot's row that starts with one. -/
def clearLead (pivotTail row : List α) : List α :=
  if Scalar.isZero (lead row) then row.tail else subtractScaled (lead row) row.tail pivotTail

/-- Clears column after column in all rows: in those of earlier steps, `done`, and in those that are left. -/
def clearColumns (done rows : List (List α)) : Option (List (List α)) :=
  match rows with
  | [] => some done
  | first :: rest =>
    let step := pivot first rest
    if Scalar.isTiny (lead step.pivotRow) then none
    else
      let pivotTail := step.pivotRow.tail.map (· / lead step.pivotRow)
      clearColumns (done.map (clearLead pivotTail) ++ [pivotTail]) (step.others.map (clearLead pivotTail))
termination_by rows.length
decreasing_by
  simp only [List.length_map, List.length_cons]
  show (pivot first rest).others.length < rest.length + 1
  unfold pivot
  split
  · exact Nat.lt_succ_self _
  · split <;> simp

/-- The inverse, by clearing the columns of the matrix beside the identity. -/
def inverse (m : DenseMatrix α) : Except MatrixError (DenseMatrix α) := do
  m.checkShape
  m.checkSquare
  match clearColumns [] (List.zipWith (· ++ ·) m.data (identityRows m.rows)) with
  | some rows => return ⟨m.rows, m.rows, rows⟩
  | none => throw .singular

end Calculator.DenseMatrix
