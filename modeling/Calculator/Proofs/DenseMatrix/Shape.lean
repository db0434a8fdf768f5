import Calculator.DenseMatrix.Request
import Calculator.Proofs.Except
/-!
The checks of operations on matrices, one equation for each operation, and the shapes that their results declare. A
service that computes by itself crashes only where it has no room for a row of a product.
-/
namespace Calculator

namespace DenseMatrix
variable {α : Type} {a b c m : DenseMatrix α}

section
variable {β : Type} {run : Except MatrixError β}

theorem checkShape_bind : (m.checkShape >>= fun _ => run) = if m.isWellShaped then run else .error .ragged := by
  unfold checkShape
  split <;> rfl

theorem checkSquare_bind : (m.checkSquare >>= fun _ => run) = if m.isSquare then run else .error .notSquare := by
  unfold checkSquare
  split <;> rfl

end

theorem entrywise_eq (f : α → α → α) : entrywise f a b =
    if a.isWellShaped then
      if b.isWellShaped then
        if a.shape = b.shape then .ok ⟨a.rows, a.cols, List.zipWith (List.zipWith f) a.data b.data⟩
        else .error (.mismatch (.entrywise a.shape b.shape))
      else .error .ragged
    else .error .ragged := by
  unfold entrywise
  rw [checkShape_bind, checkShape_bind]
  by_cases hshape : a.shape = b.shape
  · rw [if_neg (not_not_intro hshape), if_pos hshape]
    rfl
  · rw [if_pos hshape, if_neg hshape]
    rfl

theorem shape_of_entrywise {f : α → α → α} (hc : entrywise f a b = .ok c) : c.shape = a.shape := by
  simp only [entrywise_eq, ite_error_eq_ok, Except.ok.injEq] at hc
  obtain ⟨-, -, -, rfl⟩ := hc
  rfl

variable [Scalar α]

theorem multiply_eq : a.multiply b =
    if a.isWellShaped then
      if b.isWellShaped then
        if a.cols = b.rows then
          .ok ⟨a.rows, b.cols, a.data.map fun row => (List.range b.cols).map fun j => dot row (column b.data j)⟩
        else .error (.mismatch (.product a.shape b.shape))
      else .error .ragged
    else .error .ragged := by
  unfold multiply
  rw [checkShape_bind, checkShape_bind]
  by_cases hinner : a.cols = b.rows
  · rw [if_neg (not_not_intro hinner), if_pos hinner]
    rfl
  · rw [if_pos hinner, if_neg hinner]
    rfl

theorem product_eq_error_iff {crash : Crash} : a.product b = .error crash ↔ a.lacksRoom b = true ∧ crash = .noRoom := by
  unfold product
  by_cases hroom : a.lacksRoom b = true
  · rw [if_pos hroom, Except.error.injEq]
    exact ⟨fun h => ⟨hroom, h.symm⟩, fun h => h.2.symm⟩
  · rw [if_neg hroom]
    exact iff_of_false (by simp) fun h => hroom h.1

theorem multiply_of_product {result : Except MatrixError (DenseMatrix α)} (h : a.product b = .ok result) :
    a.multiply b = result := by
  unfold product at h
  split at h
  · cases h
  · exact Except.ok.inj h

theorem inverse_eq : m.inverse =
    if m.isWellShaped then
      if m.isSquare then
        match clearColumns [] (List.zipWith (· ++ ·) m.data (identityRows m.rows)) with
        | some rows => .ok ⟨m.rows, m.rows, rows⟩
        | none => .error .singular
      else .error .notSquare
    else .error .ragged := by
  unfold inverse
  rw [checkShape_bind, checkSquare_bind]
  rfl

theorem determinant_eq : m.determinant =
    if m.isWellShaped then
      if m.isSquare then
        match eliminate m.data with
        | some steps => .ok (pivotProduct steps)
        | none => .ok Scalar.zero
      else .error .notSquare
    else .error .ragged := by
  unfold determinant
  rw [checkShape_bind, checkSquare_bind]
  rfl

theorem solve_eq {constants : List α} : m.solve constants =
    if m.isWellShaped then
      if m.isSquare then
        if constants.length = m.rows then
          match eliminate (List.zipWith (fun row c => row ++ [c]) m.data constants) with
          | some steps => .ok (backSubstitute (steps.map Prod.snd))
          | none => .error .singular
        else .error (.mismatch (.constants m.shape constants.length))
      else .error .notSquare
    else .error .ragged := by
  unfold solve
  rw [checkShape_bind, checkSquare_bind]
  by_cases hcount : constants.length = m.rows
  · rw [if_neg (not_not_intro hcount), if_pos hcount]
    rfl
  · rw [if_pos hcount, if_neg hcount]
    rfl

theorem shape_of_multiply (hc : a.multiply b = .ok c) : c.shape = ⟨a.rows, b.cols⟩ := by
  simp only [multiply_eq, ite_error_eq_ok, Except.ok.injEq] at hc
  obtain ⟨-, -, -, rfl⟩ := hc
  rfl

theorem shape_of_inverse (hc : m.inverse = .ok c) : c.shape = m.shape := by
  simp only [inverse_eq, ite_error_eq_ok] at hc
  obtain ⟨-, hsquare, hrows⟩ := hc
  have hcols : m.rows = m.cols := beq_iff_eq.mp hsquare
  split at hrows
  · cases hrows
    exact congrArg (Shape.mk m.rows) hcols
  · cases hrows

end DenseMatrix

namespace MatrixRequest
variable {request : MatrixRequest} {output : MatrixOutput}

/-- Whether the request is for a product and there is no room for its rows. -/
def lacksRoom (request : MatrixRequest) : Bool :=
  match request.operation, request.matrices with
  | .multiply, a :: b :: _ => a.lacksRoom b
  | _, _ => false

/-- A service that computes by itself crashes for want of room, and for nothing else. -/
theorem run_dense_eq_error_iff {crash : Crash} :
    request.run .dense = .error crash ↔ request.lacksRoom = true ∧ crash = .noRoom := by
  obtain ⟨operation, matrices, constants⟩ := request
  have hanswered : ∀ outcome, (Except.ok outcome : Attempt MatrixOutput) = .error crash ↔ false = true ∧ crash = .noRoom :=
    fun outcome => iff_of_false (by simp) (by simp)
  cases operation with
  | multiply =>
    match matrices with
    | [] | [_] => exact hanswered _
    | a :: b :: _ => exact map_eq_error.trans DenseMatrix.product_eq_error_iff
  | add | subtract =>
    match matrices with
    | [] | [_] => exact hanswered _
    | _ :: _ :: _ => exact hanswered _
  | inverse | determinant =>
    match matrices with
    | [] => exact hanswered _
    | _ :: _ => exact hanswered _
  | solve =>
    match matrices with
    | [] => exact hanswered _
    | _ :: _ =>
      cases constants with
      | none => exact hanswered _
      | some constants => exact hanswered _

theorem exists_of_map_ok {α : Type} {form : α → MatrixValue} {attempt : Attempt α}
    (houtput : attempt.map (fun result => result.map fun x => MatrixOutput.of (form x)) = .ok (.ok output)) :
    ∃ x, attempt = .ok (.ok x) ∧ output.result = form x := by
  obtain ⟨outcome, hattempt, hmap⟩ := map_eq_ok.mp houtput
  obtain ⟨x, rfl, rfl⟩ := map_eq_ok.mp hmap
  exact ⟨x, hattempt, rfl⟩

/-- A matrix that an operation gives has as many rows as one operand and as many columns as one. -/
theorem exists_operands_of_run (hrun : request.run .dense = .ok (.ok output)) {c : DenseMatrix Float}
    (hc : output.result = .matrix c) : ∃ a ∈ request.matrices, ∃ b ∈ request.matrices, c.shape = ⟨a.rows, b.cols⟩ := by
  have hform : ∀ {attempt : Attempt (DenseMatrix Float)},
      attempt.map (fun result => result.map fun x => MatrixOutput.of (.matrix x)) = .ok (.ok output) →
        attempt = .ok (.ok c) := by
    intro attempt houtput
    obtain ⟨x, hx, hresult⟩ := exists_of_map_ok houtput
    cases hresult.symm.trans hc
    exact hx
  unfold run at hrun
  split at hrun
  · rename_i a b rest _ hmatrices
    exact ⟨a, by simp [hmatrices], b, by simp [hmatrices],
      DenseMatrix.shape_of_multiply (DenseMatrix.multiply_of_product (hform hrun))⟩
  · rename_i a b rest _ hmatrices
    exact ⟨a, by simp [hmatrices], a, by simp [hmatrices], DenseMatrix.shape_of_entrywise (Except.ok.inj (hform hrun))⟩
  · rename_i a b rest _ hmatrices
    exact ⟨a, by simp [hmatrices], a, by simp [hmatrices], DenseMatrix.shape_of_entrywise (Except.ok.inj (hform hrun))⟩
  · rename_i m rest _ hmatrices
    exact ⟨m, by simp [hmatrices], m, by simp [hmatrices], DenseMatrix.shape_of_inverse (Except.ok.inj (hform hrun))⟩
  · obtain ⟨x, -, hresult⟩ := exists_of_map_ok hrun
    cases hresult.symm.trans hc
  · split at hrun
    · obtain ⟨xs, -, hresult⟩ := exists_of_map_ok hrun
      cases hresult.symm.trans hc
    · cases hrun
  · cases hrun

end MatrixRequest
end Calculator
