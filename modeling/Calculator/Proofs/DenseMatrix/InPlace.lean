import Calculator.Proofs.DenseMatrix.Table
import Calculator.Proofs.DenseMatrix.Shape
/-!
The operations that change a table in place give what the operations on shrinking systems give. From this: which error
an operation answers, the shapes of its results, that a product crashes only for want of room, and that determinants and
solutions come from the same elimination.
-/
namespace Calculator.DenseMatrix

open Table

variable {α β : Type} [Scalar α] {a b m : DenseMatrix α} {constants : List α}

/-! ### The operations -/

section
variable {run refused : ExceptT MatrixError (Except Crash) β} {result : Except MatrixError β}

end

omit [Scalar α] in
/-- The rows of a square matrix. -/
theorem square_rows (hwell : m.isWellShaped) (hsquare : m.isSquare) :
    m.data.length = m.rows ∧ HasWidth m.rows m.data := by
  obtain ⟨hrows, hwidth⟩ := isWellShaped_iff.mp hwell
  have hcols : m.rows = m.cols := beq_iff_eq.mp hsquare
  exact ⟨hrows, hcols ▸ hwidth⟩

/-- The rows have the declared shape, and it is this one. -/
def HasShape (shape : Shape) (m : DenseMatrix α) : Prop := m.isWellShaped ∧ m.shape = shape

/-- An operation refuses ragged operands, only otherwise those that do not fit, and answers all others. -/
structure Answers (wellShaped fits : Prop) (misfit : MatrixError) (canBeSingular : Prop) (good : β → Prop)
    (result : Except MatrixError β) : Prop where
  ragged : result = .error .ragged ↔ ¬wellShaped
  misfit : result = .error misfit ↔ wellShaped ∧ ¬fits
  settled : wellShaped → fits → (∃ x, result = .ok x) ∨ canBeSingular ∧ result = .error .singular
  good : ∀ x, result = .ok x → good x

section
variable {wellShaped fits canBeSingular : Prop} {misfit : MatrixError} {good : β → Prop} {result : Except MatrixError β}

theorem answers_of_checks [Decidable wellShaped] [Decidable fits] (hragged : misfit ≠ .ragged)
    (hsingular : misfit ≠ .singular)
    (hresult : wellShaped → fits → (∃ x, result = .ok x ∧ good x) ∨ canBeSingular ∧ result = .error .singular) :
    Answers wellShaped fits misfit canBeSingular good
      (if wellShaped then if fits then result else .error misfit else .error .ragged) := by
  by_cases hwell : wellShaped
  · by_cases hfits : fits
    · rw [if_pos hwell, if_pos hfits]
      have hsettled := hresult hwell hfits
      rcases hsettled with ⟨x, rfl, hx⟩ | ⟨hcan, rfl⟩
      · exact {
          ragged := by simp [hwell]
          misfit := by simp [hfits]
          settled := fun _ _ => .inl ⟨x, rfl⟩
          good := fun y hy => Except.ok.inj hy ▸ hx }
      · exact {
          ragged := by simp [hwell]
          misfit := by simp [hfits, hsingular.symm]
          settled := fun _ _ => .inr ⟨hcan, rfl⟩
          good := by simp }
    · rw [if_pos hwell, if_neg hfits]
      exact {
        ragged := by simp [hwell, hragged]
        misfit := by simp [hwell, hfits]
        settled := fun _ h => absurd h hfits
        good := by simp }
  · rw [if_neg hwell]
    exact {
      ragged := by simp [hwell]
      misfit := by simp [hwell, hragged.symm]
      settled := fun h => absurd h hwell
      good := by simp }

end

theorem inverse_answers (m : DenseMatrix α) :
    Answers m.isWellShaped m.isSquare .notSquare True (HasShape m.shape) m.inverse := by
  rw [inverse_eq]
  refine answers_of_checks (by simp) (by simp) fun hwell hsquare => ?_
  obtain ⟨hrows, hwidth⟩ := square_rows hwell hsquare
  have hcount : (augment m.data (identityRows m.rows)).length = m.rows :=
    length_augment hrows (length_identityRows m.rows)
  have hwidth' : HasWidth (m.rows + (augment m.data (identityRows m.rows)).length)
      (augment m.data (identityRows m.rows)) := by
    rw [hcount]
    exact hwidth.augment (hasWidth_identityRows m.rows)
  cases hcleared : clearColumns [] (List.zipWith (· ++ ·) m.data (identityRows m.rows)) with
  | none => exact .inr ⟨trivial, rfl⟩
  | some rows =>
    have hnone : HasWidth (m.rows + (augment m.data (identityRows m.rows)).length) ([] : List (List α)) := by
      simp [HasWidth]
    obtain ⟨hlength, hcleared⟩ := shape_of_clearColumns hnone hwidth' hcleared
    have hcols : m.rows = m.cols := beq_iff_eq.mp hsquare
    refine .inl ⟨_, rfl, isWellShaped_iff.mpr ⟨?_, hcleared⟩, congrArg (Shape.mk m.rows) hcols⟩
    show rows.length = m.rows
    rw [hlength, hcount, List.length_nil, Nat.zero_add]

/-- A column beside as many columns as a word can count, but without rows. -/
example : product (⟨1, 0, [[]]⟩ : DenseMatrix Float) ⟨0, 18446744073709551615, []⟩ = .error .noRoom := rfl

/-! ### Determinants and solutions -/

section
variable {steps : List (Bool × List α)} (hwell : m.isWellShaped) (hsquare : m.isSquare)
include hwell hsquare

theorem determinant_of_none (hnone : eliminate m.data = none) : m.determinant = .ok Scalar.zero := by
  rw [determinant_eq, if_pos hwell, if_pos hsquare, hnone]

theorem determinant_of_some (hsome : eliminate m.data = some steps) : m.determinant = .ok (pivotProduct steps) := by
  rw [determinant_eq, if_pos hwell, if_pos hsquare, hsome]

theorem inverse_of_none (hnone : clearColumns [] (augment m.data (identityRows m.rows)) = none) :
    m.inverse = .error .singular := by
  rw [augment] at hnone
  rw [inverse_eq, if_pos hwell, if_pos hsquare, hnone]

theorem inverse_of_some {cleared : List (List α)}
    (hsome : clearColumns [] (augment m.data (identityRows m.rows)) = some cleared) :
    m.inverse = .ok ⟨m.rows, m.rows, cleared⟩ := by
  rw [augment] at hsome
  rw [inverse_eq, if_pos hwell, if_pos hsquare, hsome]

variable (hcount : constants.length = m.rows)
include hcount

theorem solve_of_none (hnone : eliminate (withConstants m.data constants) = none) :
    m.solve constants = .error .singular := by
  rw [withConstants] at hnone
  rw [solve_eq, if_pos hwell, if_pos hsquare, if_pos hcount, hnone]

theorem solve_of_some (hsome : eliminate (withConstants m.data constants) = some steps) :
    m.solve constants = .ok (backSubstitute (steps.map Prod.snd)) := by
  rw [withConstants] at hsome
  rw [solve_eq, if_pos hwell, if_pos hsquare, if_pos hcount, hsome]

/-- The constants have no part in the exchanges and the pivots. -/
theorem pivots_withConstants :
    (eliminate (withConstants m.data constants)).map pivots = (eliminate m.data).map pivots := by
  obtain ⟨hrows, hwidth⟩ := square_rows hwell hsquare
  rw [withConstants_eq]
  exact pivots_augment hwidth (Nat.le_of_eq hrows) (by rw [List.length_map, hcount, hrows])

theorem solve_eq_singular_iff : m.solve constants = .error .singular ↔ eliminate m.data = none := by
  have hpivots := pivots_withConstants hwell hsquare hcount
  cases hsteps : eliminate (withConstants m.data constants) with
  | none =>
    rw [hsteps] at hpivots
    exact iff_of_true (solve_of_none hwell hsquare hcount hsteps) (Option.map_eq_none_iff.mp hpivots.symm)
  | some steps =>
    rw [hsteps] at hpivots
    refine iff_of_false ?_ ?_
    · rw [solve_of_some hwell hsquare hcount hsteps]
      exact fun h => nomatch h
    · intro hnone
      rw [hnone] at hpivots
      cases hpivots

end

/-- The loop of the determinant stops where elimination finds a tiny pivot. -/
theorem determinantLoop_eq_tinyPivot_iff (hwell : m.isWellShaped) (hsquare : m.isSquare) :
    determinantLoop m.data m.rows = .error .tinyPivot ↔ eliminate m.data = none := by
  obtain ⟨hrows, hwidth⟩ := square_rows hwell hsquare
  have hfollows := determinantLoop_follows hwidth hrows
  generalize eliminate m.data = outcome at hfollows ⊢
  generalize determinantLoop m.data m.rows = run at hfollows ⊢
  cases hfollows <;> simp

/-- Both loops stop at a tiny pivot, whatever the constants, or neither does; then the diagonal that the solution is
divided by has the factors of the determinant, whose sign changes with each exchange. -/
structure SharePivots (m : DenseMatrix α) (b b' : List α) : Prop where
  constants : m.solve b = .error .singular ↔ m.solve b' = .error .singular
  tiny : m.solve b = .error .singular ↔ determinantLoop m.data m.rows = .error .tinyPivot
  zero : determinantLoop m.data m.rows = .error .tinyPivot → m.determinant = .ok Scalar.zero
  product : m.solve b ≠ .error .singular → ∃ steps t,
    eliminate (withConstants m.data b) = some steps ∧ steps.length = m.rows ∧
      m.solve b = .ok (backSubstitute (steps.map Prod.snd)) ∧
      solveLoop (withConstants m.data b) m.rows = .ok t ∧
      (∀ i exchanged row, steps[i]? = some (exchanged, row) → entry t i i = .ok (lead row)) ∧
      ExchangesWith m.rows 0 (withConstants m.data b) steps ∧
      m.determinant = .ok (pivotProduct steps) ∧
      (determinantLoop m.data m.rows).map Prod.fst = .ok (pivotProduct steps)

/-- Determinants and solutions come from the same elimination, whatever the operations on the scalars do. -/
theorem solve_shares_pivots {b b' : List α} (hwell : m.isWellShaped) (hsquare : m.isSquare)
    (hb : b.length = m.rows) (hb' : b'.length = m.rows) : SharePivots m b b' where
  constants := (solve_eq_singular_iff hwell hsquare hb).trans (solve_eq_singular_iff hwell hsquare hb').symm
  tiny := (solve_eq_singular_iff hwell hsquare hb).trans (determinantLoop_eq_tinyPivot_iff hwell hsquare).symm
  zero := fun htiny => determinant_of_none hwell hsquare ((determinantLoop_eq_tinyPivot_iff hwell hsquare).mp htiny)
  product := by
    intro hsolvable
    obtain ⟨hrows, hwidth⟩ := square_rows hwell hsquare
    have hpivots := pivots_withConstants hwell hsquare hb
    have hsolve := solveLoop_follows (hwidth.withConstants b) (length_withConstants hrows hb)
    have hdeterminant := determinantLoop_follows hwidth hrows
    cases hsteps : eliminate (withConstants m.data b) with
    | none => exact absurd (solve_of_none hwell hsquare hb hsteps) hsolvable
    | some steps =>
      cases hsteps' : eliminate m.data with
      | none =>
        rw [hsteps, hsteps'] at hpivots
        cases hpivots
      | some steps' =>
        rw [hsteps, hsteps'] at hpivots
        rw [hsteps] at hsolve
        rw [hsteps'] at hdeterminant
        obtain ⟨t, ht, hwidth', hlength, hstairs, hexchanges⟩ := hsolve.exists_ok
        obtain ⟨state, hstate, hdet⟩ := hdeterminant.exists_ok
        have hproduct : pivotProduct steps' = pivotProduct steps := by
          rw [pivotProduct_eq, pivotProduct_eq, Option.some.inj hpivots]
        have hdiagonal : ∀ i exchanged row, steps[i]? = some (exchanged, row) → entry t i i = .ok (lead row) := by
          intro i exchanged row hstep
          have hrow : (staircase 0 t)[i]? = some row := by
            rw [hstairs, List.getElem?_map, hstep]
            rfl
          rw [getElem?_staircase, Nat.zero_add, Option.map_eq_some_iff] at hrow
          obtain ⟨full, hfull, rfl⟩ := hrow
          obtain ⟨hi, -⟩ := List.getElem?_eq_some_iff.mp hfull
          exact entry_lead hfull (by rw [hwidth' full (List.mem_of_getElem? hfull)]; omega)
        have hsteplength : steps.length = m.rows :=
          (length_of_eliminate hsteps).trans (length_withConstants hrows hb)
        refine ⟨steps, t, rfl, hsteplength, solve_of_some hwell hsquare hb hsteps, ht, hdiagonal,
          hexchanges, ?_, ?_⟩
        · rw [determinant_of_some hwell hsquare hsteps', hproduct]
        · rw [hstate, ← hproduct, ← hdet]
          rfl

/-- A system of two equations, whose rows change places. -/
theorem solve_shares_pivots_of_exchange :
    let m : DenseMatrix Float := ⟨2, 2, [[0, 1], [2, 3]]⟩
    m.isWellShaped ∧ m.isSquare ∧ SharePivots m [1, 2] [-0.5, 1e300] :=
  ⟨rfl, rfl, solve_shares_pivots rfl rfl rfl rfl⟩

end Calculator.DenseMatrix
