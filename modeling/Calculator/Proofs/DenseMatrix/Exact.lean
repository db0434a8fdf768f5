import Calculator.Proofs.DenseMatrix.InPlace
import Mathlib.LinearAlgebra.Matrix.NonsingularInverse
import Mathlib.Tactic.FieldSimp
import Mathlib.Tactic.LinearCombination
import Mathlib.Tactic.Linarith
import Mathlib.Tactic.Positivity
/-!
Elimination with exact arithmetic. A step keeps the vectors that are orthogonal to all rows, which gives solutions and
inverses, and multiplies the determinant of the smaller system by its pivot.
-/
namespace Calculator

/-- The rational numbers, with exact operations and the threshold `1e-12` for pivots. -/
instance : Scalar ℚ where
  zero := 0
  one := 1
  emptySum := 0
  compareAbs x y := compare |x| |y|
  isTiny x := |x| < 1 / 1000000000000
  isZero x := x == 0

namespace DenseMatrix

variable {row pivotRow tail v first : List ℚ} {rows rest : List (List ℚ)} {w : ℕ}

/-! ### Rows and vectors -/

/-- The sum of the products of a row's entries with those of a vector. -/
def pair (row v : List ℚ) : ℚ := (List.zipWith (· * ·) row v).sum

theorem lead_ne_zero (htiny : ¬Scalar.isTiny (lead row)) : lead row ≠ 0 := by
  intro hzero
  apply htiny
  rw [hzero]
  decide +kernel

theorem pair_cons (row : List ℚ) (x : ℚ) (v : List ℚ) : pair row (x :: v) = lead row * x + pair row.tail v := by
  cases row with
  | nil =>
    show (0 : ℚ) = 0 * x + 0
    ring
  | cons y row => rfl

theorem pair_append {u : List ℚ} (row tail u' : List ℚ) (hlength : row.length = u.length) :
    pair (row ++ tail) (u ++ u') = pair row u + pair tail u' := by
  unfold pair
  rw [List.zipWith_append hlength, List.sum_append]

theorem pair_subtractScaled (factor : ℚ) (v : List ℚ) (hlength : row.length = pivotRow.length) :
    pair (subtractScaled factor row pivotRow) v = pair row v - factor * pair pivotRow v := by
  induction row generalizing pivotRow v with
  | nil =>
    obtain rfl := List.eq_nil_of_length_eq_zero hlength.symm
    show (0 : ℚ) = 0 - factor * 0
    ring
  | cons x row ih =>
    obtain ⟨y, pivotRow, rfl⟩ := List.exists_cons_of_length_eq_add_one hlength.symm
    cases v with
    | nil =>
      show (0 : ℚ) = 0 - factor * 0
      ring
    | cons z v =>
      have hlater := ih v (by simpa using hlength)
      show (x - factor * y) * z + pair (subtractScaled factor row pivotRow) v =
        x * z + pair row v - factor * (y * z + pair pivotRow v)
      rw [hlater]
      ring

theorem pair_map_div (row v : List ℚ) (c : ℚ) : pair (row.map (· / c)) v = pair row v / c := by
  induction row generalizing v with
  | nil =>
    show (0 : ℚ) = 0 / c
    ring
  | cons x row ih =>
    cases v with
    | nil =>
      show (0 : ℚ) = 0 / c
      ring
    | cons z v =>
      show x / c * z + pair (row.map (· / c)) v = (x * z + pair row v) / c
      rw [ih]
      ring

theorem dot_eq_pair (row v : List ℚ) : dot row v = pair row v := by
  show List.foldl (· + ·) (0 : ℚ) _ = _
  rw [← List.sum_eq_foldl]
  rfl

theorem pair_eliminateLead (v : List ℚ) (hlength : row.length = pivotRow.length) :
    pair (eliminateLead pivotRow row) v = pair row.tail v - lead row / lead pivotRow * pair pivotRow.tail v :=
  pair_subtractScaled _ v (by simp [hlength])

theorem pair_clearLead (v : List ℚ) (hlength : row.length = tail.length + 1) :
    pair (clearLead tail row) v = pair row.tail v - lead row * pair tail v := by
  unfold clearLead
  split
  · rename_i hzero
    have hlead : lead row = 0 := beq_iff_eq.mp hzero
    rw [hlead]
    ring
  · exact pair_subtractScaled _ v (by simp [hlength])

theorem pair_normalizedTail (pivotRow v : List ℚ) :
    pair (normalizedTail pivotRow) v = pair pivotRow.tail v / lead pivotRow :=
  pair_map_div pivotRow.tail v (lead pivotRow)

theorem subtractScaled_map_div (a c : ℚ) (xs ys : List ℚ) :
    subtractScaled a xs (ys.map (· / c)) = subtractScaled (a / c) xs ys := by
  unfold subtractScaled
  rw [List.zipWith_map_right]
  congr 1
  funext x y
  show x - a * (y / c) = x - a / c * y
  ring

theorem subtractScaled_zero {xs ys : List ℚ} (hlength : xs.length = ys.length) : subtractScaled 0 xs ys = xs := by
  induction xs generalizing ys with
  | nil => rfl
  | cons x xs ih =>
    obtain ⟨y, ys, rfl⟩ := List.exists_cons_of_length_eq_add_one hlength.symm
    show (x - 0 * y) :: subtractScaled 0 xs ys = x :: xs
    rw [ih (by simpa using hlength), zero_mul, sub_zero]

/-- Clearing by the divided pivot's row is elimination. -/
theorem clearLead_normalizedTail (hlength : row.length = pivotRow.length) :
    clearLead (normalizedTail pivotRow) row = eliminateLead pivotRow row := by
  unfold clearLead eliminateLead normalizedTail
  split
  · rename_i hzero
    have hlead : lead row = 0 := beq_iff_eq.mp hzero
    have hfactor : lead row / lead pivotRow = 0 := by rw [hlead, zero_div]
    rw [hfactor]
    exact (subtractScaled_zero (by simp [hlength])).symm
  · exact subtractScaled_map_div _ _ _ _

theorem map_clearLead_normalizedTail (hpivot : pivotRow.length = w) (hwidth : HasWidth w rows) :
    rows.map (clearLead (normalizedTail pivotRow)) = rows.map (eliminateLead pivotRow) := by
  apply List.map_congr_left
  exact fun row hrow => clearLead_normalizedTail ((hwidth row hrow).trans hpivot.symm)

/-! ### Solutions -/

/-- A vector orthogonal to the pivot's row and to what is left of a row is orthogonal to the row. -/
theorem pair_eq_zero_of_eliminateLead {x : ℚ} (hlead : lead pivotRow ≠ 0) (hlength : row.length = pivotRow.length)
    (hpivot : pair pivotRow (x :: v) = 0) (hrow : pair (eliminateLead pivotRow row) v = 0) :
    pair row (x :: v) = 0 := by
  rw [pair_cons] at hpivot ⊢
  rw [pair_eliminateLead v hlength] at hrow
  have htail : pair pivotRow.tail v = -(lead pivotRow * x) := by linear_combination hpivot
  rw [htail] at hrow
  field_simp at hrow
  linear_combination hrow

/-- The rows before a step are orthogonal to what the pivot's row and the smaller system are orthogonal to. -/
theorem pair_eq_zero_of_step {x : ℚ} (hwidth : HasWidth w (first :: rest))
    (htiny : ¬Scalar.isTiny (lead (pivot first rest).pivotRow)) (hpivot : pair (pivot first rest).pivotRow (x :: v) = 0)
    (hothers : ∀ row ∈ (pivot first rest).others.map (eliminateLead (pivot first rest).pivotRow), pair row v = 0) :
    ∀ row ∈ first :: rest, pair row (x :: v) = 0 := by
  obtain ⟨hlength, hlengths⟩ := hwidth.pivoted
  intro row hrow
  rcases List.mem_cons.mp ((mem_pivot_iff first rest row).mpr hrow) with rfl | hrow
  · exact hpivot
  · exact pair_eq_zero_of_eliminateLead (lead_ne_zero htiny) ((hlengths row hrow).trans hlength.symm) hpivot
      (hothers _ (List.mem_map_of_mem hrow))

/-- The row of a system, paired with its unknowns and minus one. -/
theorem pair_append_neg_one {xs : List ℚ} (hlength : row.length = xs.length + 1) :
    pair row (xs ++ [-1]) = dot row xs - row.getLastD 0 := by
  induction xs generalizing row with
  | nil =>
    obtain ⟨c, rfl⟩ := List.length_eq_one_iff.mp hlength
    show c * -1 + 0 = 0 - c
    ring
  | cons x xs ih =>
    obtain ⟨a, row, rfl⟩ := List.exists_cons_of_length_eq_add_one hlength
    have hlater := ih (Nat.succ.inj hlength)
    rw [dot_eq_pair] at hlater ⊢
    obtain ⟨b, row, rfl⟩ := List.exists_cons_of_length_eq_add_one (Nat.succ.inj hlength)
    show a * x + pair (b :: row) (xs ++ [-1]) = a * x + pair (b :: row) xs - (b :: row).getLastD 0
    rw [hlater]
    ring

theorem getLastD_tail (hlength : row.length = w + 2) : row.tail.getLastD 0 = row.getLastD 0 := by
  obtain ⟨a, row, rfl⟩ := List.exists_cons_of_length_eq_add_one hlength
  obtain ⟨b, row, rfl⟩ := List.exists_cons_of_length_eq_add_one (Nat.succ.inj hlength)
  rfl

/-- The unknowns and minus one are orthogonal to all rows. -/
theorem pair_backSubstitute {steps : List (Bool × List ℚ)} (hwidth : HasWidth (rows.length + 1) rows)
    (hsteps : eliminate rows = some steps) :
    ∀ row ∈ rows, pair row (backSubstitute (steps.map Prod.snd) ++ [-1]) = 0 := by
  induction rows using eliminate_induction generalizing steps with
  | nil => exact fun row hrow => absurd hrow List.not_mem_nil
  | tiny first rest htiny =>
    rw [eliminate_cons_of_tiny htiny] at hsteps
    cases hsteps
  | step first rest htiny ih =>
    obtain ⟨hpivot, hothers⟩ := hwidth.pivoted
    rw [eliminate_cons_of_not_tiny htiny] at hsteps
    obtain ⟨later, hlater, rfl⟩ := Option.map_eq_some_iff.mp hsteps
    have hlead := lead_ne_zero htiny
    have hcount : ((pivot first rest).others.map (eliminateLead (pivot first rest).pivotRow)).length =
        rest.length := by simp
    have hrest := ih (hcount ▸ hothers.eliminateLead hpivot) hlater
    let xs := backSubstitute (later.map Prod.snd)
    have hxs : xs.length = rest.length := by
      rw [length_backSubstitute, List.length_map, length_of_eliminate hlater, hcount]
    have htail : (pivot first rest).pivotRow.tail.length = xs.length + 1 := by
      rw [List.length_tail, hpivot, hxs]
      rfl
    let x := ((pivot first rest).pivotRow.getLastD 0 - dot (pivot first rest).pivotRow.tail xs) /
      lead (pivot first rest).pivotRow
    have hpivotrow : pair (pivot first rest).pivotRow (x :: (xs ++ [-1])) = 0 := by
      rw [pair_cons, pair_append_neg_one htail, getLastD_tail hpivot]
      simp only [x]
      field_simp
      ring
    exact pair_eq_zero_of_step hwidth htiny hpivotrow hrest

/-! ### Inverses -/

/-- The rows above have no part in the pivots, and those below are the same as in elimination. -/
theorem clearColumns_eq_none_iff {done : List (List ℚ)} (hwidth : HasWidth w rows) (hrows : rows.length ≤ w) :
    clearColumns done rows = none ↔ eliminate rows = none := by
  induction rows using eliminate_induction generalizing done w with
  | nil =>
    rw [clearColumns_nil, eliminate_nil]
    simp
  | tiny first rest htiny => exact iff_of_true (clearColumns_cons_of_tiny htiny) (eliminate_cons_of_tiny htiny)
  | step first rest htiny ih =>
    obtain ⟨w, rfl⟩ := Nat.exists_eq_add_one_of_ne_zero (Nat.ne_zero_of_lt hrows)
    obtain ⟨hpivot, hothers⟩ := hwidth.pivoted
    rw [clearColumns_cons_of_not_tiny htiny, eliminate_cons_of_not_tiny htiny,
      map_clearLead_normalizedTail hpivot hothers, Option.map_eq_none_iff]
    exact ih (hothers.eliminateLead hpivot) (by simpa using hrows)

/-- Values of the unknowns that satisfy the rows after the clearing satisfy those before. -/
theorem pair_of_clearColumns {done cleared : List (List ℚ)} {u x y : List ℚ}
    (hdone : HasWidth (rows.length + y.length) done) (hrows : HasWidth (rows.length + y.length) rows)
    (hu : u.length = done.length) (hx : x.length = rows.length)
    (hcleared : clearColumns done rows = some cleared)
    (hsolves : ∀ p ∈ (u ++ x).zip cleared, p.1 + pair p.2 y = 0) :
    (∀ p ∈ u.zip done, p.1 + pair p.2 (x ++ y) = 0) ∧ ∀ row ∈ rows, pair row (x ++ y) = 0 := by
  induction rows using eliminate_induction generalizing done u x with
  | nil =>
    obtain rfl := List.eq_nil_of_length_eq_zero hx
    rw [clearColumns_nil] at hcleared
    cases hcleared
    rw [List.append_nil] at hsolves
    exact ⟨hsolves, fun row hrow => absurd hrow List.not_mem_nil⟩
  | tiny first rest htiny =>
    rw [clearColumns_cons_of_tiny htiny] at hcleared
    cases hcleared
  | step first rest htiny ih =>
    obtain ⟨x0, x, rfl⟩ := List.exists_cons_of_length_eq_add_one hx
    let tail := normalizedTail (pivot first rest).pivotRow
    let smaller := (pivot first rest).others.map (eliminateLead (pivot first rest).pivotRow)
    have hcount : smaller.length = rest.length := by simp [smaller]
    have hw : (first :: rest).length + y.length = smaller.length + y.length + 1 := by
      rw [hcount, List.length_cons]
      omega
    rw [hw] at hdone hrows
    obtain ⟨hpivot, hothers⟩ := hrows.pivoted
    have htail : tail.length = smaller.length + y.length := by
      simp only [tail, normalizedTail, List.length_map, List.length_tail, hpivot]
      omega
    have hdone' : HasWidth (smaller.length + y.length) (done.map (clearLead tail) ++ [tail]) :=
      (hdone.clearLead htail).append (by simpa [HasWidth] using htail)
    have hu' : (u ++ [x0]).length = (done.map (clearLead tail) ++ [tail]).length := by simp [hu]
    have hx' : x.length = smaller.length := (Nat.succ.inj hx).trans hcount.symm
    rw [clearColumns_cons_of_not_tiny htiny, map_clearLead_normalizedTail hpivot hothers] at hcleared
    obtain ⟨hearlier, hlater⟩ :=
      ih hdone' (hothers.eliminateLead hpivot) hu' hx' hcleared (by simpa using hsolves)
    rw [List.zip_append (by simpa using hu)] at hearlier
    have hx0 : x0 + pair tail (x ++ y) = 0 := hearlier (x0, tail) (by simp)
    have hpivotrow : pair (pivot first rest).pivotRow (x0 :: (x ++ y)) = 0 := by
      have hlead := lead_ne_zero htiny
      have hx0' := hx0
      rw [pair_normalizedTail] at hx0'
      field_simp at hx0'
      rw [pair_cons]
      linear_combination hx0'
    refine ⟨?_, pair_eq_zero_of_step hrows htiny hpivotrow hlater⟩
    -- a row above has changed by a multiple of the pivot's row, which the new unknown makes up for
    intro p hp
    have hlength : p.2.length = tail.length + 1 := by
      rw [hdone p.2 (List.of_mem_zip hp).2, htail]
    have hp' : (p.1, clearLead tail p.2) ∈ u.zip (done.map (clearLead tail)) := by
      rw [List.zip_map_right]
      exact List.mem_map_of_mem hp
    have hcleared := hearlier _ (List.mem_append_left _ hp')
    rw [pair_clearLead _ hlength] at hcleared
    show p.1 + pair p.2 (x0 :: (x ++ y)) = 0
    rw [pair_cons]
    linear_combination hcleared + lead p.2 * hx0

/-! ### Determinants -/

variable {n : ℕ}

/-- The rows of a matrix. -/
def rowsOf (M : Matrix (Fin n) (Fin n) ℚ) : List (List ℚ) := List.ofFn fun i => List.ofFn (M i)

/-- What elimination leaves of a matrix, whose pivot is its first entry. -/
def minor (M : Matrix (Fin (n + 1)) (Fin (n + 1)) ℚ) : Matrix (Fin n) (Fin n) ℚ := fun i j =>
  M i.succ j.succ - M i.succ 0 / M 0 0 * M 0 j.succ

theorem lead_ofFn (f : Fin (n + 1) → ℚ) : lead (List.ofFn f) = f 0 := by
  rw [List.ofFn_succ]
  rfl

theorem eliminateLead_ofFn (f g : Fin (n + 1) → ℚ) :
    eliminateLead (List.ofFn f) (List.ofFn g) = List.ofFn fun j : Fin n => g j.succ - g 0 / f 0 * f j.succ := by
  unfold eliminateLead subtractScaled
  rw [lead_ofFn, lead_ofFn, List.ofFn_succ, List.ofFn_succ]
  apply List.ext_getElem
  · simp
  · intro i hi hi'
    simp

theorem minor_rows (M : Matrix (Fin (n + 1)) (Fin (n + 1)) ℚ) :
    (List.ofFn fun i : Fin n => List.ofFn (M i.succ)).map (eliminateLead (List.ofFn (M 0))) = rowsOf (minor M) := by
  rw [List.map_ofFn]
  unfold rowsOf
  congr 1
  funext i
  exact eliminateLead_ofFn (M 0) (M i.succ)

/-- The first pivot is a factor of the determinant. -/
theorem det_eq_pivot_mul (M : Matrix (Fin (n + 1)) (Fin (n + 1)) ℚ) (hpivot : M 0 0 ≠ 0) :
    M.det = M 0 0 * (minor M).det := by
  -- each other row loses a multiple of the first, which clears the first column and keeps the determinant
  let c : Fin (n + 1) → ℚ := Fin.cons 0 fun i => -(M i.succ 0 / M 0 0)
  let N : Matrix (Fin (n + 1)) (Fin (n + 1)) ℚ := fun i j => M i j + c i * M 0 j
  have hdet : N.det = M.det := Matrix.det_eq_of_forall_row_eq_smul_add_const c 0 rfl fun i j => rfl
  have hcolumn : ∀ i : Fin n, N i.succ 0 = 0 := by
    intro i
    show M i.succ 0 + -(M i.succ 0 / M 0 0) * M 0 0 = 0
    rw [neg_mul, div_mul_cancel₀ _ hpivot, add_neg_cancel]
  have hfirst : N 0 0 = M 0 0 := by
    show M 0 0 + 0 * M 0 0 = M 0 0
    ring
  have hminor : N.submatrix (Fin.succAbove 0) Fin.succ = minor M := by
    funext i j
    show M i.succ j.succ + -(M i.succ 0 / M 0 0) * M 0 j.succ = M i.succ j.succ - M i.succ 0 / M 0 0 * M 0 j.succ
    ring
  rw [← hdet, Matrix.det_succ_column_zero, Fin.sum_univ_succ, hfirst, hminor]
  simp [hcolumn]

/-- The exchange of two rows gives the rows of a matrix with the other determinant. -/
theorem exists_pivoted (M : Matrix (Fin (n + 1)) (Fin (n + 1)) ℚ) :
    ∃ M' : Matrix (Fin (n + 1)) (Fin (n + 1)) ℚ,
      let step := pivot (List.ofFn (M 0)) (List.ofFn fun i : Fin n => List.ofFn (M i.succ))
      step.pivotRow = List.ofFn (M' 0) ∧ step.others = (List.ofFn fun i : Fin n => List.ofFn (M' i.succ)) ∧
        M.det = if step.exchanged then -M'.det else M'.det := by
  rcases pivot_cases (List.ofFn (M 0)) (List.ofFn fun i : Fin n => List.ofFn (M i.succ)) with
    ⟨-, hpivot⟩ | ⟨i, row, hrow, -, hpivot⟩
  · rw [hpivot]
    exact ⟨M, rfl, rfl, rfl⟩
  · obtain ⟨hi, hrow⟩ := List.getElem?_eq_some_iff.mp hrow
    rw [List.length_ofFn] at hi
    rw [List.getElem_ofFn] at hrow
    let place : Fin (n + 1) := Fin.succ ⟨i, hi⟩
    rw [hpivot, ← hrow]
    refine ⟨M.submatrix (Equiv.swap 0 place) id, ?_, ?_, ?_⟩
    · show _ = List.ofFn (M (Equiv.swap 0 place 0))
      rw [Equiv.swap_apply_left]
    · show (List.ofFn fun i : Fin n => List.ofFn (M i.succ)).set i (List.ofFn (M 0)) =
        List.ofFn fun k : Fin n => List.ofFn (M (Equiv.swap 0 place k.succ))
      apply List.ext_getElem
      · simp
      · intro k hk hk'
        rw [List.getElem_set, List.getElem_ofFn, List.getElem_ofFn]
        by_cases hik : i = k
        · subst hik
          rw [if_pos rfl, Equiv.swap_apply_right]
        · rw [if_neg hik, Equiv.swap_apply_of_ne_of_ne (Fin.succ_ne_zero _)]
          intro hsame
          exact hik (Fin.mk.inj (Fin.succ_injective _ hsame)).symm
    · rw [Matrix.det_permute, Equiv.Perm.sign_swap (Fin.succ_ne_zero _).symm]
      simp

theorem rowsOf_succ (M : Matrix (Fin (n + 1)) (Fin (n + 1)) ℚ) :
    rowsOf M = List.ofFn (M 0) :: List.ofFn fun i : Fin n => List.ofFn (M i.succ) := List.ofFn_succ

theorem signedProduct_eq_det (M : Matrix (Fin n) (Fin n) ℚ) (det : ℚ) {steps : List (Bool × List ℚ)}
    (hsteps : eliminate (rowsOf M) = some steps) : signedProduct det (pivots steps) = det * M.det := by
  induction n generalizing det steps with
  | zero =>
    have hnil : rowsOf M = [] := rfl
    rw [hnil, eliminate_nil] at hsteps
    cases hsteps
    show det = det * M.det
    rw [Matrix.det_fin_zero, mul_one]
  | succ n ih =>
    obtain ⟨M', hpivotRow, hothers, hdet⟩ := exists_pivoted M
    rw [rowsOf_succ] at hsteps
    by_cases htiny : Scalar.isTiny
        (lead (pivot (List.ofFn (M 0)) (List.ofFn fun i : Fin n => List.ofFn (M i.succ))).pivotRow)
    · rw [eliminate_cons_of_tiny htiny] at hsteps
      cases hsteps
    · rw [eliminate_cons_of_not_tiny htiny] at hsteps
      have hlead := lead_ne_zero htiny
      rw [hpivotRow, lead_ofFn] at hlead
      rw [hpivotRow, hothers, minor_rows] at hsteps
      obtain ⟨later, hlater, rfl⟩ := Option.map_eq_some_iff.mp hsteps
      have hrest := ih (minor M') ((if (pivot (List.ofFn (M 0))
        (List.ofFn fun i : Fin n => List.ofFn (M i.succ))).exchanged then -det else det) * M' 0 0) hlater
      rw [hdet, det_eq_pivot_mul M' hlead]
      show signedProduct ((if (pivot (List.ofFn (M 0))
        (List.ofFn fun i : Fin n => List.ofFn (M i.succ))).exchanged then -det else det) *
          lead (List.ofFn (M' 0))) (pivots later) = _
      rw [lead_ofFn, hrest]
      split <;> ring

/-! ### The operations -/

/-- A square matrix as an operand. -/
def ofMatrix (A : Matrix (Fin n) (Fin n) ℚ) : DenseMatrix ℚ := ⟨n, n, rowsOf A⟩

theorem hasWidth_ofFn {m : ℕ} (f : Fin n → Fin m → ℚ) : HasWidth m (List.ofFn fun i => List.ofFn (f i)) := by
  intro row hrow
  obtain ⟨i, rfl⟩ := List.mem_ofFn.mp hrow
  exact List.length_ofFn

theorem ofMatrix_isWellShaped (A : Matrix (Fin n) (Fin n) ℚ) : (ofMatrix A).isWellShaped :=
  isWellShaped_iff.mpr ⟨List.length_ofFn, hasWidth_ofFn A⟩

theorem ofMatrix_isSquare (A : Matrix (Fin n) (Fin n) ℚ) : (ofMatrix A).isSquare := beq_self_eq_true n

theorem pair_ofFn (f g : Fin n → ℚ) : pair (List.ofFn f) (List.ofFn g) = ∑ i, f i * g i := by
  induction n with
  | zero => rfl
  | succ n ih =>
    rw [List.ofFn_succ, List.ofFn_succ, Fin.sum_univ_succ, ← ih]
    rfl

theorem exists_ofFn {β : Type} {xs : List β} (hlength : xs.length = n) : ∃ f : Fin n → β, xs = List.ofFn f := by
  subst hlength
  exact ⟨xs.get, (List.ofFn_get xs).symm⟩

theorem exists_rowsOf (hcount : rows.length = n) (hwidth : HasWidth n rows) :
    ∃ M : Matrix (Fin n) (Fin n) ℚ, rows = rowsOf M := by
  obtain ⟨f, rfl⟩ := exists_ofFn hcount
  have hrow : ∀ i, ∃ g : Fin n → ℚ, f i = List.ofFn g := fun i =>
    exists_ofFn (hwidth (f i) (List.mem_ofFn.mpr ⟨i, rfl⟩))
  choose M hM using hrow
  exact ⟨M, congrArg List.ofFn (funext hM)⟩

theorem mem_zipWith_ofFn {β γ δ : Type} (op : β → γ → δ) (f : Fin n → β) (g : Fin n → γ) (i : Fin n) :
    op (f i) (g i) ∈ List.zipWith op (List.ofFn f) (List.ofFn g) := by
  rw [List.mem_iff_getElem?]
  exact ⟨i, by simp⟩

theorem identityRows_eq : identityRows n = rowsOf (1 : Matrix (Fin n) (Fin n) ℚ) := by
  unfold identityRows rowsOf
  apply List.ext_getElem
  · simp
  · intro i hi hi'
    rw [List.getElem_map, List.getElem_range, List.getElem_ofFn]
    apply List.ext_getElem
    · simp
    · intro j hj hj'
      rw [List.getElem_map, List.getElem_range, List.getElem_ofFn, Matrix.one_apply]
      simp only [Fin.mk.injEq]
      rfl

theorem mulVec_of_solve {A : Matrix (Fin n) (Fin n) ℚ} {b : Fin n → ℚ} {xs : List ℚ}
    (hsolve : (ofMatrix A).solve (List.ofFn b) = .ok xs) : ∃ x : Fin n → ℚ, xs = List.ofFn x ∧ A.mulVec x = b := by
  have hwell := ofMatrix_isWellShaped A
  have hsquare := ofMatrix_isSquare A
  have hcount : (List.ofFn b).length = n := List.length_ofFn
  have hlength : (withConstants (rowsOf A) (List.ofFn b)).length = n := length_withConstants List.length_ofFn hcount
  cases hsteps : eliminate (withConstants (rowsOf A) (List.ofFn b)) with
  | none =>
    rw [solve_of_none hwell hsquare hcount hsteps] at hsolve
    cases hsolve
  | some steps =>
    rw [solve_of_some hwell hsquare hcount hsteps] at hsolve
    cases hsolve
    have hxs : (backSubstitute (steps.map Prod.snd)).length = n := by
      rw [length_backSubstitute, List.length_map, length_of_eliminate hsteps, hlength]
    obtain ⟨x, hx⟩ := exists_ofFn hxs
    have hwidth : HasWidth ((withConstants (rowsOf A) (List.ofFn b)).length + 1)
        (withConstants (rowsOf A) (List.ofFn b)) := by
      rw [hlength]
      exact (hasWidth_ofFn A).withConstants _
    refine ⟨x, hx, ?_⟩
    funext i
    have hrow := pair_backSubstitute hwidth hsteps _
      (mem_zipWith_ofFn (fun row c => row ++ [c]) (fun i => List.ofFn (A i)) b i)
    rw [hx, pair_append _ _ _ (by simp), pair_ofFn] at hrow
    have hconstant : pair [b i] [-1] = -b i := by
      show b i * -1 + 0 = -b i
      ring
    rw [hconstant] at hrow
    show ∑ j, A i j * x j = b i
    linear_combination hrow

theorem mem_zip_ofFn {β γ : Type} {f : Fin n → β} {g : Fin n → γ} {p : β × γ}
    (hp : p ∈ (List.ofFn f).zip (List.ofFn g)) : ∃ k, p = (f k, g k) := by
  obtain ⟨k, hk⟩ := List.mem_iff_getElem?.mp hp
  obtain ⟨hlt, rfl⟩ := List.getElem?_eq_some_iff.mp hk
  have hn : k < n := by simpa using hlt
  exact ⟨⟨k, hn⟩, by simp⟩

theorem sum_mul_neg_one (f : Fin n → ℚ) (j : Fin n) :
    ∑ k, f k * -(1 : Matrix (Fin n) (Fin n) ℚ) k j = -f j := by
  simp [Matrix.one_apply]

/-- The columns of the inverse solve the systems whose constants are the columns of the identity. -/
theorem mul_eq_one_of_inverse {A : Matrix (Fin n) (Fin n) ℚ} {X : DenseMatrix ℚ}
    (hinverse : (ofMatrix A).inverse = .ok X) : ∃ B, X = ofMatrix B ∧ A * B = 1 ∧ B * A = 1 := by
  have hwell := ofMatrix_isWellShaped A
  have hsquare := ofMatrix_isSquare A
  obtain ⟨hX, hshape⟩ := (inverse_answers (ofMatrix A)).good X hinverse
  obtain ⟨hrows, hcols⟩ : X.rows = n ∧ X.cols = n := Shape.mk.inj hshape
  obtain ⟨hcount, hwidth⟩ := isWellShaped_iff.mp hX
  obtain ⟨B, hB⟩ := exists_rowsOf (hcount.trans hrows) (hcols ▸ hwidth)
  cases hcleared : clearColumns [] (augment (rowsOf A) (identityRows n)) with
  | none =>
    rw [inverse_of_none hwell hsquare hcleared] at hinverse
    cases hinverse
  | some cleared =>
    rw [inverse_of_some hwell hsquare hcleared] at hinverse
    cases hinverse
    obtain rfl : cleared = rowsOf B := hB
    have hmul : A * B = 1 := by
      -- the system of column `j`: its constants are those of the identity, its unknowns those of the inverse
      funext i j
      let x : List ℚ := List.ofFn fun k => B k j
      let y : List ℚ := List.ofFn fun k => -(1 : Matrix (Fin n) (Fin n) ℚ) k j
      have hlength : (augment (rowsOf A) (identityRows n)).length = n :=
        length_augment List.length_ofFn (length_identityRows n)
      have hwidth' : HasWidth ((augment (rowsOf A) (identityRows n)).length + y.length)
          (augment (rowsOf A) (identityRows n)) := by
        rw [hlength, List.length_ofFn]
        exact (hasWidth_ofFn A).augment (hasWidth_identityRows n)
      have hsolves : ∀ p ∈ ([] ++ x).zip (rowsOf B), p.1 + pair p.2 y = 0 := by
        intro p hp
        obtain ⟨k, rfl⟩ := mem_zip_ofFn hp
        show B k j + pair (List.ofFn (B k)) y = 0
        rw [pair_ofFn, sum_mul_neg_one]
        ring
      let unit : Fin n → List ℚ := fun k => List.ofFn ((1 : Matrix (Fin n) (Fin n) ℚ) k)
      have hmem : List.ofFn (A i) ++ unit i ∈ augment (rowsOf A) (identityRows n) := by
        rw [identityRows_eq]
        exact mem_zipWith_ofFn (· ++ ·) (fun i => List.ofFn (A i)) unit i
      have hrow := (pair_of_clearColumns (fun _ h => absurd h List.not_mem_nil) hwidth' rfl
        (List.length_ofFn.trans hlength.symm) hcleared hsolves).2 _ hmem
      rw [pair_append _ _ _ (by simp), pair_ofFn, pair_ofFn, sum_mul_neg_one] at hrow
      rw [Matrix.mul_apply]
      linear_combination hrow
    exact ⟨B, rfl, hmul, mul_eq_one_comm.mp hmul⟩

/-- An inverse is missing when no system has a solution that elimination finds. -/
theorem inverse_eq_singular_iff (A : Matrix (Fin n) (Fin n) ℚ) :
    (ofMatrix A).inverse = .error .singular ↔ eliminate (rowsOf A) = none := by
  have hwell := ofMatrix_isWellShaped A
  have hsquare := ofMatrix_isSquare A
  have hwidth : HasWidth (n + n) (augment (rowsOf A) (identityRows n)) :=
    (hasWidth_ofFn A).augment (hasWidth_identityRows n)
  have hlength : (augment (rowsOf A) (identityRows n)).length = n :=
    length_augment List.length_ofFn (length_identityRows n)
  have hpivots : (eliminate (augment (rowsOf A) (identityRows n))).map pivots = (eliminate (rowsOf A)).map pivots :=
    pivots_augment (hasWidth_ofFn A) (Nat.le_of_eq List.length_ofFn) (by simp [length_identityRows, rowsOf])
  have hnone : clearColumns [] (augment (rowsOf A) (identityRows n)) = none ↔ eliminate (rowsOf A) = none := by
    rw [clearColumns_eq_none_iff hwidth (by omega), ← Option.map_eq_none_iff, hpivots, Option.map_eq_none_iff]
  rw [← hnone]
  cases hcleared : clearColumns [] (augment (rowsOf A) (identityRows n)) with
  | none => exact iff_of_true (inverse_of_none hwell hsquare hcleared) rfl
  | some cleared =>
    rw [inverse_of_some hwell hsquare hcleared]
    simp

/-- Elimination with exact arithmetic solves systems, inverts matrices and computes determinants. -/
structure EliminatesExactly (A : Matrix (Fin n) (Fin n) ℚ) : Prop where
  solution : ∀ b xs, (ofMatrix A).solve (List.ofFn b) = .ok xs → ∃ x : Fin n → ℚ, xs = List.ofFn x ∧ A.mulVec x = b
  inverse : ∀ X, (ofMatrix A).inverse = .ok X → ∃ B, X = ofMatrix B ∧ A * B = 1 ∧ B * A = 1
  determinant : Table.determinantLoop (rowsOf A) n ≠ .error .tinyPivot → (ofMatrix A).determinant = .ok A.det
  singular : (ofMatrix A).inverse = .error .singular ↔
    ∀ b : Fin n → ℚ, (ofMatrix A).solve (List.ofFn b) = .error .singular

theorem eliminates_exactly (A : Matrix (Fin n) (Fin n) ℚ) : EliminatesExactly A where
  solution := fun _ _ => mulVec_of_solve
  inverse := fun _ => mul_eq_one_of_inverse
  determinant := by
    intro htiny
    have hwell := ofMatrix_isWellShaped A
    have hsquare := ofMatrix_isSquare A
    cases hsteps : eliminate (rowsOf A) with
    | none => exact absurd ((determinantLoop_eq_tinyPivot_iff hwell hsquare).mpr hsteps) htiny
    | some steps =>
      rw [determinant_of_some hwell hsquare hsteps, pivotProduct_eq]
      show Except.ok (signedProduct (1 : ℚ) (pivots steps)) = _
      rw [signedProduct_eq_det A 1 hsteps, one_mul]
  singular := by
    have hsolve : ∀ b : Fin n → ℚ,
        (ofMatrix A).solve (List.ofFn b) = .error .singular ↔ eliminate (rowsOf A) = none := fun b =>
      solve_eq_singular_iff (ofMatrix_isWellShaped A) (ofMatrix_isSquare A) List.length_ofFn
    rw [inverse_eq_singular_iff]
    exact ⟨fun hnone b => (hsolve b).mpr hnone, fun hall => (hsolve 0).mp (hall 0)⟩

example : (Table.determinantLoop (rowsOf !![0, 1; 2, 3]) 2).toOption.map Prod.fst = some (-2) := by decide +kernel

end DenseMatrix
end Calculator
