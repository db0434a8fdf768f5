import Calculator.Proofs.Wire.Values
import Calculator.Wire.Matrix
/-!
Matrices and results of operations on them. They are read back if all of their entries are finite, and otherwise not
at all; the form of a result, which is not sent, is found again.
-/
namespace Calculator

open Wire

/-! ### Matrices -/

namespace DenseMatrix

/-- A matrix whose numbers of rows and columns have 64 bits. -/
structure CountsFit {α : Type} (m : DenseMatrix α) : Prop where
  rows : m.rows < countBound
  cols : m.cols < countBound

def isFinite (m : DenseMatrix Float) : Bool := m.data.all fun row => row.all Float.isFinite

theorem faithfulIf {m : DenseMatrix Float} (hm : m.CountsFit) : FaithfulIf m.isFinite m := by
  have hdata : FaithfulIf m.isFinite m.data := faithfulIf_list fun row _ => faithfulIf_floats row
  unfold FaithfulIf encode decode? denseMatrix
  dsimp only
  rw [Fields.bind_ofMembers, Fields.required_of_at? (Fields.at?_ofMembers _ _ _) (faithful_nat hm.rows),
    Fields.required_of_at? (Fields.at?_ofMembers _ _ _) (faithful_nat hm.cols),
    Fields.required_of_faithfulIf (Fields.at?_ofMembers _ _ _) hdata]
  cases m.isFinite <;> rfl

end DenseMatrix

/-! ### Requests -/

theorem faithful_matrixOperation (operation : MatrixOperation) : Faithful operation := by
  refine ofNames?_name (by decide) ?_
  cases operation <;> decide

namespace MatrixRequest

/-- Requests that can be sent: all numbers are finite, and all counts have 64 bits. -/
structure Sendable (r : MatrixRequest) : Prop where
  countsFit : ∀ m ∈ r.matrices, m.CountsFit
  finite : ∀ m ∈ r.matrices, m.isFinite = true
  constants : ∀ xs, r.constants = some xs → ∀ x ∈ xs, x.isFinite = true

theorem Sendable.faithful {r : MatrixRequest} (hr : r.Sendable) : Faithful r := by
  have hmatrices : Faithful r.matrices :=
    faithful_list fun m hm => (DenseMatrix.faithfulIf (hr.countsFit m hm)).faithful (hr.finite m hm)
  have hconstants : Faithful r.constants := by
    refine faithful_option fun xs hxs => ⟨?_, by simp [encode]⟩
    exact faithful_list fun x hx => faithful_float (hr.constants xs hxs x hx)
  rw [Faithful]
  unfold encode decode? matrixRequest
  dsimp only
  rw [Fields.bind_ofMembers]
  generalize hfields : Fields.ofMembers _ = fields
  have hat : ∀ place name, fields.at? place name = ((optionalMember "constants" r.constants).reverse ++
      [("matrices", encode r.matrices), ("operation", encode r.operation)]).lookup name := by
    intro place name
    rw [← hfields, Fields.at?_ofMembers, List.reverse_append]
    rfl
  rw [Fields.required_of_at? (by simp [hat, List.lookup_cons]) (faithful_matrixOperation r.operation),
    Fields.required_of_at? (by simp [hat]) hmatrices,
    Fields.withDefault_of_optional (by simp [hat]) hconstants]
  rfl

end MatrixRequest

/-! ### Results -/

theorem faithful_matrixResultKind (kind : MatrixResultKind) : Faithful kind := by
  refine ofNames?_name (by decide) ?_
  cases kind <;> decide

/-- A double is not taken for a count. -/
theorem decode?_nat_of_float (x : Float) : (decode? (encode x) : Option Nat) = none := by
  cases hfinite : x.isFinite <;> simp [encode, Json.ofFloat, hfinite, decode?, natBelow?]

/-- A list of doubles is not taken for the fields of a matrix, which begin with a count. -/
theorem decode?_matrix_of_floats (xs : List Float) : (decode? (encode xs) : Option (DenseMatrix Float)) = none := by
  have hrows : ((Fields.ordered (xs.map encode)).required 0 "rows" : Option Nat) = none := by
    cases xs with
    | nil => rfl
    | cons x xs => exact decode?_nat_of_float x
  have hfields : Fields.of? 3 (encode xs) =
      if (xs.map encode).length ≤ 3 then some (.ordered (xs.map encode)) else none := rfl
  unfold decode? denseMatrix
  dsimp only
  rw [hfields]
  split
  · rw [Option.bind_eq_bind, Option.bind_some, hrows]
    rfl
  · rfl

/-- Neither a number nor null is taken for the fields of a matrix. -/
theorem decode?_matrix_of_float (x : Float) : (decode? (encode x) : Option (DenseMatrix Float)) = none := by
  have hfields : Fields.of? 3 (encode x) = none := by
    cases hfinite : x.isFinite <;> simp [encode, Json.ofFloat, hfinite, Fields.of?]
  unfold decode? denseMatrix
  dsimp only
  rw [hfields]
  rfl

namespace MatrixValue

/-- A value whose counts have 64 bits. -/
def CountsFit : MatrixValue → Prop
  | matrix m => m.CountsFit
  | scalar _ | vector _ => True

def isFinite : MatrixValue → Bool
  | matrix m => m.isFinite
  | scalar x => x.isFinite
  | vector xs => xs.all Float.isFinite

/-- The form that a value is read in is the one that it was sent in. -/
theorem faithfulIf {v : MatrixValue} (hv : v.CountsFit) : FaithfulIf v.isFinite v := by
  cases v with
  | matrix m =>
    have hm : decode? (encode m) = if m.isFinite then some m else none := DenseMatrix.faithfulIf hv
    show ((decode? (encode m)).map matrix <|> none <|> none) = if m.isFinite then some (matrix m) else none
    rw [hm]
    cases m.isFinite <;> rfl
  | scalar x =>
    have hx : decode? (encode x) = if x.isFinite then some x else none := faithfulIf_float x
    have hlist : (decode? (encode x) : Option (List Float)) = none := by
      cases hfinite : x.isFinite <;> simp [encode, Json.ofFloat, hfinite, decode?]
    show ((decode? (encode x)).map matrix <|> (decode? (encode x)).map scalar <|> (decode? (encode x)).map vector) =
      if x.isFinite then some (scalar x) else none
    rw [decode?_matrix_of_float, hx, hlist]
    cases x.isFinite <;> rfl
  | vector xs =>
    have hxs : decode? (encode xs) = if xs.all Float.isFinite then some xs else none := faithfulIf_floats xs
    show ((decode? (encode xs)).map matrix <|> none <|> (decode? (encode xs)).map vector) =
      if xs.all Float.isFinite then some (vector xs) else none
    rw [decode?_matrix_of_floats, hxs]
    cases xs.all Float.isFinite <;> rfl

end MatrixValue

namespace MatrixOutput

theorem faithfulIf {o : MatrixOutput} (ho : o.result.CountsFit) : FaithfulIf o.result.isFinite o := by
  unfold FaithfulIf encode decode? matrixOutput
  dsimp only
  rw [Fields.bind_ofMembers, Fields.required_of_faithfulIf (Fields.at?_ofMembers _ _ _) (MatrixValue.faithfulIf ho),
    Fields.required_of_at? (Fields.at?_ofMembers _ _ _) (faithful_matrixResultKind o.kind)]
  cases o.result.isFinite <;> rfl

end MatrixOutput
end Calculator
