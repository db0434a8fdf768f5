import Calculator.Proofs.Wire.Evaluation
import Calculator.Wire.Graph
/-!
Requests to sample curves and their results. An ordinate that is absent is null, and so is told apart from one that is
there; a result is read back if all of its abscissas are finite, and otherwise not at all.
-/
namespace Calculator.Graph

open Wire

namespace Request

/-- Requests that can be sent: all numbers are finite, and the number of points has 64 bits. -/
structure Sendable (r : Request) : Prop where
  xMin : r.xMin.isFinite = true
  xMax : r.xMax.isFinite = true
  numPoints : r.numPoints < countBound
  values : ∀ b, r.values = some b → ∀ e ∈ b.entries, e.2.isFinite = true

theorem Sendable.faithful {r : Request} (hr : r.Sendable) : Faithful r := by
  have hangle : Faithful r.angle := faithful_option fun unit _ => ⟨faithful_angleUnit unit, by simp [encode]⟩
  rw [Faithful]
  unfold encode decode? graphRequest
  dsimp only
  rw [Fields.bind_ofMembers]
  generalize hfields : Fields.ofMembers _ = fields
  have hat : ∀ place name, fields.at? place name = ((optionalMember "angleMode" r.angle).reverse ++
      ((optionalMember "variables" r.values).reverse ++ [("numPoints", encode r.numPoints), ("xMax", encode r.xMax),
        ("xMin", encode r.xMin), ("expression", encode r.expression)])).lookup name := by
    intro place name
    rw [← hfields, Fields.at?_ofMembers, List.reverse_append, List.reverse_append]
    rfl
  have hvariables : fields.at? 4 "variables" = r.values.map encode := by
    rw [hat, lookup_optionalMember_of_ne _ (by decide)]
    exact lookup_optionalMember _ rfl
  have hangleMode : fields.at? 5 "angleMode" = r.angle.map encode := by
    rw [hat]
    exact lookup_optionalMember _ (lookup_optionalMember_of_ne _ (by decide))
  rw [Fields.required_of_at? (by simp [hat, List.lookup_cons]) (faithful_string r.expression),
    Fields.required_of_at? (by simp [hat, List.lookup_cons]) (faithful_float hr.xMin),
    Fields.required_of_at? (by simp [hat, List.lookup_cons]) (faithful_float hr.xMax),
    Fields.withDefault_of_at? (by simp [hat]) (faithful_nat hr.numPoints),
    Fields.withDefault_of_optional hvariables (faithful_variables hr.values),
    Fields.withDefault_of_optional hangleMode hangle]
  rfl

end Request

theorem Point.faithfulIf {p : Point} (hy : ∀ y, p.y = some y → y.isFinite = true) : FaithfulIf p.x.isFinite p := by
  unfold FaithfulIf encode decode? graphPoint
  dsimp only
  rw [Fields.bind_ofMembers, Fields.required_of_faithfulIf (Fields.at?_ofMembers _ _ _) (faithfulIf_float p.x),
    Fields.nullable_of_at? (Fields.at?_ofMembers _ _ _) (faithful_finite? hy)]
  cases p.x.isFinite <;> rfl

namespace Result

/-- Whether all abscissas are finite. -/
def isFinite (r : Result) : Bool := r.points.all (·.x.isFinite)

theorem faithfulIf {r : Result} (hy : ∀ p ∈ r.points, ∀ y, p.y = some y → y.isFinite = true) :
    FaithfulIf r.isFinite r := by
  have hpoints : FaithfulIf r.isFinite r.points := faithfulIf_list fun p hp => Point.faithfulIf (hy p hp)
  unfold FaithfulIf encode decode? graphResult
  dsimp only
  rw [Fields.bind_ofMembers, Fields.required_of_faithfulIf (Fields.at?_ofMembers _ _ _) hpoints,
    Fields.required_of_at? (Fields.at?_ofMembers _ _ _) (faithful_bool r.hasDiscontinuities)]
  cases r.isFinite <;> rfl

end Result

theorem Progress.faithful {p : Progress} (hp : p.progress.isFinite = true) : Faithful p := by
  rw [Faithful]
  unfold encode decode? graphProgress
  dsimp only
  rw [Fields.bind_ofMembers, Fields.required_of_at? (Fields.at?_ofMembers _ _ _) (faithful_float hp)]
  rfl

end Calculator.Graph
