import Calculator.Proofs.Graph.Sweep
import Calculator.Proofs.Wire.Graph
/-!
The points of a curve: those of its samples, each with the abscissa that the sample was taken at, and breaks at
abscissas of samples. Which samples are reported: at most forty, however many there are.
-/
namespace Calculator.Graph

namespace Request
variable (request : Request) (e : Expr)

/-- The ordinate of the sample `i`. -/
def ordinate (i : Nat) : Option Float := (request.sample e (request.abscissa i)).y

theorem sample_abscissa (i : Nat) :
    request.sample e (request.abscissa i) = ⟨request.abscissa i, request.ordinate e i⟩ := by
  unfold ordinate sample
  split <;> rfl

/-- An ordinate is finite. -/
theorem isFinite_ordinate {i : Nat} {y : Float} (hy : request.ordinate e i = some y) : y.isFinite = true := by
  unfold ordinate sample at hy
  split at hy
  · exact Evaluation.isFinite_of_finite? hy
  · cases hy

/-- A curve is what the sweep makes of the samples. -/
theorem exists_swept : ∃ sweep, request.curve e = ⟨sweep.points.toList, sweep.hasDiscontinuities⟩ ∧
    Swept request.abscissa (request.ordinate e) (request.steps + 1) sweep := by
  refine ⟨_, rfl, ?_⟩
  simp only [samples, sample_abscissa]
  exact swept_foldl request.abscissa (request.ordinate e) (request.steps + 1)

/-- The points of a curve are those of its samples. -/
theorem mem_curve {p : Point} :
    p ∈ (request.curve e).points ↔ ∃ i ≤ request.steps, p ∈ pointsAt request.abscissa (request.ordinate e) i := by
  obtain ⟨sweep, hcurve, hswept⟩ := request.exists_swept e
  rw [hcurve]
  simp only [hswept.points, List.mem_flatMap, List.mem_range, Nat.lt_succ_iff]

theorem isFinite_of_curve {p : Point} (hp : p ∈ (request.curve e).points) {y : Float} (hy : p.y = some y) :
    y.isFinite = true := by
  obtain ⟨i, -, hi⟩ := (request.mem_curve e).mp hp
  rcases mem_pointsAt hi with rfl | rfl
  · exact request.isFinite_ordinate e hy
  · cases hy

/-- The abscissas of a curve's points are those of its samples. -/
theorem isFinite_curve :
    (request.curve e).isFinite = decide (∀ i ≤ request.steps, (request.abscissa i).isFinite = true) := by
  rw [Bool.eq_iff_iff, decide_eq_true_iff, Result.isFinite, List.all_eq_true]
  constructor
  · intro hpoints i hi
    have hsample : ⟨request.abscissa i, request.ordinate e i⟩ ∈ (request.curve e).points :=
      (request.mem_curve e).mpr ⟨i, hi, mem_pointsAt_self ..⟩
    have hfinite := hpoints _ hsample
    exact hfinite
  · intro habscissas p hp
    obtain ⟨i, hi, hpi⟩ := (request.mem_curve e).mp hp
    have hx : p.x = request.abscissa i := by rcases mem_pointsAt hpi with rfl | rfl <;> rfl
    rw [hx]
    exact habscissas i hi

variable {request} {result : Result}

/-- A successful request has not too many points and a text that can be read; its result is the curve. -/
theorem exists_curve_of_run (hrun : request.run = .ok result) :
    request.numPoints ≤ maxPoints ∧ ∃ e, Expr.parse [] request.expression = .ok e ∧ result = request.curve e := by
  unfold run at hrun
  split at hrun
  · cases hrun
  · rename_i hpoints
    cases hparse : Expr.parse [] request.expression with
    | error error => simp [hparse] at hrun
    | ok e =>
      simp only [hparse, Except.ok.injEq] at hrun
      exact ⟨Nat.le_of_not_lt hpoints, e, rfl, hrun.symm⟩

/-- A result is read back if all abscissas are finite, and otherwise not at all. -/
theorem faithfulIf_run (hrun : request.run = .ok result) :
    Wire.FaithfulIf (decide (∀ i ≤ request.steps, (request.abscissa i).isFinite = true)) result := by
  obtain ⟨-, e, -, rfl⟩ := exists_curve_of_run hrun
  rw [← request.isFinite_curve e]
  exact Result.faithfulIf fun p hp y hy => request.isFinite_of_curve e hp hy

/-! ### Reports -/

/-- From a report to the next. -/
def stride (request : Request) : Nat := max (request.steps / reportCount) 1

/-- The samples that are reported. -/
def reported (request : Request) : List Nat := (List.range (request.steps + 1)).filter (· % request.stride = 0)

theorem reports_eq (request : Request) :
    request.reports = request.reported.map fun i => ⟨Batch.percentage i request.steps⟩ := by
  unfold reports reported
  dsimp only
  generalize List.range (request.steps + 1) = samples
  induction samples with
  | nil => rfl
  | cons i samples ih =>
    by_cases hreported : i % request.stride = 0
    · have hdue : i % max (request.steps / reportCount) 1 = 0 := hreported
      simp [hreported, hdue, ih]
    · have hdue : ¬i % max (request.steps / reportCount) 1 = 0 := hreported
      simp [hreported, hdue, ih]

theorem pairwise_reported (request : Request) : request.reported.Pairwise (· < ·) :=
  List.pairwise_lt_range.filter _

theorem le_steps_of_mem_reported {request : Request} {i : Nat} (hi : i ∈ request.reported) : i ≤ request.steps := by
  have hrange := List.mem_range.mp (List.mem_filter.mp hi).1
  omega

theorem length_filter_multiples (k n : Nat) : ((List.range (n + 1)).filter (· % k = 0)).length = n / k + 1 := by
  induction n with
  | zero => simp
  | succ n ih =>
    rw [List.range_succ, List.filter_append, List.length_append, ih, Nat.succ_div]
    by_cases hdvd : k ∣ n + 1
    · simp [hdvd, Nat.mod_eq_zero_of_dvd hdvd]
    · have hmod : ¬(n + 1) % k = 0 := fun hzero => hdvd (Nat.dvd_of_mod_eq_zero hzero)
      simp [hdvd, hmod]

/-- There are at most twice as many reports as there should be: the stride is rounded down. -/
theorem length_reported_le (request : Request) : request.reported.length ≤ 2 * reportCount := by
  unfold reported stride
  rw [length_filter_multiples]
  generalize request.steps = steps
  unfold reportCount
  suffices hlt : steps / max (steps / 20) 1 < 40 by omega
  apply Nat.div_lt_of_lt_mul
  omega

end Request
end Calculator.Graph
