import Calculator.Proofs.Bindings
import Calculator.Proofs.Graph
/-!
What is sampled: the text at equally spaced abscissas, in which the abscissa hides a variable of the request that has its
name. The whole result of a request that has not too many points and whose text can be read.
-/
namespace Calculator.Graph

namespace Request

/-- What `y` has to be at the abscissa `x`: the value of the expression, if it is finite, where `x` is the abscissa and all
other variables are those of the request. -/
def OrdinateAt (request : Request) (e : Expr) (x : Float) (y : Option Float) : Prop :=
  ∃ ctx : Evaluation.Context Float, ctx.angle = request.angle.getD .radians ∧ ctx.functions = .empty ∧
    (∀ name, ctx.values.get? name = if name = "x" then some x else request.values.bind (·.get? name)) ∧
    ∀ v, y = some v ↔ Evaluation.Fixed.evaluate ctx e = .ok v ∧ v.isFinite = true

variable (request : Request)

theorem foldl_setVariable (pairs : List (String × Float)) (ctx : Evaluation.Context Float) :
    pairs.foldl (fun ctx p => ctx.setVariable p.1 p.2) ctx =
      { ctx with values := pairs.foldl (fun b p => b.set p.1 p.2) ctx.values } := by
  induction pairs generalizing ctx with
  | nil => rfl
  | cons p pairs ih => exact ih (ctx.setVariable p.1 p.2)

/-- The context has the request's variables and its unit of angles. -/
theorem context_eq : request.context = ⟨request.values.getD .empty, .empty, request.angle.getD .radians,
    Evaluation.Context.defaultPrecision⟩ := by
  have hvalues : (request.values.getD .empty).entries.foldl (fun b p => b.set p.1 p.2) Bindings.empty =
      request.values.getD .empty := Bindings.ofList_entries _
  have hcontext := foldl_setVariable (request.values.getD .empty).entries
    { Evaluation.Context.empty with angle := request.angle.getD .radians }
  refine hcontext.trans ?_
  dsimp only [Evaluation.Context.empty]
  rw [hvalues]

theorem get?_context (name : String) : request.context.values.get? name = request.values.bind (·.get? name) := by
  rw [context_eq]
  cases request.values <;> rfl

theorem ordinateAt_sample (e : Expr) (x : Float) : request.OrdinateAt e x (request.sample e x).y := by
  refine ⟨request.context.setVariable "x" x, by rw [context_eq]; rfl, by rw [context_eq]; rfl, fun name => ?_, fun v => ?_⟩
  · by_cases hname : name = "x"
    · rw [if_pos hname, hname]
      exact Bindings.get?_set_self _ _ _
    · rw [if_neg hname, ← request.get?_context]
      exact Bindings.get?_set_of_ne _ _ hname
  · unfold sample
    cases Evaluation.Fixed.evaluate (request.context.setVariable "x" x) e with
    | error _ => simp
    | ok y =>
      by_cases hfinite : y.isFinite = true
      · simp only [Evaluation.finite?, hfinite, Option.some.injEq, Except.ok.injEq, if_pos]
        exact ⟨fun h => ⟨h, h ▸ hfinite⟩, And.left⟩
      · simp only [Evaluation.finite?, hfinite, Except.ok.injEq]
        exact ⟨nofun, fun ⟨h, hv⟩ => absurd (h ▸ hv) hfinite⟩

/-- The result of a request that does not ask for too many points. Its points are the samples, in order, each behind a break
where the curve jumps; it has discontinuities if a point has no ordinate; and nowhere does it join ordinates that lie too
far apart. -/
theorem run_samples (request : Request) {e : Expr} (hpoints : request.numPoints ≤ 100000)
    (hparse : Expr.parse [] request.expression = .ok e) :
    ∃ (ordinate : Nat → Option Float) (result : Result), request.run = .ok result ∧
      let n := max request.numPoints 1
      let x := fun i => request.xMin + Float.ofNat i * ((request.xMax - request.xMin) / Float.ofNat n)
      (∀ i, request.OrdinateAt e (x i) (ordinate i)) ∧
      result.points = (List.range (n + 1)).flatMap (fun i =>
        (if BreaksAt ordinate i then [⟨x i, none⟩] else []) ++ [⟨x i, ordinate i⟩]) ∧
      (result.hasDiscontinuities = true ↔ ∃ p ∈ result.points, p.y = none) ∧
      n + 1 ≤ result.points.length ∧ result.points.length ≤ 2 * n + 1 ∧ result.points.IsChain Joined := by
  obtain ⟨sweep, hcurve, hswept⟩ := request.exists_swept e
  have hrun : request.run = .ok (request.curve e) := by
    have hfew : ¬maxPoints < request.numPoints := Nat.not_lt.mpr hpoints
    rw [run, if_neg hfew, hparse]
  have hlength := hswept.length_le
  refine ⟨request.ordinate e, request.curve e, hrun, fun i => request.ordinateAt_sample e _, ?_⟩
  rw [hcurve]
  exact ⟨hswept.points, hswept.broken, hswept.length_ge, by simpa [Nat.mul_succ, steps] using hlength, hswept.joined⟩

/-- A curve with a jump in front of its second sample, and a sample without ordinate behind it. The abscissa hides a
variable. -/
theorem run_samples_jump_and_pole :
    let request : Request :=
      { expression := "a/x", xMin := -2, xMax := 1, numPoints := 3, values := some (.ofList [("a", 4000), ("x", 0)]) }
    request.numPoints ≤ 100000 ∧ ∃ e result, Expr.parse [] request.expression = .ok e ∧ request.run = .ok result ∧
      4 ≤ result.points.length ∧ result.points.length ≤ 7 ∧ result.points.IsChain Joined ∧
      result.points.map (·.y.isSome) = [true, false, true, false, true] := by
  intro request
  have hparsed : (Expr.parse [] request.expression).toOption.isSome = true := by decide +kernel
  have hsampled : request.run.toOption.map (·.points.map (·.y.isSome)) = some [true, false, true, false, true] := by
    decide +kernel
  cases hparse : Expr.parse [] request.expression with
  | error error => simp [hparse, Except.toOption] at hparsed
  | ok e =>
    obtain ⟨-, result, hrun, -, -, -, hge, hle, hjoined⟩ := request.run_samples (by decide) hparse
    refine ⟨by decide, e, result, rfl, hrun, hge, hle, hjoined, ?_⟩
    simpa [hrun, Except.toOption] using hsampled

end Request
end Calculator.Graph
