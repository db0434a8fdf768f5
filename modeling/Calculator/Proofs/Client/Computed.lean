import Calculator.Proofs.DenseMatrix.Shape
import Calculator.Proofs.Graph
import Calculator.Proofs.Wire.Matrix
import Calculator.Proofs.Worker
/-!
Curves and results of operations on matrices on their way to the caller. Their doubles are sent as they are computed,
and a double that is not finite is not read: an overflow on the way from finite numbers loses the whole result.
-/
namespace Calculator

open Wire

/-- A matrix that an operation gives has counts that fit, since its operands' do. -/
theorem MatrixRequest.countsFit_of_run {request : MatrixRequest} {output : MatrixOutput}
    (hcounts : ∀ m ∈ request.matrices, m.CountsFit) (hrun : request.run .dense = .ok (.ok output)) :
    output.result.CountsFit := by
  cases hresult : output.result with
  | matrix c =>
    obtain ⟨a, ha, b, hb, hshape⟩ := exists_operands_of_run hrun hresult
    obtain ⟨hrows, hcols⟩ := Shape.mk.inj hshape
    exact ⟨hrows ▸ (hcounts a ha).rows, hcols ▸ (hcounts b hb).cols⟩
  | scalar x => trivial
  | vector xs => trivial

namespace Client.Reply

theorem settle_of_faithfulIf {ρ : Type} [Wire ρ] {finite : Bool} {result : ρ} (hresult : FaithfulIf finite result) :
    (payload (encode result)).settle = if finite then Except.ok result else .error .malformed := by
  rw [settle, hresult]
  cases finite <;> rfl

theorem ofResponse_result (id : String) (v : Json) : ofResponse ⟨id, .result, v⟩ = payload v := rfl

/-- What a caller gets for a curve or for an operation on matrices that the worker has computed: the same result if all
of its abscissas, or all of its entries, are finite, and no result otherwise. -/
theorem settle_computed (id : String) :
    (∀ (request : Graph.Request) result, request.run = .ok result →
      (ofResponse ⟨id, .result, encode result⟩).settle =
        if ∀ i ≤ request.steps, (request.abscissa i).isFinite = true then Except.ok result else .error .malformed) ∧
    (∀ (request : MatrixRequest) output, (∀ m ∈ request.matrices, m.CountsFit) →
      request.run .dense = .ok (.ok output) →
      (ofResponse ⟨id, .result, encode output⟩).settle =
        if output.result.isFinite then Except.ok output else .error .malformed) := by
  constructor
  · intro request result hrun
    rw [ofResponse_result, settle_of_faithfulIf (Graph.Request.faithfulIf_run hrun)]
    simp only [decide_eq_true_eq]
  · intro request output hcounts hrun
    rw [ofResponse_result]
    exact settle_of_faithfulIf (MatrixOutput.faithfulIf (MatrixRequest.countsFit_of_run hcounts hrun))

/-- A curve over a range that is wider than the greatest double, and a determinant above it. -/
theorem settle_computed_overflows :
    let curve : Graph.Request := { expression := "x", xMin := -1e308, xMax := 1e308, numPoints := 2 }
    let determinant : MatrixRequest := ⟨.determinant, [⟨2, 2, [[1e200, 0], [0, 1e200]]⟩], none⟩
    (curve.Sendable ∧ ∃ result, curve.run = .ok result ∧
      (ofResponse ⟨"req_1", .result, encode result⟩).settle = (.error .malformed : Except Error Graph.Result)) ∧
    (determinant.Sendable ∧ ∃ output, determinant.run .dense = .ok (.ok output) ∧
      (ofResponse ⟨"req_1", .result, encode output⟩).settle = (.error .malformed : Except Error MatrixOutput)) := by
  intro curve determinant
  obtain ⟨hcurve, hmatrix⟩ := settle_computed "req_1"
  constructor
  · have hsampled : curve.run.toOption.isSome = true := by decide +kernel
    have hwide : ¬∀ i ≤ curve.steps, (curve.abscissa i).isFinite = true := by decide +kernel
    refine ⟨⟨by decide +kernel, by decide +kernel, by decide, fun _ hvalues => nomatch hvalues⟩, ?_⟩
    cases hrun : curve.run with
    | error error => simp [hrun, Except.toOption] at hsampled
    | ok result => exact ⟨result, rfl, (hcurve curve result hrun).trans (if_neg hwide)⟩
  · have hcounts : ∀ m ∈ determinant.matrices, m.CountsFit := by
      intro m hm
      rw [List.mem_singleton.mp hm]
      exact ⟨by decide, by decide⟩
    have hfinite : ∀ m ∈ determinant.matrices, m.isFinite = true := by decide +kernel
    have hcomputed : ((determinant.run .dense).toOption.bind Except.toOption).map (·.result.isFinite) = some false := by
      decide +kernel
    refine ⟨⟨hcounts, hfinite, fun _ hconstants => nomatch hconstants⟩, ?_⟩
    cases hrun : determinant.run .dense with
    | error crash => simp [hrun, Except.toOption] at hcomputed
    | ok outcome =>
      cases outcome with
      | error error => simp [hrun, Except.toOption] at hcomputed
      | ok output =>
        have hover : output.result.isFinite = false := by simpa [hrun, Except.toOption] using hcomputed
        refine ⟨output, rfl, (hmatrix determinant output hcounts hrun).trans (if_neg ?_)⟩
        simp [hover]

end Client.Reply
end Calculator
