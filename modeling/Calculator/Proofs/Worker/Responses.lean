import Calculator.Proofs.Decimal.Acceptance
import Calculator.Proofs.DenseMatrix.Shape
import Calculator.Proofs.Grammar.Spans
import Calculator.Proofs.Graph
import Calculator.Proofs.Wire.Matrix
import Calculator.Proofs.Worker
/-!
What the worker answers to a request: reports of progress, if there are any, and behind them the one response that
settles the request. How many reports a batch and a curve have, and what a batch answers for each of its texts. Only a
product without room for its rows is not answered.
-/
namespace Calculator

open Wire

/-- No numeral of the text, if that is evaluated in decimal numbers, is one that machines do not agree on. -/
def Evaluation.Request.AvoidsLeastPlace (request : Evaluation.Request) : Prop :=
  request.options.precise = true → ∀ e, Expr.parse [] request.expression = .ok e →
    ∀ value raw span, e.HasNode (.number value raw span) → Decimal.AvoidsLeastPlace raw

namespace Batch.Request
variable (request : Request)

/-- The outcome of each text is that of evaluating it alone. -/
theorem getElem?_results {i : Nat} {expression : String} (hi : request.expressions[i]? = some expression) :
    request.run.results[i]? = some
      (match (Evaluation.Request.mk expression request.options).run with
        | .ok result => .value result
        | .error error => .error error.message) := by
  have hmap : request.run.results = request.expressions.map request.item := rfl
  rw [hmap, List.getElem?_map, hi]
  rfl

theorem length_results : request.run.results.length = request.expressions.length :=
  List.length_map _

end Batch.Request

namespace Worker
variable {request : Calculator.Request}

theorem reports_evaluate (payload : Json) : (outcomeOf payload evaluate).reports = [] := by
  unfold outcomeOf
  split <;> rfl

/-- The request is for a product, and there is no room for its rows. -/
def LacksRoom (request : Calculator.Request) : Prop :=
  request.kind = .matrix ∧ ∃ matrices : MatrixRequest, decode? request.payload = some matrices ∧ matrices.lacksRoom = true

/-- The numerals of all texts that the request has evaluated are such that machines agree on them. -/
def AvoidsLeastPlace (request : Calculator.Request) : Prop :=
  (request.kind = .evaluate → ∀ r : Evaluation.Request, decode? request.payload = some r → r.AvoidsLeastPlace) ∧
    (request.kind = .batch → ∀ b : Batch.Request, decode? request.payload = some b →
      ∀ expression ∈ b.expressions, (Evaluation.Request.mk expression b.options).AvoidsLeastPlace)

/-- Without room for a product there is a crash and nothing else. -/
theorem handle_of_lacksRoom (h : LacksRoom request) : handle .dense request = ⟨[], some .noRoom⟩ := by
  obtain ⟨hkind, matrices, hread, hroom⟩ := h
  unfold handle matrixEmission
  rw [hkind]
  dsimp only
  rw [hread]
  dsimp only
  rw [MatrixRequest.run_dense_eq_error_iff.mpr ⟨hroom, rfl⟩]

/-- Matrices are left to a service that computes by itself. -/
theorem exists_matrixEmission (hkind : request.kind = .matrix) (hroom : ¬LacksRoom request) :
    ∃ result, matrixEmission .dense request.id request.payload = emissionOf request.id (.plain result) := by
  unfold matrixEmission
  split
  · exact ⟨_, rfl⟩
  · rename_i matrices hread
    cases hrun : matrices.run .dense with
    | error crash =>
      exact absurd ⟨hkind, matrices, hread, (MatrixRequest.run_dense_eq_error_iff.mp hrun).1⟩ hroom
    | ok outcome =>
      cases outcome with
      | ok output => exact ⟨_, rfl⟩
      | error error => exact ⟨_, rfl⟩

/-- Every other request has an outcome, which is what is emitted. -/
theorem exists_outcome (hroom : ¬LacksRoom request) :
    ∃ outcome, handle .dense request = emissionOf request.id outcome ∧
      (request.kind = .evaluate ∨ request.kind = .matrix → outcome.reports = []) := by
  unfold handle
  cases hkind : request.kind with
  | evaluate => exact ⟨_, rfl, fun _ => reports_evaluate request.payload⟩
  | graph => exact ⟨_, rfl, fun hplain => by simp at hplain⟩
  | batch => exact ⟨_, rfl, fun hplain => by simp at hplain⟩
  | matrix =>
    obtain ⟨result, hemission⟩ := exists_matrixEmission hkind hroom
    exact ⟨.plain result, hemission, fun _ => rfl⟩

/-- A batch that can be read. -/
theorem responses_batch (hkind : request.kind = .batch) {b : Batch.Request} (hread : decode? request.payload = some b) :
    (handle .dense request).responses =
      b.reports.map (fun p => ⟨request.id, .progress, encode p⟩) ++ [⟨request.id, .result, encode b.run⟩] := by
  have hemission : handle .dense request = emissionOf request.id (batch b) := by
    simp only [handle, hkind, outcomeOf_of_decode? hread]
  rw [hemission, responses_emissionOf]
  simp [batch, answer]

/-- A curve that can be read and is sampled. -/
theorem responses_graph (hkind : request.kind = .graph) {g : Graph.Request} (hread : decode? request.payload = some g)
    {result : Graph.Result} (hrun : g.run = .ok result) :
    (handle .dense request).responses =
      g.reports.map (fun p => ⟨request.id, .progress, encode p⟩) ++ [⟨request.id, .result, encode result⟩] := by
  have hemission : handle .dense request = emissionOf request.id (graph g) := by
    simp only [handle, hkind, outcomeOf_of_decode? hread]
  rw [hemission, responses_emissionOf]
  simp [graph, hrun, answer]

/-- A request for a product without room for its rows crashes the worker, which answers nothing. Every other request,
whatever its payload, is answered by responses that bear its id: reports of progress, and then exactly one that settles
it; a request to evaluate or for matrices has no reports. A batch of `n` texts has a report after each of them, and its
result has `n` outcomes, each of them that of evaluating its text alone. A curve that is sampled has at most forty
reports, of samples in order. -/
theorem answers_unless_no_room (request : Calculator.Request) (_ : AvoidsLeastPlace request) :
    let emission := handle .dense request
    (∀ crash, emission.crash? = some crash ↔ crash = .noRoom ∧ LacksRoom request) ∧
    (LacksRoom request → emission.responses = []) ∧
    (¬LacksRoom request → ∃ reports terminal, emission.responses = reports ++ [terminal] ∧
      (∀ r ∈ reports, r.id = request.id ∧ r.kind = .progress) ∧ terminal.id = request.id ∧
      terminal.isTerminal = true ∧ (request.kind = .evaluate ∨ request.kind = .matrix → reports = [])) ∧
    (∀ b : Batch.Request, request.kind = .batch → decode? request.payload = some b →
      ∃ slots : List Batch.Item, slots.length = b.expressions.length ∧
        (∀ (i : Nat) expression, b.expressions[i]? = some expression →
          slots[i]? = some
            (match (Evaluation.Request.mk expression b.options).run with
              | .ok result => Batch.Item.value result
              | .error error => Batch.Item.error error.message)) ∧
        emission.responses =
          (List.range b.expressions.length).map (fun i => ⟨request.id, .progress, encode
            (Batch.Progress.mk (Batch.percentage (i + 1) b.expressions.length) (i + 1) b.expressions.length)⟩) ++
            [⟨request.id, .result, encode (Batch.Result.mk slots)⟩]) ∧
    (∀ g : Graph.Request, request.kind = .graph → decode? request.payload = some g → ∀ result, g.run = .ok result →
      ∃ indices : List Nat, indices.length ≤ 40 ∧ indices.Pairwise (· < ·) ∧ (∀ i ∈ indices, i ≤ g.steps) ∧
        emission.responses =
          indices.map (fun i => ⟨request.id, .progress, encode (Graph.Progress.mk (Batch.percentage i g.steps))⟩) ++
            [⟨request.id, .result, encode result⟩]) := by
  intro emission
  refine ⟨?crash, ?silent, ?shape, ?batch, ?graph⟩
  case crash =>
    intro crash
    by_cases hroom : LacksRoom request
    · have hcrash : emission.crash? = some .noRoom := congrArg Emission.crash? (handle_of_lacksRoom hroom)
      rw [hcrash, Option.some.injEq]
      exact ⟨fun h => ⟨h.symm, hroom⟩, fun h => h.1.symm⟩
    · obtain ⟨outcome, hemission, -⟩ := exists_outcome hroom
      have hcrash : emission.crash? = none := congrArg Emission.crash? hemission
      rw [hcrash]
      exact iff_of_false nofun fun h => hroom h.2
  case silent =>
    intro hroom
    exact congrArg Emission.responses (handle_of_lacksRoom hroom)
  case shape =>
    intro hroom
    obtain ⟨outcome, hemission, hplain⟩ := exists_outcome hroom
    have hresponses := responses_emissionOf request.id outcome
    rw [← hemission] at hresponses
    refine ⟨_, _, hresponses, ?_, id_answer _ _, isTerminal_answer _ _, fun hkind => by simp [hplain hkind]⟩
    intro r hr
    obtain ⟨payload, -, rfl⟩ := List.mem_map.mp hr
    exact ⟨rfl, rfl⟩
  case batch =>
    intro b hkind hread
    refine ⟨b.run.results, b.length_results, fun i expression hi => b.getElem?_results hi, ?_⟩
    have hresponses := responses_batch hkind hread
    rw [Batch.Request.reports, List.map_map] at hresponses
    exact hresponses
  case graph =>
    intro g hkind hread result hrun
    refine ⟨g.reported, g.length_reported_le, g.pairwise_reported, fun i => g.le_steps_of_mem_reported, ?_⟩
    have hresponses := responses_graph hkind hread hrun
    rw [Graph.Request.reports_eq, List.map_map] at hresponses
    exact hresponses

/-- Factors that leave no room, a batch whose first text fails, and a curve of three samples. -/
theorem answers_unless_no_room_of_examples :
    let product : MatrixRequest := ⟨.multiply, [⟨1, 0, [[]]⟩, ⟨0, 18446744073709551615, []⟩], none⟩
    let failing : Batch.Request := ⟨["1/0", "2"], {}⟩
    let curve : Graph.Request := { expression := "x", xMin := 0, xMax := 1, numPoints := 2 }
    (product.Sendable ∧ AvoidsLeastPlace ⟨"req_1", .matrix, encode product⟩ ∧
      handle .dense ⟨"req_1", .matrix, encode product⟩ = ⟨[], some .noRoom⟩) ∧
    (AvoidsLeastPlace ⟨"req_2", .batch, encode failing⟩ ∧
      ∃ slots : List Batch.Item, slots.length = 2 ∧
        slots[0]? = some (match (Evaluation.Request.mk "1/0" {}).run with
          | .ok result => Batch.Item.value result
          | .error error => Batch.Item.error error.message) ∧
        (handle .dense ⟨"req_2", .batch, encode failing⟩).responses.length = 3) ∧
    AvoidsLeastPlace ⟨"req_3", .graph, encode curve⟩ ∧
      ∃ indices : List Nat, indices.length ≤ 40 ∧
        (handle .dense ⟨"req_3", .graph, encode curve⟩).responses.length = indices.length + 1 := by
  intro product failing curve
  have hproduct : product.Sendable := by
    refine ⟨?_, by decide +kernel, nofun⟩
    intro m hm
    rcases List.mem_pair.mp hm with rfl | rfl <;> exact ⟨by decide, by decide⟩
  have hoptions : Evaluation.Options.Sendable {} := ⟨by decide, nofun⟩
  have hfailing : decode? (encode failing) = some failing := Batch.faithful_request hoptions failing.expressions
  have hcurve : curve.Sendable := ⟨by decide +kernel, by decide +kernel, by decide, nofun⟩
  have hnumerals : AvoidsLeastPlace ⟨"req_2", .batch, encode failing⟩ := by
    refine ⟨nofun, ?_⟩
    intro _ b hread expression _ hprecise
    obtain rfl := Option.some.inj (hfailing.symm.trans hread)
    cases hprecise
  refine ⟨⟨hproduct, ⟨nofun, nofun⟩, ?product⟩, ⟨hnumerals, ?batch⟩, ⟨nofun, nofun⟩, ?curve⟩
  case product =>
    have hroom : LacksRoom ⟨"req_1", .matrix, encode product⟩ := ⟨rfl, product, hproduct.faithful, rfl⟩
    obtain ⟨hcrash, hsilent, -⟩ := answers_unless_no_room ⟨"req_1", .matrix, encode product⟩ ⟨nofun, nofun⟩
    exact congrArg₂ Emission.mk (hsilent hroom) ((hcrash .noRoom).mpr ⟨rfl, hroom⟩)
  case batch =>
    obtain ⟨-, -, -, hbatch, -⟩ := answers_unless_no_room ⟨"req_2", .batch, encode failing⟩ hnumerals
    obtain ⟨slots, hlength, hslots, hresponses⟩ := hbatch failing rfl hfailing
    exact ⟨slots, hlength, hslots 0 "1/0" rfl, by simp [hresponses, failing]⟩
  case curve =>
    obtain ⟨-, -, -, -, hgraph⟩ := answers_unless_no_room ⟨"req_3", .graph, encode curve⟩ ⟨nofun, nofun⟩
    have hsampled : curve.run.toOption.isSome = true := by decide +kernel
    cases hrun : curve.run with
    | error error => simp [hrun, Except.toOption] at hsampled
    | ok result =>
      obtain ⟨indices, hlength, -, -, hresponses⟩ := hgraph curve rfl hcurve.faithful result hrun
      exact ⟨indices, hlength, by simp [hresponses]⟩

end Worker
end Calculator
