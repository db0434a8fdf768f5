import Calculator.Client.Reply
import Calculator.Proofs.Wire.Evaluation
import Calculator.Worker
/-! What the worker answers to requests to evaluate, and what the client makes of the answer. -/
namespace Calculator

open Wire

namespace Worker

/-- The response that settles a request with this result. -/
def answer (id : String) : Except Failure Json → Response
  | .ok payload => ⟨id, .result, payload⟩
  | .error failure => ⟨id, .error, encode failure.payload⟩

theorem id_answer (id : String) (result : Except Failure Json) : (answer id result).id = id := by
  cases result <;> rfl

theorem isTerminal_answer (id : String) (result : Except Failure Json) : (answer id result).isTerminal = true := by
  cases result <;> rfl

theorem responses_emissionOf (id : String) (outcome : Outcome) :
    (emissionOf id outcome).responses =
      outcome.reports.map (fun payload => ⟨id, .progress, payload⟩) ++ [answer id outcome.result] := by
  obtain ⟨reports, result⟩ := outcome
  cases result <;> rfl

/-- All responses but the last are reports of progress. -/
theorem eq_answer_of_isTerminal {id : String} {outcome : Outcome} {r : Response}
    (hr : r ∈ (emissionOf id outcome).responses) (hterminal : r.isTerminal = true) : r = answer id outcome.result := by
  rw [responses_emissionOf, List.mem_append, List.mem_singleton] at hr
  rcases hr with hreport | hanswer
  · obtain ⟨payload, -, rfl⟩ := List.mem_map.mp hreport
    cases hterminal
  · exact hanswer

/-- A worker that is not stopped sends all responses. -/
theorem send_of_running (step : Nat) (responses : List Response) :
    send (fun _ => false) step responses = responses.map .message := by
  induction responses generalizing step with
  | nil => rfl
  | cons response responses ih => rw [send, if_neg Bool.false_ne_true, ih, List.map_cons]

theorem serve_of_emissionOf {handler : Request → Emission} {request : Request} {id : String} {outcome : Outcome}
    (hemission : handler request = emissionOf id outcome) (step : Nat) :
    serve handler (fun _ => false) step [request] = (emissionOf id outcome).responses.map .message := by
  rw [serve, if_neg Bool.false_ne_true, hemission]
  dsimp only
  rw [send_of_running]
  exact List.append_nil _

theorem outcomeOf_of_decode? {ρ : Type} [Wire ρ] {payload : Json} {request : ρ} (hread : decode? payload = some request)
    (act : ρ → Outcome) : outcomeOf payload act = act request := by
  rw [outcomeOf, hread]

section
variable (service : MatrixService) (id : String) {options : Evaluation.Options} (hsendable : options.Sendable)
include hsendable

theorem handle_evaluate (expression : String) :
    handle service ⟨id, .evaluate, encode (Evaluation.Request.mk expression options)⟩ =
      emissionOf id (evaluate ⟨expression, options⟩) :=
  congrArg (emissionOf id) (outcomeOf_of_decode? (hsendable.faithful_request expression) evaluate)

theorem handle_batch (expressions : List String) :
    handle service ⟨id, .batch, encode (Batch.Request.mk expressions options)⟩ =
      emissionOf id (batch ⟨expressions, options⟩) :=
  congrArg (emissionOf id) (outcomeOf_of_decode? (Batch.faithful_request hsendable expressions) batch)

end

end Worker

namespace Client.Reply

theorem settle_payload {ρ : Type} [Wire ρ] {result : ρ} (hresult : Faithful result) :
    (payload (encode result)).settle = Except.ok result := by
  rw [settle, hresult]

theorem ofResponse_failure (id : String) (failure : Worker.Failure) :
    ofResponse (Worker.answer id (.error failure)) = .failed (.worker failure.payload) := by
  have hread : ofResponse (Worker.answer id (.error failure)) =
      .failed (.worker (.ofJson (encode failure.payload))) := rfl
  rw [hread, ErrorPayload.ofJson_encode]

/-- The outcome of an evaluation, as the client tells it: a failure by its wording and its code. -/
theorem settle_evaluate (id : String) (request : Evaluation.Request) :
    (ofResponse (Worker.answer id (Worker.evaluate request).result)).settle =
      request.run.mapError fun error => .worker ⟨error.message, error.code?⟩ := by
  unfold Worker.evaluate Worker.Outcome.plain
  cases hrun : request.run with
  | ok result => exact settle_payload (Evaluation.Result.faithful fun _ => Evaluation.Request.isFinite_of_run hrun)
  | error error =>
    dsimp only
    rw [ofResponse_failure]
    rfl

theorem settle_batch (id : String) (request : Batch.Request) :
    (ofResponse (Worker.answer id (Worker.batch request).result)).settle = Except.ok request.run :=
  settle_payload request.faithful_run

end Client.Reply
end Calculator
