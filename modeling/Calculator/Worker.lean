import Calculator.Wire.Batch
import Calculator.Wire.Graph
import Calculator.Wire.Matrix
import Calculator.Wire.Message
/-!
The worker: it answers each request with reports of progress, if it has any, and then with one result or
error. Its loop serves requests in order until they end, it is stopped, or it crashes.
-/
namespace Calculator.Worker

/-- Why a request has no result. -/
inductive Failure
  | invalidPayload
  | evaluation (error : Evaluation.TextError)
  | graph (error : Graph.Failure)
  | matrix (error : MatrixError)
deriving DecidableEq, Repr

def Failure.payload : Failure → ErrorPayload
  | invalidPayload => { message := "Invalid payload" }
  | evaluation error => { message := error.message, code := error.code? }
  | graph error => { message := error.message }
  | matrix error => { message := error.message }

/-- The outcome of a request: reports of progress, and a result or a failure. -/
structure Outcome where
  reports : List Json
  result : Except Failure Json

def Outcome.plain (result : Except Failure Json) : Outcome := ⟨[], result⟩

/-- The outcome of a request with this payload, whose reports come before a result. -/
def outcomeOf {ρ : Type} [Wire ρ] (payload : Json) (act : ρ → Outcome) : Outcome :=
  match decode? payload with
  | some request => act request
  | none => .plain (.error .invalidPayload)

def evaluate (request : Evaluation.Request) : Outcome :=
  .plain <|
    match request.run with
    | .ok result => .ok (encode result)
    | .error error => .error (.evaluation error)

def graph (request : Graph.Request) : Outcome :=
  match request.run with
  | .ok result => ⟨request.reports.map encode, .ok (encode result)⟩
  | .error error => .plain (.error (.graph error))

/-- The outcome of a request to evaluate many texts. -/
def batch (request : Batch.Request) : Outcome :=
  ⟨request.reports.map encode, .ok (encode request.run)⟩

/-- What a request emits: responses, and a crash behind them if there is one. -/
structure Emission where
  responses : List Response
  crash? : Option Crash

/-- What is emitted for an outcome: a report each, and one response that settles the request. -/
def emissionOf (id : String) (outcome : Outcome) : Emission where
  responses :=
    outcome.reports.map (fun payload => ⟨id, .progress, payload⟩) ++
      [match outcome.result with
        | .ok payload => ⟨id, .result, payload⟩
        | .error failure => ⟨id, .error, encode failure.payload⟩]
  crash? := none

def matrixEmission (service : MatrixService) (id : String) (payload : Json) : Emission :=
  match decode? payload with
  | none => emissionOf id (.plain (.error .invalidPayload))
  | some (request : MatrixRequest) =>
    match request.run service with
    | .error crash => ⟨[], some crash⟩
    | .ok (.ok output) => emissionOf id (.plain (.ok (encode output)))
    | .ok (.error error) => emissionOf id (.plain (.error (.matrix error)))

/-- What a request emits, with matrices left to a service. -/
def handle (service : MatrixService) (request : Request) : Emission :=
  match request.kind with
  | .evaluate => emissionOf request.id (outcomeOf request.payload evaluate)
  | .graph => emissionOf request.id (outcomeOf request.payload graph)
  | .batch => emissionOf request.id (outcomeOf request.payload batch)
  | .matrix => matrixEmission service request.id request.payload

/-- What a worker sends. -/
inductive Event
  | message (response : Response)
  /-- The worker has crashed, and will not answer again. -/
  | fault (message : String)

/-- The responses that are sent: those before the worker is stopped. `stopped` tells of each step whether it is. -/
def send (stopped : Nat → Bool) (step : Nat) : List Response → List Event
  | [] => []
  | response :: rest =>
    if stopped step then send stopped (step + 1) rest
    else .message response :: send stopped (step + 1) rest

/-- What the worker's loop sends for its requests in order; each request and each response takes a step. -/
def serve (handler : Request → Emission) (stopped : Nat → Bool) (step : Nat) : List Request → List Event
  | [] => []
  | request :: rest =>
    if stopped step then []
    else
      let emission := handler request
      let sent := send stopped (step + 1) emission.responses
      match emission.crash? with
      | some crash => sent ++ [.fault crash.message]
      | none => sent ++ serve handler stopped (step + 1 + emission.responses.length) rest

end Calculator.Worker
