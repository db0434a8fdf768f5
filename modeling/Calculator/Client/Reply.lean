import Calculator.Wire.Message
/-! What a client hears about a request: the payload of its result, or why there is none. -/
namespace Calculator.Client

/-- Why a request has no result. -/
inductive Error
  /-- The client was told to stop, or let go of the worker. -/
  | terminated
  | workerFault (message : String)
  | worker (payload : ErrorPayload)
  | transport (message : String)
  | malformed
deriving DecidableEq, Repr

namespace Error

def message : Error → String
  | terminated => "Worker terminated"
  | workerFault message => s!"Worker error: {message}"
  | worker payload => payload.message
  | transport message => s!"Failed to post request: {message}"
  | malformed => "Malformed worker payload"

/-- The kind of the failure, where a worker told it. -/
def code? : Error → Option ErrorCode
  | worker payload => payload.code
  | _ => none

end Error

/-- What is sent to the holder of a handle. -/
inductive Reply
  | payload (v : Json)
  | failed (error : Error)

def Reply.settle {ρ : Type} [Wire ρ] : Reply → Except Error ρ
  | payload v =>
    match decode? v with
    | some result => .ok result
    | none => .error .malformed
  | failed error => .error error

/-- The reply that a response brings which settles its request. -/
def Reply.ofResponse (r : Response) : Reply :=
  if r.kind = .error then .failed (.worker (.ofJson r.payload)) else .payload r.payload

end Calculator.Client
