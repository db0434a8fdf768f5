import Calculator.Evaluation.Error
import Calculator.Json
/-! The messages between a client and its worker: requests, and the responses that bear their ids. -/
namespace Calculator

/-- What a request asks for. -/
inductive RequestKind
  | evaluate | graph | matrix | batch
deriving DecidableEq, Repr

namespace RequestKind

def all : List RequestKind := [evaluate, graph, matrix, batch]

def name : RequestKind → String
  | evaluate => "evaluate"
  | graph => "graph"
  | matrix => "matrix"
  | batch => "batch"

end RequestKind

/-- What a response brings. -/
inductive ResponseKind
  | result | error | progress
deriving DecidableEq, Repr

namespace ResponseKind

def all : List ResponseKind := [result, error, progress]

def name : ResponseKind → String
  | result => "result"
  | error => "error"
  | progress => "progress"

end ResponseKind

/-- A request, with a payload that only the worker looks into. -/
structure Request where
  id : String
  kind : RequestKind
  payload : Json := .null

/-- A response, with a payload that only the client looks into. -/
structure Response where
  id : String
  kind : ResponseKind
  payload : Json := .null

def Response.isTerminal (r : Response) : Bool := r.kind != .progress

/-- The payload of a response that brings an error. -/
structure ErrorPayload where
  message : String
  code : Option ErrorCode := none
deriving DecidableEq, Repr

end Calculator
