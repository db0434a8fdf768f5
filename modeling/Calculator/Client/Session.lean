import Calculator.Client
/-!
A client together with the workers that it has started. Requests are dispatched in one go, and routers run
between requests until they have nothing to do.
-/
namespace Calculator.Client

/-- What a worker does when a request is posted to it. -/
structure Posting where
  error? : Option Error := none
  events : List Worker.Event := []
  leaves : Bool := false

abbrev Mailbox := Request → Posting

/-- A worker that serves each request as it comes, and goes away if it crashes. -/
def Mailbox.worker (service : MatrixService) : Mailbox := fun request =>
  { events := Worker.serve (Worker.handle service) (fun _ => false) 0 [request]
    leaves := (Worker.handle service request).crash?.isSome }

/-- A client and its workers. -/
structure Session where
  client : Client := {}
  mailboxes : List Mailbox := []

namespace Session

/-- What happens when a request is posted to a worker: one that has gone away takes none. -/
def posting (s : Session) (g : Nat) (request : Request) : Posting :=
  match s.client.generations[g]?, s.mailboxes[g]? with
  | some generation, some mailbox =>
    if generation.closed then { error? := some (.transport "worker has stopped") } else mailbox request
  | _, _ => { error? := some (.transport "worker unavailable") }

/-- Posts a request that is in the table of the current worker. -/
def post (s : Session) (request : Request) : Session :=
  match s.client.current? with
  | none => s
  | some g =>
    let posting := s.posting g request
    let client :=
      match posting.error? with
      | some error => s.client.withdraw request.id error
      | none => posting.events.foldl (fun c event => c.receive g event) s.client
    { s with client := if posting.leaves then client.close g else client }

/-- Dispatches a request. `create` is the worker that is started if one is needed, or why none can be. -/
def dispatch (s : Session) (create : Except Error Mailbox) (kind : RequestKind) (payload : Json)
    (wantsProgress : Bool) : Session :=
  let renewed := { s with client := s.client.renew }
  let ready : Except Error Session :=
    if renewed.client.needsWorker then
      create.map fun mailbox => ⟨renewed.client.start, renewed.mailboxes ++ [mailbox]⟩
    else .ok renewed
  match ready with
  | .error error => { renewed with client := renewed.client.refuse error }
  | .ok s =>
    let client := s.client.enlist wantsProgress
    let s := { s with client }.post ⟨client.lastId, kind, payload⟩
    { s with client := s.client.quiesce }

def evaluate (s : Session) (create : Except Error Mailbox) (request : Evaluation.Request) (wantsProgress : Bool) :
    Session :=
  s.dispatch create .evaluate (encode request) wantsProgress

def batch (s : Session) (create : Except Error Mailbox) (request : Batch.Request) (wantsProgress : Bool) : Session :=
  s.dispatch create .batch (encode request) wantsProgress

def graph (s : Session) (create : Except Error Mailbox) (request : Graph.Request) (wantsProgress : Bool) : Session :=
  s.dispatch create .graph (encode request) wantsProgress

def matrix (s : Session) (create : Except Error Mailbox) (request : MatrixRequest) (wantsProgress : Bool) : Session :=
  s.dispatch create .matrix (encode request) wantsProgress

def terminate (s : Session) : Session :=
  { s with client := s.client.terminate.quiesce }

def receive (s : Session) (g : Nat) (event : Worker.Event) : Session :=
  { s with client := (s.client.receive g event).quiesce }

def close (s : Session) (g : Nat) : Session :=
  { s with client := (s.client.close g).quiesce }

end Session
end Calculator.Client
