import Calculator.Bindings
import Calculator.Client.Reply
import Calculator.Worker
/-!
The client of a worker. Every worker it starts is a generation with its own table of pending requests and a
router, which takes the worker's events one by one. A request is dispatched in steps, between which routers may
step: `renew` lets go of a worker that is known to be dead, `start` enters a new one, `enlist` puts the request
into the table, and `withdraw` takes it back if it could not be posted. A router steps too while a callback runs,
while a worker that is known to be dead still has requests, and while it ends.

Who takes an entry out of a table is the only one who can reply to it, so taking it out and replying are one step.
-/
namespace Calculator
namespace Client

/-- What the holder of a handle can see. -/
structure Handle where
  replies : List Reply := []
  taken : Nat := 0
  /-- Whether nobody can reply any more. -/
  hungUp : Bool := false
  /-- The payloads of the reports of progress so far. -/
  progress : List Json := []

/-- A pending request. -/
structure Entry where
  handle : Nat
  /-- Whether a callback is there, which takes reports of progress. -/
  listening : Bool
deriving DecidableEq, Repr

/-- What a router does next. -/
inductive Phase
  /-- It takes up an event, or notices that none can come. -/
  | waiting
  /-- It runs the callback of a request, which it has taken from the entry. -/
  | calling (id : String) (handle : Nat) (payload : Json)
  /-- It puts the callback back, once that has returned. -/
  | restoring (id : String)
  /-- The worker is known to be dead: it rejects all that wait. -/
  | rejecting (message : String)
  /-- It has rejected all that waited when the events ended, and goes on to mark the worker as dead if there were
  any. -/
  | leaving (stranded : Bool)
  | ended

/-- Whether the router has rejected for the last time. -/
def Phase.isOver : Phase → Bool
  | leaving _ | ended => true
  | _ => false

/-- A worker that was started, and the requests that wait for it. -/
structure Generation where
  pending : Bindings Entry := .empty
  faulted : Bool := false
  /-- The events that were sent, and that the router has not taken up. -/
  inbox : List Worker.Event := []
  /-- Whether no more events can be sent. -/
  closed : Bool := false
  phase : Phase := .waiting

end Client

open Client in
/-- A client. -/
structure Client where
  dispatched : Nat := 0
  generations : List Generation := []
  /-- The place of the worker that requests are posted to. -/
  current? : Option Nat := none
  handles : List Handle := []

namespace Client

def currentGeneration? (c : Client) : Option Generation :=
  c.current?.bind fun g => c.generations[g]?

def isRunning (c : Client) : Bool :=
  c.currentGeneration?.any fun g => !g.faulted

/-- The number of requests that wait for the current worker. -/
def pendingCount (c : Client) : Nat :=
  (c.currentGeneration?.map fun g => g.pending.entries.length).getD 0

def modifyGeneration (c : Client) (g : Nat) (f : Generation → Generation) : Client :=
  { c with generations := c.generations.modify g f }

def modifyHandle (c : Client) (h : Nat) (f : Handle → Handle) : Client :=
  { c with handles := c.handles.modify h f }

/-- The handle after a reply has been sent to it, and nobody can send another. -/
def Handle.receive (reply : Reply) (h : Handle) : Handle :=
  { h with replies := h.replies ++ [reply], hungUp := true }

/-- The handle after its request has been let go of. -/
def Handle.abandon (h : Handle) : Handle :=
  { h with hungUp := true }

/-- Takes the entries with these ids out of the table of a generation, and changes their handles. -/
def settle (c : Client) (g : Nat) (ids : String → Bool) (f : Handle → Handle) : Client :=
  match c.generations[g]? with
  | none => c
  | some generation =>
    let taken := generation.pending.filter ids
    taken.entries.foldl (fun c e => c.modifyHandle e.2.handle f)
      (c.modifyGeneration g fun generation =>
        { generation with pending := generation.pending.filter fun id => !ids id })

/-- Sends an error to all requests that wait for a generation. -/
def rejectAll (c : Client) (g : Nat) (error : Error) : Client :=
  c.settle g (fun _ => true) (Handle.receive (.failed error))

/-- Lets go of all requests that wait for a generation, when its table is gone. -/
def abandonAll (c : Client) (g : Nat) : Client :=
  c.settle g (fun _ => true) Handle.abandon

/-! ### Routers -/

def setPhase (c : Client) (g : Nat) (phase : Phase) : Client :=
  c.modifyGeneration g fun generation => { generation with phase }

/-- The client with a worker marked as dead, and its router in another phase. -/
def markFaulted (c : Client) (g : Nat) (phase : Phase) : Client :=
  c.modifyGeneration g fun generation => { generation with faulted := true, phase }

/-- The client with other events for a router to take up. -/
def setInbox (c : Client) (g : Nat) (inbox : List Worker.Event) : Client :=
  c.modifyGeneration g fun generation => { generation with inbox }

/-- The pending request with the id, in the table of a generation. -/
def pending? (c : Client) (g : Nat) (id : String) : Option Entry :=
  c.generations[g]?.bind fun generation => generation.pending.get? id

/-- Gives an entry its callback, or takes it. -/
def setListening (c : Client) (g : Nat) (id : String) (listening : Bool) : Client :=
  c.modifyGeneration g fun generation =>
    { generation with pending := generation.pending.modify id fun entry => { entry with listening } }

/-- Takes up a report of progress: the callback of its request is taken, to be run. Unknown ids are ignored. -/
def takeUpReport (c : Client) (g : Nat) (r : Response) : Client :=
  match c.pending? g r.id with
  | some entry =>
    if entry.listening then (c.setListening g r.id false).setPhase g (.calling r.id entry.handle r.payload) else c
  | none => c

/-- Takes up a response: a report goes to its request, and anything else settles it. Unknown ids are ignored. -/
def deliver (c : Client) (g : Nat) (r : Response) : Client :=
  if r.isTerminal then c.settle g (· == r.id) (Handle.receive (.ofResponse r)) else c.takeUpReport g r

/-- Takes up an event. After a fault the worker is known to be dead, and all that wait are rejected next. -/
def takeUp (c : Client) (g : Nat) : Worker.Event → Client
  | .message r => c.deliver g r
  | .fault message => c.markFaulted g (.rejecting message)

/-- The step of a router that is waiting. When no more events can come, it rejects all that wait. -/
def await (c : Client) (g : Nat) (generation : Generation) : Client :=
  match generation.inbox with
  | event :: rest => (c.setInbox g rest).takeUp g event
  | [] =>
    if generation.closed then
      (c.rejectAll g (.workerFault "Worker exited")).setPhase g (.leaving !generation.pending.entries.isEmpty)
    else c

/-- Ends a router. If the client has let go of its worker, the table is gone. -/
def finish (c : Client) (g : Nat) : Client :=
  let c := c.setPhase g .ended
  if c.current? = some g then c else c.abandonAll g

def route (c : Client) (g : Nat) : Client :=
  match c.generations[g]? with
  | none => c
  | some generation =>
    match generation.phase with
    | .waiting => c.await g generation
    | .calling id handle payload =>
      (c.modifyHandle handle fun h => { h with progress := h.progress ++ [payload] }).setPhase g (.restoring id)
    | .restoring id => (c.setListening g id true).setPhase g .waiting
    | .rejecting message => (c.rejectAll g (.workerFault message)).setPhase g .waiting
    | .leaving true => c.markFaulted g (.leaving false)
    | .leaving false => c.finish g
    | .ended => c

/-- How many steps a router has to do at most, while nothing comes. An event takes three with its callback, and so
does the end. -/
def Generation.stepsLeft (generation : Generation) : Nat :=
  3 * generation.inbox.length + 6

/-- Lets a generation's router step until it has nothing to do. -/
def routeAll (c : Client) (g : Nat) : Client :=
  ((c.generations[g]?.map Generation.stepsLeft).getD 0).fold (fun _ _ c => c.route g) c

/-- Lets all routers step until they have nothing to do. -/
def quiesce (c : Client) : Client :=
  (List.range c.generations.length).foldl routeAll c

/-! ### Workers -/

/-- A worker sends an event, unless it has gone away. -/
def receive (c : Client) (g : Nat) (event : Worker.Event) : Client :=
  c.modifyGeneration g fun generation =>
    if generation.closed then generation else { generation with inbox := generation.inbox ++ [event] }

/-- A worker goes away, and sends no more events. -/
def close (c : Client) (g : Nat) : Client :=
  c.modifyGeneration g fun generation => { generation with closed := true }

/-! ### Requests -/

/-- Lets go of the current worker. If its router has ended, so has all hope for those that wait for it. -/
def letGo (c : Client) : Client :=
  match c.current?, c.currentGeneration? with
  | some g, some generation =>
    let c := { c with current? := none }
    match generation.phase with
    | .ended => c.abandonAll g
    | _ => c
  | _, _ => c

/-- Stops the current worker, and rejects all that wait for it. -/
def terminate (c : Client) : Client :=
  match c.current? with
  | some g => (c.rejectAll g .terminated).letGo
  | none => c

def idOf (n : Nat) : String := s!"req_{n}"

def lastId (c : Client) : String := idOf c.dispatched

/-- Begins a dispatch: counts it, and lets go of a worker that is known to be dead. -/
def renew (c : Client) : Client :=
  let c := { c with dispatched := c.dispatched + 1 }
  if c.currentGeneration?.any (·.faulted) then c.letGo else c

def needsWorker (c : Client) : Bool := c.current?.isNone

def start (c : Client) : Client :=
  { c with current? := some c.generations.length, generations := c.generations ++ [{}] }

/-- Ends a dispatch for which no worker could be started. -/
def refuse (c : Client) (error : Error) : Client :=
  { c with handles := c.handles ++ [Handle.receive (.failed error) {}] }

/-- Puts the request into the table of the current worker. -/
def enlist (c : Client) (listening : Bool) : Client :=
  match c.current? with
  | none => c
  | some g =>
    { c.modifyGeneration g fun generation =>
        { generation with pending := generation.pending.set c.lastId ⟨c.handles.length, listening⟩ } with
      handles := c.handles ++ [{}] }

/-- Takes back a request that could not be posted, if it still waits. -/
def withdraw (c : Client) (id : String) (error : Error) : Client :=
  match c.current? with
  | none => c
  | some g => c.settle g (· == id) (Handle.receive (.failed error))

/-! ### Handles -/

/-- What a look at a handle finds. -/
inductive Sight
  | pending
  | reply (r : Reply)

/-- Looks at a handle. A reply is taken by the first look at it. -/
def look (c : Client) (h : Nat) : Client × Sight :=
  match c.handles[h]? with
  | none => (c, .pending)
  | some handle =>
    match handle.replies[handle.taken]? with
    | some r => (c.modifyHandle h fun handle => { handle with taken := handle.taken + 1 }, .reply r)
    | none => (c, if handle.hungUp then .reply (.failed .terminated) else .pending)

end Client
end Calculator
