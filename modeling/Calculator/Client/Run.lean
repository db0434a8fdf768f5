import Calculator.Client
/-!
A client among its workers. The client's own steps come in the order of a dispatch. Routers, workers and holders of
handles step in any order between them: whether a worker can be started, whether a request can be posted to it, and
what it sends is up to the worker.
-/
namespace Calculator.Client

/-- Where the client stands between its own steps. -/
inductive Stage
  | idle
  | counted
  | posting

/-- A client and where it stands. -/
structure State where
  client : Client := {}
  stage : Stage := .idle

/-- What can happen next. -/
inductive Move
  | renew
  | start
  | refuse (error : Error)
  | enlist (listening : Bool)
  | post
  | withdraw (error : Error)
  | terminate
  | route (g : Nat)
  | receive (g : Nat) (event : Worker.Event)
  | close (g : Nat)
  | look (h : Nat)

/-- One step of the client, a router, a worker or a holder. -/
inductive Step : State → Move → State → Prop
  | renew (c : Client) : Step ⟨c, .idle⟩ .renew ⟨c.renew, .counted⟩
  | start {c : Client} (hneeds : c.needsWorker = true) : Step ⟨c, .counted⟩ .start ⟨c.start, .counted⟩
  | refuse {c : Client} (error : Error) (hneeds : c.needsWorker = true) :
      Step ⟨c, .counted⟩ (.refuse error) ⟨c.refuse error, .idle⟩
  | enlist {c : Client} (listening : Bool) (hneeds : c.needsWorker = false) :
      Step ⟨c, .counted⟩ (.enlist listening) ⟨c.enlist listening, .posting⟩
  | post (c : Client) : Step ⟨c, .posting⟩ .post ⟨c, .idle⟩
  | withdraw (c : Client) (error : Error) :
      Step ⟨c, .posting⟩ (.withdraw error) ⟨c.withdraw c.lastId error, .idle⟩
  | terminate (c : Client) : Step ⟨c, .idle⟩ .terminate ⟨c.terminate, .idle⟩
  | route (c : Client) (stage : Stage) (g : Nat) : Step ⟨c, stage⟩ (.route g) ⟨c.route g, stage⟩
  | receive (c : Client) (stage : Stage) (g : Nat) (event : Worker.Event) :
      Step ⟨c, stage⟩ (.receive g event) ⟨c.receive g event, stage⟩
  | close (c : Client) (stage : Stage) (g : Nat) : Step ⟨c, stage⟩ (.close g) ⟨c.close g, stage⟩
  | look (c : Client) (stage : Stage) (h : Nat) : Step ⟨c, stage⟩ (.look h) ⟨(c.look h).1, stage⟩

/-- What has happened, the first move first: every move with the state that it was made in. -/
abbrev History := List (State × Move)

/-- The histories of a new client, and the states that they lead to. -/
inductive Run : History → State → Prop
  | new : Run [] {}
  | step {past : History} {s s' : State} {m : Move} (hpast : Run past s) (hstep : Step s m s') :
      Run (past ++ [(s, m)]) s'

/-! ### What a history tells -/

/-- A request that was put into a table. -/
structure Enlistment where
  handle : Nat
  generation : Nat
  id : String
  listening : Bool
deriving DecidableEq

/-- The request that a move puts into a table. -/
def enlistment? : State × Move → Option Enlistment
  | (s, .enlist listening) =>
    s.client.current?.map fun g => ⟨s.client.handles.length, g, s.client.lastId, listening⟩
  | _ => none

def enlistments (past : History) : List Enlistment := past.filterMap enlistment?

def idGiven? : State × Move → Option String
  | (s, .renew) => some s.client.renew.lastId
  | _ => none

def idsGiven (past : History) : List String := past.filterMap idGiven?

def phase? (c : Client) (g : Nat) : Option Phase := c.generations[g]?.map Generation.phase

/-- The event that a router takes up when it steps. -/
def nextEvent? (c : Client) (g : Nat) : Option Worker.Event :=
  c.generations[g]?.bind fun generation =>
    match generation.phase with
    | .waiting => generation.inbox.head?
    | _ => none

/-- The event that a move makes the router of a generation take up. -/
def takenUp? (g : Nat) : State × Move → Option Worker.Event
  | (s, .route g') => if g' = g then s.client.nextEvent? g else none
  | _ => none

def takenUp (past : History) (g : Nat) : List Worker.Event := past.filterMap (takenUp? g)

def arrived? (g : Nat) : State × Move → Option Worker.Event
  | (s, .receive g' event) =>
    if g' = g ∧ (s.client.generations[g]?.any fun generation => !generation.closed) then some event else none
  | _ => none

def arrived (past : History) (g : Nat) : List Worker.Event := past.filterMap (arrived? g)

/-- The payload of the report for the id that a move makes the router take up, if the id is in the table. -/
def report? (g : Nat) (id : String) (x : State × Move) : Option Json :=
  match takenUp? g x with
  | some (.message r) =>
    if r.kind = .progress ∧ r.id = id ∧ (x.1.client.pending? g id).isSome then some r.payload else none
  | _ => none

/-- The payloads of the reports for the id that were taken up while it was in the table of the generation. -/
def reports (past : History) (g : Nat) (id : String) : List Json := past.filterMap (report? g id)

/-- Whether a router steps for the last time before it leaves: no events are left, and none can come. -/
def exhausted (c : Client) (g : Nat) : Prop :=
  ∃ generation, c.generations[g]? = some generation ∧ generation.inbox = [] ∧ generation.closed = true

/-- The ways in which a request can get a reply. -/
inductive Cause (past : History) (e : Enlistment) : Reply → Prop
  | response (r : Response) (hr : .message r ∈ takenUp past e.generation) (hid : r.id = e.id)
      (hterminal : r.isTerminal = true) : Cause past e (.ofResponse r)
  | fault (message : String) (hfault : .fault message ∈ takenUp past e.generation) :
      Cause past e (.failed (.workerFault message))
  | leave (s : State) (hmove : (s, .route e.generation) ∈ past) (hexhausted : s.client.exhausted e.generation) :
      Cause past e (.failed (.workerFault "Worker exited"))
  | terminate (s : State) (hmove : (s, .terminate) ∈ past) (hcurrent : s.client.current? = some e.generation) :
      Cause past e (.failed .terminated)
  | withdraw (s : State) (error : Error) (hmove : (s, .withdraw error) ∈ past) (hid : s.client.lastId = e.id) :
      Cause past e (.failed error)

/-- The report that a router has taken up for a handle, and that the callback has not heard. -/
def Phase.inFlight : Phase → Nat → List Json
  | calling _ handle payload, h => if handle = h then [payload] else []
  | _, _ => []

/-- The report that a generation's router is about to run the callback of a handle with. -/
def inFlight (c : Client) (g h : Nat) : List Json :=
  ((c.phase? g).map fun phase => phase.inFlight h).getD []

end Calculator.Client
