import Calculator.Proofs.Client.Replies
import Calculator.Proofs.Client.Session
import Calculator.Proofs.Client.Stranding
import Calculator.Proofs.Worker
/-!
A session whose worker serves: a router has enough steps to take up all reports of a request and then its response,
while the request waits, and so each request is replied to.
-/
namespace Calculator.Client

/-! ### On the way to a response -/

/-- How many steps a router takes until it waits, if it is on its way there. -/
def Phase.stepsToWaiting? : Phase → Option Nat
  | waiting => some 0
  | restoring _ => some 1
  | calling .. => some 2
  | rejecting _ | leaving _ | ended => none

/-- A request waits, and the router of its worker is going to take up reports and then a response to it. -/
structure Awaits (c : Client) (e : Enlistment) (reports : List Response) (r : Response) (n : Nat) : Prop where
  phase : (c.phase? e.generation).bind Phase.stepsToWaiting? = some n
  inbox : c.inbox e.generation = (reports ++ [r]).map .message
  reports : ∀ report ∈ reports, report.isTerminal = false
  terminal : r.isTerminal = true
  id : r.id = e.id
  pending : (c.pending? e.generation e.id).map Entry.handle = some e.handle

theorem inbox_of_generation {c : Client} {g : Nat} {generation : Generation}
    (hgeneration : c.generations[g]? = some generation) : c.inbox g = generation.inbox := by
  rw [inbox, hgeneration]
  rfl

namespace Awaits
variable {c : Client} {e : Enlistment} {reports : List Response} {r : Response} {n : Nat}

theorem generation (hawaits : Awaits c e reports r n) :
    ∃ generation, c.generations[e.generation]? = some generation ∧ generation.phase.stepsToWaiting? = some n ∧
      generation.inbox = (reports ++ [r]).map .message := by
  obtain ⟨phase, hphase, hsteps⟩ := Option.bind_eq_some_iff.mp hawaits.phase
  obtain ⟨generation, hgeneration, rfl⟩ := Option.map_eq_some_iff.mp hphase
  exact ⟨generation, hgeneration, hsteps, (inbox_of_generation hgeneration).symm.trans hawaits.inbox⟩

theorem generation_of_waiting (hawaits : Awaits c e reports r 0) :
    ∃ generation, c.generations[e.generation]? = some generation ∧ generation.phase = .waiting ∧
      generation.inbox = (reports ++ [r]).map .message := by
  obtain ⟨generation, hgeneration, hsteps, hinbox⟩ := hawaits.generation
  refine ⟨generation, hgeneration, ?_, hinbox⟩
  cases hphase : generation.phase with
  | waiting => rfl
  | _ => simp [hphase, Phase.stepsToWaiting?] at hsteps

/-- Other routers do not matter. -/
theorem route_of_ne (hawaits : Awaits c e reports r n) {g : Nat} (hg : g ≠ e.generation) :
    Awaits (c.route g) e reports r n := by
  have hrouted := c.routed g
  have hinbox := hrouted.inbox e.generation
  rw [if_neg hg] at hinbox
  constructor
  case phase => rw [hrouted.phase?_of_ne hg, hawaits.phase]
  case inbox => exact hinbox.symm.trans hawaits.inbox
  case reports => exact hawaits.reports
  case terminal => exact hawaits.terminal
  case id => exact hawaits.id
  case pending => rw [hrouted.pending?_of_ne e.id hg, hawaits.pending]

/-- A report is taken up, whether there is a callback for it or not. -/
theorem route_report {report : Response} (hawaits : Awaits c e (report :: reports) r 0) :
    ∃ n ≤ 2, Awaits (c.route e.generation) e reports r n := by
  obtain ⟨generation, hgeneration, hphase, hinbox⟩ := hawaits.generation_of_waiting
  have hnext : c.nextEvent? e.generation = some (.message report) := nextEvent?_of_inbox hgeneration hphase hinbox
  have hkind := hawaits.reports report List.mem_cons_self
  have hreports : ∀ r ∈ reports, r.isTerminal = false := fun r hr => hawaits.reports r (List.mem_cons_of_mem _ hr)
  have hrouted := c.routed e.generation
  have hrest : (c.route e.generation).inbox e.generation = (reports ++ [r]).map .message := by
    have hall := hrouted.inbox e.generation
    rw [if_pos rfl, hnext, hawaits.inbox] at hall
    exact (List.cons.inj hall).2.symm
  generalize c.route e.generation = c' at hrouted hrest
  obtain ⟨rest, ⟨hterminal, -⟩ | ⟨entry, -, -, rfl⟩ | ⟨-, rfl⟩⟩ := hrouted.of_message hnext
  · cases hkind.symm.trans hterminal
  · refine ⟨2, Nat.le_refl 2, ?_, hrest, hreports, hawaits.terminal, hawaits.id, ?_⟩
    · rw [phase?_setPhase, if_pos rfl, phase?_setListening, phase?_setInbox, phase?_of_generation hgeneration]
      rfl
    · rw [pending?_setPhase, handle_setListening, pending?_setInbox, hawaits.pending]
  · refine ⟨0, Nat.zero_le 2, ?_, hrest, hreports, hawaits.terminal, hawaits.id, ?_⟩
    · rw [phase?_setInbox, hawaits.phase]
    · rw [pending?_setInbox, hawaits.pending]

/-- The callback runs, or is put back. -/
theorem route_callback (hawaits : Awaits c e reports r (n + 1)) : Awaits (c.route e.generation) e reports r n := by
  obtain ⟨generation, hgeneration, hsteps, -⟩ := hawaits.generation
  have hphase? := phase?_of_generation hgeneration
  have hbusy : generation.phase ≠ .waiting := by
    intro hwaiting
    rw [hwaiting] at hsteps
    cases hsteps
  have hrest := (c.routed e.generation).inbox e.generation
  rw [if_pos rfl, nextEvent?_of_busy hphase? hbusy, hawaits.inbox] at hrest
  unfold route at hrest ⊢
  rw [hgeneration] at hrest ⊢
  dsimp only at hrest ⊢
  cases hphase : generation.phase with
  | calling id handle payload =>
    rw [hphase] at hsteps hphase? hrest
    obtain rfl : 1 = n := Nat.succ.inj (Option.some.inj hsteps)
    refine ⟨?_, hrest.symm, hawaits.reports, hawaits.terminal, hawaits.id, ?_⟩
    · have hsame : (c.modifyHandle handle fun h => { h with progress := h.progress ++ [payload] }).phase?
          e.generation = some (.calling id handle payload) := hphase?
      rw [phase?_setPhase, if_pos rfl, hsame]
      rfl
    · rw [pending?_setPhase]
      exact hawaits.pending
  | restoring id =>
    rw [hphase] at hsteps hphase? hrest
    obtain rfl : 0 = n := Nat.succ.inj (Option.some.inj hsteps)
    refine ⟨?_, hrest.symm, hawaits.reports, hawaits.terminal, hawaits.id, ?_⟩
    · rw [phase?_setPhase, if_pos rfl, phase?_setListening, hphase?]
      rfl
    · rw [pending?_setPhase, handle_setListening, hawaits.pending]
  | waiting | rejecting | leaving | ended =>
    rw [hphase] at hsteps
    cases hsteps

end Awaits

/-! ### Routers that step often enough -/

/-- The request has its reply, or its router gets to it within so many steps. -/
def RepliedWithin (c : Client) (e : Enlistment) (r : Response) (limit : Nat) : Prop :=
  c.Replied e.handle (.ofResponse r) ∨
    ∃ reports n, Awaits c e reports r n ∧ 3 * reports.length + n < limit

namespace Reachable
variable {c : Client} {stage : Stage} {e : Enlistment} {r : Response} {limit : Nat}

theorem replied_route (h : Reachable ⟨c, stage⟩) (hreplied : c.Replied e.handle (.ofResponse r)) (g : Nat) :
    (c.route g).Replied e.handle (.ofResponse r) := by
  obtain ⟨past, hrun⟩ := h
  exact Replied.step (s := ⟨c, stage⟩) hreplied hrun (.route c stage g)

/-- The response itself is taken up. -/
theorem replied_of_last (h : Reachable ⟨c, stage⟩) (hawaits : Awaits c e [] r 0) :
    (c.route e.generation).Replied e.handle (.ofResponse r) := by
  obtain ⟨past, hrun⟩ := h
  obtain ⟨generation, hgeneration, hphase, hinbox⟩ := hawaits.generation_of_waiting
  obtain ⟨entry, hentry, hhandle⟩ := Option.map_eq_some_iff.mp hawaits.pending
  rw [← hawaits.id] at hentry
  rw [← hhandle]
  exact (c.routed e.generation).replied hrun.inv (nextEvent?_of_inbox hgeneration hphase hinbox)
    hawaits.terminal hentry

/-- A step of the request's own router brings it nearer to the reply. -/
theorem repliedWithin_route (h : Reachable ⟨c, stage⟩) (hwithin : c.RepliedWithin e r (limit + 1)) :
    (c.route e.generation).RepliedWithin e r limit := by
  rcases hwithin with hreplied | ⟨reports, n, hawaits, hlt⟩
  · exact .inl (h.replied_route hreplied _)
  · cases n with
    | succ n => exact .inr ⟨reports, n, hawaits.route_callback, by omega⟩
    | zero =>
      cases reports with
      | nil => exact .inl (h.replied_of_last hawaits)
      | cons report reports =>
        obtain ⟨n, hn, hnext⟩ := hawaits.route_report
        refine .inr ⟨reports, n, hnext, ?_⟩
        rw [List.length_cons] at hlt
        omega

/-- A step of another router changes nothing. -/
theorem repliedWithin_route_of_ne (h : Reachable ⟨c, stage⟩) (hwithin : c.RepliedWithin e r limit) {g : Nat}
    (hg : g ≠ e.generation) : (c.route g).RepliedWithin e r limit := by
  rcases hwithin with hreplied | ⟨reports, n, hawaits, hlt⟩
  · exact .inl (h.replied_route hreplied g)
  · exact .inr ⟨reports, n, hawaits.route_of_ne hg, hlt⟩

theorem repliedWithin_routes (h : Reachable ⟨c, stage⟩) (n : Nat) (hwithin : c.RepliedWithin e r (limit + n)) :
    (n.fold (fun _ _ c => c.route e.generation) c).RepliedWithin e r limit := by
  induction n generalizing limit with
  | zero => exact hwithin
  | succ n ih =>
    rw [Nat.fold_succ]
    refine (h.routes e.generation n).repliedWithin_route (ih ?_)
    rwa [Nat.add_right_comm, Nat.add_assoc]

theorem repliedWithin_routes_of_ne (h : Reachable ⟨c, stage⟩) (n : Nat) (hwithin : c.RepliedWithin e r limit) {g : Nat}
    (hg : g ≠ e.generation) : (n.fold (fun _ _ c => c.route g) c).RepliedWithin e r limit := by
  induction n with
  | zero => exact hwithin
  | succ n ih =>
    rw [Nat.fold_succ]
    exact (h.routes g n).repliedWithin_route_of_ne ih hg

end Reachable

theorem RepliedWithin.replied {c : Client} {e : Enlistment} {r : Response} (hwithin : c.RepliedWithin e r 0) :
    c.Replied e.handle (.ofResponse r) := by
  rcases hwithin with hreplied | ⟨_, _, -, hlt⟩
  · exact hreplied
  · exact absurd hlt (Nat.not_lt_zero _)

/-- A router does all the steps that it takes to a reply, and has some left. -/
theorem RepliedWithin.stepsLeft {c : Client} {e : Enlistment} {r : Response} {limit : Nat}
    (hwithin : c.RepliedWithin e r limit) :
    c.RepliedWithin e r ((c.generations[e.generation]?.map Generation.stepsLeft).getD 0) := by
  rcases hwithin with hreplied | ⟨reports, n, hawaits, -⟩
  · exact .inl hreplied
  · obtain ⟨generation, hgeneration, hsteps, hinbox⟩ := hawaits.generation
    have hlength : generation.inbox.length = reports.length + 1 := by
      rw [hinbox, List.length_map, List.length_append, List.length_singleton]
    have hn : n ≤ 2 := by
      cases hphase : generation.phase <;> simp [hphase, Phase.stepsToWaiting?] at hsteps <;> omega
    refine .inr ⟨reports, n, hawaits, ?_⟩
    rw [hgeneration, Option.map_some, Option.getD_some, Generation.stepsLeft, hlength]
    omega

namespace Reachable
variable {c : Client} {stage : Stage} {e : Enlistment} {r : Response} {limit : Nat}

theorem replied_routeAll (h : Reachable ⟨c, stage⟩) (hwithin : c.RepliedWithin e r limit) :
    (c.routeAll e.generation).Replied e.handle (.ofResponse r) := by
  refine (h.repliedWithin_routes _ ?_).replied
  rw [Nat.zero_add]
  exact hwithin.stepsLeft

/-- Once all routers have done their steps, the request has its reply. -/
theorem replied_quiesce (h : Reachable ⟨c, stage⟩) (hwithin : c.RepliedWithin e r limit)
    (hlt : e.generation < c.generations.length) : c.quiesce.Replied e.handle (.ofResponse r) := by
  have hlist : ∀ (gs : List Nat) (c : Client) (limit : Nat), Reachable ⟨c, stage⟩ → c.RepliedWithin e r limit →
      (limit = 0 ∨ e.generation ∈ gs) → (gs.foldl Client.routeAll c).Replied e.handle (.ofResponse r) := by
    intro gs
    induction gs with
    | nil =>
      intro c limit _ hwithin hmem
      rcases hmem with rfl | hmem
      · exact hwithin.replied
      · cases hmem
    | cons g gs ih =>
      intro c limit h hwithin hmem
      by_cases hg : g = e.generation
      · subst hg
        exact ih _ 0 (h.routeAll _) (.inl (h.replied_routeAll hwithin)) (.inl rfl)
      · have hmem' : limit = 0 ∨ e.generation ∈ gs := hmem.imp_right fun hmem =>
          (List.mem_cons.mp hmem).resolve_left fun heq => hg heq.symm
        exact ih _ limit (h.routeAll g) (h.repliedWithin_routes_of_ne _ hwithin hg) hmem'
  exact hlist _ c limit h hwithin (.inr (List.mem_range.mpr hlt))

end Reachable

/-! ### Sessions -/

theorem generations_receives {c : Client} {g : Nat} {generation : Generation}
    (hgeneration : c.generations[g]? = some generation) (hopen : generation.closed = false)
    (events : List Worker.Event) :
    (events.foldl (fun c event => c.receive g event) c).generations[g]? =
      some { generation with inbox := generation.inbox ++ events } := by
  induction events generalizing c generation with
  | nil => rw [List.append_nil, List.foldl_nil, hgeneration]
  | cons event events ih =>
    have hreceived : (c.receive g event).generations[g]? =
        some { generation with inbox := generation.inbox ++ [event] } := by
      rw [Client.receive, generations_modifyGeneration, if_pos rfl, hgeneration, Option.map_some, hopen]
      rfl
    rw [List.foldl_cons, ih hreceived hopen, List.append_assoc, List.singleton_append]

/-- The current worker of a session serves requests, and waits for one, as does its router. -/
structure Session.Serves (s : Session) (service : MatrixService) (g : Nat) : Prop where
  current : s.client.current? = some g
  mailbox : s.mailboxes[g]? = some (.worker service)
  quiet : ∃ generation, s.client.generations[g]? = some generation ∧ generation.phase = .waiting ∧
    generation.inbox = [] ∧ generation.closed = false

/-- The worker that the next request of a session is posted to, whether it is kept or started for it, serves requests,
and waits for one, as does its router. -/
structure Session.Ready (s : Session) (create : Except Error Mailbox) (service : MatrixService) : Prop where
  started : s.client.renew.needsWorker = true →
    create = .ok (.worker service) ∧ s.mailboxes.length = s.client.generations.length
  kept : s.client.renew.needsWorker = false → ∃ g, Session.Serves { s with client := s.client.renew } service g

theorem length_handles_renew (c : Client) : c.renew.handles.length = c.handles.length := by
  unfold renew
  dsimp only
  split
  · exact (letGo_numbers _).2.1
  · rfl

theorem length_generations_renew (c : Client) : c.renew.generations.length = c.generations.length := by
  unfold renew
  dsimp only
  split
  · exact (letGo_numbers _).2.2.1
  · rfl

theorem generations_enlist {c : Client} {g : Nat} {generation : Generation} (listening : Bool)
    (hcurrent : c.current? = some g) (hgeneration : c.generations[g]? = some generation) :
    (c.enlist listening).generations[g]? =
      some { generation with pending := generation.pending.set c.lastId ⟨c.handles.length, listening⟩ } := by
  rw [enlist, hcurrent]
  dsimp only
  rw [generations_modifyGeneration, if_pos rfl, hgeneration, Option.map_some]

theorem lastId_enlist (c : Client) (listening : Bool) : (c.enlist listening).lastId = c.lastId := by
  unfold enlist
  split <;> rfl

namespace Session
variable {s : Session} {service : MatrixService} {g : Nat}

/-- A request that is posted to a worker that serves leaves its events to the router. -/
theorem Serves.client_post (hserves : s.Serves service g) {request : Request} {id : String} {outcome : Worker.Outcome}
    (hemission : Worker.handle service request = Worker.emissionOf id outcome) :
    (s.post request).client =
      ((Worker.emissionOf id outcome).responses.map .message).foldl (fun c event => c.receive g event) s.client := by
  obtain ⟨generation, hgeneration, -, -, hopen⟩ := hserves.quiet
  have hposting : s.posting g request = Mailbox.worker service request := by
    rw [Session.posting, hgeneration, hserves.mailbox]
    dsimp only
    rw [hopen]
    rfl
  rw [Session.post, hserves.current]
  dsimp only
  rw [hposting, Mailbox.worker]
  dsimp only
  rw [hemission, Worker.serve_of_emissionOf hemission]
  rfl

theorem Serves.enlist (hserves : s.Serves service g) (listening : Bool) :
    Session.Serves { s with client := s.client.enlist listening } service g := by
  obtain ⟨generation, hgeneration, hquiet⟩ := hserves.quiet
  constructor
  case current =>
    dsimp only [Client.enlist]
    rw [hserves.current]
    exact hserves.current
  case mailbox => exact hserves.mailbox
  case quiet => exact ⟨_, generations_enlist listening hserves.current hgeneration, hquiet⟩

/-- A request that is put into the table and posted gets the worker's answer. -/
theorem Serves.replied (hserves : s.Serves service g) (hcounted : Reachable ⟨s.client, .counted⟩) (listening : Bool)
    {kind : RequestKind} {payload : Json} {outcome : Worker.Outcome}
    (hemission : Worker.handle service ⟨s.client.lastId, kind, payload⟩ =
      Worker.emissionOf s.client.lastId outcome) :
    (post { s with client := s.client.enlist listening } ⟨s.client.lastId, kind, payload⟩).client.quiesce.Replied
      s.client.handles.length (.ofResponse (Worker.answer s.client.lastId outcome.result)) := by
  obtain ⟨generation, hgeneration, hphase, hinbox, hopen⟩ := hserves.quiet
  have hneeds : s.client.needsWorker = false := by rw [needsWorker, hserves.current]; rfl
  have henlisted := hcounted.step (.enlist listening hneeds)
  rw [(hserves.enlist listening).client_post hemission]
  generalize hevents : (Worker.emissionOf s.client.lastId outcome).responses.map Worker.Event.message = events
  have hposted := (henlisted.receives g events).step (.post _)
  have hreceived := generations_receives (generations_enlist listening hserves.current hgeneration) hopen events
  generalize events.foldl (fun c event => c.receive g event) (s.client.enlist listening) = c at hposted hreceived
  have hawaits : Awaits c ⟨s.client.handles.length, g, s.client.lastId, listening⟩
      (outcome.reports.map fun payload => ⟨s.client.lastId, .progress, payload⟩)
      (Worker.answer s.client.lastId outcome.result) 0 := by
    constructor
    case phase => rw [phase?_of_generation hreceived, hphase]; rfl
    case inbox => rw [inbox_of_generation hreceived, hinbox, ← hevents, Worker.responses_emissionOf]; rfl
    case reports =>
      intro report hreport
      obtain ⟨payload, -, rfl⟩ := List.mem_map.mp hreport
      rfl
    case terminal => exact Worker.isTerminal_answer _ _
    case id => exact Worker.id_answer _ _
    case pending =>
      rw [pending?, hreceived, Option.bind_some, Bindings.get?_set_self]
      rfl
  exact hposted.replied_quiesce (.inr ⟨_, 0, hawaits, Nat.lt_succ_self _⟩) (List.getElem?_eq_some_iff.mp hreceived).1

/-- The session after its next dispatch has renewed its client, and has started a worker if one was needed. -/
theorem Ready.replied {create : Except Error Mailbox} (hready : s.Ready create service)
    (hreachable : Reachable ⟨s.client, .idle⟩) (listening : Bool) {kind : RequestKind} {payload : Json}
    {outcome : Worker.Outcome} (hemission : ∀ id, Worker.handle service ⟨id, kind, payload⟩ =
      Worker.emissionOf id outcome) :
    ∃ id, (s.dispatch create kind payload listening).client.Replied s.client.handles.length
      (.ofResponse (Worker.answer id outcome.result)) := by
  have hcounted := hreachable.renew
  have hreplied : ∀ t : Session, Reachable ⟨t.client, .counted⟩ → t.client.handles.length = s.client.handles.length →
      (∃ g, t.Serves service g) → ∃ id, (post { t with client := t.client.enlist listening }
        ⟨(t.client.enlist listening).lastId, kind, payload⟩).client.quiesce.Replied s.client.handles.length
          (.ofResponse (Worker.answer id outcome.result)) := by
    intro t ht hlength hserves
    obtain ⟨g, hserves⟩ := hserves
    rw [lastId_enlist, ← hlength]
    exact ⟨_, hserves.replied ht listening (hemission _)⟩
  unfold dispatch
  dsimp only
  cases hneeds : s.client.renew.needsWorker with
  | false => exact hreplied { s with client := s.client.renew } hcounted s.client.length_handles_renew (hready.kept hneeds)
  | true =>
    obtain ⟨rfl, hmailboxes⟩ := hready.started hneeds
    have hlast : s.mailboxes.length = s.client.renew.generations.length :=
      hmailboxes.trans s.client.length_generations_renew.symm
    have hserves : Session.Serves ⟨s.client.renew.start, s.mailboxes ++ [.worker service]⟩ service
        s.client.renew.generations.length := by
      constructor
      case current => rfl
      case mailbox =>
        rw [← hlast]
        exact List.getElem?_concat_length
      case quiet => exact ⟨{}, by rw [generations_start, if_pos rfl], rfl, rfl, rfl⟩
    have hstarted := hcounted.step (.start hneeds)
    have hlength : s.client.renew.start.handles.length = s.client.handles.length := s.client.length_handles_renew
    have hfinal := hreplied ⟨s.client.renew.start, s.mailboxes ++ [.worker service]⟩ hstarted hlength ⟨_, hserves⟩
    rw [if_pos rfl]
    dsimp only [Except.map]
    exact hfinal

end Session
end Calculator.Client
