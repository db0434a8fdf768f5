import Calculator.Proofs.Client.Tables
/-! What one step of a router can be, said once for all that is proved about routers. -/
namespace Calculator.Client

section
variable {c : Client} {g : Nat} {generation : Generation}

theorem phase?_of_generation (hgeneration : c.generations[g]? = some generation) :
    c.phase? g = some generation.phase := by
  rw [phase?, hgeneration]
  rfl

theorem nextEvent?_of_waiting (hgeneration : c.generations[g]? = some generation)
    (hphase : generation.phase = .waiting) : c.nextEvent? g = generation.inbox.head? := by
  rw [nextEvent?, hgeneration, Option.bind_some, hphase]

theorem nextEvent?_of_inbox {event : Worker.Event} {rest : List Worker.Event}
    (hgeneration : c.generations[g]? = some generation) (hphase : generation.phase = .waiting)
    (hinbox : generation.inbox = event :: rest) : c.nextEvent? g = some event := by
  rw [nextEvent?_of_waiting hgeneration hphase, hinbox, List.head?_cons]

theorem nextEvent?_of_busy {phase : Phase} (hphase : c.phase? g = some phase) (hbusy : phase ≠ .waiting) :
    c.nextEvent? g = none := by
  obtain ⟨generation, hgeneration, rfl⟩ := Option.map_eq_some_iff.mp hphase
  rw [nextEvent?, hgeneration, Option.bind_some]
  split
  · rename_i hwaiting
    exact absurd hwaiting hbusy
  · rfl

theorem nextEvent?_of_idle (hidle : ∀ generation, c.generations[g]? = some generation → generation.phase = .ended ∨
    generation.phase = .waiting ∧ generation.inbox = [] ∧ generation.closed = false) : c.nextEvent? g = none := by
  cases hgeneration : c.generations[g]? with
  | none => rw [nextEvent?, hgeneration, Option.bind_none]
  | some generation =>
    rcases hidle generation hgeneration with hended | ⟨hwaiting, hinbox, -⟩
    · have hphase := phase?_of_generation hgeneration
      rw [hended] at hphase
      exact nextEvent?_of_busy hphase (by simp)
    · rw [nextEvent?_of_waiting hgeneration hwaiting, hinbox, List.head?_nil]

end

/-- The steps of a generation's router. -/
inductive Routed (c : Client) (g : Nat) : Client → Prop
  /-- There is nothing to do. -/
  | idle (hidle : ∀ generation, c.generations[g]? = some generation → generation.phase = .ended ∨
      generation.phase = .waiting ∧ generation.inbox = [] ∧ generation.closed = false) : Routed c g c
  | fault {generation : Generation} {message : String} {rest : List Worker.Event}
      (hgeneration : c.generations[g]? = some generation) (hphase : generation.phase = .waiting)
      (hinbox : generation.inbox = .fault message :: rest) :
      Routed c g ((c.setInbox g rest).markFaulted g (.rejecting message))
  | respond {generation : Generation} {r : Response} {rest : List Worker.Event}
      (hgeneration : c.generations[g]? = some generation) (hphase : generation.phase = .waiting)
      (hinbox : generation.inbox = .message r :: rest) (hterminal : r.isTerminal = true) :
      Routed c g ((c.setInbox g rest).settle g (· == r.id) (Handle.receive (.ofResponse r)))
  | report {generation : Generation} {r : Response} {rest : List Worker.Event} {entry : Entry}
      (hgeneration : c.generations[g]? = some generation) (hphase : generation.phase = .waiting)
      (hinbox : generation.inbox = .message r :: rest) (hterminal : r.isTerminal = false)
      (hentry : c.pending? g r.id = some entry) (hlistening : entry.listening = true) :
      Routed c g
        (((c.setInbox g rest).setListening g r.id false).setPhase g (.calling r.id entry.handle r.payload))
  /-- A report is taken up for which no callback is there. -/
  | ignore {generation : Generation} {r : Response} {rest : List Worker.Event}
      (hgeneration : c.generations[g]? = some generation) (hphase : generation.phase = .waiting)
      (hinbox : generation.inbox = .message r :: rest) (hterminal : r.isTerminal = false)
      (hdeaf : ∀ entry, c.pending? g r.id = some entry → entry.listening = false) : Routed c g (c.setInbox g rest)
  | call {id : String} {handle : Nat} {payload : Json} (hphase : c.phase? g = some (.calling id handle payload)) :
      Routed c g
        ((c.modifyHandle handle fun h => { h with progress := h.progress ++ [payload] }).setPhase g (.restoring id))
  | restore {id : String} (hphase : c.phase? g = some (.restoring id)) :
      Routed c g ((c.setListening g id true).setPhase g .waiting)
  | reject {message : String} (hphase : c.phase? g = some (.rejecting message)) :
      Routed c g ((c.rejectAll g (.workerFault message)).setPhase g .waiting)
  /-- The events have ended. -/
  | leave {generation : Generation} (hgeneration : c.generations[g]? = some generation)
      (hphase : generation.phase = .waiting) (hinbox : generation.inbox = []) (hclosed : generation.closed = true) :
      Routed c g ((c.rejectAll g (.workerFault "Worker exited")).setPhase g
        (.leaving !generation.pending.entries.isEmpty))
  | mark (hphase : c.phase? g = some (.leaving true)) : Routed c g (c.markFaulted g (.leaving false))
  | finish (hphase : c.phase? g = some (.leaving false)) : Routed c g (c.finish g)

section
variable (c : Client) (g : Nat)

theorem routed_of_message {generation : Generation} {r : Response} {rest : List Worker.Event}
    (hgeneration : c.generations[g]? = some generation) (hphase : generation.phase = .waiting)
    (hinbox : generation.inbox = .message r :: rest) :
    Routed c g ((c.setInbox g rest).takeUp g (.message r)) := by
  rw [takeUp, deliver]
  cases hterminal : r.isTerminal with
  | true => exact .respond hgeneration hphase hinbox hterminal
  | false =>
    rw [if_neg Bool.false_ne_true, takeUpReport, pending?_setInbox]
    cases hentry : c.pending? g r.id with
    | none =>
      refine .ignore hgeneration hphase hinbox hterminal fun entry hsome => ?_
      cases hentry.symm.trans hsome
    | some entry =>
      dsimp only
      cases hlistening : entry.listening with
      | true => exact .report hgeneration hphase hinbox hterminal hentry hlistening
      | false =>
        refine .ignore hgeneration hphase hinbox hterminal fun entry' hsome => ?_
        obtain rfl := Option.some.inj (hentry.symm.trans hsome)
        exact hlistening

/-- A router steps as its phase says. -/
theorem routed : Routed c g (c.route g) := by
  unfold route
  cases hgeneration : c.generations[g]? with
  | none =>
    refine .idle fun generation hsome => ?_
    cases hgeneration.symm.trans hsome
  | some generation =>
    have hphase? := phase?_of_generation hgeneration
    dsimp only
    cases hphase : generation.phase with
    | waiting =>
      unfold await
      cases hinbox : generation.inbox with
      | cons event rest =>
        cases event with
        | fault message => exact .fault hgeneration hphase hinbox
        | message r => exact c.routed_of_message g hgeneration hphase hinbox
      | nil =>
        dsimp only
        cases hclosed : generation.closed with
        | true => exact .leave hgeneration hphase hinbox hclosed
        | false =>
          refine .idle fun generation' hsome => ?_
          obtain rfl := Option.some.inj (hgeneration.symm.trans hsome)
          exact .inr ⟨hphase, hinbox, hclosed⟩
    | calling id handle payload =>
      rw [hphase] at hphase?
      exact .call hphase?
    | restoring id =>
      rw [hphase] at hphase?
      exact .restore hphase?
    | rejecting message =>
      rw [hphase] at hphase?
      exact .reject hphase?
    | leaving stranded =>
      rw [hphase] at hphase?
      cases stranded with
      | true => exact .mark hphase?
      | false => exact .finish hphase?
    | ended =>
      refine .idle fun generation' hsome => ?_
      obtain rfl := Option.some.inj (hgeneration.symm.trans hsome)
      exact .inl hphase

end

/-- What becomes of a response that a router takes up: it settles its request, or it is a report that is taken to a
callback, or one that no callback is there for. -/
theorem Routed.of_message {c c' : Client} {g : Nat} {r : Response} (hrouted : Routed c g c')
    (hnext : c.nextEvent? g = some (.message r)) :
    ∃ rest,
      (r.isTerminal = true ∧ c' = (c.setInbox g rest).settle g (· == r.id) (Handle.receive (.ofResponse r))) ∨
      (∃ entry, r.isTerminal = false ∧ c.pending? g r.id = some entry ∧
        c' = ((c.setInbox g rest).setListening g r.id false).setPhase g (.calling r.id entry.handle r.payload)) ∨
      (r.isTerminal = false ∧ c' = c.setInbox g rest) := by
  have hsame : ∀ {generation event rest}, c.generations[g]? = some generation → generation.phase = .waiting →
      generation.inbox = event :: rest → event = .message r := fun hgeneration hphase hinbox =>
    Option.some.inj ((nextEvent?_of_inbox hgeneration hphase hinbox).symm.trans hnext)
  cases hrouted with
  | @respond generation r' rest hgeneration hphase hinbox hterminal =>
    cases hsame hgeneration hphase hinbox
    exact ⟨rest, .inl ⟨hterminal, rfl⟩⟩
  | @report generation r' rest entry hgeneration hphase hinbox hterminal hentry =>
    cases hsame hgeneration hphase hinbox
    exact ⟨rest, .inr (.inl ⟨entry, hterminal, hentry, rfl⟩)⟩
  | @ignore generation r' rest hgeneration hphase hinbox hterminal =>
    cases hsame hgeneration hphase hinbox
    exact ⟨rest, .inr (.inr ⟨hterminal, rfl⟩)⟩
  | fault hgeneration hphase hinbox => cases hsame hgeneration hphase hinbox
  | idle hidle => cases (nextEvent?_of_idle hidle).symm.trans hnext
  | leave hgeneration hphase hinbox =>
    rw [nextEvent?_of_waiting hgeneration hphase, hinbox] at hnext
    cases hnext
  | call hphase | restore hphase | reject hphase | mark hphase | finish hphase =>
    cases (nextEvent?_of_busy hphase (by simp)).symm.trans hnext

/-- A router changes no generation but its own. -/
theorem Routed.generations_of_ne {c c' : Client} {g g' : Nat} (hrouted : Routed c g c') (hg : g ≠ g') :
    c'.generations[g']? = c.generations[g']? := by
  have hmodify : ∀ (c : Client) f, (c.modifyGeneration g f).generations[g']? = c.generations[g']? := by
    intro c f
    rw [generations_modifyGeneration, if_neg hg]
  have hsettle : ∀ (c : Client) ids f, (c.settle g ids f).generations[g']? = c.generations[g']? := by
    intro c ids f
    rw [generations_settle, if_neg hg]
  cases hrouted with
  | idle => rfl
  | fault => exact (hmodify _ _).trans (hmodify c _)
  | respond => exact (hsettle _ _ _).trans (hmodify c _)
  | report => exact (hmodify _ _).trans ((hmodify _ _).trans (hmodify c _))
  | ignore | mark => exact hmodify c _
  | call => exact hmodify _ _
  | restore => exact (hmodify _ _).trans (hmodify c _)
  | reject | leave => exact (hmodify _ _).trans (hsettle c _ _)
  | finish =>
    unfold Client.finish
    dsimp only
    split
    · exact hmodify c _
    · exact (hsettle _ _ _).trans (hmodify c _)

theorem Routed.phase?_of_ne {c c' : Client} {g g' : Nat} (hrouted : Routed c g c') (hg : g ≠ g') :
    c'.phase? g' = c.phase? g' := by
  rw [phase?, hrouted.generations_of_ne hg, phase?]

theorem Routed.pending?_of_ne {c c' : Client} {g g' : Nat} (hrouted : Routed c g c') (id : String) (hg : g ≠ g') :
    c'.pending? g' id = c.pending? g' id := by
  rw [pending?, hrouted.generations_of_ne hg, pending?]

/-! ### All but the tables -/

/-- The generations without their tables. -/
def bare (c : Client) : List Generation := c.generations.map fun generation => { generation with pending := .empty }

section
variable {c c' : Client} (hbare : c'.bare = c.bare) (g : Nat)
include hbare

/-- A field of a generation that its table does not matter for. -/
theorem map_of_bare {β : Type} {field : Generation → β}
    (hfield : ∀ generation, field { generation with pending := .empty } = field generation) :
    c'.generations[g]?.map field = c.generations[g]?.map field := by
  have hmap : ∀ c : Client, c.generations[g]?.map field = c.bare[g]?.map field := by
    intro c
    rw [bare, List.getElem?_map, Option.map_map]
    exact congrArg (fun f => Option.map f c.generations[g]?) (funext fun generation => (hfield generation).symm)
  rw [hmap, hmap, hbare]

theorem any_of_bare {p : Generation → Bool}
    (hp : ∀ generation, p { generation with pending := .empty } = p generation) :
    c'.generations[g]?.any p = c.generations[g]?.any p := by
  have hany : ∀ o : Option Generation, o.any p = (o.map p).any id := fun o => by cases o <;> rfl
  rw [hany, hany, map_of_bare hbare g hp]

theorem phase?_of_bare : c'.phase? g = c.phase? g := map_of_bare hbare g fun _ => rfl

end

theorem length_of_bare {c c' : Client} (hbare : c'.bare = c.bare) : c'.generations.length = c.generations.length := by
  have hlength := congrArg List.length hbare
  rwa [bare, bare, List.length_map, List.length_map] at hlength

section
variable (c : Client)

theorem bare_settle (g : Nat) (ids : String → Bool) (f : Handle → Handle) : (c.settle g ids f).bare = c.bare := by
  refine List.ext_getElem? fun g' => ?_
  rw [bare, bare, List.getElem?_map, List.getElem?_map, generations_settle]
  split
  · rw [Option.map_map]
    rfl
  · rfl

theorem bare_letGo : c.letGo.bare = c.bare := by
  unfold letGo
  split
  · dsimp only
    split
    · exact bare_settle _ _ _ _
    · rfl
  · rfl

theorem bare_enlist (listening : Bool) : (c.enlist listening).bare = c.bare := by
  unfold enlist
  split
  · rfl
  · rename_i g _
    refine List.ext_getElem? fun g' => ?_
    rw [bare, bare, List.getElem?_map, List.getElem?_map]
    dsimp only
    rw [generations_modifyGeneration]
    split
    · rw [Option.map_map]
      rfl
    · rfl

end

/-- Whether the move is one of a worker or its router, or a worker's start. -/
def Move.isOfWorker : Move → Bool
  | start | route _ | receive _ _ | close _ => true
  | _ => false

/-- All other moves change nothing of the generations but their tables. -/
theorem Step.bare {s s' : State} {m : Move} (hstep : Step s m s') (hother : m.isOfWorker = false) :
    s'.client.bare = s.client.bare := by
  cases hstep with
  | renew c =>
    unfold Client.renew
    dsimp only
    split
    · exact bare_letGo _
    · rfl
  | @enlist c listening => exact c.bare_enlist listening
  | withdraw c error =>
    unfold Client.withdraw
    dsimp only
    split
    · rfl
    · exact c.bare_settle _ _ _
  | terminate c =>
    unfold Client.terminate
    dsimp only
    split
    · exact (bare_letGo _).trans (c.bare_settle _ _ _)
    · rfl
  | look c stage h =>
    unfold Client.look
    dsimp only
    split
    · rfl
    · split <;> rfl
  | refuse | post => rfl
  | start | route | receive | close => cases hother

/-- A router is in the phase that it is in until it steps. -/
theorem Step.phase?_of_ne {s s' : State} {m : Move} {g : Nat} {phase : Phase} (hstep : Step s m s')
    (hm : m ≠ .route g) (hphase : s.client.phase? g = some phase) : s'.client.phase? g = some phase := by
  have hbare := hstep.bare
  cases hstep with
  | renew | refuse | enlist | post | withdraw | terminate | look => exact (phase?_of_bare (hbare rfl) g).trans hphase
  | start =>
    obtain ⟨generation, hgeneration, -⟩ := Option.map_eq_some_iff.mp hphase
    have hne : g ≠ _ := Nat.ne_of_lt (List.getElem?_eq_some_iff.mp hgeneration).1
    exact (phase?_start _ g).trans ((if_neg hne).trans hphase)
  | route c stage g' =>
    have hne : g' ≠ g := fun hg => hm (congrArg Move.route hg)
    exact ((c.routed g').phase?_of_ne hne).trans hphase
  | receive c stage g' event =>
    refine (c.phase?_of_same_phase g' g fun generation => ?_).trans hphase
    split <;> rfl
  | close c stage g' =>
    refine (c.phase?_of_same_phase g' g ?_).trans hphase
    exact fun _ => rfl

theorem current_of_needsWorker {c : Client} (hneeds : c.needsWorker = false) : ∃ g, c.current? = some g := by
  rw [needsWorker, Option.isNone_eq_false_iff] at hneeds
  exact Option.isSome_iff_exists.mp hneeds

end Calculator.Client
