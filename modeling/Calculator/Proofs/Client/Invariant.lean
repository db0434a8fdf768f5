import Calculator.Proofs.Client.Callbacks
import Calculator.Proofs.Client.Routers
/-! Every step of the client, of routers, workers and holders keeps what holds of requests, replies and callbacks. -/
namespace Calculator.Client

/-- The invariant of a client. -/
structure Inv (past : History) (c : Client) : Prop where
  /-- What holds of requests and replies. -/
  owned : Owned past c
  /-- What holds of callbacks. -/
  heard : Heard past c

theorem inv_new : Inv [] {} := ⟨owned_new, heard_new⟩

theorem borrowed?_of_phase? {c : Client} {g : Nat} {phase : Phase} (hphase : c.phase? g = some phase) :
    c.borrowed? g = phase.borrowed? := by
  rw [borrowed?, hphase]
  rfl

namespace Inv
variable {past : History} {c c' : Client} {x : State × Move} {g : Nat}

/-- The invariant does not depend on what workers have sent, on what holders have taken, or on which worker is
current. -/
theorem congr (hinv : Inv past c) (hgenerations : c.generations.length ≤ c'.generations.length)
    (hpending : ∀ g id, c'.pending? g id = c.pending? g id)
    (hphases : ∀ g phase, c'.phase? g = some phase → phase.Justified past g)
    (hborrowed : ∀ g, c'.borrowed? g = c.borrowed? g) (hinFlight : ∀ g h, c'.inFlight g h = c.inFlight g h)
    (hanswers : c'.handles.map Handle.answer = c.handles.map Handle.answer)
    (hprogress : c'.handles.map Handle.progress = c.handles.map Handle.progress) : Inv past c' where
  owned := hinv.owned.congr hgenerations (fun g id => congrArg _ (hpending g id)) hanswers
  heard := hinv.heard.congr hpending hphases hborrowed hinFlight hprogress

/-- What happens besides does not matter. -/
theorem extend (hinv : Inv past c) (hx : enlistment? x = none) (hreport : ∀ g id, report? g id x = none) :
    Inv (past ++ [x]) c where
  owned := hinv.owned.extend hx
  heard := hinv.heard.extend hinv.owned hx hreport

/-- Neither events that come or go, nor marks, change anything. -/
theorem modifyGeneration_of_same (hinv : Inv past c) (g : Nat) {f : Generation → Generation}
    (hpending : ∀ generation, (f generation).pending = generation.pending)
    (hphase : ∀ generation, (f generation).phase = generation.phase) : Inv past (c.modifyGeneration g f) := by
  have hphase? : ∀ g', (c.modifyGeneration g f).phase? g' = c.phase? g' := fun g' =>
    c.phase?_of_same_phase g g' hphase
  refine hinv.congr ?_ ?_ ?_ ?_ ?_ rfl rfl
  · exact Nat.le_of_eq (c.length_modifyGeneration g f).symm
  · intro g' id
    exact c.pending?_of_same_table g g' id hpending
  · intro g' phase h
    exact hinv.heard.phases g' phase ((hphase? g').symm.trans h)
  · intro g'
    rw [borrowed?, borrowed?, hphase?]
  · intro g' h
    rw [inFlight, inFlight, hphase?]

/-- A router that has no callback goes on, and takes none. -/
theorem modifyGeneration_of_quiet (hinv : Inv past c) (g : Nat) {f : Generation → Generation} {phase : Phase}
    (hpending : ∀ generation, (f generation).pending = generation.pending)
    (hphase : ∀ generation, (f generation).phase = phase) (hbefore : c.borrowed? g = none)
    (hafter : phase.borrowed? = none) (hjustified : phase.Justified past g) :
    Inv past (c.modifyGeneration g f) := by
  have hphase? : ∀ g', (c.modifyGeneration g f).phase? g' =
      if g = g' then (c.phase? g').map fun _ => phase else c.phase? g' := by
    intro g'
    rw [phase?_modifyGeneration, phase?, Option.map_map]
    simp only [hphase]
    rfl
  have hborrowed : ∀ g', (c.modifyGeneration g f).borrowed? g' = c.borrowed? g' := by
    intro g'
    rw [borrowed?, hphase?]
    by_cases hg : g = g'
    · subst hg
      rw [if_pos rfl, hbefore]
      cases c.phase? g with
      | none => rfl
      | some _ => exact hafter
    · rw [if_neg hg, borrowed?]
  refine hinv.congr ?_ ?_ ?_ hborrowed ?_ rfl rfl
  · exact Nat.le_of_eq (c.length_modifyGeneration g f).symm
  · intro g' id
    exact c.pending?_of_same_table g g' id hpending
  · exact justified_of_update hinv.heard.phases hphase? hjustified
  · intro g' h
    by_cases hg : g = g'
    · subst hg
      rw [inFlight_of_borrowed? hbefore, inFlight_of_borrowed? ((hborrowed g).trans hbefore)]
    · rw [inFlight, hphase?, if_neg hg, inFlight]

theorem setInbox (hinv : Inv past c) (g : Nat) (inbox : List Worker.Event) : Inv past (c.setInbox g inbox) :=
  hinv.modifyGeneration_of_same g (fun _ => rfl) fun _ => rfl

theorem setPhase_of_quiet (hinv : Inv past c) {phase : Phase} (hbefore : c.borrowed? g = none)
    (hafter : phase.borrowed? = none) (hjustified : phase.Justified past g) : Inv past (c.setPhase g phase) :=
  hinv.modifyGeneration_of_quiet g (fun _ => rfl) (fun _ => rfl) hbefore hafter hjustified

theorem with_current? (hinv : Inv past c) (current? : Option Nat) : Inv past { c with current? } :=
  hinv.congr (Nat.le_refl _) (fun _ _ => rfl) hinv.heard.phases (fun _ => rfl) (fun _ _ => rfl) rfl rfl

theorem with_dispatched (hinv : Inv past c) (dispatched : Nat) : Inv past { c with dispatched } :=
  hinv.congr (Nat.le_refl _) (fun _ _ => rfl) hinv.heard.phases (fun _ => rfl) (fun _ _ => rfl) rfl rfl

theorem receive (hinv : Inv past c) {ids : String → Bool} {reply : Reply}
    (hcause : ∀ e ∈ enlistments past, e.generation = g → ids e.id = true → Cause past e reply) :
    Inv past (c.settle g ids (Handle.receive reply)) where
  owned := hinv.owned.receive hcause
  heard := hinv.heard.settle hinv.owned fun _ => rfl

theorem rejectAll (hinv : Inv past c) {error : Error}
    (hcause : ∀ e ∈ enlistments past, e.generation = g → Cause past e (.failed error)) :
    Inv past (c.rejectAll g error) :=
  hinv.receive fun e he hg _ => hcause e he hg

theorem abandonAll (hinv : Inv past c) (g : Nat) : Inv past (c.abandonAll g) where
  owned := hinv.owned.abandonAll g
  heard := hinv.heard.settle hinv.owned fun _ => rfl

theorem letGo (hinv : Inv past c) : Inv past c.letGo := by
  have hfree := hinv.with_current? none
  unfold Client.letGo
  split
  · dsimp only
    split
    · exact hfree.abandonAll _
    · exact hfree
  · exact hinv

/-! ### Routers -/

theorem setListening_owned (howned : Owned past c) (id : String) (listening : Bool) :
    Owned past (c.setListening g id listening) := by
  refine howned.congr (Nat.le_of_eq (c.length_modifyGeneration g _).symm) (fun g' id' => ?_) rfl
  exact c.handle_setListening g g' id id' listening

theorem setPhase_owned (howned : Owned past c) (phase : Phase) : Owned past (c.setPhase g phase) :=
  howned.congr (Nat.le_of_eq (c.length_modifyGeneration g _).symm)
    (fun g' id => congrArg _ (c.pending?_setPhase g g' id phase)) rfl

theorem modifyHandle_owned (howned : Owned past c) (h : Nat) {f : Handle → Handle}
    (hf : ∀ x, (f x).answer = x.answer) : Owned past (c.modifyHandle h f) := by
  refine howned.congr (Nat.le_refl _) (fun _ _ => rfl) (List.ext_getElem? fun h' => ?_)
  rw [List.getElem?_map, handles_modifyHandle, List.getElem?_map]
  split
  · rw [Option.map_map]
    exact congrArg (fun g => Option.map g c.handles[h']?) (funext hf)
  · rfl

/-- While the router has no callback, an entry has the one that its request came with. -/
theorem listening_eq (hinv : Inv past c) {id : String} {entry : Entry} {listening : Bool}
    (hborrowed : c.borrowed? g = none) (hentry : c.pending? g id = some entry)
    (he : ⟨entry.handle, g, id, listening⟩ ∈ enlistments past) : entry.listening = listening := by
  have hlistening := hinv.heard.listening g id entry listening hentry he
  rw [hborrowed] at hlistening
  exact hlistening.trans (Bool.and_true listening)

/-- A report is taken up, and the callback of its request is taken from the entry. -/
theorem takeReport (hinv : Inv past c) {r : Response} {entry : Entry} (hx : enlistment? x = none)
    (hborrowed : c.borrowed? g = none) (hentry : c.pending? g r.id = some entry) (hlistening : entry.listening = true)
    (hreport : ∀ g' id, report? g' id x =
      if g = g' ∧ id = r.id ∧ (c.pending? g r.id).isSome = true then some r.payload else none) :
    Inv (past ++ [x]) ((c.setListening g r.id false).setPhase g (.calling r.id entry.handle r.payload)) := by
  obtain ⟨listening, he⟩ := hinv.owned.entries g r.id entry hentry
  obtain rfl : listening = true := (hinv.listening_eq hborrowed hentry he).symm.trans hlistening
  refine ⟨setPhase_owned (setListening_owned (hinv.owned.extend hx) r.id false) _, ?_⟩
  refine hinv.heard.takeCallback hinv.owned hx hborrowed hentry he fun g' id => ?_
  rw [hreport, hentry]
  simp only [Option.isSome_some, and_true]

/-- A report is taken up that no callback is there for. -/
theorem ignoreReport (hinv : Inv past c) {r : Response} (hx : enlistment? x = none) (hborrowed : c.borrowed? g = none)
    (hdeaf : ∀ entry, c.pending? g r.id = some entry → entry.listening = false)
    (hreport : ∀ g' id, report? g' id x =
      if g = g' ∧ id = r.id ∧ (c.pending? g r.id).isSome = true then some r.payload else none) :
    Inv (past ++ [x]) c := by
  refine ⟨hinv.owned.extend hx, hinv.heard.extend_of_unheard hinv.owned hx fun g' id payload hsome => ?_⟩
  rw [hreport] at hsome
  split at hsome
  · rename_i hhere
    obtain ⟨-, hid, hpresent⟩ := hhere
    obtain ⟨entry, hentry⟩ := Option.isSome_iff_exists.mp hpresent
    obtain ⟨listening, he⟩ := hinv.owned.entries g r.id entry hentry
    have hlistening := hinv.listening_eq hborrowed hentry he
    exact ⟨_, he, hid.symm, hlistening.symm.trans (hdeaf entry hentry)⟩
  · cases hsome

end Inv

theorem takenUp?_route (c : Client) (stage : Stage) (g g' : Nat) :
    takenUp? g' (⟨c, stage⟩, .route g) = if g = g' then c.nextEvent? g' else none := rfl

theorem report?_route_of_report {c : Client} (stage : Stage) {g : Nat} {r : Response}
    (hnext : c.nextEvent? g = some (.message r)) (hkind : r.kind = .progress) (g' : Nat) (id : String) :
    report? g' id (⟨c, stage⟩, .route g) =
      if g = g' ∧ id = r.id ∧ (c.pending? g r.id).isSome = true then some r.payload else none := by
  unfold report?
  rw [takenUp?_route]
  by_cases hg : g = g'
  · subst hg
    rw [if_pos rfl, hnext]
    dsimp only
    by_cases hid : id = r.id
    · subst hid
      simp only [hkind, true_and]
    · rw [if_neg fun hall => hid hall.2.1.symm, if_neg fun hall => hid hall.2.1]
  · rw [if_neg hg, if_neg fun hall => hg hall.1]

/-- Only reports are heard. -/
theorem report?_route_of_other {c : Client} (stage : Stage) {g : Nat}
    (hnext : ∀ r, c.nextEvent? g = some (.message r) → r.kind ≠ .progress) (g' : Nat) (id : String) :
    report? g' id (⟨c, stage⟩, .route g) = none := by
  unfold report?
  rw [takenUp?_route]
  by_cases hg : g = g'
  · subst hg
    rw [if_pos rfl]
    cases hevent : c.nextEvent? g with
    | none => rfl
    | some event =>
      cases event with
      | fault message => rfl
      | message r => exact if_neg fun hall => hnext r hevent hall.1
  · rw [if_neg hg]

namespace Inv
variable {past : History} {c c' : Client} {g : Nat}

/-- The step of a router. -/
theorem routed (hinv : Inv past c) (stage : Stage) (hrouted : Routed c g c') :
    Inv (past ++ [(⟨c, stage⟩, .route g)]) c' := by
  have hx : enlistment? (⟨c, stage⟩, .route g) = none := rfl
  have hquiet : ∀ {c₁}, Inv past c₁ → c.nextEvent? g = none → Inv (past ++ [(⟨c, stage⟩, .route g)]) c₁ := by
    intro c₁ h hnext
    refine h.extend hx (report?_route_of_other stage fun r hr => ?_)
    cases hnext.symm.trans hr
  have htaken : ∀ {event}, c.nextEvent? g = some event → event ∈ takenUp (past ++ [(⟨c, stage⟩, .route g)]) g := by
    intro event hnext
    refine mem_takenUp_last ?_
    rw [takenUp?_route, if_pos rfl, hnext]
  have hfree : ∀ {generation}, c.generations[g]? = some generation → generation.phase = .waiting →
      c.borrowed? g = none := by
    intro generation hgeneration hphase
    rw [borrowed?_of_phase? (phase?_of_generation hgeneration), hphase]
    rfl
  cases hrouted with
  | idle hidle => exact hquiet hinv (nextEvent?_of_idle hidle)
  | @fault generation message rest hgeneration hphase hinbox =>
    have hnext := nextEvent?_of_inbox hgeneration hphase hinbox
    have hsame := (hinv.setInbox g rest).extend hx (report?_route_of_other stage fun r hr => by cases hnext.symm.trans hr)
    refine hsame.modifyGeneration_of_quiet g (fun _ => rfl) (fun _ => rfl) ?_ rfl (htaken hnext)
    rw [borrowed?, phase?_setInbox]
    exact hfree hgeneration hphase
  | @respond generation r rest hgeneration hphase hinbox hterminal =>
    have hnext := nextEvent?_of_inbox hgeneration hphase hinbox
    have hother : ∀ r', c.nextEvent? g = some (.message r') → r'.kind ≠ .progress := by
      intro r' hr'
      obtain rfl := Worker.Event.message.inj (Option.some.inj (hnext.symm.trans hr'))
      simpa [Response.isTerminal] using hterminal
    have hsame := (hinv.setInbox g rest).extend hx (report?_route_of_other stage hother)
    refine hsame.receive fun e _ hg hid => ?_
    exact .response r (hg ▸ htaken hnext) (beq_iff_eq.mp hid).symm hterminal
  | @report generation r rest entry hgeneration hphase hinbox hterminal hentry hlistening =>
    have hnext := nextEvent?_of_inbox hgeneration hphase hinbox
    have hkind : r.kind = .progress := by simpa [Response.isTerminal] using hterminal
    refine (hinv.setInbox g rest).takeReport hx ?_ ?_ hlistening fun g' id => ?_
    · rw [borrowed?, phase?_setInbox]
      exact hfree hgeneration hphase
    · rw [pending?_setInbox]
      exact hentry
    · rw [report?_route_of_report stage hnext hkind, pending?_setInbox]
  | @ignore generation r rest hgeneration hphase hinbox hterminal hdeaf =>
    have hnext := nextEvent?_of_inbox hgeneration hphase hinbox
    have hkind : r.kind = .progress := by simpa [Response.isTerminal] using hterminal
    have hsame := hinv.ignoreReport hx (hfree hgeneration hphase) hdeaf
      (report?_route_of_report stage hnext hkind)
    exact hsame.setInbox g rest
  | @call id handle payload hphase =>
    have hsame := hquiet hinv (nextEvent?_of_busy hphase (by simp))
    refine ⟨setPhase_owned ?_ (.restoring id), hsame.heard.runCallback hsame.owned hphase⟩
    exact modifyHandle_owned hsame.owned handle fun _ => rfl
  | @restore id hphase =>
    have hsame := hquiet hinv (nextEvent?_of_busy hphase (by simp))
    exact ⟨setPhase_owned (setListening_owned hsame.owned id true) _,
      hsame.heard.restoreCallback hsame.owned hphase⟩
  | @reject message hphase =>
    have hsame := hquiet hinv (nextEvent?_of_busy hphase (by simp))
    have hfault : Phase.Justified _ g (.rejecting message) := hsame.heard.phases g _ hphase
    refine setPhase_of_quiet (rejectAll hsame fun e _ hg => .fault message (hg ▸ hfault)) ?_ rfl trivial
    rw [Client.rejectAll, borrowed?, phase?_settle]
    exact borrowed?_of_phase? hphase
  | @leave generation hgeneration hphase hinbox hclosed =>
    have hnext : c.nextEvent? g = none := by rw [nextEvent?_of_waiting hgeneration hphase, hinbox, List.head?_nil]
    have hlast : (⟨c, stage⟩, .route g) ∈ past ++ [(⟨c, stage⟩, .route g)] :=
      List.mem_append_right _ List.mem_cons_self
    refine setPhase_of_quiet (rejectAll (hquiet hinv hnext) fun e _ hg => ?_) ?_ rfl trivial
    · exact .leave ⟨c, stage⟩ (hg ▸ hlast) ⟨generation, hg ▸ hgeneration, hinbox, hclosed⟩
    · rw [Client.rejectAll, borrowed?, phase?_settle]
      exact hfree hgeneration hphase
  | mark hphase =>
    have hsame := hquiet hinv (nextEvent?_of_busy hphase (by simp))
    exact hsame.modifyGeneration_of_quiet g (fun _ => rfl) (fun _ => rfl) (borrowed?_of_phase? hphase) rfl trivial
  | finish hphase =>
    have hsame := hquiet hinv (nextEvent?_of_busy hphase (by simp))
    have hended : Inv _ (c.setPhase g .ended) := hsame.setPhase_of_quiet (borrowed?_of_phase? hphase) rfl trivial
    unfold finish
    dsimp only
    split
    · exact hended
    · exact hended.abandonAll g

/-! ### Holders, workers and the client -/

theorem look (hinv : Inv past c) (h : Nat) : Inv past (c.look h).1 := by
  unfold Client.look
  cases c.handles[h]? with
  | none => exact hinv
  | some handle =>
    dsimp only
    cases handle.replies[handle.taken]? with
    | none => exact hinv
    | some r =>
      refine ⟨modifyHandle_owned hinv.owned h fun _ => rfl, ?_⟩
      refine hinv.heard.congr (fun _ _ => rfl) hinv.heard.phases (fun _ => rfl) (fun _ _ => rfl) ?_
      refine List.ext_getElem? fun h' => ?_
      rw [List.getElem?_map, handles_modifyHandle, List.getElem?_map]
      split
      · rw [Option.map_map]
        rfl
      · rfl

theorem start (hinv : Inv past c) : Inv past c.start := by
  have hnone : c.phase? c.generations.length = none := by
    rw [phase?, List.getElem?_eq_none (Nat.le_refl _)]
    rfl
  refine hinv.congr ?_ (fun g id => c.pending?_start g id) ?_ ?_ ?_ rfl rfl
  · rw [Client.start, List.length_append]
    exact Nat.le_add_right _ _
  · intro g phase h
    rw [phase?_start] at h
    split at h
    · obtain rfl := Option.some.inj h
      trivial
    · exact hinv.heard.phases g phase h
  · intro g
    rw [borrowed?, borrowed?, phase?_start]
    split
    · rename_i hg
      rw [hg, hnone]
      rfl
    · rfl
  · intro g h
    rw [inFlight, inFlight, phase?_start]
    split
    · rename_i hg
      rw [hg, hnone]
      rfl
    · rfl

theorem refuse (hinv : Inv past c) (error : Error) : Inv past (c.refuse error) :=
  ⟨hinv.owned.refuse error, hinv.heard.refuse hinv.owned error⟩

theorem renew (hinv : Inv past c) : Inv past c.renew := by
  have hcounted := hinv.with_dispatched (c.dispatched + 1)
  unfold Client.renew
  dsimp only
  split
  · exact hcounted.letGo
  · exact hcounted

theorem terminate (hinv : Inv past c)
    (hcause : ∀ e : Enlistment, c.current? = some e.generation → Cause past e (.failed .terminated)) :
    Inv past c.terminate := by
  unfold Client.terminate
  cases hcurrent : c.current? with
  | none => exact hinv
  | some g => exact letGo (hinv.rejectAll fun e _ hg => hcause e (hg ▸ hcurrent))

theorem withdraw (hinv : Inv past c) {id : String} {error : Error}
    (hcause : ∀ e : Enlistment, e.id = id → Cause past e (.failed error)) : Inv past (c.withdraw id error) := by
  unfold Client.withdraw
  cases c.current? with
  | none => exact hinv
  | some g => exact hinv.receive fun e _ _ hid => hcause e (beq_iff_eq.mp hid)

end Inv

/-! ### Numbers -/

/-- How many requests are counted that have no handle yet. -/
def Stage.owed : Stage → Nat
  | counted => 1
  | _ => 0

/-- Requests are counted, and the current worker is one that was started. -/
structure Numbered (s : State) : Prop where
  /-- Every dispatch has its handle, but for the one that has not come so far. -/
  dispatched : s.client.dispatched = s.client.handles.length + s.stage.owed
  /-- The current worker was started. -/
  current : ∀ g, s.client.current? = some g → g < s.client.generations.length

theorem numbered_new : Numbered {} := ⟨rfl, fun _ h => nomatch h⟩

/-- What the steps of others leave alone. -/
def frame (c : Client) : Nat × Nat × Option Nat × Nat :=
  (c.dispatched, c.handles.length, c.current?, c.generations.length)

section
variable (c : Client) (g : Nat)

theorem frame_modifyGeneration (f : Generation → Generation) : (c.modifyGeneration g f).frame = c.frame := by
  rw [frame, length_modifyGeneration]
  rfl

theorem frame_setPhase (phase : Phase) : (c.setPhase g phase).frame = c.frame := c.frame_modifyGeneration g _

theorem frame_markFaulted (phase : Phase) : (c.markFaulted g phase).frame = c.frame := c.frame_modifyGeneration g _

theorem frame_setInbox (inbox : List Worker.Event) : (c.setInbox g inbox).frame = c.frame := c.frame_modifyGeneration g _

theorem frame_setListening (id : String) (listening : Bool) : (c.setListening g id listening).frame = c.frame :=
  c.frame_modifyGeneration g _

theorem frame_modifyHandle (h : Nat) (f : Handle → Handle) : (c.modifyHandle h f).frame = c.frame := by
  rw [frame, length_modifyHandle]
  rfl

theorem frame_settle (ids : String → Bool) (f : Handle → Handle) : (c.settle g ids f).frame = c.frame := by
  rw [frame, dispatched_settle, length_handles_settle, current?_settle, length_generations_settle]
  rfl

theorem frame_routed {c' : Client} (hrouted : Routed c g c') : c'.frame = c.frame := by
  cases hrouted with
  | idle => rfl
  | fault | ignore | restore | mark | report => simp only [frame_setPhase, frame_setListening, frame_setInbox, frame_markFaulted]
  | respond => rw [frame_settle, frame_setInbox]
  | call => rw [frame_setPhase, frame_modifyHandle]
  | reject | leave => rw [frame_setPhase, rejectAll, frame_settle]
  | finish =>
    unfold finish
    dsimp only
    split
    · exact c.frame_setPhase g _
    · rw [abandonAll, frame_settle, frame_setPhase]

theorem frame_look (h : Nat) : (c.look h).1.frame = c.frame := by
  unfold look
  split
  · rfl
  split
  · exact c.frame_modifyHandle _ _
  · rfl

end

theorem of_frame {c c' : Client} (hframe : c'.frame = c.frame) :
    c'.dispatched = c.dispatched ∧ c'.handles.length = c.handles.length ∧ c'.current? = c.current? ∧
      c'.generations.length = c.generations.length := by
  simpa [frame] using hframe

theorem Numbered.of_frame {c c' : Client} {stage : Stage} (hnumbered : Numbered ⟨c, stage⟩)
    (hframe : c'.frame = c.frame) : Numbered ⟨c', stage⟩ := by
  obtain ⟨hdispatched, hhandles, hcurrent, hgenerations⟩ := Client.of_frame hframe
  constructor
  · rw [hdispatched, hhandles]
    exact hnumbered.dispatched
  · rw [hcurrent, hgenerations]
    exact hnumbered.current

/-! ### Steps and runs -/

theorem letGo_numbers (c : Client) :
    c.letGo.dispatched = c.dispatched ∧ c.letGo.handles.length = c.handles.length ∧
      c.letGo.generations.length = c.generations.length ∧
      (c.letGo.current? = none ∨ c.letGo.current? = c.current?) := by
  unfold letGo
  split
  · dsimp only
    split
    · rw [abandonAll, dispatched_settle, length_handles_settle, current?_settle, length_generations_settle]
      exact ⟨rfl, rfl, rfl, .inl rfl⟩
    · exact ⟨rfl, rfl, rfl, .inl rfl⟩
  · exact ⟨rfl, rfl, rfl, .inr rfl⟩

theorem Numbered.letGo {c : Client} {stage : Stage} (hnumbered : Numbered ⟨c, stage⟩) : Numbered ⟨c.letGo, stage⟩ := by
  obtain ⟨hdispatched, hhandles, hgenerations, hcurrent⟩ := c.letGo_numbers
  constructor
  · rw [hdispatched, hhandles]
    exact hnumbered.dispatched
  · intro g hg
    rw [hgenerations]
    rcases hcurrent with hnone | hsame
    · cases hnone.symm.trans hg
    · exact hnumbered.current g (hsame.symm.trans hg)

theorem Numbered.renew {c : Client} (hnumbered : Numbered ⟨c, .idle⟩) : Numbered ⟨c.renew, .counted⟩ := by
  have hcounted : Numbered ⟨{ c with dispatched := c.dispatched + 1 }, .counted⟩ :=
    ⟨congrArg Nat.succ hnumbered.dispatched, hnumbered.current⟩
  unfold Client.renew
  dsimp only
  split
  · exact hcounted.letGo
  · exact hcounted

theorem Step.numbered {s s' : State} {m : Move} (hstep : Step s m s') (hnumbered : Numbered s) : Numbered s' := by
  cases hstep with
  | renew c => exact hnumbered.renew
  | @start c hneeds =>
    refine ⟨hnumbered.dispatched, fun g hg => ?_⟩
    obtain rfl := Option.some.inj hg
    rw [Client.start, List.length_append]
    exact Nat.lt_succ_self _
  | @refuse c error hneeds =>
    refine ⟨?_, hnumbered.current⟩
    have hdispatched := hnumbered.dispatched
    rw [Client.refuse, List.length_append]
    exact hdispatched
  | @enlist c listening hneeds =>
    obtain ⟨g, hcurrent⟩ := current_of_needsWorker hneeds
    have hdispatched := hnumbered.dispatched
    rw [Client.enlist, hcurrent]
    refine ⟨?_, fun g' hg' => ?_⟩
    · rw [List.length_append]
      exact hdispatched
    · rw [length_modifyGeneration]
      exact hnumbered.current g' hg'
  | post c => exact ⟨hnumbered.dispatched, hnumbered.current⟩
  | withdraw c error =>
    have hidle : Numbered ⟨c, .idle⟩ := ⟨hnumbered.dispatched, hnumbered.current⟩
    unfold Client.withdraw
    split
    · exact hidle
    · exact hidle.of_frame (c.frame_settle _ _ _)
  | terminate c =>
    unfold Client.terminate
    split
    · exact (hnumbered.of_frame (c.frame_settle _ _ _)).letGo
    · exact hnumbered
  | route c stage g => exact hnumbered.of_frame (c.frame_routed g (c.routed g))
  | receive c stage g event => exact hnumbered.of_frame (c.frame_modifyGeneration g _)
  | close c stage g => exact hnumbered.of_frame (c.frame_modifyGeneration g _)
  | look c stage h => exact hnumbered.of_frame (c.frame_look h)

theorem Step.inv {past : History} {s s' : State} {m : Move} (hstep : Step s m s') (hinv : Inv past s.client)
    (hnumbered : Numbered s) : Inv (past ++ [(s, m)]) s'.client := by
  have hlast : (s, m) ∈ past ++ [(s, m)] := List.mem_append_right _ List.mem_cons_self
  cases hstep with
  | renew c => exact (hinv.extend rfl fun _ _ => rfl).renew
  | start hneeds => exact (hinv.extend rfl fun _ _ => rfl).start
  | refuse error hneeds => exact (hinv.extend rfl fun _ _ => rfl).refuse error
  | @enlist c listening hneeds =>
    obtain ⟨g, hcurrent⟩ := current_of_needsWorker hneeds
    have hlt := hnumbered.current g hcurrent
    have hid : c.lastId = idOf (c.handles.length + 1) := congrArg idOf hnumbered.dispatched
    have hx : enlistment? (⟨c, .counted⟩, .enlist listening) =
        some ⟨c.handles.length, g, c.lastId, listening⟩ := by
      rw [enlistment?, hcurrent]
      rfl
    exact ⟨hinv.owned.enlist hcurrent hlt hid hx,
      hinv.heard.enlist hinv.owned hcurrent hlt hid hx fun _ _ => rfl⟩
  | post c => exact hinv.extend rfl fun _ _ => rfl
  | withdraw c error =>
    exact (hinv.extend rfl fun _ _ => rfl).withdraw fun e hid => .withdraw _ error hlast hid.symm
  | terminate c =>
    exact (hinv.extend rfl fun _ _ => rfl).terminate fun e hcurrent => .terminate _ hlast hcurrent
  | route c stage g => exact hinv.routed stage (c.routed g)
  | receive c stage g event =>
    refine (hinv.extend rfl fun _ _ => rfl).modifyGeneration_of_same g (fun _ => ?_) fun _ => ?_
    · split <;> rfl
    · split <;> rfl
  | close c stage g =>
    exact (hinv.extend rfl fun _ _ => rfl).modifyGeneration_of_same g (fun _ => rfl) fun _ => rfl
  | look c stage h => exact (hinv.extend rfl fun _ _ => rfl).look h

theorem Run.numbered {past : History} {s : State} (hrun : Run past s) : Numbered s := by
  induction hrun with
  | new => exact numbered_new
  | step _ hstep ih => exact hstep.numbered ih

theorem Run.inv {past : History} {s : State} (hrun : Run past s) : Inv past s.client := by
  induction hrun with
  | new => exact inv_new
  | step hpast hstep ih => exact hstep.inv ih hpast.numbered

end Calculator.Client
