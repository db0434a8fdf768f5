import Calculator.Proofs.Client.Renewal
/-!
Looks at a handle. A request is settled once, with a reply or with none, and the first look afterwards finds how. That
look takes the reply, and to every later one a handle whose reply is gone looks like one that never had any.
-/
namespace Calculator.Client

/-! ### How a request is settled -/

/-- The moves that take a request out of the table of a generation, each with the reply that it sends. -/
inductive Closes (c : Client) (g : Nat) (id : String) : Move → Option Reply → Prop
  | respond {r : Response} (hnext : c.nextEvent? g = some (.message r)) (hterminal : r.isTerminal = true)
      (hid : r.id = id) : Closes c g id (.route g) (some (.ofResponse r))
  | fault {message : String} (hphase : c.phase? g = some (.rejecting message)) :
      Closes c g id (.route g) (some (.failed (.workerFault message)))
  | leave (hphase : c.phase? g = some .waiting) (hexhausted : c.exhausted g) :
      Closes c g id (.route g) (some (.failed (.workerFault "Worker exited")))
  | terminate (hcurrent : c.current? = some g) : Closes c g id .terminate (some (.failed .terminated))
  | withdraw {error : Error} (hcurrent : c.current? = some g) (hid : c.lastId = id) :
      Closes c g id (.withdraw error) (some (.failed error))
  /-- The router ends, and the client has let go of its worker. -/
  | finish (hphase : c.phase? g = some (.leaving false)) (hgone : c.current? ≠ some g) : Closes c g id (.route g) none
  /-- The client lets go of a worker that is known to be dead, and its router has ended. -/
  | renew (hcurrent : c.current? = some g) (hfaulted : c.isFaulted g = true) (hended : c.phase? g = some .ended) :
      Closes c g id .renew none

/-- How the request of a handle was settled: no worker could be started for it, or it was taken out of a table. -/
inductive SettledAs (past : History) (h : Nat) : Option Reply → Prop
  | refused {s : State} {error : Error} (hmove : (s, .refuse error) ∈ past) (hlast : s.client.handles.length = h) :
      SettledAs past h (some (.failed error))
  | closed {s : State} {m : Move} {g : Nat} {id : String} {entry : Entry} {reply? : Option Reply}
      (hmove : (s, m) ∈ past) (hentry : s.client.pending? g id = some entry) (hhandle : entry.handle = h)
      (hcloses : Closes s.client g id m reply?) : SettledAs past h reply?

section
variable {past : History} {s s' : State} {m : Move} {h : Nat} {reply? : Option Reply}

theorem SettledAs.mono (hsettled : SettledAs past h reply?) (x : State × Move) : SettledAs (past ++ [x]) h reply? := by
  cases hsettled with
  | refused hmove hlast => exact .refused (List.mem_append_left _ hmove) hlast
  | closed hmove hentry hhandle hcloses => exact .closed (List.mem_append_left _ hmove) hentry hhandle hcloses

/-- A request that is settled was settled before, or is settled by the last move. -/
theorem SettledAs.of_append (hsettled : SettledAs (past ++ [(s, m)]) h reply?) :
    SettledAs past h reply? ∨
      (∃ error, m = .refuse error ∧ s.client.handles.length = h ∧ reply? = some (.failed error)) ∨
      ∃ g id entry, s.client.pending? g id = some entry ∧ entry.handle = h ∧ Closes s.client g id m reply? := by
  cases hsettled with
  | @refused t error hmove hlast =>
    rcases List.mem_append.mp hmove with hmove | hmove
    · exact .inl (.refused hmove hlast)
    · obtain ⟨rfl, rfl⟩ := Prod.mk.inj (List.mem_singleton.mp hmove)
      exact .inr (.inl ⟨error, rfl, hlast, rfl⟩)
  | @closed t m' g id entry _ hmove hentry hhandle hcloses =>
    rcases List.mem_append.mp hmove with hmove | hmove
    · exact .inl (.closed hmove hentry hhandle hcloses)
    · obtain ⟨rfl, rfl⟩ := Prod.mk.inj (List.mem_singleton.mp hmove)
      exact .inr (.inr ⟨g, id, entry, hentry, hhandle, hcloses⟩)

end

/-! ### What a settled request has been sent -/

/-- What was sent to a handle, and whether more can come. -/
def answer? (c : Client) (h : Nat) : Option (List Reply × Bool) := c.handles[h]?.map Handle.answer

/-- A handle with a reply is closed. -/
theorem Replied.answer? {past : History} {c : Client} {h : Nat} {reply : Reply} (hreplied : c.Replied h reply)
    (howned : Owned past c) : c.answer? h = some ([reply], true) := by
  obtain ⟨x, hx, hreplies⟩ := hreplied
  have hclosed : x.hungUp = true := by
    cases hopen : x.hungUp with
    | true => rfl
    | false => simp [(howned.replied h x hx).2 hopen] at hreplies
  simp [Client.answer?, hx, Handle.answer, hreplies, hclosed]

/-- A request of a table that is dropped has no reply, and its handle is closed. -/
theorem Owned.answer?_abandonAll {past : History} {c : Client} {g : Nat} {id : String} {entry : Entry}
    (howned : Owned past c) (hentry : c.pending? g id = some entry) :
    (c.abandonAll g).answer? entry.handle = some ([], true) := by
  obtain ⟨x, hx, hopen⟩ := howned.awaited g id entry hentry
  have hnone := (howned.replied entry.handle x hx).2 hopen
  have hsettled :=
    (howned.handles_settle g entry.handle (fun _ => true) Handle.abandon).1 x ⟨id, entry, hentry, rfl, rfl⟩ hx
  unfold Client.answer? Client.abandonAll
  simp [hsettled, Handle.answer, Handle.abandon, hnone]

section
variable {c : Client} {g : Nat}

theorem route_of_exhausted (hphase : c.phase? g = some .waiting) (hexhausted : c.exhausted g) :
    ∃ stranded, c.route g = (c.rejectAll g (.workerFault "Worker exited")).setPhase g (.leaving stranded) := by
  obtain ⟨generation, hgeneration, hinbox, hclosed⟩ := hexhausted
  have hwaiting : generation.phase = .waiting := Option.some.inj ((phase?_of_generation hgeneration).symm.trans hphase)
  exact ⟨!generation.pending.entries.isEmpty, by simp [route, hgeneration, hwaiting, await, hinbox, hclosed]⟩

theorem route_of_leaving (hphase : c.phase? g = some (.leaving false)) : c.route g = c.finish g := by
  obtain ⟨generation, hgeneration, hleaving⟩ := Option.map_eq_some_iff.mp hphase
  simp [route, hgeneration, hleaving]

theorem letGo_of_ended (hcurrent : c.current? = some g) (hended : c.phase? g = some .ended) :
    c.letGo = ({ c with current? := none } : Client).abandonAll g := by
  obtain ⟨generation, hgeneration, hphase⟩ := Option.map_eq_some_iff.mp hended
  simp [letGo, currentGeneration?, hcurrent, hgeneration, hphase]

theorem renew_of_isFaulted (hcurrent : c.current? = some g) (hfaulted : c.isFaulted g = true) :
    c.renew = ({ c with dispatched := c.dispatched + 1 } : Client).letGo := by
  unfold isFaulted at hfaulted
  simp [renew, currentGeneration?, hcurrent, hfaulted]

end

/-- A move that takes a request out of a table sends it the reply that goes with the move, and nothing more. -/
theorem Closes.answer? {past : History} {s s' : State} {m : Move} {g : Nat} {id : String} {entry : Entry}
    {reply? : Option Reply} (hcloses : Closes s.client g id m reply?) (hrun : Run past s) (hstep : Step s m s')
    (hentry : s.client.pending? g id = some entry) :
    s'.client.answer? entry.handle = some (reply?.toList, true) := by
  have howned := hrun.inv.owned
  have howned' := (hrun.step hstep).inv.owned
  cases hcloses with
  | @respond r hnext hterminal hid =>
    subst hid
    cases hstep with
    | route c stage => exact ((c.routed g).replied hrun.inv hnext hterminal hentry).answer? howned'
  | fault hphase =>
    cases hstep with
    | route c stage => exact (((c.routed g).settled howned hphase).replied id entry hentry).answer? howned'
  | leave hphase hexhausted =>
    cases hstep with
    | route c stage =>
      obtain ⟨stranded, hroute⟩ := route_of_exhausted hphase hexhausted
      have hsettled := (howned.settled_rejectAll g (.workerFault "Worker exited")).of_same
        (fun g' id => pending?_setPhase _ g g' id (.leaving stranded)) rfl
      apply Replied.answer? _ howned'
      show (c.route g).Replied entry.handle _
      rw [hroute]
      exact hsettled.replied id entry hentry
  | terminate hcurrent =>
    cases hstep with
    | terminate c => exact ((howned.settled_terminate hcurrent).replied id entry hentry).answer? howned'
  | @withdraw error hcurrent hid =>
    cases hstep with
    | withdraw c =>
      apply Replied.answer? _ howned'
      have hcurrent' : c.current? = some g := hcurrent
      show (c.withdraw c.lastId error).Replied entry.handle _
      simp only [Client.withdraw, hcurrent']
      exact howned.replied_settle hentry (· == c.lastId) (beq_iff_eq.mpr hid.symm) _
  | finish hphase hgone =>
    cases hstep with
    | route c stage =>
      have hended : Owned past (c.setPhase g .ended) := Inv.setPhase_owned howned .ended
      have hstill : (c.setPhase g .ended).pending? g id = some entry := (c.pending?_setPhase g g id _).trans hentry
      have hgone' : ¬(c.setPhase g .ended).current? = some g := hgone
      show (c.route g).answer? entry.handle = _
      simp only [route_of_leaving hphase, Client.finish, if_neg hgone']
      exact hended.answer?_abandonAll hstill
  | renew hcurrent hfaulted hended =>
    cases hstep with
    | renew c =>
      have hfree := ((hrun.inv.with_dispatched (c.dispatched + 1)).with_current? none).owned
      have hdead : c.renew = ({ c with dispatched := c.dispatched + 1, current? := none } : Client).abandonAll g :=
        (renew_of_isFaulted hcurrent hfaulted).trans (letGo_of_ended hcurrent hended)
      show c.renew.answer? entry.handle = _
      rw [hdead]
      exact hfree.answer?_abandonAll hentry

/-! ### What a step changes of a handle -/

/-- The handle is still there, and no look has taken anything from it; what was sent to it is as before, but if `P`. -/
def KeepsUnless (P : Prop) (c' : Client) (h : Nat) (x : Handle) : Prop :=
  ∃ x', c'.handles[h]? = some x' ∧ x'.taken = x.taken ∧ (x'.answer = x.answer ∨ P)

section
variable {past : History} {c c' c'' : Client} {h : Nat} {x : Handle} {P Q : Prop}

theorem keepsUnless_of_handles (hhandles : c'.handles = c.handles) (hx : c.handles[h]? = some x) :
    KeepsUnless P c' h x := ⟨x, hhandles ▸ hx, rfl, .inl rfl⟩

theorem KeepsUnless.of_handles (hkeeps : KeepsUnless P c h x) (hhandles : c'.handles = c.handles) :
    KeepsUnless P c' h x := by
  unfold KeepsUnless
  rw [hhandles]
  exact hkeeps

theorem keepsUnless_modifyHandle (hx : c.handles[h]? = some x) (h' : Nat) (f : Handle → Handle)
    (hf : ∀ x, (f x).answer = x.answer ∧ (f x).taken = x.taken) : KeepsUnless P (c.modifyHandle h' f) h x := by
  unfold KeepsUnless
  rw [handles_modifyHandle, hx]
  split
  · exact ⟨f x, rfl, (hf x).2, .inl (hf x).1⟩
  · exact ⟨x, rfl, rfl, .inl rfl⟩

/-- Only requests that are taken out of a table are sent anything. -/
theorem Owned.keepsUnless_settle (howned : Owned past c) (hx : c.handles[h]? = some x) {g : Nat}
    {ids : String → Bool} (f : Handle → Handle) (hf : ∀ x, (f x).taken = x.taken)
    (hP : ∀ id entry, c.pending? g id = some entry → ids id = true → entry.handle = h → P) :
    KeepsUnless P (c.settle g ids f) h x := by
  have hsettled := howned.handles_settle g h ids f
  by_cases hwaits : WaitsIn c g h ids
  · obtain ⟨id, entry, hentry, hid, hhandle⟩ := hwaits
    exact ⟨f x, hsettled.1 x ⟨id, entry, hentry, hid, hhandle⟩ hx, hf x, .inr (hP id entry hentry hid hhandle)⟩
  · exact ⟨x, (hsettled.2 hwaits).trans hx, rfl, .inl rfl⟩

theorem Owned.keepsUnless_receive (howned : Owned past c) (hx : c.handles[h]? = some x) {g : Nat}
    {ids : String → Bool} {reply : Reply}
    (hP : ∀ id entry, c.pending? g id = some entry → ids id = true → entry.handle = h → P) :
    KeepsUnless P (c.settle g ids (Handle.receive reply)) h x :=
  howned.keepsUnless_settle hx (Handle.receive reply) (fun _ => rfl) hP

theorem Owned.keepsUnless_rejectAll (howned : Owned past c) (hx : c.handles[h]? = some x) {g : Nat} {error : Error}
    (hP : ∀ id entry, c.pending? g id = some entry → entry.handle = h → P) :
    KeepsUnless P (c.rejectAll g error) h x :=
  howned.keepsUnless_receive hx fun id entry hentry _ => hP id entry hentry

theorem Owned.keepsUnless_abandonAll (howned : Owned past c) (hx : c.handles[h]? = some x) {g : Nat}
    (hP : ∀ id entry, c.pending? g id = some entry → entry.handle = h → P) :
    KeepsUnless P (c.abandonAll g) h x :=
  howned.keepsUnless_settle hx Handle.abandon (fun _ => rfl) fun id entry hentry _ => hP id entry hentry

end

/-- The request of a handle waits, and a move takes it out of its table. -/
def ClosedBy (c : Client) (m : Move) (h : Nat) : Prop :=
  ∃ g id entry reply?, c.pending? g id = some entry ∧ entry.handle = h ∧ Closes c g id m reply?

section
variable {past : History} {c c' : Client} {g h : Nat} {x : Handle}

/-- A router sends something only to requests that it takes out of its table. -/
theorem Routed.keepsUnless (hrouted : Routed c g c') (hinv : Inv past c) (hx : c.handles[h]? = some x) :
    KeepsUnless (ClosedBy c (.route g) h) c' h x := by
  have howned := hinv.owned
  cases hrouted with
  | idle | fault | report | ignore | restore | mark => exact keepsUnless_of_handles rfl hx
  | @respond generation r rest hgeneration hphase hinbox hterminal =>
    apply (hinv.setInbox g rest).owned.keepsUnless_receive hx
    intro id entry hentry hid hhandle
    rw [pending?_setInbox] at hentry
    have hnext := nextEvent?_of_inbox hgeneration hphase hinbox
    exact ⟨g, id, entry, _, hentry, hhandle, .respond hnext hterminal (beq_iff_eq.mp hid).symm⟩
  | @call id handle payload =>
    let hear (x : Handle) : Handle := { x with progress := x.progress ++ [payload] }
    exact (keepsUnless_modifyHandle hx handle hear fun _ => ⟨rfl, rfl⟩).of_handles rfl
  | reject hphase =>
    refine KeepsUnless.of_handles (howned.keepsUnless_rejectAll hx ?_) rfl
    intro id entry hentry hhandle
    exact ⟨g, id, entry, _, hentry, hhandle, .fault hphase⟩
  | @leave generation hgeneration hphase hinbox hclosed =>
    refine KeepsUnless.of_handles (howned.keepsUnless_rejectAll hx ?_) rfl
    intro id entry hentry hhandle
    have hwaiting : c.phase? g = some .waiting := (phase?_of_generation hgeneration).trans (congrArg some hphase)
    exact ⟨g, id, entry, _, hentry, hhandle, .leave hwaiting ⟨generation, hgeneration, hinbox, hclosed⟩⟩
  | finish hphase =>
    have hended : Owned past (c.setPhase g .ended) := Inv.setPhase_owned howned .ended
    unfold Client.finish
    dsimp only
    split
    · exact keepsUnless_of_handles rfl hx
    · rename_i hgone
      apply hended.keepsUnless_abandonAll hx
      intro id entry hentry hhandle
      rw [pending?_setPhase] at hentry
      exact ⟨g, id, entry, none, hentry, hhandle, .finish hphase hgone⟩

/-- A dispatch begins by dropping at most the table of a dead worker. -/
theorem Inv.keepsUnless_renew (hinv : Inv past c) (hx : c.handles[h]? = some x) :
    KeepsUnless (ClosedBy c .renew h) c.renew h x := by
  have hfree := ((hinv.with_dispatched (c.dispatched + 1)).with_current? none).owned
  by_cases hdead : ∃ g, c.current? = some g ∧ c.isFaulted g = true
  · obtain ⟨g, hcurrent, hfaulted⟩ := hdead
    rw [renew_of_isFaulted hcurrent hfaulted]
    by_cases hended : c.phase? g = some .ended
    · have hdropped := letGo_of_ended (c := { c with dispatched := c.dispatched + 1 }) hcurrent hended
      rw [hdropped]
      apply hfree.keepsUnless_abandonAll hx
      intro id entry hentry hhandle
      exact ⟨g, id, entry, none, hentry, hhandle, .renew hcurrent hfaulted hended⟩
    · apply keepsUnless_of_handles _ hx
      unfold Client.letGo
      split
      · rename_i g' generation hcurrent' hgeneration
        obtain rfl : g' = g := Option.some.inj (hcurrent'.symm.trans hcurrent)
        have hgeneration' : c.generations[g']? = some generation := by
          simpa [currentGeneration?, hcurrent] using hgeneration
        split
        · rename_i hphase
          exact absurd ((phase?_of_generation hgeneration').trans (congrArg some hphase)) hended
        · rfl
      · rfl
  · apply keepsUnless_of_handles _ hx
    unfold Client.renew
    dsimp only
    split
    · rename_i hfaulted
      obtain ⟨generation, hgeneration, hmarked⟩ := (Option.any_eq_true _ _).mp hfaulted
      obtain ⟨g, hcurrent, hgeneration⟩ := Option.bind_eq_some_iff.mp hgeneration
      exact absurd ⟨g, hcurrent, (Option.any_eq_true _ _).mpr ⟨generation, hgeneration, hmarked⟩⟩ hdead
    · rfl

end

/-- A step that is no look at the handle takes nothing from it, and sends something only to a request that waits. -/
theorem Step.keepsUnless {past : History} {s s' : State} {m : Move} {h : Nat} {x : Handle} (hstep : Step s m s')
    (hinv : Inv past s.client) (hlook : m ≠ .look h) (hx : s.client.handles[h]? = some x) :
    KeepsUnless (ClosedBy s.client m h) s'.client h x := by
  have happend : ∀ (handles : List Handle) (y : Handle), handles[h]? = some x →
      (handles ++ [y])[h]? = some x := by
    intro handles y hx
    rw [List.getElem?_append_left (List.getElem?_eq_some_iff.mp hx).1]
    exact hx
  cases hstep with
  | renew c => exact hinv.keepsUnless_renew hx
  | start | post | receive | close => exact keepsUnless_of_handles rfl hx
  | @refuse c error => exact ⟨x, happend _ _ hx, rfl, .inl rfl⟩
  | @enlist c listening hneeds =>
    obtain ⟨g, hcurrent⟩ := current_of_needsWorker hneeds
    refine ⟨x, ?_, rfl, .inl rfl⟩
    simp only [Client.enlist, hcurrent]
    exact happend _ _ hx
  | withdraw c error =>
    unfold Client.withdraw
    split
    · exact keepsUnless_of_handles rfl hx
    · rename_i g hcurrent
      apply hinv.owned.keepsUnless_receive hx
      intro id entry hentry hid hhandle
      exact ⟨g, id, entry, _, hentry, hhandle, .withdraw hcurrent (beq_iff_eq.mp hid).symm⟩
  | terminate c =>
    unfold Client.terminate
    split
    · rename_i g hcurrent
      have hcurrent' : (c.rejectAll g .terminated).current? = some g := (c.current?_settle g _ _).trans hcurrent
      have hempty := (hinv.owned.settled_rejectAll g .terminated).emptied
      refine KeepsUnless.of_handles (hinv.owned.keepsUnless_rejectAll hx ?_) (letGo_of_empty hcurrent' hempty).2
      intro id entry hentry hhandle
      exact ⟨g, id, entry, _, hentry, hhandle, .terminate hcurrent⟩
    · exact keepsUnless_of_handles rfl hx
  | route c stage g => exact (c.routed g).keepsUnless hinv hx
  | look c stage h' =>
    have hne : h' ≠ h := fun heq => hlook (congrArg Move.look heq)
    unfold Client.look
    split
    · exact keepsUnless_of_handles rfl hx
    · split
      · exact ⟨x, by rw [handles_modifyHandle, if_neg hne]; exact hx, rfl, .inl rfl⟩
      · exact keepsUnless_of_handles rfl hx

/-- A handle that a step adds is that of a request that waits, or of one for which no worker could be started. -/
theorem Step.handles_of_none {s s' : State} {m : Move} {h : Nat} {x : Handle} (hstep : Step s m s')
    (hnumbered : Numbered s) (hnone : s.client.handles[h]? = none) (hx : s'.client.handles[h]? = some x) :
    x = {} ∨
      ∃ error, m = .refuse error ∧ s.client.handles.length = h ∧ x = Handle.receive (.failed error) {} := by
  have hlength := List.getElem?_eq_none_iff.mp hnone
  have hlt := (List.getElem?_eq_some_iff.mp hx).1
  have hsame : s'.client.handles.length ≠ s.client.handles.length := by omega
  have hnumbered' := (hstep.numbered hnumbered).dispatched
  have hbefore := hnumbered.dispatched
  have hcounted := hstep.dispatched
  cases hstep with
  | @refuse c error =>
    rw [handles_refuse] at hx
    split at hx
    · rename_i hlast
      exact .inr ⟨error, rfl, hlast.symm, (Option.some.inj hx).symm⟩
    · simp [hnone] at hx
  | @enlist c listening hneeds =>
    obtain ⟨g, hcurrent⟩ := current_of_needsWorker hneeds
    rw [handles_enlist c g h listening hcurrent] at hx
    split at hx
    · exact .inl (Option.some.inj hx).symm
    · simp [hnone] at hx
  | renew c => simp [Stage.owed, dispatched_renew] at *; omega
  | start | post | receive | close => exact absurd rfl hsame
  | withdraw | terminate => simp [Stage.owed, idGiven?] at *; omega
  | route c stage g => exact absurd (of_frame (c.frame_routed g (c.routed g))).2.1 hsame
  | look c stage h' => exact absurd (of_frame (c.frame_look h')).2.1 hsame

/-! ### Settled once -/

/-- What a look at a handle leaves of it: one reply fewer to take, if there is one. -/
theorem handles_look (c : Client) {h : Nat} {x : Handle} (hx : c.handles[h]? = some x) :
    (c.look h).1.handles[h]? =
      some { x with taken := if x.taken < x.replies.length then x.taken + 1 else x.taken } := by
  unfold look
  simp only [hx]
  by_cases htaken : x.taken < x.replies.length
  · simp [htaken, handles_modifyHandle, hx]
  · simp [htaken, hx]

section
variable {past : History} {s s' : State} {m : Move} {h : Nat}

/-- A step sends something to a request only if it takes it out of a table. -/
theorem Step.answer?_cases {answer : List Reply × Bool} (hstep : Step s m s') (hinv : Inv past s.client)
    (hanswer : s.client.answer? h = some answer) : s'.client.answer? h = some answer ∨ ClosedBy s.client m h := by
  obtain ⟨x, hx, rfl⟩ := Option.map_eq_some_iff.mp hanswer
  by_cases hlook : m = .look h
  · subst hlook
    cases hstep with
    | look c stage =>
      left
      show (c.look h).1.answer? h = _
      simp [answer?, handles_look c hx, Handle.answer]
  · obtain ⟨x', hx', -, hsame | hcloses⟩ := hstep.keepsUnless hinv hlook hx
    · left
      simp [answer?, hx', hsame]
    · exact .inr hcloses

theorem Owned.open_of_closedBy (howned : Owned past s.client) (hcloses : ClosedBy s.client m h) :
    ∃ x, s.client.handles[h]? = some x ∧ x.hungUp = false := by
  obtain ⟨g, id, entry, _, hentry, rfl, -⟩ := hcloses
  exact howned.awaited g id entry hentry

/-- A request that was settled has the reply that it was settled with, and will not have another. -/
theorem Run.answer?_of_settledAs (hrun : Run past s) {reply? : Option Reply} (hsettled : SettledAs past h reply?) :
    s.client.answer? h = some (reply?.toList, true) := by
  induction hrun with
  | new =>
    cases hsettled with
    | refused hmove | closed hmove => cases hmove
  | @step past s s' m hpast hstep ih =>
    rcases hsettled.of_append with hbefore | ⟨error, rfl, rfl, rfl⟩ | ⟨g, id, entry, hentry, rfl, hcloses⟩
    · rcases hstep.answer?_cases hpast.inv (ih hbefore) with hsame | hcloses
      · exact hsame
      · obtain ⟨x, hx, hopen⟩ := hpast.inv.owned.open_of_closedBy hcloses
        have hclosed := ih hbefore
        simp [answer?, hx, Handle.answer, hopen] at hclosed
    · cases hstep with
      | @refuse c => simp [answer?, handles_refuse, Handle.answer, Handle.receive]
    · exact hcloses.answer? hpast hstep hentry

/-- A request is settled in at most one way. -/
theorem Run.settledAs_unique (hrun : Run past s) {reply? reply?' : Option Reply} (hsettled : SettledAs past h reply?)
    (hsettled' : SettledAs past h reply?') : reply? = reply?' := by
  have hsame := (hrun.answer?_of_settledAs hsettled).symm.trans (hrun.answer?_of_settledAs hsettled')
  cases reply? <;> cases reply?' <;> simp_all

/-- Every closed handle is that of a request that was settled. -/
theorem Run.settledAs_of_hungUp (hrun : Run past s) {x : Handle} (hx : s.client.handles[h]? = some x)
    (hclosed : x.hungUp = true) : ∃ reply?, SettledAs past h reply? := by
  induction hrun generalizing x with
  | new => simp at hx
  | @step past s s' m hpast hstep ih =>
    cases hbefore : s.client.handles[h]? with
    | none =>
      rcases hstep.handles_of_none hpast.numbered hbefore hx with rfl | ⟨error, rfl, hlast, -⟩
      · cases hclosed
      · exact ⟨_, .refused (List.mem_append_right _ List.mem_cons_self) hlast⟩
    | some y =>
      have hanswer : s.client.answer? h = some y.answer := by simp [answer?, hbefore]
      rcases hstep.answer?_cases hpast.inv hanswer with hsame | ⟨g, id, entry, reply?, hentry, hhandle, hcloses⟩
      · have hstill : y.hungUp = true := by
          have hboth : x.answer = y.answer := by simpa [answer?, hx] using hsame
          exact (congrArg Prod.snd hboth).symm.trans hclosed
        obtain ⟨reply?, hsettled⟩ := ih hbefore hstill
        exact ⟨reply?, hsettled.mono _⟩
      · exact ⟨reply?, .closed (List.mem_append_right _ List.mem_cons_self) hentry hhandle hcloses⟩

end

/-! ### What looks find -/

/-- The reply that a look finds, if the request is settled. -/
def Sight.reply? : Sight → Option Reply
  | pending => none
  | reply r => some r

/-- What the holder of a handle makes of a look: nothing while the request is pending, and else its outcome. -/
def Sight.outcome? (ρ : Type) [Wire ρ] (sight : Sight) : Option (Except Error ρ) := sight.reply?.map Reply.settle

/-- The reply that a move finds, if it is a look at the handle. -/
def found? (h : Nat) : State × Move → Option Reply
  | (s, .look h') => if h' = h then (s.client.look h).2.reply? else none
  | _ => none

/-- The replies that the looks at a handle have found so far. -/
def found (past : History) (h : Nat) : List Reply := past.filterMap (found? h)

section
variable {past : History} {s s' : State} {m : Move} {h : Nat} {x : Handle}

theorem found_of_none (hnone : found? h (s, m) = none) : found (past ++ [(s, m)]) h = found past h := by
  simp [found, List.filterMap_append, hnone]

theorem found_of_some {reply : Reply} (hsome : found? h (s, m) = some reply) : found (past ++ [(s, m)]) h ≠ [] := by
  simp [found, List.filterMap_append, hsome]

theorem found?_of_ne (hlook : m ≠ .look h) : found? h (s, m) = none := by
  cases m with
  | look h' =>
    have hne : h' ≠ h := fun heq => hlook (congrArg Move.look heq)
    simp [found?, hne]
  | _ => rfl

theorem reply?_look {c : Client} (hx : c.handles[h]? = some x) :
    (c.look h).2.reply? =
      (x.replies[x.taken]?).or (if x.hungUp then some (.failed .terminated) else none) := by
  unfold look
  simp only [hx]
  cases x.replies[x.taken]? with
  | some r => rfl
  | none => cases x.hungUp <;> rfl

/-- What the looks at a handle have found of it: nothing while its request waits, and its reply once that is there. -/
structure Looked (past : History) (h : Nat) (x : Handle) : Prop where
  waiting : x.hungUp = false → found past h = []
  taken : x.taken = if (found past h).isEmpty then 0 else x.replies.length

/-- What the next look finds: the reply, if no look has found it. -/
theorem Looked.reply? {c : Client} (hlooked : Looked past h x) (howned : Owned past c) (hx : c.handles[h]? = some x) :
    (c.look h).2.reply? =
      if x.hungUp then
        some (if (found past h).isEmpty then x.replies.headD (.failed .terminated) else .failed .terminated)
      else none := by
  rw [reply?_look hx, hlooked.taken]
  cases hclosed : x.hungUp with
  | false =>
    have hnone := (howned.replied h x hx).2 hclosed
    simp [hnone]
  | true =>
    cases hfound : (found past h).isEmpty with
    | true => cases hreplies : x.replies <;> simp
    | false => simp

/-- A look at a handle. -/
theorem Looked.look {c : Client} (stage : Stage) (hlooked : Looked past h x) (howned : Owned past c)
    (hx : c.handles[h]? = some x) {x' : Handle} (hx' : (c.look h).1.handles[h]? = some x') :
    Looked (past ++ [(⟨c, stage⟩, .look h)]) h x' := by
  have hreply := hlooked.reply? howned hx
  have hmove : found? h (⟨c, stage⟩, .look h) = (c.look h).2.reply? := if_pos rfl
  obtain ⟨hone, hnone⟩ := howned.replied h x hx
  obtain rfl := Option.some.inj ((handles_look c hx).symm.trans hx')
  cases hclosed : x.hungUp with
  | false =>
    have hsame : found (past ++ [(⟨c, stage⟩, .look h)]) h = found past h := by
      apply found_of_none
      simp [hmove, hreply, hclosed]
    have htaken := hlooked.taken
    simp only [hnone hclosed, List.length_nil, ite_self] at htaken
    constructor
    · intro _
      rw [hsame, hlooked.waiting hclosed]
    · simp [hnone hclosed, htaken]
  | true =>
    have hsome : (found (past ++ [(⟨c, stage⟩, .look h)]) h).isEmpty = false :=
      List.isEmpty_eq_false_iff.mpr (found_of_some (hmove.trans (hreply.trans (if_pos hclosed))))
    constructor
    · intro hopen
      cases hopen
    · rw [hsome, hlooked.taken]
      by_cases hreplies : x.replies.length = 0
      · simp [hreplies]
      · have hlength : x.replies.length = 1 := by omega
        cases (found past h).isEmpty <;> simp [hlength]

/-- At any time, looks have found nothing of a request that waits, and have taken the reply of any other that they have
found. -/
theorem Run.looked (hrun : Run past s) :
    (s.client.handles[h]? = none → found past h = []) ∧
      ∀ x, s.client.handles[h]? = some x → Looked past h x := by
  induction hrun with
  | new => simp [found]
  | @step past s s' m hpast hstep ih =>
    obtain ⟨hunborn, hlooked⟩ := ih
    have howned := hpast.inv.owned
    cases hbefore : s.client.handles[h]? with
    | none =>
      have hsame : found (past ++ [(s, m)]) h = [] := by
        rw [found_of_none, hunborn hbefore]
        by_cases hlook : m = .look h
        · subst hlook
          simp [found?, look, hbefore, Sight.reply?]
        · exact found?_of_ne hlook
      refine ⟨fun _ => hsame, fun x hx => ⟨fun _ => hsame, ?_⟩⟩
      rcases hstep.handles_of_none hpast.numbered hbefore hx with rfl | ⟨error, -, -, rfl⟩
      · simp [hsame]
      · simp [hsame, Handle.receive]
    | some y =>
      by_cases hlook : m = .look h
      · subst hlook
        cases hstep with
        | look c stage =>
          refine ⟨fun hnone => ?_, fun x hx => (hlooked y hbefore).look stage howned hbefore hx⟩
          simp [handles_look c hbefore] at hnone
      · have hsame : found (past ++ [(s, m)]) h = found past h := found_of_none (found?_of_ne hlook)
        obtain ⟨x, hx, htaken, hcases⟩ := hstep.keepsUnless hpast.inv hlook hbefore
        refine ⟨fun hnone => by simp [hx] at hnone, fun x' hx' => ?_⟩
        obtain rfl := Option.some.inj (hx.symm.trans hx')
        rcases hcases with hanswer | hcloses
        · have hreplies : x.replies = y.replies := congrArg Prod.fst hanswer
          have hclosed : x.hungUp = y.hungUp := congrArg Prod.snd hanswer
          constructor
          · rw [hsame, hclosed]
            exact (hlooked y hbefore).waiting
          · rw [hsame, htaken, hreplies]
            exact (hlooked y hbefore).taken
        · obtain ⟨z, hz, hopen⟩ := howned.open_of_closedBy hcloses
          obtain rfl := Option.some.inj (hz.symm.trans hbefore)
          have hnone := (hlooked z hbefore).waiting hopen
          constructor
          · intro _
            rw [hsame, hnone]
          · rw [hsame, htaken, (hlooked z hbefore).taken, hnone]
            rfl

/-- What a look finds of a request that was settled. -/
theorem Run.reply?_look_of_settledAs (hrun : Run past s) {reply? : Option Reply} (hsettled : SettledAs past h reply?) :
    (s.client.look h).2.reply? =
      some (if (found past h).isEmpty then reply?.getD (.failed .terminated) else .failed .terminated) := by
  obtain ⟨x, hx, hanswer⟩ := Option.map_eq_some_iff.mp (hrun.answer?_of_settledAs hsettled)
  have hreplies : x.replies = reply?.toList := congrArg Prod.fst hanswer
  have hclosed : x.hungUp = true := congrArg Prod.snd hanswer
  rw [(hrun.looked.2 x hx).reply? hrun.inv.owned hx, hclosed, hreplies]
  cases reply? <;> rfl

end

/-- The client was told to stop while the request of a handle waited for its worker. -/
def Stopped (past : History) (h : Nat) : Prop :=
  ∃ s g id entry, (s, .terminate) ∈ past ∧ s.client.current? = some g ∧ s.client.pending? g id = some entry ∧
    entry.handle = h

/-- The request of a handle failed because its worker could not be started, or took no post, and the reason that was
given is that it was terminated. -/
def FailedAsTerminated (past : History) (h : Nat) : Prop :=
  (∃ s, (s, .refuse .terminated) ∈ past ∧ s.client.handles.length = h) ∨
    ∃ s g entry, (s, .withdraw .terminated) ∈ past ∧ s.client.current? = some g ∧
      s.client.pending? g s.client.lastId = some entry ∧ entry.handle = h

theorem settledAs_terminated_iff {past : History} {h : Nat} :
    SettledAs past h (some (.failed .terminated)) ↔ Stopped past h ∨ FailedAsTerminated past h := by
  constructor
  · intro hsettled
    generalize hreply : some (Reply.failed .terminated) = reply? at hsettled
    cases hsettled with
    | refused hmove hlast =>
      simp only [Option.some.injEq, Reply.failed.injEq] at hreply
      subst hreply
      exact .inr (.inl ⟨_, hmove, hlast⟩)
    | @closed s m g id entry _ hmove hentry hhandle hcloses =>
      cases hcloses with
      | terminate hcurrent => exact .inl ⟨s, g, id, entry, hmove, hcurrent, hentry, hhandle⟩
      | withdraw hcurrent hid =>
        simp only [Option.some.injEq, Reply.failed.injEq] at hreply
        subst hreply hid
        exact .inr (.inr ⟨s, g, entry, hmove, hcurrent, hentry, hhandle⟩)
      | @respond r =>
        unfold Reply.ofResponse at hreply
        split at hreply <;> simp at hreply
      | fault | leave | finish | renew => simp at hreply
  · rintro (⟨s, g, id, entry, hmove, hcurrent, hentry, hhandle⟩ | ⟨s, hmove, hlast⟩ |
      ⟨s, g, entry, hmove, hcurrent, hentry, hhandle⟩)
    · exact .closed hmove hentry hhandle (.terminate hcurrent)
    · exact .refused hmove hlast
    · exact .closed hmove hentry hhandle (.withdraw hcurrent rfl)

theorem settle_eq_terminated_iff {ρ : Type} [Wire ρ] {reply : Reply} :
    (reply.settle : Except Error ρ) = .error .terminated ↔ reply = .failed .terminated := by
  cases reply with
  | payload v =>
    simp only [Reply.settle]
    split <;> simp
  | failed error => simp [Reply.settle]

theorem settle_ofResponse_ne {ρ : Type} [Wire ρ] (r : Response) :
    ((Reply.ofResponse r).settle : Except Error ρ) ≠ .error .terminated := by
  rw [Ne, settle_eq_terminated_iff]
  unfold Reply.ofResponse
  split <;> simp

/-- In every run, whatever the type of the result: a request is settled in at most one way, and looks find nothing
exactly until it is. The first look afterwards gives the reply that was sent, a result or an error of the worker as it
is, and says that the worker was terminated exactly if the client was told to stop while the request waited, if the
request was let go of without a reply together with its generation, or if the worker could not be started or posted to
for that very reason. Every later look says that the worker was terminated, however the request was settled. -/
theorem Run.terminated_unless_first_look {past : History} {s : State} (hrun : Run past s) {h : Nat}
    (hh : h < s.client.handles.length) (ρ : Type) [Wire ρ] :
    (∀ reply? reply?', SettledAs past h reply? → SettledAs past h reply?' → reply? = reply?') ∧
      ((s.client.look h).2.outcome? ρ = none ↔ ∀ reply?, ¬SettledAs past h reply?) ∧
      (found past h = [] →
        (∀ reply, SettledAs past h (some reply) → (s.client.look h).2.outcome? ρ = some reply.settle) ∧
        (∀ r, SettledAs past h (some (.ofResponse r)) →
          (s.client.look h).2.outcome? ρ ≠ some (.error .terminated)) ∧
        ((s.client.look h).2.outcome? ρ = some (.error .terminated) ↔
          Stopped past h ∨ SettledAs past h none ∨ FailedAsTerminated past h)) ∧
      (found past h ≠ [] → (s.client.look h).2.outcome? ρ = some (.error .terminated)) := by
  have hsettled : ∀ reply?, SettledAs past h reply? → (s.client.look h).2.outcome? ρ =
      some (if (found past h).isEmpty then reply?.getD (.failed .terminated) else .failed .terminated).settle := by
    intro reply? hreply
    simp [Sight.outcome?, hrun.reply?_look_of_settledAs hreply]
  have hpending : (∀ reply?, ¬SettledAs past h reply?) →
      (s.client.look h).2.outcome? ρ = none ∧ found past h = [] := by
    intro hnever
    have hx := List.getElem?_eq_getElem hh
    have hlooked := hrun.looked.2 _ hx
    have hopen : s.client.handles[h].hungUp = false := by
      rw [Bool.eq_false_iff]
      intro hclosed
      obtain ⟨reply?, hreply⟩ := hrun.settledAs_of_hungUp hx hclosed
      exact hnever reply? hreply
    simp [Sight.outcome?, hlooked.reply? hrun.inv.owned hx, hopen, hlooked.waiting hopen]
  have hfirst : found past h = [] → ∀ reply, SettledAs past h (some reply) →
      (s.client.look h).2.outcome? ρ = some reply.settle := by
    intro hfound reply hreply
    simp [hsettled _ hreply, hfound]
  refine ⟨fun _ _ hreply hreply' => hrun.settledAs_unique hreply hreply', ⟨?_, fun hnever => (hpending hnever).1⟩,
    fun hfound => ⟨hfirst hfound, ?_, ?_⟩, fun hfound => ?_⟩
  · intro hnone reply? hreply
    simp [hsettled _ hreply] at hnone
  · intro r hr
    simp [hfirst hfound _ hr, settle_ofResponse_ne]
  · rw [or_left_comm, ← settledAs_terminated_iff]
    constructor
    · intro hterminated
      by_cases hever : ∃ reply?, SettledAs past h reply?
      · obtain ⟨_ | reply, hreply⟩ := hever
        · exact .inl hreply
        · rw [hfirst hfound reply hreply, Option.some.injEq, settle_eq_terminated_iff] at hterminated
          exact .inr (hterminated ▸ hreply)
      · rw [(hpending fun reply? hreply => hever ⟨reply?, hreply⟩).1] at hterminated
        cases hterminated
    · rintro (hreply | hreply)
      · simp [hsettled _ hreply, hfound, Reply.settle]
      · simp [hfirst hfound _ hreply, Reply.settle]
  · by_cases hever : ∃ reply?, SettledAs past h reply?
    · obtain ⟨reply?, hreply⟩ := hever
      simp [hsettled _ hreply, hfound, Reply.settle]
    · exact absurd (hpending fun reply? hreply => hever ⟨reply?, hreply⟩).2 hfound

/-- A request is answered, the first look finds its result, and the second says that the worker was terminated. -/
theorem terminated_at_second_look : ∃ past s, Run past s ∧ 0 < s.client.handles.length ∧ found past 0 = [] ∧
    (s.client.look 0).2.outcome? Json = some (.ok .null) ∧
    ((s.client.look 0).1.look 0).2.outcome? Json = some (.error .terminated) := by
  have hrun := (((((Run.new.step (.renew _)).step (.start rfl)).step (.enlist false rfl)).step (.post _)).step
    (.receive _ _ 0 (.message ⟨"req_1", .result, .null⟩))).step (.route _ _ 0)
  obtain ⟨-, -, hfirst, -⟩ := hrun.terminated_unless_first_look (h := 0) (by decide) Json
  obtain ⟨-, -, -, hlater⟩ := (hrun.step (.look _ _ 0)).terminated_unless_first_look (h := 0) (by decide) Json
  have hresult := (hfirst rfl).1 (.payload .null) (.closed (List.mem_append_right _ List.mem_cons_self)
    (show pending? _ 0 "req_1" = some ⟨0, false⟩ from rfl) rfl
    (.respond (r := ⟨"req_1", .result, .null⟩) rfl rfl rfl))
  exact ⟨_, _, hrun, by decide, rfl, hresult, hlater (found_of_some rfl)⟩

end Calculator.Client
