import Calculator.Proofs.Client.Invariant
/-!
Responses reach their own requests, each at most once. Ids are never given twice, a table never loses an entry to a new
one, events are taken up in the order in which they arrived, and what is taken up changes its own entry only.
-/
namespace Calculator.Client

theorem Run.of_mem {past : History} {s t : State} {m : Move} (hrun : Run past s) (hmem : (t, m) ∈ past) :
    ∃ before t', Run before t ∧ Step t m t' := by
  induction hrun with
  | new => cases hmem
  | @step past s s' m' hpast hstep ih =>
    rcases List.mem_append.mp hmem with hmem | hmem
    · exact ih hmem
    · obtain ⟨rfl, rfl⟩ := Prod.mk.inj (List.mem_singleton.mp hmem)
      exact ⟨past, s', hpast, hstep⟩

/-! ### Ids -/

theorem dispatched_renew (c : Client) : c.renew.dispatched = c.dispatched + 1 := by
  unfold renew
  dsimp only
  split
  · exact (letGo_numbers _).1
  · rfl

/-- A step that begins a dispatch gives it the next id, and no other step gives one. -/
theorem Step.dispatched {s s' : State} {m : Move} (hstep : Step s m s') :
    idGiven? (s, m) = none ∧ s'.client.dispatched = s.client.dispatched ∨
      idGiven? (s, m) = some (idOf (s.client.dispatched + 1)) ∧ s'.client.dispatched = s.client.dispatched + 1 := by
  cases hstep with
  | renew c =>
    refine .inr ⟨?_, c.dispatched_renew⟩
    rw [idGiven?, lastId, dispatched_renew]
  | @enlist c listening hneeds =>
    refine .inl ⟨rfl, ?_⟩
    dsimp only [Client.enlist]
    split <;> rfl
  | withdraw c error =>
    refine .inl ⟨rfl, ?_⟩
    dsimp only [Client.withdraw]
    split
    · rfl
    · exact c.dispatched_settle _ _ _
  | terminate c =>
    refine .inl ⟨rfl, ?_⟩
    dsimp only [Client.terminate]
    split
    · exact (letGo_numbers _).1.trans (c.dispatched_settle _ _ _)
    · rfl
  | route c stage g => exact .inl ⟨rfl, congrArg Prod.fst (c.frame_routed g (c.routed g))⟩
  | look c stage h => exact .inl ⟨rfl, congrArg Prod.fst (c.frame_look h)⟩
  | start | refuse | post | receive | close => exact .inl ⟨rfl, rfl⟩

theorem Run.idsGiven {past : History} {s : State} (hrun : Run past s) :
    idsGiven past = (List.range s.client.dispatched).map fun n => idOf (n + 1) := by
  induction hrun with
  | new => rfl
  | @step past s s' m _ hstep ih =>
    rw [Client.idsGiven, List.filterMap_append]
    rcases hstep.dispatched with ⟨hnone, hsame⟩ | ⟨hsome, hnext⟩
    · rw [List.filterMap_cons_none hnone, List.filterMap_nil, List.append_nil, hsame]
      exact ih
    · rw [List.filterMap_cons_some hsome, List.filterMap_nil, hnext, List.range_succ, List.map_append, ← ih]
      rfl

theorem Run.nodup_idsGiven {past : History} {s : State} (hrun : Run past s) : (Client.idsGiven past).Nodup := by
  rw [hrun.idsGiven]
  refine List.pairwise_map.mpr (List.nodup_range.imp fun hne h => hne ?_)
  exact Nat.succ.inj (idOf_injective h)

/-- A request that enters a table finds no entry with its id there, nor in any other table. -/
theorem Run.pending?_lastId {past : History} {s t : State} {listening : Bool} (hrun : Run past s)
    (hmem : (t, .enlist listening) ∈ past) (g : Nat) : t.client.pending? g t.client.lastId = none := by
  obtain ⟨before, t', hbefore, hstep⟩ := hrun.of_mem hmem
  cases hstep with
  | @enlist c _ hneeds =>
    have hid : c.lastId = idOf (c.handles.length + 1) := congrArg idOf hbefore.numbered.dispatched
    dsimp only
    rw [hid]
    exact hbefore.inv.owned.pending?_next g

/-! ### The order of events -/

/-- The events that a generation's router has not taken up. -/
def inbox (c : Client) (g : Nat) : List Worker.Event :=
  (c.generations[g]?.map Generation.inbox).getD []

section
variable (c : Client) (g g' : Nat)

theorem inbox_of_bare {c c' : Client} (hbare : c'.bare = c.bare) (g : Nat) : c'.inbox g = c.inbox g := by
  rw [inbox, map_of_bare hbare g fun _ => rfl, inbox]

theorem inbox_of_same {f : Generation → Generation} (hf : ∀ generation, (f generation).inbox = generation.inbox) :
    (c.modifyGeneration g f).inbox g' = c.inbox g' := by
  rw [inbox, generations_modifyGeneration]
  split
  · rw [Option.map_map]
    exact congrArg (fun f => (Option.map f c.generations[g']?).getD []) (funext hf)
  · rfl

theorem inbox_setPhase (phase : Phase) : (c.setPhase g phase).inbox g' = c.inbox g' :=
  c.inbox_of_same g g' fun _ => rfl

theorem inbox_setListening (id : String) (listening : Bool) : (c.setListening g id listening).inbox g' = c.inbox g' :=
  c.inbox_of_same g g' fun _ => rfl

theorem inbox_markFaulted (phase : Phase) : (c.markFaulted g phase).inbox g' = c.inbox g' :=
  c.inbox_of_same g g' fun _ => rfl

theorem inbox_setInbox {generation : Generation} (hgeneration : c.generations[g]? = some generation)
    (rest : List Worker.Event) : (c.setInbox g rest).inbox g' = if g = g' then rest else c.inbox g' := by
  rw [inbox, setInbox, generations_modifyGeneration]
  by_cases hg : g = g'
  · subst hg
    rw [if_pos rfl, if_pos rfl, hgeneration]
    rfl
  · rw [if_neg hg, if_neg hg, inbox]

theorem inbox_settle (ids : String → Bool) (f : Handle → Handle) : (c.settle g ids f).inbox g' = c.inbox g' :=
  inbox_of_bare (c.bare_settle g ids f) g'

theorem inbox_start : c.start.inbox g = c.inbox g := by
  rw [inbox, generations_start]
  split
  · rename_i hg
    rw [inbox, hg, List.getElem?_eq_none (Nat.le_refl _)]
    rfl
  · rfl

theorem inbox_close : (c.close g').inbox g = c.inbox g := by
  refine c.inbox_of_same g' g ?_
  exact fun _ => rfl

end

/-- A router takes up the event that it takes up from the front of its inbox. -/
theorem Routed.inbox {c c' : Client} {g : Nat} (hrouted : Routed c g c') (g' : Nat) :
    c.inbox g' = (if g = g' then c.nextEvent? g' else none).toList ++ c'.inbox g' := by
  have hnothing : c.nextEvent? g = none → c'.inbox g' = c.inbox g' →
      c.inbox g' = (if g = g' then c.nextEvent? g' else none).toList ++ c'.inbox g' := by
    intro hnext hsame
    rw [hsame]
    split
    · rename_i hg
      rw [← hg, hnext]
      rfl
    · rfl
  have htaken : ∀ {generation event rest}, c.generations[g]? = some generation → generation.phase = .waiting →
      generation.inbox = event :: rest → c'.inbox g' = (c.setInbox g rest).inbox g' →
      c.inbox g' = (if g = g' then c.nextEvent? g' else none).toList ++ c'.inbox g' := by
    intro generation event rest hgeneration hphase hinbox hsame
    rw [hsame, inbox_setInbox c g g' hgeneration]
    by_cases hg : g = g'
    · subst hg
      rw [if_pos rfl, if_pos rfl, nextEvent?_of_inbox hgeneration hphase hinbox, Client.inbox, hgeneration]
      exact hinbox
    · rw [if_neg hg, if_neg hg]
      rfl
  cases hrouted with
  | idle hidle => exact hnothing (nextEvent?_of_idle hidle) rfl
  | fault hgeneration hphase hinbox => exact htaken hgeneration hphase hinbox (inbox_markFaulted _ g g' _)
  | respond hgeneration hphase hinbox => exact htaken hgeneration hphase hinbox (inbox_settle _ g g' _ _)
  | report hgeneration hphase hinbox =>
    refine htaken hgeneration hphase hinbox ?_
    rw [inbox_setPhase, inbox_setListening]
  | ignore hgeneration hphase hinbox => exact htaken hgeneration hphase hinbox rfl
  | call hphase => exact hnothing (nextEvent?_of_busy hphase (by simp)) (inbox_setPhase _ g g' _)
  | restore hphase =>
    refine hnothing (nextEvent?_of_busy hphase (by simp)) ?_
    rw [inbox_setPhase, inbox_setListening]
  | reject hphase =>
    refine hnothing (nextEvent?_of_busy hphase (by simp)) ?_
    rw [inbox_setPhase, rejectAll, inbox_settle]
  | leave hgeneration hphase hinbox =>
    have hnext : c.nextEvent? g = none := by rw [nextEvent?_of_waiting hgeneration hphase, hinbox, List.head?_nil]
    refine hnothing hnext ?_
    rw [inbox_setPhase, rejectAll, inbox_settle]
  | mark hphase => exact hnothing (nextEvent?_of_busy hphase (by simp)) (inbox_markFaulted c g g' _)
  | finish hphase =>
    refine hnothing (nextEvent?_of_busy hphase (by simp)) ?_
    unfold Client.finish
    dsimp only
    split
    · exact c.inbox_setPhase g g' _
    · rw [abandonAll, inbox_settle, inbox_setPhase]

/-- A step takes events from the front of an inbox, or adds them to its end. -/
theorem Step.inbox {s s' : State} {m : Move} (hstep : Step s m s') (g : Nat) :
    s.client.inbox g ++ (arrived? g (s, m)).toList = (takenUp? g (s, m)).toList ++ s'.client.inbox g := by
  have hbare := hstep.bare
  cases hstep with
  | renew | refuse | enlist | post | withdraw | terminate | look =>
    exact (List.append_nil _).trans (inbox_of_bare (hbare rfl) g).symm
  | start => exact (List.append_nil _).trans (inbox_start _ g).symm
  | route c stage g' => exact (List.append_nil _).trans ((c.routed g').inbox g)
  | receive c stage g' event =>
    rw [arrived?, Client.receive, Client.inbox, Client.inbox, generations_modifyGeneration]
    by_cases hg : g' = g
    · subst hg
      rw [if_pos rfl]
      cases c.generations[g']? with
      | none => simp [takenUp?]
      | some generation => cases hclosed : generation.closed <;> simp [hclosed, takenUp?]
    · rw [if_neg hg, if_neg fun hboth => hg hboth.1]
      exact List.append_nil _
  | close c stage g' => exact (List.append_nil _).trans (c.inbox_close g g').symm

/-- Events are taken up in the order in which they arrived. -/
theorem Run.arrived {past : History} {s : State} (hrun : Run past s) (g : Nat) :
    Client.arrived past g = takenUp past g ++ s.client.inbox g := by
  induction hrun with
  | new => rfl
  | @step past s s' m _ hstep ih =>
    have harrived : Client.arrived (past ++ [(s, m)]) g = Client.arrived past g ++ (arrived? g (s, m)).toList := by
      rw [Client.arrived, List.filterMap_append]
      cases harrives : arrived? g (s, m) <;> simp [Client.arrived, harrives]
    have htakenUp : takenUp (past ++ [(s, m)]) g = takenUp past g ++ (takenUp? g (s, m)).toList := by
      rw [takenUp, List.filterMap_append]
      cases htakes : takenUp? g (s, m) <;> simp [takenUp, htakes]
    rw [harrived, htakenUp, ih, List.append_assoc, List.append_assoc, hstep.inbox g]

/-! ### What a response changes -/

theorem handles_settle_of_absent {c : Client} {g : Nat} {ids : String → Bool} (f : Handle → Handle)
    (habsent : ∀ id, ids id = true → c.pending? g id = none) : (c.settle g ids f).handles = c.handles := by
  cases hgeneration : c.generations[g]? with
  | none => rw [c.settle_of_none g ids f hgeneration]
  | some generation =>
    have hnone : (generation.pending.filter ids).entries = [] := by
      refine List.eq_nil_iff_forall_not_mem.mpr fun e he => ?_
      obtain ⟨hmem, hid⟩ := List.mem_filter.mp he
      have hentry : c.pending? g e.1 = some e.2 := by
        rw [pending?, hgeneration]
        exact generation.pending.mem_entries_iff.mp hmem
      cases (habsent e.1 hid).symm.trans hentry
    rw [c.settle_eq g ids f hgeneration, hnone]
    rfl

/-- A router that takes up a response changes no entry but the one with its id, and if there is none, no handle
either. -/
theorem Routed.response {c c' : Client} {g : Nat} {r : Response} (hrouted : Routed c g c')
    (hnext : c.nextEvent? g = some (.message r)) :
    (∀ g' id, ¬(g = g' ∧ id = r.id) → c'.pending? g' id = c.pending? g' id) ∧
      (c.pending? g r.id = none → (∀ g' id, c'.pending? g' id = c.pending? g' id) ∧ c'.handles = c.handles) := by
  obtain ⟨rest, ⟨-, rfl⟩ | ⟨entry, -, hentry, rfl⟩ | ⟨-, rfl⟩⟩ := hrouted.of_message hnext
  · have hother : ∀ g' id, ¬(g = g' ∧ id = r.id) →
        ((c.setInbox g rest).settle g (· == r.id) (Handle.receive (.ofResponse r))).pending? g' id =
          c.pending? g' id := by
      intro g' id hother
      rw [pending?_settle, if_neg fun hown => hother ⟨hown.1, beq_iff_eq.mp hown.2⟩, pending?_setInbox]
    refine ⟨hother, fun hunknown => ⟨fun g' id => ?_, ?_⟩⟩
    · by_cases hown : g = g' ∧ id = r.id
      · obtain ⟨rfl, rfl⟩ := hown
        rw [pending?_settle, pending?_setInbox, hunknown, ite_self]
      · exact hother g' id hown
    · refine handles_settle_of_absent _ fun id hid => ?_
      rw [beq_iff_eq.mp hid, pending?_setInbox]
      exact hunknown
  · constructor
    · intro g' id hother
      rw [pending?_setPhase, pending?_setListening, if_neg hother, pending?_setInbox]
    · intro hunknown
      cases hunknown.symm.trans hentry
  · have hsame := fun g' id => c.pending?_setInbox g g' id
    exact ⟨fun g' id _ => hsame g' id _, fun _ => ⟨fun g' id => hsame g' id _, rfl⟩⟩

theorem Cause.of_payload {past : History} {e : Enlistment} {v : Json} (h : Cause past e (.payload v)) :
    ∃ r, .message r ∈ takenUp past e.generation ∧ r.id = e.id ∧ r.kind = .result ∧ r.payload = v := by
  generalize hreply : Reply.payload v = reply at h
  cases h with
  | response r hr hid hterminal =>
    refine ⟨r, hr, hid, ?_⟩
    unfold Reply.ofResponse at hreply
    unfold Response.isTerminal at hterminal
    cases hkind : r.kind with
    | result =>
      rw [hkind, if_neg (by decide)] at hreply
      exact ⟨rfl, (Reply.payload.inj hreply).symm⟩
    | error =>
      rw [hkind, if_pos rfl] at hreply
      cases hreply
    | progress =>
      rw [hkind] at hterminal
      cases hterminal
  | fault | leave | terminate | withdraw => cases hreply

theorem Cause.of_worker_error {past : History} {e : Enlistment} {p : ErrorPayload}
    (h : Cause past e (.failed (.worker p))) :
    (∃ r, .message r ∈ takenUp past e.generation ∧ r.id = e.id ∧ r.kind = .error ∧ ErrorPayload.ofJson r.payload = p) ∨
      ∃ t, (t, .withdraw (.worker p)) ∈ past ∧ t.client.lastId = e.id := by
  generalize hreply : Reply.failed (.worker p) = reply at h
  cases h with
  | response r hr hid hterminal =>
    unfold Reply.ofResponse at hreply
    split at hreply
    · rename_i hkind
      exact .inl ⟨r, hr, hid, hkind, (Error.worker.inj (Reply.failed.inj hreply)).symm⟩
    · cases hreply
  | withdraw t error hmove hid =>
    obtain rfl := Reply.failed.inj hreply
    exact .inr ⟨t, hmove, hid⟩
  | fault | leave | terminate => cases Reply.failed.inj hreply

/-- In every run: no id is given twice, and none is in a table when its request enters. A handle gets at most one
reply, and the reply of a request that entered a table has a cause: it is the payload of a response with its id that
its own router took up, or an error of the client's own. What a router takes up is what arrived, in order; a response
changes no entry but its own, and nothing if it has none; and the callback of a request hears exactly the reports with
its id that its router took up while it was in the table. -/
theorem Run.routes_responses {past : History} {s : State} (hrun : Run past s) :
    (Client.idsGiven past).Nodup ∧
      (∀ t listening g, (t, .enlist listening) ∈ past → t.client.pending? g t.client.lastId = none) ∧
      (∀ x ∈ s.client.handles, x.replies.length ≤ 1) ∧
      (∀ e ∈ enlistments past, ∃ x, s.client.handles[e.handle]? = some x ∧
        (∀ reply ∈ x.replies, Cause past e reply) ∧
        (∀ v, .payload v ∈ x.replies → ∃ r, .message r ∈ takenUp past e.generation ∧
          r.id = e.id ∧ r.kind = .result ∧ r.payload = v) ∧
        (∀ p, .failed (.worker p) ∈ x.replies →
          (∃ r, .message r ∈ takenUp past e.generation ∧
            r.id = e.id ∧ r.kind = .error ∧ ErrorPayload.ofJson r.payload = p) ∨
          ∃ t, (t, .withdraw (.worker p)) ∈ past ∧ t.client.lastId = e.id) ∧
        x.progress ++ s.client.inFlight e.generation e.handle =
          if e.listening then reports past e.generation e.id else []) ∧
      (∀ h x, s.client.handles[h]? = some x → (∀ e ∈ enlistments past, e.handle ≠ h) →
        x.progress = [] ∧ ∃ error, x.replies = [.failed error]) ∧
      (∀ g, Client.arrived past g = takenUp past g ++ s.client.inbox g) ∧
      (∀ g r s', Step s (.route g) s' → s.client.nextEvent? g = some (.message r) →
        (∀ g' id, ¬(g = g' ∧ id = r.id) → s'.client.pending? g' id = s.client.pending? g' id) ∧
        (s.client.pending? g r.id = none → (∀ g' id, s'.client.pending? g' id = s.client.pending? g' id) ∧
          s'.client.handles = s.client.handles)) := by
  have hinv := hrun.inv
  refine ⟨hrun.nodup_idsGiven, fun t listening g hmem => hrun.pending?_lastId hmem g, ?_, ?_, ?_, hrun.arrived,
    fun g r s' hstep hnext => by cases hstep with | route c stage => exact (c.routed g).response hnext⟩
  · intro x hx
    obtain ⟨h, hh⟩ := List.mem_iff_getElem?.mp hx
    exact (hinv.owned.replied h x hh).1
  · intro e he
    have hhandle := List.getElem?_eq_getElem (hinv.owned.enlisted e he).1
    have hcauses := hinv.owned.causes e he _ hhandle
    exact ⟨_, hhandle, hcauses, fun v hv => (hcauses _ hv).of_payload, fun p hp => (hcauses _ hp).of_worker_error,
      hinv.heard.progress e he _ hhandle⟩
  · intro h x hx hnone
    refine ⟨Classical.not_not.mp fun hne => ?_, hinv.owned.refused h x hx hnone⟩
    obtain ⟨e, he, hhandle⟩ := hinv.heard.silent h x hx hne
    exact hnone e he hhandle

/-- A callback hears a report, and the request still waits. -/
theorem routes_first_report : ∃ past s, Run past s ∧ (Client.idsGiven past).Nodup ∧ reports past 0 "req_1" = [.null] ∧
    ∃ x, s.client.handles[0]? = some x ∧ x.progress = [.null] ∧ x.replies.length ≤ 1 := by
  have hrun := ((((((((Run.new.step (.renew _)).step (.start rfl)).step (.enlist true rfl)).step (.post _)).step
    (.receive _ _ 0 (.message ⟨"req_1", .progress, .null⟩))).step (.route _ _ 0)).step (.route _ _ 0)).step
    (.route _ _ 0))
  obtain ⟨hids, -, hreplies, -⟩ := hrun.routes_responses
  exact ⟨_, _, hrun, hids, rfl, _, rfl, rfl, hreplies _ (List.mem_iff_getElem?.mpr ⟨0, rfl⟩)⟩

end Calculator.Client
