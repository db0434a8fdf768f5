import Calculator.Proofs.Client.Isolation
/-!
Workers that are given up. Once the client has been told to stop, or a fault of its worker has been taken up, the next
dispatch does not use that worker: it starts another, or there is none to start.
-/
namespace Calculator.Client

/-! ### Marks stay -/

/-- Whether the worker of a generation is marked as dead. -/
def isFaulted (c : Client) (g : Nat) : Bool := c.generations[g]?.any (·.faulted)

section
variable {c c' : Client} {g g' : Nat}

theorem isFaulted_of_bare (hbare : c'.bare = c.bare) (g : Nat) : c'.isFaulted g = c.isFaulted g :=
  any_of_bare hbare g fun _ => rfl

theorem isFaulted_settle (c : Client) (g g' : Nat) (ids : String → Bool) (f : Handle → Handle) :
    (c.settle g ids f).isFaulted g' = c.isFaulted g' := isFaulted_of_bare (c.bare_settle g ids f) g'

/-- A change that takes no mark away. -/
theorem isFaulted_modifyGeneration {f : Generation → Generation}
    (hf : ∀ generation, generation.faulted = true → (f generation).faulted = true) (hfaulted : c.isFaulted g' = true) :
    (c.modifyGeneration g f).isFaulted g' = true := by
  obtain ⟨generation, hgeneration, hmarked⟩ := (Option.any_eq_true _ _).mp hfaulted
  rw [isFaulted, generations_modifyGeneration]
  split
  · simpa [hgeneration] using hf generation hmarked
  · simpa [hgeneration] using hmarked

theorem Routed.isFaulted (hrouted : Routed c g c') (hfaulted : c.isFaulted g' = true) : c'.isFaulted g' = true := by
  have hsettle : ∀ {c : Client} {ids f}, c.isFaulted g' = true → (c.settle g ids f).isFaulted g' = true := by
    intro c ids f h
    rw [isFaulted_settle, h]
  have hsame : ∀ {c : Client} {f}, (∀ generation, (f generation).faulted = generation.faulted) →
      c.isFaulted g' = true → (c.modifyGeneration g f).isFaulted g' = true := by
    intro c f hf
    exact isFaulted_modifyGeneration fun generation h => (hf generation).trans h
  have hmark : ∀ {c : Client} {phase}, c.isFaulted g' = true → (c.markFaulted g phase).isFaulted g' = true :=
    isFaulted_modifyGeneration fun _ _ => rfl
  have hpopped : ∀ rest, (c.setInbox g rest).isFaulted g' = true := fun rest => hsame (fun _ => rfl) hfaulted
  cases hrouted with
  | idle => exact hfaulted
  | @fault _ _ rest => exact hmark (hpopped rest)
  | @respond _ _ rest => exact hsettle (hpopped rest)
  | @report _ _ rest => exact hsame (fun _ => rfl) (hsame (fun _ => rfl) (hpopped rest))
  | @ignore _ _ rest => exact hpopped rest
  | call => exact hsame (fun _ => rfl) hfaulted
  | restore => exact hsame (fun _ => rfl) (hsame (fun _ => rfl) hfaulted)
  | reject | leave => exact hsame (fun _ => rfl) (hsettle hfaulted)
  | mark => exact hmark hfaulted
  | finish =>
    have hended : (c.setPhase g .ended).isFaulted g' = true := hsame (fun _ => rfl) hfaulted
    unfold Client.finish
    dsimp only
    split
    · exact hended
    · exact hsettle hended

end

/-- No step takes a mark away. -/
theorem Step.isFaulted {s s' : State} {m : Move} (hstep : Step s m s') {g : Nat}
    (hfaulted : s.client.isFaulted g = true) : s'.client.isFaulted g = true := by
  have hbare := hstep.bare
  cases hstep with
  | renew | refuse | enlist | post | withdraw | terminate | look =>
    exact (isFaulted_of_bare (hbare rfl) g).trans hfaulted
  | start =>
    obtain ⟨generation, hgeneration, -⟩ := (Option.any_eq_true _ _).mp hfaulted
    have hne : g ≠ _ := Nat.ne_of_lt (List.getElem?_eq_some_iff.mp hgeneration).1
    rw [Client.isFaulted, generations_start, if_neg hne]
    exact hfaulted
  | route c stage g' => exact (c.routed g').isFaulted hfaulted
  | receive c stage g' event =>
    refine isFaulted_modifyGeneration (fun generation hmarked => ?_) hfaulted
    split <;> exact hmarked
  | close c stage g' => exact isFaulted_modifyGeneration (fun generation hmarked => hmarked) hfaulted

theorem isFaulted_later {s t : State} (hlater : Later s t) {g : Nat} (hfaulted : s.client.isFaulted g = true) :
    t.client.isFaulted g = true := by
  induction hlater with
  | now => exact hfaulted
  | step _ hstep ih => exact hstep.isFaulted ih

/-- A router that takes up a fault marks its worker as dead, and rejects all that wait next. -/
theorem Routed.fault_taken {c c' : Client} {g : Nat} {message : String} (hrouted : Routed c g c')
    (hnext : c.nextEvent? g = some (.fault message)) :
    c'.phase? g = some (.rejecting message) ∧ c'.isFaulted g = true ∧ (∀ g' id, c'.pending? g' id = c.pending? g' id) ∧
      c'.handles = c.handles := by
  have hsame : ∀ {generation event rest}, c.generations[g]? = some generation → generation.phase = .waiting →
      generation.inbox = event :: rest → event = .fault message := fun hgeneration hphase hinbox =>
    Option.some.inj ((nextEvent?_of_inbox hgeneration hphase hinbox).symm.trans hnext)
  cases hrouted with
  | @fault generation message' rest hgeneration hphase hinbox =>
    obtain rfl := Worker.Event.fault.inj (hsame hgeneration hphase hinbox)
    refine ⟨?_, ?_, fun g' id => ?_, rfl⟩
    · simp [phase?, markFaulted, setInbox, generations_modifyGeneration, hgeneration]
    · simp [Client.isFaulted, markFaulted, setInbox, generations_modifyGeneration, hgeneration]
    · rw [pending?_markFaulted, pending?_setInbox]
  | respond hgeneration hphase hinbox | report hgeneration hphase hinbox | ignore hgeneration hphase hinbox =>
    cases hsame hgeneration hphase hinbox
  | idle hidle => cases (nextEvent?_of_idle hidle).symm.trans hnext
  | leave hgeneration hphase hinbox =>
    rw [nextEvent?_of_waiting hgeneration hphase, hinbox] at hnext
    cases hnext
  | call hphase | restore hphase | reject hphase | mark hphase | finish hphase =>
    cases (nextEvent?_of_busy hphase (by simp)).symm.trans hnext

theorem isRunning_of_isFaulted {c : Client} {g : Nat} (hcurrent : c.current? = some g)
    (hfaulted : c.isFaulted g = true) : c.isRunning = false := by
  obtain ⟨generation, hgeneration, hmarked⟩ := (Option.any_eq_true _ _).mp hfaulted
  simp [isRunning, currentGeneration?, hcurrent, hgeneration, hmarked]

/-! ### New workers -/

/-- The current worker, if there is one, is not one of the first `n`. -/
structure Fresh (n : Nat) (c : Client) : Prop where
  started : n ≤ c.generations.length
  current : ∀ g, c.current? = some g → n ≤ g

/-- The current worker, if it is one of the first `n`, is marked as dead. -/
structure Expiring (n : Nat) (c : Client) : Prop where
  started : n ≤ c.generations.length
  current : ∀ g, c.current? = some g → n ≤ g ∨ c.isFaulted g = true

section
variable {s s' t : State} {m : Move} {n : Nat}

theorem Step.fresh (hstep : Step s m s') (hfresh : Fresh n s.client) : Fresh n s'.client where
  started := Nat.le_trans hfresh.started hstep.length_generations
  current := by
    intro g hcurrent
    rcases hstep.current?_cases with hsame | hnone | hnew
    · exact hfresh.current g (hsame.symm.trans hcurrent)
    · cases hnone.symm.trans hcurrent
    · obtain rfl := Option.some.inj (hnew.symm.trans hcurrent)
      exact hfresh.started

theorem Step.expiring (hstep : Step s m s') (hexpiring : Expiring n s.client) : Expiring n s'.client where
  started := Nat.le_trans hexpiring.started hstep.length_generations
  current := by
    intro g hcurrent
    rcases hstep.current?_cases with hsame | hnone | hnew
    · exact (hexpiring.current g (hsame.symm.trans hcurrent)).imp_right hstep.isFaulted
    · cases hnone.symm.trans hcurrent
    · obtain rfl := Option.some.inj (hnew.symm.trans hcurrent)
      exact .inl hexpiring.started

theorem Fresh.later (hfresh : Fresh n s.client) (hlater : Later s t) : Fresh n t.client := by
  induction hlater with
  | now => exact hfresh
  | step _ hstep ih => exact hstep.fresh ih

/-- A dispatch begins by letting go of a worker that is marked as dead. -/
theorem Expiring.renew {c : Client} (hexpiring : Expiring n c) : Fresh n c.renew := by
  have hlength : c.renew.generations.length = c.generations.length := length_of_bare ((Step.renew c).bare rfl)
  refine ⟨hlength ▸ hexpiring.started, fun g hcurrent => ?_⟩
  unfold Client.renew at hcurrent
  dsimp only at hcurrent
  split at hcurrent
  · rename_i hmarked
    obtain ⟨generation, hgeneration, -⟩ := (Option.any_eq_true _ _).mp hmarked
    cases (current?_letGo hgeneration).symm.trans hcurrent
  · rename_i hunmarked
    refine (hexpiring.current g hcurrent).resolve_right fun hfaulted => hunmarked ?_
    have hsame : c.current? = some g := hcurrent
    simpa [currentGeneration?, hsame, isFaulted] using hfaulted

end

/-- Whether a move makes the client give its worker up: it is told to stop, or a fault of the current worker is taken
up. -/
def GivesUp : State × Move → Prop
  | (_, .terminate) => True
  | (s, .route g) => s.client.current? = some g ∧ ∃ message, s.client.nextEvent? g = some (.fault message)
  | _ => False

theorem Step.expiring_of_givesUp {s s' : State} {m : Move} (hstep : Step s m s') (hnumbered : Numbered s)
    (hgivesUp : GivesUp (s, m)) : Expiring s.client.generations.length s'.client where
  started := hstep.length_generations
  current := by
    intro g' hcurrent'
    cases hstep with
    | terminate c => cases (current?_terminate hnumbered).symm.trans hcurrent'
    | route c stage g =>
      obtain ⟨hcurrent, message, hnext⟩ := hgivesUp
      have hrouted := c.routed g
      have hkept : (c.route g).current? = some g := (of_frame (c.frame_routed g hrouted)).2.2.1.trans hcurrent
      obtain rfl := Option.some.inj (hkept.symm.trans hcurrent')
      exact .inr (hrouted.fault_taken hnext).2.1
    | _ => cases hgivesUp

/-- After the worker has been given up, the current one is a later one, or it is marked as dead. -/
theorem Run.expiring {past : History} {s : State} (hrun : Run past s) {x : State × Move} (hx : x ∈ past)
    (hgivesUp : GivesUp x) : Expiring x.1.client.generations.length s.client := by
  induction hrun with
  | new => cases hx
  | step hpast hstep ih =>
    rcases List.mem_append.mp hx with hx | hx
    · exact hstep.expiring (ih hx)
    · obtain rfl := List.mem_singleton.mp hx
      exact hstep.expiring_of_givesUp hpast.numbered hgivesUp

/-- While a request is being posted, there is a worker to post it to. -/
theorem Run.current_of_posting {past : History} {s : State} (hrun : Run past s) (hposting : s.stage = .posting) :
    ∃ g, s.client.current? = some g := by
  induction hrun with
  | new => cases hposting
  | @step past s s' m _ hstep ih =>
    have hframe : s'.stage = s.stage → s'.client.current? = s.client.current? → ∃ g, s'.client.current? = some g := by
      intro hstage hsame
      rw [hsame]
      exact ih (hstage ▸ hposting)
    cases hstep with
    | @enlist c listening hneeds =>
      obtain ⟨g, hcurrent⟩ := current_of_needsWorker hneeds
      exact ⟨g, by rw [Client.enlist, hcurrent]; exact hcurrent⟩
    | route c stage g => exact hframe rfl (of_frame (c.frame_routed g (c.routed g))).2.2.1
    | look c stage h => exact hframe rfl (of_frame (c.frame_look h)).2.2.1
    | receive | close => exact hframe rfl rfl
    | renew | start | refuse | post | withdraw | terminate => cases hposting

/-- A request is put into the table of the current worker, which it is posted to next. -/
theorem Run.enlisted {past : History} {s s' : State} {listening : Bool} (hrun : Run past s)
    (hstep : Step s (.enlist listening) s') : ∃ g, s'.client.current? = some g ∧
      s'.client.pending? g s.client.lastId = some ⟨s.client.handles.length, listening⟩ := by
  cases hstep with
  | @enlist c _ hneeds =>
    obtain ⟨g, hcurrent⟩ := current_of_needsWorker hneeds
    have hentry := c.pending?_enlist g g c.lastId listening hcurrent (hrun.numbered.current g hcurrent)
    refine ⟨g, ?_, hentry.trans (if_pos ⟨rfl, rfl⟩)⟩
    rw [Client.enlist, hcurrent]
    exact hcurrent

theorem replied_refuse (c : Client) (error : Error) : (c.refuse error).Replied c.handles.length (.failed error) :=
  ⟨_, (c.handles_refuse _ error).trans (if_pos rfl), rfl⟩

/-- In every run. Terminating settles exactly the requests that wait for the current worker, and leaves none. A fault
that a router takes up marks its worker as dead, for as long as it is the current one; whatever happens besides, the
router's next step settles exactly the requests that wait for the worker then. What a worker sends and what its router
does changes no other generation, no handle of another generation's request, and not which worker is current. After
the client has been told to stop, or a fault of its worker has been taken up, a dispatch that begins posts to a worker
that was started afterwards, and a dispatch for which none could be started is rejected with the reason. -/
theorem Run.settles_own_generation {past : History} {s : State} (hrun : Run past s) :
    (∀ s', Step s .terminate s' → s'.client.current? = none ∧ s'.client.pendingCount = 0 ∧
      ∀ g, s.client.current? = some g → Settled s.client s'.client g (.failed .terminated)) ∧
    (∀ g message s', Step s (.route g) s' → s.client.nextEvent? g = some (.fault message) →
      s'.client.phase? g = some (.rejecting message) ∧ (∀ g' id, s'.client.pending? g' id = s.client.pending? g' id) ∧
        s'.client.handles = s.client.handles ∧
        ∀ t, Later s' t → t.client.current? = some g → t.client.isRunning = false) ∧
    (∀ g message m s', Step s m s' → s.client.phase? g = some (.rejecting message) →
      (m = .route g → Settled s.client s'.client g (.failed (.workerFault message))) ∧
        (m ≠ .route g → s'.client.phase? g = some (.rejecting message))) ∧
    (∀ g m s', Step s m s' → m.isOf g = true → Apart past g s.client s'.client) ∧
    (∀ x ∈ past, GivesUp x → s.stage = .idle → ∀ t, Later ⟨s.client.renew, .counted⟩ t →
      (∀ g, t.client.current? = some g → x.1.client.generations.length ≤ g) ∧
      (∀ listening t', Step t (.enlist listening) t' → ∃ g, t'.client.current? = some g ∧
        x.1.client.generations.length ≤ g ∧
        t'.client.pending? g t.client.lastId = some ⟨t.client.handles.length, listening⟩) ∧
      (t.stage = .posting → ∃ g, t.client.current? = some g) ∧
      ∀ error t', Step t (.refuse error) t' → t'.client.Replied t.client.handles.length (.failed error)) := by
  have hinv := hrun.inv
  refine ⟨?terminate, ?fault, ?reject, ?apart, ?renewal⟩
  case terminate =>
    intro s' hstep
    cases hstep with
    | terminate c =>
      have hnone : c.terminate.current? = none := current?_terminate hrun.numbered
      refine ⟨hnone, ?_, fun g hcurrent => hinv.owned.settled_terminate hcurrent⟩
      simp [pendingCount, currentGeneration?, hnone]
  case fault =>
    intro g message s' hstep hnext
    cases hstep with
    | route c stage =>
      obtain ⟨hphase, hfaulted, hpending, hhandles⟩ := (c.routed g).fault_taken hnext
      refine ⟨hphase, hpending, hhandles, fun t hlater hcurrent => ?_⟩
      exact isRunning_of_isFaulted hcurrent (isFaulted_later hlater hfaulted)
  case reject =>
    intro g message m s' hstep hphase
    refine ⟨?_, fun hm => hstep.phase?_of_ne hm hphase⟩
    rintro rfl
    cases hstep with
    | route c stage => exact (c.routed g).settled hinv.owned hphase
  case apart => exact fun g m s' hstep hm => hstep.apart hrun hm
  case renewal =>
    intro x hx hgivesUp hidle t hlater
    obtain ⟨c, stage⟩ := s
    obtain rfl : stage = .idle := hidle
    have hfresh := (hrun.expiring hx hgivesUp).renew.later hlater
    obtain ⟨past', hrun'⟩ := (hrun.step (.renew c)).later hlater
    refine ⟨hfresh.current, fun listening t' hstep => ?_, hrun'.current_of_posting, fun error t' hstep => ?_⟩
    · obtain ⟨g, hcurrent, hentry⟩ := hrun'.enlisted hstep
      exact ⟨g, hcurrent, (hstep.fresh hfresh).current g hcurrent, hentry⟩
    · cases hstep with
      | refuse => exact replied_refuse _ error

/-- A fault of the worker that a request waits for: the request is told of it, and the next one does not wait for that
worker. -/
theorem settles_faulted_generation : ∃ past s, Run past s ∧ s.client.current? = some 0 ∧ s.client.isRunning = false ∧
    (s.client.route 0).Replied 0 (.failed (.workerFault "boom")) ∧ s.client.terminate.pendingCount = 0 ∧
    Apart past 0 s.client (s.client.close 0) ∧
    ∀ t, Later ⟨s.client.renew, .counted⟩ t → t.client.current? ≠ some 0 := by
  have hwaits := ((((Run.new.step (.renew _)).step (.start rfl)).step (.enlist false rfl)).step (.post _)).step
    (.receive _ _ 0 (.fault "boom"))
  obtain ⟨-, hfault, -⟩ := hwaits.settles_own_generation
  obtain ⟨hphase, -, -, hdead⟩ := hfault 0 "boom" _ (.route _ _ 0) rfl
  have hrun := hwaits.step (.route _ _ 0)
  obtain ⟨hterminate, -, hreject, hapart, hrenewal⟩ := hrun.settles_own_generation
  obtain ⟨hsettled, -⟩ := hreject 0 "boom" (.route 0) _ (.route _ _ 0) hphase
  refine ⟨_, _, hrun, rfl, hdead _ .now rfl, ?_, (hterminate _ (.terminate _)).2.1, ?_, fun t hlater hold => ?_⟩
  · exact (hsettled rfl).replied "req_1" ⟨0, false⟩ rfl
  · exact hapart 0 (.close 0) _ (.close _ _ 0) rfl
  · obtain ⟨hfresh, -⟩ := hrenewal _ (List.mem_append_right _ List.mem_cons_self) ⟨rfl, "boom", rfl⟩ rfl t hlater
    exact absurd (hfresh 0 hold) (by decide)

end Calculator.Client
