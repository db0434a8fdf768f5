import Calculator.Proofs.Client.Replies
import Calculator.Proofs.Client.Stranding
/-!
Generations apart from each other. What a worker sends, and what its router does with it, changes nothing but the
worker's own generation and the handles of the requests that were put there; and rejecting all that wait for a
generation settles exactly those.
-/
namespace Calculator.Client

/-! ### One generation at a time -/

/-- Nothing has changed but one generation, and the handles of requests that were put into its table. -/
structure Apart (past : History) (g : Nat) (c c' : Client) : Prop where
  generations : ∀ g', g' ≠ g → c'.generations[g']? = c.generations[g']?
  handles : ∀ h : Nat, (∀ e ∈ enlistments past, e.handle = h → e.generation ≠ g) → c'.handles[h]? = c.handles[h]?
  frame : c'.frame = c.frame

/-- The worker of a generation sends an event or goes away, or its router steps. -/
def Move.isOf (g : Nat) : Move → Bool
  | route g' | close g' | receive g' _ => g' == g
  | _ => false

section
variable {past : History} {c c' : Client} {g h : Nat} (hother : ∀ e ∈ enlistments past, e.handle = h → e.generation ≠ g)
include hother

theorem Owned.handles_settle_of_other (howned : Owned past c) (ids : String → Bool) (f : Handle → Handle) :
    (c.settle g ids f).handles[h]? = c.handles[h]? := by
  refine (howned.handles_settle g h ids f).2 ?_
  rintro ⟨id, entry, hentry, -, hhandle⟩
  obtain ⟨listening, he⟩ := howned.entries g id entry hentry
  exact hother _ he hhandle rfl

/-- A router runs only callbacks of its own requests, and replies only to them. -/
theorem Routed.handles_of_other (hrouted : Routed c g c') (hinv : Inv past c) : c'.handles[h]? = c.handles[h]? := by
  cases hrouted with
  | idle | fault | report | ignore | restore | mark => rfl
  | @respond _ r rest => exact (hinv.setInbox g rest).owned.handles_settle_of_other hother _ _
  | @call id handle payload hphase =>
    have he : ⟨handle, g, id, true⟩ ∈ enlistments past := hinv.heard.phases g _ hphase
    have hne : handle ≠ h := fun hhandle => hother _ he hhandle rfl
    exact (c.handles_modifyHandle handle h _).trans (if_neg hne)
  | reject | leave => exact hinv.owned.handles_settle_of_other hother _ _
  | finish =>
    have hended : Owned past (c.setPhase g .ended) := Inv.setPhase_owned hinv.owned .ended
    unfold Client.finish
    dsimp only
    split
    · rfl
    · exact hended.handles_settle_of_other hother _ _

end

/-- Whatever a worker does, and whatever its router takes up, stays in its own generation. -/
theorem Step.apart {past : History} {s s' : State} {m : Move} {g : Nat} (hstep : Step s m s') (hrun : Run past s)
    (hm : m.isOf g = true) : Apart past g s.client s'.client := by
  have hmodify : ∀ (c : Client) f g', g' ≠ g → (c.modifyGeneration g f).generations[g']? = c.generations[g']? := by
    intro c f g' hg
    rw [generations_modifyGeneration, if_neg (Ne.symm hg)]
  cases hstep with
  | route c stage g' =>
    obtain rfl : g' = g := beq_iff_eq.mp hm
    have hrouted := c.routed g'
    exact ⟨fun _ hg => hrouted.generations_of_ne (Ne.symm hg), fun _ hother => hrouted.handles_of_other hother hrun.inv,
      c.frame_routed g' hrouted⟩
  | receive c stage g' event =>
    obtain rfl : g' = g := beq_iff_eq.mp hm
    exact ⟨hmodify c _, fun _ _ => rfl, c.frame_modifyGeneration g' _⟩
  | close c stage g' =>
    obtain rfl : g' = g := beq_iff_eq.mp hm
    exact ⟨hmodify c _, fun _ _ => rfl, c.frame_modifyGeneration g' _⟩
  | _ => cases hm

/-! ### Settling a generation -/

/-- The requests that waited for a generation have this reply, and no other table or handle has changed. -/
structure Settled (c c' : Client) (g : Nat) (reply : Reply) : Prop where
  emptied : ∀ id, c'.pending? g id = none
  replied : ∀ id entry, c.pending? g id = some entry → c'.Replied entry.handle reply
  tables : ∀ g' id, g' ≠ g → c'.pending? g' id = c.pending? g' id
  handles : ∀ h : Nat, (∀ id entry, c.pending? g id = some entry → entry.handle ≠ h) → c'.handles[h]? = c.handles[h]?

/-- What happens besides does not matter. -/
theorem Settled.of_same {c c' c'' : Client} {g : Nat} {reply : Reply} (hsettled : Settled c c' g reply)
    (hpending : ∀ g' id, c''.pending? g' id = c'.pending? g' id) (hhandles : c''.handles = c'.handles) :
    Settled c c'' g reply where
  emptied := fun id => (hpending g id).trans (hsettled.emptied id)
  replied := by
    intro id entry hentry
    obtain ⟨x, hx, hreplies⟩ := hsettled.replied id entry hentry
    exact ⟨x, hhandles ▸ hx, hreplies⟩
  tables := fun g' id hg => (hpending g' id).trans (hsettled.tables g' id hg)
  handles := by
    intro h hfree
    rw [hhandles]
    exact hsettled.handles h hfree

theorem Owned.settled_rejectAll {past : History} {c : Client} (howned : Owned past c) (g : Nat) (error : Error) :
    Settled c (c.rejectAll g error) g (.failed error) where
  emptied := by
    intro id
    rw [rejectAll, pending?_settle, if_pos ⟨rfl, rfl⟩]
  replied := fun id entry hentry => howned.replied_settle hentry (fun _ => true) rfl _
  tables := by
    intro g' id hg
    rw [rejectAll, pending?_settle, if_neg fun hboth => hg hboth.1.symm]
  handles := by
    intro h hfree
    refine (howned.handles_settle g h (fun _ => true) (Handle.receive (.failed error))).2 ?_
    rintro ⟨id, entry, hentry, -, hhandle⟩
    exact hfree id entry hentry hhandle

/-- A fault that was taken up settles all that wait for the worker. -/
theorem Routed.settled {past : History} {c c' : Client} {g : Nat} {message : String} (hrouted : Routed c g c')
    (howned : Owned past c) (hphase : c.phase? g = some (.rejecting message)) :
    Settled c c' g (.failed (.workerFault message)) := by
  have hbusy : ∀ {phase}, c.phase? g = some phase → phase = .rejecting message := fun h =>
    Option.some.inj (h.symm.trans hphase)
  have hwaiting : ∀ {generation}, c.generations[g]? = some generation → generation.phase = .waiting → False := by
    intro generation hgeneration hwaits
    cases hwaits.symm.trans (hbusy (phase?_of_generation hgeneration))
  cases hrouted with
  | idle hidle =>
    obtain ⟨generation, hgeneration, hrejecting⟩ := Option.map_eq_some_iff.mp hphase
    rcases hidle generation hgeneration with hended | ⟨hwaits, -⟩
    · cases hended.symm.trans hrejecting
    · cases hwaits.symm.trans hrejecting
  | fault hgeneration hwaits | respond hgeneration hwaits | report hgeneration hwaits | ignore hgeneration hwaits
  | leave hgeneration hwaits => exact (hwaiting hgeneration hwaits).elim
  | call h | restore h | mark h | finish h => cases hbusy h
  | reject h =>
    obtain rfl := Phase.rejecting.inj (hbusy h)
    exact (howned.settled_rejectAll g _).of_same (fun g' id => pending?_setPhase _ g g' id _) rfl

/-- Letting go of a worker for which nothing waits changes no table and no handle. -/
theorem letGo_of_empty {c : Client} {g : Nat} (hcurrent : c.current? = some g) (hempty : ∀ id, c.pending? g id = none) :
    (∀ g' id, c.letGo.pending? g' id = c.pending? g' id) ∧ c.letGo.handles = c.handles := by
  have habandoned : ∀ c' : Client, c'.generations = c.generations → c'.handles = c.handles →
      (∀ g' id, (c'.abandonAll g).pending? g' id = c.pending? g' id) ∧ (c'.abandonAll g).handles = c.handles := by
    intro c' hgenerations hhandles
    have hsame : ∀ g' id, c'.pending? g' id = c.pending? g' id := fun g' id => by rw [pending?, hgenerations, pending?]
    constructor
    · intro g' id
      rw [abandonAll, pending?_settle, hsame]
      split
      · rename_i hhere
        rw [← hhere.1, hempty]
      · rfl
    · refine (handles_settle_of_absent _ fun id _ => ?_).trans hhandles
      rw [hsame, hempty]
  unfold letGo
  rw [hcurrent]
  cases c.currentGeneration? with
  | none => exact ⟨fun _ _ => rfl, rfl⟩
  | some generation =>
    dsimp only
    split
    · exact habandoned _ rfl rfl
    · exact ⟨fun _ _ => rfl, rfl⟩

/-- Terminating settles all that wait for the current worker. -/
theorem Owned.settled_terminate {past : History} {c : Client} {g : Nat} (howned : Owned past c)
    (hcurrent : c.current? = some g) : Settled c c.terminate g (.failed .terminated) := by
  have hsettled := howned.settled_rejectAll g .terminated
  have hstill : (c.rejectAll g .terminated).current? = some g := (c.current?_settle g _ _).trans hcurrent
  obtain ⟨hpending, hhandles⟩ := letGo_of_empty hstill hsettled.emptied
  unfold terminate
  rw [hcurrent]
  exact hsettled.of_same hpending hhandles

end Calculator.Client
