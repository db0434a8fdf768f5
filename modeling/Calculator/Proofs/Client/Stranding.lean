import Calculator.Proofs.Client.Invariant
/-!
Requests that nobody will reply to. A router that has rejected for the last time replies to nothing more, so a request
that enters its table then is stranded; no other request is. The client does not notice a worker that went away while
nothing waited for it, and posts to it again.
-/
namespace Calculator.Client

/-- Whether the router of a generation has rejected for the last time. -/
def isOver (c : Client) (g : Nat) : Bool := (c.phase? g).any Phase.isOver

/-- The handle of the request that a move puts into a table whose router has rejected for the last time. -/
def late? : State × Move → Option Nat
  | (s, .enlist _) => if s.client.current?.any s.client.isOver then some s.client.handles.length else none
  | _ => none

/-- The handles of the requests that were put into a table too late. -/
def late (past : History) : List Nat := past.filterMap late?

/-- Whether the next step of a router marks its worker as dead, or makes the router do so: it takes up a fault, or it
rejects for the last time and there are requests to reject. -/
def Generation.discovers (generation : Generation) : Bool :=
  match generation.phase, generation.inbox with
  | .waiting, .fault _ :: _ => true
  | .waiting, [] => generation.closed && !generation.pending.entries.isEmpty
  | _, _ => false

/-- Whether a move makes the router of a generation discover that its worker is dead. -/
def discovers (g : Nat) : State × Move → Bool
  | (s, .route g') => g' == g && s.client.generations[g]?.any Generation.discovers
  | _ => false

/-! ### Entries stay where they are -/

/-- Every entry was there before, in the same table, and its router has rejected for the last time if it had then. -/
def Keeps (c c' : Client) : Prop :=
  ∀ g id entry', c'.pending? g id = some entry' →
    ∃ entry, c.pending? g id = some entry ∧ entry.handle = entry'.handle ∧ c'.isOver g = c.isOver g

namespace Keeps
variable {c c' c'' : Client} {g : Nat}

theorem refl (c : Client) : Keeps c c := fun _ _ entry' hentry => ⟨entry', hentry, rfl, rfl⟩

theorem trans (h : Keeps c c') (h' : Keeps c' c'') : Keeps c c'' := by
  intro g id entry'' hentry''
  obtain ⟨entry', hentry', hhandle', hover'⟩ := h' g id entry'' hentry''
  obtain ⟨entry, hentry, hhandle, hover⟩ := h g id entry' hentry'
  exact ⟨entry, hentry, hhandle.trans hhandle', hover'.trans hover⟩

theorem of_same (hpending : ∀ g id, c'.pending? g id = c.pending? g id) (hphase : ∀ g, c'.phase? g = c.phase? g) :
    Keeps c c' := by
  intro g id entry' hentry'
  rw [hpending] at hentry'
  refine ⟨entry', hentry', rfl, ?_⟩
  rw [isOver, isOver, hphase]

theorem settle (c : Client) (g : Nat) (ids : String → Bool) (f : Handle → Handle) : Keeps c (c.settle g ids f) := by
  intro g' id entry' hentry'
  rw [pending?_settle] at hentry'
  split at hentry'
  · cases hentry'
  · refine ⟨entry', hentry', rfl, ?_⟩
    rw [isOver, isOver, phase?_settle]

theorem modifyHandle (c : Client) (h : Nat) (f : Handle → Handle) : Keeps c (c.modifyHandle h f) := refl c

theorem setInbox (c : Client) (g : Nat) (inbox : List Worker.Event) : Keeps c (c.setInbox g inbox) :=
  of_same (fun g' id => c.pending?_setInbox g g' id inbox) fun g' => c.phase?_setInbox g g' inbox

theorem setListening (c : Client) (g : Nat) (id : String) (listening : Bool) :
    Keeps c (c.setListening g id listening) := by
  intro g' id' entry' hentry'
  rw [pending?_setListening] at hentry'
  have hover : (c.setListening g id listening).isOver g' = c.isOver g' := by
    rw [isOver, isOver, phase?_setListening]
  split at hentry'
  · obtain ⟨entry, hentry, rfl⟩ := Option.map_eq_some_iff.mp hentry'
    exact ⟨entry, hentry, rfl, hover⟩
  · exact ⟨entry', hentry', rfl, hover⟩

/-- A change of a router's phase that does not concern its last rejection. -/
theorem modifyPhase {f : Generation → Generation} {phase : Phase}
    (hpending : ∀ generation, (f generation).pending = generation.pending)
    (hphase : ∀ generation, (f generation).phase = phase) (hover : c.isOver g = phase.isOver) :
    Keeps c (c.modifyGeneration g f) := by
  intro g' id entry' hentry'
  rw [pending?_of_same_table c g g' id hpending] at hentry'
  refine ⟨entry', hentry', rfl, ?_⟩
  rw [isOver, phase?_modifyGeneration]
  by_cases hg : g = g'
  · subst hg
    obtain ⟨generation, hgeneration, -⟩ := Option.bind_eq_some_iff.mp hentry'
    rw [if_pos rfl, hgeneration, hover]
    simp only [hphase]
    rfl
  · rw [if_neg hg, isOver]

theorem setPhase {phase : Phase} (hover : c.isOver g = phase.isOver) : Keeps c (c.setPhase g phase) :=
  modifyPhase (fun _ => rfl) (fun _ => rfl) hover

theorem markFaulted {phase : Phase} (hover : c.isOver g = phase.isOver) : Keeps c (c.markFaulted g phase) :=
  modifyPhase (fun _ => rfl) (fun _ => rfl) hover

theorem letGo (c : Client) : Keeps c c.letGo := by
  unfold Client.letGo
  split
  · dsimp only
    split
    · exact settle _ _ _ _
    · exact refl c
  · exact refl c

end Keeps

theorem isOver_of_waiting {c : Client} {g : Nat} {generation : Generation}
    (hgeneration : c.generations[g]? = some generation) (hphase : generation.phase = .waiting) :
    c.isOver g = false := by
  rw [isOver, phase?_of_generation hgeneration, hphase]
  rfl

theorem isOver_of_phase? {c : Client} {g : Nat} {phase : Phase} (hphase : c.phase? g = some phase) :
    c.isOver g = phase.isOver := by
  rw [isOver, hphase]
  rfl

theorem Routed.keeps {c c' : Client} {g : Nat} (hrouted : Routed c g c') : Keeps c c' := by
  cases hrouted with
  | idle => exact Keeps.refl c
  | @fault generation message rest hgeneration hphase =>
    refine (Keeps.setInbox c g rest).trans (Keeps.markFaulted ?_)
    rw [isOver, phase?_setInbox]
    exact isOver_of_waiting hgeneration hphase
  | @respond generation r rest => exact (Keeps.setInbox c g rest).trans (Keeps.settle _ g _ _)
  | @report generation r rest entry hgeneration hphase =>
    refine ((Keeps.setInbox c g rest).trans (Keeps.setListening _ g r.id false)).trans (Keeps.setPhase ?_)
    rw [isOver, phase?_setListening, phase?_setInbox]
    exact isOver_of_waiting hgeneration hphase
  | @ignore generation r rest => exact Keeps.setInbox c g rest
  | @call id handle payload hphase =>
    have hover := isOver_of_phase? hphase
    exact (Keeps.modifyHandle c handle _).trans (Keeps.setPhase hover)
  | @restore id hphase =>
    have hover := isOver_of_phase? hphase
    refine (Keeps.setListening c g id true).trans (Keeps.setPhase ?_)
    rw [isOver, phase?_setListening]
    exact hover
  | reject hphase =>
    have hover := isOver_of_phase? hphase
    refine (Keeps.settle c g _ _).trans (Keeps.setPhase ?_)
    rw [isOver, phase?_settle]
    exact hover
  | leave =>
    intro g' id entry' hentry'
    -- the table of this router is empty now, and the others are as before
    rw [pending?_setPhase, Client.rejectAll, pending?_settle] at hentry'
    split at hentry'
    · cases hentry'
    rename_i hother
    have hg : g ≠ g' := fun hg => hother ⟨hg, rfl⟩
    refine ⟨entry', hentry', rfl, ?_⟩
    rw [isOver, phase?_setPhase, if_neg hg, Client.rejectAll, phase?_settle, isOver]
  | mark hphase =>
    have hover := isOver_of_phase? hphase
    exact Keeps.markFaulted hover
  | finish hphase =>
    have hover := isOver_of_phase? hphase
    have hended : Keeps c (c.setPhase g .ended) := Keeps.setPhase hover
    unfold Client.finish
    dsimp only
    split
    · exact hended
    · exact hended.trans (Keeps.settle _ g _ _)

/-- Only a request that is put into a table is a new entry. -/
theorem Step.keeps {s s' : State} {m : Move} (hstep : Step s m s') (hm : ∀ listening, m ≠ .enlist listening) :
    Keeps s.client s'.client := by
  cases hstep with
  | renew c =>
    dsimp only [Client.renew]
    split
    · exact Keeps.letGo _
    · exact Keeps.refl c
  | start =>
    intro g id entry' hentry'
    rw [pending?_start] at hentry'
    obtain ⟨phase, hphase⟩ := phase?_of_pending? hentry'
    refine ⟨entry', hentry', rfl, ?_⟩
    rw [isOver, phase?_start]
    split
    · rename_i hg
      rw [hg, phase?, List.getElem?_eq_none (Nat.le_refl _)] at hphase
      cases hphase
    · rfl
  | refuse | post => exact Keeps.refl _
  | enlist listening => exact absurd rfl (hm listening)
  | withdraw c error =>
    dsimp only [Client.withdraw]
    split
    · exact Keeps.refl c
    · exact Keeps.settle c _ _ _
  | terminate c =>
    dsimp only [Client.terminate]
    split
    · exact (Keeps.settle c _ _ _).trans (Keeps.letGo _)
    · exact Keeps.refl c
  | route c stage g => exact (c.routed g).keeps
  | receive c stage g event =>
    refine Keeps.of_same (fun g' id => c.pending?_of_same_table g g' id fun _ => ?_) fun g' =>
      c.phase?_of_same_phase g g' fun _ => ?_
    · split <;> rfl
    · split <;> rfl
  | close c stage g =>
    exact Keeps.of_same (fun g' id => c.pending?_of_same_table g g' id fun _ => rfl) fun g' =>
      c.phase?_of_same_phase g g' fun _ => rfl
  | look c stage h =>
    dsimp only [Client.look]
    split
    · exact Keeps.refl c
    · split <;> exact Keeps.refl c

/-! ### Too late -/

theorem late_of_none {past : History} {x : State × Move} (hx : late? x = none) : late (past ++ [x]) = late past := by
  rw [late, List.filterMap_append, List.filterMap_cons_none hx, List.filterMap_nil, List.append_nil]
  rfl

theorem late?_of_other {s : State} {m : Move} (hm : ∀ listening, m ≠ .enlist listening) : late? (s, m) = none := by
  cases m with
  | enlist listening => exact absurd rfl (hm listening)
  | _ => rfl

/-- A request that is too late is a request, and its handle is an old one. -/
theorem Run.lt_of_late {past : History} {s : State} (hrun : Run past s) {h : Nat} (hlate : h ∈ late past) :
    h < s.client.handles.length := by
  obtain ⟨x, hx, hlate⟩ := List.mem_filterMap.mp hlate
  obtain ⟨t, m⟩ := x
  unfold late? at hlate
  split at hlate
  · rename_i heq
    obtain ⟨rfl, rfl⟩ := Prod.mk.inj heq
    split at hlate
    · rename_i hany
      obtain ⟨g, hcurrent, -⟩ := (Option.any_eq_true _ _).mp hany
      have he : ⟨t.client.handles.length, g, t.client.lastId, _⟩ ∈ enlistments past :=
        List.mem_filterMap.mpr ⟨_, hx, by rw [enlistment?, hcurrent]; rfl⟩
      obtain rfl := Option.some.inj hlate
      exact (hrun.inv.owned.enlisted _ he).1
    · cases hlate
  · cases hlate

/-- An entry's router has rejected for the last time exactly if it had done so when the request was put there. -/
theorem Run.isOver_iff_late {past : History} {s : State} (hrun : Run past s) {g : Nat} {id : String} {entry : Entry}
    (hentry : s.client.pending? g id = some entry) : s.client.isOver g = true ↔ entry.handle ∈ late past := by
  induction hrun generalizing g id entry with
  | new => cases hentry
  | @step past s s' m hpast hstep ih =>
    by_cases hm : ∀ listening, m ≠ .enlist listening
    · obtain ⟨entry', hentry', hhandle, hover⟩ := hstep.keeps hm g id entry hentry
      rw [late_of_none (late?_of_other hm), hover, ← hhandle]
      exact ih hentry'
    · cases hstep with
      | @enlist c listening hneeds =>
        obtain ⟨g', hcurrent⟩ := current_of_needsWorker hneeds
        have hlt := hpast.numbered.current g' hcurrent
        have hmem : ∀ h, h ∈ late (past ++ [(⟨c, .counted⟩, .enlist listening)]) ↔
            h ∈ late past ∨ c.isOver g' = true ∧ h = c.handles.length := by
          intro h
          rw [late, List.filterMap_append, List.mem_append, ← late]
          refine or_congr Iff.rfl ?_
          cases hover : c.isOver g' with
          | true => simp [late?, hcurrent, hover]
          | false => simp [late?, hcurrent, hover]
        have hsame : (c.enlist listening).isOver g = c.isOver g := by
          rw [isOver, isOver, phase?_enlist]
        rw [hmem, hsame]
        rw [pending?_enlist c g' g id listening hcurrent hlt] at hentry
        split at hentry
        · rename_i hhere
          obtain ⟨rfl, -⟩ := hhere
          obtain rfl := Option.some.inj hentry
          constructor
          · intro hover
            exact .inr ⟨hover, rfl⟩
          · rintro (hlate | ⟨hover, -⟩)
            · exact absurd (hpast.lt_of_late hlate) (Nat.lt_irrefl _)
            · exact hover
        · obtain ⟨_, he⟩ := hpast.inv.owned.entries g id entry hentry
          have hbefore : entry.handle < c.handles.length := (hpast.inv.owned.enlisted _ he).1
          rw [ih hentry]
          constructor
          · exact .inl
          · rintro (hlate | ⟨-, hlast⟩)
            · exact hlate
            · exact absurd hlast (Nat.ne_of_lt hbefore)
      | _ => exact absurd (by simp) hm

/-! ### Dead workers -/

/-- Whether the router is about to mark its worker as dead. -/
def Phase.marks : Phase → Bool
  | leaving stranded => stranded
  | _ => false

/-- Whether the worker is marked as dead, or about to be. -/
def Generation.isDoomed (generation : Generation) : Bool := generation.faulted || generation.phase.marks

theorem Generation.discovers_of_busy {generation : Generation} (hbusy : generation.phase ≠ .waiting) :
    generation.discovers = false := by
  unfold discovers
  split
  · rename_i hwaiting _
    exact absurd hwaiting hbusy
  · rename_i hwaiting _
    exact absurd hwaiting hbusy
  · rfl

/-- Whether the worker of a generation is marked as dead, or about to be. -/
def isDoomed (c : Client) (g : Nat) : Bool := c.generations[g]?.any Generation.isDoomed

section
variable (c : Client) (g g' : Nat)

theorem isDoomed_modifyGeneration (f : Generation → Generation) :
    (c.modifyGeneration g f).isDoomed g' =
      if g = g' then c.generations[g']?.any fun generation => (f generation).isDoomed else c.isDoomed g' := by
  rw [isDoomed, generations_modifyGeneration]
  split
  · exact Option.any_map
  · rfl

theorem isDoomed_of_same {f : Generation → Generation}
    (hf : ∀ generation, (f generation).isDoomed = generation.isDoomed) :
    (c.modifyGeneration g f).isDoomed g' = c.isDoomed g' := by
  rw [isDoomed_modifyGeneration]
  simp only [hf]
  exact ite_self _

theorem isDoomed_of_bare {c c' : Client} (hbare : c'.bare = c.bare) (g : Nat) : c'.isDoomed g = c.isDoomed g :=
  any_of_bare hbare g fun _ => rfl

theorem isDoomed_settle (ids : String → Bool) (f : Handle → Handle) :
    (c.settle g ids f).isDoomed g' = c.isDoomed g' := isDoomed_of_bare (c.bare_settle g ids f) g'

theorem isDoomed_start : c.start.isDoomed g = c.isDoomed g := by
  rw [isDoomed, generations_start]
  split
  · rename_i hg
    rw [isDoomed, hg, List.getElem?_eq_none (Nat.le_refl _)]
    rfl
  · rfl

theorem isDoomed_setPhase {phase : Phase} (hbefore : (c.phase? g).any Phase.marks = false)
    (hafter : phase.marks = false) : (c.setPhase g phase).isDoomed g' = c.isDoomed g' := by
  rw [setPhase, isDoomed_modifyGeneration]
  split
  · rename_i hg
    subst hg
    unfold phase? at hbefore
    rw [isDoomed]
    cases hgeneration : c.generations[g]? with
    | none => rfl
    | some generation =>
      rw [hgeneration] at hbefore
      have hphase : generation.phase.marks = false := hbefore
      simp [Generation.isDoomed, hafter, hphase]
  · rfl

theorem isDoomed_markFaulted {generation : Generation} (hgeneration : c.generations[g]? = some generation)
    (phase : Phase) : (c.markFaulted g phase).isDoomed g' = (c.isDoomed g' || g == g') := by
  rw [markFaulted, isDoomed_modifyGeneration]
  by_cases hg : g = g'
  · subst hg
    simp [hgeneration, Generation.isDoomed]
  · simp [hg]

end

/-- A router marks its worker as dead exactly if it discovers that it is. -/
theorem Routed.isDoomed {c c' : Client} {g : Nat} (hrouted : Routed c g c') (g' : Nat) :
    c'.isDoomed g' = (c.isDoomed g' || (g == g' && c.generations[g']?.any Generation.discovers)) := by
  have hquiet : c.generations[g]?.any Generation.discovers = false → c'.isDoomed g' = c.isDoomed g' →
      c'.isDoomed g' = (c.isDoomed g' || (g == g' && c.generations[g']?.any Generation.discovers)) := by
    intro hdiscovers hsame
    rw [hsame]
    by_cases hg : g = g'
    · subst hg
      rw [hdiscovers, Bool.and_false, Bool.or_false]
    · rw [beq_false_of_ne hg, Bool.false_and, Bool.or_false]
  have hbusy : ∀ {phase}, c.phase? g = some phase → phase ≠ .waiting →
      c.generations[g]?.any Generation.discovers = false := by
    intro phase hphase hne
    obtain ⟨generation, hgeneration, rfl⟩ := Option.map_eq_some_iff.mp hphase
    rw [hgeneration, Option.any_some]
    exact Generation.discovers_of_busy hne
  have hinbox : ∀ rest, (c.setInbox g rest).isDoomed g' = c.isDoomed g' := by
    intro rest
    exact c.isDoomed_of_same g g' fun _ => rfl
  have hlistening : ∀ (c : Client) id listening, (c.setListening g id listening).isDoomed g' = c.isDoomed g' := by
    intro c id listening
    exact c.isDoomed_of_same g g' fun _ => rfl
  cases hrouted with
  | idle hidle =>
    refine hquiet ?_ rfl
    cases hgeneration : c.generations[g]? with
    | none => rfl
    | some generation =>
      rw [Option.any_some]
      rcases hidle generation hgeneration with hended | ⟨hwaiting, hempty, hopen⟩
      · exact Generation.discovers_of_busy (by simp [hended])
      · simp [Generation.discovers, hwaiting, hempty, hopen]
  | @fault generation message rest hgeneration hphase hfault =>
    have hpopped : (c.setInbox g rest).generations[g]? = some { generation with inbox := rest } := by
      rw [setInbox, generations_modifyGeneration, if_pos rfl, hgeneration]
      rfl
    rw [isDoomed_markFaulted _ g g' hpopped, hinbox]
    by_cases hg : g = g'
    · subst hg
      simp [hgeneration, Generation.discovers, hphase, hfault]
    · rw [beq_false_of_ne hg, Bool.false_and]
  | @respond generation r rest hgeneration hphase hmessage =>
    refine hquiet (by simp [hgeneration, Generation.discovers, hphase, hmessage]) ?_
    rw [isDoomed_settle, hinbox]
  | @report generation r rest entry hgeneration hphase hmessage =>
    refine hquiet (by simp [hgeneration, Generation.discovers, hphase, hmessage]) ?_
    rw [isDoomed_setPhase _ g g' ?_ rfl, hlistening, hinbox]
    rw [phase?_setListening, phase?_setInbox, phase?_of_generation hgeneration, hphase]
    rfl
  | @ignore generation r rest hgeneration hphase hmessage =>
    exact hquiet (by simp [hgeneration, Generation.discovers, hphase, hmessage]) (hinbox rest)
  | call hphase =>
    refine hquiet (hbusy hphase (by simp)) ?_
    refine (isDoomed_setPhase _ g g' ?_ rfl).trans rfl
    exact congrArg (Option.any Phase.marks) hphase
  | restore hphase =>
    refine hquiet (hbusy hphase (by simp)) ?_
    rw [isDoomed_setPhase _ g g' ?_ rfl, hlistening]
    rw [phase?_setListening, hphase]
    rfl
  | reject hphase =>
    refine hquiet (hbusy hphase (by simp)) ?_
    rw [isDoomed_setPhase _ g g' ?_ rfl, rejectAll, isDoomed_settle]
    rw [rejectAll, phase?_settle, hphase]
    rfl
  | @leave generation hgeneration hphase hempty hclosed =>
    rw [setPhase, isDoomed_modifyGeneration, rejectAll, generations_settle]
    by_cases hg : g = g'
    · subst hg
      simp [Client.isDoomed, hgeneration, Generation.isDoomed, Generation.discovers, Phase.marks, hphase, hempty, hclosed]
    · rw [if_neg hg, isDoomed_settle, beq_false_of_ne hg, Bool.false_and, Bool.or_false]
  | mark hphase =>
    have hquiet := hbusy hphase (by simp)
    obtain ⟨generation, hgeneration, hphase⟩ := Option.map_eq_some_iff.mp hphase
    rw [isDoomed_markFaulted _ g g' hgeneration]
    by_cases hg : g = g'
    · subst hg
      simp [Client.isDoomed, hgeneration, Generation.isDoomed, hphase, Phase.marks]
    · rw [beq_false_of_ne hg, Bool.false_and]
  | finish hphase =>
    refine hquiet (hbusy hphase (by simp)) ?_
    have hended : (c.setPhase g .ended).isDoomed g' = c.isDoomed g' := by
      refine isDoomed_setPhase _ g g' ?_ rfl
      rw [hphase]
      rfl
    unfold Client.finish
    dsimp only
    split
    · exact hended
    · exact (isDoomed_settle _ g g' _ _).trans hended

theorem Step.isDoomed {s s' : State} {m : Move} (hstep : Step s m s') (g : Nat) :
    s'.client.isDoomed g = (s.client.isDoomed g || discovers g (s, m)) := by
  have hbare := hstep.bare
  cases hstep with
  | renew | refuse | enlist | post | withdraw | terminate | look =>
    exact (isDoomed_of_bare (hbare rfl) g).trans (Bool.or_false _).symm
  | start => exact (isDoomed_start _ g).trans (Bool.or_false _).symm
  | route c stage g' => exact (c.routed g').isDoomed g
  | receive c stage g' event =>
    refine Eq.trans (c.isDoomed_of_same g' g fun _ => ?_) (Bool.or_false _).symm
    split <;> rfl
  | close c stage g' =>
    refine Eq.trans (c.isDoomed_of_same g' g ?_) (Bool.or_false _).symm
    exact fun _ => rfl

/-- A worker is marked as dead, or about to be, exactly if its router has discovered that it is. -/
theorem Run.isDoomed {past : History} {s : State} (hrun : Run past s) (g : Nat) :
    s.client.isDoomed g = past.any (discovers g) := by
  induction hrun with
  | new => rfl
  | step hpast hstep ih => rw [hstep.isDoomed, ih, List.any_append, List.any_cons, List.any_nil, Bool.or_false]

theorem current?_letGo {c : Client} {generation : Generation} (hgeneration : c.currentGeneration? = some generation) :
    c.letGo.current? = none := by
  obtain ⟨g, hcurrent, -⟩ := Option.bind_eq_some_iff.mp hgeneration
  rw [letGo, hcurrent, hgeneration]
  dsimp only
  split
  · rw [abandonAll, current?_settle]
  · rfl

/-- A dispatch that begins when the current worker's router has ended starts another worker exactly if the router had
discovered that the worker was dead. -/
theorem Run.needsWorker_renew {past : History} {s : State} (hrun : Run past s) {g : Nat}
    (hcurrent : s.client.current? = some g) (hended : s.client.phase? g = some .ended) :
    s.client.renew.needsWorker = past.any (discovers g) := by
  obtain ⟨generation, hgeneration, hphase⟩ := Option.map_eq_some_iff.mp hended
  have hdoomed : generation.faulted = past.any (discovers g) := by
    rw [← hrun.isDoomed g, Client.isDoomed, hgeneration, Option.any_some, Generation.isDoomed, hphase]
    exact (Bool.or_false _).symm
  have hgenerations : s.client.currentGeneration? = some generation := by
    rw [currentGeneration?, hcurrent]
    exact hgeneration
  rw [← hdoomed, renew]
  split
  · rename_i hfaulted
    obtain ⟨generation', hgeneration', hfaulted⟩ := (Option.any_eq_true _ _).mp hfaulted
    obtain rfl := Option.some.inj (hgenerations.symm.trans hgeneration')
    rw [hfaulted, needsWorker, current?_letGo hgeneration']
    rfl
  · rename_i hfaulted
    have hmarked : generation.faulted = false := by
      refine Bool.eq_false_iff.mpr fun hmarked => hfaulted ((Option.any_eq_true _ _).mpr ⟨generation, ?_, hmarked⟩)
      exact hgenerations
    rw [hmarked, needsWorker]
    dsimp only
    rw [hcurrent]
    rfl

/-! ### Stranded requests -/

/-- The states that can come after a state. -/
inductive Later (s : State) : State → Prop
  | now : Later s s
  | step {t t' : State} {m : Move} (hlater : Later s t) (hstep : Step t m t') : Later s t'

theorem Run.later {past : History} {s t : State} (hrun : Run past s) (hlater : Later s t) : ∃ past', Run past' t := by
  induction hlater with
  | now => exact ⟨past, hrun⟩
  | step _ hstep ih =>
    obtain ⟨past', hrun'⟩ := ih
    exact ⟨_, hrun'.step hstep⟩

/-- An entry of the current worker whose router has rejected for the last time, and whose request is not being
posted. -/
structure Stranded (s : State) (g : Nat) (id : String) (entry : Entry) : Prop where
  pending : s.client.pending? g id = some entry
  current : s.client.current? = some g
  rejected : s.client.isOver g = true
  posted : s.stage = .posting → s.client.lastId ≠ id

theorem Routed.pending?_of_isOver {c c' : Client} {g : Nat} (hrouted : Routed c g c') (id : String)
    (hover : c.isOver g = true) (hcurrent : c.current? = some g) : c'.pending? g id = c.pending? g id := by
  cases hrouted with
  | idle => rfl
  | fault hgeneration hphase | respond hgeneration hphase | report hgeneration hphase | ignore hgeneration hphase
  | leave hgeneration hphase => cases (isOver_of_waiting hgeneration hphase).symm.trans hover
  | call hphase | restore hphase | reject hphase => cases (isOver_of_phase? hphase).symm.trans hover
  | mark => exact c.pending?_markFaulted g g id _
  | finish =>
    have hstill : (c.setPhase g .ended).current? = some g := hcurrent
    unfold Client.finish
    dsimp only
    rw [if_pos hstill, pending?_setPhase]

/-- The current worker is kept, let go of, or replaced by a new one. -/
theorem Step.current?_cases {s s' : State} {m : Move} (hstep : Step s m s') :
    s'.client.current? = s.client.current? ∨ s'.client.current? = none ∨
      s'.client.current? = some s.client.generations.length := by
  cases hstep with
  | renew c =>
    dsimp only [Client.renew]
    split
    · obtain ⟨-, -, -, hnone | hsame⟩ := letGo_numbers { c with dispatched := c.dispatched + 1 }
      · exact .inr (.inl hnone)
      · exact .inl hsame
    · exact .inl rfl
  | start => exact .inr (.inr rfl)
  | @enlist c listening =>
    dsimp only [Client.enlist]
    split <;> exact .inl rfl
  | withdraw c error =>
    dsimp only [Client.withdraw]
    split
    · exact .inl rfl
    · exact .inl (c.current?_settle _ _ _)
  | terminate c =>
    dsimp only [Client.terminate]
    split
    · rename_i g _
      obtain ⟨-, -, -, hnone | hsame⟩ := letGo_numbers (c.rejectAll g .terminated)
      · exact .inr (.inl hnone)
      · exact .inl (hsame.trans (c.current?_settle g _ _))
    · exact .inl rfl
  | route c stage g => exact .inl (of_frame (c.frame_routed g (c.routed g))).2.2.1
  | look c stage h => exact .inl (of_frame (c.frame_look h)).2.2.1
  | refuse | post | receive | close => exact .inl rfl

theorem Step.length_generations {s s' : State} {m : Move} (hstep : Step s m s') :
    s.client.generations.length ≤ s'.client.generations.length := by
  have hbare := hstep.bare
  cases hstep with
  | renew | refuse | enlist | post | withdraw | terminate | look =>
    exact Nat.le_of_eq (length_of_bare (hbare rfl)).symm
  | start =>
    rw [Client.start, List.length_append]
    exact Nat.le_add_right _ _
  | route c stage g => exact Nat.le_of_eq (of_frame (c.frame_routed g (c.routed g))).2.2.2.symm
  | receive c stage g event => exact Nat.le_of_eq (c.length_modifyGeneration g _).symm
  | close c stage g => exact Nat.le_of_eq (c.length_modifyGeneration g _).symm

theorem current?_letGo_of_lt {c : Client} {g : Nat} (hcurrent : c.current? = some g)
    (hlt : g < c.generations.length) : c.letGo.current? = none := by
  have hgeneration : c.currentGeneration? = some c.generations[g] := by
    rw [currentGeneration?, hcurrent]
    exact List.getElem?_eq_getElem hlt
  exact current?_letGo hgeneration

theorem current?_terminate {s : State} (hnumbered : Numbered s) : s.client.terminate.current? = none := by
  unfold terminate
  cases hcurrent : s.client.current? with
  | none => exact hcurrent
  | some g =>
    have hlt : g < (s.client.rejectAll g .terminated).generations.length := by
      rw [rejectAll, length_generations_settle]
      exact hnumbered.current g hcurrent
    exact current?_letGo_of_lt ((s.client.current?_settle g _ _).trans hcurrent) hlt

namespace Stranded
variable {past : History} {s s' : State} {c c' : Client} {stage : Stage} {g : Nat} {id : String} {entry : Entry}

theorem lt_length (hstranded : Stranded s g id entry) : g < s.client.generations.length := by
  obtain ⟨generation, hgeneration, -⟩ := Option.bind_eq_some_iff.mp hstranded.pending
  exact (List.getElem?_eq_some_iff.mp hgeneration).1

theorem of_same (hstranded : Stranded ⟨c, stage⟩ g id entry) (hframe : c'.frame = c.frame)
    (hpending : c'.pending? g id = c.pending? g id) (hover : c'.isOver g = c.isOver g) :
    Stranded ⟨c', stage⟩ g id entry := by
  obtain ⟨hdispatched, -, hcurrent, -⟩ := of_frame hframe
  constructor
  · exact hpending.trans hstranded.pending
  · exact hcurrent.trans hstranded.current
  · exact hover.trans hstranded.rejected
  · intro hposting
    rw [lastId, hdispatched]
    exact hstranded.posted hposting

theorem renew (hstranded : Stranded ⟨c, .idle⟩ g id entry) (hcurrent : c.renew.current? = some g) :
    Stranded ⟨c.renew, .counted⟩ g id entry := by
  have hsame : c.renew = { c with dispatched := c.dispatched + 1 } := by
    unfold Client.renew at hcurrent ⊢
    dsimp only at hcurrent ⊢
    split at hcurrent
    · rename_i hfaulted
      obtain ⟨generation, hgeneration, -⟩ := (Option.any_eq_true _ _).mp hfaulted
      cases (current?_letGo hgeneration).symm.trans hcurrent
    · rename_i hfaulted
      rw [if_neg hfaulted]
  rw [hsame]
  exact ⟨hstranded.pending, hstranded.current, hstranded.rejected, fun hposting => by cases hposting⟩

theorem enlist (hstranded : Stranded ⟨c, .counted⟩ g id entry) (hrun : Run past ⟨c, .counted⟩) (listening : Bool) :
    Stranded ⟨c.enlist listening, .posting⟩ g id entry := by
  have hcurrent : c.current? = some g := hstranded.current
  have hlt : g < c.generations.length := hstranded.lt_length
  have hid : id ≠ c.lastId := by
    rintro rfl
    have hlast : c.lastId = idOf (c.handles.length + 1) := congrArg idOf hrun.numbered.dispatched
    have hnone := hrun.inv.owned.pending?_next g
    rw [← hlast] at hnone
    cases hnone.symm.trans hstranded.pending
  have hlastId : (c.enlist listening).lastId = c.lastId := by
    rw [Client.enlist, hcurrent]
    rfl
  have hkept : (c.enlist listening).current? = some g := by
    rw [Client.enlist, hcurrent]
    exact hcurrent
  constructor
  · rw [pending?_enlist c g g id listening hcurrent hlt, if_neg fun hboth => hid hboth.2]
    exact hstranded.pending
  · exact hkept
  · rw [isOver, phase?_enlist]
    exact hstranded.rejected
  · intro _
    rw [hlastId]
    exact Ne.symm hid

theorem withdraw (hstranded : Stranded ⟨c, .posting⟩ g id entry) (error : Error) :
    Stranded ⟨c.withdraw c.lastId error, .idle⟩ g id entry := by
  have hcurrent : c.current? = some g := hstranded.current
  have hid : c.lastId ≠ id := hstranded.posted rfl
  have hother : ¬(g = g ∧ (id == c.lastId) = true) := fun hown => hid (beq_iff_eq.mp hown.2).symm
  rw [Client.withdraw, hcurrent]
  constructor
  · exact (pending?_settle c g g id _ _).trans ((if_neg hother).trans hstranded.pending)
  · exact (c.current?_settle g _ _).trans hcurrent
  · rw [isOver, phase?_settle]
    exact hstranded.rejected
  · intro hposting
    cases hposting

theorem routed (hstranded : Stranded ⟨c, stage⟩ g id entry) (g' : Nat) : Stranded ⟨c.route g', stage⟩ g id entry := by
  have hpending : (c.route g').pending? g id = c.pending? g id := by
    by_cases hg : g' = g
    · subst hg
      exact (c.routed g').pending?_of_isOver id hstranded.rejected hstranded.current
    · exact (c.routed g').pending?_of_ne id hg
  obtain ⟨_, -, -, hover⟩ := (c.routed g').keeps g id entry (hpending.trans hstranded.pending)
  exact hstranded.of_same (c.frame_routed g' (c.routed g')) hpending hover

/-- An entry stays stranded as long as its worker is current. -/
theorem step (hstranded : Stranded s g id entry) (hrun : Run past s) {m : Move} (hstep : Step s m s')
    (hcurrent : s'.client.current? = some g) : Stranded s' g id entry := by
  cases hstep with
  | renew c => exact hstranded.renew hcurrent
  | start hneeds | refuse error hneeds =>
    rw [needsWorker, hstranded.current] at hneeds
    cases hneeds
  | @enlist c listening => exact hstranded.enlist hrun listening
  | post c => exact ⟨hstranded.pending, hstranded.current, hstranded.rejected, fun hposting => by cases hposting⟩
  | withdraw c error => exact hstranded.withdraw error
  | terminate c => cases (current?_terminate hrun.numbered).symm.trans hcurrent
  | route c stage g' => exact hstranded.routed g'
  | receive c stage g' event =>
    refine hstranded.of_same (c.frame_modifyGeneration g' _) (c.pending?_of_same_table g' g id fun _ => ?_) ?_
    · split <;> rfl
    · refine congrArg (Option.any Phase.isOver) (c.phase?_of_same_phase g' g fun _ => ?_)
      split <;> rfl
  | close c stage g' =>
    refine hstranded.of_same (c.frame_modifyGeneration g' _) (c.pending?_of_same_table g' g id fun _ => rfl) ?_
    exact congrArg (Option.any Phase.isOver) (c.phase?_of_same_phase g' g fun _ => rfl)
  | look c stage h =>
    have hgenerations : (c.look h).1.generations = c.generations := by
      unfold Client.look
      split
      · rfl
      · split <;> rfl
    refine hstranded.of_same (c.frame_look h) ?_ ?_
    · rw [pending?, hgenerations, pending?]
    · rw [isOver, phase?, hgenerations, isOver, phase?]

/-- An entry is stranded for as long as its worker is current. -/
theorem later (hstranded : Stranded s g id entry) (hrun : Run past s) {t : State} (hlater : Later s t) :
    g < t.client.generations.length ∧ (t.client.current? = some g → Stranded t g id entry) := by
  induction hlater with
  | now => exact ⟨hstranded.lt_length, fun _ => hstranded⟩
  | @step t t' m hlater hstep ih =>
    obtain ⟨hlt, hkept⟩ := ih
    obtain ⟨past', hrun'⟩ := hrun.later hlater
    refine ⟨Nat.lt_of_lt_of_le hlt hstep.length_generations, fun hcurrent' => ?_⟩
    have hcurrent : t.client.current? = some g := by
      rcases hstep.current?_cases with hsame | hnone | hnew
      · exact hsame.symm.trans hcurrent'
      · cases hnone.symm.trans hcurrent'
      · have hlast : t.client.generations.length = g := Option.some.inj (hnew.symm.trans hcurrent')
        exact absurd hlast (Nat.ne_of_gt hlt)
    exact (hkept hcurrent).step hrun' hstep hcurrent'

end Stranded

/-- In every run: a request that nobody has replied to is in a table, and its router has rejected for the last time
exactly if the request came too late. Then nobody ever replies to it, once it is posted, as long as the client keeps the
worker; and the next dispatch after the end of the current router gives the worker up exactly if the router discovered
that it was dead. -/
theorem Run.strands_exactly_late {past : History} {s : State} (hrun : Run past s) :
    (∀ (h : Nat) (x : Handle), s.client.handles[h]? = some x → x.hungUp = false →
      ∃ g id entry, s.client.pending? g id = some entry ∧ entry.handle = h ∧
        (s.client.isOver g = true ↔ h ∈ late past) ∧
        (h ∈ late past → s.client.current? = some g → s.stage ≠ .posting → ∀ t, Later s t →
          t.client.current? = some g → ∃ x', t.client.handles[h]? = some x' ∧ x'.hungUp = false)) ∧
      (∀ g, s.client.current? = some g → s.client.phase? g = some .ended →
        (s.client.renew.needsWorker = true ↔ ∃ x ∈ past, discovers g x = true)) := by
  constructor
  · intro h x hx hopen
    obtain ⟨g, id, entry, hentry, rfl⟩ := hrun.inv.owned.waiting h x hx hopen
    have hlate := hrun.isOver_iff_late hentry
    refine ⟨g, id, entry, hentry, rfl, hlate, fun hmem hcurrent hposted t hlater hcurrent' => ?_⟩
    have hstranded : Stranded s g id entry := ⟨hentry, hcurrent, hlate.mpr hmem, fun hposting => absurd hposting hposted⟩
    obtain ⟨past', hrun'⟩ := hrun.later hlater
    obtain ⟨-, hkept⟩ := hstranded.later hrun hlater
    exact hrun'.inv.owned.awaited g id entry (hkept hcurrent').pending
  · intro g hcurrent hended
    rw [hrun.needsWorker_renew hcurrent hended, List.any_eq_true]

/-- A worker answers a request and goes away, its router ends with nothing to reject, and the next request, posted to
the same worker, waits for as long as the client keeps it. -/
theorem strands_after_quiet_exit : ∃ past s, Run past s ∧ s.stage = .idle ∧ s.client.isOver 0 = true ∧
    ∀ t, Later s t → t.client.current? = some 0 → ∃ x, t.client.handles[1]? = some x ∧ x.hungUp = false := by
  have hanswered := (((((Run.new.step (.renew _)).step (.start rfl)).step (.enlist false rfl)).step (.post _)).step
    (.receive _ _ 0 (.message ⟨"req_1", .result, .null⟩))).step (.route _ _ 0)
  have hended := ((hanswered.step (.close _ _ 0)).step (.route _ _ 0)).step (.route _ _ 0)
  have hrun := ((hended.step (.renew _)).step (.enlist false rfl)).step (.post _)
  obtain ⟨g, id, entry, hentry, -, hlate, hforever⟩ := hrun.strands_exactly_late.1 1 _ rfl rfl
  have hmem := List.mem_singleton.mpr (rfl : 1 = 1)
  obtain ⟨generation, hgeneration, -⟩ := Option.bind_eq_some_iff.mp hentry
  obtain rfl : g = 0 := Nat.lt_one_iff.mp (List.getElem?_eq_some_iff.mp hgeneration).1
  exact ⟨_, _, hrun, rfl, hlate.mpr hmem, hforever hmem rfl (by simp)⟩

end Calculator.Client
