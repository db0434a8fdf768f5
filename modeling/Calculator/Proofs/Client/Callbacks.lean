import Calculator.Proofs.Client.Ownership
/-!
What callbacks hear. A router takes a callback from its entry, runs it, and puts it back; meanwhile the entry may go,
and the callback with it. Each callback hears the reports that were taken up while its entry was in the table.
-/
namespace Calculator.Client

/-- The request whose callback the router has taken. -/
def Phase.borrowed? : Phase → Option String
  | calling id _ _ | restoring id => some id
  | _ => none

/-- The request whose callback a generation's router has taken. -/
def borrowed? (c : Client) (g : Nat) : Option String := (c.phase? g).bind Phase.borrowed?

/-- What has happened for a router to be in the phase. -/
def Phase.Justified (past : History) (g : Nat) : Phase → Prop
  | calling id handle _ => ⟨handle, g, id, true⟩ ∈ enlistments past
  | restoring id => ∃ handle, ⟨handle, g, id, true⟩ ∈ enlistments past
  | rejecting message => .fault message ∈ takenUp past g
  | _ => True

/-- What holds of callbacks at any time. -/
structure Heard (past : History) (c : Client) : Prop where
  /-- An entry has the callback that its request came with, unless the router has taken it. -/
  listening : ∀ g id entry listening, c.pending? g id = some entry →
    ⟨entry.handle, g, id, listening⟩ ∈ enlistments past → entry.listening = (listening && decide (c.borrowed? g ≠ some id))
  /-- Every phase has come about. -/
  phases : ∀ g phase, c.phase? g = some phase → phase.Justified past g
  /-- A callback has heard the reports that were taken up for it, but for the one that it is about to hear. -/
  progress : ∀ e ∈ enlistments past, ∀ x : Handle, c.handles[e.handle]? = some x →
    x.progress ++ c.inFlight e.generation e.handle = if e.listening then reports past e.generation e.id else []
  /-- Only requests that were put into a table hear reports. -/
  silent : ∀ (h : Nat) (x : Handle), c.handles[h]? = some x → x.progress ≠ [] → ∃ e ∈ enlistments past, e.handle = h
  /-- Only reports for requests that were put into a table are taken up for them. -/
  reported : ∀ g id, reports past g id ≠ [] → ∃ e ∈ enlistments past, e.id = id

theorem heard_new : Heard [] ({} : Client) where
  listening := fun _ _ _ _ hentry => nomatch hentry
  phases := fun _ _ hphase => nomatch hphase
  progress := fun _ he => nomatch he
  silent := fun _ _ hx => nomatch hx
  reported := fun _ _ h => absurd rfl h

theorem Phase.inFlight_of_borrowed? {phase : Phase} (hphase : phase.borrowed? = none) (h : Nat) :
    phase.inFlight h = [] := by
  cases phase with
  | calling => cases hphase
  | _ => rfl

theorem inFlight_of_phase? {c : Client} {g : Nat} {phase : Phase} (hphase : c.phase? g = some phase) (h : Nat) :
    c.inFlight g h = phase.inFlight h := by
  rw [inFlight, hphase]
  rfl

theorem inFlight_of_borrowed? {c : Client} {g : Nat} (hborrowed : c.borrowed? g = none) (h : Nat) :
    c.inFlight g h = [] := by
  unfold inFlight
  unfold borrowed? at hborrowed
  cases hphase : c.phase? g with
  | none => rfl
  | some phase =>
    rw [hphase] at hborrowed
    exact Phase.inFlight_of_borrowed? hborrowed h

theorem phase?_of_pending? {c : Client} {g : Nat} {id : String} {entry : Entry}
    (hentry : c.pending? g id = some entry) : ∃ phase, c.phase? g = some phase := by
  obtain ⟨generation, hgeneration, -⟩ := Option.bind_eq_some_iff.mp hentry
  exact ⟨generation.phase, by rw [phase?, hgeneration]; rfl⟩

theorem Phase.Justified.mono {past : History} {g : Nat} {phase : Phase} (h : phase.Justified past g)
    {x : State × Move} (henlistments : ∀ e ∈ enlistments past, e ∈ enlistments (past ++ [x])) :
    phase.Justified (past ++ [x]) g := by
  cases phase with
  | calling => exact henlistments _ h
  | restoring id =>
    obtain ⟨handle, hmem⟩ := h
    exact ⟨handle, henlistments _ hmem⟩
  | rejecting message => exact mem_takenUp_append h x
  | waiting | leaving | ended => trivial

/-- A router that is in a phase that has come about does not change what holds of the others. -/
theorem justified_of_update {past : History} {c c' : Client} {g : Nat} {phase : Phase}
    (hbefore : ∀ g' phase', c.phase? g' = some phase' → phase'.Justified past g')
    (hupdate : ∀ g', c'.phase? g' = if g = g' then (c.phase? g').map fun _ => phase else c.phase? g')
    (hjustified : phase.Justified past g) : ∀ g' phase', c'.phase? g' = some phase' → phase'.Justified past g' := by
  intro g' phase' hphase'
  rw [hupdate] at hphase'
  by_cases hg : g = g'
  · subst hg
    rw [if_pos rfl] at hphase'
    obtain ⟨_, -, rfl⟩ := Option.map_eq_some_iff.mp hphase'
    exact hjustified
  · rw [if_neg hg] at hphase'
    exact hbefore g' phase' hphase'

namespace Heard
variable {past : History} {c c' : Client} {x : State × Move} {g : Nat}

theorem congr (hheard : Heard past c) (hpending : ∀ g id, c'.pending? g id = c.pending? g id)
    (hphases : ∀ g phase, c'.phase? g = some phase → phase.Justified past g)
    (hborrowed : ∀ g, c'.borrowed? g = c.borrowed? g) (hinFlight : ∀ g h, c'.inFlight g h = c.inFlight g h)
    (hhandles : c'.handles.map Handle.progress = c.handles.map Handle.progress) : Heard past c' := by
  have hprogress : ∀ (h : Nat) (x : Handle), c'.handles[h]? = some x →
      ∃ y, c.handles[h]? = some y ∧ y.progress = x.progress := by
    intro h x hx
    have hmap := congrArg (fun l => l[h]?) hhandles
    simp only [List.getElem?_map, hx, Option.map_some] at hmap
    exact Option.map_eq_some_iff.mp hmap.symm
  constructor
  case listening =>
    intro g id entry listening hentry
    rw [hpending] at hentry
    rw [hborrowed]
    exact hheard.listening g id entry listening hentry
  case phases => exact hphases
  case progress =>
    intro e he x hx
    obtain ⟨y, hy, heq⟩ := hprogress e.handle x hx
    rw [← heq, hinFlight]
    exact hheard.progress e he y hy
  case silent =>
    intro h x hx hne
    obtain ⟨y, hy, heq⟩ := hprogress h x hx
    exact hheard.silent h y hy (heq ▸ hne)
  case reported => exact hheard.reported

/-- What happens besides does not matter, not even a report that no callback is there for. -/
theorem extend_of_unheard (hheard : Heard past c) (howned : Owned past c) (hx : enlistment? x = none)
    (hunheard : ∀ g id payload, report? g id x = some payload →
      ∃ e ∈ enlistments past, e.id = id ∧ e.listening = false) : Heard (past ++ [x]) c := by
  have henlistments := enlistments_of_none past hx
  constructor
  case listening => exact henlistments ▸ hheard.listening
  case phases =>
    intro g phase hphase
    exact (hheard.phases g phase hphase).mono fun e he => henlistments ▸ he
  case progress =>
    intro e he y hy
    rw [henlistments] at he
    cases hreport : report? e.generation e.id x with
    | none =>
      rw [reports_of_none hreport]
      exact hheard.progress e he y hy
    | some payload =>
      obtain ⟨e', he', hid, hlistening⟩ := hunheard _ _ _ hreport
      obtain rfl := howned.eq_of_id_eq he he' hid.symm
      have hbefore := hheard.progress e he y hy
      rw [hlistening, if_neg Bool.false_ne_true] at hbefore ⊢
      exact hbefore
  case silent => exact henlistments ▸ hheard.silent
  case reported =>
    intro g id hreports
    rw [henlistments]
    cases hreport : report? g id x with
    | none =>
      rw [reports_of_none hreport] at hreports
      exact hheard.reported g id hreports
    | some payload =>
      obtain ⟨e, he, hid, -⟩ := hunheard _ _ _ hreport
      exact ⟨e, he, hid⟩

theorem extend (hheard : Heard past c) (howned : Owned past c) (hx : enlistment? x = none)
    (hreport : ∀ g id, report? g id x = none) : Heard (past ++ [x]) c :=
  hheard.extend_of_unheard howned hx fun g id _ hsome => nomatch (hreport g id).symm.trans hsome

theorem settle (hheard : Heard past c) (howned : Owned past c) {ids : String → Bool} {f : Handle → Handle}
    (hprogress : ∀ x, (f x).progress = x.progress) : Heard past (c.settle g ids f) := by
  have hborrowed : ∀ g', (c.settle g ids f).borrowed? g' = c.borrowed? g' := by
    intro g'
    rw [borrowed?, borrowed?, phase?_settle]
  have hcases : ∀ (h : Nat) (x : Handle), (c.settle g ids f).handles[h]? = some x →
      ∃ y, c.handles[h]? = some y ∧ y.progress = x.progress := by
    intro h x hx
    rcases howned.handles_settle_cases hx with ⟨-, hx⟩ | ⟨_, _, y, -, -, -, hy, -, rfl⟩
    · exact ⟨x, hx, rfl⟩
    · exact ⟨y, hy, (hprogress y).symm⟩
  constructor
  case listening =>
    intro g' id entry listening hentry
    rw [pending?_settle] at hentry
    split at hentry
    · cases hentry
    · rw [hborrowed]
      exact hheard.listening g' id entry listening hentry
  case phases =>
    intro g' phase hphase
    rw [phase?_settle] at hphase
    exact hheard.phases g' phase hphase
  case progress =>
    intro e he x hx
    obtain ⟨y, hy, heq⟩ := hcases e.handle x hx
    rw [inFlight, phase?_settle, ← heq]
    exact hheard.progress e he y hy
  case silent =>
    intro h x hx hne
    obtain ⟨y, hy, heq⟩ := hcases h x hx
    exact hheard.silent h y hy (heq ▸ hne)
  case reported => exact hheard.reported

/-! ### Taking a callback, running it, and putting it back -/

/-- The callback is taken from its entry, to be run with a report that was just taken up. -/
theorem takeCallback (hheard : Heard past c) (howned : Owned past c) {id : String} {entry : Entry} {payload : Json}
    (hx : enlistment? x = none) (hborrowed : c.borrowed? g = none) (hentry : c.pending? g id = some entry)
    (he : ⟨entry.handle, g, id, true⟩ ∈ enlistments past)
    (hreport : ∀ g' id', report? g' id' x = if g = g' ∧ id' = id then some payload else none) :
    Heard (past ++ [x]) ((c.setListening g id false).setPhase g (.calling id entry.handle payload)) := by
  have henlistments := enlistments_of_none past hx
  obtain ⟨phase, hphase⟩ := phase?_of_pending? hentry
  have hhere : ((c.setListening g id false).setPhase g (.calling id entry.handle payload)).phase? g =
      some (.calling id entry.handle payload) := by
    rw [phase?_setPhase, if_pos rfl, phase?_setListening, hphase]
    rfl
  have helsewhere : ∀ g', g ≠ g' →
      ((c.setListening g id false).setPhase g (.calling id entry.handle payload)).phase? g' = c.phase? g' := by
    intro g' hg
    rw [phase?_setPhase, if_neg hg, phase?_setListening]
  constructor
  case listening =>
    intro g' id' entry' listening hentry' he'
    rw [henlistments] at he'
    rw [pending?_setPhase, pending?_setListening] at hentry'
    by_cases hg : g = g'
    · subst hg
      rw [borrowed?, hhere]
      by_cases hid : id' = id
      · subst hid
        rw [if_pos ⟨rfl, rfl⟩, hentry] at hentry'
        obtain rfl := Option.some.inj hentry'
        simp [Phase.borrowed?]
      · rw [if_neg fun hboth => hid hboth.2] at hentry'
        have hbefore := hheard.listening g id' entry' listening hentry' he'
        rw [hborrowed] at hbefore
        simpa [Phase.borrowed?, Ne.symm hid] using hbefore
    · rw [if_neg fun hboth => hg hboth.1] at hentry'
      rw [borrowed?, helsewhere g' hg]
      exact hheard.listening g' id' entry' listening hentry' he'
  case phases =>
    have hbefore : ∀ g' phase', c.phase? g' = some phase' → phase'.Justified (past ++ [x]) g' := fun g' phase' h =>
      (hheard.phases g' phase' h).mono fun e he => henlistments ▸ he
    have hcalling : Phase.Justified (past ++ [x]) g (.calling id entry.handle payload) := by
      rw [Phase.Justified, henlistments]
      exact he
    refine justified_of_update hbefore (fun g' => ?_) hcalling
    rw [phase?_setPhase, phase?_setListening]
  case progress =>
    intro e he' y hy
    rw [henlistments] at he'
    have hbefore := hheard.progress e he' y hy
    by_cases hid : e.id = id
    · obtain rfl := howned.eq_of_id_eq he' he hid
      rw [inFlight_of_borrowed? hborrowed, List.append_nil, if_pos rfl] at hbefore
      have hsome : report? g id x = some payload := by rw [hreport, if_pos ⟨rfl, rfl⟩]
      rw [inFlight_of_phase? hhere, if_pos rfl, reports_of_some hsome, ← hbefore]
      simp [Phase.inFlight]
    · have hnone : report? e.generation e.id x = none := by rw [hreport, if_neg fun hboth => hid hboth.2]
      rw [reports_of_none hnone]
      by_cases hg : g = e.generation
      · have hhandle : entry.handle ≠ e.handle := fun hhandle =>
          hid (congrArg Enlistment.id (howned.unique _ he' _ he hhandle.symm))
        rw [← hg, inFlight_of_borrowed? hborrowed] at hbefore
        rw [← hg, inFlight_of_phase? hhere]
        simpa [Phase.inFlight, hhandle] using hbefore
      · rw [inFlight, helsewhere _ hg]
        exact hbefore
  case silent => exact henlistments ▸ hheard.silent
  case reported =>
    intro g' id' hreports
    rw [henlistments]
    by_cases hid : g = g' ∧ id' = id
    · exact ⟨_, he, hid.2.symm⟩
    · have hnone : report? g' id' x = none := by rw [hreport, if_neg hid]
      rw [reports_of_none hnone] at hreports
      exact hheard.reported g' id' hreports

/-- The callback runs. -/
theorem runCallback (hheard : Heard past c) (howned : Owned past c) {id : String} {handle : Nat} {payload : Json}
    (hphase : c.phase? g = some (.calling id handle payload)) :
    Heard past ((c.modifyHandle handle fun h => { h with progress := h.progress ++ [payload] }).setPhase g
      (.restoring id)) := by
  have he : ⟨handle, g, id, true⟩ ∈ enlistments past := hheard.phases g _ hphase
  have hphase? : ∀ g', ((c.modifyHandle handle fun h => { h with progress := h.progress ++ [payload] }).setPhase g
      (.restoring id)).phase? g' = if g = g' then (c.phase? g').map fun _ => .restoring id else c.phase? g' :=
    fun g' => phase?_setPhase _ g g' (.restoring id)
  have hborrowed : ∀ g', ((c.modifyHandle handle fun h => { h with progress := h.progress ++ [payload] }).setPhase g
      (.restoring id)).borrowed? g' = c.borrowed? g' := by
    intro g'
    rw [borrowed?, borrowed?, hphase?]
    by_cases hg : g = g'
    · subst hg
      rw [if_pos rfl, hphase]
      rfl
    · rw [if_neg hg]
  have hhandles : ∀ h, ((c.modifyHandle handle fun h => { h with progress := h.progress ++ [payload] }).setPhase g
      (.restoring id)).handles[h]? = if handle = h then
        c.handles[h]?.map fun h => { h with progress := h.progress ++ [payload] } else c.handles[h]? :=
    fun h => c.handles_modifyHandle handle h _
  constructor
  case listening =>
    intro g' id' entry listening hentry
    rw [pending?_setPhase] at hentry
    rw [hborrowed]
    exact hheard.listening g' id' entry listening hentry
  case phases => exact justified_of_update hheard.phases hphase? ⟨handle, he⟩
  case progress =>
    intro e he' y hy
    rw [hhandles] at hy
    by_cases hhandle : handle = e.handle
    · obtain rfl := howned.unique _ he _ he' hhandle
      rw [if_pos rfl] at hy
      obtain ⟨y', hy', rfl⟩ := Option.map_eq_some_iff.mp hy
      have hbefore := hheard.progress _ he y' hy'
      rw [inFlight_of_phase? hphase, Phase.inFlight, if_pos rfl] at hbefore
      rw [inFlight, hphase?, if_pos rfl, hphase]
      exact (List.append_nil _).trans hbefore
    · rw [if_neg hhandle] at hy
      have hbefore := hheard.progress e he' y hy
      by_cases hg : g = e.generation
      · rw [← hg, inFlight_of_phase? hphase, Phase.inFlight, if_neg hhandle] at hbefore
        rw [← hg, inFlight, hphase?, if_pos rfl, hphase]
        exact hbefore
      · rw [inFlight, hphase?, if_neg hg]
        exact hbefore
  case silent =>
    intro h y hy hne
    rw [hhandles] at hy
    by_cases hhandle : handle = h
    · exact ⟨_, he, hhandle⟩
    · rw [if_neg hhandle] at hy
      exact hheard.silent h y hy hne
  case reported => exact hheard.reported

/-- The callback is put back, if its entry is still there. -/
theorem restoreCallback (hheard : Heard past c) (howned : Owned past c) {id : String}
    (hphase : c.phase? g = some (.restoring id)) :
    Heard past ((c.setListening g id true).setPhase g .waiting) := by
  have hjustified : Phase.Justified past g (.restoring id) := hheard.phases g _ hphase
  obtain ⟨handle, he⟩ := hjustified
  have hborrowed : c.borrowed? g = some id := by
    rw [borrowed?, hphase]
    rfl
  have hphase? : ∀ g', ((c.setListening g id true).setPhase g .waiting).phase? g' =
      if g = g' then some .waiting else c.phase? g' := by
    intro g'
    rw [phase?_setPhase, phase?_setListening]
    by_cases hg : g = g'
    · subst hg
      rw [if_pos rfl, if_pos rfl, hphase]
      rfl
    · rw [if_neg hg, if_neg hg]
  constructor
  case listening =>
    intro g' id' entry listening hentry he'
    rw [pending?_setPhase, pending?_setListening] at hentry
    by_cases hg : g = g'
    · subst hg
      rw [borrowed?, hphase?, if_pos rfl]
      by_cases hid : id' = id
      · subst hid
        rw [if_pos ⟨rfl, rfl⟩] at hentry
        obtain ⟨entry', -, rfl⟩ := Option.map_eq_some_iff.mp hentry
        have hsame := howned.eq_of_id_eq he he' rfl
        obtain rfl := congrArg Enlistment.listening hsame
        rfl
      · rw [if_neg fun hboth => hid hboth.2] at hentry
        have hbefore := hheard.listening g id' entry listening hentry he'
        rw [hborrowed] at hbefore
        simpa [Phase.borrowed?, Ne.symm hid] using hbefore
    · rw [if_neg fun hboth => hg hboth.1] at hentry
      rw [borrowed?, hphase?, if_neg hg]
      exact hheard.listening g' id' entry listening hentry he'
  case phases =>
    have hwaiting : Phase.Justified past g .waiting := trivial
    refine justified_of_update hheard.phases (fun g' => ?_) hwaiting
    rw [phase?_setPhase, phase?_setListening]
  case progress =>
    intro e he' y hy
    have hbefore := hheard.progress e he' y hy
    by_cases hg : g = e.generation
    · rw [← hg, inFlight_of_phase? hphase] at hbefore
      rw [← hg, inFlight, hphase?, if_pos rfl]
      exact hbefore
    · rw [inFlight, hphase?, if_neg hg]
      exact hbefore
  case silent => exact hheard.silent
  case reported => exact hheard.reported

/-! ### New handles -/

theorem refuse (hheard : Heard past c) (howned : Owned past c) (error : Error) : Heard past (c.refuse error) := by
  constructor
  case listening => exact hheard.listening
  case phases => exact hheard.phases
  case progress =>
    intro e he y hy
    rw [handles_refuse, if_neg (Nat.ne_of_lt (howned.enlisted e he).1)] at hy
    exact hheard.progress e he y hy
  case silent =>
    intro h y hy hne
    rw [handles_refuse] at hy
    split at hy
    · obtain rfl := Option.some.inj hy
      exact absurd rfl hne
    · exact hheard.silent h y hy hne
  case reported => exact hheard.reported

theorem enlisted_of_borrowed? (hheard : Heard past c) {id : String} (hborrowed : c.borrowed? g = some id) :
    ∃ e ∈ enlistments past, e.id = id := by
  obtain ⟨phase, hphase, hid⟩ := Option.bind_eq_some_iff.mp hborrowed
  have hjustified := hheard.phases g phase hphase
  cases phase with
  | calling id' handle payload =>
    obtain rfl := Option.some.inj hid
    exact ⟨_, hjustified, rfl⟩
  | restoring id' =>
    obtain rfl := Option.some.inj hid
    obtain ⟨handle, he⟩ := hjustified
    exact ⟨_, he, rfl⟩
  | waiting | rejecting | leaving | ended => cases hid

theorem inFlight_next (hheard : Heard past c) (howned : Owned past c) (g : Nat) : c.inFlight g c.handles.length = [] := by
  unfold inFlight
  cases hphase : c.phase? g with
  | none => rfl
  | some phase =>
    have hjustified := hheard.phases g phase hphase
    cases phase with
    | calling id handle payload =>
      have hlt := (howned.enlisted _ hjustified).1
      exact if_neg (Nat.ne_of_lt hlt)
    | waiting | restoring | rejecting | leaving | ended => rfl

theorem enlist (hheard : Heard past c) (howned : Owned past c) {listening : Bool}
    (hcurrent : c.current? = some g) (hlt : g < c.generations.length)
    (hid : c.lastId = idOf (c.handles.length + 1))
    (hx : enlistment? x = some ⟨c.handles.length, g, c.lastId, listening⟩)
    (hreport : ∀ g id, report? g id x = none) : Heard (past ++ [x]) (c.enlist listening) := by
  have hmem := mem_enlistments_of_some past hx
  have hborrowed : ∀ g', (c.enlist listening).borrowed? g' = c.borrowed? g' := by
    intro g'
    rw [borrowed?, borrowed?, phase?_enlist]
  have hbefore : ∀ e ∈ enlistments past, e.handle ≠ c.handles.length := fun e he =>
    Nat.ne_of_lt (howned.enlisted e he).1
  constructor
  case listening =>
    intro g' id entry listening' hentry he
    rw [hborrowed]
    rw [pending?_enlist c g g' id listening hcurrent hlt] at hentry
    split at hentry
    · rename_i hhere
      obtain ⟨rfl, rfl⟩ := hhere
      obtain rfl := Option.some.inj hentry
      have hfree : c.borrowed? g ≠ some c.lastId := by
        intro hsome
        obtain ⟨e, he, hsame⟩ := hheard.enlisted_of_borrowed? hsome
        exact howned.id_ne_next he (hsame.trans hid)
      rcases (hmem _).mp he with he | hnew
      · exact absurd rfl (hbefore _ he)
      · have hsame : listening' = listening := congrArg Enlistment.listening hnew
        rw [decide_eq_true hfree, Bool.and_true, hsame]
    · rcases (hmem _).mp he with he | hnew
      · exact hheard.listening g' id entry listening' hentry he
      · obtain ⟨_, he'⟩ := howned.entries g' id entry hentry
        have hlast : entry.handle = c.handles.length := congrArg Enlistment.handle hnew
        exact absurd hlast (hbefore _ he')
  case phases =>
    intro g' phase hphase
    rw [phase?_enlist] at hphase
    exact (hheard.phases g' phase hphase).mono fun e he => (hmem e).mpr (.inl he)
  case progress =>
    intro e he y hy
    rw [handles_enlist c g _ listening hcurrent] at hy
    rw [inFlight, phase?_enlist, reports_of_none (hreport _ _)]
    rcases (hmem e).mp he with he | rfl
    · rw [if_neg (hbefore e he)] at hy
      exact hheard.progress e he y hy
    · rw [if_pos rfl] at hy
      obtain rfl := Option.some.inj hy
      have hnone : reports past g c.lastId = [] := by
        refine Classical.not_not.mp fun hne => ?_
        obtain ⟨e, he, hsame⟩ := hheard.reported g c.lastId hne
        exact howned.id_ne_next he (hsame.trans hid)
      have hflight := hheard.inFlight_next howned g
      rw [inFlight] at hflight
      dsimp only
      rw [hflight, hnone, ite_self]
      rfl
  case silent =>
    intro h y hy hne
    rw [handles_enlist c g _ listening hcurrent] at hy
    split at hy
    · obtain rfl := Option.some.inj hy
      exact absurd rfl hne
    · obtain ⟨e, he, hhandle⟩ := hheard.silent h y hy hne
      exact ⟨e, (hmem e).mpr (.inl he), hhandle⟩
  case reported =>
    intro g' id hreports
    rw [reports_of_none (hreport g' id)] at hreports
    obtain ⟨e, he, hsame⟩ := hheard.reported g' id hreports
    exact ⟨e, (hmem e).mpr (.inl he), hsame⟩

end Heard

end Calculator.Client
