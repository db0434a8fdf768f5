import Calculator.Client.Run
/-! What each operation of a client does to the tables, the phases of the routers, and the handles. -/
namespace Calculator.Client

theorem getElem?_concat {α : Type} (l : List α) (a : α) (i : Nat) :
    (l ++ [a])[i]? = if i = l.length then some a else l[i]? := by
  rw [List.getElem?_append]
  rcases Nat.lt_trichotomy i l.length with hlt | rfl | hgt
  · rw [if_pos hlt, if_neg (Nat.ne_of_lt hlt)]
  · rw [if_neg (Nat.lt_irrefl _), if_pos rfl, Nat.sub_self]
    rfl
  · have hafter : [a].length ≤ i - l.length := Nat.sub_pos_of_lt hgt
    rw [if_neg (Nat.not_lt_of_gt hgt), if_neg (Nat.ne_of_gt hgt), List.getElem?_eq_none hafter,
      List.getElem?_eq_none (Nat.le_of_lt hgt)]

variable (c : Client) (g g' h h' : Nat) (id id' : String)

/-! ### Generations -/

theorem generations_modifyGeneration (f : Generation → Generation) :
    (c.modifyGeneration g f).generations[g']? =
      if g = g' then c.generations[g']?.map f else c.generations[g']? := by
  rw [modifyGeneration, List.getElem?_modify]
  split <;> simp

theorem length_modifyGeneration (f : Generation → Generation) :
    (c.modifyGeneration g f).generations.length = c.generations.length :=
  List.length_modify ..

theorem phase?_modifyGeneration (f : Generation → Generation) :
    (c.modifyGeneration g f).phase? g' =
      if g = g' then c.generations[g']?.map fun generation => (f generation).phase else c.phase? g' := by
  rw [phase?, generations_modifyGeneration]
  split
  · rw [Option.map_map]
    rfl
  · rfl

theorem pending?_modifyGeneration (f : Generation → Generation) :
    (c.modifyGeneration g f).pending? g' id =
      if g = g' then c.generations[g']?.bind fun generation => (f generation).pending.get? id
      else c.pending? g' id := by
  rw [pending?, generations_modifyGeneration]
  split
  · rw [Option.bind_map]
    rfl
  · rfl

/-- A change that leaves the table alone. -/
theorem pending?_of_same_table {f : Generation → Generation} (hf : ∀ generation, (f generation).pending = generation.pending) :
    (c.modifyGeneration g f).pending? g' id = c.pending? g' id := by
  rw [pending?_modifyGeneration]
  simp only [hf]
  exact ite_self _

/-- A change that leaves the phase alone. -/
theorem phase?_of_same_phase {f : Generation → Generation} (hf : ∀ generation, (f generation).phase = generation.phase) :
    (c.modifyGeneration g f).phase? g' = c.phase? g' := by
  rw [phase?_modifyGeneration]
  simp only [hf]
  exact ite_self _

@[simp]
theorem pending?_setPhase (phase : Phase) : (c.setPhase g phase).pending? g' id = c.pending? g' id :=
  c.pending?_of_same_table g g' id fun _ => rfl

theorem phase?_setPhase (phase : Phase) :
    (c.setPhase g phase).phase? g' = if g = g' then (c.phase? g').map fun _ => phase else c.phase? g' := by
  rw [setPhase, phase?_modifyGeneration, phase?, Option.map_map]
  rfl

@[simp]
theorem pending?_markFaulted (phase : Phase) : (c.markFaulted g phase).pending? g' id = c.pending? g' id :=
  c.pending?_of_same_table g g' id fun _ => rfl

@[simp]
theorem pending?_setInbox (inbox : List Worker.Event) : (c.setInbox g inbox).pending? g' id = c.pending? g' id :=
  c.pending?_of_same_table g g' id fun _ => rfl

@[simp]
theorem phase?_setInbox (inbox : List Worker.Event) : (c.setInbox g inbox).phase? g' = c.phase? g' :=
  c.phase?_of_same_phase g g' fun _ => rfl

@[simp]
theorem phase?_setListening (listening : Bool) : (c.setListening g id listening).phase? g' = c.phase? g' :=
  c.phase?_of_same_phase g g' fun _ => rfl

theorem pending?_setListening (listening : Bool) :
    (c.setListening g id listening).pending? g' id' =
      if g = g' ∧ id' = id then (c.pending? g' id').map fun entry => { entry with listening } else c.pending? g' id' := by
  rw [setListening, pending?_modifyGeneration]
  by_cases hg : g = g'
  · subst hg
    rw [if_pos rfl, pending?]
    cases c.generations[g]? with
    | none => simp
    | some generation =>
      simp only [Option.bind_some, Bindings.get?_modify, true_and]
      by_cases hid : id' = id
      · subst hid
        rfl
      · rw [if_neg hid, if_neg hid]
  · rw [if_neg hg, if_neg fun hboth => hg hboth.1]

theorem handle_setListening (listening : Bool) :
    ((c.setListening g id listening).pending? g' id').map Entry.handle = (c.pending? g' id').map Entry.handle := by
  rw [pending?_setListening]
  split
  · rw [Option.map_map]
    rfl
  · rfl

theorem generations_start :
    c.start.generations[g]? = if g = c.generations.length then some {} else c.generations[g]? :=
  getElem?_concat c.generations {} g

theorem phase?_start : c.start.phase? g = if g = c.generations.length then some .waiting else c.phase? g := by
  rw [phase?, generations_start]
  split
  · rfl
  · rfl

theorem pending?_start : c.start.pending? g id = c.pending? g id := by
  rw [pending?, generations_start]
  split
  · rename_i hg
    rw [pending?, hg, List.getElem?_eq_none (Nat.le_refl _)]
    rfl
  · rfl

/-! ### Handles -/

theorem handles_modifyHandle (f : Handle → Handle) :
    (c.modifyHandle h f).handles[h']? = if h = h' then c.handles[h']?.map f else c.handles[h']? := by
  rw [modifyHandle, List.getElem?_modify]
  split <;> simp

theorem length_modifyHandle (f : Handle → Handle) : (c.modifyHandle h f).handles.length = c.handles.length :=
  List.length_modify ..

theorem handles_refuse (error : Error) :
    (c.refuse error).handles[h]? =
      if h = c.handles.length then some (Handle.receive (.failed error) {}) else c.handles[h]? :=
  getElem?_concat c.handles _ h

theorem handles_enlist (listening : Bool) (hcurrent : c.current? = some g) :
    (c.enlist listening).handles[h]? = if h = c.handles.length then some {} else c.handles[h]? := by
  rw [enlist, hcurrent]
  exact getElem?_concat c.handles {} h

theorem phase?_enlist (listening : Bool) : (c.enlist listening).phase? g = c.phase? g := by
  unfold enlist
  cases c.current? with
  | none => rfl
  | some g' => exact c.phase?_of_same_phase g' g fun _ => rfl

theorem pending?_enlist (listening : Bool) (hcurrent : c.current? = some g) (hlt : g < c.generations.length) :
    (c.enlist listening).pending? g' id =
      if g = g' ∧ id = c.lastId then some ⟨c.handles.length, listening⟩ else c.pending? g' id := by
  have hpending : (c.enlist listening).pending? g' id = (c.modifyGeneration g fun generation =>
      { generation with pending := generation.pending.set c.lastId ⟨c.handles.length, listening⟩ }).pending? g' id := by
    rw [enlist, hcurrent]
    rfl
  rw [hpending, pending?_modifyGeneration]
  by_cases hg : g = g'
  · subst hg
    rw [if_pos rfl, List.getElem?_eq_getElem hlt, pending?, List.getElem?_eq_getElem hlt]
    simp only [Option.bind_some, true_and]
    by_cases hid : id = c.lastId
    · rw [hid, if_pos rfl, Bindings.get?_set_self]
    · rw [if_neg hid, Bindings.get?_set_of_ne _ _ hid]
  · rw [if_neg hg, if_neg fun hboth => hg hboth.1]

/-! ### Settling -/

section
variable (ids : String → Bool) (f : Handle → Handle)

/-- The client, with each entry's handle changed. -/
def modifyHandles (entries : List (String × Entry)) : Client :=
  entries.foldl (fun c e => c.modifyHandle e.2.handle f) c

theorem generations_modifyHandles (entries : List (String × Entry)) :
    (c.modifyHandles f entries).generations = c.generations := by
  induction entries generalizing c with
  | nil => rfl
  | cons e entries ih => exact ih (c.modifyHandle e.2.handle f)

theorem current?_modifyHandles (entries : List (String × Entry)) :
    (c.modifyHandles f entries).current? = c.current? := by
  induction entries generalizing c with
  | nil => rfl
  | cons e entries ih => exact ih (c.modifyHandle e.2.handle f)

theorem dispatched_modifyHandles (entries : List (String × Entry)) :
    (c.modifyHandles f entries).dispatched = c.dispatched := by
  induction entries generalizing c with
  | nil => rfl
  | cons e entries ih => exact ih (c.modifyHandle e.2.handle f)

theorem length_modifyHandles (entries : List (String × Entry)) :
    (c.modifyHandles f entries).handles.length = c.handles.length := by
  induction entries generalizing c with
  | nil => rfl
  | cons e entries ih => exact (ih (c.modifyHandle e.2.handle f)).trans (c.length_modifyHandle e.2.handle f)

/-- Entries of different handles change each of them once. -/
theorem handles_modifyHandles {entries : List (String × Entry)}
    (hdistinct : (entries.map fun e => e.2.handle).Nodup) :
    (c.modifyHandles f entries).handles[h]? =
      if h ∈ entries.map fun e => e.2.handle then c.handles[h]?.map f else c.handles[h]? := by
  induction entries generalizing c with
  | nil => rfl
  | cons e entries ih =>
    rw [List.map_cons, List.nodup_cons] at hdistinct
    have htail := ih (c.modifyHandle e.2.handle f) hdistinct.2
    rw [modifyHandles, List.foldl_cons, List.map_cons]
    rw [modifyHandles] at htail
    rw [htail, handles_modifyHandle]
    by_cases he : e.2.handle = h
    · subst he
      rw [if_neg hdistinct.1, if_pos rfl, if_pos List.mem_cons_self]
    · rw [if_neg he]
      simp only [List.mem_cons, Ne.symm he, false_or]

theorem settle_eq {generation : Generation} (hgeneration : c.generations[g]? = some generation) :
    c.settle g ids f =
      (c.modifyGeneration g fun generation =>
        { generation with pending := generation.pending.filter fun id => !ids id }).modifyHandles f
          (generation.pending.filter ids).entries := by
  rw [settle, hgeneration]
  rfl

theorem settle_of_none (hnone : c.generations[g]? = none) : c.settle g ids f = c := by
  rw [settle, hnone]

theorem generations_settle :
    (c.settle g ids f).generations[g']? =
      if g = g' then c.generations[g']?.map fun generation =>
        { generation with pending := generation.pending.filter fun id => !ids id }
      else c.generations[g']? := by
  cases hgeneration : c.generations[g]? with
  | none =>
    rw [c.settle_of_none g ids f hgeneration]
    by_cases hg : g = g'
    · subst hg
      rw [if_pos rfl, hgeneration]
      rfl
    · rw [if_neg hg]
  | some generation => rw [c.settle_eq g ids f hgeneration, generations_modifyHandles, generations_modifyGeneration]

@[simp]
theorem phase?_settle : (c.settle g ids f).phase? g' = c.phase? g' := by
  rw [phase?, generations_settle]
  split
  · rw [Option.map_map]
    rfl
  · rfl

theorem pending?_settle :
    (c.settle g ids f).pending? g' id = if g = g' ∧ ids id = true then none else c.pending? g' id := by
  rw [pending?, generations_settle]
  by_cases hg : g = g'
  · subst hg
    rw [if_pos rfl, pending?]
    cases c.generations[g]? with
    | none => simp
    | some generation =>
      simp only [Option.map_some, Option.bind_some, Bindings.get?_filter, true_and]
      cases ids id <;> rfl
  · rw [if_neg hg, if_neg fun hboth => hg hboth.1]
    rfl

theorem length_generations_settle : (c.settle g ids f).generations.length = c.generations.length := by
  cases hgeneration : c.generations[g]? with
  | none => rw [c.settle_of_none g ids f hgeneration]
  | some generation => rw [c.settle_eq g ids f hgeneration, generations_modifyHandles, length_modifyGeneration]

@[simp]
theorem current?_settle : (c.settle g ids f).current? = c.current? := by
  cases hgeneration : c.generations[g]? with
  | none => rw [c.settle_of_none g ids f hgeneration]
  | some generation =>
    rw [c.settle_eq g ids f hgeneration, current?_modifyHandles]
    rfl

@[simp]
theorem dispatched_settle : (c.settle g ids f).dispatched = c.dispatched := by
  cases hgeneration : c.generations[g]? with
  | none => rw [c.settle_of_none g ids f hgeneration]
  | some generation =>
    rw [c.settle_eq g ids f hgeneration, dispatched_modifyHandles]
    rfl

@[simp]
theorem length_handles_settle : (c.settle g ids f).handles.length = c.handles.length := by
  cases hgeneration : c.generations[g]? with
  | none => rw [c.settle_of_none g ids f hgeneration]
  | some generation =>
    rw [c.settle_eq g ids f hgeneration, length_modifyHandles]
    rfl

/-- Whether a request in the table of a generation, with one of the ids, waits at the handle. -/
def WaitsIn : Prop :=
  ∃ id entry, c.pending? g id = some entry ∧ ids id = true ∧ entry.handle = h

/-- If no two entries have the same handle, each handle of a chosen entry is changed once. -/
theorem handles_settle
    (hdistinct : ∀ id id' entry entry', c.pending? g id = some entry → c.pending? g id' = some entry' →
      entry.handle = entry'.handle → id = id') :
    (∀ x, WaitsIn c g h ids → c.handles[h]? = some x → (c.settle g ids f).handles[h]? = some (f x)) ∧
      (¬ WaitsIn c g h ids → (c.settle g ids f).handles[h]? = c.handles[h]?) := by
  cases hgeneration : c.generations[g]? with
  | none =>
    rw [c.settle_of_none g ids f hgeneration]
    refine ⟨fun x hwaits _ => ?_, fun _ => rfl⟩
    obtain ⟨id, entry, hpending, -⟩ := hwaits
    rw [pending?, hgeneration] at hpending
    cases hpending
  | some generation =>
    have hpending : ∀ id, c.pending? g id = generation.pending.get? id := by
      intro id
      rw [pending?, hgeneration]
      rfl
    have hmem : ∀ e : String × Entry, e ∈ (generation.pending.filter ids).entries ↔
        c.pending? g e.1 = some e.2 ∧ ids e.1 = true := by
      intro e
      rw [hpending, ← Bindings.mem_entries_iff]
      exact List.mem_filter
    have hnodup : ((generation.pending.filter ids).entries.map fun e => e.2.handle).Nodup := by
      refine List.pairwise_map.mpr ((generation.pending.filter ids).increasing.imp_of_mem fun {a b} ha hb hlt heq => ?_)
      have hsame := hdistinct a.1 b.1 a.2 b.2 ((hmem a).mp ha).1 ((hmem b).mp hb).1 heq
      exact String.lt_irrefl b.1 (hsame ▸ hlt)
    have hwaits : h ∈ ((generation.pending.filter ids).entries.map fun e => e.2.handle) ↔ WaitsIn c g h ids := by
      rw [List.mem_map]
      constructor
      · rintro ⟨e, he, rfl⟩
        exact ⟨e.1, e.2, ((hmem e).mp he).1, ((hmem e).mp he).2, rfl⟩
      · rintro ⟨id, entry, hentry, hid, rfl⟩
        exact ⟨(id, entry), (hmem (id, entry)).mpr ⟨hentry, hid⟩, rfl⟩
    rw [c.settle_eq g ids f hgeneration, handles_modifyHandles _ h f hnodup]
    constructor
    · intro x hh hx
      rw [if_pos (hwaits.mpr hh)]
      exact congrArg (Option.map f) hx
    · intro hh
      rw [if_neg fun hmem => hh (hwaits.mp hmem)]
      rfl

end

end Calculator.Client
