import Calculator.Proofs.Client.Tables
/-!
Who can reply to a request. The entries of all tables together are the requests whose handles are open, each of them
once, so a handle gets at most one reply, and every reply has a cause.
-/
namespace Calculator.Client

/-! ### Histories -/

section
variable {past : History} {x : State × Move} {g : Nat} {id : String}

theorem enlistments_of_none (past : History) (hx : enlistment? x = none) : enlistments (past ++ [x]) = enlistments past := by
  rw [enlistments, List.filterMap_append, List.filterMap_cons_none hx, List.filterMap_nil, List.append_nil]
  rfl

theorem mem_enlistments_of_some (past : History) {e : Enlistment} (hx : enlistment? x = some e) (e' : Enlistment) :
    e' ∈ enlistments (past ++ [x]) ↔ e' ∈ enlistments past ∨ e' = e := by
  rw [enlistments, List.filterMap_append, List.filterMap_cons_some hx, List.filterMap_nil, List.mem_append,
    List.mem_singleton]
  rfl

theorem reports_of_none (hx : report? g id x = none) : reports (past ++ [x]) g id = reports past g id := by
  rw [reports, List.filterMap_append, List.filterMap_cons_none hx, List.filterMap_nil, List.append_nil]
  rfl

theorem reports_of_some {payload : Json} (hx : report? g id x = some payload) :
    reports (past ++ [x]) g id = reports past g id ++ [payload] := by
  rw [reports, List.filterMap_append, List.filterMap_cons_some hx, List.filterMap_nil]
  rfl

theorem mem_takenUp_append {event : Worker.Event} (hevent : event ∈ takenUp past g) (x : State × Move) :
    event ∈ takenUp (past ++ [x]) g := by
  rw [takenUp, List.filterMap_append]
  exact List.mem_append_left _ hevent

theorem mem_takenUp_last {event : Worker.Event} (hevent : takenUp? g x = some event) :
    event ∈ takenUp (past ++ [x]) g := by
  rw [takenUp, List.filterMap_append, List.filterMap_cons_some hevent]
  exact List.mem_append_right _ List.mem_cons_self

theorem Cause.mono {e : Enlistment} {reply : Reply} (h : Cause past e reply) (x : State × Move) :
    Cause (past ++ [x]) e reply := by
  cases h with
  | response r hr hid hterminal => exact .response r (mem_takenUp_append hr x) hid hterminal
  | fault message hfault => exact .fault message (mem_takenUp_append hfault x)
  | leave s hmove hexhausted => exact .leave s (List.mem_append_left _ hmove) hexhausted
  | terminate s hmove hcurrent => exact .terminate s (List.mem_append_left _ hmove) hcurrent
  | withdraw s error hmove hid => exact .withdraw s error (List.mem_append_left _ hmove) hid

end

theorem idOf_injective {n m : Nat} (h : idOf n = idOf m) : n = m := by
  have hlist : (toString n).toList = (toString m).toList := by
    have hall := congrArg String.toList h
    simpa [idOf] using hall
  have hdigits : Nat.toDigits 10 n = Nat.toDigits 10 m := by
    rwa [Nat.toString_eq_repr, Nat.toString_eq_repr, Nat.toList_repr, Nat.toList_repr] at hlist
  rw [← Nat.ofDigitChars_ten_toDigits (n := n), hdigits, Nat.ofDigitChars_ten_toDigits]

/-! ### The invariant -/

/-- What holds of requests and replies at any time. -/
structure Owned (past : History) (c : Client) : Prop where
  /-- Requests that were put into tables have handles, workers, and the ids of their handles. -/
  enlisted : ∀ e ∈ enlistments past,
    e.handle < c.handles.length ∧ e.generation < c.generations.length ∧ e.id = idOf (e.handle + 1)
  /-- A handle belongs to one request. -/
  unique : ∀ e ∈ enlistments past, ∀ e' ∈ enlistments past, e.handle = e'.handle → e = e'
  /-- Entries are requests that were put into this table. -/
  entries : ∀ g id entry, c.pending? g id = some entry →
    ∃ listening, ⟨entry.handle, g, id, listening⟩ ∈ enlistments past
  /-- The handles of entries are open. -/
  awaited : ∀ g id entry, c.pending? g id = some entry →
    ∃ x, c.handles[entry.handle]? = some x ∧ x.hungUp = false
  /-- Open handles have entries. -/
  waiting : ∀ (h : Nat) (x : Handle), c.handles[h]? = some x → x.hungUp = false →
    ∃ g id entry, c.pending? g id = some entry ∧ entry.handle = h
  /-- A handle has at most one reply, and none while it is open. -/
  replied : ∀ (h : Nat) (x : Handle), c.handles[h]? = some x →
    x.replies.length ≤ 1 ∧ (x.hungUp = false → x.replies = [])
  /-- Every reply has a cause. -/
  causes : ∀ e ∈ enlistments past, ∀ x : Handle, c.handles[e.handle]? = some x →
    ∀ reply ∈ x.replies, Cause past e reply
  /-- A request that never was in a table is answered with an error. -/
  refused : ∀ (h : Nat) (x : Handle), c.handles[h]? = some x → (∀ e ∈ enlistments past, e.handle ≠ h) →
    ∃ error, x.replies = [.failed error]

theorem owned_new : Owned [] ({} : Client) where
  enlisted := fun _ he => nomatch he
  unique := fun _ he => nomatch he
  entries := fun _ _ _ hentry => nomatch hentry
  awaited := fun _ _ _ hentry => nomatch hentry
  waiting := fun _ _ hx => nomatch hx
  replied := fun _ _ hx => nomatch hx
  causes := fun _ he => nomatch he
  refused := fun _ _ hx => nomatch hx

/-- What matters of a handle to those who reply. -/
def Handle.answer (x : Handle) : List Reply × Bool := (x.replies, x.hungUp)

namespace Owned
variable {past : History} {c c' : Client} {g : Nat} {id : String} {entry : Entry}

theorem eq_of_id_eq (howned : Owned past c) {e e' : Enlistment} (he : e ∈ enlistments past)
    (he' : e' ∈ enlistments past) (hid : e.id = e'.id) : e = e' := by
  have hn := (howned.enlisted e he).2.2
  have hm := (howned.enlisted e' he').2.2
  have hhandle : e.handle + 1 = e'.handle + 1 := idOf_injective (hn.symm.trans (hid.trans hm))
  exact howned.unique e he e' he' (Nat.succ.inj hhandle)

/-- No two entries have the same handle, in all tables together. -/
theorem distinct (howned : Owned past c) {g' : Nat} {id' : String} {entry' : Entry}
    (hentry : c.pending? g id = some entry) (hentry' : c.pending? g' id' = some entry')
    (hhandle : entry.handle = entry'.handle) : g = g' ∧ id = id' := by
  obtain ⟨_, he⟩ := howned.entries g id entry hentry
  obtain ⟨_, he'⟩ := howned.entries g' id' entry' hentry'
  have hsame := howned.unique _ he _ he' hhandle
  exact ⟨congrArg Enlistment.generation hsame, congrArg Enlistment.id hsame⟩

/-- Only the handles of the entries matter, and only what is sent to them. -/
theorem congr (howned : Owned past c) (hgenerations : c.generations.length ≤ c'.generations.length)
    (hentries : ∀ g id, (c'.pending? g id).map Entry.handle = (c.pending? g id).map Entry.handle)
    (hhandles : c'.handles.map Handle.answer = c.handles.map Handle.answer) : Owned past c' := by
  have hlength : c'.handles.length = c.handles.length := by simpa using congrArg List.length hhandles
  have hanswer : ∀ (h : Nat) (x : Handle), c'.handles[h]? = some x →
      ∃ y, c.handles[h]? = some y ∧ y.replies = x.replies ∧ y.hungUp = x.hungUp := by
    intro h x hx
    have hmap := congrArg (fun l => l[h]?) hhandles
    simp only [List.getElem?_map, hx, Option.map_some] at hmap
    obtain ⟨y, hy, heq⟩ := Option.map_eq_some_iff.mp hmap.symm
    exact ⟨y, hy, Prod.mk.inj heq⟩
  have hentry : ∀ g id entry, c'.pending? g id = some entry →
      ∃ entry', c.pending? g id = some entry' ∧ entry'.handle = entry.handle := by
    intro g id entry hentry
    have hmap := hentries g id
    rw [hentry] at hmap
    exact Option.map_eq_some_iff.mp hmap.symm
  constructor
  case enlisted =>
    intro e he
    obtain ⟨hhandle, hgeneration, hid⟩ := howned.enlisted e he
    exact ⟨hlength ▸ hhandle, Nat.lt_of_lt_of_le hgeneration hgenerations, hid⟩
  case unique => exact howned.unique
  case entries =>
    intro g id entry h
    obtain ⟨entry', h', hhandle⟩ := hentry g id entry h
    rw [← hhandle]
    exact howned.entries g id entry' h'
  case awaited =>
    intro g id entry h
    obtain ⟨entry', h', hhandle⟩ := hentry g id entry h
    obtain ⟨y, hy, hopen⟩ := howned.awaited g id entry' h'
    rw [hhandle] at hy
    have hlt : entry.handle < c'.handles.length := hlength ▸ (List.getElem?_eq_some_iff.mp hy).1
    have hx := List.getElem?_eq_getElem hlt
    obtain ⟨y', hy', -, hhungUp⟩ := hanswer _ _ hx
    obtain rfl := Option.some.inj (hy.symm.trans hy')
    exact ⟨_, hx, hhungUp.symm.trans hopen⟩
  case waiting =>
    intro h x hx hopen
    obtain ⟨y, hy, -, hhungUp⟩ := hanswer h x hx
    obtain ⟨g, id, entry, hpending, hhandle⟩ := howned.waiting h y hy (hhungUp.trans hopen)
    have hmap := hentries g id
    rw [hpending] at hmap
    obtain ⟨entry', hpending', hhandle'⟩ := Option.map_eq_some_iff.mp hmap
    exact ⟨g, id, entry', hpending', hhandle'.trans hhandle⟩
  case replied =>
    intro h x hx
    obtain ⟨y, hy, hreplies, hhungUp⟩ := hanswer h x hx
    have hy := howned.replied h y hy
    rwa [hreplies, hhungUp] at hy
  case causes =>
    intro e he x hx
    obtain ⟨y, hy, hreplies, -⟩ := hanswer e.handle x hx
    rw [← hreplies]
    exact howned.causes e he y hy
  case refused =>
    intro h x hx hnone
    obtain ⟨y, hy, hreplies, -⟩ := hanswer h x hx
    rw [← hreplies]
    exact howned.refused h y hy hnone

/-- What happens besides does not matter. -/
theorem extend (howned : Owned past c) {x : State × Move} (hx : enlistment? x = none) : Owned (past ++ [x]) c := by
  have henlistments := enlistments_of_none past hx
  constructor
  case enlisted => exact henlistments ▸ howned.enlisted
  case unique => exact henlistments ▸ howned.unique
  case entries => exact henlistments ▸ howned.entries
  case awaited => exact howned.awaited
  case waiting => exact howned.waiting
  case replied => exact howned.replied
  case causes =>
    intro e he y hy reply hreply
    rw [henlistments] at he
    exact (howned.causes e he y hy reply hreply).mono x
  case refused => exact henlistments ▸ howned.refused

/-! ### Replies -/

/-- Each handle of an entry that is taken out is changed once, and no other. -/
theorem handles_settle (howned : Owned past c) (g h : Nat) (ids : String → Bool) (f : Handle → Handle) :
    (∀ x, WaitsIn c g h ids → c.handles[h]? = some x → (c.settle g ids f).handles[h]? = some (f x)) ∧
      (¬ WaitsIn c g h ids → (c.settle g ids f).handles[h]? = c.handles[h]?) :=
  c.handles_settle g h ids f fun _ _ _ _ hentry hentry' hhandle => (howned.distinct hentry hentry' hhandle).2

/-- Every handle is as before, or it was open and its entry is taken out. -/
theorem handles_settle_cases (howned : Owned past c) {ids : String → Bool} {f : Handle → Handle} {h : Nat} {x : Handle}
    (hx : (c.settle g ids f).handles[h]? = some x) :
    (¬ WaitsIn c g h ids ∧ c.handles[h]? = some x) ∨
      ∃ id entry y, c.pending? g id = some entry ∧ ids id = true ∧ entry.handle = h ∧ c.handles[h]? = some y ∧
        y.hungUp = false ∧ x = f y := by
  have hspec := howned.handles_settle g h ids f
  by_cases hwaits : WaitsIn c g h ids
  · obtain ⟨id, entry, hentry, hid, rfl⟩ := hwaits
    obtain ⟨y, hy, hopen⟩ := howned.awaited g id entry hentry
    have hnew := hspec.1 y ⟨id, entry, hentry, hid, rfl⟩ hy
    exact .inr ⟨id, entry, y, hentry, hid, rfl, hy, hopen, Option.some.inj (hx.symm.trans hnew)⟩
  · exact .inl ⟨hwaits, (hspec.2 hwaits).symm.trans hx⟩

/-- Whoever takes entries out of a table closes their handles, with a reply or without. -/
theorem settle (howned : Owned past c) {ids : String → Bool} {f : Handle → Handle} {replies : List Reply}
    (hreplies : ∀ x, (f x).replies = x.replies ++ replies) (hclosed : ∀ x, (f x).hungUp = true)
    (hone : replies.length ≤ 1)
    (hcause : ∀ e ∈ enlistments past, e.generation = g → ids e.id = true → ∀ reply ∈ replies, Cause past e reply) :
    Owned past (c.settle g ids f) := by
  constructor
  case enlisted =>
    intro e he
    rw [length_handles_settle, length_generations_settle]
    exact howned.enlisted e he
  case unique => exact howned.unique
  case entries =>
    intro g' id entry hentry
    rw [pending?_settle] at hentry
    split at hentry
    · cases hentry
    · exact howned.entries g' id entry hentry
  case awaited =>
    intro g' id entry hentry
    rw [pending?_settle] at hentry
    split at hentry
    · cases hentry
    rename_i hkept
    obtain ⟨y, hy, hopen⟩ := howned.awaited g' id entry hentry
    refine ⟨y, ((howned.handles_settle g entry.handle ids f).2 ?_).trans hy, hopen⟩
    rintro ⟨id', entry', hentry', hid', hhandle⟩
    obtain ⟨rfl, rfl⟩ := howned.distinct hentry' hentry hhandle
    exact hkept ⟨rfl, hid'⟩
  case waiting =>
    intro h x hx hopen
    rcases howned.handles_settle_cases hx with ⟨hwaits, hx⟩ | ⟨_, _, y, -, -, -, -, -, rfl⟩
    · obtain ⟨g', id, entry, hentry, hhandle⟩ := howned.waiting h x hx hopen
      refine ⟨g', id, entry, ?_, hhandle⟩
      rw [pending?_settle, if_neg ?_]
      · exact hentry
      rintro ⟨rfl, hid⟩
      exact hwaits ⟨id, entry, hentry, hid, hhandle⟩
    · exact absurd ((hclosed y).symm.trans hopen) (by decide)
  case replied =>
    intro h x hx
    rcases howned.handles_settle_cases hx with ⟨-, hx⟩ | ⟨_, _, y, -, -, -, hy, hopen, rfl⟩
    · exact howned.replied h x hx
    · rw [hreplies, (howned.replied h y hy).2 hopen, hclosed]
      exact ⟨hone, fun hfalse => nomatch hfalse⟩
  case causes =>
    intro e he x hx
    rcases howned.handles_settle_cases hx with ⟨-, hx⟩ | ⟨id, entry, y, hentry, hid, hhandle, hy, hopen, rfl⟩
    · exact howned.causes e he x hx
    · rw [hreplies, (howned.replied e.handle y hy).2 hopen]
      obtain ⟨_, he'⟩ := howned.entries g id entry hentry
      obtain rfl := howned.unique _ he' e he hhandle
      exact hcause _ he rfl hid
  case refused =>
    intro h x hx hnone
    rcases howned.handles_settle_cases hx with ⟨-, hx⟩ | ⟨id, entry, _, hentry, -, hhandle, -⟩
    · exact howned.refused h x hx hnone
    · obtain ⟨_, he⟩ := howned.entries g id entry hentry
      exact absurd hhandle (hnone _ he)

theorem receive (howned : Owned past c) {ids : String → Bool} {reply : Reply}
    (hcause : ∀ e ∈ enlistments past, e.generation = g → ids e.id = true → Cause past e reply) :
    Owned past (c.settle g ids (Handle.receive reply)) := by
  refine howned.settle (fun _ => rfl) (fun _ => rfl) (Nat.le_refl 1) fun e he hg hid r hr => ?_
  obtain rfl := List.mem_singleton.mp hr
  exact hcause e he hg hid

theorem abandonAll (howned : Owned past c) (g : Nat) : Owned past (c.abandonAll g) :=
  howned.settle (fun x => (List.append_nil x.replies).symm) (fun _ => rfl) (Nat.zero_le 1) fun _ _ _ _ _ hr => nomatch hr

/-! ### New handles -/

/-- A handle for which no worker could be started is closed from the beginning. -/
theorem refuse (howned : Owned past c) (error : Error) : Owned past (c.refuse error) := by
  have hcases : ∀ (h : Nat) (x : Handle), (c.refuse error).handles[h]? = some x →
      h = c.handles.length ∧ x = Handle.receive (.failed error) {} ∨ c.handles[h]? = some x := by
    intro h x hx
    rw [handles_refuse] at hx
    split at hx
    · rename_i hlast
      exact .inl ⟨hlast, (Option.some.inj hx).symm⟩
    · exact .inr hx
  constructor
  case enlisted =>
    intro e he
    obtain ⟨hhandle, hrest⟩ := howned.enlisted e he
    rw [Client.refuse, List.length_append]
    exact ⟨Nat.lt_succ_of_lt hhandle, hrest⟩
  case unique => exact howned.unique
  case entries => exact howned.entries
  case awaited =>
    intro g id entry hentry
    obtain ⟨y, hy, hopen⟩ := howned.awaited g id entry hentry
    refine ⟨y, ?_, hopen⟩
    rw [handles_refuse, if_neg (Nat.ne_of_lt (List.getElem?_eq_some_iff.mp hy).1)]
    exact hy
  case waiting =>
    intro h x hx hopen
    rcases hcases h x hx with ⟨-, rfl⟩ | hx
    · cases hopen
    · exact howned.waiting h x hx hopen
  case replied =>
    intro h x hx
    rcases hcases h x hx with ⟨-, rfl⟩ | hx
    · exact ⟨Nat.le_refl 1, fun hfalse => nomatch hfalse⟩
    · exact howned.replied h x hx
  case causes =>
    intro e he x hx
    rcases hcases e.handle x hx with ⟨hhandle, -⟩ | hx
    · exact absurd hhandle (Nat.ne_of_lt (howned.enlisted e he).1)
    · exact howned.causes e he x hx
  case refused =>
    intro h x hx hnone
    rcases hcases h x hx with ⟨-, rfl⟩ | hx
    · exact ⟨error, rfl⟩
    · exact howned.refused h x hx hnone

theorem id_ne_next (howned : Owned past c) {e : Enlistment} (he : e ∈ enlistments past) :
    e.id ≠ idOf (c.handles.length + 1) := by
  intro hid
  obtain ⟨hhandle, -, hown⟩ := howned.enlisted e he
  have hsame : e.handle + 1 = c.handles.length + 1 := idOf_injective (hown.symm.trans hid)
  omega

/-- The id of the next request is not in any table. -/
theorem pending?_next (howned : Owned past c) (g : Nat) : c.pending? g (idOf (c.handles.length + 1)) = none := by
  cases hentry : c.pending? g (idOf (c.handles.length + 1)) with
  | none => rfl
  | some entry =>
    obtain ⟨_, he⟩ := howned.entries g _ entry hentry
    exact absurd rfl (howned.id_ne_next he)

theorem enlist (howned : Owned past c) {listening : Bool} {x : State × Move}
    (hcurrent : c.current? = some g) (hlt : g < c.generations.length)
    (hid : c.lastId = idOf (c.handles.length + 1))
    (hx : enlistment? x = some ⟨c.handles.length, g, c.lastId, listening⟩) :
    Owned (past ++ [x]) (c.enlist listening) := by
  have hmem := mem_enlistments_of_some past hx
  have hpending := fun g' id => c.pending?_enlist g g' id listening hcurrent hlt
  have hhandles := fun h => c.handles_enlist g h listening hcurrent
  have hlength : (c.enlist listening).handles.length = c.handles.length + 1 := by
    rw [Client.enlist, hcurrent]
    exact List.length_append
  have hgenerations : (c.enlist listening).generations.length = c.generations.length := by
    rw [Client.enlist, hcurrent]
    exact c.length_modifyGeneration g _
  have hbefore : ∀ e ∈ enlistments past, e.handle ≠ c.handles.length := fun e he =>
    Nat.ne_of_lt (howned.enlisted e he).1
  constructor
  case enlisted =>
    intro e he
    rw [hlength, hgenerations]
    rcases (hmem e).mp he with he | rfl
    · obtain ⟨hhandle, hrest⟩ := howned.enlisted e he
      exact ⟨Nat.lt_succ_of_lt hhandle, hrest⟩
    · exact ⟨Nat.lt_succ_self _, hlt, hid⟩
  case unique =>
    intro e he e' he' hhandle
    rcases (hmem e).mp he with he | rfl <;> rcases (hmem e').mp he' with he' | rfl
    · exact howned.unique e he e' he' hhandle
    · exact absurd hhandle (hbefore e he)
    · exact absurd hhandle.symm (hbefore e' he')
    · rfl
  case entries =>
    intro g' id entry hentry
    rw [hpending] at hentry
    split at hentry
    · rename_i hhere
      obtain ⟨rfl, rfl⟩ := hhere
      obtain rfl := Option.some.inj hentry
      exact ⟨listening, (hmem _).mpr (.inr rfl)⟩
    · obtain ⟨listening', he⟩ := howned.entries g' id entry hentry
      exact ⟨listening', (hmem _).mpr (.inl he)⟩
  case awaited =>
    intro g' id entry hentry
    rw [hpending] at hentry
    split at hentry
    · obtain rfl := Option.some.inj hentry
      exact ⟨{}, by rw [hhandles, if_pos rfl], rfl⟩
    · obtain ⟨y, hy, hopen⟩ := howned.awaited g' id entry hentry
      refine ⟨y, ?_, hopen⟩
      rw [hhandles, if_neg (Nat.ne_of_lt (List.getElem?_eq_some_iff.mp hy).1)]
      exact hy
  case waiting =>
    intro h y hy hopen
    rw [hhandles] at hy
    split at hy
    · rename_i hlast
      refine ⟨g, c.lastId, ⟨c.handles.length, listening⟩, ?_, hlast.symm⟩
      rw [hpending, if_pos ⟨rfl, rfl⟩]
    · obtain ⟨g', id, entry, hentry, hhandle⟩ := howned.waiting h y hy hopen
      refine ⟨g', id, entry, ?_, hhandle⟩
      rw [hpending, if_neg ?_]
      · exact hentry
      rintro ⟨rfl, rfl⟩
      rw [hid, howned.pending?_next] at hentry
      cases hentry
  case replied =>
    intro h y hy
    rw [hhandles] at hy
    split at hy
    · obtain rfl := Option.some.inj hy
      exact ⟨Nat.zero_le 1, fun _ => rfl⟩
    · exact howned.replied h y hy
  case causes =>
    intro e he y hy reply hreply
    rw [hhandles] at hy
    rcases (hmem e).mp he with he | rfl
    · rw [if_neg (hbefore e he)] at hy
      exact (howned.causes e he y hy reply hreply).mono x
    · rw [if_pos rfl] at hy
      obtain rfl := Option.some.inj hy
      cases hreply
  case refused =>
    intro h y hy hnone
    rw [hhandles] at hy
    split at hy
    · rename_i hlast
      exact absurd hlast.symm (hnone _ ((hmem _).mpr (.inr rfl)))
    · exact howned.refused h y hy fun e he => hnone e ((hmem e).mpr (.inl he))

end Owned

end Calculator.Client
