import Calculator.Proofs.Client.Routing
/-! A reply that was sent to a handle stays, and a response settles the request that it finds waiting for good. -/
namespace Calculator.Client

/-- Every handle is still there, with the replies that it had. -/
def KeepsReplies (c c' : Client) : Prop :=
  ∀ (h : Nat) (x : Handle), c.handles[h]? = some x → ∃ x', c'.handles[h]? = some x' ∧ x.replies <+: x'.replies

namespace KeepsReplies
variable {c c' c'' : Client}

theorem refl (c : Client) : KeepsReplies c c := fun _ x hx => ⟨x, hx, List.prefix_refl _⟩

theorem trans (hkeeps : KeepsReplies c c') (hkeeps' : KeepsReplies c' c'') : KeepsReplies c c'' := by
  intro h x hx
  obtain ⟨x', hx', hgrown⟩ := hkeeps h x hx
  obtain ⟨x'', hx'', hgrown'⟩ := hkeeps' h x' hx'
  exact ⟨x'', hx'', hgrown.trans hgrown'⟩

theorem of_handles (hhandles : c'.handles = c.handles) : KeepsReplies c c' :=
  fun _ x hx => ⟨x, hhandles ▸ hx, List.prefix_refl _⟩

theorem append (c : Client) {handles : List Handle} (hhandles : c'.handles = c.handles ++ handles) :
    KeepsReplies c c' := by
  intro h x hx
  refine ⟨x, ?_, List.prefix_refl _⟩
  rw [hhandles, List.getElem?_append_left (List.getElem?_eq_some_iff.mp hx).1]
  exact hx

section
variable {f : Handle → Handle} (hf : ∀ x, x.replies <+: (f x).replies)
include hf

theorem modifyHandle (c : Client) (h : Nat) : KeepsReplies c (c.modifyHandle h f) := by
  intro h' x hx
  rw [handles_modifyHandle]
  split
  · exact ⟨f x, by rw [hx, Option.map_some], hf x⟩
  · exact ⟨x, hx, List.prefix_refl _⟩

theorem modifyHandles (c : Client) (entries : List (String × Entry)) : KeepsReplies c (c.modifyHandles f entries) := by
  induction entries generalizing c with
  | nil => exact refl c
  | cons e entries ih => exact (modifyHandle hf c e.2.handle).trans (ih _)

theorem settle (c : Client) (g : Nat) (ids : String → Bool) : KeepsReplies c (c.settle g ids f) := by
  cases hgeneration : c.generations[g]? with
  | none =>
    rw [c.settle_of_none g ids f hgeneration]
    exact refl c
  | some generation =>
    rw [c.settle_eq g ids f hgeneration]
    have htable : KeepsReplies c (c.modifyGeneration g fun generation =>
        { generation with pending := generation.pending.filter fun id => !ids id }) := of_handles rfl
    exact htable.trans (modifyHandles hf _ _)

end

theorem receive (c : Client) (g : Nat) (ids : String → Bool) (reply : Reply) :
    KeepsReplies c (c.settle g ids (Handle.receive reply)) :=
  settle (fun x => List.prefix_append x.replies [reply]) c g ids

theorem rejectAll (c : Client) (g : Nat) (error : Error) : KeepsReplies c (c.rejectAll g error) :=
  receive c g _ _

theorem abandonAll (c : Client) (g : Nat) : KeepsReplies c (c.abandonAll g) :=
  settle (f := Handle.abandon) (fun x => List.prefix_refl x.replies) c g _

theorem letGo (c : Client) : KeepsReplies c c.letGo := by
  unfold Client.letGo
  split
  · have hfree : KeepsReplies c { c with current? := none } := of_handles rfl
    dsimp only
    split
    · exact hfree.trans (abandonAll _ _)
    · exact hfree
  · exact refl c

end KeepsReplies

theorem Routed.keepsReplies {c c' : Client} {g : Nat} (hrouted : Routed c g c') : KeepsReplies c c' := by
  cases hrouted with
  | idle => exact .refl c
  | fault | ignore | report | restore | mark => exact .of_handles rfl
  | @respond _ r rest => exact (KeepsReplies.of_handles rfl).trans (.receive (c.setInbox g rest) g _ _)
  | @call id handle payload =>
    have hcall := KeepsReplies.modifyHandle (f := fun h => { h with progress := h.progress ++ [payload] })
      (fun x => List.prefix_refl x.replies) c handle
    exact hcall.trans (.of_handles rfl)
  | reject | leave => exact (KeepsReplies.rejectAll c g _).trans (.of_handles rfl)
  | finish =>
    have hended : KeepsReplies c (c.setPhase g .ended) := .of_handles rfl
    unfold Client.finish
    dsimp only
    split
    · exact hended
    · exact hended.trans (.abandonAll _ g)

/-- No step takes a reply back. -/
theorem Step.keepsReplies {s s' : State} {m : Move} (hstep : Step s m s') : KeepsReplies s.client s'.client := by
  cases hstep with
  | renew c =>
    have hcounted : KeepsReplies c { c with dispatched := c.dispatched + 1 } := .of_handles rfl
    dsimp only [Client.renew]
    split
    · exact hcounted.trans (.letGo _)
    · exact hcounted
  | start | post | receive | close => exact .of_handles rfl
  | @refuse c error => exact .append c rfl
  | @enlist c listening hneeds =>
    obtain ⟨g, hcurrent⟩ := current_of_needsWorker hneeds
    dsimp only [Client.enlist]
    rw [hcurrent]
    exact .append c rfl
  | withdraw c error =>
    dsimp only [Client.withdraw]
    split
    · exact .refl c
    · exact .receive c _ _ _
  | terminate c =>
    dsimp only [Client.terminate]
    split
    · exact (KeepsReplies.rejectAll c _ _).trans (.letGo _)
    · exact .refl c
  | route c stage g => exact (c.routed g).keepsReplies
  | look c stage h =>
    dsimp only [Client.look]
    split
    · exact .refl c
    · split
      · exact .modifyHandle (f := fun x => { x with taken := x.taken + 1 }) (fun x => List.prefix_refl x.replies) c h
      · exact .refl c

/-- One reply was sent to the handle, and this is it. -/
def Replied (c : Client) (h : Nat) (reply : Reply) : Prop :=
  ∃ x, c.handles[h]? = some x ∧ x.replies = [reply]

theorem Replied.step {past : History} {s s' : State} {m : Move} {h : Nat} {reply : Reply}
    (hreplied : s.client.Replied h reply) (hrun : Run past s) (hstep : Step s m s') : s'.client.Replied h reply := by
  obtain ⟨x, hx, hreplies⟩ := hreplied
  obtain ⟨x', hx', hgrown⟩ := hstep.keepsReplies h x hx
  have hone := ((hrun.step hstep).inv.owned.replied h x' hx').1
  rw [hreplies] at hgrown
  exact ⟨x', hx', (hgrown.eq_of_length_le hone).symm⟩

/-- A request that waits has one reply, once it is taken out of its table with one. -/
theorem Owned.replied_settle {past : History} {c : Client} {g : Nat} {id : String} {entry : Entry}
    (howned : Owned past c) (hentry : c.pending? g id = some entry) (ids : String → Bool) (hid : ids id = true)
    (reply : Reply) :
    (c.settle g ids (Handle.receive reply)).Replied entry.handle reply := by
  obtain ⟨x, hx, hopen⟩ := howned.awaited g id entry hentry
  have hnone := (howned.replied entry.handle x hx).2 hopen
  have hsettled := howned.handles_settle g entry.handle ids (Handle.receive reply)
  refine ⟨_, hsettled.1 x ⟨id, entry, hentry, hid, rfl⟩ hx, ?_⟩
  rw [Handle.receive, hnone]
  rfl

/-- A response that a router takes up is the reply to the request that waits for it. -/
theorem Routed.replied {past : History} {c c' : Client} {g : Nat} {r : Response} {entry : Entry}
    (hrouted : Routed c g c') (hinv : Inv past c) (hnext : c.nextEvent? g = some (.message r))
    (hterminal : r.isTerminal = true) (hentry : c.pending? g r.id = some entry) :
    c'.Replied entry.handle (.ofResponse r) := by
  obtain ⟨rest, ⟨-, rfl⟩ | ⟨_, hprogress, -⟩ | ⟨hprogress, -⟩⟩ := hrouted.of_message hnext
  · have hstill : (c.setInbox g rest).pending? g r.id = some entry := (c.pending?_setInbox g g r.id rest).trans hentry
    exact (hinv.setInbox g rest).owned.replied_settle hstill (· == r.id) (beq_self_eq_true r.id) _
  · cases hprogress.symm.trans hterminal
  · cases hprogress.symm.trans hterminal

/-- A response that was taken up while a request waited for it is the reply to that request from then on. -/
theorem Run.replied_of_pending {past : History} {s t : State} {g : Nat} {r : Response} {entry : Entry}
    (hrun : Run past s) (hmem : (t, .route g) ∈ past) (hnext : t.client.nextEvent? g = some (.message r))
    (hterminal : r.isTerminal = true) (hentry : t.client.pending? g r.id = some entry) :
    s.client.Replied entry.handle (.ofResponse r) := by
  induction hrun with
  | new => cases hmem
  | @step past s s' m hpast hstep ih =>
    rcases List.mem_append.mp hmem with hmem | hlast
    · exact (ih hmem).step hpast hstep
    · obtain ⟨rfl, rfl⟩ := Prod.mk.inj (List.mem_singleton.mp hlast)
      cases hstep with
      | route c stage => exact (c.routed g).replied hpast.inv hnext hterminal hentry

/-- The router of the request's worker has taken the response up while the request waited for it. -/
def Delivered (past : History) (e : Enlistment) (r : Response) : Prop :=
  ∃ t : State, (t, .route e.generation) ∈ past ∧ t.client.nextEvent? e.generation = some (.message r) ∧
    (t.client.pending? e.generation e.id).isSome = true

theorem delivered_last (past : History) {s : State} {e : Enlistment} {r : Response}
    (hnext : s.client.nextEvent? e.generation = some (.message r))
    (hwaits : (s.client.pending? e.generation e.id).isSome = true) :
    Delivered (past ++ [(s, .route e.generation)]) e r :=
  ⟨s, List.mem_append_right _ List.mem_cons_self, hnext, hwaits⟩

/-- A delivered response is the reply to its request. -/
theorem Run.replied_of_delivered {past : History} {s : State} (hrun : Run past s) {e : Enlistment}
    (he : e ∈ enlistments past) {r : Response} (hid : r.id = e.id) (hterminal : r.isTerminal = true)
    (hdelivered : Delivered past e r) : s.client.Replied e.handle (.ofResponse r) := by
  obtain ⟨t, hmem, hnext, hwaits⟩ := hdelivered
  obtain ⟨entry, hentry⟩ := Option.isSome_iff_exists.mp hwaits
  have hhandle : entry.handle = e.handle := by
    obtain ⟨before, _, hbefore, -⟩ := hrun.of_mem hmem
    obtain ⟨_, he'⟩ := hbefore.inv.owned.entries _ _ _ hentry
    have hentryId : e.id = idOf (entry.handle + 1) := (hbefore.inv.owned.enlisted _ he').2.2
    exact Nat.succ.inj (idOf_injective (hentryId.symm.trans (hrun.inv.owned.enlisted e he).2.2))
  rw [← hid] at hentry
  rw [← hhandle]
  exact hrun.replied_of_pending hmem hnext hterminal hentry

end Calculator.Client
