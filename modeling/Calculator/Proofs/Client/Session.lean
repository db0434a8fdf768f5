import Calculator.Client.Run
import Calculator.Client.Session
/-! A session takes only steps that a client among its workers can take, so what holds in every run holds of it. -/
namespace Calculator.Client

/-- Some run leads to the state. -/
def Reachable (s : State) : Prop := ∃ past, Run past s

namespace Reachable
variable {c : Client} {stage : Stage}

theorem step {s s' : State} {m : Move} (h : Reachable s) (hstep : Step s m s') : Reachable s' := by
  obtain ⟨past, hrun⟩ := h
  exact ⟨_, hrun.step hstep⟩

theorem routes (h : Reachable ⟨c, stage⟩) (g n : Nat) : Reachable ⟨n.fold (fun _ _ c => c.route g) c, stage⟩ := by
  induction n with
  | zero => exact h
  | succ n ih =>
    rw [Nat.fold_succ]
    exact ih.step (.route _ stage g)

theorem routeAll (h : Reachable ⟨c, stage⟩) (g : Nat) : Reachable ⟨c.routeAll g, stage⟩ := h.routes g _

theorem quiesce (h : Reachable ⟨c, stage⟩) : Reachable ⟨c.quiesce, stage⟩ := by
  unfold Client.quiesce
  generalize List.range c.generations.length = gs
  induction gs generalizing c with
  | nil => exact h
  | cons g gs ih => exact ih (h.routeAll g)

theorem receives (h : Reachable ⟨c, stage⟩) (g : Nat) (events : List Worker.Event) :
    Reachable ⟨events.foldl (fun c event => c.receive g event) c, stage⟩ := by
  induction events generalizing c with
  | nil => exact h
  | cons event events ih => exact ih (h.step (.receive c stage g event))

theorem closeIf (h : Reachable ⟨c, stage⟩) (g : Nat) (leaves : Bool) :
    Reachable ⟨if leaves = true then c.close g else c, stage⟩ := by
  cases leaves with
  | false => exact h
  | true => exact h.step (.close c stage g)

theorem renew (h : Reachable ⟨c, .idle⟩) : Reachable ⟨c.renew, .counted⟩ := h.step (.renew c)

/-- Posting a request, whatever the worker does with it. -/
theorem post {s : Session} {request : Request} (h : Reachable ⟨s.client, .posting⟩)
    (hid : request.id = s.client.lastId) : Reachable ⟨(s.post request).client, .idle⟩ := by
  unfold Session.post
  split
  · exact h.step (.post _)
  · rename_i g _
    dsimp only
    cases (s.posting g request).error? with
    | some error =>
      rw [hid]
      exact (h.step (.withdraw _ error)).closeIf g _
    | none => exact ((h.receives g _).step (.post _)).closeIf g _

end Reachable

namespace Session
variable {s : Session}

theorem reachable_dispatch (h : Reachable ⟨s.client, .idle⟩) (create : Except Error Mailbox) (kind : RequestKind)
    (payload : Json) (wantsProgress : Bool) :
    Reachable ⟨(s.dispatch create kind payload wantsProgress).client, .idle⟩ := by
  have hrenewed := h.renew
  have henlisted : ∀ t : Session, Reachable ⟨t.client, .counted⟩ → t.client.needsWorker = false →
      Reachable ⟨((⟨t.client.enlist wantsProgress, t.mailboxes⟩ : Session).post
        ⟨(t.client.enlist wantsProgress).lastId, kind, payload⟩).client.quiesce, .idle⟩ := by
    intro t ht hready
    exact ((ht.step (.enlist wantsProgress hready)).post rfl).quiesce
  unfold dispatch
  dsimp only
  cases hneeds : s.client.renew.needsWorker with
  | false => exact henlisted { s with client := s.client.renew } hrenewed hneeds
  | true =>
    cases create with
    | error error => exact hrenewed.step (.refuse error hneeds)
    | ok mailbox =>
      exact henlisted ⟨s.client.renew.start, s.mailboxes ++ [mailbox]⟩ (hrenewed.step (.start hneeds)) rfl

theorem reachable_terminate (h : Reachable ⟨s.client, .idle⟩) : Reachable ⟨s.terminate.client, .idle⟩ :=
  (h.step (.terminate _)).quiesce

theorem reachable_receive (h : Reachable ⟨s.client, .idle⟩) (g : Nat) (event : Worker.Event) :
    Reachable ⟨(s.receive g event).client, .idle⟩ :=
  (h.step (.receive _ _ g event)).quiesce

theorem reachable_close (h : Reachable ⟨s.client, .idle⟩) (g : Nat) : Reachable ⟨(s.close g).client, .idle⟩ :=
  (h.step (.close _ _ g)).quiesce

theorem reachable_new : Reachable ⟨({} : Session).client, .idle⟩ := ⟨[], .new⟩

end Session

end Calculator.Client
