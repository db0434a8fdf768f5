import Calculator.Proofs.Client.Serving
/-! Evaluating on a worker is evaluating directly: what the holder of a handle gets is the outcome of the evaluation. -/
namespace Calculator.Client

/-- The handle has one reply, and this is what its holder makes of it. -/
def Settles {ρ : Type} [Wire ρ] (c : Client) (h : Nat) (outcome : Except Error ρ) : Prop :=
  ∃ reply, c.Replied h reply ∧ reply.settle = outcome

/-- The outcome of an evaluation, as a client tells it: a failure by its wording and its code. -/
def outcomeOf (request : Evaluation.Request) : Except Error Evaluation.Result :=
  request.run.mapError fun error => .worker ⟨error.message, error.code?⟩

/-- A delivered answer is what the handle of its request gets. -/
theorem Run.replied_of_emission {past : History} {s : State} {e : Enlistment} {r : Response} {outcome : Worker.Outcome}
    (hrun : Run past s) (he : e ∈ enlistments past) (hr : r ∈ (Worker.emissionOf e.id outcome).responses)
    (hterminal : r.isTerminal = true) (hdelivered : Delivered past e r) :
    s.client.Replied e.handle (.ofResponse (Worker.answer e.id outcome.result)) := by
  obtain rfl := Worker.eq_answer_of_isTerminal hr hterminal
  exact hrun.replied_of_delivered he (Worker.id_answer _ _) hterminal hdelivered

/-- In every run: if the worker's answer to a request is delivered while the request waits, the handle of an evaluation
settles with the outcome of evaluating directly, and that of a batch with the batch's result. In a session whose worker
is ready, the answer is delivered, and so every evaluation and every batch settles its handle in this way. -/
theorem offloads_evaluation (service : MatrixService) {options : Evaluation.Options} (hsendable : options.Sendable) :
    (∀ past s e r, Run past s → e ∈ enlistments past → r.isTerminal = true → Delivered past e r →
      (∀ expression, r ∈ (Worker.handle service
          ⟨e.id, .evaluate, encode (Evaluation.Request.mk expression options)⟩).responses →
        s.client.Settles e.handle (outcomeOf ⟨expression, options⟩)) ∧
      (∀ expressions, r ∈ (Worker.handle service
          ⟨e.id, .batch, encode (Batch.Request.mk expressions options)⟩).responses →
        s.client.Settles e.handle (.ok (Batch.Request.mk expressions options).run))) ∧
    (∀ (s : Session) create wantsProgress, Reachable ⟨s.client, .idle⟩ → s.Ready create service →
      (∀ expression, (s.evaluate create ⟨expression, options⟩ wantsProgress).client.Settles s.client.handles.length
        (outcomeOf ⟨expression, options⟩)) ∧
      (∀ expressions, (s.batch create ⟨expressions, options⟩ wantsProgress).client.Settles s.client.handles.length
        (.ok (Batch.Request.mk expressions options).run))) := by
  constructor
  · intro past s e r hrun he hterminal hdelivered
    constructor
    · intro expression hr
      rw [Worker.handle_evaluate service e.id hsendable] at hr
      exact ⟨_, hrun.replied_of_emission he hr hterminal hdelivered, Reply.settle_evaluate e.id _⟩
    · intro expressions hr
      rw [Worker.handle_batch service e.id hsendable] at hr
      exact ⟨_, hrun.replied_of_emission he hr hterminal hdelivered, Reply.settle_batch e.id _⟩
  · intro s create wantsProgress hreachable hready
    constructor
    · intro expression
      obtain ⟨id, hreplied⟩ := hready.replied hreachable wantsProgress fun id =>
        Worker.handle_evaluate service id hsendable expression
      exact ⟨_, hreplied, Reply.settle_evaluate id _⟩
    · intro expressions
      obtain ⟨id, hreplied⟩ := hready.replied hreachable wantsProgress fun id =>
        Worker.handle_batch service id hsendable expressions
      exact ⟨_, hreplied, Reply.settle_batch id _⟩

theorem outcomeOf_division_by_zero :
    outcomeOf ⟨"1/0", { precise := true }⟩ = .error (.worker ⟨"Division by zero", some .divisionByZero⟩) := by
  have hfails : ((Evaluation.Request.mk "1/0" { precise := true }).run.map fun _ => ()).mapError
      (fun error => (error.message, error.code?)) = .error ("Division by zero", some .divisionByZero) := by
    decide +kernel
  unfold outcomeOf
  cases hrun : (Evaluation.Request.mk "1/0" { precise := true }).run with
  | ok result => rw [hrun] at hfails; cases hfails
  | error error =>
    rw [hrun] at hfails
    obtain ⟨hmessage, hcode⟩ := Prod.mk.inj (Except.error.inj hfails)
    rw [Except.mapError, hmessage, hcode]

/-- A division by zero on a fresh worker, whichever way its answer is delivered. -/
theorem offloads_division_by_zero :
    let failure : Except Error Evaluation.Result := .error (.worker ⟨"Division by zero", some .divisionByZero⟩)
    (∃ past s, Run past s ∧ s.client.Settles 0 failure) ∧
      (Session.evaluate {} (.ok (.worker .dense)) ⟨"1/0", { precise := true }⟩ false).client.Settles 0 failure := by
  intro failure
  have hsendable : Evaluation.Options.Sendable { precise := true } := ⟨by decide, fun _ hvalues => nomatch hvalues⟩
  have hoffloads := offloads_evaluation .dense hsendable
  have houtcome : outcomeOf ⟨"1/0", { precise := true }⟩ = failure := outcomeOf_division_by_zero
  rw [← houtcome]
  constructor
  · obtain ⟨r, hr⟩ : ∃ r, r = Worker.answer "req_1" (Worker.evaluate ⟨"1/0", { precise := true }⟩).result := ⟨_, rfl⟩
    have hterminal : r.isTerminal = true := by rw [hr, Worker.isTerminal_answer]
    have hanswers : r ∈ (Worker.handle .dense
        ⟨"req_1", .evaluate, encode (Evaluation.Request.mk "1/0" { precise := true })⟩).responses := by
      rw [Worker.handle_evaluate .dense "req_1" hsendable, Worker.responses_emissionOf, hr]
      exact List.mem_append_right _ (List.mem_singleton.mpr rfl)
    have hrun := (((((Run.new.step (.renew _)).step (.start rfl)).step (.enlist false rfl)).step (.post _)).step
      (.receive _ _ 0 (.message r))).step (.route _ _ 0)
    have hdelivered := hoffloads.1 _ _ ⟨0, 0, "req_1", false⟩ r hrun (List.mem_singleton.mpr rfl) hterminal
      (delivered_last _ rfl rfl)
    exact ⟨_, _, hrun, hdelivered.1 "1/0" hanswers⟩
  · have hready : Session.Ready {} (.ok (.worker .dense)) .dense := ⟨fun _ => ⟨rfl, rfl⟩, fun hkept => nomatch hkept⟩
    exact (hoffloads.2 {} _ false Session.reachable_new hready).1 "1/0"

end Calculator.Client
