import Calculator.Proofs.Wire.Graph
import Calculator.Proofs.Wire.Matrix
import Calculator.Proofs.Wire.Message
/-!
What is sent comes back: every value whose doubles are finite and whose counts have no more bits than they are given is
read back as it was sent. Members that may be absent are sent exactly if there is something to send.
-/
namespace Calculator.Wire

/-! ### Members that may be absent -/

theorem get?_variables_options (o : Evaluation.Options) : (encode o).get? "variables" = o.values.map encode := by
  unfold encode evaluationOptions
  dsimp only
  rw [get?_ofMembers, List.reverse_append]
  exact lookup_optionalMember _ rfl

theorem get?_variables_graph (r : Graph.Request) : (encode r).get? "variables" = r.values.map encode := by
  unfold encode graphRequest
  dsimp only
  rw [get?_ofMembers, List.reverse_append, List.reverse_append, lookup_optionalMember_of_ne _ (by decide)]
  exact lookup_optionalMember _ rfl

theorem get?_angleMode_graph (r : Graph.Request) : (encode r).get? "angleMode" = r.angle.map encode := by
  unfold encode graphRequest
  dsimp only
  rw [get?_ofMembers, List.reverse_append, List.reverse_append]
  exact lookup_optionalMember _ (lookup_optionalMember_of_ne _ (by decide))

theorem get?_constants (r : MatrixRequest) : (encode r).get? "constants" = r.constants.map encode := by
  unfold encode matrixRequest
  dsimp only
  rw [get?_ofMembers, List.reverse_append]
  exact lookup_optionalMember _ rfl

theorem get?_code (p : ErrorPayload) : (encode p).get? "code" = p.code.map encode := by
  unfold encode errorPayload
  dsimp only
  rw [get?_ofMembers, List.reverse_cons]
  exact lookup_optionalMember _ rfl

theorem get?_implicit (t : Token) : (encode t).get? "implicit" = if t.implicit then some (encode true) else none := by
  unfold encode token
  dsimp only
  rw [get?_ofMembers]
  cases t.implicit <;> rfl

/-! ### Round trips -/

/-- Every value with finite doubles and counts that fit is read back as it was sent: options, requests, messages and
their errors, results and progress, matrices and tokens. In particular a value or an error in a batch stays one, and a
result of an operation on matrices keeps its form, though neither is told what it is; and what is absent is not sent. -/
theorem reads_what_it_sends :
    (∀ o : Evaluation.Options, o.Sendable → Faithful o ∧ (encode o).get? "variables" = o.values.map encode) ∧
    (∀ r : Evaluation.Request, r.options.Sendable → Faithful r) ∧
    (∀ r : Graph.Request, r.Sendable → Faithful r ∧ (encode r).get? "variables" = r.values.map encode ∧
      (encode r).get? "angleMode" = r.angle.map encode) ∧
    (∀ r : MatrixRequest, r.Sendable → Faithful r ∧ (encode r).get? "constants" = r.constants.map encode) ∧
    (∀ r : Batch.Request, r.options.Sendable → Faithful r) ∧
    (∀ r : Request, Faithful r) ∧
    (∀ r : Response, Faithful r) ∧
    (∀ r : Evaluation.Result, (∀ x, r.value = some x → x.isFinite = true) → Faithful r) ∧
    (∀ r : Graph.Result, (∀ p ∈ r.points, p.x.isFinite = true ∧ ∀ y, p.y = some y → y.isFinite = true) →
      Faithful r) ∧
    (∀ v : MatrixValue, v.CountsFit → v.isFinite = true → Faithful v) ∧
    (∀ o : MatrixOutput, o.result.CountsFit → o.result.isFinite = true → Faithful o) ∧
    (∀ item : Batch.Item, (∀ r x, item = .value r → r.value = some x → x.isFinite = true) → Faithful item) ∧
    (∀ r : Batch.Result, (∀ s x, .value s ∈ r.results → s.value = some x → x.isFinite = true) → Faithful r) ∧
    (∀ p : Batch.Progress, p.Sendable → Faithful p) ∧
    (∀ p : Graph.Progress, p.progress.isFinite = true → Faithful p) ∧
    (∀ m : DenseMatrix Float, m.CountsFit → m.isFinite = true → Faithful m) ∧
    (∀ t : Token, t.position < countBound →
      Faithful t ∧ (encode t).get? "implicit" = if t.implicit then some (encode true) else none) ∧
    (∀ p : ErrorPayload, ErrorPayload.ofJson (encode p) = p ∧ (encode p).get? "code" = p.code.map encode) := by
  have hcurve : ∀ r : Graph.Result, (∀ p ∈ r.points, p.x.isFinite = true ∧ ∀ y, p.y = some y → y.isFinite = true) →
      Faithful r := by
    intro r hpoints
    have hfinite : r.isFinite = true := List.all_eq_true.mpr fun p hp => (hpoints p hp).1
    exact (Graph.Result.faithfulIf fun p hp => (hpoints p hp).2).faithful hfinite
  have hitem : ∀ item : Batch.Item, (∀ r x, item = .value r → r.value = some x → x.isFinite = true) → Faithful item :=
    fun item hfinite => Batch.Item.faithful fun r hr => Evaluation.Result.faithful fun x hx => hfinite r x hr hx
  have hitems : ∀ r : Batch.Result, (∀ s x, .value s ∈ r.results → s.value = some x → x.isFinite = true) →
      Faithful r := by
    intro r hresults
    refine Batch.Result.faithful fun item hmem => hitem item fun s x hs hx => hresults s x ?_ hx
    rwa [← hs]
  exact ⟨fun o ho => ⟨ho.faithful, get?_variables_options o⟩, fun r hr => hr.faithful_request r.expression,
    fun r hr => ⟨hr.faithful, get?_variables_graph r, get?_angleMode_graph r⟩,
    fun r hr => ⟨hr.faithful, get?_constants r⟩, fun r hr => Batch.faithful_request hr r.expressions,
    Request.faithful, Response.faithful, fun r hr => Evaluation.Result.faithful hr, hcurve,
    fun v hv hfinite => (MatrixValue.faithfulIf hv).faithful hfinite,
    fun o ho hfinite => (MatrixOutput.faithfulIf ho).faithful hfinite, hitem, hitems, fun p hp => hp.faithful,
    fun p hp => Graph.Progress.faithful hp, fun m hm hfinite => (DenseMatrix.faithfulIf hm).faithful hfinite,
    fun t ht => ⟨Token.faithful ht, get?_implicit t⟩, fun p => ⟨p.ofJson_encode, get?_code p⟩⟩

/-- A variable, a linear system and its solution, a curve of one point beside a break, a batch with both kinds of
outcomes, and a product that is not written. -/
theorem reads_what_it_sends_samples :
    let options : Evaluation.Options := { precision := 30, values := some (Bindings.ofList [("x", 1.5), ("y", -2)]) }
    let unit : DenseMatrix Float := ⟨2, 2, [[1, 0], [0, 1]]⟩
    let result : Evaluation.Result := ⟨some 0.5, "0.5"⟩
    Faithful options ∧ Faithful (Evaluation.Request.mk "2x" options) ∧
      Faithful ({ expression := "1/x", xMin := -1, xMax := 1, values := options.values } : Graph.Request) ∧
      Faithful (MatrixRequest.mk .solve [unit] (some [3, 4])) ∧ Faithful (Batch.Request.mk ["x", "y"] options) ∧
      Faithful result ∧ Faithful (Graph.Result.mk [⟨1, some 2⟩, ⟨3, none⟩] true) ∧
      Faithful (MatrixOutput.mk (.vector [3, 4]) .vector) ∧ Faithful (MatrixOutput.mk (.matrix unit) .matrix) ∧
      Faithful (Batch.Item.value result) ∧ Faithful (Batch.Result.mk [.value result, .error "Division by zero"]) ∧
      Faithful (Batch.Progress.mk 50 1 2) ∧ Faithful (Graph.Progress.mk 50) ∧ Faithful unit ∧
      Faithful (Token.mk .operator "*" 1 true) := by
  intro options unit result
  obtain ⟨hoptions, hevaluation, hgraph, hmatrix, hbatch, -, -, hresult, hcurve, -, houtput, hitem, hitems,
    hprogress, hpercentage, hdense, htoken, -⟩ := reads_what_it_sends
  have hvalues : ∀ b, options.values = some b → ∀ e ∈ b.entries, e.2.isFinite = true := by
    rintro _ ⟨⟩
    decide +kernel
  have hsendable : options.Sendable := ⟨by decide, hvalues⟩
  have hunit : unit.CountsFit := ⟨by decide, by decide⟩
  have hfinite : unit.isFinite = true := by decide +kernel
  have hhalf : ∀ x, result.value = some x → x.isFinite = true := by
    rintro _ ⟨⟩
    decide +kernel
  have hunits : ∀ m ∈ [unit], m.CountsFit ∧ m.isFinite = true := by
    intro m hm
    rw [List.mem_singleton.mp hm]
    exact ⟨hunit, hfinite⟩
  have hconstants : ∀ xs, some [(3 : Float), 4] = some xs → ∀ x ∈ xs, x.isFinite = true := by
    rintro _ ⟨⟩
    decide +kernel
  have hpoints : ∀ p ∈ [(⟨1, some 2⟩ : Graph.Point), ⟨3, none⟩],
      p.x.isFinite = true ∧ ∀ y, p.y = some y → y.isFinite = true := by
    intro p hp
    rcases List.mem_cons.mp hp with rfl | hp
    · refine ⟨by decide +kernel, ?_⟩
      rintro _ ⟨⟩
      decide +kernel
    · rw [List.mem_singleton.mp hp]
      exact ⟨by decide +kernel, fun y hy => nomatch hy⟩
  have houtcome : ∀ r x, Batch.Item.value result = .value r → r.value = some x → x.isFinite = true := by
    rintro _ x ⟨⟩
    exact hhalf x
  have houtcomes : ∀ r x, .value r ∈ [Batch.Item.value result, .error "Division by zero"] → r.value = some x →
      x.isFinite = true := by
    intro r x hr
    rcases List.mem_cons.mp hr with hr | hr
    · exact houtcome r x hr.symm
    · cases List.mem_singleton.mp hr
  exact ⟨(hoptions _ hsendable).1, hevaluation ⟨"2x", options⟩ hsendable,
    (hgraph _ ⟨by decide +kernel, by decide +kernel, by decide, hvalues⟩).1,
    (hmatrix _ ⟨fun m hm => (hunits m hm).1, fun m hm => (hunits m hm).2, hconstants⟩).1,
    hbatch ⟨["x", "y"], options⟩ hsendable, hresult _ hhalf, hcurve _ hpoints,
    houtput ⟨.vector [3, 4], .vector⟩ trivial (by decide +kernel), houtput ⟨.matrix unit, .matrix⟩ hunit hfinite,
    hitem _ houtcome, hitems _ houtcomes, hprogress _ ⟨by decide +kernel, by decide, by decide⟩,
    hpercentage _ (by decide +kernel), hdense _ hunit hfinite, (htoken _ (by decide)).1⟩

end Calculator.Wire
