import Calculator.Proofs.Except
import Calculator.Proofs.Wire.Values
import Calculator.Wire.Batch
import Calculator.Wire.Message
/-! Requests to evaluate texts, their results and their errors are read back as they were sent. -/
namespace Calculator

open Wire

/-! ### Requests -/

theorem faithful_angleUnit (u : AngleUnit) : Faithful u := by
  refine ofNames?_name (by decide) ?_
  cases u <;> decide

namespace Evaluation

/-- Options that can be sent: the number of digits has 32 bits, and the variables are finite. -/
structure Options.Sendable (o : Options) : Prop where
  precision : o.precision < Wire.precisionBound
  finite : ∀ values, o.values = some values → ∀ e ∈ values.entries, e.2.isFinite = true

variable {o : Options}

theorem Options.Sendable.faithful (ho : o.Sendable) : Faithful o := by
  rw [Faithful]
  unfold encode decode? evaluationOptions
  dsimp only
  rw [Fields.bind_ofMembers]
  generalize hfields : Fields.ofMembers _ = fields
  have hat : ∀ place name, fields.at? place name = ((optionalMember "variables" o.values).reverse ++
      [("usePrecisionMode", encode o.precise), ("angleMode", encode o.angle),
        ("precision", encode o.precision)]).lookup name := by
    intro place name
    rw [← hfields, Fields.at?_ofMembers, List.reverse_append]
    rfl
  have hprecision : precision? fields 0 "precision" = some o.precision := by
    have hsent : fields.at? 0 "precision" = some (encode o.precision) := by simp [hat, List.lookup_cons]
    rw [precision?, hsent]
    exact natBelow?_ofNat ho.precision
  rw [hprecision, Fields.withDefault_of_at? (by simp [hat, List.lookup_cons]) (faithful_angleUnit o.angle),
    Fields.withDefault_of_at? (by simp [hat]) (faithful_bool o.precise),
    Fields.withDefault_of_optional (by rw [hat]; exact lookup_optionalMember _ rfl) (faithful_variables ho.finite)]
  rfl

theorem Options.Sendable.faithful_request (ho : o.Sendable) (expression : String) :
    Faithful (Request.mk expression o) := by
  rw [Faithful]
  unfold encode decode? evaluationRequest
  dsimp only
  rw [Fields.bind_ofMembers, Fields.required_of_at? (Fields.at?_ofMembers _ _ _) (faithful_string expression),
    Fields.withDefault_of_at? (Fields.at?_ofMembers _ _ _) ho.faithful]
  rfl

theorem isFinite_of_finite? {x y : Float} (h : finite? x = some y) : y.isFinite = true := by
  unfold finite? at h
  split at h
  · rename_i hfinite
    rwa [← Option.some.inj h]
  · cases h

/-- The value of a result is finite if there is one. -/
theorem Request.isFinite_of_run {request : Request} {r : Result} (hr : request.run = .ok r) {x : Float}
    (hx : r.value = some x) : x.isFinite = true := by
  unfold Request.run at hr
  dsimp only at hr
  split at hr
  · obtain ⟨d, -, rfl⟩ := map_eq_ok.mp hr
    exact isFinite_of_finite? hx
  · obtain ⟨y, -, rfl⟩ := map_eq_ok.mp hr
    exact isFinite_of_finite? hx

theorem Result.faithful {r : Result} (hfinite : ∀ x, r.value = some x → x.isFinite = true) : Faithful r := by
  rw [Faithful]
  unfold encode decode? evaluationResult
  dsimp only
  rw [Fields.bind_ofMembers, Fields.nullable_of_at? (Fields.at?_ofMembers _ _ _) (faithful_finite? hfinite),
    Fields.required_of_at? (Fields.at?_ofMembers _ _ _) (faithful_string r.formatted)]
  rfl

end Evaluation

/-! ### Batches -/

namespace Batch

variable {o : Evaluation.Options}

theorem faithful_request (ho : o.Sendable) (expressions : List String) : Faithful (Request.mk expressions o) := by
  have hexpressions : Faithful expressions := faithful_list fun s _ => faithful_string s
  rw [Faithful]
  unfold encode decode? batchRequest
  dsimp only
  rw [Fields.bind_ofMembers, Fields.required_of_at? (Fields.at?_ofMembers _ _ _) hexpressions,
    Fields.withDefault_of_at? (Fields.at?_ofMembers _ _ _) ho.faithful]
  rfl

theorem Item.faithful_value {r : Evaluation.Result} (hr : Faithful r) : Faithful (Item.value r) := by
  rw [Faithful]
  unfold encode decode? batchItem
  dsimp only
  rw [hr]

/-- An error is not read as a value, since it has no text of one. -/
theorem Item.faithful_error (message : String) : Faithful (Item.error message) := by
  have hnone : (decode? (.ofMembers [("error", encode message)]) : Option Evaluation.Result) = none := rfl
  rw [Faithful]
  unfold encode decode? batchItem
  dsimp only
  rw [hnone]
  rfl

/-- An outcome comes back as the value or the error that it was. -/
theorem Item.faithful {item : Item} (hvalue : ∀ r, item = .value r → Faithful r) : Faithful item := by
  cases item with
  | value r => exact faithful_value (hvalue r rfl)
  | error message => exact faithful_error message

theorem Result.faithful {r : Result} (hresults : ∀ item ∈ r.results, Faithful item) : Faithful r := by
  have hlist : Faithful r.results := faithful_list hresults
  rw [Faithful]
  unfold encode decode? batchResult
  dsimp only
  rw [Fields.bind_ofMembers, Fields.required_of_at? (Fields.at?_ofMembers _ _ _) hlist]
  rfl

theorem Request.faithful_run (request : Request) : Faithful request.run := by
  refine Result.faithful fun item hitem => ?_
  obtain ⟨expression, -, rfl⟩ := List.mem_map.mp hitem
  unfold Request.item
  split
  · rename_i result hresult
    exact Item.faithful_value (Evaluation.Result.faithful fun _ => Evaluation.Request.isFinite_of_run hresult)
  · exact Item.faithful_error _

/-- Progress that can be sent: its percentage is finite, and its counts have 64 bits. -/
structure Progress.Sendable (p : Progress) : Prop where
  progress : p.progress.isFinite = true
  completed : p.completed < countBound
  total : p.total < countBound

theorem Progress.Sendable.faithful {p : Progress} (hp : p.Sendable) : Faithful p := by
  rw [Faithful]
  unfold encode decode? batchProgress
  dsimp only
  rw [Fields.bind_ofMembers, Fields.required_of_at? (Fields.at?_ofMembers _ _ _) (faithful_float hp.progress),
    Fields.required_of_at? (Fields.at?_ofMembers _ _ _) (faithful_nat hp.completed),
    Fields.required_of_at? (Fields.at?_ofMembers _ _ _) (faithful_nat hp.total)]
  rfl

end Batch

/-! ### Errors -/

theorem faithful_errorCode (code : ErrorCode) : Faithful code := by
  refine ofNames?_name (by decide) ?_
  cases code <;> decide

namespace ErrorPayload

theorem faithful (p : ErrorPayload) : Faithful p := by
  have hcode : Faithful p.code := faithful_option fun code _ => ⟨faithful_errorCode code, by simp [encode]⟩
  rw [Faithful]
  unfold encode decode? errorPayload
  dsimp only
  rw [Fields.bind_ofMembers]
  generalize hfields : Fields.ofMembers _ = fields
  have hat : ∀ place name, fields.at? place name =
      ((optionalMember "code" p.code).reverse ++ [("message", encode p.message)]).lookup name := by
    intro place name
    rw [← hfields, Fields.at?_ofMembers, List.reverse_cons]
  rw [Fields.required_of_at? (by simp [hat]) (faithful_string p.message),
    Fields.withDefault_of_optional (by rw [hat]; exact lookup_optionalMember _ rfl) hcode]
  rfl

/-- An error payload that was sent is read as one, and not as a wording. -/
theorem ofJson_encode (p : ErrorPayload) : ofJson (encode p) = p := by
  have hread : ofJson (encode p) = (decode? (encode p)).getD { message := (encode p).print } := rfl
  rw [hread, faithful p]
  rfl

end ErrorPayload
end Calculator
