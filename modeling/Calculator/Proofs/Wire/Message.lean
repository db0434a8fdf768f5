import Calculator.Proofs.Wire.Evaluation
import Calculator.Wire.Token
/-! Requests, responses and tokens are read back as they were sent, whatever payload they bring. -/
namespace Calculator

open Wire

/-! ### Messages -/

theorem faithful_requestKind (kind : RequestKind) : Faithful kind := by
  refine ofNames?_name (by decide) ?_
  cases kind <;> decide

theorem faithful_responseKind (kind : ResponseKind) : Faithful kind := by
  refine ofNames?_name (by decide) ?_
  cases kind <;> decide

/-- A payload is JSON already. -/
theorem faithful_json (v : Json) : Faithful v := rfl

theorem Request.faithful (r : Request) : Faithful r := by
  rw [Faithful]
  unfold encode decode? request
  dsimp only
  rw [Fields.bind_ofMembers, Fields.required_of_at? (Fields.at?_ofMembers _ _ _) (faithful_string r.id),
    Fields.required_of_at? (Fields.at?_ofMembers _ _ _) (faithful_requestKind r.kind),
    Fields.withDefault_of_at? (Fields.at?_ofMembers _ _ _) (faithful_json r.payload)]
  rfl

theorem Response.faithful (r : Response) : Faithful r := by
  rw [Faithful]
  unfold encode decode? response
  dsimp only
  rw [Fields.bind_ofMembers, Fields.required_of_at? (Fields.at?_ofMembers _ _ _) (faithful_string r.id),
    Fields.required_of_at? (Fields.at?_ofMembers _ _ _) (faithful_responseKind r.kind),
    Fields.withDefault_of_at? (Fields.at?_ofMembers _ _ _) (faithful_json r.payload)]
  rfl

/-! ### Tokens -/

theorem faithful_tokenKind (kind : Token.Kind) : Faithful kind := by
  refine ofNames?_name (by decide) ?_
  cases kind <;> decide

/-- The flag of a product that is not written is absent unless it is set, and then is read as set. -/
theorem Token.faithful {t : Token} (hposition : t.position < countBound) : Faithful t := by
  obtain ⟨kind, text, position, implicit⟩ := t
  rw [Faithful]
  unfold encode decode? token
  dsimp only
  rw [Fields.bind_ofMembers]
  generalize hfields : Fields.ofMembers _ = fields
  have hat : ∀ place name, fields.at? place name = ((if implicit then [("implicit", encode true)] else []) ++
      [("position", encode position), ("value", encode text), ("type", encode kind)]).lookup name := by
    intro place name
    rw [← hfields, Fields.at?_ofMembers, List.reverse_append]
    cases implicit <;> rfl
  have himplicit : fields.withDefault 3 "implicit" false = some implicit := by
    rw [Fields.withDefault, hat]
    cases implicit <;> rfl
  rw [Fields.required_of_at? (by rw [hat]; cases implicit <;> rfl) (faithful_tokenKind kind),
    Fields.required_of_at? (by rw [hat]; cases implicit <;> rfl) (faithful_string text),
    Fields.required_of_at? (by rw [hat]; cases implicit <;> rfl) (faithful_nat hposition), himplicit]
  rfl

end Calculator
