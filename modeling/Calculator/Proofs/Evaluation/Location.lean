import Calculator.Evaluation.Fixed
import Calculator.Evaluation.Precise
import Calculator.Proofs.Evaluation.Calls
import Calculator.Proofs.Grammar.Correctness
import Calculator.Proofs.Token.Places
/-!
Where the evaluation of a text fails. An error has the span of the node that fails, in the text that this node was read
from: the evaluated text, or the one of a function that it calls.
-/
namespace Calculator.Evaluation

variable {α : Type} {A : Arithmetic α} {ctx : Context α} {text : String} {error : Error}

/-- Calls lead from an expression to itself or to a body of a function that it calls. -/
theorem Leads.eq_or_calls {functions : Bindings UserFunction} {e body : Expr} {names : List String}
    (h : Leads functions e names body) :
    names = [] ∧ body = e ∨ ∃ name f, e.Calls name ∧ functions.get? name = some f := by
  cases h with
  | here => exact .inl ⟨rfl, rfl⟩
  | call hcall hf _ => exact .inr ⟨_, _, hcall, hf⟩

/-- The evaluation of a text fails at the node `f` of `body`, to which calls lead from the expression `e` that the text
writes. -/
structure FailsIn (A : Arithmetic α) (ctx : Context α) (text : String) (error : Error) (e : Expr)
    (names : List String) (body : Expr) (t : Scope α) (f : Expr) : Prop where
  parsed : Expr.parse ctx.functions.names text = .ok e
  failsAt : FailsAt A ctx.functions ⟨maxCalls, ctx.values⟩ e error names body t f
  /-- The node stands in any text that the body was read from. -/
  placed : ∀ functions source, Expr.parse functions source = .ok body → f.Placed source.toList
  /-- It is one of the evaluated text, unless that calls a function of the user. -/
  own : names = [] ∧ body = e ∧ f.Placed text.toList ∨
    ∃ name g, e.Calls name ∧ ctx.functions.get? name = some g

/-- Every node of a parsed text stands in it. -/
theorem placed_of_parse {functions : List String} {source : String} {e f : Expr}
    (h : Expr.parse functions source = .ok e) (hnode : e.HasNode f) : f.Placed source.toList := by
  obtain ⟨n, hderives⟩ := Expr.derives_of_ofTokens h
  exact (hderives.within (Token.between_tokenize functions source)).nodes f hnode

theorem exists_failsIn (hA : A.Numeric) (h : ctx.evaluateTextIn A text = .error (.evaluation error)) :
    ∃ e names body t f, FailsIn A ctx text error e names body t f := by
  unfold Context.evaluateTextIn at h
  cases hparsed : Expr.parse ctx.functions.names text with
  | error err =>
    rw [hparsed] at h
    cases h
  | ok e =>
    rw [hparsed] at h
    dsimp only at h
    cases hfails : ctx.evaluateIn A e with
    | ok x =>
      rw [hfails] at h
      cases h
    | error other =>
      rw [hfails] at h
      obtain rfl : other = error := TextError.evaluation.inj (Except.error.inj h)
      obtain ⟨names, body, t, f, hat⟩ := Scope.exists_failsAt (s := ⟨maxCalls, ctx.values⟩) hA hfails
      refine ⟨e, names, body, t, f, hparsed, hat, fun _ _ hsource => placed_of_parse hsource hat.node, ?_⟩
      exact hat.leads.eq_or_calls.imp_left fun ⟨hnames, hbody⟩ =>
        ⟨hnames, hbody, placed_of_parse hparsed (hbody ▸ hat.node)⟩

/-- The evaluation of a text fails at a node of its tree, with a span inside the text, or at a node of a function's body
to which calls lead from it, with a span inside the text of that body. -/
theorem failure_located (text : String) (error : Error) :
    (∀ ctx : Context Float, Fixed.evaluateText ctx text = .error (.evaluation error) →
      ∃ e names body t f, FailsIn (Fixed.arithmetic ctx.angle) ctx text error e names body t f) ∧
    (∀ ctx : Context Decimal, Precise.evaluateText ctx text = .error (.evaluation error) →
      ∃ e names body t f, FailsIn (Precise.arithmeticOf ctx) ctx text error e names body t f) :=
  ⟨fun _ h => exists_failsIn (Fixed.numeric_arithmetic _) h,
    fun _ h => exists_failsIn (Precise.numeric_arithmetic _ _) h⟩

/-- The body of `f` fails behind the end of a text that calls it, where no node of the text stands. -/
theorem failure_located_body :
    let error : Error := ⟨.undefinedVariable "y", ⟨5, 6⟩⟩
    (∃ ctx : Context Float, Context.empty.define "f" [] "pi + y" = .ok ctx ∧
      Fixed.evaluateText ctx "f()" = .error (.evaluation error) ∧
      ∃ e names body t f, FailsIn (Fixed.arithmetic ctx.angle) ctx "f()" error e names body t f) ∧
    (∃ ctx : Context Decimal, Context.empty.define "f" [] "pi + y" = .ok ctx ∧
      Precise.evaluateText ctx "f()" = .error (.evaluation error) ∧
      ∃ e names body t f, FailsIn (Precise.arithmeticOf ctx) ctx "f()" error e names body t f) ∧
    ∀ functions e, Expr.parse functions "f()" = .ok e → ∀ f, e.HasNode f → f.span ≠ error.span := by
  intro error
  have hfixed : (Context.empty.define "f" [] "pi + y").toOption.map (Fixed.evaluateText · "f()") =
      some (.error (.evaluation error)) := by
    decide +kernel
  have hprecise : (Context.empty.define "f" [] "pi + y").toOption.map (Precise.evaluateText · "f()") =
      some (.error (.evaluation error)) := by
    decide +kernel
  obtain ⟨fixed, hfixedDefined, hfixedFails⟩ := map_toOption_eq_some.mp hfixed
  obtain ⟨precise, hpreciseDefined, hpreciseFails⟩ := map_toOption_eq_some.mp hprecise
  refine ⟨⟨fixed, hfixedDefined, hfixedFails, (failure_located _ _).1 fixed hfixedFails⟩,
    ⟨precise, hpreciseDefined, hpreciseFails, (failure_located _ _).2 precise hpreciseFails⟩, ?_⟩
  intro functions e he f hnode hspan
  have hinside := (placed_of_parse he hnode).inside
  rw [hspan] at hinside
  simp [error] at hinside

end Calculator.Evaluation
