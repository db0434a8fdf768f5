import Calculator.Proofs.Bindings
import Calculator.Proofs.Evaluation.Calls
/-!
Which variables an expression sees. A function runs with the variables of its caller besides its own parameters, so an
expression sees what it mentions and what the bodies mention to which its calls lead, and nothing else.
-/
namespace Calculator

namespace Expr

variable {e f : Expr}

/-- A leaf has no nodes besides itself. -/
theorem hasNode_iff_of_children_eq_nil (h : e.children = []) : e.HasNode f ↔ f = e := by
  constructor
  · intro hnode
    cases hnode with
    | root => rfl
    | child hc _ =>
      rw [h] at hc
      cases hc
  · rintro rfl
    exact .root f

end Expr

namespace Evaluation

/-- The expression mentions the variable, or a body does to which calls lead from it. -/
def Sees (functions : Bindings UserFunction) (e : Expr) (name : String) : Prop :=
  ∃ names body, Leads functions e names body ∧ body.Mentions name

section
variable {functions : Bindings UserFunction} {c e : Expr} {name : String}

theorem Sees.of_mentions (h : e.Mentions name) : Sees functions e name := ⟨[], e, .here e, h⟩

/-- What the body of a function sees, its callers see too. -/
theorem Sees.of_body {f : UserFunction} {called : String} (hcall : e.Calls called)
    (hf : functions.get? called = some f) (h : Sees functions f.body name) : Sees functions e name := by
  obtain ⟨names, body, hleads, hmentions⟩ := h
  exact ⟨called :: names, body, .call hcall hf hleads, hmentions⟩

end

section
variable {α : Type} {A : Arithmetic α} {functions : Bindings UserFunction} {values others : Bindings α}
  {invoke invoke' : Span → String → List α → Except Error α}

theorem walkList_congr {es : List Expr} (h : ∀ e ∈ es, walk A values invoke e = walk A others invoke' e) :
    walkList A values invoke es = walkList A others invoke' es := by
  induction es with
  | nil => rfl
  | cons e es ih =>
    have he := h e List.mem_cons_self
    have hes := ih fun c hc => h c (List.mem_cons_of_mem e hc)
    rw [walkList, walkList, he, hes]

/-- An expression has the same outcome wherever the variables are the same that it mentions, and the functions that it
calls. -/
theorem walk_congr {e : Expr} (hvalues : ∀ name, e.Mentions name → values.get? name = others.get? name)
    (hinvoke : ∀ name, e.Calls name → ∀ span xs, invoke span name xs = invoke' span name xs) :
    walk A values invoke e = walk A others invoke' e := by
  induction e using Expr.children_induction with
  | h e ih =>
  have hchildren : ∀ c ∈ e.children, walk A values invoke c = walk A others invoke' c := fun c hc =>
    ih c hc (fun name h => hvalues name (h.of_child hc)) (fun name h => hinvoke name (h.of_child hc))
  cases e with
  | number | constant | matrix | complex => rfl
  | free name span => rw [walk, walk, hvalues name ⟨span, .root _⟩]
  | unary op operand span => rw [walk, walk, hchildren operand (List.mem_singleton_self operand)]
  | binary op l r span =>
    have hl := hchildren l List.mem_cons_self
    have hr := hchildren r (List.mem_cons_of_mem l (List.mem_singleton_self r))
    rw [walk, walk, hl, hr]
  | call name args span =>
    have hargs : walkList A values invoke args = walkList A others invoke' args := walkList_congr hchildren
    rw [walk, walk, hargs]
    cases hname : Builtin.ofName? name with
    | some b => rfl
    | none =>
      have hsame := hinvoke name ⟨hname, args, span, .root _⟩ span
      simp only [hsame]

/-- An expression has the same outcome wherever the variables are the same that it sees. -/
theorem evaluateWithin_congr (calls : Nat) {e : Expr}
    (h : ∀ name, Sees functions e name → values.get? name = others.get? name) :
    evaluateWithin A functions calls values e = evaluateWithin A functions calls others e := by
  -- The variables are the same too where a body runs that the expression calls: both sides set the same parameters.
  induction calls generalizing values others e with
  | zero => exact walk_congr (fun name hname => h name (.of_mentions hname)) fun name _ span xs => rfl
  | succ calls ih =>
    refine walk_congr (fun name hname => h name (.of_mentions hname)) fun called hcall span xs => ?_
    cases hf : functions.get? called with
    | none => rfl
    | some f =>
      exact ih fun name hname => Bindings.get?_setAll_congr (h name (hname.of_body hcall hf)) A.zero f.params xs

end

/-- The contexts differ in no more than the values of variables that the expression does not see. -/
structure Context.SameFor {α : Type} (e : Expr) (ctx other : Context α) : Prop where
  functions : ctx.functions = other.functions
  angle : ctx.angle = other.angle
  precision : ctx.precision = other.precision
  values : ∀ name, Sees ctx.functions e name → ctx.values.get? name = other.values.get? name

theorem Context.SameFor.evaluateIn_eq {α : Type} {e : Expr} {ctx other : Context α} (h : ctx.SameFor e other)
    (A : Arithmetic α) : ctx.evaluateIn A e = other.evaluateIn A e := by
  unfold evaluateIn
  rw [← h.functions]
  exact evaluateWithin_congr maxCalls h.values

/-- The outcome of an expression depends on no other variables than those it sees. -/
theorem outcome_depends_only_on_seen (e : Expr) :
    (∀ ctx other : Context Float, ctx.SameFor e other → Fixed.evaluate ctx e = Fixed.evaluate other e) ∧
    (∀ ctx other : Context Decimal, ctx.SameFor e other → Precise.evaluate ctx e = Precise.evaluate other e) := by
  constructor
  · intro ctx other h
    unfold Fixed.evaluate
    rw [← h.angle]
    exact h.evaluateIn_eq _
  · intro ctx other h
    unfold Precise.evaluate Precise.arithmeticOf
    rw [← h.angle, ← h.precision]
    exact h.evaluateIn_eq _

/-- A call without arguments depends on what the body mentions, although the function runs with all variables. -/
theorem outcome_depends_only_on_seen_call :
    let functions : Bindings UserFunction := Bindings.ofList [("f", ⟨["n"], .free "x" ⟨0, 1⟩⟩)]
    let e : Expr := .call "f" [] ⟨0, 3⟩
    Fixed.evaluate ⟨.ofList [("x", 1), ("y", 2)], functions, .radians, 15⟩ e =
        Fixed.evaluate ⟨.ofList [("x", 1), ("z", 3)], functions, .radians, 15⟩ e ∧
      Precise.evaluate ⟨.ofList [("x", .one), ("y", .zero)], functions, .degrees, 30⟩ e =
        Precise.evaluate ⟨.ofList [("x", .one)], functions, .degrees, 30⟩ e := by
  intro functions e
  have hsees : ∀ name, Sees functions e name → name = "x" := by
    rintro name ⟨names, body, hleads, span, hnode⟩
    cases hleads with
    | here =>
      have hfree : Expr.free name span = .call "f" [] ⟨0, 3⟩ := (Expr.hasNode_iff_of_children_eq_nil rfl).mp hnode
      cases hfree
    | @call _ _ called _ f hcall hf hleads =>
      obtain ⟨-, args, place, hcalled⟩ := hcall
      have hsame : Expr.call called args place = .call "f" [] ⟨0, 3⟩ :=
        (Expr.hasNode_iff_of_children_eq_nil rfl).mp hcalled
      cases hsame
      obtain rfl : UserFunction.mk ["n"] (.free "x" ⟨0, 1⟩) = f := Option.some.inj hf
      cases hleads with
      | here =>
        cases (Expr.hasNode_iff_of_children_eq_nil rfl).mp hnode
        rfl
      | call hcall =>
        obtain ⟨-, args, place, hcalled⟩ := hcall
        cases (Expr.hasNode_iff_of_children_eq_nil rfl).mp hcalled
  constructor
  · refine (outcome_depends_only_on_seen e).1 _ _ ⟨rfl, rfl, rfl, fun name hname => ?_⟩
    rw [hsees name hname]
    rfl
  · refine (outcome_depends_only_on_seen e).2 _ _ ⟨rfl, rfl, rfl, fun name hname => ?_⟩
    rw [hsees name hname]
    rfl

end Evaluation
end Calculator
