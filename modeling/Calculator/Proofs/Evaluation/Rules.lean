import Calculator.Proofs.Evaluation.Calls
/-!
Evaluation by rules, which count the calls that stand around an expression. An evaluation that never ends would have no
derivation; yet every expression has exactly one outcome by the rules, and this is the evaluator's.
-/
namespace Calculator.Evaluation

variable {α : Type}

section
variable (A : Arithmetic α) (functions : Bindings UserFunction)

mutual
/-- The outcome of an expression that stands inside of `depth` calls. Nothing but `tooDeep` keeps a derivation from
descending into bodies for ever. -/
inductive Evaluates : Nat → Bindings α → Expr → Except Error α → Prop
  | number {depth values} (value raw span) :
      Evaluates depth values (.number value raw span) (locate span (A.number value raw >>= A.accept))
  | constant {depth values} (c span) : Evaluates depth values (.constant c span) (locate span (A.accept (A.constant c)))
  | bound {depth values name x} (span) (hx : values.get? name = some x) :
      Evaluates depth values (.free name span) (locate span (A.accept (A.fetch x)))
  | unbound {depth values name} (span) (hx : values.get? name = none) :
      Evaluates depth values (.free name span) (.error ⟨.undefinedVariable name, span⟩)
  | unary {depth values e x} (op span) (he : Evaluates depth values e (.ok x)) :
      Evaluates depth values (.unary op e span) (locate span (A.unary op x >>= A.accept))
  | operandFails {depth values e error} (op span) (he : Evaluates depth values e (.error error)) :
      Evaluates depth values (.unary op e span) (.error error)
  | binary {depth values l r x y} (op span) (hl : Evaluates depth values l (.ok x))
      (hr : Evaluates depth values r (.ok y)) :
      Evaluates depth values (.binary op l r span) (locate span (A.binary op x y >>= A.accept))
  | leftFails {depth values l error} (op r span) (hl : Evaluates depth values l (.error error)) :
      Evaluates depth values (.binary op l r span) (.error error)
  | rightFails {depth values l r x error} (op span) (hl : Evaluates depth values l (.ok x))
      (hr : Evaluates depth values r (.error error)) : Evaluates depth values (.binary op l r span) (.error error)
  | argumentsFail {depth values args error} (name span) (hargs : EvaluatesAll depth values args (.error error)) :
      Evaluates depth values (.call name args span) (.error error)
  | builtin {depth values name args xs b} (span) (hargs : EvaluatesAll depth values args (.ok xs))
      (hb : Builtin.ofName? name = some b) :
      Evaluates depth values (.call name args span) (locate span (A.builtin b xs >>= A.accept))
  | unknown {depth values name args xs} (span) (hargs : EvaluatesAll depth values args (.ok xs))
      (hb : Builtin.ofName? name = none) (hf : functions.get? name = none) :
      Evaluates depth values (.call name args span) (.error ⟨.unknownFunction name, span⟩)
  | tooDeep {depth values name args xs f} (span) (hargs : EvaluatesAll depth values args (.ok xs))
      (hb : Builtin.ofName? name = none) (hf : functions.get? name = some f) (hdepth : maxCalls ≤ depth) :
      Evaluates depth values (.call name args span) (.error ⟨.callDepth name, span⟩)
  | body {depth values name args xs f x} (span) (hargs : EvaluatesAll depth values args (.ok xs))
      (hb : Builtin.ofName? name = none) (hf : functions.get? name = some f) (hdepth : depth < maxCalls)
      (hbody : Evaluates (depth + 1) (values.setAll A.zero f.params xs) f.body (.ok x)) :
      Evaluates depth values (.call name args span) (locate span (A.accept x))
  | bodyFails {depth values name args xs f error} (span) (hargs : EvaluatesAll depth values args (.ok xs))
      (hb : Builtin.ofName? name = none) (hf : functions.get? name = some f) (hdepth : depth < maxCalls)
      (hbody : Evaluates (depth + 1) (values.setAll A.zero f.params xs) f.body (.error error)) :
      Evaluates depth values (.call name args span) (.error error)
  | matrix {depth values} (rows span) : Evaluates depth values (.matrix rows span) (.error ⟨.matrix, span⟩)
  | complex {depth values} (re im span) : Evaluates depth values (.complex re im span) (.error ⟨.complex, span⟩)
/-- The outcome of expressions from left to right, up to the first that fails. -/
inductive EvaluatesAll : Nat → Bindings α → List Expr → Except Error (List α) → Prop
  | nil {depth values} : EvaluatesAll depth values [] (.ok [])
  | cons {depth values e es x xs} (he : Evaluates depth values e (.ok x))
      (hes : EvaluatesAll depth values es (.ok xs)) : EvaluatesAll depth values (e :: es) (.ok (x :: xs))
  | headFails {depth values e error} (es) (he : Evaluates depth values e (.error error)) :
      EvaluatesAll depth values (e :: es) (.error error)
  | tailFails {depth values e es x error} (he : Evaluates depth values e (.ok x))
      (hes : EvaluatesAll depth values es (.error error)) : EvaluatesAll depth values (e :: es) (.error error)
end

/-- Inside of `depth` calls, as many more may follow as are left of the limit. -/
def Scope.inside (depth : Nat) (values : Bindings α) : Scope α := ⟨maxCalls - depth, values⟩

/-- The values of expressions in the scope, from left to right. -/
def Scope.evaluateAll (s : Scope α) (es : List Expr) : Except Error (List α) :=
  walkList A s.values (s.invoke A functions) es

end

section
variable {A : Arithmetic α} {functions : Bindings UserFunction}

/-! ### The evaluator by nodes -/

theorem Scope.evaluate_unary_eq (s : Scope α) (op : UnaryOp) (e : Expr) (span : Span) :
    s.evaluate A functions (.unary op e span) =
      s.evaluate A functions e >>= fun x => locate span (A.unary op x >>= A.accept) := by
  rw [evaluate_eq, evaluate_eq, walk]

theorem Scope.evaluate_binary_eq (s : Scope α) (op : BinaryOp) (l r : Expr) (span : Span) :
    s.evaluate A functions (.binary op l r span) = (do
      let x ← s.evaluate A functions l
      let y ← s.evaluate A functions r
      locate span (A.binary op x y >>= A.accept)) := by
  rw [evaluate_eq, evaluate_eq, evaluate_eq, walk]

theorem Scope.evaluate_call_eq (s : Scope α) (name : String) (args : List Expr) (span : Span) :
    s.evaluate A functions (.call name args span) = (do
      let xs ← s.evaluateAll A functions args
      match Builtin.ofName? name with
      | some b => locate span (A.builtin b xs >>= A.accept)
      | none => do
        let x ← s.invoke A functions span name xs
        locate span (A.accept x)) := by
  rw [evaluate_eq, walk]
  rfl

theorem Scope.evaluateAll_cons (s : Scope α) (e : Expr) (es : List Expr) :
    s.evaluateAll A functions (e :: es) = (do
      let x ← s.evaluate A functions e
      let xs ← s.evaluateAll A functions es
      return x :: xs) := by
  rw [evaluateAll, walkList, evaluate_eq, evaluateAll]

/-- A call of a function of the user, whose arguments have values, comes to what the function gives for them. -/
theorem Scope.evaluate_call (s : Scope α) {name : String} {args : List Expr} {xs : List α} (span : Span)
    (hargs : s.evaluateAll A functions args = .ok xs) (hb : Builtin.ofName? name = none) :
    s.evaluate A functions (.call name args span) =
      s.invoke A functions span name xs >>= fun x => locate span (A.accept x) := by
  rw [evaluate_call_eq, hargs, hb]
  rfl

theorem Scope.invoke_of_unknown (s : Scope α) {name : String} (hf : functions.get? name = none) (span : Span)
    (xs : List α) : s.invoke A functions span name xs = .error ⟨.unknownFunction name, span⟩ := by
  obtain ⟨calls, values⟩ := s
  cases calls with
  | zero => rw [invoke, hf]
  | succ calls => rw [invoke, hf]

section
variable {depth : Nat} {values : Bindings α} {name : String} {f : UserFunction}

theorem Scope.invoke_inside_of_lt (h : depth < maxCalls) (hf : functions.get? name = some f) (span : Span)
    (xs : List α) :
    (inside depth values).invoke A functions span name xs =
      (inside (depth + 1) (values.setAll A.zero f.params xs)).evaluate A functions f.body := by
  have hleft : maxCalls - depth = maxCalls - (depth + 1) + 1 := by omega
  rw [inside, hleft, invoke, hf]
  rfl

theorem Scope.invoke_inside_of_le (h : maxCalls ≤ depth) (hf : functions.get? name = some f) (span : Span)
    (xs : List α) : (inside depth values).invoke A functions span name xs = .error ⟨.callDepth name, span⟩ := by
  have hleft : maxCalls - depth = 0 := by omega
  rw [inside, hleft, invoke, hf]

/-! ### The evaluator follows the rules -/

/-- Rules for each of some expressions give one for all of them. -/
theorem evaluatesAll_evaluateAll {es : List Expr}
    (h : ∀ e ∈ es, Evaluates A functions depth values e ((Scope.inside depth values).evaluate A functions e)) :
    EvaluatesAll A functions depth values es ((Scope.inside depth values).evaluateAll A functions es) := by
  induction es with
  | nil => exact .nil
  | cons e es ih =>
    have he := h e List.mem_cons_self
    have hes := ih fun c hc => h c (List.mem_cons_of_mem e hc)
    rw [Scope.evaluateAll_cons]
    cases hx : (Scope.inside depth values).evaluate A functions e with
    | error error => exact .headFails es (hx ▸ he)
    | ok x =>
      cases hxs : (Scope.inside depth values).evaluateAll A functions es with
      | error error => exact .tailFails (hx ▸ he) (hxs ▸ hes)
      | ok xs => exact .cons (hx ▸ he) (hxs ▸ hes)

/-- A call follows the rules, if the body of the function does one call deeper. -/
theorem evaluates_invoke {args : List Expr} {span : Span} {xs : List α}
    (hargs : EvaluatesAll A functions depth values args (.ok xs)) (hb : Builtin.ofName? name = none)
    (hbody : ∀ f, functions.get? name = some f → depth < maxCalls →
      Evaluates A functions (depth + 1) (values.setAll A.zero f.params xs) f.body
        ((Scope.inside (depth + 1) (values.setAll A.zero f.params xs)).evaluate A functions f.body)) :
    Evaluates A functions depth values (.call name args span)
      ((Scope.inside depth values).invoke A functions span name xs >>= fun x => locate span (A.accept x)) := by
  cases hf : functions.get? name with
  | none =>
    rw [Scope.invoke_of_unknown _ hf]
    exact .unknown span hargs hb hf
  | some f =>
    rcases Nat.lt_or_ge depth maxCalls with hdepth | hdepth
    · have hinner := hbody f hf hdepth
      rw [Scope.invoke_inside_of_lt hdepth hf]
      cases hx : (Scope.inside (depth + 1) (values.setAll A.zero f.params xs)).evaluate A functions f.body with
      | error error => exact .bodyFails span hargs hb hf hdepth (hx ▸ hinner)
      | ok x => exact .body span hargs hb hf hdepth (hx ▸ hinner)
    · rw [Scope.invoke_inside_of_le hdepth hf]
      exact .tooDeep span hargs hb hf hdepth

/-- An expression follows the rules, if the bodies of functions do one call deeper. -/
theorem evaluates_of_bodies
    (hbody : ∀ name f, functions.get? name = some f → depth < maxCalls → ∀ xs,
      Evaluates A functions (depth + 1) (values.setAll A.zero f.params xs) f.body
        ((Scope.inside (depth + 1) (values.setAll A.zero f.params xs)).evaluate A functions f.body)) (e : Expr) :
    Evaluates A functions depth values e ((Scope.inside depth values).evaluate A functions e) := by
  induction e using Expr.children_induction with
  | h e ih =>
  cases e with
  | number value raw span =>
    rw [Scope.evaluate_eq]
    exact .number value raw span
  | constant c span =>
    rw [Scope.evaluate_eq]
    exact .constant c span
  | free name span =>
    rw [Scope.evaluate_eq, walk]
    cases hx : (Scope.inside depth values).values.get? name with
    | none => exact .unbound span hx
    | some x => exact .bound span hx
  | unary op e span =>
    have he := ih e (List.mem_singleton_self e)
    rw [Scope.evaluate_unary_eq]
    cases hx : (Scope.inside depth values).evaluate A functions e with
    | error error => exact .operandFails op span (hx ▸ he)
    | ok x => exact .unary op span (hx ▸ he)
  | binary op l r span =>
    have hl := ih l List.mem_cons_self
    have hr := ih r (List.mem_cons_of_mem l (List.mem_singleton_self r))
    rw [Scope.evaluate_binary_eq]
    cases hx : (Scope.inside depth values).evaluate A functions l with
    | error error => exact .leftFails op r span (hx ▸ hl)
    | ok x =>
      cases hy : (Scope.inside depth values).evaluate A functions r with
      | error error => exact .rightFails op span (hx ▸ hl) (hy ▸ hr)
      | ok y => exact .binary op span (hx ▸ hl) (hy ▸ hr)
  | call name args span =>
    have hargs := evaluatesAll_evaluateAll ih
    rw [Scope.evaluate_call_eq]
    cases hxs : (Scope.inside depth values).evaluateAll A functions args with
    | error error => exact .argumentsFail name span (hxs ▸ hargs)
    | ok xs =>
      cases hb : Builtin.ofName? name with
      | some b => exact .builtin span (hxs ▸ hargs) hb
      | none => exact evaluates_invoke (hxs ▸ hargs) hb fun f hf hdepth => hbody name f hf hdepth xs
  | matrix rows span =>
    rw [Scope.evaluate_eq]
    exact .matrix rows span
  | complex re im span =>
    rw [Scope.evaluate_eq]
    exact .complex re im span

end

/-- The evaluator follows the rules. The induction is on the calls that are left of the limit. -/
theorem evaluates_evaluate (depth : Nat) (values : Bindings α) (e : Expr) :
    Evaluates A functions depth values e ((Scope.inside depth values).evaluate A functions e) := by
  induction hleft : maxCalls - depth generalizing depth values e with
  | zero => exact evaluates_of_bodies (fun name f _ hdepth => absurd hdepth (by omega)) e
  | succ left ih => exact evaluates_of_bodies (fun name f _ _ xs => ih (depth + 1) _ f.body (by omega)) e

mutual
/-- The rules leave no choice. -/
theorem Evaluates.eq_evaluate : ∀ {depth values} {e : Expr} {outcome : Except Error α},
    Evaluates A functions depth values e outcome → (Scope.inside depth values).evaluate A functions e = outcome
  | _, _, _, _, .number .. => Scope.evaluate_eq ..
  | _, _, _, _, .constant .. => Scope.evaluate_eq ..
  | _, values, _, _, .bound span hx => by
    rw [Scope.evaluate_eq, walk]
    change (match values.get? _ with | some x => _ | none => _) = _
    rw [hx]
  | _, values, _, _, .unbound span hx => by
    rw [Scope.evaluate_eq, walk]
    change (match values.get? _ with | some x => _ | none => _) = _
    rw [hx]
  | _, _, _, _, .unary op span he => by
    rw [Scope.evaluate_unary_eq, he.eq_evaluate]
    rfl
  | _, _, _, _, .operandFails op span he => by
    rw [Scope.evaluate_unary_eq, he.eq_evaluate]
    rfl
  | _, _, _, _, .binary op span hl hr => by
    rw [Scope.evaluate_binary_eq, hl.eq_evaluate, hr.eq_evaluate]
    rfl
  | _, _, _, _, .leftFails op r span hl => by
    rw [Scope.evaluate_binary_eq, hl.eq_evaluate]
    rfl
  | _, _, _, _, .rightFails op span hl hr => by
    rw [Scope.evaluate_binary_eq, hl.eq_evaluate, hr.eq_evaluate]
    rfl
  | _, _, _, _, .argumentsFail name span hargs => by
    rw [Scope.evaluate_call_eq, hargs.eq_evaluateAll]
    rfl
  | _, _, _, _, .builtin span hargs hb => by
    rw [Scope.evaluate_call_eq, hargs.eq_evaluateAll, hb]
    rfl
  | _, _, _, _, .unknown span hargs hb hf => by
    rw [Scope.evaluate_call _ span hargs.eq_evaluateAll hb, Scope.invoke_of_unknown _ hf]
    rfl
  | _, _, _, _, .tooDeep span hargs hb hf hdepth => by
    rw [Scope.evaluate_call _ span hargs.eq_evaluateAll hb, Scope.invoke_inside_of_le hdepth hf]
    rfl
  | _, _, _, _, .body span hargs hb hf hdepth hbody => by
    rw [Scope.evaluate_call _ span hargs.eq_evaluateAll hb, Scope.invoke_inside_of_lt hdepth hf, hbody.eq_evaluate]
    rfl
  | _, _, _, _, .bodyFails span hargs hb hf hdepth hbody => by
    rw [Scope.evaluate_call _ span hargs.eq_evaluateAll hb, Scope.invoke_inside_of_lt hdepth hf, hbody.eq_evaluate]
    rfl
  | _, _, _, _, .matrix .. => Scope.evaluate_eq ..
  | _, _, _, _, .complex .. => Scope.evaluate_eq ..
theorem EvaluatesAll.eq_evaluateAll : ∀ {depth values} {es : List Expr} {outcome : Except Error (List α)},
    EvaluatesAll A functions depth values es outcome →
      (Scope.inside depth values).evaluateAll A functions es = outcome
  | _, _, _, _, .nil => rfl
  | _, _, _, _, .cons he hes => by
    rw [Scope.evaluateAll_cons, he.eq_evaluate, hes.eq_evaluateAll]
    rfl
  | _, _, _, _, .headFails es he => by
    rw [Scope.evaluateAll_cons, he.eq_evaluate]
    rfl
  | _, _, _, _, .tailFails he hes => by
    rw [Scope.evaluateAll_cons, he.eq_evaluate, hes.eq_evaluateAll]
    rfl
end

/-- Every expression has exactly one outcome by the rules, which is the evaluator's. -/
theorem evaluates_iff {depth : Nat} {values : Bindings α} {e : Expr} {outcome : Except Error α} :
    Evaluates A functions depth values e outcome ↔ (Scope.inside depth values).evaluate A functions e = outcome := by
  constructor
  · exact Evaluates.eq_evaluate
  · rintro rfl
    exact evaluates_evaluate depth values e

end

end Calculator.Evaluation
