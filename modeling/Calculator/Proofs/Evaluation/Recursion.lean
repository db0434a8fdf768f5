import Calculator.Evaluation.Fixed
import Calculator.Evaluation.Precise
import Calculator.Proofs.Decimal.Acceptance
import Calculator.Proofs.Evaluation.Rules
import Mathlib.Logic.Relation
/-!
Functions that call themselves or each other. An expression has a value only if no function is reached from itself and
no more calls stand inside each other than the limit admits; and calls fail for standing too deep only where more do.
-/
namespace Calculator.Evaluation

variable {α : Type} {A : Arithmetic α} {functions : Bindings UserFunction}

/-! ### The graph of calls -/

/-- The body of the first function calls the second. -/
def CallsNext (functions : Bindings UserFunction) (name next : String) : Prop :=
  ∃ f, functions.get? name = some f ∧ f.body.Calls next

/-- The expression calls the function, or calls lead there from a function that it calls. -/
def Reaches (functions : Bindings UserFunction) (e : Expr) (name : String) : Prop :=
  ∃ first, e.Calls first ∧ Relation.ReflTransGen (CallsNext functions) first name

/-- The numeral stands in the expression, or in a body that calls lead to. -/
def MeetsNumeral (functions : Bindings UserFunction) (e : Expr) (raw : String) : Prop :=
  ∃ names body value span, Leads functions e names body ∧ body.HasNode (.number value raw span)

section
variable {s : Scope α} {e : Expr} {x : α} {name : String}

/-- No more calls lead from an expression that has a value than its scope admits. -/
theorem Scope.length_le_of_leads (h : s.evaluate A functions e = .ok x) {names : List String} {body : Expr}
    (hleads : Leads functions e names body) : names.length ≤ s.calls := by
  induction hleads generalizing s x with
  | here => exact Nat.zero_le _
  | call hcall hf _ ih =>
    obtain ⟨t, g, y, hcalls, hg, hbody⟩ := Scope.exists_body_value h hcall
    obtain rfl := Option.some.inj (hf.symm.trans hg)
    have hle := ih hbody
    rw [List.length_cons]
    omega

/-- The body of a function has a value inside of so many calls that as many as `calls` may follow. -/
def HasBodyValue (A : Arithmetic α) (functions : Bindings UserFunction) (calls : Nat) (name : String) : Prop :=
  ∃ (values : Bindings α) (f : UserFunction) (x : α), functions.get? name = some f ∧
    Scope.evaluate A functions ⟨calls, values⟩ f.body = .ok x

theorem Scope.hasBodyValue_of_calls (h : s.evaluate A functions e = .ok x) (hcall : e.Calls name) :
    ∃ calls < s.calls, HasBodyValue A functions calls name := by
  obtain ⟨t, f, y, hcalls, hf, hbody⟩ := Scope.exists_body_value h hcall
  exact ⟨t.calls, by omega, t.values, f, y, hf, hbody⟩

/-- Along a call fewer calls are left. -/
theorem HasBodyValue.next {calls : Nat} {next : String} (h : HasBodyValue A functions calls name)
    (hnext : CallsNext functions name next) : ∃ left < calls, HasBodyValue A functions left next := by
  obtain ⟨values, f, x, hf, hbody⟩ := h
  obtain ⟨g, hg, hcall⟩ := hnext
  obtain rfl := Option.some.inj (hf.symm.trans hg)
  exact Scope.hasBodyValue_of_calls hbody hcall

theorem HasBodyValue.of_transGen {calls : Nat} {other : String} (h : HasBodyValue A functions calls name)
    (hpath : Relation.TransGen (CallsNext functions) name other) :
    ∃ left < calls, HasBodyValue A functions left other := by
  induction hpath with
  | single hnext => exact h.next hnext
  | tail _ hnext ih =>
    obtain ⟨left, hleft, hvalue⟩ := ih
    obtain ⟨rest, hrest, hvalue⟩ := hvalue.next hnext
    exact ⟨rest, hrest.trans hleft, hvalue⟩

/-- A function whose body has a value is not reached from itself: each round would leave fewer calls. -/
theorem HasBodyValue.not_transGen_self {calls : Nat} (h : HasBodyValue A functions calls name) :
    ¬Relation.TransGen (CallsNext functions) name name := by
  induction calls using Nat.strong_induction_on with
  | _ calls ih =>
    intro hcycle
    obtain ⟨left, hleft, hvalue⟩ := h.of_transGen hcycle
    exact ih left hleft hvalue hcycle

theorem Scope.exists_hasBodyValue (h : s.evaluate A functions e = .ok x) (hreaches : Reaches functions e name) :
    ∃ calls, HasBodyValue A functions calls name := by
  obtain ⟨first, hcall, hpath⟩ := hreaches
  obtain ⟨calls, -, hvalue⟩ := Scope.hasBodyValue_of_calls h hcall
  rcases Relation.reflTransGen_iff_eq_or_transGen.mp hpath with rfl | hpath
  · exact ⟨calls, hvalue⟩
  · obtain ⟨left, -, hvalue⟩ := hvalue.of_transGen hpath
    exact ⟨left, hvalue⟩

/-- Where a call fails for standing too deep, one more call leads there than the scope admits. -/
theorem Scope.exists_leads_of_callDepth (hA : A.Numeric) {error : Error}
    (h : s.evaluate A functions e = .error error) (hcause : error.cause = .callDepth name) :
    ∃ names body, Leads functions e names body ∧ names.length = s.calls + 1 := by
  obtain ⟨names, body, t, f, hat⟩ := Scope.exists_failsAt hA h
  obtain ⟨hzero, ⟨hname, args, span, hcall⟩, g, hg⟩ := hat.deep name hcause
  have hcalls : body.Calls name := ⟨hname, args, span, hat.node.trans hcall⟩
  have hlength := hat.calls
  refine ⟨names ++ [name], g.body, hat.leads.snoc hcalls hg, ?_⟩
  rw [List.length_append, List.length_singleton]
  omega

end

/-! ### The wording of a failure -/

theorem toString_string (text : String) : toString text = text := rfl

/-- The names of functions are in lower case. -/
theorem not_prefix_name (b : Builtin) (text rest : List Char) : ¬('M' :: text <+: b.name.toList ++ rest) := by
  have hhead : ∃ c cs, b.name.toList = c :: cs ∧ c ≠ 'M' := by
    cases b <;> simp only [Builtin.name, String.reduceToList] <;> exact ⟨_, _, rfl, by decide⟩
  obtain ⟨c, cs, hname, hc⟩ := hhead
  rw [hname, List.cons_append, List.cons_prefix_cons]
  exact fun h => hc h.1.symm

/-- No other failure is worded as that of calls which stand too deep. -/
theorem callDepth_of_message {cause : Cause} (h : "Maximum call depth exceeded".toList <+: cause.message.toList) :
    ∃ name, cause = .callDepth name := by
  unfold Cause.message at h
  cases cause with
  | callDepth name => exact ⟨name, rfl⟩
  | arity b n =>
    unfold Cause.arityMessage at h
    dsimp only at h
    split at h
    all_goals
      simp only [toString_string, String.toList_append, String.reduceToList, List.append_assoc] at h
      exact absurd h (not_prefix_name b _ _)
  | logOfNonPositive b | angleTooLarge b | argumentOutOfRange b =>
    simp only [toString_string, String.toList_append, String.reduceToList] at h
    exact absurd h (not_prefix_name b _ _)
  | _ => simp [toString_string, List.cons_prefix_cons] at h

/-! ### Both evaluators -/

/-- What an outcome of the expression says about the calls that lead from it. -/
structure CallsBounded (functions : Bindings UserFunction) (e : Expr) (outcome : Except Error α) : Prop where
  /-- A value takes functions that are defined … -/
  defined (x) : outcome = .ok x → ∀ name, Reaches functions e name → (functions.get? name).isSome
  /-- … and none of them may be reached from itself … -/
  acyclic (x) : outcome = .ok x → ∀ name, Reaches functions e name → ¬Relation.TransGen (CallsNext functions) name name
  /-- … nor may more calls stand inside each other than the limit admits. -/
  length_le (x) : outcome = .ok x → ∀ names body, Leads functions e names body → names.length ≤ maxCalls
  /-- Calls fail for standing too deep only if more do. -/
  lt_length (error) : outcome = .error error → "Maximum call depth exceeded".toList <+: error.cause.message.toList →
    ∃ names body, Leads functions e names body ∧ maxCalls < names.length

theorem callsBounded_evaluateIn (hA : A.Numeric) (ctx : Context α) (e : Expr) :
    CallsBounded ctx.functions e (ctx.evaluateIn A e) where
  defined x h name hreaches := by
    obtain ⟨calls, values, f, y, hf, -⟩ := Scope.exists_hasBodyValue (s := ⟨maxCalls, ctx.values⟩) h hreaches
    exact Option.isSome_of_eq_some hf
  acyclic x h name hreaches := by
    obtain ⟨calls, hvalue⟩ := Scope.exists_hasBodyValue (s := ⟨maxCalls, ctx.values⟩) h hreaches
    exact hvalue.not_transGen_self
  length_le x h names body hleads := Scope.length_le_of_leads (s := ⟨maxCalls, ctx.values⟩) h hleads
  lt_length error h hmessage := by
    obtain ⟨name, hcause⟩ := callDepth_of_message hmessage
    obtain ⟨names, body, hleads, hlength⟩ :=
      Scope.exists_leads_of_callDepth (s := ⟨maxCalls, ctx.values⟩) hA h hcause
    change names.length = maxCalls + 1 at hlength
    exact ⟨names, body, hleads, by omega⟩

/-- By the rules an expression in a context has the evaluator's outcome, and no other. -/
theorem evaluates_evaluateIn_iff (A : Arithmetic α) (ctx : Context α) (e : Expr) (outcome : Except Error α) :
    Evaluates A ctx.functions 0 ctx.values e outcome ↔ outcome = ctx.evaluateIn A e :=
  evaluates_iff.trans eq_comm

/-- Calls lead to the expression itself and to bodies of functions. -/
theorem Leads.eq_or_body {e body : Expr} {names : List String} (h : Leads functions e names body) :
    body = e ∨ ∃ name f, functions.get? name = some f ∧ body = f.body := by
  induction h with
  | here => exact .inl rfl
  | call _ hf _ ih =>
    rcases ih with rfl | hbody
    · exact .inr ⟨_, _, hf, rfl⟩
    · exact .inr hbody

/-- The call of a function with one argument that has no parts. -/
theorem hasNode_call_of_leaf {name : String} {c f : Expr} {span : Span} (hc : c.children = [])
    (h : (Expr.call name [c] span).HasNode f) : f = .call name [c] span ∨ f = c := by
  cases h with
  | root => exact .inl rfl
  | child hmem hf =>
    obtain rfl := List.mem_singleton.mp hmem
    cases hf with
    | root => exact .inr rfl
    | child hpart =>
      rw [hc] at hpart
      cases hpart

/-- Every evaluation ends, with one outcome, in decimal numbers if no numeral is met that machines do not agree on. It is
a value only if no function that the expression reaches is reached from itself and at most 256 calls stand inside each
other; and it is the failure of calls that stand too deep only if more than 256 do. -/
theorem recursion_bounded (fixed : Context Float) (precise : Context Decimal) (e : Expr) :
    ((∀ outcome, Evaluates (Fixed.arithmetic fixed.angle) fixed.functions 0 fixed.values e outcome ↔
        outcome = Fixed.evaluate fixed e) ∧
      CallsBounded fixed.functions e (Fixed.evaluate fixed e)) ∧
    ((∀ raw, MeetsNumeral precise.functions e raw → Decimal.AvoidsLeastPlace raw) →
      (∀ outcome, Evaluates (Precise.arithmeticOf precise) precise.functions 0 precise.values e outcome ↔
        outcome = Precise.evaluate precise e) ∧
      CallsBounded precise.functions e (Precise.evaluate precise e)) :=
  ⟨⟨evaluates_evaluateIn_iff _ fixed e, callsBounded_evaluateIn (Fixed.numeric_arithmetic _) fixed e⟩,
    fun _ => ⟨evaluates_evaluateIn_iff _ precise e, callsBounded_evaluateIn (Precise.numeric_arithmetic _ _) precise e⟩⟩

/-- Of a function that calls itself without end, more calls stand inside each other than the limit admits. -/
theorem recursion_bounded_endless :
    let functions : Bindings UserFunction := Bindings.ofList [("f", ⟨["n"], .call "f" [.free "n" ⟨2, 3⟩] ⟨0, 4⟩⟩)]
    let e : Expr := .call "f" [.constant .pi ⟨2, 4⟩] ⟨0, 5⟩
    (∀ raw, MeetsNumeral functions e raw → Decimal.AvoidsLeastPlace raw) ∧
      Fixed.evaluate ⟨.empty, functions, .radians, 15⟩ e = .error ⟨.callDepth "f", ⟨0, 4⟩⟩ ∧
      Precise.evaluate ⟨.empty, functions, .radians, 15⟩ e = .error ⟨.callDepth "f", ⟨0, 4⟩⟩ ∧
      ∃ names body, Leads functions e names body ∧ maxCalls < names.length := by
  intro functions e
  have hnumerals : ∀ raw, MeetsNumeral functions e raw → Decimal.AvoidsLeastPlace raw := by
    rintro raw ⟨names, body, value, span, hleads, hnode⟩
    rcases hleads.eq_or_body with rfl | ⟨name, f, hf, rfl⟩
    · rcases hasNode_call_of_leaf rfl hnode with h | h <;> cases h
    · rw [Bindings.get?_ofList, List.reverse_singleton, List.lookup_cons] at hf
      split at hf
      · obtain rfl := Option.some.inj hf
        rcases hasNode_call_of_leaf rfl hnode with h | h <;> cases h
      · cases hf
  have hfixed : Fixed.evaluate ⟨.empty, functions, .radians, 15⟩ e = .error ⟨.callDepth "f", ⟨0, 4⟩⟩ := by
    decide +kernel
  have hprecise : Precise.evaluate ⟨.empty, functions, .radians, 15⟩ e = .error ⟨.callDepth "f", ⟨0, 4⟩⟩ := by
    decide +kernel
  have hmessage : "Maximum call depth exceeded".toList <+: (Cause.callDepth "f").message.toList := by decide +kernel
  obtain ⟨-, hbounded⟩ := recursion_bounded .empty ⟨.empty, functions, .radians, 15⟩ e
  exact ⟨hnumerals, hfixed, hprecise, (hbounded hnumerals).2.lt_length _ hprecise hmessage⟩

end Calculator.Evaluation
