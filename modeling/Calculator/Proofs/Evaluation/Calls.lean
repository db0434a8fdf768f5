import Calculator.Proofs.Evaluation.Agreement
import Calculator.Proofs.Grammar.Spans
/-!
What an expression calls. Calls lead from an expression to the bodies of functions, and from these to further bodies.
A value takes the values of all nodes and of all bodies that are called; a failure comes from one node, which lies in
the expression or in such a body.
-/
namespace Calculator

namespace Expr

theorem sizeOf_lt_of_mem_children {c e : Expr} (h : c ∈ e.children) : sizeOf c < sizeOf e := by
  cases e with
  | number | constant | free => cases h
  | unary op operand span =>
    obtain rfl := List.mem_singleton.mp h
    simp only [unary.sizeOf_spec]
    omega
  | binary op l r span =>
    simp only [binary.sizeOf_spec]
    rcases List.mem_pair.mp h with rfl | rfl <;> omega
  | call name args span =>
    have hlt : sizeOf c < sizeOf args := List.sizeOf_lt_of_mem h
    simp only [call.sizeOf_spec]
    omega
  | matrix rows span =>
    obtain ⟨row, hrow, hc⟩ := List.mem_flatten.mp h
    have hrowLt : sizeOf row < sizeOf rows := List.sizeOf_lt_of_mem hrow
    have hlt : sizeOf c < sizeOf row := List.sizeOf_lt_of_mem hc
    simp only [matrix.sizeOf_spec]
    omega
  | complex re im span =>
    simp only [complex.sizeOf_spec]
    rcases List.mem_pair.mp h with rfl | rfl <;> omega

/-- Induction over a tree, whatever the kinds of its nodes are. -/
theorem children_induction {motive : Expr → Prop} (h : ∀ e, (∀ c ∈ e.children, motive c) → motive e) (e : Expr) :
    motive e :=
  h e fun c _ => children_induction h c
termination_by sizeOf e
decreasing_by exact sizeOf_lt_of_mem_children ‹_›

theorem HasNode.trans {e f g : Expr} (hf : e.HasNode f) (hg : f.HasNode g) : e.HasNode g := by
  induction hf with
  | root => exact hg
  | child hc _ ih => exact .child hc (ih hg)

/-- Somewhere in the expression stands a variable of this name. -/
def Mentions (e : Expr) (name : String) : Prop := ∃ span, e.HasNode (.free name span)

/-- Somewhere in the expression stands a call of this function, which is not built in. -/
def Calls (e : Expr) (name : String) : Prop :=
  Builtin.ofName? name = none ∧ ∃ args span, e.HasNode (.call name args span)

section
variable {c e : Expr} {name : String}

theorem Mentions.of_child (hc : c ∈ e.children) (h : c.Mentions name) : e.Mentions name := by
  obtain ⟨span, hnode⟩ := h
  exact ⟨span, .child hc hnode⟩

theorem Calls.of_child (hc : c ∈ e.children) (h : c.Calls name) : e.Calls name := by
  obtain ⟨hname, args, span, hnode⟩ := h
  exact ⟨hname, args, span, .child hc hnode⟩

end

end Expr

namespace Evaluation

variable {α : Type} {A : Arithmetic α}

/-! ### One node and its children -/

section
variable {values : Bindings α} {invoke : Span → String → List α → Except Error α} {e : Expr} {error : Error} {x : α}

theorem walkList_eq_ok {es : List Expr} {xs : List α} :
    walkList A values invoke es = .ok xs ↔ List.Forall₂ (fun e x => walk A values invoke e = .ok x) es xs := by
  induction es generalizing xs with
  | nil =>
    rw [List.forall₂_nil_left_iff]
    constructor
    · intro h
      cases h
      rfl
    · rintro rfl
      rfl
  | cons e es ih =>
    constructor
    · intro h
      obtain ⟨x, hx, h⟩ := bind_eq_ok.mp h
      obtain ⟨ys, hys, h⟩ := bind_eq_ok.mp h
      cases h
      exact .cons hx (ih.mp hys)
    · intro h
      cases h with
      | cons hx hxs => exact bind_eq_ok.mpr ⟨_, hx, bind_eq_ok.mpr ⟨_, ih.mpr hxs, rfl⟩⟩

theorem exists_of_walkList_eq_error {es : List Expr} (h : walkList A values invoke es = .error error) :
    ∃ e ∈ es, walk A values invoke e = .error error := by
  induction es with
  | nil => cases h
  | cons e es ih =>
    rcases bind_eq_error.mp h with h | ⟨x, -, h⟩
    · exact ⟨e, List.mem_cons_self, h⟩
    rcases bind_eq_error.mp h with h | ⟨xs, -, h⟩
    · obtain ⟨c, hc, hfails⟩ := ih h
      exact ⟨c, List.mem_cons_of_mem e hc, hfails⟩
    · cases h

/-- A node has a value only if all of its children have. -/
theorem exists_value_of_mem_children (h : walk A values invoke e = .ok x) {c : Expr} (hc : c ∈ e.children) :
    ∃ y, walk A values invoke c = .ok y := by
  cases e with
  | number | constant | free => cases hc
  | unary op operand span =>
    obtain ⟨y, hy, -⟩ := bind_eq_ok.mp h
    obtain rfl := List.mem_singleton.mp hc
    exact ⟨y, hy⟩
  | binary op l r span =>
    obtain ⟨y, hy, h⟩ := bind_eq_ok.mp h
    obtain ⟨z, hz, -⟩ := bind_eq_ok.mp h
    rcases List.mem_pair.mp hc with rfl | rfl
    · exact ⟨y, hy⟩
    · exact ⟨z, hz⟩
  | call name args span =>
    obtain ⟨ys, hys, -⟩ := bind_eq_ok.mp h
    have hvalues := walkList_eq_ok.mp hys
    obtain ⟨i, hi, rfl⟩ := List.getElem_of_mem hc
    exact ⟨_, hvalues.get hi (hvalues.length_eq ▸ hi)⟩
  | matrix rows span => cases h
  | complex re im span => cases h

theorem exists_value_of_hasNode (h : walk A values invoke e = .ok x) {f : Expr} (hf : e.HasNode f) :
    ∃ y, walk A values invoke f = .ok y := by
  induction hf generalizing x with
  | root e => exact ⟨x, h⟩
  | child hc _ ih =>
    obtain ⟨y, hy⟩ := exists_value_of_mem_children h hc
    exact ih hy

/-- A call has a value only if the function gives one. -/
theorem exists_invoked_of_walk {name : String} {args : List Expr} {span : Span} (hname : Builtin.ofName? name = none)
    (h : walk A values invoke (.call name args span) = .ok x) : ∃ xs y, invoke span name xs = .ok y := by
  obtain ⟨xs, -, h⟩ := bind_eq_ok.mp h
  rw [hname] at h
  obtain ⟨y, hy, -⟩ := bind_eq_ok.mp h
  exact ⟨xs, y, hy⟩

/-- The failure is one of the node itself: it is located there, and is none of calls that stand too deep. -/
def IsOwn (e : Expr) (error : Error) : Prop := error.span = e.span ∧ ∀ name, error.cause ≠ .callDepth name

theorem isOwn_of_locate {outcome : Except Cause α} (hnumbers : Numerical outcome)
    (h : locate e.span outcome = .error error) : IsOwn e error := by
  cases outcome with
  | ok x => cases h
  | error cause =>
    cases h
    refine ⟨rfl, fun name hname => ?_⟩
    have hcause : Cause.isStructural (.callDepth name) = false := hname ▸ hnumbers cause rfl
    cases hcause

theorem isOwn_of_builtin (hA : A.Numeric) {b : Builtin} {xs : List α}
    (h : locate e.span (A.builtin b xs >>= A.accept) = .error error) : IsOwn e error := by
  cases hadmits : b.arity.admits xs.length with
  | true => exact isOwn_of_locate ((hA.builtin hadmits).bind hA.accept) h
  | false =>
    rw [A.builtin_of_not_admits hadmits] at h
    cases h
    exact ⟨rfl, by rintro _ ⟨⟩⟩

/-- A node fails as one of its children does, as the function does that it calls, or by itself. -/
theorem failure_of_walk (hA : A.Numeric) (h : walk A values invoke e = .error error) :
    (∃ c ∈ e.children, walk A values invoke c = .error error) ∨
    (∃ name args span xs, e = .call name args span ∧ Builtin.ofName? name = none ∧
      invoke span name xs = .error error) ∨
    IsOwn e error := by
  cases e with
  | number value raw span => exact .inr (.inr (isOwn_of_locate ((hA.number value raw).bind hA.accept) h))
  | constant c span => exact .inr (.inr (isOwn_of_locate (hA.accept (A.constant c)) h))
  | free name span =>
    right; right
    rw [walk] at h
    split at h
    · exact isOwn_of_locate (hA.accept _) h
    · cases h
      exact ⟨rfl, by rintro _ ⟨⟩⟩
  | unary op operand span =>
    rcases bind_eq_error.mp h with h | ⟨x, -, h⟩
    · exact .inl ⟨operand, List.mem_singleton_self operand, h⟩
    · exact .inr (.inr (isOwn_of_locate ((hA.unary op x).bind hA.accept) h))
  | binary op l r span =>
    rcases bind_eq_error.mp h with h | ⟨x, -, h⟩
    · exact .inl ⟨l, List.mem_cons_self, h⟩
    rcases bind_eq_error.mp h with h | ⟨y, -, h⟩
    · exact .inl ⟨r, List.mem_cons_of_mem l (List.mem_singleton_self r), h⟩
    · exact .inr (.inr (isOwn_of_locate ((hA.binary op x y).bind hA.accept) h))
  | call name args span =>
    rcases bind_eq_error.mp h with h | ⟨xs, -, h⟩
    · exact .inl (exists_of_walkList_eq_error h)
    cases hname : Builtin.ofName? name with
    | some b =>
      rw [hname] at h
      exact .inr (.inr (isOwn_of_builtin hA h))
    | none =>
      rw [hname] at h
      rcases bind_eq_error.mp h with h | ⟨y, -, h⟩
      · exact .inr (.inl ⟨name, args, span, xs, rfl, hname, h⟩)
      · exact .inr (.inr (isOwn_of_locate (hA.accept y) h))
  | matrix rows span =>
    cases h
    exact .inr (.inr ⟨rfl, by rintro _ ⟨⟩⟩)
  | complex re im span =>
    cases h
    exact .inr (.inr ⟨rfl, by rintro _ ⟨⟩⟩)

end

/-! ### Calls inside each other -/

section
variable {functions : Bindings UserFunction} {s : Scope α} {e : Expr} {x : α} {error : Error}

/-- Calls that stand inside each other lead from an expression to a body: the expression calls the first function, whose
body calls the next. -/
inductive Leads (functions : Bindings UserFunction) : Expr → List String → Expr → Prop
  | here (e : Expr) : Leads functions e [] e
  | call {e body : Expr} {name : String} {names : List String} {f : UserFunction} (hcall : e.Calls name)
      (hf : functions.get? name = some f) (h : Leads functions f.body names body) :
      Leads functions e (name :: names) body

/-- Where calls lead from a part of an expression, they lead from the whole. -/
theorem Leads.of_child {c body : Expr} {names : List String} (hc : c ∈ e.children) (h : Leads functions c names body) :
    ∃ whole, Leads functions e names whole ∧ ∀ f, body.HasNode f → whole.HasNode f := by
  cases h with
  | here => exact ⟨e, .here e, fun f hf => .child hc hf⟩
  | call hcall hf h => exact ⟨body, .call (hcall.of_child hc) hf h, fun f hf => hf⟩

/-- One more call in the body to which calls lead. -/
theorem Leads.snoc {body : Expr} {names : List String} {name : String} {f : UserFunction}
    (h : Leads functions e names body) (hcall : body.Calls name) (hf : functions.get? name = some f) :
    Leads functions e (names ++ [name]) f.body := by
  induction h with
  | here e => exact .call hcall hf (.here f.body)
  | call hfirst hg _ ih => exact .call hfirst hg (ih hcall)

/-- A function that gives a value is defined, and its body has that value one call deeper. -/
theorem Scope.invoke_eq_ok {span : Span} {name : String} {xs : List α}
    (h : s.invoke A functions span name xs = .ok x) :
    ∃ calls f, s.calls = calls + 1 ∧ functions.get? name = some f ∧
      Scope.evaluate A functions ⟨calls, s.values.setAll A.zero f.params xs⟩ f.body = .ok x := by
  obtain ⟨calls, values⟩ := s
  cases calls with
  | zero =>
    rw [invoke] at h
    split at h <;> cases h
  | succ calls =>
    rw [invoke] at h
    split at h
    · cases h
    · rename_i f hf
      exact ⟨calls, f, rfl, hf, h⟩

/-- A function fails at its call, where it is not known or stands too deep, or as its body does one call deeper. -/
theorem Scope.invoke_eq_error {span : Span} {name : String} {xs : List α}
    (h : s.invoke A functions span name xs = .error error) :
    error = ⟨.unknownFunction name, span⟩ ∨
    (error = ⟨.callDepth name, span⟩ ∧ s.calls = 0 ∧ ∃ f, functions.get? name = some f) ∨
    ∃ calls f, s.calls = calls + 1 ∧ functions.get? name = some f ∧
      Scope.evaluate A functions ⟨calls, s.values.setAll A.zero f.params xs⟩ f.body = .error error := by
  obtain ⟨calls, values⟩ := s
  cases calls with
  | zero =>
    rw [invoke] at h
    split at h
    · exact .inl (Except.error.inj h).symm
    · rename_i f hf
      exact .inr (.inl ⟨(Except.error.inj h).symm, rfl, f, hf⟩)
  | succ calls =>
    rw [invoke] at h
    split at h
    · exact .inl (Except.error.inj h).symm
    · rename_i f hf
      exact .inr (.inr ⟨calls, f, rfl, hf, h⟩)

/-- If an expression has a value, so has the body of every function that it calls, one call deeper. -/
theorem Scope.exists_body_value (h : s.evaluate A functions e = .ok x) {name : String} (hcall : e.Calls name) :
    ∃ (t : Scope α) (f : UserFunction) (y : α), s.calls = t.calls + 1 ∧ functions.get? name = some f ∧
      t.evaluate A functions f.body = .ok y := by
  obtain ⟨hname, args, span, hnode⟩ := hcall
  rw [Scope.evaluate_eq] at h
  obtain ⟨z, hz⟩ := exists_value_of_hasNode h hnode
  obtain ⟨xs, y, hy⟩ := exists_invoked_of_walk hname hz
  obtain ⟨calls, f, hcalls, hf, hbody⟩ := Scope.invoke_eq_ok hy
  exact ⟨_, f, y, hcalls, hf, hbody⟩

/-- The failure of `e` in the scope `s` comes from the node `f` of `body`, to which calls of these functions lead. The
node fails in the scope `t`. -/
structure FailsAt (A : Arithmetic α) (functions : Bindings UserFunction) (s : Scope α) (e : Expr) (error : Error)
    (names : List String) (body : Expr) (t : Scope α) (f : Expr) : Prop where
  leads : Leads functions e names body
  node : body.HasNode f
  calls : t.calls + names.length = s.calls
  /-- Outside of all calls the scope is the one of the start. -/
  scope : names = [] → t = s
  evaluate : t.evaluate A functions f = .error error
  span : error.span = f.span
  /-- For standing too deep fails the call of a known function, where no call is left. -/
  deep : ∀ name, error.cause = .callDepth name → t.calls = 0 ∧ f.Calls name ∧ ∃ g, functions.get? name = some g

/-- A node that fails by itself. -/
theorem FailsAt.here (h : s.evaluate A functions e = .error error) (hspan : error.span = e.span)
    (hdeep : ∀ name, error.cause = .callDepth name →
      s.calls = 0 ∧ e.Calls name ∧ ∃ g, functions.get? name = some g) :
    FailsAt A functions s e error [] e s e where
  leads := .here e
  node := .root e
  calls := rfl
  scope _ := rfl
  evaluate := h
  span := hspan
  deep := hdeep

/-- Every failure comes from a node. -/
theorem Scope.exists_failsAt (hA : A.Numeric) (h : s.evaluate A functions e = .error error) :
    ∃ names body t f, FailsAt A functions s e error names body t f := by
  induction hcalls : s.calls using Nat.strong_induction_on generalizing s e with
  | _ calls ihcalls =>
  induction e using Expr.children_induction with
  | h e ihchildren =>
  have hwalk := h
  rw [Scope.evaluate_eq] at hwalk
  rcases failure_of_walk hA hwalk with ⟨c, hc, hfails⟩ | ⟨name, args, span, xs, rfl, hname, hfails⟩ | ⟨hspan, hcause⟩
  · obtain ⟨names, body, t, f, hat⟩ := ihchildren c hc (by rw [Scope.evaluate_eq]; exact hfails)
    obtain ⟨whole, hleads, hnodes⟩ := hat.leads.of_child hc
    exact ⟨names, whole, t, f, { hat with leads := hleads, node := hnodes f hat.node }⟩
  · have hcall : (Expr.call name args span).Calls name := ⟨hname, args, span, .root _⟩
    rcases Scope.invoke_eq_error hfails with rfl | ⟨rfl, hzero, hg⟩ | ⟨left, g, hleft, hg, hbody⟩
    · exact ⟨[], _, s, _, .here h rfl (by rintro _ ⟨⟩)⟩
    · refine ⟨[], _, s, _, .here h rfl fun other hother => ?_⟩
      cases hother
      exact ⟨hzero, hcall, hg⟩
    · obtain ⟨names, body, t, f, hat⟩ := ihcalls left (by omega) hbody rfl
      have hdepth : t.calls + names.length = left := hat.calls
      refine ⟨name :: names, body, t, f, { hat with leads := .call hcall hg hat.leads, calls := ?_, scope := ?_ }⟩
      · rw [List.length_cons]
        omega
      · intro hnil
        cases hnil
  · exact ⟨[], e, s, e, .here h hspan fun name hname => absurd hname (hcause name)⟩

end

end Evaluation
end Calculator
