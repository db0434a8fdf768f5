import Calculator.Evaluation
import Calculator.Proofs.Bindings
import Calculator.Proofs.Except
import Mathlib.Data.List.Forall2
/-!
What an evaluation meets on its way: the nodes of the expression, and those of the bodies of the functions that it
calls. What the operations of an arithmetic keep holds of the value of every node.
-/
namespace Calculator.Evaluation

variable {α : Type}

/-- Where an expression is evaluated: how many more calls may stand inside each other, and which values are in sight. -/
structure Scope (α : Type) where
  calls : Nat
  values : Bindings α

section
variable (A : Arithmetic α) (functions : Bindings UserFunction)

namespace Scope

/-- The value of an expression in the scope. -/
def evaluate (s : Scope α) (e : Expr) : Except Error α := evaluateWithin A functions s.calls s.values e

/-- The value of a call of a function that is not built in. -/
def invoke : Scope α → Span → String → List α → Except Error α
  | ⟨0, _⟩, span, name, _ =>
    match functions.get? name with
    | none => .error ⟨.unknownFunction name, span⟩
    | some _ => .error ⟨.callDepth name, span⟩
  | ⟨calls + 1, values⟩, span, name, xs =>
    match functions.get? name with
    | none => .error ⟨.unknownFunction name, span⟩
    | some f => evaluate A functions ⟨calls, values.setAll A.zero f.params xs⟩ f.body

end Scope

/-- The nodes that an evaluation meets, each in its scope: from `e` in the scope `s` on. -/
inductive Node (s : Scope α) (e : Expr) : Scope α → Expr → Prop
  | root : Node s e s e
  | operand {scope op operand span} : Node s e scope (.unary op operand span) → Node s e scope operand
  | left {scope op l r span} : Node s e scope (.binary op l r span) → Node s e scope l
  | right {scope op l r span} : Node s e scope (.binary op l r span) → Node s e scope r
  | argument {scope name args span arg} : Node s e scope (.call name args span) → arg ∈ args → Node s e scope arg
  | body {calls values name args span f xs} : Node s e ⟨calls + 1, values⟩ (.call name args span) →
      Builtin.ofName? name = none → functions.get? name = some f →
      List.Forall₂ (fun arg x => Scope.evaluate A functions ⟨calls + 1, values⟩ arg = .ok x) args xs →
      Node s e ⟨calls, values.setAll A.zero f.params xs⟩ f.body

end

/-! ### One node -/

section
variable {A : Arithmetic α} {functions : Bindings UserFunction} {s : Scope α}

theorem Scope.evaluate_eq (s : Scope α) (e : Expr) :
    s.evaluate A functions e = walk A s.values (s.invoke A functions) e := by
  obtain ⟨calls, values⟩ := s
  cases calls with
  | zero => rfl
  | succ calls => rfl

theorem Scope.evaluate_binary (op : BinaryOp) (l r : Expr) (span : Span) {x y : α}
    (hx : s.evaluate A functions l = .ok x) (hy : s.evaluate A functions r = .ok y) :
    s.evaluate A functions (.binary op l r span) = locate span (A.binary op x y >>= A.accept) := by
  rw [evaluate_eq] at hx hy ⊢
  rw [walk, hx, hy]
  rfl

theorem locate_eq_ok {span : Span} {outcome : Except Cause α} {x : α} :
    locate span outcome = .ok x ↔ outcome = .ok x := by
  cases outcome with
  | ok y => exact Iff.intro (fun h => by cases h; rfl) (fun h => by cases h; rfl)
  | error cause => exact Iff.intro (fun h => by cases h) (fun h => by cases h)

end

/-! ### What the operations keep -/

/-- What holds of the results that an arithmetic gives for such results. The values of variables may be others. -/
structure Arithmetic.Keeps (A : Arithmetic α) (Result Stored : α → Prop) : Prop where
  number {value raw x} : A.number value raw = .ok x → Result x
  constant (c) : Result (A.constant c)
  fetch {x} : Stored x → Result (A.fetch x)
  zero : Stored A.zero
  unary {op x y} : Result x → A.unary op x = .ok y → Result y
  binary {op x y z} : Result x → Result y → A.binary op x y = .ok z → Result z
  builtin {b xs y} : (∀ x ∈ xs, Result x) → A.builtin b xs = .ok y → Result y
  accept {x y} : Result x → A.accept x = .ok y → Result y
  /-- The results of arguments become the values of parameters. -/
  stored {x} : Result x → Stored x

/-- All values of the variables in sight are such. -/
def Scope.Holds (s : Scope α) (Stored : α → Prop) : Prop := ∀ name x, s.values.get? name = some x → Stored x

theorem get?_setAll {Stored : α → Prop} {values : Bindings α} {zero : α} (hzero : Stored zero)
    (hvalues : ∀ name x, values.get? name = some x → Stored x) (params : List String) {xs : List α}
    (hxs : ∀ x ∈ xs, Stored x) : ∀ name x, (values.setAll zero params xs).get? name = some x → Stored x := by
  intro name y h
  rcases Bindings.get?_setAll_cases zero params xs name with ⟨x, hx, hset⟩ | hkept
  · obtain rfl : x = y := Option.some.inj ((hset values).symm.trans h)
    exact List.forall_mem_cons.mpr ⟨hzero, hxs⟩ x hx
  · exact hvalues name y ((hkept values).symm.trans h)

section
variable {A : Arithmetic α} {functions : Bindings UserFunction} {Result Stored : α → Prop}

mutual
/-- What the operations keep holds of the value of an expression, if it holds of the values of calls. -/
theorem Arithmetic.Keeps.walk (hA : A.Keeps Result Stored) {values : Bindings α}
    {invoke : Span → String → List α → Except Error α}
    (hvalues : ∀ name x, values.get? name = some x → Stored x)
    (hinvoke : ∀ span name xs x, (∀ x ∈ xs, Result x) → invoke span name xs = .ok x → Result x) :
    (e : Expr) → ∀ x, walk A values invoke e = .ok x → Result x
  | .number value raw span => by
    intro x h
    obtain ⟨y, hy, h⟩ := bind_eq_ok.mp (locate_eq_ok.mp h)
    exact hA.accept (hA.number hy) h
  | .constant c span => by
    intro x h
    exact hA.accept (hA.constant c) (locate_eq_ok.mp h)
  | .free name span => by
    intro x h
    rw [Evaluation.walk] at h
    split at h
    · rename_i y hy
      exact hA.accept (hA.fetch (hvalues name y hy)) (locate_eq_ok.mp h)
    · cases h
  | .unary op e span => by
    intro x h
    obtain ⟨y, hy, h⟩ := bind_eq_ok.mp h
    obtain ⟨z, hz, h⟩ := bind_eq_ok.mp (locate_eq_ok.mp h)
    exact hA.accept (hA.unary (hA.walk hvalues hinvoke e y hy) hz) h
  | .binary op l r span => by
    intro x h
    obtain ⟨y, hy, h⟩ := bind_eq_ok.mp h
    obtain ⟨y', hy', h⟩ := bind_eq_ok.mp h
    obtain ⟨z, hz, h⟩ := bind_eq_ok.mp (locate_eq_ok.mp h)
    exact hA.accept (hA.binary (hA.walk hvalues hinvoke l y hy) (hA.walk hvalues hinvoke r y' hy') hz) h
  | .call name args span => by
    intro x h
    obtain ⟨xs, hxs, h⟩ := bind_eq_ok.mp h
    have hresults := hA.walkList hvalues hinvoke args xs hxs
    split at h
    · obtain ⟨y, hy, h⟩ := bind_eq_ok.mp (locate_eq_ok.mp h)
      exact hA.accept (hA.builtin hresults hy) h
    · obtain ⟨y, hy, h⟩ := bind_eq_ok.mp h
      exact hA.accept (hinvoke _ _ _ _ hresults hy) (locate_eq_ok.mp h)
  | .matrix rows span => by
    intro x h
    cases h
  | .complex re im span => by
    intro x h
    cases h
theorem Arithmetic.Keeps.walkList (hA : A.Keeps Result Stored) {values : Bindings α}
    {invoke : Span → String → List α → Except Error α}
    (hvalues : ∀ name x, values.get? name = some x → Stored x)
    (hinvoke : ∀ span name xs x, (∀ x ∈ xs, Result x) → invoke span name xs = .ok x → Result x) :
    (es : List Expr) → ∀ xs, walkList A values invoke es = .ok xs → ∀ x ∈ xs, Result x
  | [] => by
    intro xs h
    cases h
    exact List.forall_mem_nil _
  | e :: es => by
    intro xs h
    obtain ⟨y, hy, h⟩ := bind_eq_ok.mp h
    obtain ⟨ys, hys, h⟩ := bind_eq_ok.mp h
    cases h
    exact List.forall_mem_cons.mpr ⟨hA.walk hvalues hinvoke e y hy, hA.walkList hvalues hinvoke es ys hys⟩
end

/-- What the operations keep holds of the value of every expression. -/
theorem Arithmetic.Keeps.evaluate (hA : A.Keeps Result Stored) {s : Scope α} (hs : s.Holds Stored) {e : Expr} {x : α}
    (h : s.evaluate A functions e = .ok x) : Result x := by
  obtain ⟨calls, values⟩ := s
  induction calls generalizing values e x with
  | zero =>
    rw [Scope.evaluate_eq] at h
    refine hA.walk hs (fun span name xs x _ hx => ?_) e x h
    rw [Scope.invoke] at hx
    split at hx <;> cases hx
  | succ calls ih =>
    rw [Scope.evaluate_eq] at h
    refine hA.walk hs (fun span name xs x hxs hx => ?_) e x h
    rw [Scope.invoke] at hx
    split at hx
    · cases hx
    · rename_i f hf
      exact ih _ (get?_setAll hA.zero hs f.params fun x hx => hA.stored (hxs x hx)) hx

/-- The values in sight of a node are those of the start, or results. -/
theorem Node.holds (hA : A.Keeps Result Stored) {s scope : Scope α} (hs : s.Holds Stored) {root e : Expr}
    (h : Node A functions s root scope e) : scope.Holds Stored := by
  induction h with
  | root => exact hs
  | operand _ ih => exact ih
  | left _ ih => exact ih
  | right _ ih => exact ih
  | argument _ _ ih => exact ih
  | body _ _ _ hxs ih =>
    refine get?_setAll hA.zero ih _ fun x hx => ?_
    obtain ⟨i, hi, rfl⟩ := List.getElem_of_mem hx
    exact hA.stored (hA.evaluate ih (hxs.get (hxs.length_eq ▸ hi) hi))

theorem Node.result (hA : A.Keeps Result Stored) {s scope : Scope α} (hs : s.Holds Stored) {root e : Expr}
    (h : Node A functions s root scope e) {x : α} (hx : scope.evaluate A functions e = .ok x) : Result x :=
  hA.evaluate (h.holds hA hs) hx

end

end Calculator.Evaluation
