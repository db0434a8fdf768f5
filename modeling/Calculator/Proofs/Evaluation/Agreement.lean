import Calculator.Evaluation.Precise
import Calculator.Proofs.Evaluation.Nodes
/-!
One expression in two arithmetics. What it lacks (a variable, a function, an argument) does not depend on numbers, so
that both evaluations find the same thing missing at the same node, unless the numbers of one of them fail before.
-/
namespace Calculator

variable {α β : Type}

namespace Bindings

/-- The same names are bound, to values of any kind. -/
def SameNames (b : Bindings α) (c : Bindings β) : Prop := ∀ name, (b.get? name).isSome = (c.get? name).isSome

theorem SameNames.set {b : Bindings α} {c : Bindings β} (h : b.SameNames c) (name : String) (x : α) (y : β) :
    (b.set name x).SameNames (c.set name y) := by
  intro other
  rcases eq_or_ne other name with rfl | hne
  · rw [get?_set_self, get?_set_self, Option.isSome_some, Option.isSome_some]
  · rw [get?_set_of_ne b x hne, get?_set_of_ne c y hne]
    exact h other

/-- Parameters are bound by any number of arguments. -/
theorem SameNames.setAll {b : Bindings α} {c : Bindings β} (h : b.SameNames c) (x : α) (y : β) (params : List String)
    (xs : List α) (ys : List β) : (b.setAll x params xs).SameNames (c.setAll y params ys) := by
  induction params generalizing b c xs ys with
  | nil => exact h
  | cons param params ih =>
    cases xs with
    | nil =>
      cases ys with
      | nil => exact ih (h.set param x y) [] []
      | cons y' ys => exact ih (h.set param x y') [] ys
    | cons x' xs =>
      cases ys with
      | nil => exact ih (h.set param x' y) xs []
      | cons y' ys => exact ih (h.set param x' y') xs ys

end Bindings

namespace Evaluation

/-- Whether a failure lies in the expression and in what is bound, whatever the values are. -/
def Cause.isStructural : Cause → Bool
  | undefinedVariable _ | unknownFunction _ | callDepth _ | matrix | complex | arity .. => true
  | _ => false

/-- If the outcome is an error, then one of numbers. -/
def Numerical (outcome : Except Cause α) : Prop :=
  ∀ cause, outcome = .error cause → cause.isStructural = false

/-- Outcomes of one computation in two arithmetics: values that `R` relates, or the same error. An error of numbers on
one side may come before whatever happens on the other. -/
inductive Agrees (R : α → β → Prop) : Except Error α → Except Error β → Prop
  | values {x : α} {y : β} (h : R x y) : Agrees R (.ok x) (.ok y)
  | same (error : Error) : Agrees R (.error error) (.error error)
  | left {error : Error} (h : error.cause.isStructural = false) (outcome : Except Error β) :
      Agrees R (.error error) outcome
  | right {error : Error} (outcome : Except Error α) (h : error.cause.isStructural = false) :
      Agrees R outcome (.error error)

/-- As `Agrees`, for values of which nothing is to be known. -/
abbrev AgreesOnNumbers : Except Error α → Except Error β → Prop := Agrees fun _ _ => True

/-! ### Errors of numbers -/

section
variable {outcome : Except Cause α}

theorem numerical_ok (x : α) : Numerical (.ok x : Except Cause α) := fun _ h => nomatch h

theorem numerical_error {cause : Cause} (h : cause.isStructural = false) :
    Numerical (.error cause : Except Cause α) := by
  intro other hother
  rw [← Except.error.inj hother]
  exact h

theorem Numerical.bind {f : α → Except Cause β} (h : Numerical outcome) (hf : ∀ x, Numerical (f x)) :
    Numerical (outcome >>= f) := by
  intro cause hcause
  cases outcome with
  | ok x => exact hf x cause hcause
  | error other =>
    have hsame : other = cause := Except.error.inj hcause
    exact h cause (hsame ▸ rfl)

theorem numerical_ite {p : Prop} [Decidable p] {other : Except Cause α} (h : Numerical outcome)
    (hother : Numerical other) : Numerical (if p then outcome else other) := by
  split
  · exact h
  · exact hother

end

/-- The errors of an arithmetic's operations are errors of numbers. -/
structure Arithmetic.Numeric (A : Arithmetic α) : Prop where
  number (value raw) : Numerical (A.number value raw)
  factorial (x) : Numerical (A.factorial x)
  combine (op x y) : Numerical (A.combine op x y)
  power (x y) : Numerical (A.power x y)
  root (x y) : Numerical (A.root x y)
  /-- Built-ins with another number of arguments have operations of their own. -/
  apply {b : Builtin} (h : b.arity = .exactly 1) (x) : Numerical (A.apply b x)
  accept (x) : Numerical (A.accept x)

namespace Arithmetic

variable {A : Arithmetic α}

theorem Numeric.unary (hA : A.Numeric) (op : UnaryOp) (x : α) : Numerical (A.unary op x) := by
  cases op with
  | plus => exact numerical_ok x
  | minus => exact numerical_ok (A.neg x)
  | factorial => exact hA.factorial x

theorem Numeric.binary (hA : A.Numeric) (op : BinaryOp) (x y : α) : Numerical (A.binary op x y) :=
  numerical_ite (hA.power x y) (hA.combine op x y)

/-- A built-in that gets as many arguments as it takes may fail for its numbers only. -/
theorem Numeric.builtin (hA : A.Numeric) {b : Builtin} {xs : List α} (h : b.arity.admits xs.length = true) :
    Numerical (A.builtin b xs) := by
  cases b with
  | pow =>
    obtain ⟨x, y, rfl⟩ := List.length_eq_two.mp (beq_iff_eq.mp h).symm
    exact hA.power x y
  | root =>
    obtain ⟨x, y, rfl⟩ := List.length_eq_two.mp (beq_iff_eq.mp h).symm
    exact hA.root x y
  | min | max =>
    obtain ⟨x, xs, rfl⟩ := List.exists_cons_of_length_pos (Nat.pos_of_ne_zero (bne_iff_ne.mp h))
    exact numerical_ok _
  | _ =>
    obtain ⟨x, rfl⟩ := List.length_eq_one_iff.mp (beq_iff_eq.mp h).symm
    exact hA.apply rfl x

/-- With any other number of arguments it is refused, in every arithmetic. -/
theorem builtin_of_not_admits (A : Arithmetic α) {b : Builtin} {xs : List α}
    (h : b.arity.admits xs.length = false) : A.builtin b xs = .error (.arity b xs.length) := by
  cases b with
  | pow | root =>
    match xs with
    | [] | [_] | _ :: _ :: _ :: _ => rfl
    | [_, _] => cases h
  | min | max =>
    match xs with
    | [] => rfl
    | _ :: _ => simp [Builtin.arity, Arity.admits] at h
  | _ =>
    match xs with
    | [] | _ :: _ :: _ => rfl
    | [_] => cases h

end Arithmetic

namespace Fixed

theorem numerical_factorial (n : Float) : Numerical (factorial n) :=
  numerical_ite (numerical_error rfl)
    (numerical_ite (numerical_error rfl) (numerical_ite (numerical_error rfl) (numerical_ok _)))

theorem numerical_gamma (x : Float) : Numerical (gamma x) := numerical_ite (numerical_error rfl) (numerical_ok _)

theorem numerical_logarithm (b : Builtin) (log : Float → Float) (x : Float) : Numerical (logarithm b log x) :=
  numerical_ite (numerical_error rfl) (numerical_ok _)

theorem numeric_arithmetic (angle : AngleUnit) : (arithmetic angle).Numeric where
  number value _ := numerical_ok value
  factorial := numerical_factorial
  combine op x y := by
    cases op with
    | add | sub | mul | pow => exact numerical_ok _
    | div | mod => exact numerical_ite (numerical_error rfl) (numerical_ok _)
  power x y := numerical_ok (x.pow y)
  root x n := by
    refine numerical_ite (numerical_error rfl) (numerical_ite ?_ (numerical_ok _))
    exact numerical_ite (numerical_error rfl) (numerical_ok _)
  apply {b} h x := by
    cases b with
    | ln | log | log10 | log2 => exact numerical_logarithm _ _ x
    | sqrt => exact numerical_ite (numerical_error rfl) (numerical_ok _)
    | factorial => exact numerical_factorial x
    | gamma => exact numerical_gamma x
    | pow | root | min | max => cases h
    | _ => exact numerical_ok _
  accept x := numerical_ok x

end Fixed

namespace Precise

variable {p : Precision}

theorem numerical_orElse {cause : Cause} (h : cause.isStructural = false) (value? : Option Decimal) :
    Numerical (orElse cause value?) := by
  cases value? with
  | some d => exact numerical_ok d
  | none => exact numerical_error h

theorem numerical_number (value : Float) (raw : String) : Numerical (number p value raw) := by
  unfold number
  split
  · exact numerical_ok _
  · exact numerical_error rfl
  · exact numerical_orElse rfl _

theorem numerical_power (x y : Decimal) : Numerical (power p x y) := by
  unfold power
  split
  · exact numerical_ok _
  · exact numerical_ite (numerical_error rfl) (numerical_ite (numerical_error rfl) (numerical_error rfl))

theorem numerical_factorial (x : Decimal) : Numerical (factorial p x) := by
  unfold factorial
  refine numerical_ite (numerical_error rfl) (numerical_ite (numerical_error rfl) ?_)
  split
  · exact numerical_error rfl
  · exact numerical_ite (numerical_error rfl) (numerical_ok _)

theorem numerical_gamma (x : Decimal) : Numerical (gamma p x) :=
  (Fixed.numerical_gamma x.toFloat).bind fun _ => numerical_orElse rfl _

theorem numerical_rootOfNonNegative (x n : Decimal) : Numerical (rootOfNonNegative p x n) := by
  unfold rootOfNonNegative
  split
  · exact numerical_orElse rfl _
  · exact numerical_ok _
  · exact (numerical_orElse rfl _).bind fun inverse => numerical_power x inverse

theorem numerical_root (x n : Decimal) : Numerical (root p x n) := by
  have hnegative := (numerical_rootOfNonNegative (p := p) x.abs n).bind fun r => numerical_ok r.neg
  exact numerical_ite (numerical_error rfl)
    (numerical_ite (numerical_ite (numerical_error rfl) hnegative) (numerical_rootOfNonNegative x n))

theorem numerical_tangent (x : Decimal) : Numerical (tangent p x) := by
  unfold tangent
  split
  · exact numerical_ok _
  · exact numerical_ite (numerical_error rfl) (numerical_error rfl)

theorem numeric_arithmetic (angle : AngleUnit) (p : Precision) : (arithmetic angle p).Numeric where
  number := numerical_number
  factorial := numerical_factorial
  combine op x y := by
    cases op with
    | add | sub => exact numerical_ok _
    | mul | mod => exact numerical_orElse rfl _
    | div => exact numerical_ite (numerical_error rfl) (numerical_orElse rfl _)
    | pow => exact numerical_power x y
  power := numerical_power
  root := numerical_root
  apply {b} h x := by
    cases b with
    | tan => exact numerical_tangent _
    | factorial => exact numerical_factorial x
    | gamma => exact numerical_gamma x
    | atan | tanh | cbrt | abs | floor | ceil | round => exact numerical_ok _
    | pow | root | min | max => cases h
    | _ => exact numerical_orElse rfl _
  accept x := numerical_orElse rfl x.checked

end Precise

/-! ### Two walks -/

section
variable {A : Arithmetic α} {B : Arithmetic β}

theorem Agrees.bind {γ δ : Type} {R : α → β → Prop} {S : γ → δ → Prop} {x : Except Error α} {y : Except Error β}
    {f : α → Except Error γ} {g : β → Except Error δ} (h : Agrees R x y) (hf : ∀ a b, R a b → Agrees S (f a) (g b)) :
    Agrees S (x >>= f) (y >>= g) := by
  cases h with
  | values h => exact hf _ _ h
  | same error => exact .same error
  | left h _ => exact .left h _
  | right _ h => exact .right _ h

/-- The results of operations agree if both may fail for their numbers only. -/
theorem agrees_locate (span : Span) {x : Except Cause α} {y : Except Cause β} (hx : Numerical x) (hy : Numerical y) :
    AgreesOnNumbers (locate span x) (locate span y) := by
  cases x with
  | error cause => exact .left (hx cause rfl) _
  | ok a =>
    cases y with
    | error cause => exact .right _ (hy cause rfl)
    | ok b => exact .values trivial

theorem agrees_builtin (hA : A.Numeric) (hB : B.Numeric) (b : Builtin) {xs : List α} {ys : List β}
    (hlength : xs.length = ys.length) (span : Span) :
    AgreesOnNumbers (locate span (A.builtin b xs >>= A.accept)) (locate span (B.builtin b ys >>= B.accept)) := by
  cases hadmits : b.arity.admits xs.length with
  | true =>
    have hadmits' : b.arity.admits ys.length = true := hlength ▸ hadmits
    exact agrees_locate span ((hA.builtin hadmits).bind hA.accept) ((hB.builtin hadmits').bind hB.accept)
  | false =>
    rw [A.builtin_of_not_admits hadmits, B.builtin_of_not_admits (hlength ▸ hadmits), hlength]
    exact .same ⟨.arity b ys.length, span⟩

variable {values : Bindings α} {others : Bindings β} {invoke : Span → String → List α → Except Error α}
  {invoke' : Span → String → List β → Except Error β}

mutual
/-- Two walks over an expression agree if the same names are bound and calls agree. -/
theorem agrees_walk (hA : A.Numeric) (hB : B.Numeric) (hnames : values.SameNames others)
    (hinvoke : ∀ span name xs ys, AgreesOnNumbers (invoke span name xs) (invoke' span name ys)) :
    (e : Expr) → AgreesOnNumbers (walk A values invoke e) (walk B others invoke' e)
  | .number value raw span =>
    agrees_locate span ((hA.number value raw).bind hA.accept) ((hB.number value raw).bind hB.accept)
  | .constant c span => agrees_locate span (hA.accept (A.constant c)) (hB.accept (B.constant c))
  | .free name span => by
    have hbound := hnames name
    rw [walk, walk]
    cases hx : values.get? name with
    | none =>
      have hunbound : others.get? name = none := by simpa [hx] using hbound
      rw [hunbound]
      exact .same ⟨.undefinedVariable name, span⟩
    | some x =>
      have hother : (others.get? name).isSome := by simpa [hx] using hbound
      obtain ⟨y, hy⟩ := Option.isSome_iff_exists.mp hother
      rw [hy]
      exact agrees_locate span (hA.accept (A.fetch x)) (hB.accept (B.fetch y))
  | .unary op e span => by
    refine (agrees_walk hA hB hnames hinvoke e).bind fun x y _ => ?_
    exact agrees_locate span ((hA.unary op x).bind hA.accept) ((hB.unary op y).bind hB.accept)
  | .binary op l r span => by
    refine (agrees_walk hA hB hnames hinvoke l).bind fun x y _ => ?_
    refine (agrees_walk hA hB hnames hinvoke r).bind fun x' y' _ => ?_
    exact agrees_locate span ((hA.binary op x x').bind hA.accept) ((hB.binary op y y').bind hB.accept)
  | .call name args span => by
    refine (agrees_walkList hA hB hnames hinvoke args).bind fun xs ys hlength => ?_
    cases Builtin.ofName? name with
    | some b => exact agrees_builtin hA hB b hlength span
    | none =>
      refine (hinvoke span name xs ys).bind fun x y _ => ?_
      exact agrees_locate span (hA.accept x) (hB.accept y)
  | .matrix _ span => .same ⟨.matrix, span⟩
  | .complex _ _ span => .same ⟨.complex, span⟩
theorem agrees_walkList (hA : A.Numeric) (hB : B.Numeric) (hnames : values.SameNames others)
    (hinvoke : ∀ span name xs ys, AgreesOnNumbers (invoke span name xs) (invoke' span name ys)) :
    (es : List Expr) → Agrees (fun xs ys => xs.length = ys.length) (walkList A values invoke es)
      (walkList B others invoke' es)
  | [] => .values rfl
  | e :: es => by
    refine (agrees_walk hA hB hnames hinvoke e).bind fun x y _ => ?_
    refine (agrees_walkList hA hB hnames hinvoke es).bind fun xs ys hlength => ?_
    exact .values (congrArg Nat.succ hlength)
end

/-- Two evaluations with the same functions agree if the same names are bound at their start. -/
theorem agrees_evaluateWithin (hA : A.Numeric) (hB : B.Numeric) (functions : Bindings UserFunction) (calls : Nat)
    (hnames : values.SameNames others) (e : Expr) :
    AgreesOnNumbers (evaluateWithin A functions calls values e) (evaluateWithin B functions calls others e) := by
  induction calls generalizing values others e with
  | zero =>
    refine agrees_walk hA hB hnames (fun span name xs ys => ?_) e
    cases functions.get? name with
    | none => exact .same ⟨.unknownFunction name, span⟩
    | some f => exact .same ⟨.callDepth name, span⟩
  | succ calls ih =>
    refine agrees_walk hA hB hnames (fun span name xs ys => ?_) e
    cases functions.get? name with
    | none => exact .same ⟨.unknownFunction name, span⟩
    | some f => exact ih (hnames.setAll A.zero B.zero f.params xs ys) f.body

end

/-! ### Both evaluators -/

theorem Agrees.flip {R : α → β → Prop} {x : Except Error α} {y : Except Error β} (h : Agrees R x y) :
    Agrees (fun b a => R a b) y x := by
  cases h with
  | values h => exact .values h
  | same error => exact .same error
  | left h _ => exact .right _ h
  | right _ h => exact .left h _

/-- A failure that does not lie in the numbers is met on the other side too, unless the numbers fail there before. -/
theorem Agrees.error_of_structural {R : α → β → Prop} {y : Except Error β} {error : Error}
    (h : Agrees R (.error error) y) (hstructural : error.cause.isStructural = true) :
    ∃ other, y = .error other ∧ (other = error ∨ other.cause.isStructural = false) := by
  cases h with
  | same => exact ⟨error, rfl, .inl rfl⟩
  | left hnumbers _ =>
    rw [hnumbers] at hstructural
    cases hstructural
  | right _ hnumbers => exact ⟨_, rfl, .inr hnumbers⟩

/-- What an expression lacks, both evaluators find missing: if one of them fails for it, the other fails with the same
error, unless it has met an error of its numbers before. -/
theorem structural_errors_shared {fixed : Context Float} {precise : Context Decimal}
    (hfunctions : fixed.functions = precise.functions) (hnames : fixed.values.SameNames precise.values) (e : Expr) :
    (∀ error, Fixed.evaluate fixed e = .error error → error.cause.isStructural = true →
      ∃ other, Precise.evaluate precise e = .error other ∧ (other = error ∨ other.cause.isStructural = false)) ∧
    (∀ error, Precise.evaluate precise e = .error error → error.cause.isStructural = true →
      ∃ other, Fixed.evaluate fixed e = .error other ∧ (other = error ∨ other.cause.isStructural = false)) := by
  have hagrees : AgreesOnNumbers (Fixed.evaluate fixed e) (Precise.evaluate precise e) := by
    unfold Fixed.evaluate Precise.evaluate Context.evaluateIn
    rw [hfunctions]
    exact agrees_evaluateWithin (Fixed.numeric_arithmetic _) (Precise.numeric_arithmetic _ _) precise.functions maxCalls
      hnames e
  constructor
  · intro error herror hstructural
    rw [herror] at hagrees
    exact hagrees.error_of_structural hstructural
  · intro error herror hstructural
    rw [herror] at hagrees
    exact hagrees.flip.error_of_structural hstructural

/-- A literal beyond the range of decimal numbers comes before calls without end, which only doubles get to. -/
theorem structural_errors_shared_endless :
    let functions : Bindings UserFunction := Bindings.ofList [("f", ⟨["n"], .call "f" [.free "n" ⟨2, 3⟩] ⟨0, 4⟩⟩)]
    let e : Expr := .binary .add (.number Binary64.infinity "1e1000000000000001" ⟨0, 18⟩)
      (.call "f" [.number 1 "1" ⟨21, 22⟩] ⟨19, 23⟩) ⟨0, 23⟩
    Fixed.evaluate ⟨.empty, functions, .degrees, 15⟩ e = .error ⟨.callDepth "f", ⟨0, 4⟩⟩ ∧
      ∃ other, Precise.evaluate ⟨.empty, functions, .radians, 30⟩ e = .error other ∧
        (other = ⟨.callDepth "f", ⟨0, 4⟩⟩ ∨ other.cause.isStructural = false) := by
  intro functions e
  have hfixed : Fixed.evaluate ⟨.empty, functions, .degrees, 15⟩ e = .error ⟨.callDepth "f", ⟨0, 4⟩⟩ := by
    decide +kernel
  exact ⟨hfixed, (structural_errors_shared rfl (fun _ => rfl) e).1 _ hfixed rfl⟩

end Evaluation
end Calculator
