import Calculator.Evaluation.Precise
import Calculator.Proofs.Decimal.Functions
import Calculator.Proofs.Evaluation.Nodes
/-!
Evaluation in decimal numbers. Every node's value is in normal form, in range, and has no more digits than the
precision, unless it comes from a number with its last digit at `10 ^ 1000` by rounding to a whole number. The
operations of arithmetic give the exact result, rounded once.
-/
namespace Calculator.Evaluation.Precise

open Decimal

variable {p : Precision} {x y d : Decimal}

theorem orElse_eq_ok {cause : Cause} {value? : Option Decimal} : orElse cause value? = .ok d ↔ value? = some d := by
  cases value? with
  | none => exact Iff.intro (fun h => by cases h) (fun h => by cases h)
  | some c => exact Iff.intro (fun h => by cases h; rfl) (fun h => by cases h; rfl)

/-! ### Digits of the results -/

theorem within_number {value : Float} {raw : String} (h : number p value raw = .ok d) : d.Within p := by
  unfold number at h
  split at h
  · rename_i c hc
    exact Except.ok.inj h ▸ (normal_of_parse hc).roundTo p
  · cases h
  · obtain ⟨c, hc, rfl⟩ := Option.map_eq_some_iff.mp (orElse_eq_ok.mp h)
    exact (normal_of_ofFloat? hc).roundTo p

/-- Half of one more than a number that is not huge is in range. -/
theorem half_sum_representable {wp : Precision} {b : ℤ} (hb : 0 ≤ b) (hmax : b + 1 ≤ maxExponent) (hx : x.Within wp)
    (hlow : 0 ≤ x.toRat) (hhigh : x.toRat ≤ 10 ^ b) :
    Representable (rounded p.digits ((one.add x wp).toRat / two.toRat)) := by
  have hone : one.toRat = 1 := toRat_ofInt 1
  have htwo : two.toRat = 2 := toRat_ofInt 2
  have hsum : (one.add x wp).toRat = rounded wp.digits (1 + x.toRat) := by
    rw [toRat_add (isolated_of_digits (within_one wp).digits_le) (isolated_of_digits hx.digits_le), hone]
  have hpower : (10 : ℚ) ^ (b + 1) = 10 ^ b * 10 := zpow_add_one₀ (by norm_num) b
  have hbig : (1 : ℚ) ≤ 10 ^ b := one_le_zpow₀ (by norm_num) hb
  obtain ⟨hsumLow, hsumHigh⟩ := rounded_between wp.digits_pos (q := 1 + x.toRat) (a := 0) (b := b + 1)
    (by rw [zpow_zero]; linarith) (by rw [hpower]; linarith)
  rw [← hsum] at hsumLow hsumHigh
  rw [zpow_zero] at hsumLow
  obtain ⟨hhalfLow, hhalfHigh⟩ := rounded_between p.digits_pos (q := (one.add x wp).toRat / two.toRat) (a := -1)
    (b := b + 1) (by rw [zpow_neg_one, htwo]; linarith) (by rw [htwo]; linarith)
  exact representable_of_between (by unfold maxExponent; omega) hmax hhalfLow hhalfHigh

theorem within_constant (hmax : p.digits ≤ Precision.maxDigits) (c : Constant) : (constant p c).Within p := by
  cases c with
  | pi => exact within_pi p
  | tau => exact within_mul ..
  | e =>
    rw [constant]
    cases h : one.exp? p with
    | none => exact within_one p
    | some d => exact within_of_exp? h
  | phi =>
    have hroot : ((ofInt 5).sqrt? (p.guard 5)).getD zero = (ofInt 5).rootOfPositive 2 (p.guard 5) := by
      have hneg : (ofInt 5).isNegative = false := by decide +kernel
      have hzero : (ofInt 5).isZero = false := by decide +kernel
      rw [sqrt?, hneg, hzero]
      rfl
    have htwo : two.toRat ≠ 0 := by
      rw [two, toRat_ofInt]
      norm_num
    have hrep : Representable (rounded p.digits
        ((one.add ((ofInt 5).rootOfPositive 2 (p.guard 5)) (p.guard 5)).toRat / two.toRat)) := by
      refine half_sum_representable (by omega) ?_ (within_rootOfPositive ..) (toRat_rootOfPositive_nonneg ..)
        (sqrt_five_le (p.guard 5))
      have hguard : (p.guard 5).digits = p.digits + 5 := rfl
      unfold Precision.maxDigits at hmax
      unfold maxExponent
      omega
    rw [constant, hroot]
    obtain ⟨c, hc, hdiv⟩ := div?_eq (one.add ((ofInt 5).rootOfPositive 2 (p.guard 5)) (p.guard 5)) htwo p
    rw [checked_eq, hc, if_pos hrep] at hdiv
    rw [hdiv]
    exact within_of_div? hdiv

theorem within_of_power (h : power p x y = .ok d) : d.Within p := by
  unfold power at h
  split at h
  · rename_i c hc
    exact Except.ok.inj h ▸ within_of_pow? hc
  split at h
  · cases h
  split at h <;> cases h

theorem within_of_combine (hx : x.Normal) (hy : y.Normal) {op : BinaryOp} (h : combine p op x y = .ok d) :
    d.Within p := by
  cases op with
  | add => exact Except.ok.inj h ▸ hx.add hy p
  | sub => exact Except.ok.inj h ▸ hx.sub hy p
  | mul => exact within_of_mul? (orElse_eq_ok.mp h)
  | div =>
    rw [combine] at h
    split at h
    · cases h
    · exact within_of_div? (orElse_eq_ok.mp h)
  | mod => exact hx.of_rem? (orElse_eq_ok.mp h)
  | pow => exact within_of_power h

theorem within_of_factorial (h : factorial p x = .ok d) : d.Within p := by
  unfold factorial at h
  split at h
  · cases h
  split at h
  · cases h
  split at h
  · cases h
  split at h
  · cases h
  · exact Except.ok.inj h ▸ (normal_ofInt _).roundTo p

theorem within_of_gamma (h : gamma p x = .ok d) : d.Within p := by
  obtain ⟨value, -, h⟩ := bind_eq_ok.mp h
  obtain ⟨c, hc, rfl⟩ := Option.map_eq_some_iff.mp (orElse_eq_ok.mp h)
  exact (normal_of_ofFloat? hc).roundTo p

theorem within_of_rootOfNonNegative (h : rootOfNonNegative p x y = .ok d) : d.Within p := by
  unfold rootOfNonNegative at h
  split at h
  · exact within_of_sqrt? (orElse_eq_ok.mp h)
  · exact Except.ok.inj h ▸ within_cbrt x p
  · obtain ⟨inverse, -, h⟩ := bind_eq_ok.mp h
    exact within_of_power h

theorem within_of_root (h : root p x y = .ok d) : d.Within p := by
  unfold root at h
  split at h
  · cases h
  split at h
  · split at h
    · cases h
    · obtain ⟨r, hr, h⟩ := bind_eq_ok.mp h
      exact Except.ok.inj h ▸ (within_of_rootOfNonNegative hr).neg
  · exact within_of_rootOfNonNegative h

theorem normal_toRadians (hx : x.Normal) (angle : AngleUnit) : (toRadians angle p x).Normal := by
  cases angle with
  | degrees => exact (within_mul ..).normal
  | radians => exact hx

theorem normal_ofRadians (hx : x.Normal) (angle : AngleUnit) : (ofRadians angle p x).Normal := by
  cases angle with
  | degrees =>
    rw [ofRadians]
    cases h : (x.mul (ofInt 180) p).div? (pi p) p with
    | none => exact normal_zero
    | some c => exact (within_of_div? h).normal
  | radians => exact hx

theorem within_of_tangent (h : tangent p x = .ok d) : d.Within p := by
  unfold tangent at h
  split at h
  · rename_i c hc
    exact Except.ok.inj h ▸ within_of_tan? hc
  · split at h <;> cases h

/-- An angle that is converted from radians is rounded last. -/
theorem within_of_inverse {angle : AngleUnit} {wp : Precision} {cause : Cause} {radians : Option Decimal}
    (hradians : ∀ r, radians = some r → r.Normal)
    (h : orElse cause (radians.map fun r => (ofRadians angle wp r).roundTo p) = .ok d) : d.Within p := by
  obtain ⟨r, hr, rfl⟩ := Option.map_eq_some_iff.mp (orElse_eq_ok.mp h)
  exact (normal_ofRadians (hradians r hr) angle).roundTo p

/-- A built-in of one argument keeps the bound. The whole numbers near a number may have more digits than it. -/
theorem bounded_of_apply {angle : AngleUnit} {b : Builtin} (hx : x.Bounded p) (h : apply angle p b x = .ok d) :
    d.Bounded p := by
  cases b with
  | sin => exact ((normal_toRadians hx.1 angle).of_sin? (orElse_eq_ok.mp h)).bounded
  | cos => exact (within_of_cos? (orElse_eq_ok.mp h)).bounded
  | tan => exact (within_of_tangent h).bounded
  | asin => exact (within_of_inverse (fun _ hr => (within_of_asin? hr).normal) h).bounded
  | acos => exact (within_of_inverse (fun _ hr => (within_of_acos? hr).normal) h).bounded
  | atan =>
    have hinverse : (ofRadians angle (p.guard 10) (x.atan (p.guard 10))).roundTo p = d := Except.ok.inj h
    exact hinverse ▸ ((normal_ofRadians (within_atan ..).normal angle).roundTo p).bounded
  | sinh => exact (hx.1.of_sinh? (orElse_eq_ok.mp h)).bounded
  | cosh => exact (within_of_cosh? (orElse_eq_ok.mp h)).bounded
  | tanh => exact Except.ok.inj h ▸ (within_tanh x p).bounded
  | asinh => exact (hx.1.of_asinh? (orElse_eq_ok.mp h)).bounded
  | acosh => exact (within_of_acosh? (orElse_eq_ok.mp h)).bounded
  | atanh => exact (hx.1.of_atanh? (orElse_eq_ok.mp h)).bounded
  | exp => exact (within_of_exp? (orElse_eq_ok.mp h)).bounded
  | ln => exact (within_of_ln? (orElse_eq_ok.mp h)).bounded
  | log => exact bounded_of_logBase? (orElse_eq_ok.mp h)
  | log10 => exact bounded_of_logBase? (orElse_eq_ok.mp h)
  | log2 => exact bounded_of_logBase? (orElse_eq_ok.mp h)
  | sqrt => exact (within_of_sqrt? (orElse_eq_ok.mp h)).bounded
  | cbrt => exact Except.ok.inj h ▸ (within_cbrt x p).bounded
  | abs => exact Except.ok.inj h ▸ hx.abs
  | floor => exact Except.ok.inj h ▸ hx.floor
  | ceil => exact Except.ok.inj h ▸ hx.ceil
  | round => exact Except.ok.inj h ▸ hx.round
  | factorial => exact (within_of_factorial h).bounded
  | gamma => exact (within_of_gamma h).bounded
  | pow => cases h
  | root => cases h
  | min => cases h
  | max => cases h

/-- What holds of some numbers holds of the one that a choice between two, made over and over, leaves. -/
theorem foldl_choice {P : Decimal → Prop} {choose : Decimal → Decimal → Decimal}
    (hchoose : ∀ a b, choose a b = a ∨ choose a b = b) {x : Decimal} {xs : List Decimal}
    (h : ∀ c ∈ x :: xs, P c) : P (xs.foldl choose x) := by
  induction xs generalizing x with
  | nil => exact h x (List.mem_singleton_self x)
  | cons y ys ih =>
    obtain ⟨hx, h⟩ := List.forall_mem_cons.mp h
    obtain ⟨hy, hys⟩ := List.forall_mem_cons.mp h
    refine ih (List.forall_mem_cons.mpr ⟨?_, hys⟩)
    rcases hchoose x y with h | h <;> rw [h]
    · exact hx
    · exact hy

theorem keeps_bounded (angle : AngleUnit) (hmax : p.digits ≤ Precision.maxDigits) :
    (arithmetic angle p).Keeps (Bounded p) Normal where
  number h := (within_number h).bounded
  constant c := (within_constant hmax c).bounded
  fetch h := (h.roundTo p).bounded
  zero := normal_zero
  unary {op x y} hx h := by
    cases op with
    | plus => exact Except.ok.inj h ▸ hx
    | minus => exact Except.ok.inj h ▸ hx.neg
    | factorial => exact (within_of_factorial h).bounded
  binary {op x y z} hx hy h := by
    unfold Arithmetic.binary at h
    split at h
    · exact (within_of_power h).bounded
    · exact (within_of_combine hx.1 hy.1 h).bounded
  builtin {b xs y} hxs h := by
    unfold Arithmetic.builtin at h
    split at h
    · exact (within_of_power h).bounded
    · exact (within_of_root h).bounded
    · refine Except.ok.inj h ▸ foldl_choice (fun a b => ?_) hxs
      unfold Decimal.min
      split
      · exact .inr rfl
      · exact .inl rfl
    · refine Except.ok.inj h ▸ foldl_choice (fun a b => ?_) hxs
      unfold Decimal.max
      split
      · exact .inr rfl
      · exact .inl rfl
    · cases h
    · cases h
    · cases h
    · cases h
    · exact bounded_of_apply (hxs _ List.mem_cons_self) h
    · cases h
  accept hx h := eq_of_checked (orElse_eq_ok.mp h) ▸ hx
  stored h := h.1

/-! ### Every node -/

/-- The number of significant digits that the values in a context are rounded to. -/
def precisionOf (ctx : Context Decimal) : Precision := .ofRequest ctx.precision

theorem precisionOf_le (ctx : Context Decimal) : (precisionOf ctx).digits ≤ Precision.maxDigits :=
  digits_ofRequest_le ctx.precision

/-- The value of an expression in a scope of an evaluation in the context. -/
def valueIn (ctx : Context Decimal) (scope : Scope Decimal) (e : Expr) : Except Error Decimal :=
  scope.evaluate (arithmeticOf ctx) ctx.functions e

/-- Where the evaluation of an expression starts. -/
def start (ctx : Context Decimal) : Scope Decimal := ⟨maxCalls, ctx.values⟩

/-- Whether the evaluation of `e` meets the node `f`, in this scope. -/
def Meets (ctx : Context Decimal) (e : Expr) (scope : Scope Decimal) (f : Expr) : Prop :=
  Node (arithmeticOf ctx) ctx.functions (start ctx) e scope f

/-- All values of the context's variables are in normal form; they may have any number of digits. -/
def NormalValues (ctx : Context Decimal) : Prop := ∀ name x, ctx.values.get? name = some x → x.Normal

section
variable {ctx : Context Decimal}

theorem evaluate_eq (ctx : Context Decimal) (e : Expr) : evaluate ctx e = valueIn ctx (start ctx) e := rfl

theorem bounded_of_meets (hvalues : NormalValues ctx) {e f : Expr} {scope : Scope Decimal}
    (h : Meets ctx e scope f) (hd : valueIn ctx scope f = .ok d) : d.Bounded (precisionOf ctx) := by
  have hstart : (start ctx).Holds Normal := hvalues
  exact h.result (keeps_bounded ctx.angle (precisionOf_le ctx)) hstart hd

theorem inRange_of_accept {angle : AngleUnit} (h : (arithmetic angle p).accept x = .ok d) : d.inRange = true := by
  have hchecked := orElse_eq_ok.mp h
  unfold checked at hchecked
  split at hchecked
  · rename_i hrange
    exact Option.some.inj hchecked ▸ hrange
  · cases hchecked

/-- No node has a value that was not checked. -/
theorem inRange_of_value {scope : Scope Decimal} {e : Expr} (h : valueIn ctx scope e = .ok d) : d.inRange = true := by
  rw [valueIn, Scope.evaluate_eq] at h
  cases e with
  | number value raw span =>
    obtain ⟨x, -, h⟩ := bind_eq_ok.mp (locate_eq_ok.mp h)
    exact inRange_of_accept h
  | constant c span => exact inRange_of_accept (locate_eq_ok.mp h)
  | free name span =>
    rw [walk] at h
    split at h
    · exact inRange_of_accept (locate_eq_ok.mp h)
    · cases h
  | unary op e span =>
    obtain ⟨x, -, h⟩ := bind_eq_ok.mp h
    obtain ⟨y, -, h⟩ := bind_eq_ok.mp (locate_eq_ok.mp h)
    exact inRange_of_accept h
  | binary op l r span =>
    obtain ⟨x, -, h⟩ := bind_eq_ok.mp h
    obtain ⟨y, -, h⟩ := bind_eq_ok.mp h
    obtain ⟨z, -, h⟩ := bind_eq_ok.mp (locate_eq_ok.mp h)
    exact inRange_of_accept h
  | call name args span =>
    obtain ⟨xs, -, h⟩ := bind_eq_ok.mp h
    split at h
    · obtain ⟨y, -, h⟩ := bind_eq_ok.mp (locate_eq_ok.mp h)
      exact inRange_of_accept h
    · obtain ⟨y, -, h⟩ := bind_eq_ok.mp h
      exact inRange_of_accept (locate_eq_ok.mp h)
  | matrix rows span => cases h
  | complex re im span => cases h

/-- Every value that an evaluation meets is in normal form and in range, and has no more digits than the precision or
is stretched. Rounding to a whole number stretches exactly the positive numbers with their last digit at `10 ^ 1000`. -/
theorem values_bounded (ctx : Context Decimal) (hvalues : NormalValues ctx) (e : Expr) :
    (∀ d, evaluate ctx e = .ok d → d.Bounded (precisionOf ctx) ∧ d.inRange = true) ∧
    (∀ scope f d, Meets ctx e scope f → valueIn ctx scope f = .ok d →
      d.Bounded (precisionOf ctx) ∧ d.inRange = true) ∧
    ∀ x : Decimal, x.Within (precisionOf ctx) →
      ((precisionOf ctx).digits < x.round.digits ↔ 0 < x.mantissa ∧ x.exponent = Precision.maxDigits) := by
  refine ⟨fun d hd => ?_, fun scope f d h hd => ?_, fun x hx => ?_⟩
  · rw [evaluate_eq] at hd
    exact ⟨bounded_of_meets hvalues .root hd, inRange_of_value hd⟩
  · exact ⟨bounded_of_meets hvalues h hd, inRange_of_value hd⟩
  · exact hx.lt_digits_round_iff (precisionOf_le ctx)

/-- A context with two large variables. -/
def largeContext : Context Decimal := (Context.empty.setVariable "x" ⟨1, 1000⟩).setVariable "y" ⟨1, 1001⟩

theorem normalValues_setVariable (h : NormalValues ctx) {name : String} (hd : d.Normal) :
    NormalValues (ctx.setVariable name d) := by
  intro other x hx
  rcases eq_or_ne other name with rfl | hname
  · exact Option.some.inj ((Bindings.get?_set_self ..).symm.trans hx) ▸ hd
  · exact h other x ((Bindings.get?_set_of_ne _ _ hname).symm.trans hx)

theorem normalValues_large : NormalValues largeContext := by
  have hempty : NormalValues Context.empty := fun _ _ h => by cases h
  exact normalValues_setVariable (normalValues_setVariable hempty (by decide)) (by decide)

/-- The nearest whole number of a power of ten that has a thousand and one digits. -/
theorem values_bounded_stretched :
    evaluate largeContext (.call "round" [.free "x" ⟨6, 7⟩] ⟨0, 8⟩) = .ok ⟨10 ^ 1000 + 1, 0⟩ ∧
    (⟨10 ^ 1000 + 1, 0⟩ : Decimal).Bounded (precisionOf largeContext) := by
  have hvalue : evaluate largeContext (.call "round" [.free "x" ⟨6, 7⟩] ⟨0, 8⟩) = .ok ⟨10 ^ 1000 + 1, 0⟩ := by
    decide +kernel
  exact ⟨hvalue, ((values_bounded largeContext normalValues_large _).1 _ hvalue).1⟩

end

end Calculator.Evaluation.Precise
