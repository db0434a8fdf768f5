import Calculator.Proofs.Decimal.Functions
/-!
The numbers that are obtained from integers, doubles and literals by the operations on decimal numbers. All of them are
in normal form, so that equality, integrality and parity are read off their parts.
-/
namespace Calculator.Decimal

/-! ### Integrality and parity of a number in normal form -/

section
variable {d : Decimal}

/-- A fraction in normal form has digits behind the point. -/
theorem Normal.isInteger_iff (hd : d.Normal) : d.isInteger = true ↔ ∃ n : ℤ, d.toRat = n := by
  constructor
  · intro h
    exact ⟨_, toRat_eq_cast (of_decide_eq_true h)⟩
  · rintro ⟨n, hn⟩
    refine decide_eq_true ?_
    by_cases hzero : d.mantissa = 0
    · rw [hd.eq_zero hzero]
      exact le_refl _
    · have hsame : d.toRat = toRat ⟨n, 0⟩ := by rw [hn, toRat, zpow_zero, mul_one]
      exact exponent_le_of_toRat (hd.not_dvd hzero) hsame

theorem isOdd?_eq_none_iff : d.isOdd? = none ↔ d.isInteger = false := by
  rw [isOdd?, isInteger, decide_eq_false_iff_not, not_le]
  split
  · rename_i h
    exact iff_of_true rfl h
  · rename_i h
    split
    · exact iff_of_false (by simp) h
    · exact iff_of_false (by simp) h

/-- A whole number with zeros at its end is even, and any other has the parity of its mantissa. -/
theorem isOdd?_eq_some {n : ℤ} (hd : d.isInteger = true) (hn : d.toRat = n) : d.isOdd? = some (decide (Odd n)) := by
  have hexponent : 0 ≤ d.exponent := of_decide_eq_true hd
  have hvalue : n = d.mantissa * 10 ^ d.exponent.toNat := by
    have hrat := toRat_eq_cast hexponent
    rw [hn] at hrat
    exact_mod_cast hrat
  rw [isOdd?, if_neg (by omega), hvalue]
  split
  · rename_i hpos
    have heven : Even (d.mantissa * 10 ^ d.exponent.toNat) :=
      (Even.pow_of_ne_zero (by decide) (by omega)).mul_left _
    rw [decide_eq_false (Int.not_odd_iff_even.mpr heven)]
  · rename_i hzero
    have hexponent : d.exponent = 0 := by omega
    rw [hexponent, Int.toNat_zero, pow_zero, mul_one]
    congr 1
    rw [Bool.eq_iff_iff, bne_iff_ne, decide_eq_true_iff, Int.odd_iff]
    omega

end

/-! ### The operations -/

/-- An operation on one number. -/
inductive UnaryOperation
  | neg | abs | roundTo | floor | ceil | round
  | powInt (n : ℤ)
  | sqrt | cbrt | exp | ln | log10 | log2
  | sin | cos | tan | asin | acos | atan
  | sinh | cosh | tanh | asinh | acosh | atanh

/-- An operation on two numbers. -/
inductive BinaryOperation
  | add | sub | mul | checkedMul | div | rem | pow

/-- The result at a precision, if there is one. -/
def UnaryOperation.apply (p : Precision) (x : Decimal) : UnaryOperation → Option Decimal
  | neg => some x.neg
  | abs => some x.abs
  | roundTo => some (x.roundTo p)
  | floor => some x.floor
  | ceil => some x.ceil
  | round => some x.round
  | powInt n => x.powInt? n p
  | sqrt => x.sqrt? p
  | cbrt => some (x.cbrt p)
  | exp => x.exp? p
  | ln => x.ln? p
  | log10 => x.log10? p
  | log2 => x.log2? p
  | sin => x.sin? p
  | cos => x.cos? p
  | tan => x.tan? p
  | asin => x.asin? p
  | acos => x.acos? p
  | atan => some (x.atan p)
  | sinh => x.sinh? p
  | cosh => x.cosh? p
  | tanh => some (x.tanh p)
  | asinh => x.asinh? p
  | acosh => x.acosh? p
  | atanh => x.atanh? p

/-- The result at a precision, if there is one. -/
def BinaryOperation.apply (p : Precision) (x y : Decimal) : BinaryOperation → Option Decimal
  | add => some (x.add y p)
  | sub => some (x.sub y p)
  | mul => some (x.mul y p)
  | checkedMul => x.mul? y p
  | div => x.div? y p
  | rem => x.rem? y p
  | pow => x.pow? y p

section
variable {p : Precision} {x y z : Decimal}

theorem Normal.of_unary (hx : x.Normal) {op : UnaryOperation} (h : op.apply p x = some z) : z.Normal := by
  cases op with
  | neg => exact Option.some.inj h ▸ hx.neg
  | abs => exact Option.some.inj h ▸ hx.abs
  | roundTo => exact Option.some.inj h ▸ (hx.roundTo p).normal
  | floor => exact Option.some.inj h ▸ hx.floor
  | ceil => exact Option.some.inj h ▸ hx.ceil
  | round => exact Option.some.inj h ▸ hx.round
  | powInt n => exact (within_of_powInt? h).normal
  | sqrt => exact (within_of_sqrt? h).normal
  | cbrt => exact Option.some.inj h ▸ (within_cbrt x p).normal
  | exp => exact (within_of_exp? h).normal
  | ln => exact (within_of_ln? h).normal
  | log10 | log2 => exact (bounded_of_logBase? h).1
  | sin => exact (hx.of_sin? h).normal
  | cos => exact (within_of_cos? h).normal
  | tan => exact (within_of_tan? h).normal
  | asin => exact (within_of_asin? h).normal
  | acos => exact (within_of_acos? h).normal
  | atan => exact Option.some.inj h ▸ (within_atan x p).normal
  | sinh => exact (hx.of_sinh? h).normal
  | cosh => exact (within_of_cosh? h).normal
  | tanh => exact Option.some.inj h ▸ (within_tanh x p).normal
  | asinh => exact (hx.of_asinh? h).normal
  | acosh => exact (within_of_acosh? h).normal
  | atanh => exact (hx.of_atanh? h).normal

theorem Normal.of_binary (hx : x.Normal) (hy : y.Normal) {op : BinaryOperation} (h : op.apply p x y = some z) :
    z.Normal := by
  cases op with
  | add => exact Option.some.inj h ▸ (hx.add hy p).normal
  | sub => exact Option.some.inj h ▸ (hx.sub hy p).normal
  | mul => exact Option.some.inj h ▸ (within_mul x y p).normal
  | checkedMul => exact (within_of_mul? h).normal
  | div => exact (within_of_div? h).normal
  | rem => exact (hx.of_rem? h).normal
  | pow => exact (within_of_pow? h).normal

end

/-! ### Sequences of operations -/

/-- The numbers that are obtained by operations, at any precisions. -/
inductive Obtainable : Decimal → Prop
  | zero : Obtainable zero
  | one : Obtainable one
  | ofInt (n : ℤ) : Obtainable (ofInt n)
  | ofFloat {x : Float} {d : Decimal} (h : ofFloat? x = some d) : Obtainable d
  | literal {text : String} {d : Decimal} (h : parse text = .ok d) : Obtainable d
  | pi (p : Precision) : Obtainable (pi p)
  | unary {x z : Decimal} (op : UnaryOperation) (p : Precision) (hx : Obtainable x) (h : op.apply p x = some z) :
      Obtainable z
  | binary {x y z : Decimal} (op : BinaryOperation) (p : Precision) (hx : Obtainable x) (hy : Obtainable y)
      (h : op.apply p x y = some z) : Obtainable z

theorem Obtainable.normal {d : Decimal} (h : Obtainable d) : d.Normal := by
  induction h with
  | zero => exact normal_zero
  | one => exact normal_ofInt 1
  | ofInt n => exact normal_ofInt n
  | ofFloat h => exact normal_of_ofFloat? h
  | literal h => exact normal_of_parse h
  | pi p => exact (within_pi p).normal
  | unary op p _ h ih => exact ih.of_unary h
  | binary op p _ _ h ihx ihy => exact ihx.of_binary ihy h

/-- Every number that is obtained is in normal form: it equals another one exactly if their values are equal, and its
exponent and its last digit tell whether it is whole, and whether it is odd. -/
theorem obtainable_canonical {d : Decimal} (hd : Obtainable d) :
    d.Normal ∧
    (∀ d', Obtainable d' → (d = d' ↔ d.toRat = d'.toRat)) ∧
    (d.isInteger = true ↔ ∃ n : ℤ, d.toRat = n) ∧
    (d.isOdd? = none ↔ ¬∃ n : ℤ, d.toRat = n) ∧
    ∀ n : ℤ, d.toRat = n → d.isOdd? = some (decide (Odd n)) := by
  have hinteger := hd.normal.isInteger_iff
  refine ⟨hd.normal, fun d' hd' => ⟨congrArg toRat, hd.normal.eq_of_toRat hd'.normal⟩, hinteger, ?_, ?_⟩
  · rw [isOdd?_eq_none_iff, ← hinteger, Bool.not_eq_true]
  · intro n hn
    exact isOdd?_eq_some (hinteger.mpr ⟨n, hn⟩) hn

/-- A quotient with digits behind the point is not whole, and its product with the divisor is the dividend again. -/
theorem obtainable_canonical_quotient :
    ∃ d, (ofInt 3).div? (ofInt 8) (.ofRequest 15) = some d ∧ (d.mul (ofInt 8) (.ofRequest 15) = ofInt 3) ∧
      d.isOdd? = none ∧ (ofInt 3).isOdd? = some (decide (Odd (3 : ℤ))) := by
  have hquotient : (ofInt 3).div? (ofInt 8) (.ofRequest 15) = some ⟨375, -3⟩ := by decide +kernel
  have hd : Obtainable ⟨375, -3⟩ := .binary .div (.ofRequest 15) (.ofInt 3) (.ofInt 8) hquotient
  have hproduct : Obtainable (mul ⟨375, -3⟩ (ofInt 8) (.ofRequest 15)) :=
    .binary .mul (.ofRequest 15) hd (.ofInt 8) rfl
  obtain ⟨-, -, hinteger, hodd, -⟩ := obtainable_canonical hd
  obtain ⟨-, hequal, -⟩ := obtainable_canonical hproduct
  refine ⟨_, hquotient, (hequal _ (.ofInt 3)).mpr (by decide +kernel), ?_, ?_⟩
  · exact hodd.mpr fun hwhole => Bool.false_ne_true (hinteger.mpr hwhole)
  · exact (obtainable_canonical (.ofInt 3)).2.2.2.2 3 (toRat_ofInt 3)

end Calculator.Decimal
