import Calculator.Proofs.Evaluation.Precise
/-!
Nodes of arithmetic round once: the value of a sum, difference, product, quotient or remainder is the exact result for
the values of the operands, rounded. It fails exactly by a division by zero, or if the rounded result is out of range.
-/
namespace Calculator.Evaluation.Precise

open Decimal

/-- The exact result, if it is defined. Powers are not among these operations. -/
def exactResult? (op : BinaryOp) (x y : ℚ) : Option ℚ :=
  match op with
  | .add => some (x + y)
  | .sub => some (x - y)
  | .mul => some (x * y)
  | .div => if y = 0 then none else some (x / y)
  | .mod => if y = 0 then none else some (remainder x y)
  | .pow => none

/-- What is to be seen of a node with this exact result: a value, or a code and the characters of the node. -/
def roundedOutcome (p : ℕ) (span : Span) : Option ℚ → Except (ErrorCode × Span) ℚ
  | none => .error (.divisionByZero, span)
  | some q => if Representable (rounded p q) then .ok (rounded p q) else .error (.overflow, span)

/-- What is seen of a node's outcome. -/
def seen (outcome : Except Error Decimal) : Except (ErrorCode × Span) ℚ :=
  (outcome.map toRat).mapError fun error => (error.cause.code, error.span)

variable {p : Precision} {x y : Decimal}

/-- A result that was checked once is checked again without effect. -/
theorem accept_of_checked (angle : AngleUnit) (c : Decimal) :
    (orElse .resultTooLarge c.checked >>= (arithmetic angle p).accept) = orElse .resultTooLarge c.checked := by
  cases h : c.checked with
  | none => rfl
  | some d =>
    have hd := eq_of_checked h
    subst hd
    exact congrArg (orElse .resultTooLarge) h

theorem seen_of_checked {c : Decimal} {q : ℚ} (hc : c.toRat = rounded p.digits q) (span : Span) :
    seen (locate span (orElse .resultTooLarge c.checked)) = roundedOutcome p.digits span (some q) := by
  rw [checked_eq, hc, roundedOutcome]
  split
  · rw [← hc]
    rfl
  · rfl

/-- An operation gives the exact result, rounded once and checked for its range, if that is defined. -/
theorem combine_rounds (angle : AngleUnit) {op : BinaryOp} (hop : op ≠ .pow) (hx : Isolated p.digits x.toRat)
    (hy : Isolated p.digits y.toRat) :
    (exactResult? op x.toRat y.toRat = none ∧
      ∃ cause : Cause, combine p op x y = .error cause ∧ cause.code = .divisionByZero) ∨
    ∃ (q : ℚ) (c : Decimal), exactResult? op x.toRat y.toRat = some q ∧ c.toRat = rounded p.digits q ∧
      (combine p op x y >>= (arithmetic angle p).accept) = orElse .resultTooLarge c.checked := by
  cases op with
  | add => exact .inr ⟨_, x.add y p, rfl, toRat_add hx hy, rfl⟩
  | sub => exact .inr ⟨_, x.sub y p, rfl, toRat_sub hx hy, rfl⟩
  | mul =>
    obtain ⟨c, hc, hmul⟩ := mul?_eq x y p
    refine .inr ⟨_, c, rfl, hc, ?_⟩
    rw [combine, hmul]
    exact accept_of_checked angle c
  | div =>
    rcases eq_or_ne y.toRat 0 with hzero | hzero
    · refine .inl ⟨if_pos hzero, .divisionByZero, ?_, rfl⟩
      rw [combine, if_pos (isZero_iff.mpr hzero)]
    · obtain ⟨c, hc, hdiv⟩ := div?_eq x hzero p
      refine .inr ⟨_, c, if_neg hzero, hc, ?_⟩
      rw [combine, if_neg (mt isZero_iff.mp hzero), hdiv]
      exact accept_of_checked angle c
  | mod =>
    rcases eq_or_ne y.toRat 0 with hzero | hzero
    · refine .inl ⟨if_pos hzero, .moduloByZero, ?_, rfl⟩
      rw [combine, rem?, if_pos (isZero_iff.mpr hzero)]
      rfl
    · obtain ⟨c, hc, hrem⟩ := rem?_eq x hzero p
      refine .inr ⟨_, c, if_neg hzero, hc, ?_⟩
      rw [combine, hrem]
      rfl
  | pow => exact absurd rfl hop

/-- What is seen of a node of arithmetic is the exact result for the values of its operands, rounded once. The operands
have no more digits than the precision or are stretched, and if neither is, a remainder is not changed by rounding. -/
theorem binary_rounds_once {ctx : Context Decimal} (hvalues : NormalValues ctx) {e : Expr} {scope : Scope Decimal}
    {op : BinaryOp} {l r : Expr} {span : Span} (hnode : Meets ctx e scope (.binary op l r span)) (hop : op ≠ .pow)
    (hx : valueIn ctx scope l = .ok x) (hy : valueIn ctx scope r = .ok y) :
    seen (valueIn ctx scope (.binary op l r span)) =
        roundedOutcome (precisionOf ctx).digits span (exactResult? op x.toRat y.toRat) ∧
      x.Bounded (precisionOf ctx) ∧ y.Bounded (precisionOf ctx) ∧
      (op = .mod → y.toRat ≠ 0 → x.digits ≤ (precisionOf ctx).digits → y.digits ≤ (precisionOf ctx).digits →
        rounded (precisionOf ctx).digits (remainder x.toRat y.toRat) = remainder x.toRat y.toRat) := by
  have hxb := bounded_of_meets hvalues hnode.left hx
  have hyb := bounded_of_meets hvalues hnode.right hy
  refine ⟨?_, hxb, hyb, fun _ hzero hxd hyd => rounded_of_fits (fits_remainder hxd hyd hzero)⟩
  have hvalue : valueIn ctx scope (.binary op l r span) =
      locate span (combine (precisionOf ctx) op x y >>= (arithmetic ctx.angle (precisionOf ctx)).accept) := by
    rw [valueIn, Scope.evaluate_binary op l r span hx hy, Arithmetic.binary, if_neg hop]
    rfl
  rw [hvalue]
  rcases combine_rounds ctx.angle hop (hxb.isolated (precisionOf_le ctx)) (hyb.isolated (precisionOf_le ctx)) with
    ⟨hexact, cause, hcombine, hcode⟩ | ⟨q, c, hexact, hc, hcombine⟩
  · rw [hexact, hcombine]
    exact congrArg (fun code => Except.error (code, span)) hcode
  · rw [hexact, hcombine]
    exact seen_of_checked hc span

/-- The remainder of a stretched number by a greater one has more digits than the precision. -/
theorem binary_rounds_once_stretched :
    seen (valueIn largeContext (start largeContext)
        (.binary .mod (.call "round" [.free "x" ⟨6, 7⟩] ⟨0, 8⟩) (.free "y" ⟨11, 12⟩) ⟨0, 12⟩)) =
      roundedOutcome 15 ⟨0, 12⟩ (exactResult? .mod (⟨10 ^ 1000 + 1, 0⟩ : Decimal).toRat (⟨1, 1001⟩ : Decimal).toRat) :=
  (binary_rounds_once normalValues_large .root (by decide) (by decide +kernel) (by decide +kernel)).1

end Calculator.Evaluation.Precise
