import Calculator.Proofs.Decimal.Arithmetic
import Calculator.Proofs.Decimal.Nearest
/-!
Quotients and remainders of numbers of any length. A quotient is the only number in normal form that rounds the exact
one, and there is none exactly if the divisor is zero or that number is out of range. A remainder is exact before it is
rounded, and a divisor that is written out to the dividend's last place gets fewer zeros than the dividend has digits.
-/
namespace Calculator.Decimal

variable {a b : Decimal}

/-! ### Quotients -/

theorem checked_eq_some_iff {c d : Decimal} : c.checked = some d ↔ c = d ∧ Representable d.toRat := by
  rw [checked_eq]
  constructor
  · intro h
    split at h
    · rename_i hrange
      cases h
      exact ⟨rfl, hrange⟩
    · cases h
  · rintro ⟨rfl, hrange⟩
    rw [if_pos hrange]

theorem checked_eq_none_iff {c : Decimal} : c.checked = none ↔ ¬Representable c.toRat := by
  rw [checked_eq]
  split
  · rename_i hrange
    exact iff_of_false (Option.some_ne_none _) (not_not.mpr hrange)
  · rename_i hrange
    exact iff_of_true rfl hrange

theorem div?_of_zero (a : Decimal) (hb : b.toRat = 0) (p : Precision) : a.div? b p = none := by
  rw [div?, if_pos (isZero_iff.mpr hb)]

/-- The quotient is determined: it is in normal form, and rounds the exact one. -/
theorem div?_eq_some_iff {c : Decimal} {p : Precision} : a.div? b p = some c ↔
    b.toRat ≠ 0 ∧ c.Normal ∧ IsRounding p.digits (a.toRat / b.toRat) c.toRat ∧ Representable c.toRat := by
  rcases eq_or_ne b.toRat 0 with hb | hb
  · rw [div?_of_zero a hb]
    exact iff_of_false (Option.some_ne_none c).symm fun h => h.1 hb
  obtain ⟨d, hd, hdiv⟩ := div?_eq a hb p
  rw [isRounding_iff p.digits_pos, ← hd]
  constructor
  · intro h
    obtain ⟨rfl, hrange⟩ := checked_eq_some_iff.mp (hdiv.symm.trans h)
    exact ⟨hb, (within_of_div? h).normal, rfl, hrange⟩
  · rintro ⟨-, hnormal, hvalue, hrange⟩
    have hsome : a.div? b p = some d := by
      rw [hdiv, checked_eq_some_iff, ← hvalue]
      exact ⟨rfl, hrange⟩
    rw [hsome, (within_of_div? hsome).normal.eq_of_toRat hnormal hvalue.symm]

theorem div?_eq_none_iff {p : Precision} : a.div? b p = none ↔
    b.toRat = 0 ∨ ∃ q, IsRounding p.digits (a.toRat / b.toRat) q ∧ ¬Representable q := by
  rcases eq_or_ne b.toRat 0 with hb | hb
  · rw [div?_of_zero a hb]
    exact iff_of_true rfl (.inl hb)
  obtain ⟨d, hd, hdiv⟩ := div?_eq a hb p
  simp only [isRounding_iff p.digits_pos, ← hd, hdiv, checked_eq_none_iff, hb, false_or, exists_eq_left]

/-- A quotient of numbers of any length is the exact one, rounded once, and there is none exactly if the divisor is zero
or the rounded quotient is out of range. The dividend's shift has to fit in 32 bits. -/
theorem quotient_rounds_once (a b : Decimal) (p : Precision) (_ : p.digits + 2 + b.digits < 2 ^ 32 + a.digits) :
    (a.div? b p = none ↔ b.toRat = 0 ∨ ∃ q, IsRounding p.digits (a.toRat / b.toRat) q ∧ ¬Representable q) ∧
      ∀ c, a.div? b p = some c ↔
        b.toRat ≠ 0 ∧ c.Normal ∧ IsRounding p.digits (a.toRat / b.toRat) c.toRat ∧ Representable c.toRat :=
  ⟨div?_eq_none_iff, fun _ => div?_eq_some_iff⟩

/-- A third, to fifteen digits. -/
theorem quotient_rounds_once_of_third :
    15 + 2 + (ofInt 3).digits < 2 ^ 32 + one.digits ∧ one.div? (ofInt 3) ⟨15, by decide⟩ = some ⟨333333333333333, -15⟩ ∧
      IsRounding 15 (one.toRat / (ofInt 3).toRat) (toRat ⟨333333333333333, -15⟩) := by
  have hshift : 15 + 2 + (ofInt 3).digits < 2 ^ 32 + one.digits := by decide +kernel
  have hquotient : one.div? (ofInt 3) ⟨15, by decide⟩ = some ⟨333333333333333, -15⟩ := by decide +kernel
  have hround := ((quotient_rounds_once one (ofInt 3) ⟨15, by decide⟩ hshift).2 _).mp hquotient
  exact ⟨hshift, hquotient, hround.2.2.1⟩

/-- A half goes away from zero, what is just below one does not, and a quotient is carried out of the range. -/
example : div? ⟨1, 0⟩ ⟨8, 0⟩ (.ofRequest 2) = some ⟨13, -2⟩ ∧
    div? ⟨-5, 0⟩ ⟨200000001, -8⟩ (.ofRequest 1) = some ⟨-2, 0⟩ ∧
    div? ⟨999, 999999999999998⟩ ⟨1, 0⟩ (.ofRequest 2) = none := by decide +kernel

/-! ### Remainders -/

section
variable {x y : ℚ}

/-- The remainder of absolute values is not negative, and less than the divisor. -/
theorem remainder_abs_mem (x : ℚ) (hy : y ≠ 0) : 0 ≤ remainder |x| |y| ∧ remainder |x| |y| < |y| := by
  have hpos := abs_pos.mpr hy
  have hlow := Int.floor_le (|x| / |y|)
  have hhigh := Int.lt_floor_add_one (|x| / |y|)
  rw [le_div_iff₀ hpos] at hlow
  rw [div_lt_iff₀ hpos] at hhigh
  rw [remainder, truncate, if_neg (not_lt.mpr (by positivity))]
  constructor <;> linarith

theorem abs_remainder (x : ℚ) (hy : y ≠ 0) : |remainder x y| = remainder |x| |y| := by
  rw [remainder_eq_ite]
  split
  · rw [abs_neg, abs_of_nonneg (remainder_abs_mem x hy).1]
  · rw [abs_of_nonneg (remainder_abs_mem x hy).1]

/-- A remainder that is not zero has the sign of the dividend. -/
theorem sign_remainder (hy : y ≠ 0) (h : remainder x y ≠ 0) : SignType.sign (remainder x y) = SignType.sign x := by
  have hpos : 0 < remainder |x| |y| := abs_remainder x hy ▸ abs_pos.mpr h
  rw [remainder_eq_ite]
  split
  · rename_i hx
    rw [sign_neg (by linarith), sign_neg hx]
  · rename_i hx
    have hx0 : x ≠ 0 := by
      rintro rfl
      exact h (remainder_of_lt (by rw [abs_zero]; exact abs_pos.mpr hy))
    rw [sign_pos hpos, sign_pos (lt_of_le_of_ne (not_lt.mp hx) hx0.symm)]

end

/-- Numbers in the order of their absolute values have their first digits in that order. -/
theorem leading_le (hb : b.mantissa ≠ 0) (h : |b.toRat| ≤ |a.toRat|) : b.leading ≤ a.leading := by
  have ha : a.mantissa ≠ 0 := by
    rintro ha
    rw [toRat_eq_zero_iff.mpr ha, abs_zero, abs_nonpos_iff] at h
    exact hb (toRat_eq_zero_iff.mp h)
  rw [← log_toRat ha, ← log_toRat hb]
  exact Int.log_mono_right (abs_pos.mpr (mt toRat_eq_zero_iff.mp hb)) h

/-- The zeros behind a divisor that is written out to the last place of a greater dividend are fewer than its digits. -/
theorem gap_lt_digits (hb : b.mantissa ≠ 0) (h : |b.toRat| ≤ |a.toRat|) : b.exponent - a.exponent < a.digits := by
  have hleading := leading_le hb h
  have hcount := Digits.count_pos b.mantissa.natAbs
  rw [leading, leading, digits] at hleading
  omega

/-- A divisor with a higher last place is written out to the dividend's, by a power of ten that the dividend's digits
bound. -/
theorem rem?_of_lt (hb : b.toRat ≠ 0) (h : a.exponent < b.exponent) (hle : |b.toRat| ≤ |a.toRat|) (p : Precision) :
    ∃ gap < a.digits, b.exponent = a.exponent + gap ∧ a.rem? b p = some
      (((ofParts (a.mantissa.natAbs % (b.mantissa.natAbs * pow10 gap) : ℕ) a.exponent).negIf a.isNegative).roundTo p) := by
  have hgap := gap_lt_digits (mt toRat_eq_zero_iff.mpr hb) hle
  refine ⟨(b.exponent - a.exponent).toNat, by omega, by omega, ?_⟩
  have hgreat : ¬(a.isZero || a.abs.lt b.abs) = true := by
    rw [Bool.or_eq_true, isZero_iff, lt_iff, toRat_abs, toRat_abs, not_or, not_lt]
    exact ⟨abs_pos.mp ((abs_pos.mpr hb).trans_le hle), hle⟩
  rw [rem?, if_neg (mt isZero_iff.mp hb), if_neg hgreat, remainderAbs, if_neg (not_le.mpr h), min_eq_left h.le]

/-- The remainder of numbers of any length is the exact one of a division that is cut toward zero, rounded once. Before
it is rounded it has the dividend's sign, unless it is zero, and is less than the divisor in magnitude. Where the
divisor is written out to a lower last place, the power of ten is less than the number of the dividend's digits. -/
theorem remainder_exact (a : Decimal) {b : Decimal} (hb : b.toRat ≠ 0) (p : Precision) :
    (∃ r : Decimal, r.toRat = a.toRat - b.toRat * truncate (a.toRat / b.toRat) ∧ a.rem? b p = some (r.roundTo p) ∧
      IsRounding p.digits r.toRat (r.roundTo p).toRat ∧
      (r.toRat ≠ 0 → SignType.sign r.toRat = SignType.sign a.toRat) ∧ |r.toRat| < |b.toRat|) ∧
    (a.exponent < b.exponent → |b.toRat| ≤ |a.toRat| →
      ∃ gap < a.digits, b.exponent = a.exponent + gap ∧ a.rem? b p = some
        (((ofParts (a.mantissa.natAbs % (b.mantissa.natAbs * pow10 gap) : ℕ) a.exponent).negIf a.isNegative).roundTo p)) := by
  refine ⟨?_, fun h hle => rem?_of_lt hb h hle p⟩
  obtain ⟨r, hvalue, hrem⟩ := exists_exact_remainder a hb p
  refine ⟨r, hvalue, hrem, ?_, ?_, ?_⟩
  · rw [isRounding_iff p.digits_pos, toRat_roundTo]
  · rw [hvalue]
    exact sign_remainder hb
  · rw [hvalue, abs_remainder _ hb]
    exact (remainder_abs_mem _ hb).2

/-- The power of ten of a great dividend is not written out, and a divisor is, by one zero. -/
theorem remainder_exact_gap :
    (∃ r : Decimal, rem? ⟨-2, 1000000000000000⟩ ⟨7, -1⟩ (.ofRequest 20) = some (r.roundTo (.ofRequest 20)) ∧
      |r.toRat| < |toRat ⟨7, -1⟩|) ∧
    ∃ gap < digits ⟨12345, -3⟩, (-2 : ℤ) = -3 + gap ∧ rem? ⟨12345, -3⟩ ⟨7, -2⟩ (.ofRequest 20) =
      some (((ofParts (12345 % (7 * pow10 gap) : ℕ) (-3)).negIf false).roundTo (.ofRequest 20)) := by
  have hdivisor : toRat ⟨7, -1⟩ ≠ 0 := mt toRat_eq_zero_iff.mp (by decide)
  obtain ⟨r, -, hrem, -, -, hlt⟩ := (remainder_exact ⟨-2, 1000000000000000⟩ hdivisor (.ofRequest 20)).1
  refine ⟨⟨r, hrem, hlt⟩, ?_⟩
  have hdivisor' : toRat ⟨7, -2⟩ ≠ 0 := mt toRat_eq_zero_iff.mp (by decide)
  exact (remainder_exact ⟨12345, -3⟩ hdivisor' (.ofRequest 20)).2 (by decide) (by norm_num [toRat, abs_of_pos])

end Calculator.Decimal
