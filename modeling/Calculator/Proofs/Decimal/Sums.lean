import Calculator.Proofs.Decimal.Arithmetic
import Calculator.Proofs.Decimal.Nearest
/-!
Sums and differences of numbers of any length. An operand that lies far below the first digit of the other one is left
out. The other one alone is rounded as the sum is, unless a tie lies between the two; it has more digits than are kept
then, and the result is the wrong neighbour of the sum. The sign is always that of the exact sum, so that differences
agree with the order of numbers.
-/
namespace Calculator.Decimal

variable {a b : Decimal} {p : Precision}

/-- An operand is left out although a tie lies between the other one and the sum. -/
def MissesTie (p : Precision) (a b : Decimal) : Prop :=
  LeftOut p a b ∧ Separated p.digits a.toRat (a.toRat + b.toRat)

theorem LeftOut.abs_lt (h : LeftOut p a b) : |b.toRat| < |a.toRat| :=
  (le_mul_of_one_le_right (abs_nonneg _) (one_le_pow₀ (by norm_num))).trans_lt h.abs_mul_lt

/-- A sum has the sign of the operand that is greater in magnitude. -/
theorem add_sign {x y : ℚ} (h : |y| < |x|) : 0 < x ∧ 0 < x + y ∨ x < 0 ∧ x + y < 0 := by
  obtain ⟨hlow, hhigh⟩ := abs_lt.mp h
  rcases abs_cases x with ⟨hx, -⟩ | ⟨hx, -⟩
  · have hpos : 0 < x := hx ▸ (abs_nonneg y).trans_lt h
    exact .inl ⟨hpos, by linarith⟩
  · have hneg : 0 < -x := hx ▸ (abs_nonneg y).trans_lt h
    exact .inr ⟨by linarith, by linarith⟩

theorem rounded_eq_iff_of_leftOut (h : LeftOut p a b) :
    rounded p.digits a.toRat = rounded p.digits (a.toRat + b.toRat) ↔ ¬MissesTie p a b := by
  rw [rounded_eq_iff p.digits_pos (add_sign h.abs_lt), MissesTie, and_iff_right h]

/-- The exact sum is rounded, unless a tie is missed. -/
theorem toRat_add_iff :
    (a.add b p).toRat = rounded p.digits (a.toRat + b.toRat) ↔ ¬MissesTie p a b ∧ ¬MissesTie p b a := by
  rcases add_cases a b p with ⟨hleft, hvalue⟩ | ⟨hleft, hvalue⟩ | ⟨hleft, hleft', hvalue⟩
  · rw [hvalue, toRat_roundTo, rounded_eq_iff_of_leftOut hleft, and_iff_left fun h => hleft.not_symm h.1]
  · rw [hvalue, toRat_roundTo, add_comm a.toRat, rounded_eq_iff_of_leftOut hleft,
      and_iff_right fun h => hleft.not_symm h.1]
  · exact iff_of_true hvalue ⟨fun h => hleft h.1, fun h => hleft' h.1⟩

/-- A sum or difference of numbers of any length is the exact one, rounded once, exactly if no tie is missed; that of
numbers with no more digits than are kept always is. -/
theorem sum_rounds_unless_tie_missed (a b : Decimal) (p : Precision) (_ : p.digits ≤ 10 ^ 9) :
    (IsRounding p.digits (a.toRat + b.toRat) (a.add b p).toRat ↔ ¬MissesTie p a b ∧ ¬MissesTie p b a) ∧
      (IsRounding p.digits (a.toRat - b.toRat) (a.sub b p).toRat ↔ ¬MissesTie p a b.neg ∧ ¬MissesTie p b.neg a) ∧
      (a.digits ≤ p.digits → b.digits ≤ p.digits →
        IsRounding p.digits (a.toRat + b.toRat) (a.add b p).toRat ∧
          IsRounding p.digits (a.toRat - b.toRat) (a.sub b p).toRat) := by
  simp only [isRounding_iff p.digits_pos]
  refine ⟨toRat_add_iff, ?_, fun ha hb => ?_⟩
  · rw [sub, sub_eq_add_neg, ← toRat_neg]
    exact toRat_add_iff
  · have ha' := (fits_of_digits ha).isolated p.digits_pos
    have hb' := (fits_of_digits hb).isolated p.digits_pos
    exact ⟨toRat_add ha' hb', toRat_sub ha' hb'⟩

/-- The sum of a tie and a tiny negative number lies below the tie, and is rounded up all the same; numbers with no
more than 15 digits are not in danger. -/
theorem sum_misses_tie :
    (Precision.ofRequest 15).digits ≤ 10 ^ 9 ∧ ¬IsRounding 15 (toRat ⟨1000000000000005, -15⟩ + toRat ⟨-1, -30⟩)
        (add ⟨1000000000000005, -15⟩ ⟨-1, -30⟩ (.ofRequest 15)).toRat ∧
      IsRounding 15 (toRat ⟨100000000000005, -14⟩ + toRat ⟨-1, -30⟩)
        (add ⟨100000000000005, -14⟩ ⟨-1, -30⟩ (.ofRequest 15)).toRat := by
  have htie : IsTie 15 (toRat ⟨1000000000000005, -15⟩) :=
    ⟨100000000000000, -14, by norm_num, by norm_num, by norm_num [toRat]⟩
  have hmissed : MissesTie (.ofRequest 15) ⟨1000000000000005, -15⟩ ⟨-1, -30⟩ :=
    ⟨⟨mt toRat_eq_zero_iff.mp (by decide), mt toRat_eq_zero_iff.mp (by decide), by decide +kernel⟩,
      _, htie, .inr ⟨by norm_num [toRat, abs_lt], le_abs_self _⟩⟩
  have hp : (Precision.ofRequest 15).digits ≤ 10 ^ 9 := by decide
  refine ⟨hp, fun h => ((sum_rounds_unless_tie_missed _ _ (.ofRequest 15) hp).1.mp h).1 hmissed, ?_⟩
  exact ((sum_rounds_unless_tie_missed _ _ (.ofRequest 15) hp).2.2 (by decide +kernel) (by decide +kernel)).1

/-! ### Signs of differences -/

theorem sign_add_of_abs_lt {x y : ℚ} (h : |y| < |x|) : SignType.sign (x + y) = SignType.sign x := by
  rcases add_sign h with ⟨hx, hsum⟩ | ⟨hx, hsum⟩
  · rw [sign_pos hx, sign_pos hsum]
  · rw [sign_neg hx, sign_neg hsum]

/-- A sum has the sign of the exact one, also where an operand is left out. -/
theorem sign_add (a b : Decimal) (p : Precision) :
    SignType.sign (a.add b p).toRat = SignType.sign (a.toRat + b.toRat) := by
  rcases add_cases a b p with ⟨hleft, hvalue⟩ | ⟨hleft, hvalue⟩ | ⟨-, -, hvalue⟩
  · rw [hvalue, toRat_roundTo, sign_rounded p.digits_pos, sign_add_of_abs_lt hleft.abs_lt]
  · rw [hvalue, toRat_roundTo, sign_rounded p.digits_pos, add_comm, sign_add_of_abs_lt hleft.abs_lt]
  · rw [hvalue, sign_rounded p.digits_pos]

theorem sign_sub (a b : Decimal) (p : Precision) :
    SignType.sign (a.sub b p).toRat = SignType.sign (a.toRat - b.toRat) := by
  rw [sub, sign_add, toRat_neg, sub_eq_add_neg]

/-- A difference in any precision compares with zero as the numbers compare with each other. -/
theorem sub_compares (a b : Decimal) (p : Precision) : (a.compare b).Compares (a.sub b p).toRat 0 := by
  have horder := compare_compares a b
  have hsign := sign_sub a b p
  cases hcompare : a.compare b with
  | lt =>
    rw [hcompare] at horder
    exact sign_eq_neg_one_iff.mp (hsign.trans (sign_neg (sub_neg.mpr horder)))
  | eq =>
    rw [hcompare] at horder
    exact sign_eq_zero_iff.mp (hsign.trans (sign_eq_zero_iff.mpr (sub_eq_zero.mpr horder)))
  | gt =>
    rw [hcompare] at horder
    exact sign_eq_one_iff.mp (hsign.trans (sign_pos (sub_pos.mpr horder)))

theorem Normal.compare_eq_iff (ha : a.Normal) (hb : b.Normal) : a.compare b = .eq ↔ a = b := by
  rw [(compare_compares a b).eq_eq]
  exact ⟨fun hvalue => ha.eq_of_toRat hb hvalue, congrArg toRat⟩

/-- Numbers in normal form are ordered by their values, equal ones are the same, and a difference is zero, positive or
negative as the order says, whatever the precision, if the operands can be aligned by a shift of 32 bits. -/
theorem differences_agree_with_order (a b : Decimal) (ha : a.Normal) (hb : b.Normal) :
    (a.compare b).Compares a.toRat b.toRat ∧ (a.compare b = .eq ↔ a = b) ∧
      ∀ p : Precision, p.digits + 2 + a.digits < 2 ^ 32 → p.digits + 2 + b.digits < 2 ^ 32 →
        (a.compare b).Compares (a.sub b p).toRat 0 :=
  ⟨compare_compares a b, ha.compare_eq_iff hb, fun p _ _ => sub_compares a b p⟩

/-- The least positive number does not count beside the greatest one, and the difference with one digit is right. -/
theorem greatest_exceeds_least :
    Normal ⟨9, maxExponent⟩ ∧ Normal ⟨1, -maxExponent⟩ ∧
      1 + 2 + digits ⟨9, maxExponent⟩ < 2 ^ 32 ∧ 1 + 2 + digits ⟨1, -maxExponent⟩ < 2 ^ 32 ∧
      toRat ⟨1, -maxExponent⟩ < toRat ⟨9, maxExponent⟩ ∧
      0 < (sub ⟨9, maxExponent⟩ ⟨1, -maxExponent⟩ (.ofRequest 1)).toRat := by
  have hgreat : Normal ⟨9, maxExponent⟩ := .inr (by decide)
  have hleast : Normal ⟨1, -maxExponent⟩ := .inr (by decide)
  obtain ⟨hvalues, -, hdifferences⟩ := differences_agree_with_order _ _ hgreat hleast
  have hcompare : compare ⟨9, maxExponent⟩ ⟨1, -maxExponent⟩ = .gt := by decide +kernel
  rw [hcompare] at hvalues hdifferences
  have hshift : 1 + 2 + digits ⟨9, maxExponent⟩ < 2 ^ 32 := by decide +kernel
  have hshift' : 1 + 2 + digits ⟨1, -maxExponent⟩ < 2 ^ 32 := by decide +kernel
  exact ⟨hgreat, hleast, hshift, hshift', hvalues, hdifferences _ hshift hshift'⟩

end Calculator.Decimal
