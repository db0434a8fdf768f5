import Calculator.Proofs.Decimal.Arithmetic
import Calculator.Proofs.Decimal.Nearest
/-!
Decimal numbers of any length, rounded to significant digits. The result is the nearest number with so many digits, and
of two equally near ones the greater in magnitude. Rounding changes just the numbers with more digits, goes along with
the sign, and keeps the order.
-/
namespace Calculator.Decimal

variable {a b : Decimal}

/-! ### Signs -/

theorem digits_neg (d : Decimal) : d.neg.digits = d.digits := by
  rw [digits, neg, Int.natAbs_neg, digits]

theorem ofParts_neg (m e : ℤ) : ofParts (-m) e = (ofParts m e).neg := by
  refine (normal_ofParts _ _).eq_of_toRat (normal_ofParts _ _).neg ?_
  rw [toRat_neg, toRat_ofParts, toRat_ofParts, Int.cast_neg, neg_mul]

theorem isNegative_neg {d : Decimal} (hd : d.mantissa ≠ 0) : d.neg.isNegative = !d.isNegative := by
  unfold isNegative neg
  rw [← decide_not, decide_eq_decide]
  dsimp only
  omega

theorem roundTo_neg (d : Decimal) (p : Precision) : d.neg.roundTo p = (d.roundTo p).neg := by
  unfold roundTo
  rw [digits_neg]
  split
  · rfl
  · rename_i hdigits
    have hd := mantissa_ne_zero_of_digits hdigits
    have hmagnitude : d.neg.mantissa.natAbs = d.mantissa.natAbs := Int.natAbs_neg _
    rw [← ofParts_neg, isNegative_neg hd, hmagnitude]
    cases d.isNegative with
    | true => simp [neg]
    | false => simp [neg]

/-! ### Digits -/

theorem digits_roundTo_le (d : Decimal) (p : Precision) : (d.roundTo p).digits ≤ p.digits := by
  by_cases h : d.digits ≤ p.digits
  · rwa [roundTo, if_pos h]
  · have hnormal : (d.roundTo p).Normal := by
      rw [roundTo, if_neg h]
      exact normal_ofParts _ _
    exact hnormal.digits_le p.digits_pos (d.fits_roundTo p)

theorem roundTo_eq_self_iff {d : Decimal} {p : Precision} : d.roundTo p = d ↔ d.digits ≤ p.digits := by
  constructor
  · intro h
    rw [← h]
    exact d.digits_roundTo_le p
  · exact fun h => if_pos h

/-! ### Order -/

theorem isLE_compare_iff : (a.compare b).isLE ↔ a.toRat ≤ b.toRat := by
  have horder := compare_compares a b
  cases hcompare : a.compare b with
  | lt =>
    rw [hcompare] at horder
    exact iff_of_true rfl horder.le
  | eq =>
    rw [hcompare] at horder
    exact iff_of_true rfl horder.le
  | gt =>
    rw [hcompare] at horder
    exact iff_of_false Bool.false_ne_true horder.not_ge

/-- Another number with `p` digits that is as near is smaller in magnitude. -/
theorem IsRounding.abs_lt {p : ℕ} {q r s : ℚ} (h : IsRounding p q r) (hs : Fits p s) (hnear : |q - s| = |q - r|)
    (hne : s ≠ r) : |s| < |r| := by
  refine lt_of_le_of_ne (h.away s hs hnear) fun heq => hne ?_
  -- with the magnitude of the rounding it would be a rounding itself, and there is only one
  have hother : IsRounding p q s :=
    ⟨hs, fun t ht => hnear.trans_le (h.nearest t ht), fun t ht htie => heq ▸ h.away t ht (htie.trans hnear)⟩
  exact hother.unique h

/-- The rounding of a number has at most `p` digits and is the nearest such number, of two equally near ones the greater
in magnitude; it is the number itself exactly if that has at most `p` digits; and it goes along with sign and order. -/
theorem roundTo_nearest_and_ordered (p : Precision) :
    (∀ d : Decimal, (d.roundTo p).digits ≤ p.digits ∧
      (∀ c : Decimal, c.digits ≤ p.digits →
        |d.toRat - (d.roundTo p).toRat| ≤ |d.toRat - c.toRat| ∧
          (|d.toRat - c.toRat| = |d.toRat - (d.roundTo p).toRat| → c.toRat ≠ (d.roundTo p).toRat →
            |c.toRat| < |(d.roundTo p).toRat|)) ∧
      (d.roundTo p = d ↔ d.digits ≤ p.digits) ∧
      d.neg.roundTo p = (d.roundTo p).neg) ∧
      ∀ a b : Decimal, (a.compare b).isLE → ((a.roundTo p).compare (b.roundTo p)).isLE := by
  constructor
  · intro d
    have hround : IsRounding p.digits d.toRat (d.roundTo p).toRat := by
      rw [toRat_roundTo]
      exact isRounding_rounded p.digits_pos d.toRat
    refine ⟨d.digits_roundTo_le p, fun c hc => ?_, roundTo_eq_self_iff, d.roundTo_neg p⟩
    exact ⟨hround.nearest _ (fits_of_digits hc), hround.abs_lt (fits_of_digits hc)⟩
  · intro a b h
    rw [isLE_compare_iff] at h ⊢
    rw [toRat_roundTo, toRat_roundTo]
    exact rounded_mono p.digits_pos h

/-- Half-way between 9.99 and 10.0 three digits become one, and the neighbour below is as near; a number just below the
tie stays below. -/
theorem roundTo_carries :
    let p := Precision.ofRequest 3
    digits ⟨999, -2⟩ ≤ p.digits ∧
      |toRat ⟨9995, -3⟩ - toRat ⟨999, -2⟩| = |toRat ⟨9995, -3⟩ - (roundTo ⟨9995, -3⟩ p).toRat| ∧
      toRat ⟨999, -2⟩ ≠ (roundTo ⟨9995, -3⟩ p).toRat ∧
      |toRat ⟨999, -2⟩| < |(roundTo ⟨9995, -3⟩ p).toRat| ∧
      (compare ⟨-9995, -3⟩ ⟨99949, -4⟩).isLE ∧
      ((roundTo ⟨-9995, -3⟩ p).compare (roundTo ⟨99949, -4⟩ p)).isLE := by
  intro p
  have hdigits : digits ⟨999, -2⟩ ≤ p.digits := by decide +kernel
  have hvalue : roundTo ⟨9995, -3⟩ p = ⟨1, 1⟩ := by decide +kernel
  have hnear : |toRat ⟨9995, -3⟩ - toRat ⟨999, -2⟩| = |toRat ⟨9995, -3⟩ - (roundTo ⟨9995, -3⟩ p).toRat| := by
    rw [hvalue]
    norm_num [toRat, abs_of_pos, abs_of_neg]
  have hne : toRat ⟨999, -2⟩ ≠ (roundTo ⟨9995, -3⟩ p).toRat := by
    rw [hvalue]
    norm_num [toRat]
  have horder : (compare ⟨-9995, -3⟩ ⟨99949, -4⟩).isLE := by decide +kernel
  obtain ⟨hround, hmono⟩ := roundTo_nearest_and_ordered p
  exact ⟨hdigits, hnear, hne, ((hround _).2.1 _ hdigits).2 hnear hne, horder, hmono _ _ horder⟩

end Calculator.Decimal
