import Calculator.Proofs.Decimal.Digits
import Mathlib.Data.Int.Log
import Mathlib.Data.Rat.Floor
import Mathlib.Tactic.FieldSimp
import Mathlib.Tactic.Linarith
import Mathlib.Tactic.Positivity
/-!
Decimal numbers as rational numbers. A number is in normal form if it is zero with exponent zero, or its mantissa does
not end in zero; then it is determined by its value. The place of its first digit is the logarithm of its value.
-/
namespace Calculator.Decimal

/-- The value of a decimal number. -/
def toRat (d : Decimal) : ℚ := d.mantissa * 10 ^ d.exponent

/-- The mantissa does not end in zero, and zero has exponent 0. -/
def Normal (d : Decimal) : Prop := d = zero ∨ ¬ 10 ∣ d.mantissa

instance (d : Decimal) : Decidable d.Normal := inferInstanceAs (Decidable (_ ∨ _))

theorem normal_zero : zero.Normal := .inl rfl

/-! ### Powers of ten -/

theorem ten_zpow_pos (e : ℤ) : (0 : ℚ) < 10 ^ e := zpow_pos (by norm_num) e

theorem ten_zpow_le {e f : ℤ} : (10 : ℚ) ^ e ≤ 10 ^ f ↔ e ≤ f := zpow_le_zpow_iff_right₀ (by norm_num)

theorem ten_zpow_lt {e f : ℤ} : (10 : ℚ) ^ e < 10 ^ f ↔ e < f := zpow_lt_zpow_iff_right₀ (by norm_num)

theorem ten_zpow_add (e f : ℤ) : (10 : ℚ) ^ (e + f) = 10 ^ e * 10 ^ f := zpow_add₀ (by norm_num) e f

/-- A power of ten that is written out, where the exponent is not negative. -/
theorem cast_pow10_toNat {e : ℤ} (he : 0 ≤ e) : ((pow10 e.toNat : ℕ) : ℚ) = 10 ^ e := by
  rw [pow10_eq, Nat.cast_pow, Nat.cast_ofNat, ← zpow_natCast, Int.toNat_of_nonneg he]

theorem cast_pow10 (n : ℕ) : ((pow10 n : ℕ) : ℚ) = 10 ^ (n : ℤ) := by
  rw [pow10_eq, Nat.cast_pow, Nat.cast_ofNat, zpow_natCast]

theorem log_eq {q : ℚ} {k : ℤ} (hlow : 10 ^ k ≤ q) (hhigh : q < 10 ^ (k + 1)) : Int.log 10 q = k := by
  have hq : 0 < q := (ten_zpow_pos k).trans_le hlow
  have hle : k ≤ Int.log 10 q := (Int.zpow_le_iff_le_log (by decide) hq).mp (by exact_mod_cast hlow)
  have hlt : Int.log 10 q < k + 1 := (Int.lt_zpow_iff_log_lt (by decide) hq).mp (by exact_mod_cast hhigh)
  omega

/-- A positive number lies between the powers of ten around it. -/
theorem log_bounds {q : ℚ} (hq : 0 < q) : 10 ^ Int.log 10 q ≤ q ∧ q < 10 ^ (Int.log 10 q + 1) := by
  constructor
  · exact_mod_cast Int.zpow_log_le_self (b := 10) (by decide) hq
  · exact_mod_cast Int.lt_zpow_succ_log_self (b := 10) (by decide) q

/-! ### Normal form -/

theorem pow_trailingZeros_dvd (n : ℕ) : 10 ^ trailingZeros n ∣ n := by
  fun_induction trailingZeros n with
  | case1 n h ih =>
    obtain ⟨k, hk⟩ := ih
    refine ⟨k, ?_⟩
    rw [pow_succ', mul_assoc, ← hk]
    omega
  | case2 => exact one_dvd _

theorem not_ten_dvd_div {n : ℕ} (hn : 0 < n) : ¬ 10 ∣ n / 10 ^ trailingZeros n := by
  fun_induction trailingZeros n with
  | case1 n h ih =>
    rw [pow_succ', ← Nat.div_div_eq_div_mul]
    exact ih (by omega)
  | case2 n h =>
    rw [pow_zero, Nat.div_one]
    omega

/-- The mantissa of the normal form of a number that is not zero, times the zeros that it has lost. -/
theorem mantissa_div_mul (m : ℤ) : m / pow10 (trailingZeros m.natAbs) * pow10 (trailingZeros m.natAbs) = m :=
  Int.ediv_mul_cancel (Int.natCast_dvd.mpr (pow_trailingZeros_dvd m.natAbs))

theorem normal_ofParts (m e : ℤ) : (ofParts m e).Normal := by
  unfold ofParts
  split
  · exact normal_zero
  · rename_i hm
    refine .inr fun hdvd => not_ten_dvd_div (Int.natAbs_pos.mpr hm) ?_
    have hsplit := congrArg Int.natAbs (mantissa_div_mul m)
    rw [Int.natAbs_mul, Int.natAbs_natCast, pow10_eq] at hsplit
    have hcut : m.natAbs / 10 ^ trailingZeros m.natAbs = (m / pow10 (trailingZeros m.natAbs)).natAbs := by
      conv_lhs => lhs; rw [← hsplit]
      exact Nat.mul_div_cancel _ (by positivity)
    rw [hcut]
    exact Int.natAbs_dvd_natAbs.mpr hdvd

theorem normal_ofInt (n : ℤ) : (ofInt n).Normal := normal_ofParts n 0

theorem Normal.neg {d : Decimal} (hd : d.Normal) : d.neg.Normal := by
  rcases hd with rfl | hd
  · exact normal_zero
  · exact .inr fun h => hd (Int.dvd_neg.mp h)

theorem Normal.abs {d : Decimal} (hd : d.Normal) : d.abs.Normal := by
  rcases hd with rfl | hd
  · exact normal_zero
  · exact .inr fun h => hd (Int.dvd_natAbs.mp h)

theorem Normal.negIf {d : Decimal} (hd : d.Normal) (flip : Bool) : (d.negIf flip).Normal := by
  cases flip with
  | true => exact hd.neg
  | false => exact hd

theorem toRat_zero : zero.toRat = 0 := by
  simp [toRat, zero]

theorem toRat_ofParts (m e : ℤ) : (ofParts m e).toRat = m * 10 ^ e := by
  unfold ofParts
  split
  · rename_i hm
    rw [toRat_zero, hm, Int.cast_zero, zero_mul]
  · have hsplit := congrArg (Int.cast (R := ℚ)) (mantissa_div_mul m)
    rw [Int.cast_mul, Int.cast_natCast, cast_pow10] at hsplit
    unfold toRat
    dsimp only
    rw [add_comm, ten_zpow_add, ← mul_assoc, hsplit]

theorem toRat_ofInt (n : ℤ) : (ofInt n).toRat = n := by
  rw [ofInt, toRat_ofParts, zpow_zero, mul_one]

theorem toRat_one : one.toRat = 1 := by
  rw [one, toRat_ofInt, Int.cast_one]

theorem toRat_neg (d : Decimal) : d.neg.toRat = -d.toRat := by
  rw [toRat, neg, Int.cast_neg, neg_mul, toRat]

theorem abs_toRat (d : Decimal) : |d.toRat| = d.mantissa.natAbs * 10 ^ d.exponent := by
  rw [toRat, abs_mul, abs_of_pos (ten_zpow_pos _), Nat.cast_natAbs, Int.cast_abs]

theorem toRat_abs (d : Decimal) : d.abs.toRat = |d.toRat| := by
  rw [abs_toRat, toRat, abs, Int.cast_natCast]

theorem digits_abs (d : Decimal) : d.abs.digits = d.digits := by
  rw [digits, abs, Int.natAbs_natCast, digits]

theorem isNegative_abs (d : Decimal) : d.abs.isNegative = false :=
  decide_eq_false (not_lt.mpr (Int.natCast_nonneg _))

theorem neg_abs {d : Decimal} (h : d.isNegative = true) : d.abs.neg = d := by
  have hmantissa : -(d.mantissa.natAbs : ℤ) = d.mantissa := by
    have hneg : d.mantissa < 0 := of_decide_eq_true h
    omega
  calc d.abs.neg = ⟨-d.mantissa.natAbs, d.exponent⟩ := rfl
    _ = d := by rw [hmantissa]

theorem toRat_eq_zero_iff {d : Decimal} : d.toRat = 0 ↔ d.mantissa = 0 := by
  rw [toRat, mul_eq_zero, Int.cast_eq_zero, or_iff_left (ten_zpow_pos _).ne']

theorem isZero_iff {d : Decimal} : d.isZero = true ↔ d.toRat = 0 := by
  rw [isZero, beq_iff_eq, toRat_eq_zero_iff]

theorem toRat_pos_iff {d : Decimal} : 0 < d.toRat ↔ 0 < d.mantissa := by
  rw [toRat, mul_pos_iff_of_pos_right (ten_zpow_pos _), Int.cast_pos]

theorem toRat_neg_iff {d : Decimal} : d.toRat < 0 ↔ d.mantissa < 0 := by
  rw [← neg_pos, ← toRat_neg, toRat_pos_iff, neg]
  exact Int.neg_pos

theorem isNegative_iff {d : Decimal} : d.isNegative = true ↔ d.toRat < 0 := by
  rw [isNegative, decide_eq_true_iff, toRat_neg_iff]

/-- Of two equal numbers, one whose mantissa does not end in zero has the greater exponent. -/
theorem exponent_le_of_toRat {a b : Decimal} (ha : ¬10 ∣ a.mantissa) (h : a.toRat = b.toRat) :
    b.exponent ≤ a.exponent := by
  by_contra! hlt
  have hsplit : b.exponent = (b.exponent - a.exponent).toNat + a.exponent := by omega
  have hvalue : a.mantissa = b.mantissa * 10 ^ (b.exponent - a.exponent).toNat := by
    have hrat : (a.mantissa : ℚ) = b.mantissa * 10 ^ (b.exponent - a.exponent).toNat := by
      refine mul_right_cancel₀ (ten_zpow_pos a.exponent).ne' ?_
      rw [toRat, toRat, hsplit, ten_zpow_add, ← mul_assoc, zpow_natCast] at h
      exact h
    exact_mod_cast hrat
  refine ha ?_
  rw [hvalue]
  exact (dvd_pow_self 10 (by omega)).mul_left b.mantissa

theorem Normal.eq_zero {d : Decimal} (hd : d.Normal) (h : d.mantissa = 0) : d = zero :=
  hd.resolve_right fun hdvd => hdvd (h ▸ dvd_zero 10)

theorem Normal.not_dvd {d : Decimal} (hd : d.Normal) (h : d.mantissa ≠ 0) : ¬10 ∣ d.mantissa :=
  hd.resolve_left fun hzero => h (congrArg mantissa hzero)

/-- A number in normal form is determined by its value. -/
theorem Normal.eq_of_toRat {a b : Decimal} (ha : a.Normal) (hb : b.Normal) (h : a.toRat = b.toRat) : a = b := by
  by_cases hzero : a.mantissa = 0
  · have hzero' : b.mantissa = 0 := toRat_eq_zero_iff.mp (h ▸ toRat_eq_zero_iff.mpr hzero)
    rw [ha.eq_zero hzero, hb.eq_zero hzero']
  · have hzero' : b.mantissa ≠ 0 := fun hb0 => hzero (toRat_eq_zero_iff.mp (h ▸ toRat_eq_zero_iff.mpr hb0))
    have hexponent : a.exponent = b.exponent :=
      le_antisymm (exponent_le_of_toRat (hb.not_dvd hzero') h.symm) (exponent_le_of_toRat (ha.not_dvd hzero) h)
    have hmantissa : a.mantissa = b.mantissa := by
      rw [toRat, toRat, hexponent] at h
      exact_mod_cast mul_right_cancel₀ (ten_zpow_pos b.exponent).ne' h
    calc a = ⟨a.mantissa, a.exponent⟩ := rfl
      _ = b := by rw [hmantissa, hexponent]

/-- The place of the first digit is the logarithm. -/
theorem log_toRat {d : Decimal} (hd : d.mantissa ≠ 0) : Int.log 10 |d.toRat| = d.leading := by
  have hm : d.mantissa.natAbs ≠ 0 := Int.natAbs_ne_zero.mpr hd
  have hcount := Digits.count_pos d.mantissa.natAbs
  have hlow : (10 : ℚ) ^ (d.digits - 1 : ℤ) ≤ d.mantissa.natAbs := by
    have hcast : ((d.digits : ℤ) - 1) = (d.digits - 1 : ℕ) := by rw [digits]; omega
    rw [hcast, zpow_natCast]
    exact_mod_cast Digits.pow_count_le hm
  have hhigh : (d.mantissa.natAbs : ℚ) < 10 ^ (d.digits : ℤ) := by
    rw [zpow_natCast]
    exact_mod_cast Digits.lt_pow_count d.mantissa.natAbs
  rw [abs_toRat]
  apply log_eq
  · have hsplit : d.leading = (d.digits - 1 : ℤ) + d.exponent := by rw [leading]; ring
    rw [hsplit, ten_zpow_add]
    exact mul_le_mul_of_nonneg_right hlow (ten_zpow_pos _).le
  · have hsplit : d.leading + 1 = (d.digits : ℤ) + d.exponent := by rw [leading]; ring
    rw [hsplit, ten_zpow_add]
    exact mul_lt_mul_of_pos_right hhigh (ten_zpow_pos _)

end Calculator.Decimal
