import Calculator.Proofs.Decimal.LogNearOne
/-!
The natural logarithm. A number is split into a number from 1 to 10 and a power of ten, whose logarithms are added. The
relative errors of both remain small, and that of the sum does so unless the two nearly cancel, as they do just below
one.
-/
namespace Calculator.Decimal

/-! ### The two parts -/

section
variable {x : Decimal} {p : Precision}

/-- The number of the first place that is the number up to a power of ten. -/
def significand (x : Decimal) : Decimal := ⟨x.mantissa, x.exponent - x.leading⟩

/-- The sum of the absolute values of the two parts that a logarithm is put together from. -/
noncomputable def logMass (x : Decimal) : ℝ :=
  Real.log x.significand.toRat + |Real.log (10 ^ x.leading : ℚ)|

theorem logMass_eq (x : Decimal) : x.logMass = Real.log x.significand.toRat + |(x.leading : ℝ)| * Real.log 10 := by
  have hten : 0 ≤ Real.log 10 := Real.log_nonneg (by norm_num)
  rw [logMass, Rat.cast_zpow, Rat.cast_ofNat, Real.log_zpow, abs_mul, abs_of_nonneg hten]

theorem toRat_significand (x : Decimal) : x.significand.toRat = x.toRat / 10 ^ x.leading := by
  rw [significand, toRat, toRat, zpow_sub₀ (by norm_num), mul_div_assoc]

theorem significand_mem (hx : 0 < x.toRat) : 1 ≤ x.significand.toRat ∧ x.significand.toRat < 10 := by
  obtain ⟨hlow, hhigh⟩ := leading_bounds (toRat_pos_iff.mp hx).ne'
  rw [abs_of_pos hx] at hlow hhigh
  have hpower := ten_zpow_pos x.leading
  rw [toRat_significand, one_le_div hpower, div_lt_iff₀ hpower, ← zpow_one_add₀ (by norm_num), add_comm]
  exact ⟨hlow, hhigh⟩

/-- The significand is one, or it is greater by a unit of the last digit at least. -/
theorem significand_far_of_fits {n : ℕ} (hn : 0 < n) (hx : 0 < x.toRat) (hfits : Fits n x.toRat) :
    x.significand.FarFromOne (n - 1) := by
  obtain ⟨hlow, hhigh⟩ := leading_bounds (toRat_pos_iff.mp hx).ne'
  rw [abs_of_pos hx] at hlow hhigh
  obtain ⟨k, -, hk⟩ := hfits.exists_mul hlow hhigh
  have hvalue : x.significand.toRat = k / 10 ^ (n - 1) := by
    rw [toRat_significand, hk, mul_div_assoc, ← zpow_sub₀ (by norm_num), ← zpow_natCast, div_eq_mul_inv, ← zpow_neg]
    congr 2
    omega
  have hpow : (0 : ℚ) < 10 ^ (n - 1) := by positivity
  rcases (significand_mem hx).1.eq_or_lt with hone | hlt
  · exact .inl hone.symm
  rw [hvalue, one_lt_div hpow] at hlt
  have hstep : (10 : ℚ) ^ (n - 1) + 1 ≤ k := by exact_mod_cast hlt
  right
  rw [hvalue, zpow_neg, zpow_natCast, le_div_iff₀ hpow, add_mul, one_mul, inv_mul_cancel₀ hpow.ne']
  exact hstep

theorem significand_far (hx : 0 < x.toRat) (hdigits : x.digits ≤ p.digits) :
    x.significand.FarFromOne (p.digits - 1) :=
  significand_far_of_fits p.digits_pos hx (fits_of_digits hdigits)

theorem log_split (hx : 0 < x.toRat) :
    Real.log x.toRat = Real.log x.significand.toRat + x.leading * Real.log 10 := by
  have hsignificand : (0 : ℝ) < x.significand.toRat := by
    exact_mod_cast one_pos.trans_le (significand_mem hx).1
  rw [← Real.log_zpow, ← Real.log_mul hsignificand.ne' (by positivity), toRat_significand]
  congr 1
  push_cast
  field_simp

theorem count_leading_le (hx : 0 < x.toRat) (hrange : x.inRange = true) : Digits.count x.leading.natAbs ≤ 16 := by
  rw [inRange_iff, Representable, log_toRat (toRat_pos_iff.mp hx).ne'] at hrange
  have hbounds := hrange.resolve_left hx.ne'
  unfold maxExponent at hbounds
  rw [Digits.count_le_iff (by omega)]
  omega

/-- Adding the parts up: the first has a relative error `δ`, the second is the product of a logarithm of ten that has one
as well, and product and sum are rounded. -/
theorem abs_recombined_sub_le {a b e s A B δ ρ : ℝ} {k : ℝ} (hδ : 0 ≤ δ) (hρ : 0 ≤ ρ) (hA : 0 ≤ A) (hB : 0 ≤ B)
    (ha : |a - A| ≤ δ * A) (hb : |b - B| ≤ δ * B) (he : |e - b * k| ≤ ρ * |b * k|)
    (hs : |s - (a + e)| ≤ 2 * ρ * |a + e|) :
    |s - (A + k * B)| ≤ (1 + 2 * ρ) * (δ + ρ * (1 + δ)) * (A + |k| * B) + 2 * ρ * |A + k * B| := by
  have hbsize : |b| ≤ (1 + δ) * B := by
    have htriangle := abs_sub_abs_le_abs_sub b B
    rw [abs_of_nonneg hB] at htriangle
    linarith
  have hk := abs_nonneg k
  have hproduct : |e - k * B| ≤ (δ + ρ * (1 + δ)) * (|k| * B) := by
    have htriangle := abs_sub_le e (b * k) (k * B)
    have hscaled : |b * k - k * B| ≤ |k| * (δ * B) := by
      rw [mul_comm b, ← mul_sub, abs_mul]
      exact mul_le_mul_of_nonneg_left hb hk
    have hround : ρ * |b * k| ≤ ρ * ((1 + δ) * B * |k|) := by
      rw [abs_mul]
      gcongr
    linarith
  have hsum : |a + e - (A + k * B)| ≤ (δ + ρ * (1 + δ)) * (A + |k| * B) := by
    have hsplit : a + e - (A + k * B) = (a - A) + (e - k * B) := by ring
    have htriangle := abs_add_le (a - A) (e - k * B)
    have hmore : 0 ≤ ρ * (1 + δ) * A := by positivity
    rw [hsplit]
    linarith
  have htriangle := abs_sub_le s (a + e) (A + k * B)
  have hsize := abs_sub_abs_le_abs_sub (a + e) (A + k * B)
  have hscale := mul_le_mul_of_nonneg_left (hsize.trans hsum) (by positivity : 0 ≤ 2 * ρ)
  linarith

/-- The parts as they are computed: the second one is a product, and it is left out if the number has one digit before
its point. -/
theorem ln?_of_parts {a b : Decimal} (hx : 0 < x.toRat) (hone : x ≠ one) {wp : Precision}
    (hwp : wp = p.guard (guardDigits + 2 + Digits.count x.leading.natAbs)) (ha : x.significand.lnNearOne? wp = some a)
    (hb : (ofInt 10).lnNearOne? wp = some b) :
    ∃ s : Decimal, x.ln? p = some (s.roundTo p) ∧ ∃ e : ℚ, Fits wp.digits e ∧
      |(e - b.toRat * x.leading : ℝ)| ≤ roundoff wp.digits * |(b.toRat * x.leading : ℝ)| ∧
        |(s.toRat - (a.toRat + e) : ℝ)| ≤ 2 * roundoff wp.digits * |(a.toRat + e : ℝ)| := by
  have hpositive : (!x.isPositive) = false := by
    rw [isPositive, decide_eq_true (toRat_pos_iff.mp hx)]
    rfl
  have hroundoff := roundoff_pos wp.digits
  rw [significand] at ha
  rcases eq_or_ne x.leading 0 with hk | hk
  · refine ⟨a, ?_, 0, fits_zero _, ?_, ?_⟩
    · rw [ln?, hpositive, if_neg Bool.false_ne_true, if_neg hone]
      dsimp only
      rw [← hwp, ha, Option.bind_eq_bind, Option.bind_some, if_pos hk]
      rfl
    · rw [hk, Int.cast_zero, mul_zero, Rat.cast_zero, sub_zero, abs_zero, mul_zero]
    · rw [Rat.cast_zero, add_zero, sub_self, abs_zero]
      positivity
  · refine ⟨a.add (b.mul (ofInt x.leading) wp) wp, ?_, (b.mul (ofInt x.leading) wp).toRat, ?_, ?_, abs_add_sub_le ..⟩
    · rw [ln?, hpositive, if_neg Bool.false_ne_true, if_neg hone]
      dsimp only
      rw [← hwp, ha, Option.bind_eq_bind, Option.bind_some, if_neg hk, hb]
      rfl
    · rw [toRat_mul]
      exact fits_rounded wp.digits_pos _
    · have hround := abs_rounded_sub_le wp.digits_pos (b.toRat * x.leading)
      rw [toRat_mul, toRat_ofInt]
      exact_mod_cast hround

theorem part_error_le {w : ℕ} (hw : 14 ≤ w) : ((w : ℝ) + 200) / 300 / 10 ^ w ≤ 1 / 10 ^ 5 := by
  have hpower : ((w : ℝ) + 200) * 10 ^ 5 ≤ 300 * 10 ^ w := by
    obtain ⟨k, rfl⟩ := Nat.exists_eq_add_of_le hw
    have hlt : k < 10 ^ k := Nat.lt_pow_self (by decide)
    have hle : (14 + k + 200) * 10 ^ 5 ≤ 300 * 10 ^ (14 + k) := by
      rw [pow_add 10 14 k]
      generalize 10 ^ k = power at hlt
      omega
    exact_mod_cast hle
  rw [div_div, div_le_div_iff₀ (by positivity) (by positivity), one_mul]
  exact hpower

theorem recombined_error_le {w q : ℕ} (hq : 0 < q) (hlow : q + 13 ≤ w) (hhigh : w ≤ q + 28) :
    (1 + 2 * roundoff w) * ((w + 200) / 300 / 10 ^ w + roundoff w * (1 + (w + 200) / 300 / 10 ^ w)) ≤
      (q + 1730) / 300 / 10 ^ (q + 13) := by
  have hpos : (0 : ℝ) < 10 ^ w := by positivity
  have hdelta := part_error_le (by omega : 14 ≤ w)
  have hunit : 1 / (10 : ℝ) ^ w ≤ 1 / 10 ^ 5 := by
    refine one_div_le_one_div_of_le (by positivity) (pow_le_pow_right₀ (by norm_num) (by omega))
  have hroundoff : roundoff w = 5 * (1 / 10 ^ w) := by rw [roundoff]; ring
  have hsplit : ((w : ℝ) + 200) / 300 / 10 ^ w = (w + 200) / 300 * (1 / 10 ^ w) := by ring
  have hshrink : 1 / (10 : ℝ) ^ w ≤ 1 / 10 ^ (q + 13) :=
    one_div_le_one_div_of_le (by positivity) (pow_le_pow_right₀ (by norm_num) hlow)
  have hw : (w : ℝ) ≤ q + 28 := by exact_mod_cast hhigh
  have hunitpos : 0 < 1 / (10 : ℝ) ^ w := by positivity
  rw [hsplit] at hdelta
  rw [hroundoff, hsplit]
  set u := 1 / (10 : ℝ) ^ w
  set d := ((w : ℝ) + 200) / 300 with hd
  have hdpos : 0 < d := by positivity
  calc (1 + 2 * (5 * u)) * (d * u + 5 * u * (1 + d * u))
      = u * (d + 5 + (15 * (d * u) + 50 * u + 50 * (d * u) * u)) := by ring
    _ ≤ u * ((q + 1730) / 300) := by
        refine mul_le_mul_of_nonneg_left ?_ hunitpos.le
        have hproduct : d * u * u ≤ 1 / 10 ^ 5 * 1 := by gcongr; linarith
        norm_num at hdelta hunit hproduct
        linarith
    _ ≤ 1 / 10 ^ (q + 13) * ((q + 1730) / 300) := by gcongr
    _ = (q + 1730) / 300 / 10 ^ (q + 13) := by ring

/-- The sum of both parts that a logarithm is rounded from, computed with `q` digits. -/
structure LogSum (x : Decimal) (q : ℕ) (first ten second sum : ℚ) : Prop where
  first_fits : Fits (q + 4) first
  second_fits : Fits q second
  first_near : |first - Real.log x.significand.toRat| ≤ (q + 200) / 300 / 10 ^ q * Real.log x.significand.toRat
  ten_near : |ten - Real.log 10| ≤ (q + 200) / 300 / 10 ^ q * Real.log 10
  second_near : |(second - ten * x.leading : ℝ)| ≤ roundoff q * |(ten * x.leading : ℝ)|
  sum_near : |(sum - (first + second) : ℝ)| ≤ 2 * roundoff q * |(first + second : ℝ)|

theorem exists_logSum (places : ℕ) (hp : p.digits ≤ 10 ^ 13) (hplaces : places + 3 ≤ 10 ^ 14) (hx : 0 < x.toRat)
    (hone : x ≠ one) (hcount : Digits.count x.leading.natAbs ≤ 16) (hfar : x.significand.FarFromOne places) :
    ∃ (s : Decimal) (q : ℕ) (first ten second : ℚ), x.ln? p = some (s.roundTo p) ∧ p.digits + 13 ≤ q ∧
      q ≤ p.digits + 28 ∧ LogSum x q first ten second s.toRat := by
  obtain ⟨hlow, hhigh⟩ := significand_mem hx
  obtain ⟨wp, hwp⟩ : ∃ wp, wp = p.guard (guardDigits + 2 + Digits.count x.leading.natAbs) := ⟨_, rfl⟩
  have hcount' := Digits.count_pos x.leading.natAbs
  have hdigits : wp.digits = p.digits + (10 + 2 + Digits.count x.leading.natAbs) := by
    rw [hwp, Precision.guard, guardDigits]
  have hpos := p.digits_pos
  obtain ⟨a, ha, haerror⟩ := lnNearOne?_spec (p := wp) places (by omega) (by omega) hplaces hlow hhigh.le hfar
  obtain ⟨b, hb, hberror⟩ := lnNearOne?_spec (m := ofInt 10) (p := wp) 0 (by omega) (by omega) (by omega)
    (by rw [toRat_ofInt]; norm_num) (by rw [toRat_ofInt]; norm_num)
    (farFromOne_of_two_le (by rw [toRat_ofInt]; norm_num))
  rw [toRat_ofInt] at hberror
  obtain ⟨s, hs, e, hfits, he, hsum⟩ := ln?_of_parts hx hone hwp ha hb
  exact ⟨s, wp.digits, a.toRat, b.toRat, e, hs, by omega, by omega, fits_lnNearOne? ha, hfits, haerror,
    by exact_mod_cast hberror, he, hsum⟩

/-- A logarithm is the rounding of a number whose error is small beside the two parts. -/
theorem exists_ln? (places : ℕ) (hp : p.digits ≤ 10 ^ 13) (hplaces : places + 3 ≤ 10 ^ 14) (hx : 0 < x.toRat)
    (hcount : Digits.count x.leading.natAbs ≤ 16) (hfar : x.significand.FarFromOne places) :
    ∃ s : ℚ, (∃ c, x.ln? p = some c ∧ c.toRat = rounded p.digits s) ∧ |s - Real.log x.toRat| ≤
      (p.digits + 1730) / 300 / 10 ^ (p.digits + 13) * x.logMass + |Real.log x.toRat| / 10 ^ (p.digits + 12) := by
  have hlog : 0 ≤ Real.log x.significand.toRat := Real.log_nonneg (by exact_mod_cast (significand_mem hx).1)
  have hlogten : 0 ≤ Real.log 10 := Real.log_nonneg (by norm_num)
  by_cases hone : x = one
  · have hpositive : (!x.isPositive) = false := by
      rw [isPositive, decide_eq_true (toRat_pos_iff.mp hx)]
      rfl
    refine ⟨0, ⟨zero, ?_, ?_⟩, ?_⟩
    · rw [ln?, hpositive, if_neg Bool.false_ne_true, if_pos hone]
    · rw [rounded_zero, toRat_zero]
    · rw [hone, toRat_one, Rat.cast_one, Real.log_one, Rat.cast_zero, sub_zero, abs_zero, zero_div, add_zero, ← hone,
        logMass_eq]
      positivity
  obtain ⟨s, q, first, ten, second, hs, hlow, hhigh, hparts⟩ := exists_logSum places hp hplaces hx hone hcount hfar
  refine ⟨s.toRat, ⟨s.roundTo p, hs, toRat_roundTo ..⟩, ?_⟩
  have herror := abs_recombined_sub_le (by positivity) (roundoff_pos q).le hlog hlogten hparts.first_near
    hparts.ten_near hparts.second_near hparts.sum_near
  rw [log_split hx, logMass_eq]
  refine herror.trans (add_le_add ?_ ?_)
  · exact mul_le_mul_of_nonneg_right (recombined_error_le p.digits_pos hlow hhigh) (by positivity)
  · rw [div_eq_mul_inv, mul_comm]
    refine mul_le_mul_of_nonneg_left ?_ (abs_nonneg _)
    have hpow : (10 : ℝ) ^ (p.digits + 13) ≤ 10 ^ q := pow_le_pow_right₀ (by norm_num) hlow
    rw [roundoff, inv_eq_one_div, ← mul_div_assoc, div_le_div_iff₀ (by positivity) (by positivity)]
    rw [pow_succ] at hpow
    linarith

/-! ### Accuracy -/

theorem leading_nonneg (hx : 1 ≤ x.toRat) : 0 ≤ x.leading := by
  have hpos : 0 < x.toRat := one_pos.trans_le hx
  have hhigh := (leading_bounds (toRat_pos_iff.mp hpos).ne').2
  rw [abs_of_pos hpos] at hhigh
  have hlt := (zpow_zero (10 : ℚ)).trans_lt (hx.trans_lt hhigh)
  rw [ten_zpow_lt] at hlt
  omega

theorem leading_neg (hx : 0 < x.toRat) (hlt : x.toRat < 1) : x.leading ≤ -1 := by
  have hlow := (leading_bounds (toRat_pos_iff.mp hx).ne').1
  rw [abs_of_pos hx] at hlow
  have hless := (hlow.trans_lt hlt).trans_eq (zpow_zero (10 : ℚ)).symm
  rw [ten_zpow_lt] at hless
  omega

theorem logMass_of_one_le (hx : 1 ≤ x.toRat) : x.logMass = Real.log x.toRat := by
  rw [log_split (one_pos.trans_le hx), logMass_eq, abs_of_nonneg (by exact_mod_cast leading_nonneg hx)]

/-- Below one the parts have opposite signs, and that of the power of ten is the greater one. -/
theorem log_parts_of_lt_one (hx : 0 < x.toRat) (hlt : x.toRat < 1) :
    ∃ n : ℕ, |Real.log x.toRat| = (n + 1) * Real.log 10 - Real.log x.significand.toRat ∧
      x.logMass = (n + 1) * Real.log 10 + Real.log x.significand.toRat := by
  have hleading := leading_neg hx hlt
  obtain ⟨n, hn⟩ : ∃ n : ℕ, x.leading = -(n + 1 : ℤ) := ⟨(-1 - x.leading).toNat, by omega⟩
  have hcast : (x.leading : ℝ) = -(n + 1) := by
    rw [hn]
    push_cast
    rfl
  have hneg : Real.log x.toRat ≤ 0 := Real.log_nonpos (by exact_mod_cast hx.le) (by exact_mod_cast hlt.le)
  refine ⟨n, ?_, ?_⟩
  · rw [abs_of_nonpos hneg, log_split hx, hcast]
    ring
  · rw [logMass_eq, hcast, abs_neg, abs_of_nonneg (by positivity), add_comm]

theorem log_significand_mem (hx : 0 < x.toRat) :
    0 ≤ Real.log x.significand.toRat ∧ Real.log x.significand.toRat ≤ Real.log 10 := by
  obtain ⟨hlow, hhigh⟩ := significand_mem hx
  have hlow' : (1 : ℝ) ≤ x.significand.toRat := by exact_mod_cast hlow
  exact ⟨Real.log_nonneg hlow', Real.log_le_log (by linarith) (by exact_mod_cast hhigh.le)⟩

theorem logMass_nonneg (hx : 0 < x.toRat) : 0 ≤ x.logMass := by
  exact add_nonneg (log_significand_mem hx).1 (abs_nonneg _)

/-- The parts are not much greater than the logarithm. -/
theorem logMass_le (hx : 0 < x.toRat) : x.logMass ≤ |Real.log x.toRat| + 464 / 100 := by
  rcases le_or_gt 1 x.toRat with hone | hlt
  · rw [logMass_of_one_le hone]
    linarith [le_abs_self (Real.log x.toRat)]
  · obtain ⟨n, hlog, hmass⟩ := log_parts_of_lt_one hx hlt
    rw [hlog, hmass]
    linarith [(log_significand_mem hx).2, log_ten_lt]

/-- How far the parts cancel below one. -/
theorem logMass_mul_le (hx : 0 < x.toRat) (hlt : x.toRat < 1) :
    x.logMass * (1 - x.toRat) ≤ 5 * |Real.log x.toRat| := by
  obtain ⟨n, hlog, hmass⟩ := log_parts_of_lt_one hx hlt
  obtain ⟨hlow, hhigh⟩ := log_significand_mem hx
  have hx' : (0 : ℝ) < x.toRat := by exact_mod_cast hx
  have hlt' : (x.toRat : ℝ) < 1 := by exact_mod_cast hlt
  cases n with
  | zero =>
    have hgap : 1 - x.toRat ≤ |Real.log x.toRat| := by
      rw [abs_of_nonpos (Real.log_nonpos hx'.le hlt'.le)]
      linarith [Real.log_le_sub_one_of_pos hx']
    have hsmall : x.logMass ≤ 5 := by
      rw [hmass, Nat.cast_zero, zero_add, one_mul]
      linarith [log_ten_lt]
    exact mul_le_mul hsmall hgap (by linarith) (by norm_num)
  | succ n =>
    have hnonneg : 0 ≤ (n : ℝ) * Real.log 10 := mul_nonneg n.cast_nonneg (hlow.trans hhigh)
    rw [hlog, hmass]
    push_cast
    refine (mul_le_of_le_one_right (by nlinarith) (by linarith)).trans ?_
    linarith

/-- The distance from one below which the parts of a logarithm cancel more digits than are computed beyond those asked
for. -/
def cancellationGap (p : ℕ) : ℚ := (p + 1000) / 10 ^ 14

/-- Outside the gap the errors of both parts are small beside the logarithm. -/
theorem mul_logMass_le {n : ℕ} (hn : n ≤ 10 ^ 13) (hx : 0 < x.toRat)
    (hfar : 1 ≤ x.toRat ∨ cancellationGap n ≤ 1 - x.toRat) :
    (n + 1730) / 300 / 10 ^ 13 * x.logMass ≤ 3 / 10 * |Real.log x.toRat| := by
  have hn' : (n : ℝ) ≤ 10 ^ 13 := by exact_mod_cast hn
  have hlog := abs_nonneg (Real.log x.toRat)
  rcases le_or_gt 1 x.toRat with hone | hlt
  · rw [logMass_of_one_le hone, abs_of_nonneg (Real.log_nonneg (by exact_mod_cast hone))]
    refine mul_le_mul_of_nonneg_right ?_ (Real.log_nonneg (by exact_mod_cast hone))
    rw [div_div, div_le_iff₀ (by positivity)]
    linarith
  · have hgap : ((n : ℝ) + 1000) / 10 ^ 14 ≤ 1 - x.toRat := by
      have hgap := (Rat.cast_le (K := ℝ)).mpr (hfar.resolve_left (not_le.mpr hlt))
      rw [cancellationGap] at hgap
      push_cast at hgap
      exact hgap
    have hmass := logMass_nonneg hx
    have hscaled := (mul_le_mul_of_nonneg_left hgap hmass).trans (logMass_mul_le hx hlt)
    have hcount : ((n : ℝ) + 1730) / 300 / 10 ^ 13 ≤ 6 / 100 * ((n + 1000) / 10 ^ 14) := by
      have hnonneg : (0 : ℝ) ≤ n := n.cast_nonneg
      norm_num
      linarith
    linarith [mul_le_mul_of_nonneg_right hcount hmass]

/-- The logarithm of a number with up to `p` digits is found, `p` being at most `10 ^ 9`. It differs from the exact one
by less than a unit of its last digit, unless the number is less than one and nearer to it than the gap; there the error
may be greater by so many times the `p`-th place behind the point. -/
theorem ln_within_unit_unless_cancelling (x : Decimal) (p : Precision) (hx : 0 < x.toRat) (hrange : x.inRange = true)
    (hdigits : x.digits ≤ p.digits) (hp : p.digits ≤ 10 ^ 9) :
    ∃ c, x.ln? p = some c ∧
      (1 ≤ x.toRat ∨ cancellationGap p.digits ≤ 1 - x.toRat →
        |c.toRat - Real.log x.toRat| < unit p.digits c.toRat) ∧
      |c.toRat - Real.log x.toRat| < unit p.digits c.toRat + cancellationGap p.digits / 10 ^ p.digits := by
  have hpos := p.digits_pos
  obtain ⟨s, ⟨c, hc, hvalue⟩, herror⟩ := exists_ln? (p := p) (p.digits - 1) (by omega) (by omega) hx
    (count_leading_le hx hrange) (significand_far hx hdigits)
  have hsplit : (p.digits + 1730 : ℝ) / 300 / 10 ^ (p.digits + 13) * x.logMass +
      |Real.log x.toRat| / 10 ^ (p.digits + 12) =
        ((p.digits + 1730) / 300 / 10 ^ 13 * x.logMass + |Real.log x.toRat| / 10 ^ 12) / 10 ^ p.digits := by
    rw [pow_add, pow_add]
    field_simp
  rw [hsplit] at herror
  have hlog := abs_nonneg (Real.log x.toRat)
  have hround : ∀ t : ℝ, 0 ≤ t →
      (p.digits + 1730) / 300 / 10 ^ 13 * x.logMass + |Real.log x.toRat| / 10 ^ 12 ≤ 2 / 5 * |Real.log x.toRat| + t →
        |c.toRat - Real.log x.toRat| < unit p.digits c.toRat + 25 / 24 * (t / 10 ^ p.digits) := by
    intro t ht hle
    rw [hvalue]
    refine abs_rounded_sub_lt_unit hpos (by positivity) ?_
    calc |s - Real.log x.toRat| ≤ (2 / 5 * |Real.log x.toRat| + t) / 10 ^ p.digits := by
          refine herror.trans ?_
          gcongr
      _ = 2 / 5 / 10 ^ p.digits * |Real.log x.toRat| + t / 10 ^ p.digits := by ring
  refine ⟨c, hc, fun hfar => ?_, ?_⟩
  · have hmass := mul_logMass_le (by omega) hx hfar
    have herror' := hround 0 le_rfl (by linarith)
    rwa [zero_div, mul_zero, add_zero] at herror'
  · have hcount : (p.digits : ℝ) + 1730 ≤ 10 ^ 12 := by exact_mod_cast (by omega : p.digits + 1730 ≤ 10 ^ 12)
    have hmass := mul_le_mul_of_nonneg_left (logMass_le hx) (by positivity : (0 : ℝ) ≤ (p.digits + 1730) / 300 / 10 ^ 13)
    have hpart := mul_le_mul_of_nonneg_right hcount hlog
    have herror' := hround (24 / 25 * cancellationGap p.digits) (by rw [cancellationGap]; positivity) (by
      rw [cancellationGap]
      push_cast
      linarith)
    have hgap : 25 / 24 * (24 / 25 * cancellationGap p.digits / 10 ^ p.digits) =
        (cancellationGap p.digits : ℝ) / 10 ^ p.digits := by ring
    rwa [hgap] at herror'

theorem ln_half_within_unit :
    0 < half.toRat ∧ half.inRange = true ∧ half.digits ≤ 20 ∧ cancellationGap 20 ≤ 1 - half.toRat ∧
      ∃ c, half.ln? ⟨20, by decide⟩ = some c ∧ |c.toRat - Real.log half.toRat| < unit 20 c.toRat := by
  have hpos : 0 < half.toRat := toRat_pos_iff.mpr (by decide +kernel)
  have hrange : half.inRange = true := by decide +kernel
  have hdigits : half.digits ≤ 20 := by decide +kernel
  have hgap : cancellationGap 20 ≤ 1 - half.toRat := by
    rw [toRat_half, cancellationGap]
    norm_num
  obtain ⟨c, hc, hunit, -⟩ := ln_within_unit_unless_cancelling half ⟨20, by decide⟩ hpos hrange hdigits (by decide)
  exact ⟨hpos, hrange, hdigits, hgap, c, hc, hunit (.inr hgap)⟩

/-- At a distance of one unit from one, two of the digits are wrong. -/
example : (ofParts 999999999999999 (-15)).ln? ⟨15, by decide⟩ = some (ofParts (-100000000000032) (-29)) := by
  decide +kernel

end

end Calculator.Decimal
