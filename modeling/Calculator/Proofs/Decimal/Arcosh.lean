import Calculator.Decimal.Hyperbolic
import Calculator.Proofs.Decimal.Arctangent
import Calculator.Proofs.Decimal.LogBase
import Mathlib.Analysis.SpecialFunctions.Arcosh
/-!
The inverse hyperbolic cosine. Its square less one loses as many digits as the argument is near one, and there are ten to
lose: they are enough at a distance of a billionth and more.
-/
namespace Calculator.Decimal

/-! ### The errors of exact steps -/

/-- The numbers on the way to the argument of the logarithm: the square, less one, its root, and the sum. Each has an
error of its own. -/
structure ArcoshSteps (u X sq d root s : ℝ) : Prop where
  square_near : |sq - X ^ 2| ≤ u * X ^ 2
  difference_near : |d - (sq - 1)| ≤ u * |sq - 1|
  difference_nonneg : 0 ≤ d
  root_near : |root - √d| ≤ u * √d
  sum_near : |s - (X + root)| ≤ u * |X + root|

section
variable {X sq d root s u : ℝ}

/-- The error of a square root, in terms of the root. -/
theorem abs_sqrt_sub_mul_le {a b : ℝ} (ha : 0 ≤ a) (hb : 0 ≤ b) : |√a - √b| * √b ≤ |a - b| := by
  have hproduct : (√a - √b) * (√a + √b) = a - b := by
    linear_combination Real.mul_self_sqrt ha - Real.mul_self_sqrt hb
  rw [← hproduct, abs_mul, abs_of_nonneg (by positivity : 0 ≤ √a + √b)]
  exact mul_le_mul_of_nonneg_left (le_add_of_nonneg_left (Real.sqrt_nonneg a)) (abs_nonneg _)

/-- A relative error is not greater for the square root. -/
theorem abs_sqrt_sub_sqrt_le {a b κ : ℝ} (ha : 0 ≤ a) (hb : 0 < b) (h : |a - b| ≤ κ * b) : |√a - √b| ≤ κ * √b := by
  refine le_of_mul_le_mul_right ((abs_sqrt_sub_mul_le ha hb.le).trans ?_) (Real.sqrt_pos.mpr hb)
  rwa [mul_assoc, Real.mul_self_sqrt hb.le]

/-- The square less one, whose error is as many times greater as it is less than the square. -/
theorem ArcoshSteps.abs_difference_sub_le (h : ArcoshSteps u X sq d root s) {K : ℝ} (hX : X ^ 2 ≤ K * (X ^ 2 - 1))
    (hX1 : 1 < X) (hu : 0 ≤ u) (hsmall : K * u ≤ 1) : |d - (X ^ 2 - 1)| ≤ (K + 2) * u * (X ^ 2 - 1) := by
  have hD : 0 < X ^ 2 - 1 := by nlinarith
  have hsize := abs_sub_abs_le_abs_sub (sq - 1) (X ^ 2 - 1)
  have htriangle := abs_sub_le d (sq - 1) (X ^ 2 - 1)
  rw [sub_sub_sub_cancel_right, abs_of_pos hD] at hsize
  rw [sub_sub_sub_cancel_right] at htriangle
  have hsq := h.square_near.trans (mul_le_mul_of_nonneg_left hX hu)
  have hmore := mul_le_mul_of_nonneg_left (hsize.trans hsq) hu
  have hwaste := mul_le_mul_of_nonneg_right hsmall (mul_nonneg hu hD.le)
  linarith [h.difference_near]

/-- The inverse hyperbolic cosine is not less than the share of the root in the logarithm's argument. -/
theorem root_le_mul_arcosh (hX : 1 ≤ X) : √(X ^ 2 - 1) ≤ (X + √(X ^ 2 - 1)) * Real.arcosh X := by
  have hexp := Real.exp_arcosh hX
  have hsinh := Real.sinh_arcosh hX
  have hinv := Real.add_one_le_exp (-2 * Real.arcosh X)
  rw [← hexp, ← hsinh, Real.sinh_eq]
  have hsplit : Real.exp (-Real.arcosh X) = Real.exp (Real.arcosh X) * Real.exp (-2 * Real.arcosh X) := by
    rw [← Real.exp_add]
    congr 1
    ring
  rw [hsplit]
  linarith [mul_le_mul_of_nonneg_left hinv (Real.exp_pos (Real.arcosh X)).le]

/-- The error of the logarithm's argument has grown by as much as the argument is greater than the root, and by that
again. -/
theorem ArcoshSteps.abs_log_sub_arcosh_le (h : ArcoshSteps u X sq d root s) {L : ℝ} (hX : 1 < X)
    (hL : X ≤ L * √(X ^ 2 - 1)) (hL1 : 1 ≤ L) (hu : 0 ≤ u) (hsmall : (L + 3) ^ 2 * u ≤ 1 / 30) :
    |Real.log s - Real.arcosh X| ≤ 30 / 29 * ((L + 3) ^ 2 * u) * Real.arcosh X := by
  obtain ⟨R, hR⟩ : ∃ R, R = √(X ^ 2 - 1) := ⟨_, rfl⟩
  obtain ⟨y, hy⟩ : ∃ y, y = Real.arcosh X := ⟨_, rfl⟩
  have hD : 0 < X ^ 2 - 1 := by nlinarith
  have hR0 : 0 < R := hR ▸ Real.sqrt_pos.mpr hD
  have hR2 : R ^ 2 = X ^ 2 - 1 := hR ▸ Real.sq_sqrt hD.le
  have hRX : R ≤ X := abs_le_of_sq_le_sq' (by linarith) (by linarith) |>.2
  have hratio := root_le_mul_arcosh hX.le
  rw [← hR] at hL
  rw [← hR, ← hy] at hratio
  have hLu := mul_nonneg (by linarith : 0 ≤ L) hu
  have hL2 : L ^ 2 * u + 6 * (L * u) + 9 * u ≤ 1 / 30 := by linarith
  have hL2u := mul_nonneg (sq_nonneg L) hu
  -- The root.
  have hdifference := h.abs_difference_sub_le (K := L ^ 2)
    (by rw [← hR2, ← mul_pow]; exact pow_le_pow_left₀ (by linarith) hL 2) hX hu (by linarith)
  have hsqrt := abs_sqrt_sub_sqrt_le h.difference_nonneg hD hdifference
  rw [← hR] at hsqrt
  have hroot : |root - R| ≤ (L ^ 2 + 4) * u * R := by
    have hscale := mul_le_mul_of_nonneg_right (by linarith : (L ^ 2 + 2) * u ≤ 1) hR0.le
    have htwice : √d ≤ 2 * R := by linarith [(abs_le.mp (hsqrt.trans hscale)).2]
    linarith [h.root_near, abs_sub_le root √d R, mul_le_mul_of_nonneg_left htwice hu]
  -- The root is no greater part of the argument than the result, and at most a half of it.
  obtain ⟨m, hm0, hmy, hmhalf, hshare⟩ : ∃ m, 0 ≤ m ∧ m ≤ y ∧ m ≤ 1 / 2 ∧ R ≤ (X + R) * m := by
    have hy0 : 0 ≤ y := hy ▸ Real.arcosh_nonneg hX.le
    rcases le_total y (1 / 2) with h | h
    · exact ⟨y, hy0, le_rfl, h, hratio⟩
    · exact ⟨1 / 2, by norm_num, h, le_rfl, by linarith⟩
  have hlog : |s - (X + R)| ≤ (2 * u + (L ^ 2 + 4) * u * m) * (X + R) := by
    have hs := h.sum_near
    have htriangle := abs_sub_le s (X + root) (X + R)
    rw [add_sub_add_left_eq_sub] at htriangle
    have hscale := mul_le_mul_of_nonneg_right (by linarith : (L ^ 2 + 4) * u ≤ 1) hR0.le
    obtain ⟨hlow, hhigh⟩ := abs_le.mp (hroot.trans hscale)
    rw [abs_of_nonneg (by linarith : 0 ≤ X + root)] at hs
    have hsum := mul_le_mul_of_nonneg_left (by linarith : X + root ≤ 2 * (X + R)) hu
    have hpart := mul_le_mul_of_nonneg_left hshare (by linarith : 0 ≤ (L ^ 2 + 4) * u)
    linarith
  have hpart := mul_le_mul_of_nonneg_left hmhalf (by linarith : 0 ≤ (L ^ 2 + 4) * u)
  have hlogarithm := abs_log_sub_log_le_div (by linarith) (by linarith) hlog
  rw [hR, ← Real.arcosh] at hlogarithm
  rw [← hy] at hlogarithm ⊢
  refine hlogarithm.trans ?_
  -- The result is not less than the root's share, if that is the whole argument.
  have hleast : 1 ≤ (1 + L) * y := by
    refine le_of_mul_le_mul_right ?_ hR0
    linarith [mul_le_mul_of_nonneg_right (by linarith : X + R ≤ (1 + L) * R) (hm0.trans hmy)]
  have herror : 2 * u + (L ^ 2 + 4) * u * m ≤ (L + 3) ^ 2 * u * y := by
    linarith [mul_le_mul_of_nonneg_left hleast hu, mul_le_mul_of_nonneg_left hmy (by linarith : 0 ≤ (L ^ 2 + 4) * u),
      mul_nonneg hLu (hm0.trans hmy), mul_nonneg hu (hm0.trans hmy)]
  rw [div_le_iff₀ (by linarith)]
  have hwaste := mul_le_mul_of_nonneg_left (by linarith : 2 * u + (L ^ 2 + 4) * u * m ≤ 1 / 30)
    (mul_nonneg (mul_nonneg (sq_nonneg (L + 3)) hu) (hm0.trans hmy))
  linarith

end

/-! ### The operations -/

section
variable {x : Decimal} {p : Precision}

/-- The logarithm whose rounding is the result, with the errors of its argument. -/
theorem exists_arcosh_argument (hx : 1 < x.toRat) (hrange : x.inRange = true) (hdigits : x.digits ≤ p.digits)
    {wp : Precision} (hwp : wp = p.guard guardDigits) :
    ∃ s : Decimal, x.acosh? p = (s.ln? wp).map (·.roundTo p) ∧ Fits wp.digits s.toRat ∧ 1 ≤ s.toRat ∧
      s.toRat ≤ 10 ^ (maxExponent + 2) ∧ ∃ sq d root, ArcoshSteps (roundoff wp.digits) x.toRat sq d root s.toRat := by
  have hpos := wp.digits_pos
  have hone := fits_one hpos
  have hfits : Fits wp.digits x.toRat := (fits_of_digits hdigits).mono (by rw [hwp]; exact Nat.le_add_right ..)
  have hx0 : 0 < x.toRat := by linarith
  rw [inRange_iff, representable_iff hx0.ne', abs_of_pos hx0] at hrange
  have hhigh := hrange.2
  obtain ⟨B, hB⟩ : ∃ B : ℚ, B = 10 ^ (maxExponent + 1) := ⟨_, rfl⟩
  rw [← hB] at hhigh
  -- The square.
  have hsq : (x.mul x wp).toRat = rounded wp.digits (x.toRat ^ 2) := by rw [toRat_mul, sq]
  have hsq_fits : Fits wp.digits (x.mul x wp).toRat := hsq ▸ fits_rounded hpos _
  have hsq_ge : 1 ≤ (x.mul x wp).toRat := hsq ▸ hone.le_rounded hpos (one_le_pow₀ hx.le)
  have hB2 : Fits wp.digits (B ^ 2) := by
    rw [hB, ← zpow_natCast, ← zpow_mul]
    exact fits_ten_zpow hpos _
  have hsq_le : (x.mul x wp).toRat ≤ B ^ 2 := hsq ▸ hB2.rounded_le hpos (pow_le_pow_left₀ hx0.le hhigh.le 2)
  -- The square less one.
  have hd := toRat_sub (p := wp) (hsq_fits.isolated hpos) (isolated_one wp)
  rw [toRat_one] at hd
  have hd_ge : 0 ≤ ((x.mul x wp).sub one wp).toRat := hd ▸ (fits_zero _).le_rounded hpos (by linarith)
  have hd_le : ((x.mul x wp).sub one wp).toRat ≤ B ^ 2 := hd ▸ hB2.rounded_le hpos (by linarith)
  -- The root.
  obtain ⟨root, hroot, hround⟩ := isRealRounding_sqrt? (p := wp) hd_ge
  have hroot_ge : 0 ≤ root.toRat := hround.ge_of_fits (fits_zero _) (by rw [Rat.cast_zero]; positivity)
  have hroot_le : root.toRat ≤ B := by
    refine hround.le_of_fits (hB ▸ fits_ten_zpow hpos _) ?_
    rw [Real.sqrt_le_left (by rw [hB]; positivity)]
    exact_mod_cast hd_le
  -- The sum.
  have hs := toRat_add (p := wp) (hfits.isolated hpos) (hround.fits.isolated hpos)
  have hs_ge : 1 ≤ (x.add root wp).toRat := hs ▸ hone.le_rounded hpos (by linarith)
  have hs_le : (x.add root wp).toRat ≤ 10 ^ (maxExponent + 2) := by
    refine hs ▸ (fits_ten_zpow hpos _).rounded_le hpos ?_
    have hnext : (10 : ℚ) ^ (maxExponent + 2) = B * 10 := by
      rw [hB, ← zpow_add_one₀ (by norm_num)]
      rfl
    linarith
  refine ⟨x.add root wp, ?_, hs ▸ fits_rounded hpos _, hs_ge, hs_le, (x.mul x wp).toRat,
    ((x.mul x wp).sub one wp).toRat, root.toRat, ?_, ?_, by exact_mod_cast hd_ge, ?_, ?_⟩
  · have hlt : x.lt one = false := by
      rw [← Bool.not_eq_true, lt_iff, toRat_one]
      exact not_lt.mpr hx.le
    rw [acosh?, hlt, if_neg Bool.false_ne_true, ← hwp]
    simp only [hroot, Option.bind_eq_bind, Option.bind_some]
    exact Option.map_eq_bind.symm
  · have herror := abs_rounded_sub_le hpos (x.toRat ^ 2)
    rwa [← hsq, Rat.cast_pow, abs_of_nonneg (sq_nonneg (x.toRat : ℝ))] at herror
  · have herror := abs_rounded_sub_le hpos ((x.mul x wp).toRat - 1)
    rw [← hd] at herror
    exact_mod_cast herror
  · rcases hd_ge.eq_or_lt with hzero | hlt
    · rw [← hzero, Rat.cast_zero, Real.sqrt_zero, ← Rat.cast_zero] at hround
      rw [hround.eq_of_fits hpos (fits_zero _), ← hzero]
      simp
    · exact hround.abs_sub_le hpos (Real.sqrt_pos.mpr (by exact_mod_cast hlt))
  · have herror := abs_rounded_sub_le hpos (x.toRat + root.toRat)
    rw [← hs] at herror
    exact_mod_cast herror

/-- The result before its last rounding. The errors grow by the factor by which the number is greater than the root. -/
theorem exists_acosh?_near (hx : 1 < x.toRat) (hrange : x.inRange = true) (hdigits : x.digits ≤ p.digits)
    (hp : p.digits < 2 ^ 32) : ∃ c : Decimal, x.acosh? p = some (c.roundTo p) ∧
      ∀ L : ℝ, 1 ≤ L → x.toRat ≤ L * √((x.toRat : ℝ) ^ 2 - 1) → (L + 3) ^ 2 * (5 / 10 ^ 10 / 10 ^ p.digits) ≤ 1 / 30 →
        |c.toRat - Real.arcosh x.toRat| ≤
          (30 / 29 * (L + 3) ^ 2 + 3) * (5 / 10 ^ 10 / 10 ^ p.digits) * Real.arcosh x.toRat := by
  obtain ⟨wp, hwp⟩ : ∃ wp, wp = p.guard guardDigits := ⟨_, rfl⟩
  have hwp' : wp.digits = p.digits + 10 := by rw [hwp]; rfl
  obtain ⟨s, hs, hfits, hone, hle, sq, d, root, hsteps⟩ := exists_arcosh_argument hx hrange hdigits hwp
  have hs0 : 0 < s.toRat := by linarith
  have hcount : Digits.count s.leading.natAbs ≤ 16 := by
    have hlow := leading_nonneg hone
    have hhigh := (leading_bounds (toRat_pos_iff.mp hs0).ne').1
    rw [abs_of_pos hs0] at hhigh
    have hexponent := ten_zpow_le.mp (hhigh.trans hle)
    unfold maxExponent at hexponent
    rw [Digits.count_le_iff (by omega)]
    omega
  have hlog : 0 ≤ Real.log s.toRat := Real.log_nonneg (by exact_mod_cast hone)
  obtain ⟨c, hc, herror⟩ := exists_ln?_near_of_mass (p := wp) (by omega) (by omega) hs0 hcount
    (significand_far_of_fits wp.digits_pos hs0 hfits) ((logMass_of_one_le hone).trans (abs_of_nonneg hlog).symm)
  refine ⟨c, by rw [hs, hc, Option.map_some], fun L hL hX hsmall => ?_⟩
  obtain ⟨u, hu⟩ : ∃ u : ℝ, u = 5 / 10 ^ 10 / 10 ^ p.digits := ⟨_, rfl⟩
  have hroundoff : roundoff wp.digits = u := by
    rw [roundoff, hwp', hu, pow_add]
    ring
  have hsix : 6 / 10 ^ wp.digits = 6 / 5 * u := by
    rw [hwp', hu, pow_add]
    ring
  rw [hroundoff] at hsteps
  rw [hsix, abs_of_nonneg hlog] at herror
  rw [← hu] at hsmall ⊢
  have hX1 : 1 < (x.toRat : ℝ) := by exact_mod_cast hx
  have harcosh := Real.arcosh_nonneg hX1.le
  have hu0 : 0 ≤ u := by rw [hu]; positivity
  have hargument := hsteps.abs_log_sub_arcosh_le hX1 hX hL hu0 hsmall
  have hsize : Real.log s.toRat ≤ 2 * Real.arcosh x.toRat := by
    linarith [(abs_le.mp hargument).2, mul_le_mul_of_nonneg_right hsmall harcosh]
  linarith [abs_sub_le (c.toRat : ℝ) (Real.log s.toRat) (Real.arcosh x.toRat), mul_le_mul_of_nonneg_left hsize hu0,
    mul_nonneg hu0 harcosh]

/-- As far from one as a billionth, the number is not so much greater than the root. -/
theorem le_mul_sqrt_of_far {X : ℝ} (hX : 1 + 1 / 10 ^ 9 ≤ X) : X ≤ 25000 * √(X ^ 2 - 1) := by
  have hroot : 4 / 10 ^ 5 * X ≤ √(X ^ 2 - 1) := by
    apply Real.le_sqrt_of_sq_le
    nlinarith
  linarith

/-- Nor is it, for a number with up to `p` digits, by more than half of these. -/
theorem le_mul_sqrt_of_digits (hx : 1 < x.toRat) (hdigits : x.digits ≤ p.digits) :
    x.toRat ≤ √(10 ^ p.digits) * √((x.toRat : ℝ) ^ 2 - 1) := by
  have hten : (10 : ℝ) ≤ 10 ^ p.digits := le_self_pow₀ (by norm_num) p.digits_pos.ne'
  have hfar := (Rat.cast_le (K := ℝ)).mpr (above_one hx hdigits)
  push_cast at hfar
  rw [zpow_neg, zpow_natCast] at hfar
  rw [← Real.sqrt_mul (by positivity)]
  apply Real.le_sqrt_of_sq_le
  have hunit : (10 : ℝ) ^ p.digits * (10 ^ p.digits)⁻¹ = 1 := mul_inv_cancel₀ (by positivity)
  have hinv : (0 : ℝ) < (10 ^ p.digits)⁻¹ := by positivity
  have htenth : ((10 : ℝ) ^ p.digits)⁻¹ ≤ 10⁻¹ := inv_anti₀ (by norm_num) hten
  have hgap : 20 * (10 ^ p.digits : ℝ)⁻¹ ≤ (x.toRat : ℝ) ^ 2 - 1 := by nlinarith
  linarith [mul_le_mul_of_nonneg_left hgap (by linarith : (0 : ℝ) ≤ 10 ^ p.digits - 1)]

/-- The inverse hyperbolic cosine is found for every number above one, and is off by less than a unit of its last digit and
a small part of itself. As far from one as a billionth, it is off by less than the unit. -/
theorem exists_acosh? (hx : 1 < x.toRat) (hrange : x.inRange = true) (hdigits : x.digits ≤ p.digits)
    (hp : p.digits < 2 ^ 32) : ∃ c, x.acosh? p = some c ∧
      |c.toRat - Real.arcosh x.toRat| < unit p.digits c.toRat + Real.arcosh x.toRat / 10 ^ 8 ∧
        (1 + 1 / 10 ^ 9 ≤ x.toRat → |c.toRat - Real.arcosh x.toRat| < unit p.digits c.toRat) := by
  obtain ⟨c, hc, herror⟩ := exists_acosh?_near hx hrange hdigits hp
  have harcosh := Real.arcosh_nonneg (by exact_mod_cast hx.le : 1 ≤ (x.toRat : ℝ))
  have hten : (10 : ℝ) ≤ 10 ^ p.digits := le_self_pow₀ (by norm_num) p.digits_pos.ne'
  refine ⟨c.roundTo p, hc, ?_, fun hfar => ?_⟩ <;> rw [toRat_roundTo]
  · obtain ⟨L, hL⟩ : ∃ L : ℝ, L = √(10 ^ p.digits) := ⟨_, rfl⟩
    have hL1 : 1 ≤ L := by rw [hL, Real.one_le_sqrt]; linarith
    have hL2 : L ^ 2 = 10 ^ p.digits := hL ▸ Real.sq_sqrt (by positivity)
    have hgrowth : (30 / 29 * (L + 3) ^ 2 + 3) * (5 / 10 ^ 10 / 10 ^ p.digits) ≤ 96 / 100 / 10 ^ 8 := by
      rw [← hL2, ← mul_div_assoc, div_le_iff₀ (by positivity)]
      nlinarith
    have hnear := herror L hL1 (hL ▸ le_mul_sqrt_of_digits hx hdigits) (by
      rw [← hL2, ← mul_div_assoc, div_le_iff₀ (by positivity)]
      nlinarith)
    have hround := abs_rounded_sub_lt_unit (s := c.toRat) (y := Real.arcosh x.toRat) (t := 96 / 100 / 10 ^ 8 * Real.arcosh x.toRat)
      p.digits_pos (by positivity) (by
        have hpart : 0 ≤ 2 / 5 / 10 ^ p.digits * |Real.arcosh x.toRat| := by positivity
        linarith [hnear.trans (mul_le_mul_of_nonneg_right hgrowth harcosh)])
    linarith
  · have hX : 1 + 1 / 10 ^ 9 ≤ (x.toRat : ℝ) := by
      rw [← Rat.cast_le (K := ℝ)] at hfar
      push_cast at hfar
      exact hfar
    have hgrowth : (30 / 29 * (25000 + 3) ^ 2 + 3) * (5 / 10 ^ 10 / 10 ^ p.digits) ≤ (2 / 5 / 10 ^ p.digits : ℝ) := by
      rw [← mul_div_assoc]
      gcongr
      norm_num
    have hnear := herror 25000 (by norm_num) (le_mul_sqrt_of_far hX) (by
      rw [← mul_div_assoc, div_le_iff₀ (by positivity)]
      linarith)
    have hround := abs_rounded_sub_lt_unit (s := c.toRat) (y := Real.arcosh x.toRat) p.digits_pos le_rfl (by
      rw [abs_of_nonneg harcosh, add_zero]
      exact hnear.trans (mul_le_mul_of_nonneg_right hgrowth harcosh))
    rwa [mul_zero, add_zero] at hround

end

end Calculator.Decimal
