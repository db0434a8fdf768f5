import Calculator.Proofs.Decimal.Arcosh
import Calculator.Proofs.Decimal.ArctanError
/-!
The inverse cosine, a quarter turn less an arcsine, and with it the accuracy of both inverse cosines near one. What they
subtract agrees in its first digits there. The ten digits kept for that are enough up to a distance from one, which is the
same for every precision; nearer to one the errors still are a small part of the result.
-/
namespace Calculator.Decimal

/-! ### The cosine of an arcsine -/

/-- The root of one less a square, each of the three rounded: its error is as much greater than the roundings as it is less
than one. -/
theorem abs_cosine_sub_mul_le {w : ℕ} {q sq d c : ℚ} (hw : 0 < w) (hq : q ^ 2 ≤ 1) (hsq : sq = rounded w (q ^ 2))
    (hd : d = rounded w (1 - sq)) (hd0 : 0 < d) (hc : IsRealRounding w √(d : ℝ) c) :
    |c - √(1 - (q : ℝ) ^ 2)| * √(1 - (q : ℝ) ^ 2) ≤ 3 * roundoff w := by
  have hroundoff := roundoff_pos w
  have hsq_ge : 0 ≤ sq := hsq ▸ (fits_zero w).le_rounded hw (sq_nonneg q)
  have hsq_le : sq ≤ 1 := hsq ▸ (fits_one hw).rounded_le hw hq
  have hd_le : d ≤ 1 := hd ▸ (fits_one hw).rounded_le hw (by linarith)
  have hd0' : (0 : ℝ) < d := by exact_mod_cast hd0
  have hC2 : 0 ≤ 1 - (q : ℝ) ^ 2 := by exact_mod_cast sub_nonneg.mpr hq
  have hC1 : √(1 - (q : ℝ) ^ 2) ≤ 1 := Real.sqrt_le_one.mpr (by linarith [sq_nonneg (q : ℝ)])
  have hsquare := abs_rounded_sub_le_mul hw (q ^ 2)
  have hdifference := abs_rounded_sub_le_mul hw (1 - sq)
  rw [← hsq, abs_of_nonneg (sq_nonneg q)] at hsquare
  rw [← hd, abs_of_nonneg (by linarith : 0 ≤ 1 - sq)] at hdifference
  have hd_near : |d - (1 - q ^ 2)| ≤ 2 * (5 / 10 ^ w) := by
    have hscale : (0 : ℚ) ≤ 5 / 10 ^ w := by positivity
    have htriangle := abs_sub_le d (1 - sq) (1 - q ^ 2)
    rw [sub_sub_sub_cancel_left, abs_sub_comm (q ^ 2)] at htriangle
    linarith [mul_le_mul_of_nonneg_left hq hscale, mul_le_mul_of_nonneg_left (by linarith : 1 - sq ≤ 1) hscale]
  have hd_near' : |(d : ℝ) - (1 - (q : ℝ) ^ 2)| ≤ 2 * roundoff w := by
    rw [← Rat.cast_le (K := ℝ)] at hd_near
    push_cast at hd_near
    exact hd_near
  have hroot := (abs_sqrt_sub_mul_le hd0'.le hC2).trans hd_near'
  have hlast : |(c : ℝ) - √d| ≤ roundoff w := by
    refine (hc.abs_sub_le hw (Real.sqrt_pos.mpr hd0')).trans (mul_le_of_le_one_right hroundoff.le ?_)
    exact Real.sqrt_le_one.mpr (by exact_mod_cast hd_le)
  have htriangle := mul_le_mul_of_nonneg_right (abs_sub_le (c : ℝ) √d √(1 - (q : ℝ) ^ 2))
    (Real.sqrt_nonneg (1 - (q : ℝ) ^ 2))
  have hshare := mul_le_mul hlast hC1 (Real.sqrt_nonneg _) hroundoff.le
  linarith

section
variable {x : Decimal} {p : Precision}

/-- A number between -1 and 1 is as far from these as its digits say. -/
theorem gap_of_abs_lt_one (hx : |x.toRat| < 1) (hdigits : x.digits ≤ p.digits) :
    (10 : ℚ) ^ (-p.digits : ℤ) ≤ 1 - |x.toRat| := by
  have hunit := ten_zpow_pos (-p.digits)
  rcases eq_or_ne x.toRat 0 with hzero | hne
  · rw [hzero, abs_zero, sub_zero]
    exact zpow_le_one_of_nonpos₀ (by norm_num) (by omega)
  · rw [← toRat_abs] at hx ⊢
    rcases below_one_cases (toRat_abs x ▸ abs_pos.mpr hne) hx ((digits_abs x).trans_le hdigits) with h | h | h <;> linarith

/-- The cosine of an arcsine is found, and it is not zero. -/
theorem exists_arcsine_cosine (hx : |x.toRat| < 1) (hdigits : x.digits ≤ p.digits) (wp : Precision)
    (hwp : p.digits ≤ wp.digits) :
    ∃ c, (one.sub (x.mul x wp) wp).sqrt? wp = some c ∧ 10 ^ (-p.digits : ℤ) ≤ c.toRat ∧ c.toRat ≤ 1 ∧
      |c.toRat - √(1 - (x.toRat : ℝ) ^ 2)| * √(1 - (x.toRat : ℝ) ^ 2) ≤ 3 * roundoff wp.digits := by
  have hpos := wp.digits_pos
  have hone := fits_one hpos
  have hgap := gap_of_abs_lt_one hx hdigits
  obtain ⟨g, hg⟩ : ∃ g : ℚ, g = 10 ^ (-p.digits : ℤ) := ⟨_, rfl⟩
  have hg0 : 0 < g := hg ▸ ten_zpow_pos _
  have hg1 : g ≤ 1 := hg ▸ zpow_le_one_of_nonpos₀ (by norm_num) (by omega)
  have hgfits : Fits wp.digits g := hg ▸ fits_ten_zpow hpos _
  have hgfits' : Fits wp.digits (1 - g) := by
    refine Fits.mono (p := p.digits) ⟨10 ^ p.digits - 1, -p.digits, ?_, ?_⟩ hwp
    · have hpower : (0 : ℤ) < 10 ^ p.digits := by positivity
      rw [abs_lt]
      constructor <;> omega
    · rw [hg, zpow_neg, zpow_natCast]
      push_cast
      field_simp
  rw [← hg] at hgap ⊢
  have hx2 : x.toRat ^ 2 ≤ 1 - g := by
    rw [← sq_abs, sq]
    linarith [mul_le_mul_of_nonneg_left hx.le (abs_nonneg x.toRat)]
  -- The square, and one less the square.
  have hsq : (x.mul x wp).toRat = rounded wp.digits (x.toRat ^ 2) := by rw [toRat_mul, sq]
  have hsq_le : (x.mul x wp).toRat ≤ 1 - g := hsq ▸ hgfits'.rounded_le hpos hx2
  have hsq_ge : 0 ≤ (x.mul x wp).toRat := hsq ▸ (fits_zero _).le_rounded hpos (sq_nonneg _)
  have hd := toRat_sub (p := wp) (a := one) (b := x.mul x wp) (isolated_one wp)
    ((hsq ▸ fits_rounded hpos _ : Fits wp.digits (x.mul x wp).toRat).isolated hpos)
  rw [toRat_one] at hd
  have hd_ge : g ≤ (one.sub (x.mul x wp) wp).toRat := hd ▸ hgfits.le_rounded hpos (by linarith)
  have hd_le : (one.sub (x.mul x wp) wp).toRat ≤ 1 := hd ▸ hone.rounded_le hpos (by linarith)
  -- The root.
  obtain ⟨c, hc, hround⟩ := isRealRounding_sqrt? (p := wp) (d := one.sub (x.mul x wp) wp) (by linarith)
  refine ⟨c, hc, ?_, ?_, abs_cosine_sub_mul_le hpos (by linarith) hsq hd (by linarith) hround⟩
  · apply hround.ge_of_fits hgfits
    apply Real.le_sqrt_of_sq_le
    exact_mod_cast (pow_le_of_le_one hg0.le hg1 two_ne_zero).trans hd_ge
  · apply hround.le_of_fits hone
    rw [Rat.cast_one]
    exact Real.sqrt_le_one.mpr (by exact_mod_cast hd_le)

/-- The tangent of an arcsine is found, and is rounded once. -/
theorem exists_arcsine_tangent (hx : |x.toRat| < 1) (hrange : x.inRange = true) (hp : p.digits < 2 ^ 32) (wp : Precision)
    {c : Decimal} (hlow : 10 ^ (-p.digits : ℤ) ≤ c.toRat) (hhigh : c.toRat ≤ 1) :
    ∃ t, x.div? c wp = some t ∧ Fits wp.digits t.toRat ∧ |t.toRat| ≤ 10 ^ maxExponent ∧
      |(t.toRat : ℝ) - x.toRat / c.toRat| ≤ roundoff wp.digits * |(x.toRat / c.toRat : ℝ)| := by
  have hpos := wp.digits_pos
  have hc0 : 0 < c.toRat := (ten_zpow_pos _).trans_le hlow
  have habs : |x.toRat / c.toRat| = |x.toRat| / c.toRat := by rw [abs_div, abs_of_pos hc0]
  have hle : |x.toRat / c.toRat| ≤ 10 ^ maxExponent := by
    rw [habs, div_le_iff₀ hc0]
    refine hx.le.trans ?_
    calc (1 : ℚ) ≤ 10 ^ (maxExponent + -p.digits) := one_le_zpow₀ (by norm_num) (by unfold maxExponent; omega)
      _ = 10 ^ maxExponent * 10 ^ (-p.digits : ℤ) := ten_zpow_add ..
      _ ≤ 10 ^ maxExponent * c.toRat := mul_le_mul_of_nonneg_left hlow (ten_zpow_pos _).le
  obtain ⟨t, ht, hvalue⟩ : ∃ t, x.div? c wp = some t ∧ t.toRat = rounded wp.digits (x.toRat / c.toRat) := by
    rcases eq_or_ne x.toRat 0 with hzero | hne
    · refine ⟨zero, div?_of_zero_left hzero hc0.ne' wp, ?_⟩
      rw [hzero, zero_div, rounded_zero, toRat_zero]
    · refine div?_of_between hc0.ne' ?_ hle le_rfl le_rfl wp
      rw [habs, le_div_iff₀ hc0]
      have hleast := ((representable_iff hne).mp (inRange_iff.mp hrange)).1
      linarith [mul_le_mul_of_nonneg_left hhigh (ten_zpow_pos (-maxExponent)).le]
  refine ⟨t, ht, hvalue ▸ fits_rounded hpos _, ?_, ?_⟩
  · rw [hvalue, abs_rounded hpos]
    exact (fits_ten_zpow hpos _).rounded_le hpos hle
  · have hround := abs_rounded_sub_le hpos (x.toRat / c.toRat)
    rw [← hvalue] at hround
    push_cast at hround
    exact hround

end

/-! ### The angle -/

/-- What one rounding of a tangent changes of the angle. -/
theorem abs_arctan_sub_le_of_relative {t b u : ℝ} (hu0 : 0 ≤ u) (hu : u ≤ 1 / 2) (h : |t - b| ≤ u * |b|) :
    |Real.arctan t - Real.arctan b| ≤ u := by
  have hproduct : b ^ 2 / 2 ≤ t * b := by
    have hpart := mul_le_mul_of_nonneg_right h (abs_nonneg b)
    rw [← abs_mul, mul_assoc, abs_mul_abs_self] at hpart
    linarith [neg_le_of_abs_le hpart, mul_le_mul_of_nonneg_right hu (mul_self_nonneg b)]
  have hb : |b| ≤ 1 + b ^ 2 / 2 := by
    rw [← sq_abs]
    linarith [sq_nonneg (|b| - 1)]
  have hnonneg : 0 ≤ t * b := (by positivity : 0 ≤ b ^ 2 / 2).trans hproduct
  refine (abs_arctan_sub_arctan_le hnonneg).trans ?_
  rw [div_le_iff₀ (by linarith)]
  exact h.trans (mul_le_mul_of_nonneg_left (by linarith) hu0)

/-- What the error of a cosine changes of the angle with that sine. -/
theorem abs_arctan_div_sub_le {x c C e : ℝ} (hc : 0 < c) (hC : 0 < C) (hcircle : x ^ 2 + C ^ 2 = 1)
    (hnear : |c - C| * C ≤ e) (hsmall : 2 * e ≤ C ^ 2) : |Real.arctan (x / c) - Real.arctan (x / C)| ≤ 2 * (e / C) := by
  have herror : |c - C| ≤ e / C := (le_div_iff₀ hC).mpr hnear
  have hhalf : |c - C| ≤ C / 2 := by
    refine le_of_mul_le_mul_right ?_ hC
    linarith
  have hlow := mul_le_mul_of_nonneg_right (neg_le_of_abs_le hhalf) hC.le
  have hx : |x| ≤ 1 := (sq_le_one_iff_abs_le_one x).mp (by linarith [sq_nonneg C])
  have hdenominator : 1 / 2 ≤ c * C + x ^ 2 := by linarith [sq_nonneg x]
  have hproduct : x / c * (x / C) = x ^ 2 / (c * C) := by
    field_simp
  refine (abs_arctan_sub_arctan_le (by rw [hproduct]; positivity)).trans ?_
  have hsplit : |x / c - x / C| / (1 + x / c * (x / C)) = |x| * |c - C| / (c * C + x ^ 2) := by
    have hdifference : x / c - x / C = x * (C - c) / (c * C) := by
      field_simp
    rw [hproduct, hdifference, abs_div, abs_mul, abs_sub_comm C, abs_of_pos (mul_pos hc hC)]
    field_simp
  rw [hsplit, div_le_iff₀ (by linarith)]
  calc |x| * |c - C| ≤ 1 * (e / C) := mul_le_mul hx herror (abs_nonneg _) zero_le_one
    _ = 2 * (e / C) * (1 / 2) := by ring
    _ ≤ 2 * (e / C) * (c * C + x ^ 2) :=
      mul_le_mul_of_nonneg_left hdenominator (by linarith [(abs_nonneg (c - C)).trans herror])

section
variable {x : Decimal} {p : Precision}

/-- The arcsine in the precision of the quarter turn that it is taken from. -/
theorem exists_arcsine (hx : |x.toRat| < 1) (hrange : x.inRange = true) (hdigits : x.digits ≤ p.digits)
    (hp : p.digits < 2 ^ 32) {wp : Precision} (hwp : wp = p.guard guardDigits) :
    ∃ r, x.asin? wp = some r ∧ Fits wp.digits r.toRat ∧
      |(r.toRat : ℝ) - Real.arcsin x.toRat| ≤
        11 / 10 ^ wp.digits + 7 * (5 / 10 ^ (wp.digits + 10)) / √(1 - (x.toRat : ℝ) ^ 2) := by
  obtain ⟨wp', hwp'⟩ : ∃ wp', wp' = wp.guard guardDigits := ⟨_, rfl⟩
  have hwide : wp.digits = p.digits + 10 := by rw [hwp]; rfl
  have hwide' : wp'.digits = wp.digits + 10 := by rw [hwp']; rfl
  have hp0 := p.digits_pos
  obtain ⟨c, hc, hlow, hhigh, hnear⟩ := exists_arcsine_cosine hx hdigits wp' (by omega)
  obtain ⟨t, ht, hfits, hle, hround⟩ := exists_arcsine_tangent hx hrange hp wp' hlow hhigh
  refine ⟨t.atan wp, ?_, fits_of_digits (within_atan t wp).digits_le, ?_⟩
  · have hcompare : x.abs.compare one = .lt := by
      have hcompares := compare_compares x.abs one
      rw [toRat_abs, toRat_one] at hcompares
      revert hcompares
      cases x.abs.compare one with
      | lt => exact fun _ => rfl
      | eq => exact fun h => absurd h hx.ne
      | gt => exact fun h => absurd h hx.not_gt
    rw [asin?, hcompare, ← hwp']
    simp only [hc, ht, Option.bind_eq_bind, Option.bind_some]
    rfl
  · obtain ⟨C, hC⟩ : ∃ C, C = √(1 - (x.toRat : ℝ) ^ 2) := ⟨_, rfl⟩
    obtain ⟨u, hu⟩ : ∃ u : ℝ, u = 5 / 10 ^ (wp.digits + 10) := ⟨_, rfl⟩
    have hroundoff : roundoff wp'.digits = u := by rw [roundoff, hwide', hu]
    rw [← hC, hroundoff] at hnear
    rw [hroundoff] at hround
    rw [← hC, ← hu]
    have hc0 : (0 : ℝ) < c.toRat := by exact_mod_cast (ten_zpow_pos _).trans_le hlow
    have hx1 : -1 < (x.toRat : ℝ) ∧ (x.toRat : ℝ) < 1 := by exact_mod_cast abs_lt.mp hx
    have hgap := (Rat.cast_le (K := ℝ)).mpr (gap_of_abs_lt_one hx hdigits)
    push_cast at hgap
    have hsquare : (10 : ℝ) ^ (-p.digits : ℤ) ≤ 1 - (x.toRat : ℝ) ^ 2 := by
      have habs : |(x.toRat : ℝ)| ≤ 1 := by exact_mod_cast hx.le
      rw [← sq_abs]
      linarith [mul_le_mul_of_nonneg_left habs (abs_nonneg (x.toRat : ℝ)), sq |(x.toRat : ℝ)|]
    have hunit : (0 : ℝ) < 10 ^ (-p.digits : ℤ) := by positivity
    have hC0 : 0 < C := hC ▸ Real.sqrt_pos.mpr (by linarith)
    have hC2 : C ^ 2 = 1 - (x.toRat : ℝ) ^ 2 := hC ▸ Real.sq_sqrt (by linarith)
    have hC1 : C ≤ 1 := by nlinarith [sq_nonneg (x.toRat : ℝ)]
    have hu0 : 0 < u := by rw [hu]; positivity
    have husmall : 10 * u ≤ 10 ^ (-p.digits : ℤ) := by
      rw [hu, hwide, zpow_neg, zpow_natCast, pow_add, pow_add]
      rw [← mul_div_assoc, div_le_iff₀ (by positivity)]
      have hten : (10 : ℝ) ^ p.digits ≠ 0 := by positivity
      field_simp
      norm_num
    have hexact := Real.arcsin_eq_arctan (Set.mem_Ioo.mpr hx1)
    rw [← hC] at hexact
    have hatan := abs_atan_sub_le (x := t) (p := wp) (by omega) (by omega) (hwide' ▸ hfits) hle
    have htangent := abs_arctan_sub_le_of_relative hu0.le (hroundoff ▸ roundoff_le_half wp'.digits_pos) hround
    have hcosine := abs_arctan_div_sub_le (x := x.toRat) hc0 hC0 (by linarith) hnear (by linarith)
    have hshare : u ≤ u / C := le_div_self hu0.le hC0 hC1
    have hsplit : 7 * u / C = u / C + 2 * (3 * u / C) := by ring
    rw [hexact, hsplit]
    linarith [abs_sub_le ((t.atan wp).toRat : ℝ) (Real.arctan t.toRat) (Real.arctan (x.toRat / C)),
      abs_sub_le (Real.arctan t.toRat) (Real.arctan (x.toRat / c.toRat)) (Real.arctan (x.toRat / C))]

/-- The arccosine before its last rounding. -/
theorem exists_acos?_near (hx : |x.toRat| < 1) (hrange : x.inRange = true) (hdigits : x.digits ≤ p.digits)
    (hp : p.digits < 2 ^ 32) : ∃ c : Decimal, x.acos? p = some (c.roundTo p) ∧
      |c.toRat - Real.arccos x.toRat| ≤
        (36 + 4 / 10 ^ 9 / √(1 - (x.toRat : ℝ) ^ 2) + 6 * Real.arccos x.toRat) / 10 ^ (p.digits + 10) := by
  obtain ⟨wp, hwp⟩ : ∃ wp, wp = p.guard guardDigits := ⟨_, rfl⟩
  have hwide : wp.digits = p.digits + 10 := by rw [hwp]; rfl
  have hpos := wp.digits_pos
  obtain ⟨r, hr, hfits, hnear⟩ := exists_arcsine hx hrange hdigits hp hwp
  have hturn : Fits wp.digits (quarterTurn wp).toRat := by
    rw [quarterTurn, toRat_mul]
    exact fits_rounded hpos _
  refine ⟨(quarterTurn wp).sub r wp, by rw [acos?, ← hwp]; simp only [hr]; rfl, ?_⟩
  have hquarter := abs_quarterTurn_sub_le (p := wp) (by omega) (by omega)
  have hround := abs_rounded_sub_le hpos ((quarterTurn wp).toRat - r.toRat)
  rw [← toRat_sub (hturn.isolated hpos) (hfits.isolated hpos)] at hround
  push_cast at hround
  rw [← hwide]
  obtain ⟨t, ht, ht0, ht1, hroundoff⟩ := exists_place (by omega : 8 ≤ wp.digits)
  obtain ⟨A, hA⟩ : ∃ A, A = Real.arccos x.toRat := ⟨_, rfl⟩
  obtain ⟨K, hK⟩ : ∃ K, K = 1 / √(1 - (x.toRat : ℝ) ^ 2) := ⟨_, rfl⟩
  have hA0 : 0 ≤ A := hA ▸ Real.arccos_nonneg _
  have hK0 : 0 ≤ K := by rw [hK]; positivity
  have hturn_near : |((quarterTurn wp).toRat : ℝ) - Real.pi / 2| ≤ 20 * t := hquarter.trans_eq (by rw [ht]; ring)
  have hr_near : |(r.toRat : ℝ) - Real.arcsin x.toRat| ≤ 11 * t + 35 / 10 ^ 10 * (t * K) := by
    refine hnear.trans_eq ?_
    rw [ht, hK, pow_add]
    ring
  have hdifference : |((quarterTurn wp).toRat - r.toRat : ℝ) - A| ≤ 31 * t + 35 / 10 ^ 10 * (t * K) := by
    have hsplit : ((quarterTurn wp).toRat - r.toRat : ℝ) - A =
        ((quarterTurn wp).toRat - Real.pi / 2) - (r.toRat - Real.arcsin x.toRat) := by
      rw [hA, Real.arccos_eq_pi_div_two_sub_arcsin]
      ring
    rw [hsplit]
    linarith [abs_sub ((quarterTurn wp).toRat - Real.pi / 2 : ℝ) (r.toRat - Real.arcsin x.toRat)]
  have htotal : (36 + 4 / 10 ^ 9 / √(1 - (x.toRat : ℝ) ^ 2) + 6 * A) / 10 ^ wp.digits =
      36 * t + 4 / 10 ^ 9 * (t * K) + 6 * (t * A) := by
    rw [ht, hK]
    ring
  have hsize : |((quarterTurn wp).toRat - r.toRat : ℝ)| ≤ A + (31 * t + 35 / 10 ^ 10 * (t * K)) := by
    have htriangle := abs_sub_abs_le_abs_sub ((quarterTurn wp).toRat - r.toRat : ℝ) A
    rw [abs_of_nonneg hA0] at htriangle
    linarith
  rw [hroundoff] at hround
  rw [← hA, htotal]
  have htK := mul_nonneg ht0.le hK0
  linarith [abs_sub_le (((quarterTurn wp).sub r wp).toRat : ℝ) ((quarterTurn wp).toRat - r.toRat) A,
    mul_le_mul_of_nonneg_left hsize ht0.le, mul_le_mul_of_nonneg_right ht1 ht0.le, mul_le_mul_of_nonneg_right ht1 htK,
    mul_nonneg ht0.le hA0]

/-- The arccosine is not less than its sine. -/
theorem sqrt_le_arccos (t : ℝ) : √(1 - t ^ 2) ≤ Real.arccos t := by
  rw [← Real.sin_arccos]
  exact Real.sin_le (Real.arccos_nonneg t)

/-- The arccosine is found for every number between -1 and 1, and is off by less than a unit of its last digit and a small
part of itself. Not too near to one and to -1, it is off by less than the unit. -/
theorem exists_acos? (hx : |x.toRat| < 1) (hrange : x.inRange = true) (hdigits : x.digits ≤ p.digits)
    (hp : p.digits < 2 ^ 32) : ∃ c, x.acos? p = some c ∧
      |c.toRat - Real.arccos x.toRat| < unit p.digits c.toRat + Real.arccos x.toRat / 10 ^ 8 ∧
        (1 / 10 ^ 16 ≤ 1 - |x.toRat| → |c.toRat - Real.arccos x.toRat| < unit p.digits c.toRat) := by
  obtain ⟨c, hc, hnear⟩ := exists_acos?_near hx hrange hdigits hp
  obtain ⟨A, hA⟩ : ∃ A, A = Real.arccos x.toRat := ⟨_, rfl⟩
  obtain ⟨C, hC⟩ : ∃ C, C = √(1 - (x.toRat : ℝ) ^ 2) := ⟨_, rfl⟩
  have hCA : C ≤ A := by rw [hC, hA]; exact sqrt_le_arccos _
  have hsquare : ∀ g : ℝ, g ≤ 1 - |(x.toRat : ℝ)| → g ≤ 1 - (x.toRat : ℝ) ^ 2 := fun g hg => by
    have habs : |(x.toRat : ℝ)| ≤ 1 := by exact_mod_cast hx.le
    rw [← sq_abs]
    linarith [mul_le_mul_of_nonneg_left habs (abs_nonneg (x.toRat : ℝ)), sq |(x.toRat : ℝ)|]
  have hgap := (Rat.cast_le (K := ℝ)).mpr (gap_of_abs_lt_one hx hdigits)
  push_cast at hgap
  have hunit : (0 : ℝ) < 10 ^ (-p.digits : ℤ) := by positivity
  have hC0 : 0 < C := hC ▸ Real.sqrt_pos.mpr (by linarith [hsquare _ hgap])
  have hC2 : C ^ 2 = 1 - (x.toRat : ℝ) ^ 2 := hC ▸ Real.sq_sqrt (by linarith [hsquare _ hgap])
  have hA0 : 0 < A := hC0.trans_le hCA
  rw [← hA, ← hC] at hnear
  rw [← hA]
  refine ⟨c.roundTo p, hc, ?_, fun hfar => ?_⟩ <;> rw [toRat_roundTo]
  · -- One less the square is not less than the last of the digits.
    have hC1 : C ≤ 1 := hC ▸ Real.sqrt_le_one.mpr (by linarith [sq_nonneg (x.toRat : ℝ)])
    have hten : (1 : ℝ) ≤ 10 ^ p.digits := one_le_pow₀ (by norm_num)
    have hlast : 1 ≤ C * C * 10 ^ p.digits := by
      have hscaled := hsquare _ hgap
      rwa [← hC2, zpow_neg, zpow_natCast, inv_le_iff_one_le_mul₀ (by positivity), sq] at hscaled
    have hshare : C * 10 ^ p.digits ≤ A * 10 ^ p.digits := mul_le_mul_of_nonneg_right hCA (by positivity)
    have hsum : 36 + 4 / 10 ^ 9 / C + 6 * A ≤ 96 * (A * 10 ^ p.digits) := by
      have hinv : 4 / 10 ^ 9 / C ≤ 4 / 10 ^ 9 * (C * 10 ^ p.digits) := by
        rw [div_le_iff₀ hC0]
        linarith
      have hsquared := mul_le_mul_of_nonneg_right hC1 (mul_nonneg hC0.le (by positivity : (0 : ℝ) ≤ 10 ^ p.digits))
      linarith [mul_le_mul_of_nonneg_left hten hA0.le]
    have hround := abs_rounded_sub_lt_unit (s := c.toRat) (y := A) (t := 96 / 100 / 10 ^ 8 * A) p.digits_pos
      (by positivity) (by
        have hnonneg : 0 ≤ 2 / 5 / 10 ^ p.digits * |A| := by positivity
        refine hnear.trans (le_trans ?_ (le_add_of_nonneg_left hnonneg))
        rw [div_le_iff₀ (by positivity), pow_add]
        linarith)
    linarith
  · have hfar' : 1 / 10 ^ 16 ≤ 1 - |(x.toRat : ℝ)| := by
      rw [← Rat.cast_le (K := ℝ)] at hfar
      push_cast at hfar
      exact hfar
    have hCfar : 1 / 10 ^ 8 ≤ C := by
      rw [hC]
      apply Real.le_sqrt_of_sq_le
      norm_num at hfar' ⊢
      linarith [hsquare _ hfar']
    have hinv : 4 / 10 ^ 9 / C ≤ 1 := by
      rw [div_le_one hC0]
      linarith
    have hround := abs_rounded_sub_lt_unit (s := c.toRat) (y := A) p.digits_pos le_rfl (by
      rw [add_zero, abs_of_pos hA0]
      refine hnear.trans ?_
      rw [div_le_iff₀ (by positivity), pow_add, div_mul_eq_mul_div, div_mul_eq_mul_div, le_div_iff₀ (by positivity)]
      have hten : (0 : ℝ) < 10 ^ p.digits := by positivity
      have hsum : 36 + 4 / 10 ^ 9 / C + 6 * A ≤ 4 * 10 ^ 9 * A := by linarith
      linarith [mul_le_mul_of_nonneg_right hsum hten.le])
    rwa [mul_zero, add_zero] at hround

/-! ### Near one -/

/-- The inverse cosines of a number with up to `p` digits, `p` being at most `10 ^ 9`, are found wherever they are
defined. They are off by less than a unit of the last digit and a hundred millionth of the result. They are off by less than
the unit alone where the number is not too near to one: at a distance of `10 ^ -9` and more for the hyperbolic cosine, and
of `10 ^ -16` and more, from -1 as well, for the cosine. -/
theorem inverse_cosines_within_unit_unless_near_one (x : Decimal) (p : Precision) (hrange : x.inRange = true)
    (hdigits : x.digits ≤ p.digits) (hp : p.digits ≤ 10 ^ 9) :
    (1 < x.toRat → ∃ c, x.acosh? p = some c ∧
      |c.toRat - Real.arcosh x.toRat| < unit p.digits c.toRat + Real.arcosh x.toRat / 10 ^ 8 ∧
        (1 + 1 / 10 ^ 9 ≤ x.toRat → |c.toRat - Real.arcosh x.toRat| < unit p.digits c.toRat)) ∧
      (|x.toRat| < 1 → ∃ c, x.acos? p = some c ∧
        |c.toRat - Real.arccos x.toRat| < unit p.digits c.toRat + Real.arccos x.toRat / 10 ^ 8 ∧
          (1 / 10 ^ 16 ≤ 1 - |x.toRat| → |c.toRat - Real.arccos x.toRat| < unit p.digits c.toRat)) :=
  ⟨fun hx => exists_acosh? hx hrange hdigits (by omega), fun hx => exists_acos? hx hrange hdigits (by omega)⟩

/-- Two, and a half. -/
theorem inverse_cosines_of_two_and_half_within_unit :
    two.inRange = true ∧ two.digits ≤ 20 ∧ half.inRange = true ∧ half.digits ≤ 20 ∧ (1 < two.toRat ∧ |half.toRat| < 1) ∧
      (∃ c, two.acosh? ⟨20, by decide⟩ = some c ∧ |c.toRat - Real.arcosh two.toRat| < unit 20 c.toRat) ∧
        ∃ c, half.acos? ⟨20, by decide⟩ = some c ∧ |c.toRat - Real.arccos half.toRat| < unit 20 c.toRat := by
  have hrange : two.inRange = true := by decide +kernel
  have hdigits : two.digits ≤ 20 := by decide +kernel
  have hrange' : half.inRange = true := by decide +kernel
  have hdigits' : half.digits ≤ 20 := by decide +kernel
  have htwo : 1 < two.toRat := by
    rw [toRat_two]
    norm_num
  have hhalf : |half.toRat| < 1 := by
    rw [toRat_half]
    norm_num
  obtain ⟨c, hc, -, hunit⟩ :=
    (inverse_cosines_within_unit_unless_near_one two ⟨20, by decide⟩ hrange hdigits (by decide)).1 htwo
  obtain ⟨d, hd, -, hunit'⟩ :=
    (inverse_cosines_within_unit_unless_near_one half ⟨20, by decide⟩ hrange' hdigits' (by decide)).2 hhalf
  refine ⟨hrange, hdigits, hrange', hdigits', ⟨htwo, hhalf⟩, ⟨c, hc, hunit ?_⟩, d, hd, hunit' ?_⟩
  · rw [toRat_two]
    norm_num
  · rw [toRat_half]
    norm_num

/-- At a distance of twelve places from one, two of the digits are wrong: the exact ones end in 65. -/
example : (ofParts 100000000000123 (-14)).acosh? ⟨15, by decide⟩ = some (ofParts 156843871413581 (-20)) := by
  decide +kernel

end
end Calculator.Decimal
