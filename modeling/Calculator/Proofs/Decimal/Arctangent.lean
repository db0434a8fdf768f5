import Calculator.Proofs.Decimal.ArctanSeries
/-!
The arctangent has the sign of its argument and is not greater, unless a quotient on the way leaves the exponent range.
The halvings then stop, while eight times the sum is taken all the same, and a number beyond the greatest power of ten
has no inverse, so that its arctangent is taken for zero.
-/
namespace Calculator.Decimal

/-! ### Halving -/

section
variable {x : Decimal} {p : Precision}

theorem isolated_one (p : Precision) : Isolated p.digits one.toRat := by
  rw [toRat_one]
  exact (fits_one p.digits_pos).isolated p.digits_pos

/-- The hypotenuse of a right triangle with sides 1 and `x`: it is near to one, and it is one for a small `x`. -/
theorem exists_hypotenuse (hp : 8 ≤ p.digits) (x : Decimal) :
    ∃ h, (one.add (x.mul x p) p).sqrt? p = some h ∧ Fits p.digits h.toRat ∧ 1 ≤ h.toRat ∧
      (∀ c : ℚ, Fits p.digits c → 0 ≤ c → 1000001 / 1000000 * (1 + 1000001 / 1000000 * x.toRat ^ 2) ≤ c ^ 2 →
        h.toRat ≤ c) ∧
      (x.toRat ^ 2 ≤ 1 / 10 ^ (p.digits + 3) → h.toRat = 1) ∧ Close p.digits 3 h.toRat √(1 + (x.toRat : ℝ) ^ 2) := by
  have hp' := p.digits_pos
  have hone := fits_one hp'
  obtain ⟨-, hsquare⟩ := rounded_bounds hp (sq_nonneg x.toRat)
  have hnonneg : 0 ≤ rounded p.digits (x.toRat ^ 2) := (fits_zero _).le_rounded hp' (sq_nonneg _)
  obtain ⟨-, hsum_le⟩ := rounded_bounds hp (by linarith : 0 ≤ 1 + rounded p.digits (x.toRat ^ 2))
  have hsum_ge := hone.le_rounded hp' (by linarith : 1 ≤ 1 + rounded p.digits (x.toRat ^ 2))
  have hsum : (one.add (x.mul x p) p).toRat = rounded p.digits (1 + rounded p.digits (x.toRat ^ 2)) := by
    have hmul : (x.mul x p).toRat = rounded p.digits (x.toRat ^ 2) := by rw [toRat_mul, sq]
    rw [toRat_add (isolated_one p) (hmul ▸ (fits_rounded hp' _).isolated hp'), hmul, toRat_one]
  obtain ⟨h, hsqrt, hround⟩ := isRealRounding_sqrt? (p := p) (d := one.add (x.mul x p) p) (by linarith)
  rw [hsum] at hround
  refine ⟨h, hsqrt, hround.fits, ?_, fun c hc hc0 hle => ?_, fun hsmall => ?_, ?_⟩
  · apply hround.ge_of_fits hone
    rw [Rat.cast_one, Real.one_le_sqrt]
    exact_mod_cast hsum_ge
  · apply hround.le_of_fits hc
    rw [Real.sqrt_le_left (by exact_mod_cast hc0)]
    exact_mod_cast (by linarith : rounded p.digits (1 + rounded p.digits (x.toRat ^ 2)) ≤ c ^ 2)
  · have hsum_one : rounded p.digits (1 + rounded p.digits (x.toRat ^ 2)) = 1 := by
      refine rounded_of_close hp' hone ?_
      rw [add_sub_cancel_left, abs_of_nonneg hnonneg, abs_one]
      have hpower : (1 : ℚ) / 10 ^ (p.digits + 2) = 10 * (1 / 10 ^ (p.digits + 3)) := by
        rw [pow_succ 10 (p.digits + 2)]
        field_simp
      linarith
    rw [hsum_one, Rat.cast_one, Real.sqrt_one, ← Rat.cast_one] at hround
    exact hround.eq_of_fits hp' hone
  · have hclose := (close_rounded hp' (sq_nonneg x.toRat))
    rw [Rat.cast_pow] at hclose
    have hadd := ((Close.refl p.digits 1).mono hp' zero_le_one zero_le_one (Nat.zero_le 1)).add hclose
    rw [← Rat.cast_one, ← Rat.cast_add, Rat.cast_one] at hadd
    have hclose' := (close_rounded hp' (by linarith : 0 ≤ 1 + rounded p.digits (x.toRat ^ 2))).trans hp' hadd
    exact (hround.close hp' (Real.sqrt_nonneg _)).trans hp' (hclose'.sqrt hp' (by positivity))

/-- What a halving divides by: it is near to two, and it is two for a small tangent. -/
theorem exists_divisor (hp : 8 ≤ p.digits) (x : Decimal) (n : ℕ) :
    ∃ d : Decimal, 2 ≤ d.toRat ∧
      (∀ c : ℚ, Fits p.digits c → 0 ≤ c → 1000001 / 1000000 * (1 + 1000001 / 1000000 * x.toRat ^ 2) ≤ c ^ 2 →
        d.toRat ≤ 1000001 / 1000000 * (1 + c)) ∧
      (x.toRat ^ 2 ≤ 1 / 10 ^ (p.digits + 3) → d.toRat = 2) ∧
      Close p.digits 4 d.toRat (1 + √(1 + (x.toRat : ℝ) ^ 2)) ∧
      (x.div? d p = none → halveArctan p (n + 1) x = x) ∧
      ∀ y, x.div? d p = some y → halveArctan p (n + 1) x = halveArctan p n y := by
  have hp' := p.digits_pos
  obtain ⟨h, hsqrt, hfits, hge, hle, hone, hclose⟩ := exists_hypotenuse hp x
  have hd : (one.add h p).toRat = rounded p.digits (1 + h.toRat) := by
    rw [toRat_add (isolated_one p) (hfits.isolated hp'), toRat_one]
  have htwo : Fits p.digits 2 := by exact_mod_cast fits_digit hp' (by decide : 2 < 10)
  refine ⟨one.add h p, ?_, fun c hc hc0 hc' => ?_, fun hsmall => ?_, ?_,
    fun hstop => by simp only [halveArctan, hsqrt, hstop], fun y hgo => by simp only [halveArctan, hsqrt, hgo]⟩
  · rw [hd]
    exact htwo.le_rounded hp' (by linarith)
  · obtain ⟨-, hd_le⟩ := rounded_bounds hp (by linarith : 0 ≤ 1 + h.toRat)
    rw [hd]
    linarith [hle c hc hc0 hc']
  · rw [hd, hone hsmall, one_add_one_eq_two, rounded_of_fits htwo]
  · have hadd := ((Close.refl p.digits 1).mono hp' zero_le_one zero_le_one (Nat.zero_le 3)).add hclose
    rw [← Rat.cast_one, ← Rat.cast_add, Rat.cast_one] at hadd
    rw [hd]
    exact (close_rounded hp' (by linarith : 0 ≤ 1 + h.toRat)).trans hp' hadd

/-- The square of a number near the lower end of the exponent range is negligible. -/
theorem sq_le_of_tiny (hp : p.digits ≤ 10 ^ 14) {q : ℚ} (h : |q| ≤ 16 * 10 ^ (-maxExponent)) :
    q ^ 2 ≤ 1 / 10 ^ (p.digits + 3) := by
  have hunit := ten_zpow_pos (-maxExponent)
  calc q ^ 2 = |q| ^ 2 := (sq_abs q).symm
    _ ≤ (16 * 10 ^ (-maxExponent)) ^ 2 := by gcongr
    _ ≤ 10 ^ (3 : ℤ) * (10 ^ (-maxExponent) * 10 ^ (-maxExponent)) := by
      rw [mul_pow, sq (10 ^ (-maxExponent) : ℚ)]
      gcongr
      norm_num
    _ = 10 ^ (3 + (-maxExponent + -maxExponent)) := by rw [ten_zpow_add, ten_zpow_add]
    _ ≤ 10 ^ (-(p.digits + 3 : ℕ) : ℤ) := by
      rw [ten_zpow_le, maxExponent]
      omega
    _ = 1 / 10 ^ (p.digits + 3) := by rw [zpow_neg, zpow_natCast, one_div]

theorem sixteen_least_le : (16 : ℚ) * 10 ^ (-maxExponent) ≤ 1 / 1000 := by
  calc (16 : ℚ) * 10 ^ (-maxExponent) ≤ 10 ^ (2 : ℤ) * 10 ^ (-maxExponent) := by
        gcongr
        norm_num
    _ = 10 ^ (2 + -maxExponent) := (ten_zpow_add ..).symm
    _ ≤ 10 ^ (-3 : ℤ) := by
        rw [ten_zpow_le, maxExponent]
        norm_num
    _ = 1 / 1000 := by norm_num

/-- A halving of a tiny number: the half, unless that is below the exponent range. -/
theorem halveArctan_of_tiny (hp : 8 ≤ p.digits) (hp' : p.digits ≤ 10 ^ 14) (hx : x.toRat ≠ 0)
    (htiny : |x.toRat| ≤ 16 * 10 ^ (-maxExponent)) (hfits : Fits p.digits (x.toRat / 2)) (n : ℕ) :
    |x.toRat| < 2 * 10 ^ (-maxExponent) ∧ halveArctan p (n + 1) x = x ∨
      2 * 10 ^ (-maxExponent) ≤ |x.toRat| ∧
        ∃ y : Decimal, y.toRat = x.toRat / 2 ∧ halveArctan p (n + 1) x = halveArctan p n y := by
  obtain ⟨d, -, -, htwo, -, hstop, hgo⟩ := exists_divisor hp x n
  have hd := htwo (sq_le_of_tiny hp' htiny)
  have hquotient : rounded p.digits (x.toRat / d.toRat) = x.toRat / 2 := by rw [hd, rounded_of_fits hfits]
  have habs : |x.toRat / 2| = |x.toRat| / 2 := by rw [abs_div, abs_two]
  rcases lt_or_ge |x.toRat| (2 * 10 ^ (-maxExponent)) with hlt | hge
  · have hnone := div?_eq_none_of_lt hx (hd.trans_ne two_ne_zero) (p := p) (by rw [hquotient, habs]; linarith)
    exact .inl ⟨hlt, hstop hnone⟩
  · have hone := sixteen_least_le
    obtain ⟨y, hy, hvalue⟩ := div?_of_le_one (a := x) (hd.trans_ne two_ne_zero)
      (by rw [hd, habs]; linarith) (by rw [hd, habs]; linarith) p
    exact .inr ⟨hge, y, hvalue.trans hquotient, hgo y hy⟩

/-- A halving of a number up to `b` that stays in the exponent range; `k` thousandths bound the hypotenuse for `b`. -/
theorem halveArctan_of_between (hp : 8 ≤ p.digits) (hp' : p.digits ≤ 10 ^ 14) {b q : ℚ} {k : ℤ} {m : ℕ}
    (hk0 : 0 ≤ k) (hk : k ≤ 1500) (hb : |x.toRat| ≤ b) (hb1 : b ≤ 1)
    (hkb : 1000001 / 1000000 * (1 + 1000001 / 1000000 * b ^ 2) ≤ ((k : ℚ) / 1000) ^ 2) (hm0 : 1 ≤ m) (hm4 : m ≤ 4)
    (hlow : 2 * m * 10 ^ (-maxExponent) ≤ |x.toRat|) (hq : Fits p.digits (q / 2)) (hxq : |x.toRat| ≤ q) (n : ℕ) :
    ∃ y : Decimal, halveArctan p (n + 1) x = halveArctan p n y ∧ SignType.sign y.toRat = SignType.sign x.toRat ∧
      |y.toRat| ≤ q / 2 ∧ m * 10 ^ (-maxExponent) ≤ |y.toRat| ∧
        |x.toRat| ≤ 100001 / 100000 * (1 + k / 1000) * |y.toRat| ∧ Fits p.digits y.toRat := by
  have hp0 := p.digits_pos
  have hleast := ten_zpow_pos (-maxExponent)
  have hfitsk : Fits p.digits ((k : ℚ) / 1000) :=
    Fits.mono (p := 4) ⟨k, -3, by rw [abs_of_nonneg hk0]; omega, by norm_num [div_eq_mul_inv]⟩ (by omega)
  have hk0' : (0 : ℚ) ≤ k := by exact_mod_cast hk0
  have hk' : (k : ℚ) ≤ 1500 := by exact_mod_cast hk
  have hsquare : x.toRat ^ 2 ≤ b ^ 2 := sq_le_sq.mpr (hb.trans (le_abs_self b))
  have hm : Fits p.digits (m * 10 ^ (-maxExponent)) := by
    have hm' : |(m : ℤ)| ≤ 10 ^ p.digits := by
      have hten : (10 : ℤ) ≤ 10 ^ p.digits := le_self_pow₀ (by norm_num) hp0.ne'
      rw [Nat.abs_cast]
      omega
    exact_mod_cast fits_mul_ten_zpow hp0 hm' (-maxExponent)
  have hm0' : (1 : ℚ) ≤ m := by exact_mod_cast hm0
  have hm4' : (m : ℚ) ≤ 4 := by exact_mod_cast hm4
  obtain ⟨d, hd, hdle, htwo, -, -, hgo⟩ := exists_divisor hp x n
  have hdle := hdle _ hfitsk (by positivity) (by linarith)
  have hdpos : 0 < d.toRat := by linarith
  have habs : |x.toRat / d.toRat| = |x.toRat| / d.toRat := by rw [abs_div, abs_of_pos hdpos]
  have hquotient : m * 10 ^ (-maxExponent) ≤ |x.toRat| / d.toRat := by
    rw [le_div_iff₀ hdpos]
    rcases le_or_gt |x.toRat| (16 * 10 ^ (-maxExponent)) with htiny | hgt
    · rw [htwo (sq_le_of_tiny hp' htiny)]
      linarith
    · have hmd : m * d.toRat ≤ 4 * 3 := mul_le_mul hm4' (by linarith) hdpos.le (by norm_num)
      linarith [mul_le_mul_of_nonneg_right hmd hleast.le]
  have hone : |x.toRat| / d.toRat ≤ 1 := by
    rw [div_le_one hdpos]
    linarith
  obtain ⟨y, hy, hvalue⟩ := div?_of_le_one (a := x) hdpos.ne'
    (by rw [habs]; linarith [mul_le_mul_of_nonneg_right hm0' hleast.le]) (by rwa [habs]) p
  have hyabs : |y.toRat| = rounded p.digits (|x.toRat| / d.toRat) := by rw [hvalue, abs_rounded hp0, habs]
  refine ⟨y, hgo y hy, ?_, ?_, ?_, ?_, hvalue ▸ fits_rounded hp0 _⟩
  · rw [hvalue, sign_rounded hp0, div_eq_mul_inv, sign_mul, sign_pos (inv_pos.mpr hdpos), mul_one]
  · rw [hyabs]
    exact hq.rounded_le hp0 (div_le_div₀ ((abs_nonneg _).trans hxq) hxq two_pos hd)
  · rw [hyabs]
    exact hm.le_rounded hp0 hquotient
  · obtain ⟨hround, -⟩ := rounded_bounds hp (div_nonneg (abs_nonneg x.toRat) hdpos.le)
    rw [← hyabs, ← mul_div_assoc, div_le_iff₀ hdpos] at hround
    have hscale : 0 ≤ (1 + (k : ℚ) / 1000) * |y.toRat| := by positivity
    linarith [mul_le_mul_of_nonneg_left hdle (abs_nonneg y.toRat)]

/-- Three halvings of a number from eight times the least one to one. -/
theorem exists_halved (hp : 8 ≤ p.digits) (hp' : p.digits ≤ 10 ^ 14) (hfits : Fits (p.digits - 3) x.toRat)
    (hlow : 8 * 10 ^ (-maxExponent) ≤ |x.toRat|) (hone : |x.toRat| ≤ 1) :
    SignType.sign (halveArctan p 3 x).toRat = SignType.sign x.toRat ∧ |(halveArctan p 3 x).toRat| ≤ |x.toRat| / 8 ∧
      |x.toRat| ≤ 11 * |(halveArctan p 3 x).toRat| ∧ Fits p.digits (halveArctan p 3 x).toRat := by
  have hleast := ten_zpow_pos (-maxExponent)
  have habs := hfits.abs
  obtain ⟨a, ha, hasign, hale, halow, hamass, -⟩ := halveArctan_of_between (k := 1500) (q := |x.toRat|) (m := 4) hp hp'
    (by norm_num) le_rfl hone le_rfl (by norm_num) (by norm_num) le_rfl (by push_cast; linarith)
    (habs.half.mono (by omega)) le_rfl 2
  obtain ⟨b, hb, hbsign, hble, hblow, hbmass, -⟩ := halveArctan_of_between (k := 1125) (b := 1 / 2)
    (q := |x.toRat| / 2) (m := 2) hp hp' (by norm_num) (by norm_num) (by linarith) (by norm_num) (by norm_num)
    (by norm_num) (by norm_num) (by push_cast at halow ⊢; linarith) (habs.half.half.mono (by omega)) hale 1
  obtain ⟨c, hc, hcsign, hcle, -, hcmass, hcfits⟩ := halveArctan_of_between (k := 1050) (b := 1 / 4)
    (q := |x.toRat| / 2 / 2) (m := 1) hp hp' (by norm_num) (by norm_num) (by linarith) (by norm_num) (by norm_num)
    (by norm_num) (by norm_num) (by push_cast at hblow ⊢; linarith) (habs.half.half.half.mono (by omega)) hble 0
  rw [ha, hb, hc, halveArctan]
  norm_num at hamass hbmass hcmass
  exact ⟨hcsign.trans (hbsign.trans hasign), by linarith, by linarith, hcfits⟩

/-- The sum of a tiny argument is the argument: the next term is below the exponent range. -/
theorem arctanSum_of_tiny (hp : 8 ≤ p.digits) (hp' : p.digits ≤ 10 ^ 14) (hx : x.toRat ≠ 0)
    (htiny : |x.toRat| ≤ 16 * 10 ^ (-maxExponent)) :
    ((Series.oddPowers? p true x).map Series.Ending.sum).getD x = x := by
  have hp0 := p.digits_pos
  set power := (x.mul (x.mul x p) p).negIf true with hpower
  have hvalue : power.toRat = -rounded p.digits (x.toRat * rounded p.digits (x.toRat * x.toRat)) := by
    rw [toRat_negIf, if_pos rfl, toRat_mul, toRat_mul]
  have habs : |power.toRat| = rounded p.digits (|x.toRat| * rounded p.digits (x.toRat ^ 2)) := by
    rw [hvalue, abs_neg, abs_rounded hp0, abs_mul, abs_rounded hp0, ← sq, abs_of_nonneg (sq_nonneg x.toRat)]
  have hdivisor : (ofInt (1 + 2 : ℕ)).toRat = 3 := by
    rw [toRat_ofInt]
    norm_num
  have hnone : power.div? (ofInt (1 + 2 : ℕ)) p = none := by
    have hsquare : x.toRat ^ 2 ≤ 1 / 1000 := by
      refine (sq_le_of_tiny hp' htiny).trans (one_div_le_one_div_of_le (by norm_num) ?_)
      have hpow := pow_le_pow_right₀ (by norm_num : (1 : ℚ) ≤ 10) (by omega : 3 ≤ p.digits + 3)
      linarith
    obtain ⟨-, hround⟩ := rounded_bounds hp (sq_nonneg x.toRat)
    have hpos : 0 < rounded p.digits (x.toRat ^ 2) := rounded_pos hp0 (sq_pos_of_ne_zero hx)
    obtain ⟨-, hround'⟩ := rounded_bounds hp (mul_nonneg (abs_nonneg x.toRat) hpos.le)
    have hpowerpos : 0 < |power.toRat| := habs ▸ rounded_pos hp0 (mul_pos (abs_pos.mpr hx) hpos)
    have hproduct := mul_le_mul htiny (hround.trans (mul_le_mul_of_nonneg_left hsquare (by norm_num))) hpos.le
      (by linarith [ten_zpow_pos (-maxExponent)])
    obtain ⟨-, hround''⟩ := rounded_bounds hp (div_pos hpowerpos three_pos).le
    rw [← habs] at hround'
    apply div?_eq_none_of_lt (abs_pos.mp hpowerpos) (hdivisor.trans_ne three_ne_zero)
    rw [abs_rounded hp0, hdivisor, abs_div, abs_of_pos (three_pos (α := ℚ))]
    linarith [ten_zpow_pos (-maxExponent)]
  have hnext : Series.oddPowerNext p (x.mul x p) true ⟨x, 1⟩ = none := by
    rw [Series.oddPowerNext, ← hpower, hnone]
    rfl
  obtain ⟨n, hn⟩ := Nat.exists_eq_succ_of_ne_zero (n := Series.steps x) (Nat.succ_ne_zero _)
  rw [Series.oddPowers?, hn, Series.run, hnext]
  rfl

/-- The arctangent is the sum of the halved argument, multiplied again and rounded twice. -/
theorem toRat_atanWithinOne (hx : x.toRat ≠ 0) {wp : Precision} (hwp : wp = p.guard guardDigits) {y sum : Decimal}
    (hy : y = halveArctan wp 3 x) (hsum : sum = ((Series.oddPowers? wp true y).map Series.Ending.sum).getD y) :
    (x.atanWithinOne p).toRat = rounded p.digits (rounded wp.digits (sum.toRat * 8)) := by
  have hproduct : x.atanWithinOne p = (sum.mul (ofInt 8) wp).roundTo p := by
    rw [atanWithinOne, if_neg (mt isZero_iff.mp hx), hsum, hy, hwp]
  rw [hproduct, toRat_roundTo, toRat_mul, toRat_ofInt, Int.cast_ofNat]

theorem atanWithinOne_of_sum (hx : x.toRat ≠ 0) {wp : Precision} (hwp : wp = p.guard guardDigits) {y sum : Decimal}
    (hy : y = halveArctan wp 3 x) (hsum : sum = ((Series.oddPowers? wp true y).map Series.Ending.sum).getD y) :
    SignType.sign (x.atanWithinOne p).toRat = SignType.sign sum.toRat ∧
      |(x.atanWithinOne p).toRat| = rounded p.digits (rounded wp.digits (|sum.toRat| * 8)) := by
  have height : (0 : ℚ) < 8 := by norm_num
  rw [toRat_atanWithinOne hx hwp hy hsum]
  constructor
  · rw [sign_rounded p.digits_pos, sign_rounded wp.digits_pos, sign_mul, sign_pos height, mul_one]
  · rw [abs_rounded p.digits_pos, abs_rounded wp.digits_pos, abs_mul, abs_of_pos height]

/-- Of a number near the lower end of the exponent range fewer than three halves are taken. -/
theorem exists_halvings (hp : 8 ≤ p.digits) (hp' : p.digits ≤ 10 ^ 14) (hfits : Fits (p.digits - 3) x.toRat)
    (hlow : 10 ^ (-maxExponent) ≤ |x.toRat|) (hhigh : |x.toRat| < 8 * 10 ^ (-maxExponent)) :
    ∃ k ≤ 2, (halveArctan p 3 x).toRat = x.toRat / 2 ^ k := by
  have hleast := ten_zpow_pos (-maxExponent)
  have hx : x.toRat ≠ 0 := abs_pos.mp (by linarith)
  have hhalf : ∀ q : ℚ, |q / 2| = |q| / 2 := fun q => by rw [abs_div, abs_two]
  rcases halveArctan_of_tiny hp hp' hx (by linarith) (hfits.half.mono (by omega)) 2 with
    ⟨-, hstop⟩ | ⟨hge, y, hy, hgo⟩
  · exact ⟨0, by omega, by rw [hstop, pow_zero, div_one]⟩
  have hyabs : |y.toRat| = |x.toRat| / 2 := by rw [hy, hhalf]
  rw [hgo]
  rcases halveArctan_of_tiny (x := y) hp hp' (abs_pos.mp (by linarith)) (by linarith)
    (hy ▸ hfits.half.half.mono (by omega)) 1 with ⟨-, hstop⟩ | ⟨hge', z, hz, hgo'⟩
  · exact ⟨1, by omega, by rw [hstop, hy, pow_one]⟩
  have hzabs : |z.toRat| = |x.toRat| / 4 := by
    rw [hz, hhalf, hyabs]
    ring
  rw [hgo']
  rcases halveArctan_of_tiny (x := z) hp hp' (abs_pos.mp (by linarith)) (by linarith)
    (hz ▸ hy ▸ hfits.half.half.half.mono (by omega)) 0 with ⟨-, hstop⟩ | ⟨hge'', -⟩
  · refine ⟨2, le_rfl, ?_⟩
    rw [hstop, hz, hy]
    ring
  · linarith

/-- The arctangent of a number near the lower end of the exponent range is too great, since what was not halved is
multiplied all the same. -/
theorem atanWithinOne_of_tiny (hp : p.digits ≤ 10 ^ 13) (hfits : Fits p.digits x.toRat)
    (hlow : 10 ^ (-maxExponent) ≤ |x.toRat|) (hhigh : |x.toRat| < 8 * 10 ^ (-maxExponent)) :
    SignType.sign (x.atanWithinOne p).toRat = SignType.sign x.toRat ∧ |x.toRat| < |(x.atanWithinOne p).toRat| ∧
      |(x.atanWithinOne p).toRat| ≤ 1 := by
  have hp0 := p.digits_pos
  have hleast := ten_zpow_pos (-maxExponent)
  have hx : x.toRat ≠ 0 := abs_pos.mp (by linarith)
  obtain ⟨wp, hwp⟩ : ∃ wp, wp = p.guard guardDigits := ⟨_, rfl⟩
  have hdigits : wp.digits = p.digits + 10 := by rw [hwp]; rfl
  obtain ⟨y, hy⟩ : ∃ y, y = halveArctan wp 3 x := ⟨_, rfl⟩
  obtain ⟨k, hk, hvalue⟩ := exists_halvings (p := wp) (by omega) (by omega) (hfits.mono (by omega)) hlow hhigh
  rw [← hy] at hvalue
  have hyabs : |y.toRat| = |x.toRat| / 2 ^ k := by
    rw [hvalue, abs_div, abs_of_pos (by positivity : (0 : ℚ) < 2 ^ k)]
  have hfactor : 2 * |x.toRat| ≤ |y.toRat| * 8 ∧ |y.toRat| ≤ |x.toRat| := by
    have hfew : (2 : ℚ) ^ k ≤ 2 ^ 2 := pow_le_pow_right₀ (by norm_num) hk
    rw [hyabs]
    constructor
    · rw [div_mul_eq_mul_div, le_div_iff₀ (by positivity)]
      linarith [mul_le_mul_of_nonneg_left hfew (abs_nonneg x.toRat)]
    · exact div_le_self (abs_nonneg _) (one_le_pow₀ (by norm_num))
  have hy0 : y.toRat ≠ 0 := abs_pos.mp (by linarith [abs_pos.mpr hx])
  have hsum := arctanSum_of_tiny (x := y) (p := wp) (by omega) (by omega) hy0 (by linarith)
  obtain ⟨hresult, hresult_abs⟩ := atanWithinOne_of_sum hx hwp hy hsum.symm
  have habs := hfits.abs
  refine ⟨?_, ?_, ?_⟩
  · rw [hresult, hvalue, div_eq_mul_inv, sign_mul, sign_pos (by positivity : (0 : ℚ) < (2 ^ k)⁻¹), mul_one]
  · obtain ⟨r, hr, hlt, hle⟩ := habs.exists_next hp0 (abs_pos.mpr hx)
    rw [hresult_abs]
    refine hlt.trans_le (hr.le_rounded hp0 ((hr.mono (by omega)).le_rounded wp.digits_pos ?_))
    linarith
  · rw [hresult_abs]
    have hsmall := sixteen_least_le
    exact (fits_one p.digits_pos).rounded_le hp0 ((fits_one wp.digits_pos).rounded_le wp.digits_pos (by linarith))

/-- The arctangent of a number from eight times the least one to one. -/
theorem atanWithinOne_of_ge (hp : p.digits ≤ 10 ^ 13) (hfits : Fits p.digits x.toRat)
    (hlow : 8 * 10 ^ (-maxExponent) ≤ |x.toRat|) (hone : |x.toRat| ≤ 1) :
    SignType.sign (x.atanWithinOne p).toRat = SignType.sign x.toRat ∧ |(x.atanWithinOne p).toRat| ≤ |x.toRat| ∧
      (8 ≤ p.digits → 7 / 10 * |x.toRat| ≤ |(x.atanWithinOne p).toRat|) := by
  have hp0 := p.digits_pos
  have hx : x.toRat ≠ 0 := abs_pos.mp (by linarith [ten_zpow_pos (-maxExponent)])
  obtain ⟨wp, hwp⟩ : ∃ wp, wp = p.guard guardDigits := ⟨_, rfl⟩
  have hdigits : wp.digits = p.digits + 10 := by rw [hwp]; rfl
  obtain ⟨y, hy⟩ : ∃ y, y = halveArctan wp 3 x := ⟨_, rfl⟩
  obtain ⟨sum, hsum⟩ : ∃ sum, sum = ((Series.oddPowers? wp true y).map Series.Ending.sum).getD y := ⟨_, rfl⟩
  obtain ⟨hsign, hle, hmass, hyfits⟩ :=
    exists_halved (x := x) (p := wp) (by omega) (by omega) (hfits.mono (by omega)) hlow hone
  rw [← hy] at hsign hle hmass hyfits
  have hy0 : y.toRat ≠ 0 := abs_pos.mp (by linarith [abs_pos.mpr hx])
  obtain ⟨hsign', hmass', hle'⟩ := Series.arctanSum_bounds (by omega) hy0 hyfits (by linarith) hsum
  obtain ⟨hresult, hresult_abs⟩ := atanWithinOne_of_sum hx hwp hy hsum
  have habs := hfits.abs
  refine ⟨?_, ?_, fun hp8 => ?_⟩
  · rw [hresult, hsign', hsign]
  · rw [hresult_abs]
    exact habs.rounded_le hp0 ((habs.mono (by omega)).rounded_le wp.digits_pos (by linarith))
  · have hnonneg : 0 ≤ |sum.toRat| * 8 := by positivity
    obtain ⟨hround, -⟩ := rounded_bounds (p := wp.digits) (by omega) hnonneg
    have hscale : (0 : ℚ) ≤ 999999 / 1000000 * (|sum.toRat| * 8) := by positivity
    obtain ⟨hround', -⟩ := rounded_bounds hp8 (hscale.trans hround)
    rw [hresult_abs]
    linarith

end

/-! ### A quarter turn -/

/-- The sum of the inverse's arctangent lies between two beginnings of the alternating series. -/
theorem arctanInverseLoop_bounds (square : ℕ) (h : 1 < square) (power k : ℕ) (sum : ℤ) :
    (k % 2 = 1 → sum - (power / square / (2 * k + 1) : ℕ) ≤ arctanInverseLoop square h power k sum ∧
      arctanInverseLoop square h power k sum ≤ sum) ∧
    (k % 2 = 0 → sum ≤ arctanInverseLoop square h power k sum ∧
      arctanInverseLoop square h power k sum ≤ sum + (power / square / (2 * k + 1) : ℕ)) := by
  fun_induction arctanInverseLoop square h power k sum with
  | case1 power k sum next term hterm =>
    have hnonneg := Int.natCast_nonneg (power / square / (2 * k + 1))
    exact ⟨fun _ => ⟨by linarith, le_rfl⟩, fun _ => ⟨le_rfl, by linarith⟩⟩
  | case2 power k sum next term hterm ih =>
    have hless : next / square / (2 * (k + 1) + 1) ≤ term :=
      (Nat.div_le_div_left (by omega) (by omega)).trans (Nat.div_le_div_right (Nat.div_le_self ..))
    have hterm_eq : term = power / square / (2 * k + 1) := rfl
    rw [← hterm_eq]
    generalize next / square / (2 * (k + 1) + 1) = following at ih hless
    rcases Nat.mod_two_eq_zero_or_one k with hk | hk
    · rw [dif_neg (by omega)] at ih
      rw [if_neg (by omega)]
      omega
    · rw [dif_pos hk] at ih
      rw [if_pos hk]
      omega

theorem arctanInverse_bounds (n : ℕ) (h : 1 < n * n) (scale : ℕ) :
    (scale / n : ℕ) - ((scale / n / (n * n) / 3 : ℕ) : ℤ) ≤ arctanInverse n h scale ∧
      arctanInverse n h scale ≤ (scale / n : ℕ) :=
  (arctanInverseLoop_bounds (n * n) h (scale / n) 1 (scale / n : ℕ)).1 rfl

/-- The number π is a number of units, rounded. -/
theorem toRat_pi {p : Precision} {places : ℕ} (hplaces : places = p.digits + guardDigits) {units : ℤ}
    (hunits : units = arctanInverse 5 (by decide) (pow10 places) * 16 -
      arctanInverse 239 (by decide) (pow10 places) * 4) :
    (pi p).toRat = rounded p.digits (units / 10 ^ places) := by
  rw [← zpow_natCast, div_eq_mul_inv, ← zpow_neg, ← toRat_ofParts, ← toRat_roundTo, hunits, hplaces, pi]

theorem pi_bounds {p : Precision} (hp : 8 ≤ p.digits) : 313 / 100 ≤ (pi p).toRat ∧ (pi p).toRat ≤ 321 / 100 := by
  obtain ⟨places, hplaces⟩ : ∃ places, places = p.digits + guardDigits := ⟨_, rfl⟩
  obtain ⟨units, hunits⟩ : ∃ units, units = arctanInverse 5 (by decide) (pow10 places) * 16 -
    arctanInverse 239 (by decide) (pow10 places) * 4 := ⟨_, rfl⟩
  have hlarge : 10 ^ 8 ≤ pow10 places := by
    rw [pow10_eq]
    exact Nat.pow_le_pow_right (by decide) (by omega)
  have hbounds : 314 * (pow10 places : ℤ) ≤ 100 * units ∧ 100 * units ≤ 320 * pow10 places := by
    have hfive := arctanInverse_bounds 5 (by decide) (pow10 places)
    have hmany := arctanInverse_bounds 239 (by decide) (pow10 places)
    generalize pow10 places = scale at *
    omega
  have hscale : (0 : ℚ) < pow10 places := by exact_mod_cast Nat.lt_of_lt_of_le (by decide) hlarge
  have hpower : (10 : ℚ) ^ places = pow10 places := by rw [pow10_eq, Nat.cast_pow, Nat.cast_ofNat]
  obtain ⟨hlow, hhigh⟩ := hbounds
  have hlow' : (314 : ℚ) / 100 ≤ units / pow10 places := by
    have hcast : (314 : ℚ) * pow10 places ≤ 100 * units := by exact_mod_cast hlow
    rw [le_div_iff₀ hscale]
    linarith
  have hhigh' : (units : ℚ) / pow10 places ≤ 320 / 100 := by
    have hcast : (100 : ℚ) * units ≤ 320 * pow10 places := by exact_mod_cast hhigh
    rw [div_le_iff₀ hscale]
    linarith
  obtain ⟨hround, hround'⟩ := rounded_bounds hp (by linarith : (0 : ℚ) ≤ units / pow10 places)
  rw [toRat_pi hplaces hunits, hpower]
  constructor <;> linarith

theorem quarterTurn_bounds {p : Precision} (hp : 8 ≤ p.digits) :
    1564 / 1000 ≤ (quarterTurn p).toRat ∧ (quarterTurn p).toRat ≤ 161 / 100 := by
  obtain ⟨hlow, hhigh⟩ := pi_bounds hp
  obtain ⟨hround, hround'⟩ := rounded_bounds hp (by linarith : 0 ≤ (pi p).toRat * (1 / 2))
  rw [quarterTurn, toRat_mul, toRat_half]
  constructor <;> linarith

/-! ### The arctangent -/

section
variable {x : Decimal} {p : Precision}

theorem half_lt_rounded {p : ℕ} (hp : 0 < p) {q : ℚ} (h : 56 / 100 ≤ q) : 1 / 2 < rounded p q := by
  have hsix : Fits p (6 / 10) := Fits.mono (p := 1) ⟨6, -1, by norm_num, by norm_num⟩ hp
  refine lt_of_lt_of_le ?_ (rounded_mono hp h)
  by_contra! hle
  have hnear := (isRounding_rounded hp (56 / 100)).nearest _ hsix
  rw [abs_of_nonneg (by linarith)] at hnear
  norm_num at hnear
  linarith

/-- The inverse of a number beyond the greatest power of ten is below the exponent range. -/
theorem one_div?_of_gt (hfits : Fits p.digits x.toRat) (hx : 10 ^ maxExponent < |x.toRat|) :
    one.div? x (p.guard guardDigits) = none := by
  have hp0 := p.digits_pos
  have hgreat := ten_zpow_pos maxExponent
  have hpos : 0 < |x.toRat| := hgreat.trans hx
  have hone : one.toRat ≠ 0 := by
    rw [toRat_one]
    exact one_ne_zero
  apply div?_eq_none_of_lt hone (abs_pos.mp hpos)
  rw [toRat_one, abs_rounded (p.guard guardDigits).digits_pos, abs_div, abs_one]
  by_contra! hge
  -- Otherwise the number would be so near to the power of ten that it were rounded to it.
  have hround := (abs_le.mp (abs_rounded_sub_le_mul (p.guard guardDigits).digits_pos (1 / |x.toRat|))).2
  rw [abs_of_pos (one_div_pos.mpr hpos)] at hround
  have hsmall : (5 : ℚ) / 10 ^ (p.guard guardDigits).digits ≤ 1 / 10 ^ (p.digits + 2) := by
    have hdigits : (p.guard guardDigits).digits = p.digits + 2 + 8 := rfl
    rw [hdigits, pow_add 10 (p.digits + 2), div_le_div_iff₀ (by positivity) (by positivity)]
    linarith [(by positivity : (0 : ℚ) < 10 ^ (p.digits + 2))]
  have hbound : |x.toRat| ≤ (1 + 1 / 10 ^ (p.digits + 2)) * 10 ^ maxExponent := by
    have hle : (10 : ℚ) ^ (-maxExponent) ≤ (1 + 1 / 10 ^ (p.digits + 2)) * (1 / |x.toRat|) := by
      linarith [mul_le_mul_of_nonneg_right hsmall (one_div_pos.mpr hpos).le]
    rw [zpow_neg, mul_one_div, le_div_iff₀ hpos, inv_mul_le_iff₀ hgreat] at hle
    rwa [mul_comm]
  have hequal := rounded_of_close (q := |x.toRat|) hp0 (fits_ten_zpow hp0 maxExponent) (by
    rw [add_mul, one_mul, one_div_mul_eq_div] at hbound
    rw [abs_of_pos (by linarith), abs_of_pos hgreat]
    linarith)
  rw [rounded_of_fits hfits.abs] at hequal
  exact hx.ne' hequal

/-- The arctangent of an inverse, in both parts of the range. -/
theorem atanWithinOne_bounds (hp : 8 ≤ p.digits) (hp' : p.digits ≤ 10 ^ 13) (hfits : Fits p.digits x.toRat)
    (hlow : 10 ^ (-maxExponent) ≤ |x.toRat|) (hone : |x.toRat| ≤ 1) :
    SignType.sign (x.atanWithinOne p).toRat = SignType.sign x.toRat ∧
      7 / 10 * |x.toRat| ≤ |(x.atanWithinOne p).toRat| ∧ |(x.atanWithinOne p).toRat| ≤ 1 := by
  rcases lt_or_ge |x.toRat| (8 * 10 ^ (-maxExponent)) with hlt | hge
  · obtain ⟨hsign, hgt, hle⟩ := atanWithinOne_of_tiny hp' hfits hlow hlt
    exact ⟨hsign, by linarith [abs_nonneg x.toRat], hle⟩
  · obtain ⟨hsign, hle, hmass⟩ := atanWithinOne_of_ge hp' hfits hge hone
    exact ⟨hsign, hmass hp, hle.trans hone⟩

theorem sign_one_div (q : ℚ) : SignType.sign (1 / q) = SignType.sign q := by
  rcases lt_trichotomy q 0 with h | rfl | h
  · rw [sign_neg h, sign_neg (one_div_neg.mpr h)]
  · rw [div_zero]
  · rw [sign_pos h, sign_pos (one_div_pos.mpr h)]

/-- The difference between a quarter turn and the arctangent of the inverse, which have the same sign. -/
theorem toRat_quarter_sub {q r : Decimal} (hquarter : Fits p.digits q.toRat)
    (hinner : Fits p.digits r.toRat) (hx : x.toRat ≠ 0) (hsign : SignType.sign r.toRat = SignType.sign x.toRat)
    (hless : |r.toRat| < q.toRat) :
    SignType.sign ((q.negIf x.isNegative).sub r p).toRat = SignType.sign x.toRat ∧
      |((q.negIf x.isNegative).sub r p).toRat| = rounded p.digits (q.toRat - |r.toRat|) := by
  have hp := p.digits_pos
  have hpos := rounded_pos hp (sub_pos.mpr hless)
  rcases lt_or_gt_of_ne hx with hneg | hgt
  · rw [sign_neg hneg, sign_eq_neg_one_iff] at hsign
    have hvalue : ((q.negIf x.isNegative).sub r p).toRat = -rounded p.digits (q.toRat - |r.toRat|) := by
      rw [isNegative_iff.mpr hneg, negIf, if_pos rfl,
        toRat_sub (by rw [toRat_neg]; exact hquarter.neg.isolated hp) (hinner.isolated hp), toRat_neg, ← rounded_neg,
        abs_of_neg hsign]
      congr 1
      ring
    rw [hvalue, sign_neg hneg, sign_neg (neg_lt_zero.mpr hpos), abs_neg, abs_of_pos hpos]
    exact ⟨rfl, rfl⟩
  · rw [sign_pos hgt, sign_eq_one_iff] at hsign
    have hnonneg : x.isNegative = false := by
      rw [← Bool.not_eq_true, isNegative_iff]
      exact hgt.not_gt
    have hvalue : ((q.negIf x.isNegative).sub r p).toRat = rounded p.digits (q.toRat - |r.toRat|) := by
      rw [hnonneg, negIf, if_neg Bool.false_ne_true, toRat_sub (hquarter.isolated hp) (hinner.isolated hp),
        abs_of_pos hsign]
    rw [hvalue, sign_pos hgt, sign_pos hpos, abs_of_pos hpos]
    exact ⟨rfl, rfl⟩

/-- The inverse of a number from one to the greatest power of ten. -/
theorem exists_inverse (hone : 1 ≤ |x.toRat|) (hle : |x.toRat| ≤ 10 ^ maxExponent) :
    ∃ c, one.div? x p = some c ∧ |c.toRat| = rounded p.digits (1 / |x.toRat|) ∧
      SignType.sign c.toRat = SignType.sign x.toRat ∧ 10 ^ (-maxExponent) ≤ |c.toRat| ∧ |c.toRat| ≤ 1 ∧
        Fits p.digits c.toRat := by
  have hp := p.digits_pos
  have hpos : 0 < |x.toRat| := by linarith
  have hquotient : |one.toRat / x.toRat| = 1 / |x.toRat| := by rw [toRat_one, abs_div, abs_one]
  have hlow : (10 : ℚ) ^ (-maxExponent) ≤ 1 / |x.toRat| := by
    rw [zpow_neg, ← one_div]
    exact one_div_le_one_div_of_le hpos hle
  have hhigh : 1 / |x.toRat| ≤ 1 := (div_le_one hpos).mpr hone
  obtain ⟨c, hc, hvalue⟩ := div?_of_le_one (a := one) (b := x) (abs_pos.mp hpos) (by rwa [hquotient])
    (by rwa [hquotient]) p
  have habs : |c.toRat| = rounded p.digits (1 / |x.toRat|) := by rw [hvalue, abs_rounded hp, hquotient]
  refine ⟨c, hc, habs, ?_, ?_, ?_, hvalue ▸ fits_rounded hp _⟩
  · rw [hvalue, sign_rounded hp, toRat_one, sign_one_div]
  · exact habs ▸ (fits_ten_zpow hp _).le_rounded hp hlow
  · exact habs ▸ (fits_one hp).rounded_le hp hhigh

/-- The arctangent of a number from one to the greatest power of ten. -/
theorem atan_of_one_lt (hp : p.digits ≤ 10 ^ 12) (hfits : Fits p.digits x.toRat) (hone : 1 < |x.toRat|)
    (hle : |x.toRat| ≤ 10 ^ maxExponent) :
    SignType.sign (x.atan p).toRat = SignType.sign x.toRat ∧ |(x.atan p).toRat| ≤ |x.toRat| ∧
      1 / 2 < |(x.atan p).toRat| := by
  have hp0 := p.digits_pos
  have hpos : 0 < |x.toRat| := by linarith
  obtain ⟨wp, hwp⟩ : ∃ wp, wp = p.guard guardDigits := ⟨_, rfl⟩
  have hdigits : wp.digits = p.digits + 10 := by rw [hwp]; rfl
  obtain ⟨inverse, hinverse, habs, hsign, hlow, hhigh, hinversefits⟩ := exists_inverse (p := wp) hone.le hle
  obtain ⟨hround, -⟩ := rounded_bounds (p := wp.digits) (by omega) (one_div_pos.mpr hpos).le
  obtain ⟨hsign', hmass, hinner⟩ := atanWithinOne_bounds (p := wp) (by omega) (by omega) hinversefits hlow hhigh
  obtain ⟨hqlow, hqhigh⟩ := quarterTurn_bounds (p := wp) (by omega)
  have hbelow : (quarterTurn wp).toRat - |(inverse.atanWithinOne wp).toRat| ≤ |x.toRat| := by
    -- `x² - 1.61 x + 0.69` has no root.
    have hmass' : 69 / 100 * (1 / |x.toRat|) ≤ |(inverse.atanWithinOne wp).toRat| := by
      rw [habs] at hmass
      linarith [one_div_pos.mpr hpos]
    rw [mul_one_div, div_le_iff₀ hpos] at hmass'
    nlinarith [sq_nonneg (|x.toRat| - 8 / 10)]
  obtain ⟨hsign'', hdifference⟩ := toRat_quarter_sub (p := wp) (x := x) (q := quarterTurn wp)
    (r := inverse.atanWithinOne wp) (by rw [quarterTurn, toRat_mul]; exact fits_rounded wp.digits_pos _)
    (fits_of_digits (within_atanWithinOne inverse wp).digits_le) (abs_pos.mp hpos) (hsign'.trans hsign) (by linarith)
  have hresult : x.atan p = (((quarterTurn wp).negIf x.isNegative).sub (inverse.atanWithinOne wp) wp).roundTo p := by
    rw [atan, if_pos (lt_iff.mpr (by rw [toRat_one, toRat_abs]; exact hone))]
    dsimp only
    rw [← hwp, hinverse]
  obtain ⟨hround', -⟩ := rounded_bounds (p := wp.digits)
    (q := (quarterTurn wp).toRat - |(inverse.atanWithinOne wp).toRat|) (by omega) (by linarith)
  rw [hresult, toRat_roundTo, sign_rounded hp0, abs_rounded hp0, hdifference]
  refine ⟨hsign'', ?_, ?_⟩
  · exact hfits.abs.rounded_le hp0 ((hfits.abs.mono (by omega)).rounded_le wp.digits_pos hbelow)
  · exact half_lt_rounded hp0 (by linarith)

/-- The arctangent of a number with up to `p` digits, `p` being at most `10 ^ 9`. Up to the greatest power of ten in range
it has the sign of the number, and is beyond a half if that is beyond one; it is not greater than the number exactly from
eight times the least power of ten on. Beyond the greatest power of ten it is zero. -/
theorem atan_keeps_sign_and_bounds_unless_escaping (x : Decimal) (p : Precision) (hx : x.toRat ≠ 0)
    (hrange : x.inRange = true) (hdigits : x.digits ≤ p.digits) (hp : p.digits ≤ 10 ^ 9) :
    (|x.toRat| ≤ 10 ^ maxExponent →
      SignType.sign (x.atan p).toRat = SignType.sign x.toRat ∧
        (|(x.atan p).toRat| ≤ |x.toRat| ↔ 8 * 10 ^ (-maxExponent) ≤ |x.toRat|) ∧
          (1 < |x.toRat| → 1 / 2 < |(x.atan p).toRat|)) ∧
      (10 ^ maxExponent < |x.toRat| → x.atan p = zero) := by
  have hfits := fits_of_digits hdigits
  have hlow := ((representable_iff hx).mp (inRange_iff.mp hrange)).1
  have hgreat : (1 : ℚ) ≤ 10 ^ maxExponent := one_le_zpow₀ (by norm_num) (by decide)
  have hleast := sixteen_least_le
  have hwithin (hone : |x.toRat| ≤ 1) : x.atan p = x.atanWithinOne p := by
    rw [atan, if_neg]
    rw [lt_iff, toRat_one, toRat_abs]
    exact hone.not_gt
  refine ⟨fun hle => ?_, fun hgt => ?_⟩
  · rcases le_or_gt |x.toRat| 1 with hone | hone
    · rw [hwithin hone]
      rcases lt_or_ge |x.toRat| (8 * 10 ^ (-maxExponent)) with hlt | hge
      · obtain ⟨hsign, hgt, -⟩ := atanWithinOne_of_tiny (by omega) hfits hlow hlt
        exact ⟨hsign, iff_of_false hgt.not_ge hlt.not_ge, fun h => absurd h hone.not_gt⟩
      · obtain ⟨hsign, hle, -⟩ := atanWithinOne_of_ge (by omega) hfits hge hone
        exact ⟨hsign, iff_of_true hle hge, fun h => absurd h hone.not_gt⟩
    · obtain ⟨hsign, hle, hhalf⟩ := atan_of_one_lt (by omega) hfits hone hle
      exact ⟨hsign, iff_of_true hle (by linarith [ten_zpow_pos (-maxExponent)]), fun _ => hhalf⟩
  · rw [atan, if_pos (lt_iff.mpr (by rw [toRat_one, toRat_abs]; linarith))]
    dsimp only
    rw [one_div?_of_gt hfits hgt]

/-- The arctangent of nine times the greatest power of ten is not a quarter turn but zero. -/
theorem atan_of_nine_greatest :
    toRat ⟨9, maxExponent⟩ ≠ 0 ∧ inRange ⟨9, maxExponent⟩ = true ∧ digits ⟨9, maxExponent⟩ ≤ 15 ∧
      atan ⟨9, maxExponent⟩ ⟨15, by decide⟩ = zero := by
  have hpos : (0 : ℚ) < 10 ^ maxExponent := ten_zpow_pos maxExponent
  have hvalue : toRat ⟨9, maxExponent⟩ = 9 * 10 ^ maxExponent := by
    change ((9 : ℤ) : ℚ) * 10 ^ maxExponent = _
    rw [Int.cast_ofNat]
  have hne : toRat ⟨9, maxExponent⟩ ≠ 0 := by
    rw [hvalue]
    positivity
  have hrange : inRange ⟨9, maxExponent⟩ = true := by decide +kernel
  have hdigits : digits ⟨9, maxExponent⟩ ≤ 15 := by decide +kernel
  refine ⟨hne, hrange, hdigits, ?_⟩
  apply (atan_keeps_sign_and_bounds_unless_escaping ⟨9, maxExponent⟩ ⟨15, by decide⟩ hne hrange hdigits (by decide)).2
  rw [hvalue, abs_of_pos (by positivity)]
  linarith

end

end Calculator.Decimal
