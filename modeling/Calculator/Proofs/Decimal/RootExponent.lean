import Calculator.Proofs.Decimal.ExpSeries
import Calculator.Proofs.Decimal.LogBase
/-!
The exponents of roots. A root with an index above three is the exponential function of the logarithm, multiplied by the
reciprocal of the index. This product is near the exact one, and it is zero or stays in the range of the series.
-/
namespace Calculator.Decimal

/-! ### Logarithms -/

theorem log_ten_gt : 207 / 100 < Real.log 10 := by
  have hpower : Real.log 8 = 3 * Real.log 2 := by
    have height : (8 : ℝ) = 2 ^ 3 := by norm_num
    rw [height, Real.log_pow, Nat.cast_ofNat]
  have hmono : Real.log 8 ≤ Real.log 10 := Real.log_le_log (by norm_num) (by norm_num)
  linarith [Real.log_two_gt_d9]

section
variable {x : Decimal} {p : Precision} {n q : ℕ}

/-- A number of `n` digits that is not less than one is a multiple of the `n`-th place after the point. -/
theorem Fits.exists_int {v : ℚ} (h : Fits n v) (hv : 1 ≤ |v|) : ∃ m : ℤ, v = m * 10 ^ (-n : ℤ) := by
  obtain ⟨k, e, hk, rfl⟩ := h
  have hk' : |(k : ℚ)| < 10 ^ (n : ℤ) := by
    rw [zpow_natCast]
    exact_mod_cast hk
  rw [abs_mul, abs_of_pos (ten_zpow_pos e)] at hv
  have hplace : -(n : ℤ) ≤ e := by
    have hlt := hv.trans_lt (mul_lt_mul_of_pos_right hk' (ten_zpow_pos e))
    rw [← ten_zpow_add, ← zpow_zero (10 : ℚ), ten_zpow_lt] at hlt
    omega
  refine ⟨k * 10 ^ (e + n).toNat, ?_⟩
  rw [Int.cast_mul, mul_assoc, Int.cast_pow, Int.cast_ofNat, ← zpow_natCast, Int.toNat_of_nonneg (by omega),
    ← ten_zpow_add, add_neg_cancel_right]

theorem roundoff_le_thousandth (hq : 14 ≤ q) : roundoff q ≤ 1 / 1000 := by
  refine (roundoff_anti hq).trans ?_
  norm_num [roundoff]

section
variable {first ten second sum : ℚ}

theorem LogSum.first_nonneg (h : LogSum x q first ten second sum) (hq : 14 ≤ q) (hx : 0 < x.toRat) : 0 ≤ first := by
  obtain ⟨hlog, -⟩ := log_significand_mem hx
  have hnear := (abs_le.mp h.first_near).1
  have hreal : (0 : ℝ) ≤ first := by linarith [mul_le_mul_of_nonneg_right (part_error_le hq) hlog]
  exact_mod_cast hreal

/-- The power of ten of a number below one contributes at least a logarithm of ten, nearly. -/
theorem LogSum.second_ge (h : LogSum x q first ten second sum) (hq : 14 ≤ q) (hx : 0 < x.toRat) (hlt : x.toRat < 1) :
    199 / 100 ≤ |second| := by
  have hten : (2 : ℝ) ≤ |(ten * x.leading : ℝ)| := by
    have hlogten := log_ten_gt
    have hnear := (abs_le.mp h.ten_near).1
    have hten : (2 : ℝ) ≤ ten := by
      linarith [mul_le_mul_of_nonneg_right (part_error_le hq) (by linarith : 0 ≤ Real.log 10)]
    have hleading : (1 : ℝ) ≤ |(x.leading : ℝ)| := by
      have hneg := leading_neg hx hlt
      exact_mod_cast Int.one_le_abs (by omega : x.leading ≠ 0)
    rw [abs_mul]
    exact hten.trans ((le_abs_self _).trans (le_mul_of_one_le_right (abs_nonneg _) hleading))
  have hnear := abs_sub_abs_le_abs_sub (ten * x.leading : ℝ) second
  rw [abs_sub_comm] at hnear
  have hreal : ((199 / 100 : ℚ) : ℝ) ≤ |(second : ℝ)| := by
    push_cast
    linarith [h.second_near, mul_le_mul_of_nonneg_right (roundoff_le_thousandth hq) (abs_nonneg (ten * x.leading : ℝ))]
  exact_mod_cast hreal

/-- The parts of a logarithm below one add up to a multiple of a place, or are far apart. -/
theorem LogSum.parts_zero_or_ge (h : LogSum x q first ten second sum) (hq : 14 ≤ q) (hx : 0 < x.toRat)
    (hlt : x.toRat < 1) : first + second = 0 ∨ 10 ^ (-(q + 4) : ℤ) ≤ |first + second| := by
  have hfirst := h.first_nonneg hq hx
  have hsecond := h.second_ge hq hx hlt
  -- A small first part cannot cancel the second; from one on both have all their digits above one place.
  rcases lt_or_ge first 1 with hsmall | hlarge
  · right
    have htriangle := abs_sub_abs_le_abs_sub second (-first)
    have hle : (10 : ℚ) ^ (-(q + 4) : ℤ) ≤ 10 ^ (-1 : ℤ) := ten_zpow_le.mpr (by omega)
    rw [abs_neg, abs_of_nonneg hfirst, sub_neg_eq_add, add_comm second] at htriangle
    rw [zpow_neg_one] at hle
    linarith
  · obtain ⟨k, hk⟩ := h.first_fits.exists_int (hlarge.trans (le_abs_self first))
    obtain ⟨m, hm⟩ := (h.second_fits.mono (Nat.le_add_right q 4)).exists_int (by linarith)
    have htotal : first + second = (k + m : ℤ) * 10 ^ (-(q + 4 : ℕ) : ℤ) := by
      rw [hk, hm]
      push_cast
      ring
    rw [htotal]
    rcases eq_or_ne (k + m) 0 with hzero | hne
    · left
      rw [hzero, Int.cast_zero, zero_mul]
    · right
      rw [abs_mul, abs_of_pos (ten_zpow_pos _)]
      refine le_mul_of_one_le_left (ten_zpow_pos _).le ?_
      exact_mod_cast Int.one_le_abs hne

/-- The parts of a logarithm below one do not add up to a number near zero, unless they cancel. -/
theorem LogSum.zero_or_ge (h : LogSum x q first ten second sum) (hq : 14 ≤ q) (hx : 0 < x.toRat)
    (hlt : x.toRat < 1) : sum = 0 ∨ 10 ^ (-(q + 5) : ℤ) ≤ |sum| := by
  have hnear := h.sum_near
  rcases h.parts_zero_or_ge hq hx hlt with hzero | hge
  · left
    have hcast : (first + second : ℝ) = 0 := by exact_mod_cast hzero
    rw [hcast, abs_zero, mul_zero, sub_zero] at hnear
    exact_mod_cast abs_nonpos_iff.mp hnear
  · right
    have hdistance := abs_sub_abs_le_abs_sub (first + second : ℝ) sum
    rw [abs_sub_comm] at hdistance
    have hscale := mul_le_mul_of_nonneg_right (roundoff_le_thousandth hq) (abs_nonneg (first + second : ℝ))
    have hmost : ((9 / 10 * |first + second| : ℚ) : ℝ) ≤ (|sum| : ℚ) := by
      push_cast
      linarith [abs_nonneg (first + second : ℝ)]
    have hmost' : 9 / 10 * |first + second| ≤ |sum| := by exact_mod_cast hmost
    have hplace : (-(q + 4) : ℤ) = 1 + -(q + 5) := by omega
    rw [hplace, zpow_one_add₀ (by norm_num)] at hge
    linarith [ten_zpow_pos (-(q + 5))]

end

/-- The logarithm of a number of any length, before its last rounding. It is zero, or not so near to zero that it leaves
the range. -/
theorem exists_ln?_rounded (hp : 11 ≤ p.digits) (hp' : p.digits ≤ 10 ^ 12) (hx : 0 < x.toRat)
    (hrange : x.inRange = true) (hdigits : x.digits ≤ 10 ^ 13) :
    ∃ (c : Decimal) (s : ℚ), x.ln? p = some c ∧ c.toRat = rounded p.digits s ∧
      |s - Real.log x.toRat| ≤ 1 / 10 ^ 13 * (x.logMass + |Real.log x.toRat|) ∧
        (c.toRat = 0 ∨ 10 ^ (-(2 * 10 ^ 13) : ℤ) ≤ |c.toRat|) := by
  have hpos : 0 < x.digits := Digits.count_pos _
  have hfar := significand_far (p := ⟨x.digits, hpos⟩) hx le_rfl
  obtain ⟨s, ⟨c, hc, hvalue⟩, herror⟩ := exists_ln? (p := p) (x.digits - 1) (by omega) (by omega) hx
    (count_leading_le hx hrange) hfar
  have herror' : |s - Real.log x.toRat| ≤ 1 / 10 ^ 13 * (x.logMass + |Real.log x.toRat|) := by
    rw [mul_add]
    refine herror.trans (add_le_add ?_ ?_)
    · refine mul_le_mul_of_nonneg_right ?_ (logMass_nonneg hx)
      have hlinear : (p.digits : ℝ) ≤ 10 ^ p.digits := by exact_mod_cast (Nat.lt_pow_self (by decide)).le
      have hpower : (10 : ℝ) ^ 11 ≤ 10 ^ p.digits := pow_le_pow_right₀ (by norm_num) hp
      rw [pow_add, div_div, div_le_div_iff₀ (by positivity) (by positivity)]
      linarith
    · rw [div_eq_mul_one_div, mul_comm]
      refine mul_le_mul_of_nonneg_right ?_ (abs_nonneg _)
      exact one_div_le_one_div_of_le (by positivity) (pow_le_pow_right₀ (by norm_num) (by omega))
  refine ⟨c, s, hc, hvalue, herror', ?_⟩
  have hrounded (t : ℚ) (ht : c.toRat = rounded p.digits t) (haway : t = 0 ∨ 10 ^ (-(2 * 10 ^ 13) : ℤ) ≤ |t|) :
      c.toRat = 0 ∨ 10 ^ (-(2 * 10 ^ 13) : ℤ) ≤ |c.toRat| := by
    rw [ht, abs_rounded p.digits_pos]
    rcases haway with hzero | hge
    · exact .inl (by rw [hzero, rounded_zero])
    · exact .inr ((fits_ten_zpow p.digits_pos _).le_rounded p.digits_pos hge)
  -- Below one the parts of the logarithm can cancel, so that its own size says nothing about the computed one.
  rcases lt_trichotomy x.toRat 1 with hlt | hone | hgt
  · have hne : x ≠ one := by
      rintro rfl
      rw [toRat_one] at hlt
      exact lt_irrefl _ hlt
    obtain ⟨t, q, first, ten, second, ht, hlow, hhigh, hparts⟩ :=
      exists_logSum (p := p) (x.digits - 1) (by omega) (by omega) hx hne (count_leading_le hx hrange) hfar
    refine hrounded t.toRat ?_ ((hparts.zero_or_ge (by omega) hx hlt).imp_right fun hge => le_trans ?_ hge)
    · rw [Option.some.inj (hc.symm.trans ht), toRat_roundTo]
    · rw [ten_zpow_le]
      omega
  · refine hrounded s hvalue (.inl ?_)
    rw [logMass_of_one_le hone.ge, hone, Rat.cast_one, Real.log_one, abs_zero, add_zero, mul_zero, sub_zero] at herror'
    exact_mod_cast abs_nonpos_iff.mp herror'
  · refine hrounded s hvalue (.inr (le_trans ?_ (le_abs_self s)))
    have hge : 6 * (10 : ℝ) ^ (-x.digits : ℤ) ≤ Real.log x.toRat :=
      log_ge_of_one_lt (p := ⟨x.digits, hpos⟩) hgt le_rfl
    have hunit : (10 : ℝ) ^ (-(2 * 10 ^ 13) : ℤ) ≤ 10 ^ (-x.digits : ℤ) :=
      zpow_le_zpow_right₀ (by norm_num) (by omega)
    have hunit' : (0 : ℝ) < 10 ^ (-(2 * 10 ^ 13) : ℤ) := by positivity
    have hlow := (abs_le.mp herror').1
    rw [logMass_of_one_le hgt.le, abs_of_nonneg (by linarith)] at hlow
    have hreal : (10 : ℝ) ^ (-(2 * 10 ^ 13) : ℤ) ≤ s := by linarith
    rw [← Rat.cast_le (K := ℝ), Rat.cast_zpow, Rat.cast_ofNat]
    exact hreal

/-- The logarithm of a number of any length, with an error that is small beside the greater of the logarithm and one. It
is zero, or not so near to zero that it leaves the range. -/
theorem exists_ln?_coarse (hp : 11 ≤ p.digits) (hp' : p.digits ≤ 10 ^ 12) (hx : 0 < x.toRat)
    (hrange : x.inRange = true) (hdigits : x.digits ≤ 10 ^ 13) :
    ∃ c, x.ln? p = some c ∧ |c.toRat - Real.log x.toRat| ≤ 6 / 10 ^ 11 * (|Real.log x.toRat| + 1) ∧
      (c.toRat = 0 ∨ 10 ^ (-(2 * 10 ^ 13) : ℤ) ≤ |c.toRat|) ∧ (1 ≤ x.toRat → 0 ≤ c.toRat) := by
  obtain ⟨c, s, hc, hvalue, herror, haway⟩ := exists_ln?_rounded hp hp' hx hrange hdigits
  refine ⟨c, hc, ?_, haway, fun hone => ?_⟩
  · have hround := abs_rounded_sub_le p.digits_pos s
    rw [← hvalue] at hround
    have hroundoff : roundoff p.digits ≤ 5 / 10 ^ 11 := roundoff_anti hp
    have htriangle := abs_sub_le (c.toRat : ℝ) s (Real.log x.toRat)
    have hsize := abs_sub_abs_le_abs_sub (s : ℝ) (Real.log x.toRat)
    have hscale := mul_le_mul_of_nonneg_right hroundoff (abs_nonneg (s : ℝ))
    have hmass := logMass_le hx
    norm_num at herror hscale ⊢
    linarith [abs_nonneg (Real.log x.toRat)]
  · have hlow := (abs_le.mp herror).1
    have hnonneg : 0 ≤ Real.log x.toRat := Real.log_nonneg (by exact_mod_cast hone)
    rw [logMass_of_one_le hone, abs_of_nonneg hnonneg] at hlow
    rw [hvalue]
    refine (fits_zero _).le_rounded p.digits_pos ?_
    exact_mod_cast (by linarith : (0 : ℝ) ≤ s)

/-! ### The exponent -/

/-- The reciprocal of a whole number is found, and is not much less than the last place that the number has. -/
theorem exists_reciprocal {n : ℤ} (hn : 0 < n) (hleading : (ofInt n).leading < maxExponent) :
    ∃ c, one.div? (ofInt n) p = some c ∧ c.toRat = rounded p.digits (1 / n) ∧
      10 ^ (-((ofInt n).leading + 1)) ≤ c.toRat := by
  have hn' : (0 : ℚ) < n := by exact_mod_cast hn
  have hone : (1 : ℚ) ≤ n := by exact_mod_cast hn
  have hne : (ofInt n).toRat ≠ 0 := by
    rw [toRat_ofInt]
    exact hn'.ne'
  have hquotient : |one.toRat / (ofInt n).toRat| = 1 / n := by
    rw [toRat_one, toRat_ofInt, abs_of_pos (by positivity)]
  have hlow : 10 ^ (-((ofInt n).leading + 1)) ≤ 1 / (n : ℚ) := by
    have hhigh := (leading_bounds (mt toRat_eq_zero_iff.mpr hne)).2
    rw [toRat_ofInt, abs_of_pos hn'] at hhigh
    rw [zpow_neg, one_div]
    exact inv_anti₀ hn' hhigh.le
  obtain ⟨c, hc, hvalue⟩ := div?_of_le_one (a := one) hne
    (hquotient ▸ (ten_zpow_le.mpr (by omega)).trans hlow) (hquotient ▸ (div_le_one hn').mpr hone) p
  rw [toRat_one, toRat_ofInt] at hvalue
  refine ⟨c, hc, hvalue, ?_⟩
  rw [hvalue]
  exact (fits_ten_zpow p.digits_pos _).le_rounded p.digits_pos hlow

theorem toRat_of_toWord? {d : Decimal} {k : ℤ} (h : d.toWord? = some k) : d.toRat = k := by
  rw [toWord?] at h
  split at h
  · obtain ⟨hint, -⟩ := Option.filter_eq_some_iff.mp h
    rw [toInt?] at hint
    split at hint
    · rename_i hexponent
      rw [toRat_eq_cast hexponent.1, ← Option.some.inj hint]
      rfl
    · cases hint
  · cases h

/-- A number between zero and one is no word. -/
theorem toWord?_of_fraction {d : Decimal} (hpos : 0 < d.toRat) (hlt : d.toRat < 1) : d.toWord? = none := by
  refine Option.eq_none_iff_forall_ne_some.mpr fun k hk => ?_
  rw [toRat_of_toWord? hk] at hpos hlt
  have hpos' : 0 < k := by exact_mod_cast hpos
  have hlt' : k < 1 := by exact_mod_cast hlt
  omega

/-- The product of a reciprocal and a logarithm, each computed, multiplied by the number again. -/
theorem abs_mul_product_sub_le {inverse log y N L ρ : ℝ} (hN : 0 < N) (hρ : 0 ≤ ρ) (hρ' : ρ ≤ 5 / 10 ^ 11)
    (hinverse : |inverse - 1 / N| ≤ ρ * |1 / N|) (hlog : |log - L| ≤ 6 / 10 ^ 11 * (|L| + 1))
    (hy : |y - inverse * log| ≤ ρ * |inverse * log|) : |N * y - L| ≤ 3 / 10 ^ 10 * (|L| + 1) := by
  have hscaled : |N * inverse - 1| ≤ ρ := by
    have hsplit : N * inverse - 1 = N * (inverse - 1 / N) := by field_simp
    rw [hsplit, abs_mul, abs_of_pos hN]
    rw [abs_of_pos (by positivity : 0 < 1 / N)] at hinverse
    calc N * |inverse - 1 / N| ≤ N * (ρ * (1 / N)) := by gcongr
      _ = ρ := by field_simp
  have hsize : |N * inverse| ≤ 2 := by
    have htriangle := abs_sub_abs_le_abs_sub (N * inverse) 1
    rw [abs_one] at htriangle
    linarith
  have hproduct : |N * (y - inverse * log)| ≤ 2 * ρ * |log| := by
    calc |N * (y - inverse * log)| = N * |y - inverse * log| := by rw [abs_mul, abs_of_pos hN]
      _ ≤ N * (ρ * |inverse * log|) := by gcongr
      _ = ρ * |N * inverse| * |log| := by
          rw [abs_mul, abs_mul, abs_of_pos hN]
          ring
      _ ≤ ρ * 2 * |log| := by gcongr
      _ = 2 * ρ * |log| := by ring
  have hfactor : |(N * inverse - 1) * log| ≤ ρ * |log| := by
    rw [abs_mul]
    gcongr
  have hsplit : N * y - L = N * (y - inverse * log) + (N * inverse - 1) * log + (log - L) := by ring
  have htriangle := abs_add_le (N * (y - inverse * log) + (N * inverse - 1) * log) (log - L)
  have htriangle' := abs_add_le (N * (y - inverse * log)) ((N * inverse - 1) * log)
  have hlogsize := abs_sub_abs_le_abs_sub log L
  have hscale := mul_le_mul_of_nonneg_right hρ' (abs_nonneg log)
  rw [hsplit]
  norm_num at hlog hscale ⊢
  linarith [abs_nonneg L]

/-- The exponent that the exponential function is taken at for a root with the index `n`. -/
def rootExponent? (x n : Decimal) (p : Precision) : Option Decimal := do
  let inverse ← one.div? n (p.guard 10)
  let log ← x.ln? (p.guard guardDigits)
  return inverse.mul log (p.guard guardDigits)

/-- What is known of the exponent for a root. -/
structure IsRootExponent (x : Decimal) (n : ℤ) (y : Decimal) : Prop where
  near : |n * y.toRat - Real.log x.toRat| ≤ 3 / 10 ^ 10 * (|Real.log x.toRat| + 1)
  away : y.toRat = 0 ∨ 10 ^ (-(94 * 10 ^ 13) : ℤ) ≤ |y.toRat|
  nonneg : 1 ≤ x.toRat → 0 ≤ y.toRat

theorem exists_rootExponent? {n : ℤ} (hn : 0 < n) (hleading : (ofInt n).leading ≤ 9 * 10 ^ 14) (hp : p.digits ≤ 10 ^ 11)
    (hx : 0 < x.toRat) (hrange : x.inRange = true) (hdigits : x.digits ≤ 10 ^ 13) :
    ∃ y, x.rootExponent? (ofInt n) p = some y ∧ IsRootExponent x n y := by
  obtain ⟨wp, hwp⟩ : ∃ wp, wp = p.guard guardDigits := ⟨_, rfl⟩
  have hguard : wp.digits = p.digits + 10 := by rw [hwp, Precision.guard, guardDigits]
  have hpos := p.digits_pos
  obtain ⟨inverse, hinverse, hreciprocal, hinverselow⟩ := exists_reciprocal (p := wp) hn (by unfold maxExponent; omega)
  obtain ⟨log, hlog, hnear, haway, hnonneg⟩ := exists_ln?_coarse (p := wp) (by omega) (by omega) hx hrange hdigits
  have hinversepos : 0 < inverse.toRat := (ten_zpow_pos _).trans_le hinverselow
  refine ⟨inverse.mul log wp, ?_, ?_, ?_, fun hone => ?_⟩
  · have hinverse' : one.div? (ofInt n) (p.guard 10) = some inverse := by rw [← hinverse, hwp, guardDigits]
    rw [rootExponent?, hinverse', ← hwp, hlog]
    rfl
  · have hn' : (0 : ℝ) < n := by exact_mod_cast hn
    have hroundoff : roundoff wp.digits ≤ 5 / 10 ^ 11 := roundoff_anti (by omega)
    have hround := abs_rounded_sub_le wp.digits_pos (1 / (n : ℚ))
    have hround' := abs_rounded_sub_le wp.digits_pos (inverse.toRat * log.toRat)
    rw [← hreciprocal] at hround
    rw [← toRat_mul] at hround'
    push_cast at hround hround'
    exact abs_mul_product_sub_le hn' (roundoff_pos _).le hroundoff hround hnear hround'
  · rw [toRat_mul]
    refine haway.imp (fun hzero => ?_) fun hge => ?_
    · rw [hzero, mul_zero, rounded_zero]
    · rw [abs_rounded wp.digits_pos, abs_mul, abs_of_pos hinversepos]
      refine (fits_ten_zpow wp.digits_pos _).le_rounded wp.digits_pos ?_
      calc (10 : ℚ) ^ (-(94 * 10 ^ 13) : ℤ)
          ≤ 10 ^ (-((ofInt n).leading + 1) + -(2 * 10 ^ 13)) := ten_zpow_le.mpr (by omega)
        _ = 10 ^ (-((ofInt n).leading + 1)) * 10 ^ (-(2 * 10 ^ 13) : ℤ) := ten_zpow_add ..
        _ ≤ inverse.toRat * |log.toRat| := by gcongr
  · rw [toRat_mul]
    exact (fits_zero _).le_rounded wp.digits_pos (mul_nonneg hinversepos.le (hnonneg hone))

theorem pow?_of_rootExponent? {n : ℤ} {y : Decimal} (hn : 2 ≤ n) (hx : 0 < x.toRat)
    (h : x.rootExponent? (ofInt n) p = some y) :
    ∃ inverse, one.div? (ofInt n) (p.guard 10) = some inverse ∧ x.pow? inverse p = y.exp? p := by
  obtain ⟨inverse, hinverse, h⟩ := Option.bind_eq_some_iff.mp h
  obtain ⟨log, hlog, h⟩ := Option.bind_eq_some_iff.mp h
  refine ⟨inverse, hinverse, ?_⟩
  have hn' : (2 : ℚ) ≤ n := by exact_mod_cast hn
  have hne : (ofInt n).toRat ≠ 0 := by
    rw [toRat_ofInt]
    linarith
  have hvalue : inverse.toRat = rounded (p.guard 10).digits (1 / n) := by
    obtain ⟨c, hc, hdiv⟩ := div?_eq one hne (p.guard 10)
    rw [hdiv] at hinverse
    rw [← eq_of_checked hinverse, hc, toRat_one, toRat_ofInt]
  have hpos : 0 < inverse.toRat := hvalue ▸ rounded_pos (p.guard 10).digits_pos (by positivity)
  have hlt : inverse.toRat < 1 := by
    have hfits : Fits (p.guard 10).digits (1 / 2) :=
      (fits_one p.digits_pos).half.mono (Nat.add_le_add_left (by decide) p.digits)
    have hhalf : 1 / (n : ℚ) ≤ 1 / 2 := one_div_le_one_div_of_le two_pos hn'
    have hle := hfits.rounded_le (p.guard 10).digits_pos hhalf
    linarith
  have hguard : guardDigits + (Min.min inverse.leading 13).toNat = guardDigits := by
    have hleading := leading_neg hpos hlt
    omega
  have habs : x.abs = x := by
    have hmantissa := toRat_pos_iff.mp hx
    rw [abs, Int.natAbs_of_nonneg hmantissa.le]
  have hsign : x.isNegative = false := by
    rw [← Bool.not_eq_true, isNegative_iff, not_lt]
    exact hx.le
  rw [pow?, toWord?_of_fraction hpos hlt]
  dsimp only
  rw [powReal?, if_neg (mt isZero_iff.mp hx.ne'), hsign, if_neg Bool.false_ne_true, hguard, habs]
  change ((x.ln? (p.guard guardDigits)).bind fun log => ((inverse.mul log (p.guard guardDigits)).exp? p).bind some) = _
  rw [hlog, Option.bind_some, Option.some.inj h, Option.bind_fun_some]

/-! ### The root -/

section
variable {n : ℤ} {y : Decimal}

/-- A root whose exponent is below the limit is found. -/
theorem IsRootExponent.exists_exp? (h : IsRootExponent x n y) (hn : 0 < n) (hp : p.digits ≤ 10 ^ 13)
    (hlog : |Real.log x.toRat| ≤ (10 ^ 12 - 1000) * n)
    (hsmall : 1 ≤ x.toRat ∨ 8 * |y.toRat| ≤ 2 ^ halvings y.toFloat.abs) : ∃ c, y.exp? p = some c ∧ 0 < c.toRat := by
  have hn' : (1 : ℝ) ≤ n := by exact_mod_cast hn
  rcases h.away with hzero | hlow
  · refine ⟨one, exp?_of_zero hzero, ?_⟩
    rw [toRat_one]
    exact one_pos
  have hhigh : |y.toRat| ≤ 10 ^ 12 := by
    have hsize := (abs_sub_abs_le_abs_sub (n * y.toRat : ℝ) (Real.log x.toRat)).trans h.near
    rw [abs_mul, abs_of_pos (by linarith : (0 : ℝ) < n)] at hsize
    have hscaled : n * |(y.toRat : ℝ)| ≤ n * 10 ^ 12 := by
      norm_num at hlog hsize ⊢
      linarith
    exact_mod_cast le_of_mul_le_mul_left hscaled (by linarith)
  refine Decimal.exists_exp? hp le_rfl ?_ hhigh ?_
  · exact_mod_cast hlow
  · refine hsmall.imp_left fun hone => lt_of_le_of_ne (h.nonneg hone) fun hzero => ?_
    rw [← hzero, abs_zero] at hlow
    exact hlow.not_gt (ten_zpow_pos _)

/-- Beyond the limit the root of a number below one vanishes, and that of a greater number is too large. -/
theorem IsRootExponent.exp?_of_large (h : IsRootExponent x n y) (hn : 0 < n) (hx : 0 < x.toRat)
    (hlog : (10 ^ 12 + 1000) * n ≤ |Real.log x.toRat|) :
    y.exp? p = if x.toRat < 1 then some zero else none := by
  have hn' : (1 : ℝ) ≤ n := by exact_mod_cast hn
  have hnear := h.near
  have hhigh : 10 ^ 12 + 1 ≤ |y.toRat| := by
    have hsize := abs_sub_abs_le_abs_sub (Real.log x.toRat) (n * y.toRat : ℝ)
    rw [abs_sub_comm, abs_mul, abs_of_pos (by linarith : (0 : ℝ) < n)] at hsize
    have hscaled : n * (10 ^ 12 + 1) ≤ n * |(y.toRat : ℝ)| := by
      norm_num at hlog hnear ⊢
      linarith
    exact_mod_cast le_of_mul_le_mul_left hscaled (by linarith)
  have hne : y.toRat ≠ 0 := abs_pos.mp (by linarith)
  rw [exp?_of_limit_lt hne (expLimit_lt hhigh)]
  refine if_congr ⟨fun hneg => ?_, fun hlt => ?_⟩ rfl rfl
  · exact lt_of_not_ge fun hone => hneg.not_ge (h.nonneg hone)
  · have hlogneg : Real.log x.toRat < 0 := Real.log_neg (by exact_mod_cast hx) (by exact_mod_cast hlt)
    have hupper := (abs_le.mp hnear).2
    rw [abs_of_neg hlogneg] at hlog hupper
    have hneg : n * (y.toRat : ℝ) < 0 := by
      norm_num at hlog hupper
      linarith
    exact_mod_cast neg_of_mul_neg_right hneg (by linarith)

end

end
end Calculator.Decimal
