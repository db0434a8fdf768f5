import Calculator.Proofs.Binary64.Order
import Calculator.Proofs.Decimal.LogSeries
/-!
The exponential function. Its series settles at a positive sum if the argument is positive or small, and the sum is
squared back. An argument is compared with the limit of the function as a double, and beyond the limit there is no sum:
the value is then zero, or too large.
-/
namespace Calculator.Decimal

/-! ### The series -/

namespace Series

/-- An argument whose terms stay in the exponent range. -/
structure Tame (p : Precision) (reach : ℕ) (r : ℚ) : Prop where
  ge : 10 ^ (-reach : ℤ) ≤ |r|
  le : |r| ≤ reach
  digits_ge : 8 ≤ p.digits
  few : p.digits + reach + 40 ≤ 10 ^ 15

/-- What holds of the last term and the sum, where terms of index `turn` and more are smaller by a digit each. -/
structure Summed (p : Precision) (r : ℚ) (turn : ℕ) (s : Position) (sum : Decimal) : Prop where
  power_le : |s.power.toRat| ≤ (2 * |r|) ^ s.index / s.index.factorial
  power_ge : 1 ≤ |s.power.toRat| * 10 ^ (p.digits + 4)
  late : s.index ≤ turn ∨ |s.power.toRat| * 10 ^ s.index ≤ 10 ^ (2 * turn)
  fits : Fits p.digits sum.toRat
  sum_ge : 0 < r ∧ 0 < s.power.toRat ∧ 1 ≤ sum.toRat ∨
    |r| ≤ 1 / 4 ∧ 5 * |sum.toRat - 1| + 4 * |s.power.toRat| ≤ 4

section
variable {p : Precision} {r : Decimal} {turn : ℕ} {s : Position} {sum term : Decimal}

theorem Summed.fifth_le (h : Summed p r.toRat turn s sum) : 1 / 5 ≤ sum.toRat := by
  rcases h.sum_ge with ⟨-, -, hge⟩ | ⟨-, hnear⟩
  · linarith
  · have hlow := neg_le_of_abs_le (le_refl |sum.toRat - 1|)
    linarith [abs_nonneg s.power.toRat]

theorem summed_start (p : Precision) (r : Decimal) (turn : ℕ) (hr : 0 < r.toRat ∨ |r.toRat| ≤ 1 / 4) :
    Summed p r.toRat turn ⟨one, 0⟩ one where
  power_le := by simp [toRat_one]
  power_ge := by
    rw [toRat_one, abs_one, one_mul]
    exact one_le_pow₀ (by norm_num)
  late := .inl (Nat.zero_le _)
  fits := by
    rw [toRat_one]
    exact fits_one p.digits_pos
  sum_ge := by
    rw [toRat_one]
    rcases hr with hr | hr
    · exact .inl ⟨hr, one_pos, le_rfl⟩
    · exact .inr ⟨hr, by norm_num⟩

theorem Summed.power_ne_zero (h : Summed p r.toRat turn s sum) : s.power.toRat ≠ 0 := by
  intro hzero
  have hge := h.power_ge
  rw [hzero, abs_zero, zero_mul] at hge
  linarith

/-- A next term is the exact one up to two roundings. -/
theorem Summed.abs_term (hp : 8 ≤ p.digits) (hr : r.toRat ≠ 0) (h : Summed p r.toRat turn s sum)
    (hterm : term.toRat = rounded p.digits (rounded p.digits (s.power.toRat * r.toRat) / (s.index + 1 : ℕ))) :
    term.toRat ≠ 0 ∧ 9 * (|s.power.toRat| * |r.toRat|) ≤ 10 * ((s.index + 1 : ℕ) * |term.toRat|) ∧
      10 * ((s.index + 1 : ℕ) * |term.toRat|) ≤ 11 * (|s.power.toRat| * |r.toRat|) := by
  have hp' := p.digits_pos
  have hdivisor : (0 : ℚ) < (s.index + 1 : ℕ) := by positivity
  have hproduct : 0 < |s.power.toRat * r.toRat| := abs_pos.mpr (mul_ne_zero h.power_ne_zero hr)
  have hround := rounded_bounds hp hproduct.le
  have hpos := rounded_pos hp' hproduct
  have habs : |term.toRat| = rounded p.digits (rounded p.digits |s.power.toRat * r.toRat| / (s.index + 1 : ℕ)) := by
    rw [hterm, abs_rounded hp', abs_div, abs_rounded hp', abs_of_pos hdivisor]
  have hround' := rounded_bounds hp (div_pos hpos hdivisor).le
  rw [← habs, ← mul_div_assoc, div_le_iff₀ hdivisor, ← mul_div_assoc, le_div_iff₀ hdivisor] at hround'
  rw [abs_mul] at hround hround' hproduct
  refine ⟨?_, by linarith, by linarith⟩
  rw [← abs_pos, habs]
  exact rounded_pos hp' (div_pos hpos hdivisor)

theorem pow_div_factorial_le {ρ : ℚ} (hρ : 0 ≤ ρ) {n : ℕ} (hn : ρ ≤ n) (k : ℕ) :
    (2 * ρ) ^ k / k.factorial ≤ 10 ^ n := by
  have hρ' : (0 : ℝ) ≤ ρ := by exact_mod_cast hρ
  have hn' : (ρ : ℝ) ≤ n := by exact_mod_cast hn
  have htwo : Real.exp 2 ≤ 10 := by
    have hsplit : Real.exp 2 = Real.exp 1 ^ 2 := by rw [← Real.exp_nat_mul]; norm_num
    rw [hsplit]
    calc Real.exp 1 ^ 2 ≤ 3 ^ 2 := by
          gcongr
          linarith [Real.exp_one_lt_d9]
      _ ≤ 10 := by norm_num
  have hreal : (2 * (ρ : ℝ)) ^ k / k.factorial ≤ 10 ^ n := by
    calc (2 * (ρ : ℝ)) ^ k / k.factorial
        ≤ Real.exp (2 * ρ) := Real.pow_div_factorial_le_exp _ (by positivity) k
      _ ≤ Real.exp (n * 2) := Real.exp_le_exp.mpr (by linarith)
      _ = Real.exp 2 ^ n := Real.exp_nat_mul 2 n
      _ ≤ 10 ^ n := by gcongr
  exact_mod_cast hreal

theorem natCast_le_ten_zpow {n m : ℕ} (h : n ≤ 10 ^ m) : (n : ℚ) ≤ 10 ^ (m : ℤ) := by
  rw [zpow_natCast]
  exact_mod_cast h

/-- The product of a term and the argument stays far from both ends of the exponent range. -/
theorem Summed.product_between {reach : ℕ} (hr : Tame p reach r.toRat) (h : Summed p r.toRat turn s sum) :
    10 ^ (-(p.digits + reach + 4) : ℤ) ≤ |s.power.toRat| * |r.toRat| ∧
      |s.power.toRat| * |r.toRat| ≤ 10 ^ (reach + 15 : ℤ) := by
  have hfew := hr.few
  have hlow := hr.ge
  constructor
  · have hge := h.power_ge
    rw [← div_le_iff₀ (by positivity), one_div, ← zpow_natCast, ← zpow_neg] at hge
    calc (10 : ℚ) ^ (-(p.digits + reach + 4) : ℤ)
        = 10 ^ (-(p.digits + 4 : ℕ) : ℤ) * 10 ^ (-reach : ℤ) := by
          rw [← ten_zpow_add]
          congr 1
          push_cast
          ring
      _ ≤ |s.power.toRat| * |r.toRat| := by gcongr
  · have hle := h.power_le.trans (pow_div_factorial_le (abs_nonneg _) hr.le s.index)
    have hreach := hr.le.trans (natCast_le_ten_zpow (by omega : reach ≤ 10 ^ 15))
    rw [← zpow_natCast] at hle
    calc |s.power.toRat| * |r.toRat| ≤ 10 ^ (reach : ℤ) * 10 ^ ((15 : ℕ) : ℤ) := by gcongr
      _ = 10 ^ (reach + 15 : ℤ) := (ten_zpow_add ..).symm

/-- The next term stays in the exponent range. -/
theorem Summed.exists_next {reach : ℕ} (hr : Tame p reach r.toRat) (hindex : s.index + 1 ≤ 10 ^ 20)
    (h : Summed p r.toRat turn s sum) :
    ∃ term, expNext p r s = some (term, ⟨term, s.index + 1⟩) ∧
      term.toRat = rounded p.digits (rounded p.digits (s.power.toRat * r.toRat) / (s.index + 1 : ℕ)) := by
  have hp' := p.digits_pos
  have hfew := hr.few
  have hdivisor : (ofInt (s.index + 1 : ℕ)).toRat = (s.index + 1 : ℕ) := by
    rw [toRat_ofInt, Int.cast_natCast]
  have hdivisor' : (0 : ℚ) < (s.index + 1 : ℕ) := by positivity
  have hdivisor_le := natCast_le_ten_zpow hindex
  have hone : (1 : ℚ) ≤ (s.index + 1 : ℕ) := by exact_mod_cast Nat.succ_pos _
  have hquotient : |(s.power.mul r p).toRat / (ofInt (s.index + 1 : ℕ)).toRat| =
      rounded p.digits (|s.power.toRat| * |r.toRat|) / (s.index + 1 : ℕ) := by
    rw [toRat_mul, hdivisor, abs_div, abs_rounded hp', abs_of_pos hdivisor', abs_mul]
  obtain ⟨hlow, hhigh⟩ := h.product_between hr
  have hlow' := (fits_ten_zpow hp' _).le_rounded hp' hlow
  have hhigh' := (fits_ten_zpow hp' _).rounded_le hp' hhigh
  have hquotient_ge : 10 ^ (-(p.digits + reach + 24) : ℤ) ≤
      rounded p.digits (|s.power.toRat| * |r.toRat|) / (s.index + 1 : ℕ) := by
    rw [le_div_iff₀ hdivisor']
    calc 10 ^ (-(p.digits + reach + 24) : ℤ) * ((s.index + 1 : ℕ) : ℚ)
        ≤ 10 ^ (-(p.digits + reach + 24) : ℤ) * 10 ^ ((20 : ℕ) : ℤ) := by gcongr
      _ = 10 ^ (-(p.digits + reach + 4) : ℤ) := by
          rw [← ten_zpow_add]
          congr 1
      _ ≤ rounded p.digits (|s.power.toRat| * |r.toRat|) := hlow'
  have hquotient_le := (div_le_self (hlow'.trans' (ten_zpow_pos _).le) hone).trans hhigh'
  obtain ⟨term, hterm, hvalue⟩ := div?_of_between (a := s.power.mul r p) (hdivisor.trans_ne hdivisor'.ne')
    (hquotient_ge.trans_eq hquotient.symm) (hquotient.trans_le hquotient_le) (by unfold maxExponent; omega)
    (by unfold maxExponent; omega) p
  refine ⟨term, ?_, ?_⟩
  · rw [expNext, hterm]
    rfl
  · rw [hvalue, toRat_mul, hdivisor]

/-- From the turn on each term is smaller by a digit. -/
theorem Summed.late_of_le (h : Summed p r.toRat turn s sum) (hturn : |r.toRat| ≤ turn) (hle : turn ≤ s.index) :
    |s.power.toRat| * 10 ^ s.index ≤ 10 ^ (2 * turn) := by
  rcases h.late with hindex | hlate
  · have hpower := h.power_le.trans (pow_div_factorial_le (abs_nonneg _) hturn s.index)
    rw [two_mul, pow_add, ← le_antisymm hindex hle] at *
    gcongr
  · exact hlate

/-- A term is added. -/
theorem Summed.add (hp : 8 ≤ p.digits) (hr : r.toRat ≠ 0) (hturn : 20 * |r.toRat| ≤ turn)
    (h : Summed p r.toRat turn s sum)
    (hterm : term.toRat = rounded p.digits (rounded p.digits (s.power.toRat * r.toRat) / (s.index + 1 : ℕ)))
    (hmore : negligible term sum p = false) : Summed p r.toRat turn ⟨term, s.index + 1⟩ (sum.add term p) := by
  have hp' := p.digits_pos
  obtain ⟨hne, -, hle⟩ := h.abs_term hp hr hterm
  have hfifth := h.fifth_le
  have hindex : (1 : ℚ) ≤ (s.index + 1 : ℕ) := by exact_mod_cast Nat.succ_pos _
  have hρ := abs_nonneg r.toRat
  have ht := abs_nonneg s.power.toRat
  have ht' := abs_nonneg term.toRat
  have hfits : Fits p.digits term.toRat := hterm ▸ fits_rounded hp' _
  have hsum : (sum.add term p).toRat = rounded p.digits (sum.toRat + term.toRat) :=
    toRat_add (h.fits.isolated hp') (hfits.isolated hp')
  have hscale := mul_le_mul_of_nonneg_right hindex ht'
  refine ⟨?_, ?_, ?_, hsum ▸ fits_rounded hp' _, ?_⟩
  · rw [Nat.factorial_succ, pow_succ, Nat.cast_mul, mul_comm _ (2 * |r.toRat|), mul_div_mul_comm]
    have hstep : |term.toRat| ≤ 2 * |r.toRat| / (s.index + 1 : ℕ) * |s.power.toRat| := by
      rw [div_mul_eq_mul_div, le_div_iff₀ (by positivity)]
      linarith [mul_nonneg ht hρ]
    exact hstep.trans (mul_le_mul_of_nonneg_left h.power_le (by positivity))
  · have hless := (le_abs_self _).trans (abs_le_of_not_negligible hmore).2
    rw [pow_succ 10 (p.digits + 3)]
    dsimp only
    linarith
  · rcases Nat.lt_or_ge s.index turn with hlt | hge
    · exact .inl hlt
    · have hlate := h.late_of_le (by linarith) hge
      have hturn' : (turn : ℚ) ≤ (s.index + 1 : ℕ) := by exact_mod_cast Nat.le_succ_of_le hge
      have hten : 10 * |term.toRat| ≤ |s.power.toRat| := by
        have hρ' : 20 * |r.toRat| ≤ (s.index + 1 : ℕ) := hturn.trans hturn'
        refine le_of_mul_le_mul_left ?_ (by positivity : (0 : ℚ) < (s.index + 1 : ℕ))
        linarith [mul_le_mul_of_nonneg_left hρ' ht, mul_nonneg ht hρ]
      right
      rw [pow_succ]
      dsimp only
      linarith [mul_le_mul_of_nonneg_right hten (by positivity : (0 : ℚ) ≤ 10 ^ s.index)]
  · rcases h.sum_ge with ⟨hrpos, hpos, hge⟩ | ⟨hsmall, hnear⟩
    · have htermpos : 0 < term.toRat := by
        rw [hterm]
        exact rounded_pos hp' (div_pos (rounded_pos hp' (mul_pos hpos hrpos)) (by positivity))
      refine .inl ⟨hrpos, htermpos, ?_⟩
      rw [hsum]
      exact (fits_one hp').le_rounded hp' (by linarith)
    · have hmove := h.fits.abs_rounded_add_sub_le hp' term.toRat
      have htriangle := abs_sub_le (sum.add term p).toRat sum.toRat 1
      rw [← hsum] at hmove
      refine .inr ⟨hsmall, ?_⟩
      dsimp only
      linarith [mul_le_mul_of_nonneg_left hsmall ht]

/-- The sum settles before the steps end. -/
theorem Summed.run {reach steps : ℕ} (hr : Tame p reach r.toRat) (hturn : 20 * |r.toRat| ≤ turn)
    (henough : 2 * turn + p.digits + 5 ≤ s.index + steps) (hfew : s.index + steps ≤ 10 ^ 20)
    (h : Summed p r.toRat turn s sum) :
    ∃ sum', run p (expNext p r) steps s sum = some (.settled sum') ∧ 1 / 5 ≤ sum'.toRat := by
  have hr0 : r.toRat ≠ 0 := abs_pos.mp ((ten_zpow_pos _).trans_le hr.ge)
  induction steps generalizing s sum with
  | zero =>
    -- After all steps a term would be below `10 ^ (2 * turn - index)`, and yet not negligible.
    exfalso
    have hlate := h.late_of_le (by linarith [abs_nonneg r.toRat]) (by omega)
    have hscale := mul_le_mul_of_nonneg_right hlate (by positivity : (0 : ℚ) ≤ 10 ^ (p.digits + 4))
    have hmuch := mul_le_mul_of_nonneg_left h.power_ge (by positivity : (0 : ℚ) ≤ 10 ^ s.index)
    have hpower : (10 : ℚ) ^ s.index ≤ 10 ^ (2 * turn + (p.digits + 4)) := by
      rw [pow_add]
      linarith
    have hexponent := (pow_le_pow_iff_right₀ (by norm_num : (1 : ℚ) < 10)).mp hpower
    omega
  | succ steps ih =>
    obtain ⟨term, hnext, hvalue⟩ := h.exists_next hr (by omega)
    rw [Series.run, hnext]
    dsimp only
    cases hend : negligible term sum p with
    | true => exact ⟨sum, rfl, h.fifth_le⟩
    | false =>
      rw [if_neg Bool.false_ne_true]
      exact ih (by dsimp only; omega) (by dsimp only; omega) (h.add hr.digits_ge hr0 hturn hvalue hend)

/-- The exponential series of an argument that is positive, or small, settles at a positive sum. -/
theorem exp?_settles {reach : ℕ} (hr : Tame p reach r.toRat) (hsign : 0 < r.toRat ∨ |r.toRat| ≤ 1 / 4) :
    ∃ sum, exp? p r = some (.settled sum) ∧ 1 / 5 ≤ sum.toRat := by
  have hr0 : r.toRat ≠ 0 := abs_pos.mp ((ten_zpow_pos _).trans_le hr.ge)
  have hfew := hr.few
  have hlow := (leading_bounds (mt toRat_eq_zero_iff.mpr hr0)).1
  have hplace : r.leading ≤ 15 := by
    have hreach := natCast_le_ten_zpow (by omega : reach ≤ 10 ^ 15)
    have hpower := hlow.trans (hr.le.trans hreach)
    rw [ten_zpow_le] at hpower
    exact hpower
  have hsteps : steps r = 10 ^ (r.leading + 4).toNat + 10 ^ 16 := by
    rw [steps, pow10_eq]
    norm_num
  have hturn := two_mul_turnOf_le r
  have hbound : 10 ^ (r.leading + 4).toNat ≤ 10 ^ 19 := Nat.pow_le_pow_right (by decide) (by omega)
  exact (summed_start p r (turnOf r) hsign).run hr (mul_abs_le_turnOf r) (by rw [hsteps]; dsimp only; omega)
    (by rw [hsteps]; dsimp only; omega)

end
end Series

section
variable {x : Decimal} {p : Precision}

/-! ### Halving and squaring back -/

theorem abs_mul_half (x : Decimal) (p : Precision) : |(x.mul half p).toRat| = rounded p.digits (|x.toRat| / 2) := by
  rw [toRat_mul, toRat_half, abs_rounded p.digits_pos, abs_mul, abs_of_pos (by norm_num : (0 : ℚ) < 1 / 2), mul_one_div]

theorem abs_halveTimes_le (hp : 8 ≤ p.digits) (n : ℕ) (x : Decimal) : |(halveTimes p n x).toRat| ≤ |x.toRat| := by
  induction n generalizing x with
  | zero => exact le_rfl
  | succ n ih =>
    have hround := (rounded_bounds hp (by positivity : 0 ≤ |x.toRat| / 2)).2
    refine (ih (x.mul half p)).trans ?_
    rw [abs_mul_half]
    linarith [abs_nonneg x.toRat]

theorem sign_halveTimes (p : Precision) (n : ℕ) (x : Decimal) :
    SignType.sign (halveTimes p n x).toRat = SignType.sign x.toRat := by
  induction n generalizing x with
  | zero => rfl
  | succ n ih =>
    have hhalf : SignType.sign (1 / 2 : ℚ) = 1 := sign_pos (by norm_num)
    rw [halveTimes, ih, toRat_mul, sign_rounded p.digits_pos, sign_mul, toRat_half, hhalf, mul_one]

/-- Each halving is rounded once. -/
theorem close_halveTimes (p : Precision) (n : ℕ) (x : Decimal) :
    Close p.digits n (|(halveTimes p n x).toRat| : ℚ) ((|x.toRat| : ℚ) / 2 ^ n) := by
  have hp := p.digits_pos
  induction n generalizing x with
  | zero =>
    rw [pow_zero, div_one]
    exact Close.refl ..
  | succ n ih =>
    have hhalf : Close p.digits 1 (|(x.mul half p).toRat| : ℚ) ((|x.toRat| : ℚ) / 2) := by
      have hround := close_rounded hp (by positivity : 0 ≤ |x.toRat| / 2)
      rw [abs_mul_half]
      exact_mod_cast hround
    have hrest := hhalf.div hp (by positivity) (by positivity) (Close.refl p.digits (2 ^ n : ℝ))
    have hsplit : ((|x.toRat| : ℚ) : ℝ) / 2 ^ (n + 1) = (|x.toRat| : ℚ) / 2 / 2 ^ n := by
      rw [pow_succ', div_div]
    rw [hsplit]
    exact (ih (x.mul half p)).trans hp hrest

theorem squareTimes_pos (p : Precision) (n : ℕ) (hx : 0 < x.toRat) : 0 < (squareTimes p n x).toRat := by
  induction n generalizing x with
  | zero => exact hx
  | succ n ih =>
    apply ih
    rw [toRat_mul]
    exact rounded_pos p.digits_pos (mul_pos hx hx)

/-! ### The limit -/

theorem exists_abs_toFloat (x : Decimal) :
    ∃ m, x.toFloat.abs = Binary64.ofMagnitude false m ∧ Binary64.IsNearest |x.toRat| m := by
  obtain ⟨m, hm, hnear⟩ := Binary64.exists_ofDecimal x.isNegative x.mantissa.natAbs x.exponent
  refine ⟨m, ?_, ?_⟩
  · rw [toFloat, hm, Binary64.abs_ofMagnitude hnear.le_infinity]
  · rwa [Nat.cast_natAbs, Int.cast_abs, ← abs_of_pos (ten_zpow_pos x.exponent), ← abs_mul] at hnear

/-- Doubles of `10 ^ 12` and of `10 ^ 12 + 1`. -/
theorem isDouble_expLimit : Binary64.IsDouble 8192000000000000 (-13) ∧ Binary64.IsDouble 8192000000008192 (-13) := by
  constructor <;> constructor <;> decide

theorem expLimit_eq : expLimit = Binary64.ofMagnitude false (Binary64.magnitudeOf 8192000000000000 (-13)) := rfl

theorem not_expLimit_lt (h : |x.toRat| ≤ 10 ^ 12) : ¬expLimit < x.toFloat.abs := by
  obtain ⟨m, hm, hnear⟩ := exists_abs_toFloat x
  rw [hm, expLimit_eq, Binary64.ofMagnitude_lt_iff isDouble_expLimit.1.magnitudeOf_le hnear.le_infinity, not_lt]
  refine hnear.le isDouble_expLimit.1 (h.trans_eq ?_)
  norm_num

theorem expLimit_lt (h : 10 ^ 12 + 1 ≤ |x.toRat|) : expLimit < x.toFloat.abs := by
  obtain ⟨m, hm, hnear⟩ := exists_abs_toFloat x
  rw [hm, expLimit_eq, Binary64.ofMagnitude_lt_iff isDouble_expLimit.1.magnitudeOf_le hnear.le_infinity]
  refine lt_of_lt_of_le (by decide) (hnear.ge isDouble_expLimit.2 (Eq.trans_le ?_ h))
  norm_num

theorem exp?_of_zero (hx : x.toRat = 0) : x.exp? p = some one := by
  rw [exp?, if_pos (isZero_iff.mpr hx)]

theorem exp?_of_limit_lt (hx : x.toRat ≠ 0) (hlimit : expLimit < x.toFloat.abs) :
    x.exp? p = if x.toRat < 0 then some zero else none := by
  rw [exp?, if_neg (mt isZero_iff.mp hx)]
  dsimp only
  rw [if_pos hlimit]
  exact if_congr isNegative_iff rfl rfl

/-- Few roundings beside a precision with a digit for three of them. -/
theorem third_roundoff_le {n q : ℕ} (h : n / 3 + 12 ≤ q) : n * roundoff q ≤ 1 / 2 := by
  have hlinear : n * 10 ≤ 10 ^ q := by
    have hpower : n / 3 + 2 < 10 ^ (n / 3 + 2) := Nat.lt_pow_self (by decide)
    have hmono : 10 ^ (n / 3 + 2 + 2) ≤ 10 ^ q := Nat.pow_le_pow_right (by decide) (by omega)
    rw [pow_add 10 (n / 3 + 2)] at hmono
    omega
  have hlinear' : (n : ℝ) * 10 ≤ 10 ^ q := by exact_mod_cast hlinear
  rw [roundoff, ← mul_div_assoc, div_le_div_iff₀ (by positivity) (by positivity)]
  linarith

/-- Halvings that are few beside the precision change the half, the quarter and so on by a factor of two at most. -/
theorem halveTimes_bounds {n : ℕ} (h : n / 3 + 12 ≤ p.digits) (x : Decimal) :
    |(halveTimes p n x).toRat| ≤ 2 * (|x.toRat| / 2 ^ n) ∧ |x.toRat| / 2 ^ n ≤ 2 * |(halveTimes p n x).toRat| := by
  have hclose := close_halveTimes p n x
  have hfew := third_roundoff_le h
  have habove := hclose.le_two_mul p.digits_pos (by positivity) hfew
  have hbelow := hclose.symm.le_two_mul p.digits_pos (by positivity) hfew
  exact ⟨by exact_mod_cast habove, by exact_mod_cast hbelow⟩

/-- What is left of an argument within the limit after the halvings has a series that settles. -/
theorem tame_halveTimes {reach n : ℕ} (hp : n / 3 + 12 ≤ p.digits) (hp' : p.digits ≤ 2 * 10 ^ 13)
    (hreach : reach ≤ 94 * 10 ^ 13) (hn : n < 2 ^ 32) (hlow : 10 ^ (-reach : ℤ) ≤ |x.toRat|)
    (hhigh : |x.toRat| ≤ 10 ^ 12) : Series.Tame p (95 * 10 ^ 13) (halveTimes p n x).toRat := by
  obtain ⟨far, hfar⟩ : ∃ far : ℕ, far = 95 * 10 ^ 13 := ⟨_, rfl⟩
  rw [← hfar]
  refine ⟨?_, ?_, by omega, by omega⟩
  · have hhalf := (halveTimes_bounds hp x).2
    calc (10 : ℚ) ^ (-far : ℤ) ≤ 10 ^ (-reach + -((n + 1 : ℕ) : ℤ)) := ten_zpow_le.mpr (by push_cast; omega)
      _ = 10 ^ (-reach : ℤ) / 10 ^ (n + 1) := by
          rw [ten_zpow_add, zpow_neg _ ((n + 1 : ℕ) : ℤ), zpow_natCast, div_eq_mul_inv]
      _ ≤ |x.toRat| / 2 ^ (n + 1) := by
          gcongr
          norm_num
      _ = |x.toRat| / 2 ^ n / 2 := by rw [pow_succ, div_div]
      _ ≤ |(halveTimes p n x).toRat| := by linarith
  · refine (abs_halveTimes_le (by omega) n x).trans (hhigh.trans ?_)
    exact_mod_cast (by omega : 10 ^ 12 ≤ far)

theorem halvings_lt (size : Float) : halvings size < 2 ^ 32 := by
  rw [halvings]
  split
  · exact UInt32.toNat_lt _
  · decide

theorem wholeDigits_lt (size : Float) : wholeDigits size < 2 ^ 32 := by
  rw [wholeDigits]
  split
  · exact UInt32.toNat_lt _
  · decide

/-- Up to its limit the exponential function is found and positive, unless the halvings of a negative argument leave it
large. -/
theorem exists_exp? {reach : ℕ} (hp : p.digits ≤ 10 ^ 13) (hreach : reach ≤ 94 * 10 ^ 13)
    (hlow : 10 ^ (-reach : ℤ) ≤ |x.toRat|) (hhigh : |x.toRat| ≤ 10 ^ 12)
    (hsmall : 0 < x.toRat ∨ 8 * |x.toRat| ≤ 2 ^ halvings x.toFloat.abs) : ∃ c, x.exp? p = some c ∧ 0 < c.toRat := by
  have hx : x.toRat ≠ 0 := abs_pos.mp ((ten_zpow_pos _).trans_le hlow)
  have hn' := halvings_lt x.toFloat.abs
  have hd' := wholeDigits_lt x.toFloat.abs
  obtain ⟨n, hn⟩ : ∃ n, n = halvings x.toFloat.abs := ⟨_, rfl⟩
  obtain ⟨d, hd⟩ : ∃ d, d = wholeDigits x.toFloat.abs := ⟨_, rfl⟩
  rw [← hn] at hn' hsmall
  rw [← hd] at hd'
  obtain ⟨wp, hwp⟩ : ∃ wp, wp = p.guard (guardDigits + n / 3 + 1 + d) := ⟨_, rfl⟩
  have hdigits : wp.digits = p.digits + (10 + n / 3 + 1 + d) := by rw [hwp]; rfl
  have hfew : n / 3 + 12 ≤ wp.digits := by
    have hpos := p.digits_pos
    omega
  have hside : 0 < (halveTimes wp n x).toRat ∨ |(halveTimes wp n x).toRat| ≤ 1 / 4 := by
    rcases hsmall with hpos | hsmall
    · left
      rwa [← sign_eq_one_iff, sign_halveTimes, sign_eq_one_iff]
    · right
      have heighth : |x.toRat| / 2 ^ n ≤ 1 / 8 := by
        rw [div_le_iff₀ (by positivity)]
        linarith
      linarith [(halveTimes_bounds hfew x).1]
  obtain ⟨sum, hsum, hge⟩ := Series.exp?_settles (tame_halveTimes hfew (by omega) hreach hn' hlow hhigh) hside
  refine ⟨(squareTimes wp n sum).roundTo p, ?_, ?_⟩
  · rw [exp?, if_neg (mt isZero_iff.mp hx)]
    dsimp only
    rw [if_neg (not_expLimit_lt hhigh), ← hn, ← hd, ← hwp, hsum]
    rfl
  · rw [toRat_roundTo]
    exact rounded_pos p.digits_pos (squareTimes_pos wp n (by linarith))

end
end Calculator.Decimal
