import Calculator.Proofs.Decimal.RootExponent
import Calculator.Proofs.Decimal.Roots
import Calculator.Proofs.Evaluation.Precise
/-!
Roots with any index. A square or cube root is found for every number that is not negative. From the index four on a
root is a general power, for which the logarithm, divided by the index, has to be within the limit of the exponential
function. The limit is far below the logarithms of the numbers in range, so that roots of the greatest numbers are
refused and those of the least ones vanish, though the exact roots are in range.
-/
namespace Calculator.Evaluation.Precise
open Decimal

section
variable {x y : Decimal} {p : Precision} {n : ℤ}

/-! ### From the index four on -/

theorem toWord?_ofInt_ne {k : ℤ} (h : n ≠ k) : (ofInt n).toWord? ≠ some k := by
  intro hword
  have hvalue := toRat_of_toWord? hword
  rw [toRat_ofInt] at hvalue
  exact h (by exact_mod_cast hvalue)

/-- A root of a positive number with a positive index. -/
theorem root_eq (hx : 0 < x.toRat) (hn : 0 < n) : root p x (ofInt n) = rootOfNonNegative p x (ofInt n) := by
  have hne : (ofInt n).toRat ≠ 0 := by
    rw [toRat_ofInt]
    exact_mod_cast hn.ne'
  rw [root, if_neg (mt isZero_iff.mp hne), if_neg (mt isNegative_iff.mp hx.not_gt)]

theorem power_of_none (hx : 0 < x.toRat) (h : x.pow? y p = none) : power p x y = .error .powerTooLarge := by
  have hzero : x.isZero = false := by
    rw [← Bool.not_eq_true, isZero_iff]
    exact hx.ne'
  have hsign : x.isNegative = false := by
    rw [← Bool.not_eq_true, isNegative_iff, not_lt]
    exact hx.le
  rw [power, h]
  dsimp only
  rw [hzero, hsign]
  rfl

theorem rootOfNonNegative_eq (hn : 4 ≤ n) :
    rootOfNonNegative p x (ofInt n) =
      orElse .resultTooLarge (one.div? (ofInt n) (p.guard 10)) >>= power p x := by
  rw [rootOfNonNegative]
  split
  · rename_i hword
    exact absurd hword (toWord?_ofInt_ne (by omega))
  · rename_i hword
    exact absurd hword (toWord?_ofInt_ne (by omega))
  · rfl

/-- An index whose reciprocal is out of range. -/
theorem root_of_large_index (hx : 0 < x.toRat) (hn : 2 * 10 ^ maxExponent ≤ (n : ℚ)) :
    root p x (ofInt n) = .error .resultTooLarge := by
  have hpower : (10 : ℚ) ^ (1 : ℤ) ≤ 10 ^ maxExponent := ten_zpow_le.mpr (by decide)
  have hlarge : (4 : ℚ) ≤ n := by
    norm_num at hpower
    linarith
  have hn4 : 4 ≤ n := by exact_mod_cast hlarge
  have hunit : (10 : ℚ) ^ (-(maxExponent + 1)) * 10 = 10 ^ (-maxExponent) := by
    have hplace : -maxExponent = -(maxExponent + 1) + 1 := by omega
    rw [hplace, zpow_add_one₀ (by norm_num)]
  have hpos := ten_zpow_pos maxExponent
  have hsmall : 1 / (n : ℚ) ≤ (5 : ℤ) * 10 ^ (-(maxExponent + 1)) := by
    calc 1 / (n : ℚ) ≤ 1 / (2 * 10 ^ maxExponent) := one_div_le_one_div_of_le (by positivity) hn
      _ = 5 * (10 ^ (-maxExponent) / 10) := by
          rw [zpow_neg]
          field_simp
          norm_num
      _ = (5 : ℤ) * 10 ^ (-(maxExponent + 1)) := by rw [← hunit, mul_div_cancel_right₀ _ (by norm_num), Int.cast_ofNat]
  have hne : (ofInt n).toRat ≠ 0 := by
    rw [toRat_ofInt]
    linarith
  have hnone : one.div? (ofInt n) (p.guard 10) = none := by
    refine div?_eq_none_of_lt (by rw [toRat_one]; exact one_ne_zero) hne ?_
    have hdigits := (p.guard 10).digits_pos
    rw [toRat_one, toRat_ofInt, abs_of_pos (rounded_pos hdigits (by positivity))]
    have hfits : Fits (p.guard 10).digits ((5 : ℤ) * 10 ^ (-(maxExponent + 1))) :=
      fits_mul_ten_zpow hdigits ((by decide : |(5 : ℤ)| ≤ 10 ^ 1).trans (pow_le_pow_right₀ (by decide) hdigits)) _
    refine (hfits.rounded_le hdigits hsmall).trans_lt ?_
    rw [← hunit, mul_comm, Int.cast_ofNat]
    linarith [ten_zpow_pos (-(maxExponent + 1))]
  rw [root_eq hx (by omega), rootOfNonNegative_eq hn4, hnone]
  rfl

theorem root_of_exponent (hx : 0 < x.toRat) (hn : 4 ≤ n) (h : x.rootExponent? (ofInt n) p = some y) :
    root p x (ofInt n) = orElse .powerTooLarge (y.exp? p) := by
  obtain ⟨inverse, hinverse, hpow⟩ := pow?_of_rootExponent? (by omega) hx h
  rw [root_eq hx (by omega), rootOfNonNegative_eq hn, hinverse]
  change power p x inverse = _
  cases hexp : y.exp? p with
  | none => exact power_of_none hx (hpow.trans hexp)
  | some d =>
    rw [power, hpow, hexp]
    rfl

/-! ### The indices up to three -/

theorem div?_one (p : Precision) : one.div? one p = some one := by
  have hone : |one.toRat / one.toRat| = 1 := by rw [toRat_one, div_one, abs_one]
  obtain ⟨c, hc, hvalue⟩ := div?_of_le_one (a := one) (b := one) (by rw [toRat_one]; exact one_ne_zero)
    (hone ▸ zpow_le_one_of_nonpos₀ (by norm_num) (by decide)) hone.le p
  rw [toRat_one, div_one, rounded_of_fits (fits_one p.digits_pos), ← toRat_one] at hvalue
  rw [hc, (within_of_div? hc).normal.eq_of_toRat (b := one) (normal_ofInt 1) hvalue]

theorem powLoop_one (p : Precision) (base acc : Decimal) : powLoop p base acc 1 = acc.mul? base p := by
  rw [powLoop, if_neg one_ne_zero]
  cases acc.mul? base p <;> rfl

theorem pow?_one (p : Precision) (hx : x.toRat ≠ 0) : x.pow? one p = (one.mul? x (p.guard 11)).map (·.roundTo p) := by
  have hword : one.toWord? = some 1 := by decide +kernel
  have hcount : Digits.count 1 = 1 := by decide +kernel
  rw [pow?, hword]
  dsimp only
  rw [if_pos (by decide), powInt?, if_neg one_ne_zero, if_neg (mt isZero_iff.mp hx)]
  change (powLoop (p.guard (guardDigits + Digits.count 1)) x one 1).bind _ = _
  rw [hcount, powLoop_one]
  change (one.mul? x (p.guard 11)).bind _ = _
  cases one.mul? x (p.guard 11) <;> rfl

theorem inRange_congr {a b : Decimal} (h : a.toRat = b.toRat) : a.inRange = b.inRange := by
  rw [Bool.eq_iff_iff, inRange_iff, inRange_iff, h]

/-- The first root is a product with one, and is found if its rounding is in range. -/
theorem root_one (hx : 0 < x.toRat) :
    ∃ c : Decimal, c.toRat = rounded p.digits (rounded (p.guard 11).digits x.toRat) ∧ root p x (ofInt 1) =
      if (x.roundTo (p.guard 11)).inRange then .ok c else .error .powerTooLarge := by
  have hword : (ofInt 1).toWord? = some 1 := by decide +kernel
  obtain ⟨c, hc, hproduct⟩ := mul?_eq one x (p.guard 11)
  rw [toRat_one, one_mul, ← toRat_roundTo] at hc
  have hpow := pow?_one p hx.ne'
  rw [hproduct, checked, inRange_congr hc] at hpow
  refine ⟨c.roundTo p, by rw [toRat_roundTo, hc, toRat_roundTo], ?_⟩
  rw [root_eq hx one_pos, rootOfNonNegative, hword]
  rw [← one, div?_one]
  change power p x one = _
  cases hin : (x.roundTo (p.guard 11)).inRange with
  | true =>
    rw [hin, if_pos rfl] at hpow
    rw [power, hpow]
    rfl
  | false =>
    rw [hin, if_neg Bool.false_ne_true] at hpow
    exact power_of_none hx hpow

theorem isRealRounding_pos {n : ℕ} {z : ℝ} {r : ℚ} (hn : 0 < n) (h : IsRealRounding n z r) (hz : 0 < z) : 0 < r := by
  have hnear := (abs_le.mp (h.abs_sub_le hn hz)).1
  have hhalf := mul_le_mul_of_nonneg_right (roundoff_le_half hn) hz.le
  exact_mod_cast (by linarith : (0 : ℝ) < r)

theorem root_two_or_three (hx : 0 < x.toRat) (hn : n = 2 ∨ n = 3) :
    ∃ r, root p x (ofInt n) = .ok r ∧ 0 < r.toRat := by
  have hx' : (0 : ℝ) < x.toRat := by exact_mod_cast hx
  rw [root_eq hx (by omega), rootOfNonNegative]
  rcases hn with rfl | rfl
  · have hword : (ofInt 2).toWord? = some 2 := by decide +kernel
    obtain ⟨c, hc, hround⟩ := isRealRounding_sqrt? (p := p) hx.le
    rw [hword, hc]
    exact ⟨c, rfl, isRealRounding_pos p.digits_pos hround (Real.sqrt_pos.mpr hx')⟩
  · have hword : (ofInt 3).toWord? = some 3 := by decide +kernel
    obtain ⟨z, hz⟩ := exists_cube_root x.toRat
    have hpos : 0 < z := by
      rw [← hz] at hx'
      exact (Odd.pow_pos_iff (by decide)).mp hx'
    rw [hword]
    exact ⟨x.cbrt p, rfl, isRealRounding_pos p.digits_pos (isRealRounding_cbrt hz) hpos⟩

theorem leading_ofInt_le {k : ℕ} (hn : 0 < n) (h : n ≤ 10 ^ k) : (ofInt n).leading ≤ k := by
  have hn' : (0 : ℚ) < n := by exact_mod_cast hn
  have hne : (ofInt n).toRat ≠ 0 := by
    rw [toRat_ofInt]
    exact hn'.ne'
  have hlow := (leading_bounds (mt toRat_eq_zero_iff.mpr hne)).1
  rw [toRat_ofInt, abs_of_pos hn'] at hlow
  have hhigh : (n : ℚ) ≤ 10 ^ (k : ℤ) := by
    rw [zpow_natCast]
    exact_mod_cast h
  exact ten_zpow_le.mp (hlow.trans hhigh)

end

/-- Roots of the indices one to three are found, the first one if its rounding is in range. Roots of greater indices are
found up to the limit of the exponential function, a part in `10 ^ 9` aside, if the halvings of a negative exponent make
it small, which is up to the logarithm of doubles. Beyond the limit, and for the greatest indices, none is found. -/
theorem root_found_unless_logarithm_large (p : Precision) (x : Decimal) (n : ℤ) (hp : p.digits ≤ 10 ^ 9)
    (hx : 0 < x.toRat) (hrange : x.inRange = true) (hdigits : x.digits ≤ 10 ^ 13) :
    (n = 1 → (x.roundTo (p.guard 11)).inRange = true → ∃ r, root p x (ofInt n) = .ok r ∧ 0 < r.toRat) ∧
      (n = 1 → (x.roundTo (p.guard 11)).inRange = false → root p x (ofInt n) = .error .powerTooLarge) ∧
      (n = 2 ∨ n = 3 → ∃ r, root p x (ofInt n) = .ok r ∧ 0 < r.toRat) ∧
      (4 ≤ n → (ofInt n).leading ≤ 9 * 10 ^ 14 → |Real.log x.toRat| ≤ (10 ^ 12 - 1000) * n →
        (1 ≤ x.toRat ∨ ∀ y, x.rootExponent? (ofInt n) p = some y → 8 * |y.toRat| ≤ 2 ^ halvings y.toFloat.abs) →
        ∃ r, root p x (ofInt n) = .ok r ∧ 0 < r.toRat) ∧
      (4 ≤ n → (10 ^ 12 + 1000) * n ≤ |Real.log x.toRat| →
        root p x (ofInt n) = if x.toRat < 1 then .ok zero else .error .powerTooLarge) ∧
      (2 * 10 ^ maxExponent ≤ (n : ℚ) → root p x (ofInt n) = .error .resultTooLarge) := by
  refine ⟨fun hone hin => ?_, fun hone hout => ?_, root_two_or_three hx, fun hn hleading hlog hsmall => ?_,
    fun hn hlog => ?_, root_of_large_index hx⟩
  · obtain ⟨c, hvalue, hroot⟩ := root_one (p := p) hx
    rw [hone, hroot, if_pos hin]
    refine ⟨c, rfl, ?_⟩
    rw [hvalue]
    exact rounded_pos p.digits_pos (rounded_pos (p.guard 11).digits_pos hx)
  · obtain ⟨c, -, hroot⟩ := root_one (p := p) hx
    rw [hone, hroot, hout, if_neg Bool.false_ne_true]
  · obtain ⟨y, hy, hexponent⟩ := exists_rootExponent? (p := p) (by omega) hleading (by omega) hx hrange hdigits
    obtain ⟨c, hc, hpos⟩ := hexponent.exists_exp? (p := p) (by omega) (by omega) hlog (hsmall.imp_right fun h => h y hy)
    rw [root_of_exponent hx hn hy, hc]
    exact ⟨c, rfl, hpos⟩
  · -- For a greater index the limit would be above the logarithms of all numbers in range.
    have hnpos : (0 : ℝ) < n := by exact_mod_cast (by omega : 0 < n)
    have hnhigh : (n : ℝ) ≤ 10 ^ 17 := by linarith [abs_log_le hx hrange]
    have hleading := leading_ofInt_le (n := n) (k := 17) (by omega) (by exact_mod_cast hnhigh)
    obtain ⟨y, hy, hexponent⟩ := exists_rootExponent? (n := n) (p := p) (by omega) (by omega) (by omega) hx hrange hdigits
    rw [root_of_exponent hx hn hy, hexponent.exp?_of_large (by omega) hx hlog]
    split <;> rfl

/-- The fourth root of the greatest power of ten is refused; that of nine tenths is found. -/
theorem fourth_root_of_greatest_power :
    0 < toRat ⟨1, maxExponent⟩ ∧ inRange ⟨1, maxExponent⟩ = true ∧
      root ⟨15, by decide⟩ ⟨1, maxExponent⟩ (ofInt 4) = .error .powerTooLarge ∧
      ∃ r, root ⟨15, by decide⟩ (ofParts 9 (-1)) (ofInt 4) = .ok r ∧ 0 < r.toRat := by
  have hvalue : toRat ⟨1, maxExponent⟩ = 10 ^ maxExponent := by rw [toRat, Int.cast_one, one_mul]
  have hpos : 0 < toRat ⟨1, maxExponent⟩ := hvalue ▸ ten_zpow_pos _
  have hrange : inRange ⟨1, maxExponent⟩ = true := by decide +kernel
  have hdigits : digits ⟨1, maxExponent⟩ ≤ 10 ^ 13 := by decide +kernel
  have hlarge : (10 ^ 12 + 1000) * ((4 : ℤ) : ℝ) ≤ |Real.log (toRat ⟨1, maxExponent⟩)| := by
    have hlog : Real.log (toRat ⟨1, maxExponent⟩) = maxExponent * Real.log 10 := by
      rw [hvalue, Rat.cast_zpow, Rat.cast_ofNat, Real.log_zpow]
    have hexponent : (maxExponent : ℝ) = 10 ^ 15 := by
      rw [maxExponent]
      norm_num
    rw [hlog, hexponent]
    refine le_trans ?_ (le_abs_self _)
    norm_num
    linarith [log_ten_gt]
  have hone : 1 ≤ toRat ⟨1, maxExponent⟩ := by
    rw [hvalue]
    exact one_le_zpow₀ (by norm_num) (by decide)
  obtain ⟨-, -, -, -, hfails, -⟩ := root_found_unless_logarithm_large ⟨15, by decide⟩ ⟨1, maxExponent⟩ 4 (by decide) hpos
    hrange hdigits
  refine ⟨hpos, hrange, (hfails (by decide) hlarge).trans (if_neg hone.not_gt), ?_⟩
  have hnine : (ofParts 9 (-1)).toRat = 9 / 10 := by
    rw [toRat_ofParts]
    norm_num
  have hlog : |Real.log (ofParts 9 (-1)).toRat| ≤ (10 ^ 12 - 1000) * ((4 : ℤ) : ℝ) := by
    rw [hnine]
    have hbelow := Real.one_sub_inv_le_log_of_pos (by norm_num : (0 : ℝ) < ((9 / 10 : ℚ) : ℝ))
    have habove := Real.log_nonpos (by norm_num : (0 : ℝ) ≤ ((9 / 10 : ℚ) : ℝ)) (by norm_num)
    rw [abs_of_nonpos habove]
    norm_num at hbelow ⊢
    linarith
  have hexponent : (ofParts 9 (-1)).rootExponent? (ofInt 4) ⟨15, by decide⟩ =
      some ⟨-2634012891445657530687525, -26⟩ := by decide +kernel
  obtain ⟨-, -, -, hfound, -, -⟩ := root_found_unless_logarithm_large ⟨15, by decide⟩ (ofParts 9 (-1)) 4 (by decide)
    (by rw [hnine]; norm_num) (by decide +kernel) (by decide +kernel)
  refine hfound (by decide) (by decide +kernel) hlog (.inr fun y hy => ?_)
  rw [← Option.some.inj (hexponent.symm.trans hy)]
  have hhalvings : halvings (toFloat ⟨-2634012891445657530687525, -26⟩).abs = 0 := by decide +kernel
  rw [hhalvings, toRat]
  norm_num [abs_div]

end Calculator.Evaluation.Precise
