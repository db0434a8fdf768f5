import Calculator.Proofs.Decimal.LogBase
/-!
Logarithms of powers. The quotient is so near to the exponent that it is rounded to it. For a power of two this needs
that it is never very near to a power of ten: there is a fraction next to the logarithm of ten to base 2 whose
denominator is greater than all exponents, so that no other fraction is as near.
-/
namespace Calculator.Decimal

/-! ### Powers of two beside powers of ten -/

/-- The numerator of a fraction that is near the logarithm of ten to base 2. -/
def logNumerator : ℕ := 11458333085072746

/-- The denominator of that fraction. -/
def logDenominator : ℕ := 3449301958915901

theorem coprime_log : Nat.Coprime logNumerator logDenominator := by
  decide +kernel

/-- Beginnings of the series for the logarithms of 2 and 5 / 4 tell how near the fraction is. -/
theorem abs_log_fraction_le :
    |logDenominator * Real.log 10 - logNumerator * Real.log 2| ≤ 34 / 10 ^ 17 := by
  have htwo := Real.sum_range_le_log_div (by norm_num : (0 : ℝ) ≤ 1 / 3) (by norm_num) 34
  have htwo' := Real.log_div_le_sum_range_add (by norm_num : (0 : ℝ) ≤ 1 / 3) (by norm_num) 34
  have hfive := Real.sum_range_le_log_div (by norm_num : (0 : ℝ) ≤ 1 / 9) (by norm_num) 17
  have hfive' := Real.log_div_le_sum_range_add (by norm_num : (0 : ℝ) ≤ 1 / 9) (by norm_num) 17
  have harg : (1 + 1 / 3) / (1 - 1 / 3) = (2 : ℝ) := by norm_num
  have harg' : (1 + 1 / 9) / (1 - 1 / 9) = (5 / 4 : ℝ) := by norm_num
  rw [harg] at htwo htwo'
  rw [harg'] at hfive hfive'
  have hten : Real.log 10 = 3 * Real.log 2 + Real.log (5 / 4) := by
    have hproduct : (10 : ℝ) = 2 ^ 3 * (5 / 4) := by norm_num
    rw [hproduct, Real.log_mul (by norm_num) (by norm_num), Real.log_pow, Nat.cast_ofNat]
  have hhigh : 2 * 3449301958915901 * (Series.oddSum (1 / 9) 17 + (1 / 9) ^ (2 * 17 + 1) / (1 - (1 / 9) ^ 2)) -
      2 * 1110427208325043 * Series.oddSum (1 / 3) 34 ≤ 34 / 10 ^ 17 := by
    simp only [Series.oddSum, Finset.sum_range_succ, Finset.sum_range_zero]
    norm_num
  have hlow : 2 * 1110427208325043 * (Series.oddSum (1 / 3) 34 + (1 / 3) ^ (2 * 34 + 1) / (1 - (1 / 3) ^ 2)) -
      2 * 3449301958915901 * Series.oddSum (1 / 9) 17 ≤ 34 / 10 ^ 17 := by
    simp only [Series.oddSum, Finset.sum_range_succ, Finset.sum_range_zero]
    norm_num
  rw [← Series.oddSum] at htwo htwo' hfive hfive'
  rw [logNumerator, logDenominator, hten, abs_le]
  push_cast
  constructor <;> linarith

/-- A power of two is not very near to a power of ten with an exponent in the range. -/
theorem abs_log_power_sub_ge (n : ℕ) {k : ℕ} (hk : 0 < k) (hk' : k ≤ 10 ^ 15) :
    1 / 10 ^ 16 ≤ |n * Real.log 2 - k * Real.log 10| := by
  have hne : n * logDenominator ≠ k * logNumerator := by
    intro heq
    have hdvd : logDenominator ∣ k := coprime_log.symm.dvd_of_dvd_mul_right (Dvd.intro_left n heq)
    have hle := Nat.le_of_dvd hk hdvd
    rw [logDenominator] at hle
    omega
  have hone : (1 : ℝ) ≤ |(n * logDenominator - k * logNumerator : ℝ)| := by
    have hne' : ((n * logDenominator : ℕ) : ℤ) - (k * logNumerator : ℕ) ≠ 0 :=
      sub_ne_zero.mpr (Nat.cast_injective.ne hne)
    have hone := (Int.cast_le (R := ℝ)).mpr (Int.one_le_abs hne')
    rw [Int.cast_one, Int.cast_abs, Int.cast_sub, Int.cast_natCast, Int.cast_natCast, Nat.cast_mul, Nat.cast_mul] at hone
    exact hone
  have hsplit : logDenominator * (n * Real.log 2 - k * Real.log 10) =
      (n * logDenominator - k * logNumerator) * Real.log 2 -
        k * (logDenominator * Real.log 10 - logNumerator * Real.log 2) := by ring
  have hlog := Real.log_two_gt_d9
  have hfirst : Real.log 2 ≤ |(n * logDenominator - k * logNumerator) * Real.log 2| := by
    rw [abs_mul, abs_of_pos (by linarith : 0 < Real.log 2)]
    exact le_mul_of_one_le_left (by linarith) hone
  have hsecond : |k * (logDenominator * Real.log 10 - logNumerator * Real.log 2)| ≤ 34 / 100 := by
    have hk'' : (k : ℝ) ≤ 10 ^ 15 := by exact_mod_cast hk'
    rw [abs_mul, Nat.abs_cast]
    calc k * |logDenominator * Real.log 10 - logNumerator * Real.log 2| ≤ 10 ^ 15 * (34 / 10 ^ 17) :=
          mul_le_mul hk'' abs_log_fraction_le (abs_nonneg _) (by positivity)
      _ = 34 / 100 := by norm_num
  have htriangle := abs_sub_abs_le_abs_sub ((n * logDenominator - k * logNumerator) * Real.log 2)
    (k * (logDenominator * Real.log 10 - logNumerator * Real.log 2))
  have hdenominator : (logDenominator : ℝ) = 3449301958915901 := by
    rw [logDenominator]
    norm_num
  have hproduct : |logDenominator * (n * Real.log 2 - k * Real.log 10)| =
      3449301958915901 * |n * Real.log 2 - k * Real.log 10| := by
    rw [abs_mul, Nat.abs_cast, hdenominator]
  rw [← hsplit, hproduct] at htriangle
  linarith

/-! ### Quotients near whole numbers -/

section
variable {base x : Decimal} {p : Precision}

/-- Where the exact logarithm is a whole number that has up to `p` digits, the computed one is that number. -/
theorem logBase?_of_whole {n : ℤ} (hbase : IsBase base) (hp : p.digits < 2 ^ 32) (hx : 0 < x.toRat)
    (hrange : x.inRange = true) {places : ℕ} (hplaces : places + 3 ≤ 10 ^ 14) (hfar : x.significand.FarFromOne places)
    (hmass : x.logMass = |Real.log x.toRat|) (hlog : Real.log x.toRat = n * Real.log base.toRat)
    (hdigits : (ofInt n).digits ≤ p.digits) : logBase? base x p = some (ofInt n) := by
  have hpos := p.digits_pos
  have hguard : (p.guard guardDigits).digits = p.digits + 10 := by rw [Precision.guard, guardDigits]
  have hquotient : Real.log x.toRat / Real.log base.toRat = n := by
    rw [hlog, mul_div_cancel_right₀ _ hbase.log_pos.ne']
  obtain ⟨c, hc, hcerror⟩ := exists_ln?_near_of_mass (p := p.guard guardDigits) (by omega) hplaces hx
    (count_leading_le hx hrange) hfar hmass
  rw [hguard] at hcerror
  have hsmall : (6 : ℝ) / 10 ^ (p.digits + 10) ≤ 1 / 1000 := by
    have hpow : (10 : ℝ) ^ 10 ≤ 10 ^ (p.digits + 10) := pow_le_pow_right₀ (by norm_num) (by omega)
    rw [div_le_div_iff₀ (by positivity) (by positivity)]
    linarith
  have haway : Real.log x.toRat = 0 ∨ 2 * (10 : ℝ) ^ (-(1 : ℕ) : ℤ) ≤ |Real.log x.toRat / Real.log base.toRat| := by
    rw [hquotient]
    rcases eq_or_ne n 0 with rfl | hn
    · left
      rw [hlog, Int.cast_zero, zero_mul]
    · right
      have hone : (1 : ℝ) ≤ |(n : ℝ)| := by exact_mod_cast Int.one_le_abs hn
      norm_num
      linarith
  obtain ⟨q, hq, hvalue, hqerror⟩ := exists_logBase? hbase (by omega) hx hrange (by norm_num) le_rfl hsmall hc hcerror
    haway
  rw [hquotient] at hqerror
  have hfits : Fits p.digits n := toRat_ofInt n ▸ fits_of_digits hdigits
  have hnear : |q.toRat - n| ≤ |(n : ℚ)| / 10 ^ (p.digits + 2) := by
    have hscale : 3 * (6 / 10 ^ (p.digits + 10)) * |(n : ℝ)| ≤ |(n : ℝ)| / 10 ^ (p.digits + 2) := by
      have hsplit : 3 * (6 / (10 : ℝ) ^ (p.digits + 10)) = 18 / 10 ^ 8 * (1 / 10 ^ (p.digits + 2)) := by
        rw [pow_add, pow_add]
        field_simp
        norm_num
      rw [hsplit, div_eq_mul_one_div |(n : ℝ)|, mul_comm |(n : ℝ)|]
      refine mul_le_mul_of_nonneg_right (mul_le_of_le_one_left (by positivity) (by norm_num)) (abs_nonneg _)
    rw [← Rat.cast_le (K := ℝ)]
    push_cast
    exact hqerror.trans hscale
  have hround : (q.roundTo p).toRat = n := by rw [toRat_roundTo, rounded_of_close hpos hfits hnear]
  have hsize : |(q.roundTo p).toRat| < 10 ^ (1000 : ℤ) := by
    have hle := hbase.abs_log_div_le hx hrange
    rw [hquotient] at hle
    have hle' : |(n : ℚ)| ≤ 10 ^ (18 : ℤ) := by
      rw [← Rat.cast_le (K := ℝ)]
      push_cast
      norm_num at hle ⊢
      linarith
    rw [hround]
    exact hle'.trans_lt (ten_zpow_lt.mpr (by decide))
  rw [hvalue]
  refine congrArg some ((hq.roundTo p).normal.snap.eq_of_toRat (normal_ofInt n) ?_)
  rw [toRat_snap_of_whole hround hsize, toRat_ofInt]

end

/-! ### Powers -/

theorem toRat_power_of_ten (k : ℤ) : (ofParts 1 k).toRat = 10 ^ k := by
  rw [toRat_ofParts, Int.cast_one, one_mul]

theorem leading_power_of_ten (k : ℤ) : (ofParts 1 k).leading = k := by
  have hvalue := toRat_power_of_ten k
  have hmantissa : (ofParts 1 k).mantissa ≠ 0 := by
    rw [Ne, ← toRat_eq_zero_iff, hvalue]
    exact (ten_zpow_pos k).ne'
  rw [← log_toRat hmantissa, hvalue, abs_of_pos (ten_zpow_pos k)]
  exact_mod_cast Int.log_zpow (R := ℚ) (by decide : 1 < 10) k

theorem log_power_of_ten (k : ℤ) : Real.log (ofParts 1 k).toRat = k * Real.log 10 := by
  rw [toRat_power_of_ten, Rat.cast_zpow, Rat.cast_ofNat, Real.log_zpow]

theorem significand_power_of_ten (k : ℤ) : (ofParts 1 k).significand.toRat = 1 := by
  rw [toRat_significand, leading_power_of_ten, toRat_power_of_ten, div_self (ten_zpow_pos k).ne']

theorem logMass_power_of_ten (k : ℤ) : (ofParts 1 k).logMass = |Real.log (ofParts 1 k).toRat| := by
  rw [logMass, significand_power_of_ten, leading_power_of_ten, toRat_power_of_ten, Rat.cast_one, Real.log_one, zero_add]

theorem inRange_power_of_ten {k : ℤ} (hk : |k| ≤ 10 ^ 15) : (ofParts 1 k).inRange = true := by
  have hbounds := abs_le.mp hk
  rw [inRange_iff, toRat_power_of_ten]
  refine representable_of_between ?_ ?_ le_rfl le_rfl
  · unfold maxExponent
    omega
  · unfold maxExponent
    omega

theorem toRat_power_of_two (n : ℕ) : (ofInt (2 ^ n)).toRat = 2 ^ n := by
  rw [toRat_ofInt, Int.cast_pow, Int.cast_ofNat]

theorem log_power_of_two (n : ℕ) : Real.log (ofInt (2 ^ n)).toRat = n * Real.log 2 := by
  rw [toRat_power_of_two, Rat.cast_pow, Rat.cast_ofNat, Real.log_pow]

theorem one_le_power_of_two (n : ℕ) : 1 ≤ (ofInt (2 ^ n)).toRat := by
  rw [toRat_power_of_two]
  exact one_le_pow₀ (by norm_num)

/-- The significand of a power of two is one, or it is not very near to one. -/
theorem significand_power_of_two (n : ℕ) (hrange : (ofInt (2 ^ n)).inRange = true) :
    (ofInt (2 ^ n)).significand.FarFromOne 16 := by
  have hone := one_le_power_of_two n
  have hpos : 0 < (ofInt (2 ^ n)).toRat := one_pos.trans_le hone
  have hsignificand : (1 : ℝ) ≤ (ofInt (2 ^ n)).significand.toRat := by exact_mod_cast (significand_mem hpos).1
  obtain ⟨k, hk⟩ := Int.eq_ofNat_of_zero_le (leading_nonneg hone)
  have hle : k ≤ 10 ^ 15 := by
    rw [inRange_iff, Representable, log_toRat (toRat_pos_iff.mp hpos).ne', hk] at hrange
    have hbounds := (hrange.resolve_left hpos.ne').2
    unfold maxExponent at hbounds
    omega
  have hsplit := log_split hpos
  rw [log_power_of_two, hk, Int.cast_natCast] at hsplit
  rcases Nat.eq_zero_or_pos k with rfl | hkpos
  · rcases Nat.eq_zero_or_pos n with rfl | hnpos
    · left
      rw [toRat_significand, toRat_power_of_two, hk]
      norm_num
    · right
      have htwo : (2 : ℚ) ≤ 2 ^ n := le_self_pow₀ (by norm_num) hnpos.ne'
      rw [toRat_significand, toRat_power_of_two, hk]
      norm_num
      linarith
  · right
    have hnear := abs_log_power_sub_ge n hkpos hle
    have hlog := Real.log_le_sub_one_of_pos (by linarith : (0 : ℝ) < (ofInt (2 ^ n)).significand.toRat)
    have hnonneg := Real.log_nonneg hsignificand
    rw [hsplit, add_sub_cancel_right, abs_of_nonneg hnonneg] at hnear
    rw [← Rat.cast_le (K := ℝ)]
    push_cast
    norm_num at hnear ⊢
    linarith

/-- The logarithm of a power of ten to base 10 and that of a power of two to base 2 are the exponents, if these have no
more than the digits that are asked for, `10 ^ 9` at most. -/
theorem powers_have_whole_logarithms (p : Precision) (hp : p.digits ≤ 10 ^ 9) :
    (∀ k : ℤ, |k| ≤ 10 ^ 15 → (ofInt k).digits ≤ p.digits → (ofParts 1 k).log10? p = some (ofInt k)) ∧
      ∀ n : ℕ, (ofInt n).digits ≤ p.digits → (ofInt (2 ^ n)).inRange = true →
        (ofInt (2 ^ n)).log2? p = some (ofInt n) := by
  constructor
  · intro k hk hdigits
    have hpos : 0 < (ofParts 1 k).toRat := (ten_zpow_pos k).trans_eq (toRat_power_of_ten k).symm
    refine logBase?_of_whole isBase_ten (by omega) hpos (inRange_power_of_ten hk) (by norm_num : 0 + 3 ≤ 10 ^ 14)
      (.inl (significand_power_of_ten k)) (logMass_power_of_ten k) ?_ hdigits
    rw [log_power_of_ten, toRat_ofInt]
    norm_num
  · intro n hdigits hrange
    have hone := one_le_power_of_two n
    have hlog : 0 ≤ Real.log (ofInt (2 ^ n)).toRat := Real.log_nonneg (by exact_mod_cast hone)
    refine logBase?_of_whole isBase_two (by omega) (one_pos.trans_le hone) hrange (by norm_num)
      (significand_power_of_two n hrange) ((logMass_of_one_le hone).trans (abs_of_nonneg hlog).symm) ?_ hdigits
    rw [log_power_of_two, toRat_two, Int.cast_natCast, Rat.cast_ofNat]

theorem whole_logarithms_of_small_powers :
    |(-7 : ℤ)| ≤ 10 ^ 15 ∧ (ofInt (-7)).digits ≤ 1 ∧ (ofParts 1 (-7)).log10? ⟨1, by decide⟩ = some (ofInt (-7)) ∧
      (ofInt (10 : ℕ)).digits ≤ 1 ∧ (ofInt (2 ^ 10)).inRange = true ∧
        (ofInt (2 ^ 10)).log2? ⟨1, by decide⟩ = some (ofInt (10 : ℕ)) := by
  have hk : |(-7 : ℤ)| ≤ 10 ^ 15 := by norm_num
  have hkdigits : (ofInt (-7)).digits ≤ 1 := by decide +kernel
  have hndigits : (ofInt (10 : ℕ)).digits ≤ 1 := by decide +kernel
  have hrange : (ofInt (2 ^ 10)).inRange = true := by decide +kernel
  obtain ⟨hten, htwo⟩ := powers_have_whole_logarithms ⟨1, by decide⟩ (by decide)
  exact ⟨hk, hkdigits, hten (-7) hk hkdigits, hndigits, hrange, htwo 10 hndigits hrange⟩

end Calculator.Decimal
