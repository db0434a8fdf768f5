import Calculator.Proofs.Decimal.Arithmetic
/-!
Whole numbers below, above and nearest to a decimal number. The nearest one is found by adding a half in a precision
that a number with a last digit at `10 ^ 1000` just exceeds: positive ones become greater by one, and much longer.
-/
namespace Calculator.Decimal

/-! ### Rounding down and up -/

/-- A whole number that is written out. -/
theorem toRat_eq_cast {d : Decimal} (hd : 0 ≤ d.exponent) : d.toRat = (d.mantissa * 10 ^ d.exponent.toNat : ℤ) := by
  rw [toRat, Int.cast_mul, Int.cast_pow, Int.cast_ofNat, ← zpow_natCast, Int.toNat_of_nonneg hd]

theorem abs_lt_one {d : Decimal} (hd : d.leading < 0) : |d.toRat| < 1 := by
  rcases eq_or_ne d.mantissa 0 with hm | hm
  · rw [toRat_eq_zero_iff.mpr hm, abs_zero]
    exact one_pos
  · have hhigh := (log_bounds (abs_pos.mpr (mt toRat_eq_zero_iff.mp hm))).2
    rw [log_toRat hm] at hhigh
    calc |d.toRat| < 10 ^ (d.leading + 1) := hhigh
      _ ≤ 10 ^ (0 : ℤ) := ten_zpow_le.mpr (by omega)
      _ = 1 := zpow_zero _

theorem toRat_floor (d : Decimal) : d.floor.toRat = ⌊d.toRat⌋ := by
  unfold floor
  split
  · rename_i h
    rw [toRat_eq_cast (of_decide_eq_true h), Int.floor_intCast]
  rename_i hfraction
  have he : d.exponent < 0 := not_le.mp fun h => hfraction (decide_eq_true h)
  split
  · rename_i hleading
    obtain ⟨hlow, hhigh⟩ := abs_lt.mp (abs_lt_one hleading)
    split
    · rename_i hneg
      have hfloor : ⌊d.toRat⌋ = -1 := Int.floor_eq_iff.mpr
        ⟨by push_cast; exact hlow.le, by push_cast; linarith [isNegative_iff.mp hneg]⟩
      rw [hfloor, toRat_ofInt]
    · rename_i hneg
      have hpos := not_lt.mp (mt isNegative_iff.mpr hneg)
      rw [Int.floor_eq_zero_iff.mpr ⟨hpos, hhigh⟩, toRat_zero, Int.cast_zero]
  · have hdiv : d.toRat = d.mantissa / (pow10 (-d.exponent).toNat : ℕ) := by
      rw [cast_pow10_toNat (by omega), zpow_neg, div_inv_eq_mul, toRat]
    rw [toRat_ofParts, zpow_zero, mul_one, hdiv, Rat.floor_intCast_div_natCast, Int.fdiv_eq_ediv_of_nonneg _ (by omega)]

theorem toRat_ceil (d : Decimal) : d.ceil.toRat = ⌈d.toRat⌉ := by
  rw [ceil, toRat_neg, toRat_floor, toRat_neg, Int.floor_neg, Int.cast_neg, neg_neg]

theorem Normal.floor {d : Decimal} (hd : d.Normal) : d.floor.Normal := by
  unfold Decimal.floor
  split
  · exact hd
  split
  · split
    · exact normal_ofInt _
    · exact normal_zero
  · exact normal_ofParts _ _

theorem Normal.ceil {d : Decimal} (hd : d.Normal) : d.ceil.Normal := hd.neg.floor.neg

/-! ### Rounding to the nearest -/

theorem isolated_of_digits {d : Decimal} {p : ℕ} (h : d.digits ≤ p) : Isolated p d.toRat :=
  (fits_of_digits h).isolated ((Digits.count_pos _).trans_le h)

theorem toRat_half : half.toRat = 1 / 2 := by
  rw [half, toRat_ofParts]
  norm_num

/-- The nearest number is the one below the sum with a half, in the precision in which that is added. -/
theorem toRat_round_eq (d : Decimal) :
    d.round.toRat = ⌊rounded (Precision.maxDigits + d.digits) (d.toRat + 1 / 2)⌋ := by
  have hhalf : half.digits ≤ Precision.maxDigits + d.digits := by
    have hone : half.digits = 1 := by decide +kernel
    rw [hone]
    exact (Digits.count_pos _).trans_le (Nat.le_add_left ..)
  rw [round, toRat_floor,
    toRat_add (isolated_of_digits (Nat.le_add_left d.digits _)) (isolated_of_digits (p := _) hhalf), toRat_half]
  rfl

theorem mantissa_lt (d : Decimal) : |d.mantissa| < 10 ^ d.digits := by
  rw [Int.abs_eq_natAbs]
  exact_mod_cast Digits.lt_pow_count d.mantissa.natAbs

/-- The sum of a fraction and a half has a digit more than the fraction at most, or as many as the fraction has places. -/
theorem fits_fraction_add_half {d : Decimal} (hd : d.exponent < 0) {p : ℕ} (hdigits : d.digits < p)
    (hplaces : -d.exponent ≤ p) : Fits p (d.toRat + 1 / 2) := by
  refine ⟨d.mantissa + 5 * 10 ^ (-d.exponent - 1).toNat, d.exponent, ?_, ?_⟩
  · have hpower : (10 : ℤ) ^ (-d.exponent - 1).toNat ≤ 10 ^ (p - 1) := pow_le_pow_right₀ (by decide) (by omega)
    have hmantissa : (10 : ℤ) ^ d.digits ≤ 10 ^ (p - 1) := pow_le_pow_right₀ (by decide) (by omega)
    have hsucc : (10 : ℤ) ^ p = 10 * 10 ^ (p - 1) := by
      rw [← pow_succ', Nat.sub_add_cancel (Nat.zero_lt_of_lt hdigits)]
    have hm := abs_lt.mp d.mantissa_lt
    have hpower' : (0 : ℤ) < 10 ^ (-d.exponent - 1).toNat := by positivity
    rw [hsucc, abs_lt]
    constructor <;> linarith [hm.1, hm.2]
  · have hhalf : (5 * 10 ^ (-d.exponent - 1).toNat : ℚ) * 10 ^ d.exponent = 1 / 2 := by
      rw [← zpow_natCast, Int.toNat_of_nonneg (by omega), mul_assoc, ← ten_zpow_add,
        sub_add_eq_add_sub, neg_add_cancel]
      norm_num
    push_cast
    rw [add_mul, hhalf, toRat]

/-- The sum of a tiny number and a half is near a half, and so is its rounding. -/
theorem floor_rounded_add_half_of_tiny {p : ℕ} (hp : 0 < p) {q : ℚ} (hq : |q| ≤ 1 / 10) :
    ⌊rounded p (q + 1 / 2)⌋ = 0 := by
  obtain ⟨hlow, hhigh⟩ := abs_le.mp hq
  have hfits : ∀ n : ℤ, |n| ≤ 10 → Fits p (n * 10 ^ (-1 : ℤ)) := fun n hn =>
    (fits_mul_ten_zpow one_pos (by rwa [pow_one]) _).mono hp
  have hbelow := rounded_mono hp (by norm_num; linarith : ((4 : ℤ) : ℚ) * 10 ^ (-1 : ℤ) ≤ q + 1 / 2)
  have habove := rounded_mono hp (by norm_num; linarith : q + 1 / 2 ≤ ((6 : ℤ) : ℚ) * 10 ^ (-1 : ℤ))
  rw [rounded_of_fits (hfits 4 (by decide))] at hbelow
  rw [rounded_of_fits (hfits 6 (by decide))] at habove
  norm_num at hbelow habove
  exact Int.floor_eq_zero_iff.mpr ⟨by linarith, by linarith⟩

/-- A number whose digits all stand behind a zero after the point. -/
theorem abs_toRat_le_tenth {d : Decimal} (hd : d.digits + d.exponent ≤ -1) : |d.toRat| ≤ 1 / 10 := by
  have hm : (|d.mantissa| : ℚ) ≤ 10 ^ (d.digits : ℤ) := by
    rw [zpow_natCast]
    exact_mod_cast d.mantissa_lt.le
  rw [toRat, abs_mul, abs_of_pos (ten_zpow_pos _)]
  calc (|d.mantissa| : ℚ) * 10 ^ d.exponent
      ≤ 10 ^ (d.digits : ℤ) * 10 ^ d.exponent := mul_le_mul_of_nonneg_right hm (ten_zpow_pos _).le
    _ = 10 ^ (d.digits + d.exponent) := (ten_zpow_add ..).symm
    _ ≤ 10 ^ (-1 : ℤ) := ten_zpow_le.mpr hd
    _ = 1 / 10 := by norm_num

/-- The sum of a fraction and a half has at most so many digits, or the fraction is tiny. -/
theorem floor_rounded_of_fraction {d : Decimal} (hd : d.exponent < 0) :
    ⌊rounded (Precision.maxDigits + d.digits) (d.toRat + 1 / 2)⌋ = nearest d.toRat := by
  have hmore : d.digits < Precision.maxDigits + d.digits := Nat.lt_add_of_pos_left (by decide)
  rcases le_or_gt (-d.exponent) (Precision.maxDigits + d.digits : ℕ) with hnear | hfar
  · rw [nearest, rounded_of_fits (fits_fraction_add_half hd hmore hnear)]
  · have htiny : |d.toRat| ≤ 1 / 10 :=
      abs_toRat_le_tenth (by push_cast at hfar; unfold Precision.maxDigits at hfar; omega)
    obtain ⟨hlow, hhigh⟩ := abs_le.mp htiny
    rw [floor_rounded_add_half_of_tiny (Nat.zero_lt_of_lt hmore) htiny, nearest,
      Int.floor_eq_zero_iff.mpr ⟨by linarith, by linarith⟩]

/-- A half does not matter next to a number whose last digit that is kept is not that of the ones. -/
theorem rounded_add_half {p : ℕ} (hp : 0 < p) {q : ℚ} {k : ℤ} (hq : Fits p q) (hlow : 10 ^ k ≤ |q|)
    (hhigh : |q| < 10 ^ (k + 1)) (hk : p ≤ k) : rounded p (q + 1 / 2) = q := by
  have hunit : (10 : ℚ) ^ (1 : ℤ) ≤ 10 ^ (k - p + 1) := ten_zpow_le.mpr (by omega)
  rw [zpow_one] at hunit
  rcases abs_choice q with h | h
  · rw [h] at hlow hhigh
    exact rounded_of_near hp hq hlow hhigh (by linarith) (by linarith)
  · rw [h] at hlow hhigh
    have hneg : rounded p (-q - 1 / 2) = -q := rounded_of_near hp hq.neg hlow hhigh (by linarith) (by linarith)
    rw [← neg_neg (q + 1 / 2), rounded_neg, neg_add', hneg, neg_neg]

/-- A negative whole number with `p` digits before its point: its sum with a half is rounded to the number, or exact. -/
theorem rounded_add_half_of_neg {p : ℕ} (hp : 0 < p) {n : ℤ} (hlow : (10 : ℚ) ^ (p - 1 : ℤ) ≤ -n)
    (hhigh : (-n : ℚ) < 10 ^ (p : ℤ)) : rounded p (n + 1 / 2) < n + 1 := by
  rcases le_or_gt ((10 : ℚ) ^ (p - 1 : ℤ)) (-n - 1 / 2) with h | h
  · have hnearest : nearest (-n - 1 / 2) = -n := by
      rw [nearest, sub_add_cancel, ← Int.cast_neg, Int.floor_intCast]
    have hneg : rounded p (-n - 1 / 2) = -n := by
      rw [rounded_eq h (by rw [sub_add_cancel]; linarith), sub_sub_cancel_left, neg_add_cancel, zpow_zero, div_one,
        mul_one, hnearest, Int.cast_neg]
    rw [← neg_neg ((n : ℚ) + 1 / 2), rounded_neg, neg_add', hneg, neg_neg]
    exact lt_add_one _
  · have hfits : Fits p ((n : ℚ) + 1 / 2) := by
      refine ⟨10 * n + 5, -1, ?_, ?_⟩
      · have hpower : (10 : ℚ) ^ p = 10 * 10 ^ (p - 1 : ℤ) := by
          rw [← zpow_natCast, ← zpow_one_add₀ (by norm_num), add_sub_cancel]
        have hpos : (10 : ℚ) ^ (0 : ℤ) ≤ 10 ^ (p - 1 : ℤ) := ten_zpow_le.mpr (by omega)
        rw [zpow_zero] at hpos
        have hlt : |(10 * n + 5 : ℚ)| < 10 ^ p := by
          rw [hpower, abs_lt]
          constructor <;> linarith
        exact_mod_cast hlt
      · push_cast
        rw [zpow_neg_one]
        ring
    rw [rounded_of_fits hfits]
    linarith

/-- The place of the first digit of a number that is not zero, around its value. -/
theorem leading_bounds {d : Decimal} (hd : d.mantissa ≠ 0) :
    10 ^ d.leading ≤ |d.toRat| ∧ |d.toRat| < 10 ^ (d.leading + 1) := by
  rw [← log_toRat hd]
  exact log_bounds (abs_pos.mpr (mt toRat_eq_zero_iff.mp hd))

theorem leading_lt_iff {d : Decimal} (hd : d.toRat ≠ 0) {k : ℤ} : d.leading < k ↔ |d.toRat| < 10 ^ k := by
  obtain ⟨hlow, hhigh⟩ := leading_bounds (mt toRat_eq_zero_iff.mpr hd)
  constructor
  · intro h
    exact hhigh.trans_le (ten_zpow_le.mpr h)
  · intro h
    exact ten_zpow_lt.mp (hlow.trans_lt h)

/-- The first digit of a number with its last digit at `10 ^ 1000`. -/
theorem leading_of_stretch {d : Decimal} (he : d.exponent = Precision.maxDigits) :
    d.leading = (Precision.maxDigits + d.digits : ℕ) - 1 := by
  rw [leading, he]
  push_cast
  ring

/-- Below that place there is a digit for the half. -/
theorem fits_whole_add_half {d : Decimal} (hd : 0 ≤ d.exponent) (he : d.exponent < Precision.maxDigits) :
    Fits (Precision.maxDigits + d.digits) (d.toRat + 1 / 2) := by
  refine ⟨d.mantissa * 10 ^ (d.exponent.toNat + 1) + 5, -1, ?_, ?_⟩
  · have hm := d.mantissa_lt
    have hpower : (10 : ℤ) ^ (d.digits + (d.exponent.toNat + 1)) ≤ 10 ^ (Precision.maxDigits + d.digits) :=
      pow_le_pow_right₀ (by decide) (by omega)
    have hten : (10 : ℤ) ≤ 10 ^ (d.exponent.toNat + 1) := le_self_pow₀ (by decide) (by omega)
    have hscale : (|d.mantissa| + 1) * 10 ^ (d.exponent.toNat + 1) ≤
        10 ^ d.digits * (10 : ℤ) ^ (d.exponent.toNat + 1) :=
      mul_le_mul_of_nonneg_right hm (by positivity)
    rw [← pow_add] at hscale
    calc |d.mantissa * 10 ^ (d.exponent.toNat + 1) + 5|
        ≤ |d.mantissa * 10 ^ (d.exponent.toNat + 1)| + |5| := abs_add_le _ _
      _ = |d.mantissa| * 10 ^ (d.exponent.toNat + 1) + 5 := by
        rw [abs_mul, abs_of_pos (by positivity : (0 : ℤ) < 10 ^ (d.exponent.toNat + 1))]
        rfl
      _ < (|d.mantissa| + 1) * 10 ^ (d.exponent.toNat + 1) := by linarith
      _ ≤ 10 ^ (Precision.maxDigits + d.digits) := hscale.trans hpower
  · rw [toRat_eq_cast hd, zpow_neg_one]
    push_cast
    ring

theorem rounded_of_whole {d : Decimal} (hd : 0 ≤ d.exponent)
    (hplace : ¬ (0 < d.mantissa ∧ d.exponent = Precision.maxDigits)) :
    rounded (Precision.maxDigits + d.digits) (d.toRat + 1 / 2) < d.toRat + 1 := by
  rcases lt_or_ge d.exponent Precision.maxDigits with he | he
  · rw [rounded_of_fits (fits_whole_add_half hd he)]
    linarith
  have hpos : 0 < Precision.maxDigits + d.digits := (Digits.count_pos _).trans_le (Nat.le_add_left ..)
  rcases eq_or_ne d.mantissa 0 with hm | hm
  · have hhalf : Fits (Precision.maxDigits + d.digits) (1 / 2) :=
      Fits.mono (p := 1) ⟨5, -1, by decide, by norm_num⟩ hpos
    rw [toRat_eq_zero_iff.mpr hm, zero_add, rounded_of_fits hhalf]
    norm_num
  obtain ⟨hlow, hhigh⟩ := leading_bounds hm
  rcases he.eq_or_lt with he | he
  · have hneg : d.mantissa < 0 := lt_of_le_of_ne (not_lt.mp fun h => hplace ⟨h, he.symm⟩) hm
    rw [abs_of_neg (toRat_neg_iff.mpr hneg), toRat_eq_cast hd, leading_of_stretch he.symm] at hlow hhigh
    rw [sub_add_cancel] at hhigh
    rw [toRat_eq_cast hd]
    exact rounded_add_half_of_neg hpos hlow hhigh
  · have hfits := fits_of_digits (Nat.le_add_left d.digits Precision.maxDigits)
    rw [rounded_add_half hpos hfits hlow hhigh (by rw [leading]; push_cast; omega)]
    exact lt_add_one _

/-- A whole number is its own nearest one, but for a positive one with its last digit at `10 ^ 1000`. -/
theorem toRat_round_of_whole {d : Decimal} (hd : 0 ≤ d.exponent)
    (hplace : ¬ (0 < d.mantissa ∧ d.exponent = Precision.maxDigits)) : d.round.toRat = d.toRat := by
  have hpos : 0 < Precision.maxDigits + d.digits := (Digits.count_pos _).trans_le (Nat.le_add_left ..)
  have hhigh := rounded_of_whole hd hplace
  have hlow := rounded_mono hpos (by linarith : d.toRat ≤ d.toRat + 1 / 2)
  rw [rounded_of_fits (fits_of_digits (Nat.le_add_left d.digits Precision.maxDigits))] at hlow
  rw [toRat_round_eq]
  rw [toRat_eq_cast hd] at hlow hhigh ⊢
  rw [Int.floor_eq_iff.mpr ⟨hlow, hhigh⟩]

/-- The half that is added to such a number is rounded up. -/
theorem toRat_round_of_stretch {d : Decimal} (hm : 0 < d.mantissa) (he : d.exponent = Precision.maxDigits) :
    d.round.toRat = d.toRat + 1 := by
  have hexponent : 0 ≤ d.exponent := he ▸ Int.natCast_nonneg _
  obtain ⟨hlow, hhigh⟩ := leading_bounds hm.ne'
  rw [abs_of_pos (toRat_pos_iff.mpr hm), leading_of_stretch he, toRat_eq_cast hexponent] at hlow hhigh
  have hceiling : (10 : ℤ) ^ (Precision.maxDigits + d.digits) ≥ d.mantissa * 10 ^ d.exponent.toNat + 1 := by
    rw [sub_add_cancel, zpow_natCast] at hhigh
    exact_mod_cast hhigh
  have hnearest : nearest (((d.mantissa * 10 ^ d.exponent.toNat : ℤ) : ℚ) + 1 / 2) =
      d.mantissa * 10 ^ d.exponent.toNat + 1 := by
    rw [nearest, add_assoc, add_halves, Int.floor_add_one, Int.floor_intCast]
  rw [toRat_round_eq, toRat_eq_cast hexponent, rounded_eq (hlow.trans (by linarith)) ?_, sub_sub_cancel_left,
    neg_add_cancel, zpow_zero, div_one, mul_one, Int.floor_intCast, hnearest, Int.cast_add, Int.cast_one]
  rw [sub_add_cancel, zpow_natCast]
  have hbound : ((d.mantissa * 10 ^ d.exponent.toNat + 1 : ℤ) : ℚ) ≤ 10 ^ (Precision.maxDigits + d.digits) := by
    exact_mod_cast hceiling
  rw [Int.cast_add, Int.cast_one] at hbound
  linarith

/-- The result is the nearest whole number, but for a positive number with its last digit at
`10 ^ 1000`, where it is one too great. -/
theorem toRat_round (d : Decimal) : d.round.toRat =
    if 0 < d.mantissa ∧ d.exponent = Precision.maxDigits then d.toRat + 1 else nearest d.toRat := by
  split
  · rename_i h
    exact toRat_round_of_stretch h.1 h.2
  · rename_i h
    rcases lt_or_ge d.exponent 0 with he | he
    · rw [toRat_round_eq, floor_rounded_of_fraction he]
    · rw [toRat_round_of_whole he h, toRat_eq_cast he, nearest_intCast]

/-- A number that is not huge is rounded to a whole number without error. -/
theorem toRat_round_of_lt {d : Decimal} (h : |d.toRat| < 10 ^ (1000 : ℤ)) : d.round.toRat = nearest d.toRat := by
  rw [toRat_round, if_neg]
  rintro ⟨hm, he⟩
  have hlow := (leading_bounds hm.ne').1
  have hless := ten_zpow_lt.mp (hlow.trans_lt h)
  rw [leading_of_stretch he, digits, Precision.maxDigits] at hless
  have hcount := Digits.count_pos d.mantissa.natAbs
  omega

/-! ### Digits of whole numbers -/

/-- One more than a number with `p` digits and so many zeros behind them, with either sign. -/
def Stretched (p : ℕ) (q : ℚ) : Prop := ∃ n : ℕ, 0 < n ∧ n < 10 ^ p ∧ |q| = n * 10 ^ Precision.maxDigits + 1

section
variable {p : ℕ} {q : ℚ}

theorem Stretched.neg (h : Stretched p q) : Stretched p (-q) := by
  rwa [Stretched, abs_neg]

theorem Stretched.whole (h : Stretched p q) : ∃ z : ℤ, q = z := by
  obtain ⟨n, -, -, hq⟩ := h
  have hcast : (n * 10 ^ Precision.maxDigits + 1 : ℚ) = (n * 10 ^ Precision.maxDigits + 1 : ℤ) := by push_cast; rfl
  rw [hcast] at hq
  rcases eq_or_eq_neg_of_abs_eq hq with h | h
  · exact ⟨_, h⟩
  · exact ⟨-(n * 10 ^ Precision.maxDigits + 1), by rw [h, Int.cast_neg]⟩

/-- A stretched number lies just above one with `p` digits. -/
theorem stretched_bounds {n : ℕ} (hn : 0 < n) : ∃ k : ℤ, Precision.maxDigits ≤ k ∧
    (10 : ℚ) ^ k ≤ n * 10 ^ Precision.maxDigits ∧ (n * 10 ^ Precision.maxDigits + 1 : ℚ) < 10 ^ (k + 1) := by
  refine ⟨Nat.log 10 n + Precision.maxDigits, by omega, ?_, ?_⟩
  · rw [ten_zpow_add, zpow_natCast, zpow_natCast]
    exact mul_le_mul_of_nonneg_right (by exact_mod_cast Nat.pow_log_le_self 10 hn.ne') (by positivity)
  · have hsucc : (n : ℚ) + 1 ≤ 10 ^ (Nat.log 10 n + 1) := by
      exact_mod_cast Nat.lt_pow_succ_log_self (by decide : 1 < 10) n
    have hone : (1 : ℚ) < 10 ^ Precision.maxDigits := one_lt_pow₀ (by norm_num) (by decide)
    have hplace : (Nat.log 10 n + Precision.maxDigits + 1 : ℤ) = (Nat.log 10 n + 1 : ℕ) + Precision.maxDigits := by
      push_cast
      ring
    rw [hplace, ten_zpow_add, zpow_natCast, zpow_natCast]
    calc (n * 10 ^ Precision.maxDigits + 1 : ℚ)
        < (n + 1) * 10 ^ Precision.maxDigits := by linarith
      _ ≤ 10 ^ (Nat.log 10 n + 1) * 10 ^ Precision.maxDigits := mul_le_mul_of_nonneg_right hsucc (by positivity)

theorem Stretched.isolated (hp : 0 < p) (hmax : p ≤ Precision.maxDigits) (h : Stretched p q) : Isolated p q := by
  obtain ⟨n, hn, hdigits, hq⟩ := h
  obtain ⟨k, hk, hlow, hhigh⟩ := stretched_bounds hn
  have hfits : Fits p (n * 10 ^ Precision.maxDigits) := by
    refine ⟨n, Precision.maxDigits, ?_, by rw [Int.cast_natCast, zpow_natCast]⟩
    rw [Nat.abs_cast]
    exact_mod_cast hdigits
  have hunit : (10 : ℚ) ^ (1 : ℤ) ≤ 10 ^ (k - p + 1) := ten_zpow_le.mpr (by omega)
  rw [zpow_one] at hunit
  have habs : Isolated p |q| := by
    rw [hq]
    exact isolated_of_near hp hfits hlow (by linarith) (by linarith) hhigh
  rcases abs_choice q with h | h
  · rwa [h] at habs
  · rw [h] at habs
    simpa using habs.neg

/-- A stretched number has more than `p` digits. -/
theorem Stretched.not_fits (hmax : p ≤ Precision.maxDigits) (h : Stretched p q) : ¬ Fits p q := by
  intro hfits
  obtain ⟨n, hn, -, hq⟩ := h
  obtain ⟨k, hk, hlow, hhigh⟩ := stretched_bounds hn
  have habs : Fits p |q| := by
    rcases abs_choice q with h | h <;> rw [h]
    · exact hfits
    · exact hfits.neg
  rw [hq] at habs
  obtain ⟨m, -, hm⟩ := habs.exists_mul (hlow.trans (by linarith)) hhigh
  have hcast : n * 10 ^ Precision.maxDigits + 1 = m * 10 ^ (k - p + 1).toNat := by
    rw [← Int.toNat_of_nonneg (by omega : 0 ≤ k - p + 1), zpow_natCast] at hm
    exact_mod_cast hm
  have hdvd : 10 ∣ n * 10 ^ Precision.maxDigits + 1 := by
    rw [hcast]
    exact Dvd.dvd.mul_left (dvd_pow_self 10 (by omega)) m
  have hdvd' : 10 ∣ n * 10 ^ Precision.maxDigits := Dvd.dvd.mul_left (dvd_pow_self 10 (by decide)) n
  exact absurd ((Nat.dvd_add_right hdvd').mp hdvd) (by decide)

/-- A whole number near a fraction with at most `p` digits has at most `p` digits. -/
theorem fits_whole {d : Decimal} (hd : d.exponent < 0) (hdigits : d.digits ≤ p) {n : ℤ} (hn : |(n : ℚ)| ≤ |d.toRat| + 1) :
    Fits p n := by
  have hp : 0 < p := (Digits.count_pos _).trans_le hdigits
  have hm : (|d.mantissa| : ℚ) ≤ 10 ^ p := by
    exact_mod_cast d.mantissa_lt.le.trans (pow_le_pow_right₀ (by decide) hdigits)
  have hten : (10 : ℚ) ≤ 10 ^ p := le_self_pow₀ (by norm_num) hp.ne'
  have hfraction : |d.toRat| ≤ 10 ^ p / 10 := by
    have hpower : (10 : ℚ) ^ d.exponent ≤ 10 ^ (-1 : ℤ) := ten_zpow_le.mpr (by omega)
    rw [zpow_neg_one] at hpower
    rw [toRat, abs_mul, abs_of_pos (ten_zpow_pos _), div_eq_mul_inv]
    exact mul_le_mul hm hpower (ten_zpow_pos _).le (by positivity)
  have hle : |(n : ℚ)| ≤ 10 ^ p := by linarith
  have hfits := fits_mul_ten_zpow hp (by exact_mod_cast hle : |n| ≤ 10 ^ p) 0
  rwa [zpow_zero, mul_one] at hfits

end

/-- In normal form with no more digits than the precision, or stretched by the rounding of such a number. -/
def Bounded (p : Precision) (d : Decimal) : Prop := d.Normal ∧ (d.digits ≤ p.digits ∨ Stretched p.digits d.toRat)

section
variable {p : Precision} {d : Decimal}

theorem Within.bounded (h : d.Within p) : d.Bounded p := ⟨h.normal, .inl h.digits_le⟩

theorem Bounded.isolated (hmax : p.digits ≤ Precision.maxDigits) (h : d.Bounded p) : Isolated p.digits d.toRat := by
  rcases h.2 with h | h
  · exact isolated_of_digits h
  · exact h.isolated p.digits_pos hmax

theorem Bounded.neg (h : d.Bounded p) : d.neg.Bounded p := by
  refine ⟨h.1.neg, h.2.imp (fun h => ?_) fun h => ?_⟩
  · rwa [digits, Decimal.neg, Int.natAbs_neg]
  · rw [toRat_neg]
    exact h.neg

theorem Bounded.abs (h : d.Bounded p) : d.abs.Bounded p := by
  refine ⟨h.1.abs, h.2.imp (fun h => ?_) fun h => ?_⟩
  · rwa [digits, Decimal.abs, Int.natAbs_natCast]
  · rwa [Stretched, toRat_abs, abs_abs]

/-- A whole number within one of a number, and equal to it if that is whole, has no more digits. -/
theorem Within.of_whole (h : d.Within p) {z : Decimal} (hz : z.Normal) {n : ℤ} (hvalue : z.toRat = n)
    (hnear : |(n : ℚ)| ≤ |d.toRat| + 1) (hwhole : ∀ m : ℤ, d.toRat = m → n = m) : z.Within p := by
  refine ⟨hz, hz.digits_le p.digits_pos ?_⟩
  rw [hvalue]
  rcases lt_or_ge d.exponent 0 with he | he
  · exact fits_whole he h.digits_le hnear
  · rw [hwhole _ (toRat_eq_cast he), ← toRat_eq_cast he]
    exact fits_of_digits h.digits_le

theorem Bounded.of_whole (h : d.Bounded p) {z : Decimal} (hz : z.Normal) {n : ℤ} (hvalue : z.toRat = n)
    (hnear : |(n : ℚ)| ≤ |d.toRat| + 1) (hwhole : ∀ m : ℤ, d.toRat = m → n = m) : z.Bounded p := by
  rcases h.2 with h' | h'
  · exact (Within.of_whole ⟨h.1, h'⟩ hz hvalue hnear hwhole).bounded
  · obtain ⟨m, hm⟩ := h'.whole
    refine ⟨hz, .inr ?_⟩
    rwa [hvalue, hwhole m hm, ← hm]

theorem Bounded.floor (h : d.Bounded p) : d.floor.Bounded p := by
  refine h.of_whole h.1.floor d.toRat_floor ?_ fun m hm => ?_
  · have hlow := Int.sub_one_lt_floor d.toRat
    have hhigh := Int.floor_le d.toRat
    rw [abs_le]
    constructor <;> linarith [neg_abs_le d.toRat, le_abs_self d.toRat]
  · rw [hm, Int.floor_intCast]

theorem Bounded.ceil (h : d.Bounded p) : d.ceil.Bounded p := h.neg.floor.neg

theorem Normal.round (hd : d.Normal) : d.round.Normal := (hd.add (normal_ofParts _ _) _).normal.floor

/-- The result of rounding a number that the rounding stretches. -/
theorem stretched_round (h : d.digits ≤ p.digits) (hm : 0 < d.mantissa) (he : d.exponent = Precision.maxDigits) :
    Stretched p.digits d.round.toRat := by
  have hround := toRat_round_of_stretch hm he
  have hvalue := abs_toRat d
  rw [he, zpow_natCast, abs_of_pos (toRat_pos_iff.mpr hm)] at hvalue
  refine ⟨d.mantissa.natAbs, Int.natAbs_pos.mpr hm.ne', ?_, ?_⟩
  · exact (Digits.lt_pow_count _).trans_le (Nat.pow_le_pow_right (by decide) h)
  · rw [hround, hvalue, abs_of_pos (by positivity)]

/-- A stretched number is not stretched again. -/
theorem Stretched.ne_round (h : Stretched p.digits d.toRat) : d.exponent ≠ Precision.maxDigits := by
  intro he
  obtain ⟨n, -, -, hn⟩ := h
  rw [abs_toRat, he, zpow_natCast] at hn
  have hcast : d.mantissa.natAbs * 10 ^ Precision.maxDigits = n * 10 ^ Precision.maxDigits + 1 := by exact_mod_cast hn
  have hdvd : 10 ∣ 10 ^ Precision.maxDigits := dvd_pow_self 10 (by decide)
  have hone := (Nat.dvd_add_right (hdvd.mul_left n)).mp (hcast ▸ hdvd.mul_left d.mantissa.natAbs)
  exact absurd hone (by decide)

theorem nearest_near (q : ℚ) : |(nearest q : ℚ)| ≤ |q| + 1 := by
  obtain ⟨hlow, hhigh⟩ := nearest_bounds q
  rw [abs_le]
  constructor <;> linarith [neg_abs_le q, le_abs_self q]

theorem nearest_of_whole {q : ℚ} (m : ℤ) (h : q = m) : nearest q = m := by
  rw [h, nearest_intCast]

theorem Bounded.round (h : d.Bounded p) : d.round.Bounded p := by
  by_cases hplace : 0 < d.mantissa ∧ d.exponent = Precision.maxDigits
  · refine ⟨h.1.round, .inr ?_⟩
    rcases h.2 with h' | h'
    · exact stretched_round h' hplace.1 hplace.2
    · exact absurd hplace.2 h'.ne_round
  · have hvalue := toRat_round d
    rw [if_neg hplace] at hvalue
    exact h.of_whole h.1.round hvalue (nearest_near _) nearest_of_whole

/-- The nearest whole number has more digits than the precision exactly if the number is stretched. -/
theorem Within.lt_digits_round_iff (hmax : p.digits ≤ Precision.maxDigits) (h : d.Within p) :
    p.digits < d.round.digits ↔ 0 < d.mantissa ∧ d.exponent = Precision.maxDigits := by
  constructor
  · intro hlt
    by_contra hplace
    have hvalue := toRat_round d
    rw [if_neg hplace] at hvalue
    have hwithin := h.of_whole h.normal.round hvalue (nearest_near _) nearest_of_whole
    exact absurd hwithin.digits_le (not_le.mpr hlt)
  · intro hplace
    refine not_le.mp fun hle => ?_
    exact (stretched_round h.digits_le hplace.1 hplace.2).not_fits hmax (fits_of_digits hle)

end

/-! ### Integral parts -/

theorem Normal.eq_ofInt {d : Decimal} (hd : d.Normal) {n : ℤ} (h : d.toRat = n) : d = ofInt n :=
  hd.eq_of_toRat (normal_ofInt n) (h.trans (toRat_ofInt n).symm)

/-- The nearest whole number of one with its last digit at `10 ^ 1000` is one too great, if that is positive. -/
theorem toRat_round_eq_floor (d : Decimal) : d.round.toRat =
    (if 0 < d.mantissa ∧ d.exponent = Precision.maxDigits then ⌊d.toRat + 1 / 2⌋ + 1 else ⌊d.toRat + 1 / 2⌋ : ℤ) := by
  rw [toRat_round]
  split
  · rename_i h
    have hexponent : 0 ≤ d.exponent := h.2 ▸ Int.natCast_nonneg _
    have hwhole := nearest_of_whole _ (toRat_eq_cast hexponent)
    rw [nearest] at hwhole
    rw [hwhole, Int.cast_add, Int.cast_one, ← toRat_eq_cast hexponent]
  · rfl

/-- The greatest whole number below a number and the least one above it are exact, whatever its length and its exponent,
and so is the nearest one, halves up, but for a positive number with its last digit at `10 ^ 1000`. -/
theorem integral_parts_exact_unless_stretched (d : Decimal) (hd : d.Normal) :
    d.floor = ofInt ⌊d.toRat⌋ ∧ d.ceil = ofInt ⌈d.toRat⌉ ∧
      d.round = ofInt (if 0 < d.mantissa ∧ d.exponent = Precision.maxDigits then ⌊d.toRat + 1 / 2⌋ + 1
        else ⌊d.toRat + 1 / 2⌋) :=
  ⟨hd.floor.eq_ofInt d.toRat_floor, hd.ceil.eq_ofInt d.toRat_ceil, hd.round.eq_ofInt d.toRat_round_eq_floor⟩

/-- The nearest whole number of `10 ^ 1000` is not the number itself; that of a negative half is the one above it. -/
theorem round_power_stretched :
    Normal ⟨1, 1000⟩ ∧ round ⟨1, 1000⟩ = ofInt (10 ^ 1000 + 1) ∧
      Normal ⟨-25, -1⟩ ∧ floor ⟨-25, -1⟩ = ofInt (-3) ∧ ceil ⟨-25, -1⟩ = ofInt (-2) ∧ round ⟨-25, -1⟩ = ofInt (-2) := by
  have hpower : Normal ⟨1, 1000⟩ := .inr (by decide)
  have hhalf : Normal ⟨-25, -1⟩ := .inr (by decide)
  refine ⟨hpower, ?_, hhalf, ?_⟩
  · have hvalue : toRat ⟨1, 1000⟩ = (10 ^ 1000 : ℤ) := by
      rw [toRat, Int.cast_one, one_mul, Int.cast_pow, Int.cast_ofNat]
      exact zpow_natCast 10 1000
    have hfloor : ⌊toRat ⟨1, 1000⟩ + 1 / 2⌋ = 10 ^ 1000 := nearest_of_whole _ hvalue
    rw [(integral_parts_exact_unless_stretched _ hpower).2.2, if_pos ⟨by decide, rfl⟩, hfloor]
  · have hvalue : toRat ⟨-25, -1⟩ = -5 / 2 := by norm_num [toRat]
    obtain ⟨hfloor, hceil, hround⟩ := integral_parts_exact_unless_stretched _ hhalf
    rw [hvalue] at hfloor hceil hround
    rw [if_neg (by decide)] at hround
    rw [hfloor, hceil, hround]
    norm_num

end Calculator.Decimal
