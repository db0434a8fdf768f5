import Calculator.Proofs.Decimal.Functions
import Calculator.Proofs.Decimal.Logarithm
/-!
Logarithms to base 10 and 2. The quotient of two natural logarithms has a small relative error. A quotient near a whole
number is taken for that one, which makes the logarithms of powers whole, but also takes quotients near zero for zero.
-/
namespace Calculator.Decimal

/-! ### The quotient -/

section
variable {x base c d : Decimal} {p : Precision}

/-- A logarithm has a small relative error if the errors of its parts are small beside it. -/
theorem exists_ln?_near {places : ℕ} {ε : ℝ} (hp : p.digits ≤ 10 ^ 12) (hplaces : places + 3 ≤ 10 ^ 14)
    (hx : 0 < x.toRat) (hcount : Digits.count x.leading.natAbs ≤ 16) (hfar : x.significand.FarFromOne places) (hε : ε ≤ 1 / 20)
    (hmass : (p.digits + 1730) / 300 / 10 ^ (p.digits + 13) * x.logMass ≤ ε * |Real.log x.toRat|) :
    ∃ c, x.ln? p = some c ∧ |c.toRat - Real.log x.toRat| ≤ (ε + 11 / 2 / 10 ^ p.digits) * |Real.log x.toRat| := by
  obtain ⟨s, ⟨c, hc, hvalue⟩, herror⟩ := exists_ln? (p := p) places (by omega) hplaces hx hcount hfar
  have hlog := abs_nonneg (Real.log x.toRat)
  have hunit : (0 : ℝ) < 1 / 10 ^ p.digits := by positivity
  have hunit' : 1 / (10 : ℝ) ^ p.digits ≤ 1 := (div_le_one (by positivity)).mpr (one_le_pow₀ (by norm_num))
  have hrest : |Real.log x.toRat| / 10 ^ (p.digits + 12) =
      1 / 10 ^ 12 * (1 / 10 ^ p.digits) * |Real.log x.toRat| := by
    rw [pow_add]
    ring
  have hbefore : |s - Real.log x.toRat| ≤ (ε + 1 / 10 ^ 12 * (1 / 10 ^ p.digits)) * |Real.log x.toRat| := by
    rw [hrest] at herror
    linarith
  have hround : |(c.toRat : ℝ) - s| ≤ 5 * (1 / 10 ^ p.digits) * |(s : ℝ)| := by
    have hround := abs_rounded_sub_le p.digits_pos s
    rw [← hvalue, roundoff] at hround
    refine hround.trans_eq ?_
    ring
  have hsize : |(s : ℝ)| ≤ 106 / 100 * |Real.log x.toRat| := by
    have hsize := abs_sub_abs_le_abs_sub (s : ℝ) (Real.log x.toRat)
    have hfactor : ε + 1 / 10 ^ 12 * (1 / 10 ^ p.digits) ≤ 6 / 100 := by linarith
    linarith [mul_le_mul_of_nonneg_right hfactor hlog]
  refine ⟨c, hc, ?_⟩
  have htriangle := abs_sub_le (c.toRat : ℝ) s (Real.log x.toRat)
  have hscale := mul_le_mul_of_nonneg_left hsize (by positivity : (0 : ℝ) ≤ 5 * (1 / 10 ^ p.digits))
  have hsplit : (11 : ℝ) / 2 / 10 ^ p.digits = 11 / 2 * (1 / 10 ^ p.digits) := by ring
  rw [hsplit]
  have hproduct := mul_nonneg hunit.le hlog
  linarith

/-- A logarithm whose parts do not have opposite signs. -/
theorem exists_ln?_near_of_mass {places : ℕ} (hp : p.digits ≤ 10 ^ 12) (hplaces : places + 3 ≤ 10 ^ 14)
    (hx : 0 < x.toRat) (hcount : Digits.count x.leading.natAbs ≤ 16) (hfar : x.significand.FarFromOne places)
    (hmass : x.logMass = |Real.log x.toRat|) :
    ∃ c, x.ln? p = some c ∧ |c.toRat - Real.log x.toRat| ≤ 6 / 10 ^ p.digits * |Real.log x.toRat| := by
  have hp' : (p.digits : ℝ) ≤ 10 ^ 12 := by exact_mod_cast hp
  have hunit' : 1 / (10 : ℝ) ^ p.digits ≤ 1 := (div_le_one (by positivity)).mpr (one_le_pow₀ (by norm_num))
  have hwide : (p.digits + 1730 : ℝ) / 300 / 10 ^ (p.digits + 13) ≤ 1 / 2 / 10 ^ p.digits / 10 := by
    rw [pow_add, div_div, div_div, div_div, div_le_div_iff₀ (by positivity) (by positivity)]
    have hpow : (0 : ℝ) < 10 ^ p.digits := by positivity
    linarith [mul_le_mul_of_nonneg_right hp' hpow.le]
  have hsmall : (1 : ℝ) / 2 / 10 ^ p.digits / 10 ≤ 1 / 20 := by
    have hsplit : (1 : ℝ) / 2 / 10 ^ p.digits / 10 = 1 / 20 * (1 / 10 ^ p.digits) := by ring
    rw [hsplit]
    linarith
  obtain ⟨c, hc, herror⟩ := exists_ln?_near hp hplaces hx hcount hfar hsmall
    (by rw [hmass]; exact mul_le_mul_of_nonneg_right hwide (abs_nonneg _))
  refine ⟨c, hc, herror.trans (mul_le_mul_of_nonneg_right ?_ (abs_nonneg _))⟩
  have hsplit : (1 : ℝ) / 2 / 10 ^ p.digits / 10 + 11 / 2 / 10 ^ p.digits = 111 / 20 * (1 / 10 ^ p.digits) := by ring
  have hsplit' : (6 : ℝ) / 10 ^ p.digits = 6 * (1 / 10 ^ p.digits) := by ring
  rw [hsplit, hsplit']
  gcongr
  norm_num

/-- The quotient of two numbers with small relative errors. -/
theorem exists_quotient {L B ε : ℝ} (hB : 0 < B) (hε : 6 / 10 ^ p.digits ≤ ε) (hε' : ε ≤ 1 / 1000)
    (hc : |c.toRat - L| ≤ ε * |L|) (hd : |d.toRat - B| ≤ ε * B) {low high : ℤ} (hlow : 2 * 10 ^ low ≤ |L / B|)
    (hhigh : 2 * |L / B| ≤ 10 ^ high) (hmin : -maxExponent ≤ low) (hmax : high ≤ maxExponent) :
    ∃ q, c.div? d p = some q ∧ |q.toRat - L / B| ≤ 3 * ε * |L / B| := by
  have hd' : 999 / 1000 * B ≤ d.toRat := by
    linarith [(abs_le.mp hd).1, mul_le_mul_of_nonneg_right hε' hB.le]
  have hdpos : (0 : ℝ) < d.toRat := by linarith
  have hy := abs_nonneg (L / B)
  have hnonneg : 0 ≤ ε := (by positivity : (0 : ℝ) ≤ 6 / 10 ^ p.digits).trans hε
  have hexact : |(c.toRat / d.toRat : ℝ) - L / B| ≤ 201 / 100 * ε * |L / B| := by
    have hsplit : (c.toRat / d.toRat : ℝ) - L / B = ((c.toRat - L) - L / B * (d.toRat - B)) / d.toRat := by
      field_simp
      ring
    have htriangle := abs_sub (c.toRat - L : ℝ) (L / B * (d.toRat - B))
    have hsecond : |L / B * (d.toRat - B)| ≤ ε * |L| := by
      rw [abs_mul, abs_div, abs_of_pos hB, div_mul_eq_mul_div, div_le_iff₀ hB]
      linarith [mul_le_mul_of_nonneg_left hd (abs_nonneg L)]
    rw [hsplit, abs_div, abs_of_pos hdpos, div_le_iff₀ hdpos]
    have hmass : |L| = |L / B| * B := by rw [abs_div, abs_of_pos hB, div_mul_cancel₀ _ hB.ne']
    rw [hmass] at hsecond hc
    have hscale := mul_le_mul_of_nonneg_left hd' (mul_nonneg hnonneg hy)
    have hproduct := mul_nonneg (mul_nonneg hnonneg hy) hB.le
    linarith
  have hquotient : |(c.toRat / d.toRat : ℝ)| ≤ 101 / 100 * |L / B| ∧ 99 / 100 * |L / B| ≤ |(c.toRat / d.toRat : ℝ)| := by
    have hless := abs_sub_abs_le_abs_sub (c.toRat / d.toRat : ℝ) (L / B)
    have hmore := abs_sub_abs_le_abs_sub (L / B) (c.toRat / d.toRat : ℝ)
    rw [abs_sub_comm (L / B)] at hmore
    constructor <;> linarith [mul_le_mul_of_nonneg_right hε' hy]
  have hcast : ((|c.toRat / d.toRat| : ℚ) : ℝ) = |(c.toRat / d.toRat : ℝ)| := by push_cast; rfl
  have hlow' : (10 : ℚ) ^ low ≤ |c.toRat / d.toRat| := by
    rw [← Rat.cast_le (K := ℝ), hcast]
    push_cast
    linarith
  have hhigh' : |c.toRat / d.toRat| ≤ (10 : ℚ) ^ high := by
    rw [← Rat.cast_le (K := ℝ), hcast]
    push_cast
    linarith
  have hdivisor : d.toRat ≠ 0 := by exact_mod_cast hdpos.ne'
  obtain ⟨q, hq, hvalue⟩ := div?_of_between hdivisor hlow' hhigh' hmin hmax p
  refine ⟨q, hq, ?_⟩
  have hround := abs_rounded_sub_le p.digits_pos (c.toRat / d.toRat)
  rw [← hvalue, Rat.cast_div] at hround
  have hroundoff : roundoff p.digits ≤ 5 / 6 * ε := by
    rw [roundoff]
    refine le_trans (le_of_eq ?_) (mul_le_mul_of_nonneg_left hε (by norm_num : (0 : ℝ) ≤ 5 / 6))
    ring
  have hscale : roundoff p.digits * |(c.toRat / d.toRat : ℝ)| ≤ 5 / 6 * ε * (101 / 100 * |L / B|) := by
    gcongr
    exact hquotient.1
  have htriangle := abs_sub_le (q.toRat : ℝ) (c.toRat / d.toRat) (L / B)
  have hproduct := mul_nonneg hnonneg hy
  linarith

/-- A number that logarithms are taken to the base of: its own logarithm is found, with a small relative error. -/
structure IsBase (base : Decimal) : Prop where
  half_le : 1 / 2 ≤ Real.log base.toRat
  le : Real.log base.toRat ≤ 232 / 100
  exists_ln (p : Precision) (hp : p.digits ≤ 10 ^ 12) :
    ∃ d, base.ln? p = some d ∧ |d.toRat - Real.log base.toRat| ≤ 6 / 10 ^ p.digits * Real.log base.toRat

theorem isBase_of_mem (hbase : 2 ≤ base.toRat) (hbase' : base.toRat ≤ 10) (hrange : base.inRange = true)
    (hfar : base.significand.FarFromOne 0) : IsBase base where
  half_le := by
    have hmono := Real.log_le_log (by norm_num) (by exact_mod_cast hbase : (2 : ℝ) ≤ base.toRat)
    linarith [Real.log_two_gt_d9]
  le := by
    have hpos : (0 : ℝ) < base.toRat := by exact_mod_cast (by linarith : 0 < base.toRat)
    have hmono := Real.log_le_log hpos (by exact_mod_cast hbase' : (base.toRat : ℝ) ≤ 10)
    linarith [log_ten_lt]
  exists_ln p hp := by
    have hone : 1 ≤ base.toRat := by linarith
    have hlog : 0 ≤ Real.log base.toRat := Real.log_nonneg (by exact_mod_cast hone)
    have hnear := exists_ln?_near_of_mass hp (by norm_num) (by linarith)
      (count_leading_le (by linarith) hrange) hfar
      ((logMass_of_one_le hone).trans (abs_of_nonneg hlog).symm)
    rwa [abs_of_nonneg hlog] at hnear

theorem toRat_two : two.toRat = 2 := toRat_ofInt 2

theorem isBase_ten : IsBase (ofInt 10) := by
  refine isBase_of_mem (by rw [toRat_ofInt]; norm_num) (by rw [toRat_ofInt]; norm_num) (by decide +kernel) (.inl ?_)
  have hleading : (ofInt 10).leading = 1 := by decide +kernel
  rw [toRat_significand, hleading, toRat_ofInt]
  norm_num

theorem isBase_two : IsBase two := by
  refine isBase_of_mem toRat_two.ge (by rw [toRat_two]; norm_num) (by decide +kernel) (farFromOne_of_two_le ?_)
  have hleading : two.leading = 0 := by decide +kernel
  rw [toRat_significand, hleading, toRat_two]
  norm_num

theorem abs_log_le (hx : 0 < x.toRat) (hrange : x.inRange = true) : |Real.log x.toRat| ≤ 10 ^ 17 := by
  have hleading : |(x.leading : ℝ)| ≤ 10 ^ 16 := by
    have hcount := (Digits.count_le_iff (by decide)).mp (count_leading_le hx hrange)
    have hlt : |x.leading| ≤ 10 ^ 16 := by
      rw [Int.abs_eq_natAbs]
      omega
    exact_mod_cast hlt
  obtain ⟨hlow, hhigh⟩ := log_significand_mem hx
  have hten := log_ten_lt
  have htriangle := abs_add_le (Real.log x.significand.toRat) (x.leading * Real.log 10)
  rw [← log_split hx, abs_of_nonneg hlow, abs_mul, abs_of_nonneg (hlow.trans hhigh)] at htriangle
  have hscale := mul_le_mul_of_nonneg_right hleading (hlow.trans hhigh)
  linarith

theorem IsBase.log_pos (hbase : IsBase base) : 0 < Real.log base.toRat := by linarith [hbase.half_le]

theorem IsBase.abs_log_div_le (hbase : IsBase base) (hx : 0 < x.toRat) (hrange : x.inRange = true) :
    |Real.log x.toRat / Real.log base.toRat| ≤ 2 * 10 ^ 17 := by
  rw [abs_div, abs_of_pos hbase.log_pos, div_le_iff₀ hbase.log_pos]
  linarith [abs_log_le hx hrange, hbase.half_le]

/-- What a quotient near a whole number becomes. -/
def snap (p : Precision) (r : Decimal) : Decimal :=
  if ((r.sub r.round (p.guard guardDigits)).abs).leading < -p.digits then r.round else r

/-- A logarithm to a base is found by way of a quotient with a small relative error. -/
theorem exists_logBase? {places : ℕ} {ε : ℝ} (hbase : IsBase base) (hp : p.digits ≤ 10 ^ 11) (hx : 0 < x.toRat)
    (hrange : x.inRange = true) (hplaces : places ≤ 10 ^ 14) (hε : 6 / 10 ^ (p.digits + 10) ≤ ε) (hε' : ε ≤ 1 / 1000)
    (hc : x.ln? (p.guard guardDigits) = some c) (herror : |c.toRat - Real.log x.toRat| ≤ ε * |Real.log x.toRat|)
    (hfar : Real.log x.toRat = 0 ∨ 2 * 10 ^ (-places : ℤ) ≤ |Real.log x.toRat / Real.log base.toRat|) :
    ∃ q : Decimal, q.Normal ∧ logBase? base x p = some (snap p (q.roundTo p)) ∧
      |q.toRat - Real.log x.toRat / Real.log base.toRat| ≤
        3 * ε * |Real.log x.toRat / Real.log base.toRat| := by
  obtain ⟨wp, hwp⟩ : ∃ wp, wp = p.guard guardDigits := ⟨_, rfl⟩
  have hdigits : wp.digits = p.digits + 10 := by rw [hwp, Precision.guard, guardDigits]
  obtain ⟨d, hd, hderror⟩ := hbase.exists_ln wp (by omega)
  have hbasepos := hbase.log_pos
  rw [hdigits] at hderror
  have hderror' := hderror.trans (mul_le_mul_of_nonneg_right hε hbasepos.le)
  have hquotient : ∃ q, c.div? d wp = some q ∧ |q.toRat - Real.log x.toRat / Real.log base.toRat| ≤
      3 * ε * |Real.log x.toRat / Real.log base.toRat| := by
    rcases hfar with hzero | hfar
    · have hczero : c.toRat = 0 := by
        rw [hzero, abs_zero, mul_zero, sub_zero] at herror
        exact_mod_cast abs_nonpos_iff.mp herror
      have hdzero : d.toRat ≠ 0 := by
        intro hdzero
        rw [hdzero, Rat.cast_zero, zero_sub, abs_neg, abs_of_pos hbasepos] at hderror'
        linarith [mul_le_mul_of_nonneg_right hε' hbasepos.le]
      refine ⟨zero, div?_of_zero_left hczero hdzero wp, ?_⟩
      rw [hzero, toRat_zero, zero_div, Rat.cast_zero, sub_zero, abs_zero, mul_zero]
    · have hhigh : 2 * |Real.log x.toRat / Real.log base.toRat| ≤ 10 ^ (18 : ℤ) := by
        have hten : (10 : ℝ) ^ (18 : ℤ) = 10 * 10 ^ 17 := by norm_num
        linarith [hbase.abs_log_div_le hx hrange]
      refine exists_quotient hbasepos (hdigits ▸ hε) hε' herror hderror' hfar hhigh ?_ (by decide)
      unfold maxExponent
      omega
  obtain ⟨q, hq, hqerror⟩ := hquotient
  refine ⟨q, (within_of_div? hq).normal, ?_, hqerror⟩
  rw [logBase?]
  dsimp only
  rw [← hwp] at hc ⊢
  rw [hc, Option.bind_eq_bind, Option.bind_some, hd, Option.bind_some, hq, Option.bind_some, snap, ← hwp]
  split <;> rfl

end

/-! ### Near whole numbers -/

section
variable {p : Precision} {r : Decimal}

theorem Normal.snap (hr : r.Normal) : (snap p r).Normal := by
  rw [Decimal.snap]
  split
  · exact hr.round
  · exact hr

/-- A whole number remains as it is. -/
theorem toRat_snap_of_whole {n : ℤ} (hr : r.toRat = n) (h : |r.toRat| < 10 ^ (1000 : ℤ)) : (snap p r).toRat = n := by
  rw [snap]
  split
  · rw [toRat_round_of_lt h, hr, nearest_intCast]
  · exact hr

/-- The difference from the nearest whole number is not rounded. -/
theorem toRat_sub_round (hr : r.Within p) (h : |r.toRat| < 10 ^ (1000 : ℤ)) :
    (r.sub r.round (p.guard guardDigits)).toRat = rounded (p.guard guardDigits).digits (r.toRat - nearest r.toRat) := by
  have hround := hr.of_whole hr.normal.round (toRat_round_of_lt h) (nearest_near _) nearest_of_whole
  have hguard : p.digits ≤ (p.guard guardDigits).digits := Nat.le_add_right ..
  rw [toRat_sub (isolated_of_digits (hr.digits_le.trans hguard)) (isolated_of_digits (hround.digits_le.trans hguard)),
    toRat_round_of_lt h]

/-- A number keeps its sign, unless it is less than the `p`-th place after the point and becomes zero. -/
theorem sign_snap (hr : r.Within p) (h : |r.toRat| < 10 ^ (1000 : ℤ)) :
    SignType.sign (snap p r).toRat =
      if |r.toRat| < 10 ^ (-p.digits : ℤ) then 0 else SignType.sign r.toRat := by
  obtain ⟨hbelow, habove⟩ := nearest_bounds r.toRat
  rcases eq_or_ne r.toRat 0 with hzero | hzero
  · have hsnap := toRat_snap_of_whole (p := p) (n := 0) (by rw [hzero, Int.cast_zero]) h
    rw [hsnap, hzero, Int.cast_zero, sign_zero, ite_self]
  rcases eq_or_ne (nearest r.toRat) 0 with hnear | hnear
  · -- The difference is the number itself.
    have hsub := toRat_sub_round hr h
    have hguard : p.digits ≤ (p.guard guardDigits).digits := Nat.le_add_right ..
    rw [hnear, Int.cast_zero, sub_zero, rounded_of_fits (fits_of_digits (hr.digits_le.trans hguard))] at hsub
    have habs : (r.sub r.round (p.guard guardDigits)).abs.toRat = |r.toRat| := by rw [toRat_abs, hsub]
    have hiff := leading_lt_iff (d := (r.sub r.round (p.guard guardDigits)).abs) (k := -p.digits)
      (by rw [habs]; exact abs_ne_zero.mpr hzero)
    rw [habs, abs_abs] at hiff
    rw [snap]
    by_cases hsmall : |r.toRat| < 10 ^ (-p.digits : ℤ)
    · rw [if_pos (hiff.mpr hsmall), if_pos hsmall, toRat_round_of_lt h, hnear, Int.cast_zero, sign_zero]
    · rw [if_neg (mt hiff.mp hsmall), if_neg hsmall]
  · -- The nearest whole number is on the same side of zero.
    have hhalf : 1 / 2 ≤ |r.toRat| := by
      by_contra! hlt
      obtain ⟨hlow, hhigh⟩ := abs_lt.mp hlt
      have hless : nearest r.toRat < 1 := by exact_mod_cast (by linarith : (nearest r.toRat : ℚ) < 1)
      have hmore : -1 < nearest r.toRat := by exact_mod_cast (by linarith : (-1 : ℚ) < nearest r.toRat)
      omega
    have hsmall : (10 : ℚ) ^ (-p.digits : ℤ) ≤ 1 / 10 := by
      have hmono := ten_zpow_le.mpr (by have := p.digits_pos; omega : -p.digits ≤ (-1 : ℤ))
      rwa [zpow_neg_one, ← one_div] at hmono
    have hsign : SignType.sign (nearest r.toRat : ℚ) = SignType.sign r.toRat := by
      rcases lt_or_gt_of_ne hzero with hneg | hpos
      · have hle : nearest r.toRat < 1 := by exact_mod_cast (by linarith : (nearest r.toRat : ℚ) < 1)
        have hlt : (nearest r.toRat : ℚ) < 0 := by exact_mod_cast (by omega : nearest r.toRat < 0)
        rw [sign_neg hneg, sign_neg hlt]
      · have hge : -1 < nearest r.toRat := by exact_mod_cast (by linarith : (-1 : ℚ) < nearest r.toRat)
        have hlt : (0 : ℚ) < nearest r.toRat := by exact_mod_cast (by omega : 0 < nearest r.toRat)
        rw [sign_pos hpos, sign_pos hlt]
    rw [if_neg (by linarith), snap]
    split
    · rw [toRat_round_of_lt h, hsign]
    · rfl

end

/-! ### Signs -/

section
variable {p : Precision} {x base : Decimal}

/-- Above one a number is greater by a unit of its last digit at least. -/
theorem above_one (hlt : 1 < x.toRat) (hdigits : x.digits ≤ p.digits) :
    1 + 10 * 10 ^ (-p.digits : ℤ) ≤ x.toRat := by
  have hx : 0 < x.toRat := one_pos.trans hlt
  have hp := p.digits_pos
  have hunit : 10 * (10 : ℚ) ^ (-p.digits : ℤ) = 10 ^ (-(p.digits - 1 : ℕ) : ℤ) := by
    rw [← zpow_one_add₀ (by norm_num)]
    congr 1
    omega
  rw [hunit]
  rcases lt_or_ge x.leading 1 with hk | hk
  · have hzero : x.leading = 0 := le_antisymm (by omega) (leading_nonneg hlt.le)
    have hsignificand := toRat_significand x
    have hfar := significand_far hx hdigits
    rw [hzero, zpow_zero, div_one] at hsignificand
    rw [FarFromOne, hsignificand] at hfar
    exact hfar.resolve_left hlt.ne'
  · have hlow := (leading_bounds (toRat_pos_iff.mp hx).ne').1
    have hten := ten_zpow_le.mpr hk
    have hsmall : (10 : ℚ) ^ (-(p.digits - 1 : ℕ) : ℤ) ≤ 1 := zpow_le_one_of_nonpos₀ (by norm_num) (by omega)
    rw [abs_of_pos hx] at hlow
    rw [zpow_one] at hten
    linarith

/-- Below one a number with `p` digits has its distance from one in units of the `p`-th place after the point. -/
theorem below_one_cases (hx : 0 < x.toRat) (hlt : x.toRat < 1) (hdigits : x.digits ≤ p.digits) :
    x.toRat = 1 - 10 ^ (-p.digits : ℤ) ∨ x.toRat = 1 - 2 * 10 ^ (-p.digits : ℤ) ∨
      x.toRat ≤ 1 - 3 * 10 ^ (-p.digits : ℤ) := by
  have hp := p.digits_pos
  have hunit := ten_zpow_pos (-p.digits)
  rcases lt_or_ge x.leading (-1) with hk | hk
  · refine .inr (.inr ?_)
    have hhigh := (leading_bounds (toRat_pos_iff.mp hx).ne').2
    rw [abs_of_pos hx] at hhigh
    have hsmall := hhigh.trans_le (ten_zpow_le.mpr (by omega : x.leading + 1 ≤ -1))
    have hsmall' := ten_zpow_le.mpr (by omega : -(p.digits : ℤ) ≤ -1)
    rw [zpow_neg_one] at hsmall hsmall'
    linarith
  · -- The number is a multiple of that unit.
    obtain ⟨n, hn⟩ : ∃ n : ℤ, x.toRat = n * 10 ^ (-p.digits : ℤ) := by
      have hexponent : 0 ≤ x.exponent + p.digits := by
        rw [leading] at hk
        omega
      refine ⟨x.mantissa * 10 ^ (x.exponent + p.digits).toNat, ?_⟩
      rw [toRat, Int.cast_mul, Int.cast_pow, Int.cast_ofNat, ← zpow_natCast, Int.toNat_of_nonneg hexponent, mul_assoc,
        ← ten_zpow_add]
      congr 2
      ring
    have hone : (1 : ℚ) = ((10 ^ p.digits : ℤ) : ℚ) * 10 ^ (-p.digits : ℤ) := by
      push_cast
      rw [← zpow_natCast, ← ten_zpow_add, add_neg_cancel, zpow_zero]
    have hless : n < 10 ^ p.digits := by
      rw [hn, hone, mul_lt_mul_iff_left₀ hunit] at hlt
      exact_mod_cast hlt
    obtain ⟨j, hj⟩ : ∃ j : ℕ, n = 10 ^ p.digits - 1 - j := ⟨(10 ^ p.digits - 1 - n).toNat, by omega⟩
    have hvalue : x.toRat = 1 - (1 + j) * 10 ^ (-p.digits : ℤ) := by
      push_cast at hone
      rw [hn, hj]
      push_cast
      linarith
    rw [hvalue]
    rcases j with _ | _ | j
    · left
      rw [Nat.cast_zero, add_zero, one_mul]
    · refine .inr (.inl ?_)
      rw [zero_add, Nat.cast_one, one_add_one_eq_two]
    · refine .inr (.inr ?_)
      push_cast
      linarith [mul_nonneg (Nat.cast_nonneg j : (0 : ℚ) ≤ j) hunit.le]

theorem gap_of_lt_one (hx : 0 < x.toRat) (hlt : x.toRat < 1) (hdigits : x.digits ≤ p.digits) :
    (10 : ℝ) ^ (-p.digits : ℤ) ≤ 1 - x.toRat := by
  have hunit := ten_zpow_pos (-p.digits)
  have hgap : (10 : ℚ) ^ (-p.digits : ℤ) ≤ 1 - x.toRat := by
    rcases below_one_cases hx hlt hdigits with h | h | h <;> linarith
  have hgap' := (Rat.cast_le (K := ℝ)).mpr hgap
  push_cast at hgap'
  exact hgap'

/-- The logarithm of a number with `p` digits, computed with more of them, has a small relative error, also below one. -/
theorem exists_ln?_guarded (hp : p.digits < 2 ^ 32) (hx : 0 < x.toRat) (hrange : x.inRange = true)
    (hdigits : x.digits ≤ p.digits) :
    ∃ c, x.ln? (p.guard guardDigits) = some c ∧ |c.toRat - Real.log x.toRat| ≤ 1 / 10 ^ 9 * |Real.log x.toRat| := by
  obtain ⟨wp, hwp⟩ : ∃ wp, wp = p.guard guardDigits := ⟨_, rfl⟩
  have hguard : wp.digits = p.digits + 10 := by rw [hwp, Precision.guard, guardDigits]
  have hpos := p.digits_pos
  have hfar := significand_far (p := p) hx hdigits
  have hcount := count_leading_le hx hrange
  have hunit : 1 / (10 : ℝ) ^ wp.digits ≤ 1 / 10 ^ 11 :=
    one_div_le_one_div_of_le (by positivity) (pow_le_pow_right₀ (by norm_num) (by omega))
  rw [← hwp]
  rcases le_or_gt 1 x.toRat with hone | hlt
  · have hlog : 0 ≤ Real.log x.toRat := Real.log_nonneg (by exact_mod_cast hone)
    obtain ⟨c, hc, herror⟩ := exists_ln?_near_of_mass (p := wp) (by omega) (by omega) hx hcount hfar
      ((logMass_of_one_le hone).trans (abs_of_nonneg hlog).symm)
    refine ⟨c, hc, herror.trans (mul_le_mul_of_nonneg_right ?_ (abs_nonneg _))⟩
    rw [div_eq_mul_one_div]
    norm_num at hunit ⊢
    linarith
  · have hgap := gap_of_lt_one hx hlt hdigits
    have hnonneg := logMass_nonneg hx
    have hmass : x.logMass ≤ 5 * 10 ^ p.digits * |Real.log x.toRat| := by
      have hscaled := (mul_le_mul_of_nonneg_left hgap hnonneg).trans (logMass_mul_le hx hlt)
      rw [zpow_neg, zpow_natCast, ← div_eq_mul_inv, div_le_iff₀ (by positivity)] at hscaled
      linarith
    have hwide : ((wp.digits : ℝ) + 1730) ≤ 10 ^ 10 := by exact_mod_cast (by omega : wp.digits + 1730 ≤ 10 ^ 10)
    have hparts : (wp.digits + 1730) / 300 / 10 ^ (wp.digits + 13) * x.logMass ≤ 1 / 10 ^ 11 * |Real.log x.toRat| := by
      calc (wp.digits + 1730) / 300 / 10 ^ (wp.digits + 13) * x.logMass
          ≤ 10 ^ 10 / 300 / 10 ^ (wp.digits + 13) * (5 * 10 ^ p.digits * |Real.log x.toRat|) := by gcongr
        _ = 1 / 60 / 10 ^ 13 * |Real.log x.toRat| := by
            rw [hguard, pow_add, pow_add]
            field_simp
            ring
        _ ≤ 1 / 10 ^ 11 * |Real.log x.toRat| := mul_le_mul_of_nonneg_right (by norm_num) (abs_nonneg _)
    obtain ⟨c, hc, herror⟩ := exists_ln?_near (p := wp) (by omega) (by omega) hx hcount hfar (by norm_num) hparts
    refine ⟨c, hc, herror.trans (mul_le_mul_of_nonneg_right ?_ (abs_nonneg _))⟩
    rw [div_eq_mul_one_div (11 / 2 : ℝ)]
    norm_num at hunit ⊢
    linarith

theorem unit_le_tenth (p : Precision) : (10 : ℝ) ^ (-p.digits : ℤ) ≤ 1 / 10 := by
  have hpos := p.digits_pos
  have hmono := zpow_le_zpow_right₀ (by norm_num : (1 : ℝ) ≤ 10) (by omega : -(p.digits : ℤ) ≤ -1)
  rwa [zpow_neg_one, ← one_div] at hmono

/-- Logarithms of numbers above one are some units away from zero. -/
theorem log_ge_of_one_lt (hlt : 1 < x.toRat) (hdigits : x.digits ≤ p.digits) :
    6 * (10 : ℝ) ^ (-p.digits : ℤ) ≤ Real.log x.toRat := by
  have hfar := (Rat.cast_le (K := ℝ)).mpr (above_one hlt hdigits)
  have hunit : (0 : ℝ) < 10 ^ (-p.digits : ℤ) := by positivity
  have hsmall := unit_le_tenth p
  push_cast at hfar
  have hlog := Real.le_log_one_add_of_nonneg (by positivity : 0 ≤ 10 * (10 : ℝ) ^ (-p.digits : ℤ))
  have hmono := Real.log_le_log (by positivity) hfar
  refine le_trans ?_ (hlog.trans hmono)
  rw [le_div_iff₀ (by positivity)]
  linarith [mul_le_mul_of_nonneg_left hsmall hunit.le]

theorem log_ge_of_lt_one (hx : 0 < x.toRat) (hlt : x.toRat < 1) : 1 - x.toRat ≤ |Real.log x.toRat| := by
  have hx' : (0 : ℝ) < x.toRat := by exact_mod_cast hx
  rw [abs_of_nonpos (Real.log_nonpos hx'.le (by exact_mod_cast hlt.le))]
  linarith [Real.log_le_sub_one_of_pos hx']

theorem log_le_of_lt_one (hx : 0 < x.toRat) (hlt : x.toRat < 1) :
    |Real.log x.toRat| * x.toRat ≤ 1 - x.toRat := by
  have hx' : (0 : ℝ) < x.toRat := by exact_mod_cast hx
  rw [abs_of_nonpos (Real.log_nonpos hx'.le (by exact_mod_cast hlt.le))]
  have hlog := mul_le_mul_of_nonneg_right (Real.one_sub_inv_le_log_of_pos hx') hx'.le
  rw [sub_mul, one_mul, inv_mul_cancel₀ hx'.ne'] at hlog
  linarith

/-- The logarithm of any other number than one is not less than the `p`-th place after the point. -/
theorem abs_log_ge (hx : 0 < x.toRat) (hne : x.toRat ≠ 1) (hdigits : x.digits ≤ p.digits) :
    (10 : ℝ) ^ (-p.digits : ℤ) ≤ |Real.log x.toRat| := by
  have hunit : (0 : ℝ) < 10 ^ (-p.digits : ℤ) := by positivity
  rcases lt_or_gt_of_ne hne with hlt | hgt
  · exact (gap_of_lt_one hx hlt hdigits).trans (log_ge_of_lt_one hx hlt)
  · have hlog := log_ge_of_one_lt hgt hdigits
    rw [abs_of_nonneg (by linarith)]
    linarith

/-- The quotient is not so near to zero that the division fails. -/
theorem IsBase.log_div_ge (hbase : IsBase base) (hx : 0 < x.toRat) (hdigits : x.digits ≤ p.digits) :
    Real.log x.toRat = 0 ∨ 2 * (10 : ℝ) ^ (-(p.digits + 1 : ℕ) : ℤ) ≤ |Real.log x.toRat / Real.log base.toRat| := by
  rcases eq_or_ne x.toRat 1 with hone | hne
  · left
    rw [hone, Rat.cast_one, Real.log_one]
  · right
    have hlog := abs_log_ge hx hne hdigits
    have hsplit : (10 : ℝ) ^ (-(p.digits + 1 : ℕ) : ℤ) = 10 ^ (-p.digits : ℤ) * (1 / 10) := by
      rw [one_div, ← zpow_neg_one, ← zpow_add₀ (by norm_num)]
      congr 1
      push_cast
      ring
    have hunit : (0 : ℝ) < 10 ^ (-p.digits : ℤ) := by positivity
    rw [abs_div, abs_of_pos hbase.log_pos, le_div_iff₀ hbase.log_pos, hsplit]
    calc 2 * (10 ^ (-p.digits : ℤ) * (1 / 10)) * Real.log base.toRat
        ≤ 2 * (10 ^ (-p.digits : ℤ) * (1 / 10)) * (232 / 100) := by gcongr; exact hbase.le
      _ ≤ 10 ^ (-p.digits : ℤ) := by linarith
      _ ≤ |Real.log x.toRat| := hlog

/-- A number with a small relative error has the sign of the logarithm. -/
theorem IsBase.sign_eq (hbase : IsBase base) (hx : 0 < x.toRat) {q : ℚ}
    (h : |q - Real.log x.toRat / Real.log base.toRat| ≤ 3 / 10 ^ 9 * |Real.log x.toRat / Real.log base.toRat|) :
    SignType.sign q = SignType.sign (x.toRat - 1) := by
  obtain ⟨hlow, hhigh⟩ := abs_le.mp h
  rcases lt_trichotomy x.toRat 1 with hlt | hone | hgt
  · have hneg : Real.log x.toRat / Real.log base.toRat < 0 :=
      div_neg_of_neg_of_pos (Real.log_neg (by exact_mod_cast hx) (by exact_mod_cast hlt)) hbase.log_pos
    rw [abs_of_neg hneg] at hhigh
    have hqneg : q < 0 := by exact_mod_cast (by linarith : (q : ℝ) < 0)
    rw [sign_neg hqneg, sign_neg (sub_neg.mpr hlt)]
  · rw [hone, Rat.cast_one, Real.log_one, zero_div, abs_zero, mul_zero, sub_zero] at h
    have hqzero : q = 0 := by exact_mod_cast abs_nonpos_iff.mp h
    rw [hqzero, hone, sub_self]
  · have hpos : 0 < Real.log x.toRat / Real.log base.toRat :=
      div_pos (Real.log_pos (by exact_mod_cast hgt)) hbase.log_pos
    rw [abs_of_pos hpos] at hlow
    have hqpos : 0 < q := by exact_mod_cast (by linarith : 0 < (q : ℝ))
    rw [sign_pos hqpos, sign_pos (sub_pos.mpr hgt)]

/-- The result is far below the numbers that are not rounded to whole ones. -/
theorem abs_roundTo_lt {q : Decimal} {y : ℝ} (hq : |q.toRat - y| ≤ 3 / 10 ^ 9 * |y|) (hy : |y| ≤ 2 * 10 ^ 17)
    (p : Precision) : |(q.roundTo p).toRat| < 10 ^ (1000 : ℤ) := by
  have hle : |q.toRat| ≤ (10 : ℚ) ^ (18 : ℤ) := by
    have htriangle := abs_sub_abs_le_abs_sub (q.toRat : ℝ) y
    have hle : |(q.toRat : ℝ)| ≤ 10 ^ (18 : ℤ) := by
      norm_num at hy hq ⊢
      linarith
    exact_mod_cast hle
  have hmono := rounded_mono p.digits_pos hle
  rw [rounded_of_fits (fits_ten_zpow p.digits_pos _)] at hmono
  rw [toRat_roundTo, abs_rounded p.digits_pos]
  exact hmono.trans_lt (ten_zpow_lt.mpr (by decide))

/-- A logarithm has the sign of the exact one, unless the quotient is rounded to less than the `p`-th place after the
point. -/
theorem exists_sign_logBase? (hbase : IsBase base) (hp : p.digits < 2 ^ 32) (hx : 0 < x.toRat)
    (hrange : x.inRange = true) (hdigits : x.digits ≤ p.digits) :
    ∃ (c : Decimal) (q : ℚ), logBase? base x p = some c ∧
      |q - Real.log x.toRat / Real.log base.toRat| ≤ 3 / 10 ^ 9 * |Real.log x.toRat / Real.log base.toRat| ∧
      SignType.sign c.toRat =
        if rounded p.digits |q| < 10 ^ (-p.digits : ℤ) then 0 else SignType.sign (x.toRat - 1) := by
  have hpos := p.digits_pos
  obtain ⟨c, hc, herror⟩ := exists_ln?_guarded hp hx hrange hdigits
  have hsmall : (6 : ℝ) / 10 ^ (p.digits + 10) ≤ 1 / 10 ^ 9 := by
    have hpow : (10 : ℝ) ^ 11 ≤ 10 ^ (p.digits + 10) := pow_le_pow_right₀ (by norm_num) (by omega)
    rw [div_le_div_iff₀ (by positivity) (by positivity)]
    norm_num at hpow ⊢
    linarith
  obtain ⟨q, hq, hvalue, hqerror⟩ := exists_logBase? hbase (by omega) hx hrange (by omega) hsmall (by norm_num) hc herror
    (hbase.log_div_ge hx hdigits)
  have hqerror' := hqerror.trans_eq (by ring : _ = 3 / 10 ^ 9 * |Real.log x.toRat / Real.log base.toRat|)
  refine ⟨snap p (q.roundTo p), q.toRat, hvalue, hqerror', ?_⟩
  have hsize := abs_roundTo_lt hqerror' (hbase.abs_log_div_le hx hrange) p
  rw [sign_snap (hq.roundTo p) hsize, toRat_roundTo, abs_rounded hpos, sign_rounded hpos, hbase.sign_eq hx hqerror']

theorem log_two_lt_log_ten : 93 * Real.log 2 < 28 * Real.log 10 := by
  have hpower : Real.log (2 ^ 93) < Real.log (10 ^ 28) := Real.log_lt_log (by norm_num) (by norm_num)
  rw [Real.log_pow, Real.log_pow] at hpower
  exact_mod_cast hpower

/-- A quotient above the `p`-th place after the point is not rounded below it. -/
theorem not_rounded_lt {q : ℚ} {y : ℝ} (hq : |q - y| ≤ 3 / 10 ^ 9 * |y|)
    (hy : 101 / 100 * (10 : ℝ) ^ (-p.digits : ℤ) ≤ |y|) : ¬rounded p.digits |q| < 10 ^ (-p.digits : ℤ) := by
  have hless := abs_sub_abs_le_abs_sub y q
  rw [abs_sub_comm] at hless
  have hunit : (0 : ℝ) < 10 ^ (-p.digits : ℤ) := by positivity
  have hle : (10 : ℚ) ^ (-p.digits : ℤ) ≤ |q| := by
    rw [← Rat.cast_le (K := ℝ)]
    push_cast
    linarith
  have hmono := rounded_mono p.digits_pos hle
  rw [rounded_of_fits (fits_ten_zpow p.digits_pos _)] at hmono
  exact not_lt.mpr hmono

/-- A quotient well below that place stays there. -/
theorem rounded_lt {q : ℚ} {y : ℝ} (hq : |q - y| ≤ 3 / 10 ^ 9 * |y|)
    (hy : |y| ≤ 89 / 100 * (10 : ℝ) ^ (-p.digits : ℤ)) : rounded p.digits |q| < 10 ^ (-p.digits : ℤ) := by
  have hpos := p.digits_pos
  have hmore := abs_sub_abs_le_abs_sub (q : ℝ) y
  have hunit : (0 : ℚ) < 10 ^ (-p.digits : ℤ) := ten_zpow_pos _
  have hunit' : (0 : ℝ) < 10 ^ (-p.digits : ℤ) := by positivity
  have hsplit : (10 : ℚ) ^ (-p.digits : ℤ) = 10 * 10 ^ (-p.digits - 1 : ℤ) := by
    rw [← zpow_one_add₀ (by norm_num)]
    congr 1
    ring
  have hle : |q| ≤ (9 : ℤ) * (10 : ℚ) ^ (-p.digits - 1 : ℤ) := by
    have hle : |q| ≤ 9 / 10 * (10 : ℚ) ^ (-p.digits : ℤ) := by
      rw [← Rat.cast_le (K := ℝ)]
      push_cast
      linarith
    push_cast
    linarith
  have hmono := rounded_mono hpos hle
  rw [rounded_of_fits (Fits.mono (p := 1) ⟨9, _, by norm_num, rfl⟩ hpos)] at hmono
  push_cast at hmono
  linarith

/-- With one digit there is a number below that place that is rounded to it. -/
theorem rounded_one_of_ge {q : ℚ} (hq : 95 / 1000 ≤ q) : 1 / 10 ≤ rounded 1 q := by
  have hmono := rounded_mono (p := 1) one_pos hq
  have htenth : rounded 1 (95 / 1000) = 1 / 10 := by
    refine rounded_of_near (k := -1) one_pos ⟨1, -1, by norm_num, by norm_num⟩ ?_ ?_ ?_ ?_ <;> norm_num
  rwa [htenth] at hmono

/-- The logarithm of 0.8 to base 10. -/
theorem log_eight_tenths_div : 967 / 10000 ≤ |Real.log (4 / 5) / Real.log 10| := by
  have htwo := Real.log_two_gt_d9
  have hten := log_two_lt_log_ten
  have hsplit : Real.log (4 / 5) = 3 * Real.log 2 - Real.log 10 := by
    have hquotient : (4 : ℝ) / 5 = 2 ^ 3 / 10 := by norm_num
    rw [hquotient, Real.log_div (by norm_num) (by norm_num), Real.log_pow]
    norm_num
  have hneg : Real.log (4 / 5) < 0 := Real.log_neg (by norm_num) (by norm_num)
  rw [abs_div, abs_of_neg hneg, abs_of_pos (by linarith : 0 < Real.log 10), le_div_iff₀ (by linarith), hsplit]
  linarith

/-- The quotient for base 10 is rounded below the `p`-th place after the point only for the numbers next to one. -/
theorem rounded_log_ten_lt_iff (hx : 0 < x.toRat) (hne : x.toRat ≠ 1) (hdigits : x.digits ≤ p.digits) {q : ℚ}
    (hq : |q - Real.log x.toRat / Real.log 10| ≤ 3 / 10 ^ 9 * |Real.log x.toRat / Real.log 10|) :
    rounded p.digits |q| < 10 ^ (-p.digits : ℤ) ↔
      x.toRat = 1 - 10 ^ (-p.digits : ℤ) ∨ 2 ≤ p.digits ∧ x.toRat = 1 - 2 * 10 ^ (-p.digits : ℤ) := by
  have hunit : (0 : ℚ) < 10 ^ (-p.digits : ℤ) := ten_zpow_pos _
  have hunit' : (0 : ℝ) < 10 ^ (-p.digits : ℤ) := by positivity
  have hten : 23022 / 10000 ≤ Real.log 10 := by linarith [Real.log_two_gt_d9, log_two_lt_log_ten]
  have hten' := log_ten_lt
  have hlog := abs_nonneg (Real.log x.toRat)
  have hgreat : 3 * (10 : ℝ) ^ (-p.digits : ℤ) ≤ |Real.log x.toRat| → ¬rounded p.digits |q| < 10 ^ (-p.digits : ℤ) := by
    intro hle
    refine not_rounded_lt hq ?_
    rw [abs_div, abs_of_pos (by linarith : 0 < Real.log 10), le_div_iff₀ (by linarith)]
    linarith [mul_le_mul_of_nonneg_left hten'.le hunit'.le]
  have hsmall : |Real.log x.toRat| ≤ 2045 / 1000 * (10 : ℝ) ^ (-p.digits : ℤ) →
      rounded p.digits |q| < 10 ^ (-p.digits : ℤ) := by
    intro hle
    refine rounded_lt hq ?_
    rw [abs_div, abs_of_pos (by linarith : 0 < Real.log 10), div_le_iff₀ (by linarith)]
    linarith [mul_le_mul_of_nonneg_left hten hunit'.le]
  rcases lt_or_gt_of_ne hne with hlt | hgt
  · have hlow := log_ge_of_lt_one hx hlt
    have hhigh := log_le_of_lt_one hx hlt
    rcases below_one_cases hx hlt hdigits with hunits | hunits | hunits
    · refine iff_of_true (hsmall ?_) (.inl hunits)
      have hcast : (x.toRat : ℝ) = 1 - 10 ^ (-p.digits : ℤ) := by rw [hunits]; push_cast; rfl
      have hnear : 9 / 10 ≤ (x.toRat : ℝ) := by linarith [unit_le_tenth p]
      linarith [mul_le_mul_of_nonneg_left hnear hlog]
    · rcases Nat.lt_or_ge p.digits 2 with hone | htwo
      · have hdigit : p.digits = 1 := by have hpos := p.digits_pos; omega
        rw [hdigit] at hunits ⊢
        have hvalue : x.toRat = 4 / 5 := by rw [hunits]; norm_num
        refine iff_of_false (not_lt.mpr ?_) ?_
        · have hvalue' : (x.toRat : ℝ) = 4 / 5 := by rw [hvalue]; norm_num
          have hless := abs_sub_abs_le_abs_sub (Real.log x.toRat / Real.log 10) q
          have hfar := log_eight_tenths_div
          rw [← hvalue'] at hfar
          rw [abs_sub_comm] at hless
          have hge : 95 / 1000 ≤ |q| := by
            rw [← Rat.cast_le (K := ℝ)]
            push_cast
            linarith
          have hround := rounded_one_of_ge hge
          norm_num at hround ⊢
          exact hround
        · rw [hvalue]
          norm_num
      · refine iff_of_true (hsmall ?_) (.inr ⟨htwo, hunits⟩)
        have hcast : (x.toRat : ℝ) = 1 - 2 * 10 ^ (-p.digits : ℤ) := by rw [hunits]; push_cast; rfl
        have hnear : 98 / 100 ≤ (x.toRat : ℝ) := by
          have hmono := zpow_le_zpow_right₀ (by norm_num : (1 : ℝ) ≤ 10) (by omega : -(p.digits : ℤ) ≤ -2)
          norm_num at hmono hcast ⊢
          linarith
        linarith [mul_le_mul_of_nonneg_left hnear hlog]
    · refine iff_of_false (hgreat ?_) ?_
      · have hcast := (Rat.cast_le (K := ℝ)).mpr hunits
        push_cast at hcast
        linarith
      · rintro (h | ⟨-, h⟩) <;> linarith
  · have hlow := log_ge_of_one_lt hgt hdigits
    refine iff_of_false (hgreat ?_) ?_
    · rw [abs_of_nonneg (by linarith)]
      linarith
    · rintro (h | ⟨-, h⟩) <;> linarith

/-- The logarithms of a number with up to `p` digits are found, `p` being at most `10 ^ 9`. That to base 2 has the right
sign. That to base 10 has it as well, but where the number is less than one by a unit of the `p`-th place after
the point, or by two for two digits and more, it is zero. -/
theorem logarithms_have_sign_unless_snapped (x : Decimal) (p : Precision) (hx : 0 < x.toRat)
    (hrange : x.inRange = true) (hdigits : x.digits ≤ p.digits) (hp : p.digits ≤ 10 ^ 9) :
    (∃ c, x.log2? p = some c ∧ SignType.sign c.toRat = SignType.sign (x.toRat - 1)) ∧
      ∃ c, x.log10? p = some c ∧ SignType.sign c.toRat =
        if x.toRat = 1 - 10 ^ (-p.digits : ℤ) ∨ 2 ≤ p.digits ∧ x.toRat = 1 - 2 * 10 ^ (-p.digits : ℤ) then 0
        else SignType.sign (x.toRat - 1) := by
  obtain ⟨c, q, hc, hq, hsign⟩ := exists_sign_logBase? isBase_two (by omega) hx hrange hdigits
  obtain ⟨c', q', hc', hq', hsign'⟩ := exists_sign_logBase? isBase_ten (by omega) hx hrange hdigits
  have hbase : Real.log two.toRat = Real.log 2 := by rw [toRat_two, Rat.cast_ofNat]
  have hbase' : Real.log (ofInt 10).toRat = Real.log 10 := by rw [toRat_ofInt]; norm_num
  rw [hbase] at hq
  rw [hbase'] at hq'
  refine ⟨⟨c, hc, ?_⟩, c', hc', ?_⟩
  · rcases eq_or_ne x.toRat 1 with hone | hne
    · rw [hsign, hone, sub_self, sign_zero, ite_self]
    · rw [hsign, if_neg (not_rounded_lt hq ?_)]
      have htwo := Real.log_two_lt_d9
      have htwo' := Real.log_two_gt_d9
      have hunit : (0 : ℝ) < 10 ^ (-p.digits : ℤ) := by positivity
      rw [abs_div, abs_of_pos (by linarith : 0 < Real.log 2), le_div_iff₀ (by linarith)]
      linarith [abs_log_ge hx hne hdigits, mul_le_mul_of_nonneg_left htwo.le hunit.le]
  · rcases eq_or_ne x.toRat 1 with hone | hne
    · rw [hsign', hone, sub_self, sign_zero, ite_self, ite_self]
    · rw [hsign']
      exact if_congr (rounded_log_ten_lt_iff hx hne hdigits hq') rfl rfl

/-- The logarithm of 0.98 to base 10 is -0.0088, but with two digits it is found to be zero. -/
theorem log_ninety_eight_hundredths_snapped :
    0 < toRat ⟨98, -2⟩ ∧ inRange ⟨98, -2⟩ = true ∧ digits ⟨98, -2⟩ ≤ 2 ∧
      (∃ c, log2? ⟨98, -2⟩ ⟨2, by decide⟩ = some c ∧ SignType.sign c.toRat = -1) ∧
        ∃ c, log10? ⟨98, -2⟩ ⟨2, by decide⟩ = some c ∧ SignType.sign c.toRat = 0 := by
  have hvalue : toRat ⟨98, -2⟩ = 98 / 100 := by norm_num [toRat]
  have hpos : 0 < toRat ⟨98, -2⟩ := by norm_num [hvalue]
  have hrange : inRange ⟨98, -2⟩ = true := by decide +kernel
  have hdigits : digits ⟨98, -2⟩ ≤ 2 := by decide +kernel
  have hbelow : toRat ⟨98, -2⟩ - 1 < 0 := by norm_num [hvalue]
  obtain ⟨⟨c, hc, hsign⟩, c', hc', hsign'⟩ :=
    logarithms_have_sign_unless_snapped ⟨98, -2⟩ ⟨2, by decide⟩ hpos hrange hdigits (by decide)
  refine ⟨hpos, hrange, hdigits, ⟨c, hc, hsign.trans (sign_neg hbelow)⟩, c', hc', hsign'.trans (if_pos (.inr ?_))⟩
  exact ⟨le_rfl, by norm_num [hvalue]⟩

end

end Calculator.Decimal
