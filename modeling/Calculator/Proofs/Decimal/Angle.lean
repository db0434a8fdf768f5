import Calculator.Proofs.Decimal.FactorialSeries
import Calculator.Proofs.Decimal.Integral
import Calculator.Proofs.Decimal.Pi
import Mathlib.Analysis.Real.Pi.Bounds
/-!
Sine and cosine. Whole turns are taken from the angle with as many more digits of π as the angle has before its point, so
that the reduced angle is as near as that of a small angle; its series is summed, and the sum rounded.
-/
namespace Calculator.Decimal

/-! ### Whole turns -/

section
variable {x : Decimal} {p : Precision}

/-- The whole turn that angles are reduced by. -/
theorem abs_turn_sub_le (hp : 11 ≤ p.digits) (hp' : p.digits ≤ 43 * 10 ^ 8) :
    |(((pi p).mul two p).toRat : ℝ) - 2 * Real.pi| ≤ 80 / 10 ^ p.digits := by
  have hten : (0 : ℝ) < 10 ^ p.digits := by positivity
  obtain ⟨q, hvalue, hnear⟩ := exists_near_pi hp'
  have hunit : (10 : ℝ) ^ (1 - p.digits : ℤ) / 2 = roundoff p.digits := by
    rw [roundoff, zpow_sub₀ (by norm_num), zpow_one, zpow_natCast]
    ring
  have htwo : two.toRat = 2 := toRat_ofInt 2
  have hsmall : roundoff p.digits ≤ 1 / 100 := by
    have hanti := roundoff_anti hp
    have hvalue : roundoff 11 = 5 / 10 ^ 11 := rfl
    rw [hvalue] at hanti
    linarith
  have hpi := Real.pi_lt_d2
  have hpi' := Real.pi_pos
  rw [hunit] at hnear
  obtain ⟨hlow, hhigh⟩ := abs_lt.mp hnear
  have hround := abs_rounded_sub_le p.digits_pos q
  have hq : |(q : ℝ)| ≤ 32 / 10 := abs_le.mpr ⟨by linarith, by linarith⟩
  rw [← hvalue] at hround
  have hround' := hround.trans (mul_le_mul_of_nonneg_left hq (roundoff_pos p.digits).le)
  obtain ⟨hplow, hphigh⟩ := abs_le.mp hround'
  have hproduct := abs_rounded_sub_le p.digits_pos ((pi p).toRat * two.toRat)
  rw [← toRat_mul, htwo] at hproduct
  push_cast at hproduct
  have hdouble : |((pi p).toRat * 2 : ℝ)| ≤ 66 / 10 := abs_le.mpr ⟨by linarith, by linarith⟩
  obtain ⟨hmlow, hmhigh⟩ := abs_le.mp (hproduct.trans (mul_le_mul_of_nonneg_left hdouble (roundoff_pos p.digits).le))
  have hsum : 80 / 10 ^ p.digits = 16 * roundoff p.digits := by
    rw [roundoff]
    ring
  rw [hsum, abs_le]
  constructor <;> linarith

theorem abs_lt_of_leading (x : Decimal) : |x.toRat| < 10 ^ (x.leading.toNat + 1) := by
  rcases eq_or_ne x.mantissa 0 with hzero | hne
  · rw [toRat_eq_zero_iff.mpr hzero, abs_zero]
    positivity
  · rw [← zpow_natCast]
    exact (leading_bounds hne).2.trans_le (ten_zpow_le.mpr (by push_cast; omega))

/-- The number of turns is whole, and hardly farther than one from the quotient. -/
theorem exists_turns (d : Decimal) : ∃ z : ℤ, d.round.toRat = z ∧ |(z : ℚ) - d.toRat| ≤ 1 := by
  refine ⟨_, toRat_round_eq_floor d, ?_⟩
  have hlow := Int.floor_le (d.toRat + 1 / 2)
  have hhigh := Int.lt_floor_add_one (d.toRat + 1 / 2)
  rw [abs_le]
  split
  · rename_i hwhole
    -- The quotient is a whole number here.
    have hvalue := toRat_eq_cast (d := d) (by rw [hwhole.2]; decide)
    have hfloor : ⌊d.toRat + 1 / 2⌋ = d.mantissa * 10 ^ d.exponent.toNat := by
      rw [hvalue, Int.floor_intCast_add]
      norm_num
    rw [hfloor]
    push_cast at hvalue ⊢
    constructor <;> linarith
  · constructor <;> linarith

theorem turn_bounds (hp : 11 ≤ p.digits) (hp' : p.digits ≤ 43 * 10 ^ 8) :
    (628 / 100 : ℝ) ≤ ((pi p).mul two p).toRat ∧ (((pi p).mul two p).toRat : ℝ) ≤ 629 / 100 := by
  have hpower : (10 : ℝ) ^ 11 ≤ 10 ^ p.digits := pow_le_pow_right₀ (by norm_num) hp
  have hsmall : (80 : ℝ) / 10 ^ p.digits ≤ 1 / 1000 := by
    rw [div_le_div_iff₀ (by positivity) (by norm_num)]
    linarith
  obtain ⟨hlow, hhigh⟩ := abs_le.mp ((abs_turn_sub_le hp hp').trans hsmall)
  constructor <;> linarith [Real.pi_gt_d4, Real.pi_lt_d4]

/-- An angle that is not reduced is at most a turn, or has too many turns; from any other whole turns are taken. -/
theorem reduceAngle_cases (x : Decimal) {turn : Decimal} (hturn : turn = (pi p).mul two p) (hne : turn.toRat ≠ 0) :
    x.reduceAngle p = x ∧ (|rounded p.digits (x.toRat / turn.toRat)| ≤ 1 ∨
      10 ^ (maxExponent + 1) ≤ |rounded p.digits (x.toRat / turn.toRat)|) ∨
    ∃ (turns : Decimal) (z : ℤ), turns.toRat = z ∧ |(z : ℚ) - rounded p.digits (x.toRat / turn.toRat)| ≤ 1 ∧
      x.reduceAngle p = x.sub (turns.mul turn p) p := by
  obtain ⟨c, hc, hdiv⟩ := div?_eq x hne p
  obtain ⟨z, hz, hnear⟩ := exists_turns c
  rw [reduceAngle, ← hturn, hdiv, checked_eq, ← hc]
  by_cases hrange : Representable c.toRat
  · rw [if_pos hrange]
    dsimp only
    by_cases hzero : c.round.isZero = true
    · rw [if_pos hzero]
      have hz0 : (z : ℚ) = 0 := hz.symm.trans (isZero_iff.mp hzero)
      rw [hz0, zero_sub, abs_neg] at hnear
      exact .inl ⟨rfl, .inl hnear⟩
    · rw [if_neg hzero]
      exact .inr ⟨c.round, z, hz, hnear, rfl⟩
  · rw [if_neg hrange]
    have hc0 : c.toRat ≠ 0 := fun hzero => hrange (.inl hzero)
    rw [representable_iff hc0, not_and_or, not_le, not_lt] at hrange
    refine .inl ⟨rfl, hrange.imp_left fun hlow => hlow.le.trans ?_⟩
    exact zpow_le_one_of_nonpos₀ (by norm_num) (by decide)

/-- An angle up to `10 * scale`, and a whole turn in a precision of units `unit` whose product with the scale is as small as
the precision that is asked for demands. -/
structure Reducible (p wp : Precision) (x turn : Decimal) (scale unit : ℝ) : Prop where
  scale_ge : 1 ≤ scale
  unit_pos : 0 < unit
  mul_eq : scale * unit = 1 / 10 ^ (p.digits + 10)
  roundoff_eq : roundoff wp.digits = 5 * unit
  angle_le : |(x.toRat : ℝ)| ≤ 10 * scale
  turn_near : |(turn.toRat : ℝ) - 2 * Real.pi| ≤ 80 * unit
  turn_ge : (628 / 100 : ℝ) ≤ turn.toRat
  turn_le : (turn.toRat : ℝ) ≤ 629 / 100

theorem reducible (hp : p.digits < 2 ^ 32) (hx : x.leading ≤ Precision.maxDigits) {wp : Precision}
    (hwp : wp = p.guard (guardDigits + x.leading.toNat)) {turn : Decimal} (hturn : turn = (pi wp).mul two wp) :
    Reducible p wp x turn (10 ^ x.leading.toNat) (1 / 10 ^ wp.digits) := by
  have hpos := p.digits_pos
  have hplaces : x.leading.toNat ≤ 1000 := Int.toNat_le.mpr hx
  have hdigits : wp.digits = p.digits + 10 + x.leading.toNat := by
    rw [hwp, Nat.add_assoc]
    rfl
  have hnear := abs_turn_sub_le (p := wp) (by omega) (by omega)
  obtain ⟨hlow, hhigh⟩ := turn_bounds (p := wp) (by omega) (by omega)
  rw [← hturn] at hnear hlow hhigh
  refine ⟨one_le_pow₀ (by norm_num), by positivity, ?_, by rw [roundoff, mul_one_div], ?_, by rwa [mul_one_div], hlow, hhigh⟩
  · rw [hdigits, pow_add _ (p.digits + 10)]
    field_simp
  · have hless := (Rat.cast_lt (K := ℝ)).mpr (abs_lt_of_leading x)
    push_cast at hless
    rw [← pow_succ']
    exact hless.le

namespace Reducible
variable {wp : Precision} {turn : Decimal} {scale unit : ℝ}

theorem small (h : Reducible p wp x turn scale unit) : scale * unit ≤ 1 / 10 ^ 11 := by
  have hpos := p.digits_pos
  rw [h.mul_eq]
  exact one_div_le_one_div_of_le (by norm_num) (pow_le_pow_right₀ (by norm_num) (by omega))

theorem unit_le (h : Reducible p wp x turn scale unit) : unit ≤ scale * unit :=
  le_mul_of_one_le_left h.unit_pos.le h.scale_ge

theorem turn_pos (h : Reducible p wp x turn scale unit) : (0 : ℝ) < turn.toRat := by linarith [h.turn_ge]

/-- The quotient, and its rounding. -/
theorem quotient (h : Reducible p wp x turn scale unit) : |(x.toRat / turn.toRat : ℝ)| ≤ 2 * scale ∧
    |((rounded wp.digits (x.toRat / turn.toRat) : ℚ) : ℝ) - x.toRat / turn.toRat| ≤ 10 * (scale * unit) := by
  have hscale := h.scale_ge
  have hunit := h.unit_pos
  have hquotient : |(x.toRat / turn.toRat : ℝ)| ≤ 2 * scale := by
    rw [abs_div, abs_of_pos h.turn_pos, div_le_iff₀ h.turn_pos]
    linarith [h.angle_le, mul_le_mul_of_nonneg_left h.turn_ge (by linarith : 0 ≤ 2 * scale)]
  have herror := abs_rounded_sub_le wp.digits_pos (x.toRat / turn.toRat)
  push_cast at herror
  rw [h.roundoff_eq] at herror
  exact ⟨hquotient, by linarith [mul_le_mul_of_nonneg_left hquotient (by linarith : 0 ≤ 5 * unit)]⟩

/-- What is left of the angle, if the number of turns is hardly farther than one from the quotient. -/
theorem rest (h : Reducible p wp x turn scale unit) {z : ℝ}
    (hz : |z - (rounded wp.digits (x.toRat / turn.toRat) : ℚ)| ≤ 1) : |x.toRat - z * turn.toRat| ≤ 63 / 10 := by
  have hpos := h.turn_pos
  have htriangle := abs_sub_le z (rounded wp.digits (x.toRat / turn.toRat) : ℚ) (x.toRat / turn.toRat)
  have hsplit : (x.toRat - z * turn.toRat : ℝ) = (x.toRat / turn.toRat - z) * turn.toRat := by field_simp
  rw [hsplit, abs_mul, abs_of_pos hpos, abs_sub_comm]
  calc |z - (x.toRat / turn.toRat : ℝ)| * turn.toRat ≤ (1 + 1 / 10 ^ 10) * (629 / 100) := by
        refine mul_le_mul ?_ h.turn_le hpos.le (by norm_num)
        linarith [h.quotient.2, h.small]
    _ ≤ 63 / 10 := by norm_num

/-- An angle within a turn is small; there are not more turns than the exponent range has places. -/
theorem abs_le_of_few (h : Reducible p wp x turn scale unit) (hscale : scale ≤ 10 ^ 1000)
    (hfew : |rounded wp.digits (x.toRat / turn.toRat)| ≤ 1 ∨
      10 ^ (maxExponent + 1) ≤ |rounded wp.digits (x.toRat / turn.toRat)|) : |(x.toRat : ℝ)| ≤ 7 := by
  have hone : |((rounded wp.digits (x.toRat / turn.toRat) : ℚ) : ℝ)| ≤ 1 := by
    refine hfew.elim (fun hone => by exact_mod_cast hone) fun hmany => absurd hmany (not_le.mpr ?_)
    obtain ⟨hsize, hround⟩ := h.quotient
    have htriangle := abs_sub_abs_le_abs_sub ((rounded wp.digits (x.toRat / turn.toRat) : ℚ) : ℝ)
      (x.toRat / turn.toRat)
    rw [← Rat.cast_lt (K := ℝ)]
    push_cast
    calc |((rounded wp.digits (x.toRat / turn.toRat) : ℚ) : ℝ)| ≤ 10 * scale := by linarith [h.scale_ge, h.small]
      _ ≤ 10 * 10 ^ 1000 := by gcongr
      _ = 10 ^ ((1001 : ℕ) : ℤ) := by rw [zpow_natCast, ← pow_succ']
      _ < 10 ^ (maxExponent + 1) := by
        rw [zpow_lt_zpow_iff_right₀ (by norm_num)]
        decide
  have hrest := h.rest (z := 0) (by rwa [zero_sub, abs_neg])
  rw [zero_mul, sub_zero] at hrest
  linarith

/-- Taking whole turns from an angle. -/
theorem sub_turns (h : Reducible p wp x turn scale unit) {turns : Decimal} {z : ℤ} (hz : turns.toRat = z)
    (hnear : |(z : ℝ) - (rounded wp.digits (x.toRat / turn.toRat) : ℚ)| ≤ 1) :
    |((x.sub (turns.mul turn wp) wp).toRat : ℝ) - (x.toRat - z * (2 * Real.pi))| ≤ 1 / 10 ^ (p.digits + 7) ∧
      |((x.sub (turns.mul turn wp) wp).toRat : ℝ)| ≤ 7 := by
  obtain ⟨y, hy⟩ : ∃ y, y = turns.mul turn wp := ⟨_, rfl⟩
  obtain ⟨r, hr⟩ : ∃ r, r = x.sub y wp := ⟨_, rfl⟩
  rw [← hy, ← hr]
  have hunit := h.unit_pos
  have hrest := h.rest hnear
  have hmany : |(z * turn.toRat : ℝ)| ≤ 17 * scale := by
    have htriangle := abs_sub_abs_le_abs_sub (z * turn.toRat : ℝ) x.toRat
    rw [abs_sub_comm] at htriangle
    linarith [h.angle_le, h.scale_ge]
  have hcount : |(z : ℝ)| ≤ 3 * scale := by
    rw [abs_mul, abs_of_pos h.turn_pos] at hmany
    linarith [mul_le_mul_of_nonneg_left h.turn_ge (abs_nonneg (z : ℝ)), h.scale_ge]
  have hproduct : |(y.toRat - z * turn.toRat : ℝ)| ≤ 85 * (scale * unit) := by
    have hround := abs_rounded_sub_le wp.digits_pos (turns.toRat * turn.toRat)
    rw [← toRat_mul, ← hy, hz, h.roundoff_eq] at hround
    push_cast at hround
    linarith [mul_le_mul_of_nonneg_left hmany (by linarith : 0 ≤ 5 * unit)]
  have hleft : |(x.toRat - y.toRat : ℝ)| ≤ 64 / 10 := by
    have htriangle := abs_sub_le (x.toRat : ℝ) (z * turn.toRat) y.toRat
    rw [abs_sub_comm (z * turn.toRat : ℝ)] at htriangle
    linarith [h.small]
  have hdifference : |(r.toRat - (x.toRat - y.toRat) : ℝ)| ≤ 64 * unit := by
    have hround := abs_add_sub_le x y.neg wp
    rw [toRat_neg, h.roundoff_eq, ← sub, ← hr] at hround
    push_cast at hround
    rw [← sub_eq_add_neg] at hround
    linarith [mul_le_mul_of_nonneg_left hleft (by linarith : 0 ≤ 2 * (5 * unit))]
  have hturns : |(z * (turn.toRat - 2 * Real.pi) : ℝ)| ≤ 240 * (scale * unit) := by
    rw [abs_mul]
    calc |(z : ℝ)| * |(turn.toRat - 2 * Real.pi : ℝ)| ≤ 3 * scale * (80 * unit) :=
          mul_le_mul hcount h.turn_near (abs_nonneg _) (by linarith [h.scale_ge])
      _ = 240 * (scale * unit) := by ring
  constructor
  · have hsplit : (r.toRat - (x.toRat - z * (2 * Real.pi)) : ℝ) =
        (r.toRat - (x.toRat - y.toRat)) - (y.toRat - z * turn.toRat) - z * (turn.toRat - 2 * Real.pi) := by ring
    have hplaces : (1 : ℝ) / 10 ^ (p.digits + 7) = 1000 * (scale * unit) := by
      rw [h.mul_eq, pow_add, pow_add]
      field_simp
      norm_num
    rw [hsplit, hplaces]
    refine (abs_sub _ _).trans ?_
    linarith [abs_sub (r.toRat - (x.toRat - y.toRat) : ℝ) (y.toRat - z * turn.toRat), h.unit_le]
  · have htriangle := abs_sub_abs_le_abs_sub (r.toRat : ℝ) (x.toRat - y.toRat)
    linarith [h.small, h.unit_le]

end Reducible

/-- The angle that is left differs from the exact one by much less than a unit of the precision that is asked for. -/
theorem exists_reduced (hp : p.digits < 2 ^ 32) (hx : x.leading ≤ Precision.maxDigits) {wp : Precision}
    (hwp : wp = p.guard (guardDigits + x.leading.toNat)) :
    ∃ z : ℤ, |((x.reduceAngle wp).toRat : ℝ) - (x.toRat - z * (2 * Real.pi))| ≤ 1 / 10 ^ (p.digits + 7) ∧
      |((x.reduceAngle wp).toRat : ℝ)| ≤ 7 := by
  obtain ⟨turn, hturn⟩ : ∃ turn, turn = (pi wp).mul two wp := ⟨_, rfl⟩
  have h := reducible hp hx hwp hturn
  rcases reduceAngle_cases x hturn (by exact_mod_cast h.turn_pos.ne') with ⟨hsame, hfew⟩ | ⟨turns, z, hz, hnear, hsub⟩
  · refine ⟨0, ?_, ?_⟩
    · rw [hsame, Int.cast_zero, zero_mul, sub_zero, sub_self, abs_zero]
      positivity
    · rw [hsame]
      exact h.abs_le_of_few (pow_le_pow_right₀ (by norm_num) (Int.toNat_le.mpr hx)) hfew
  · rw [hsub]
    exact ⟨z, h.sub_turns hz (by exact_mod_cast hnear)⟩

/-! ### The result -/

/-- The rounding of a number below one. -/
theorem abs_rounded_sub_le_of_lt_one (hp : 0 < p.digits) {s : ℚ} (hs : |s| < 1) :
    |rounded p.digits s - s| ≤ 1 / 2 * (1 / 10 ^ p.digits) := by
  rcases eq_or_ne s 0 with rfl | hne
  · rw [rounded_zero, sub_self, abs_zero]
    positivity
  · have hlog : Int.log 10 |s| < 0 := by
      rw [← Int.lt_zpow_iff_log_lt (by decide) (abs_pos.mpr hne), zpow_zero]
      exact hs
    have hunit : unit p.digits s ≤ 1 / 10 ^ p.digits := by
      rw [unit, one_div, ← zpow_natCast, ← zpow_neg, ten_zpow_le]
      omega
    linarith [(abs_rounded_sub_le_unit hp s).1]

theorem rounded_of_beyond_one (hp : 0 < p.digits) {s : ℚ} (hs : 1 ≤ s) (hs' : s ≤ 1 + 1 / 10 ^ p.digits) :
    rounded p.digits s = 1 := by
  have hunit : (10 : ℚ) ^ (0 - p.digits + 1 : ℤ) = 10 * (1 / 10 ^ p.digits) := by
    rw [zero_sub, zpow_add₀ (by norm_num), zpow_neg, zpow_natCast, zpow_one]
    ring
  have hpos : (0 : ℚ) < 1 / 10 ^ p.digits := by positivity
  refine rounded_of_near hp (fits_one hp) (k := 0) (by norm_num) (by norm_num) ?_ ?_
  · rw [hunit]
    linarith
  · rw [hunit]
    linarith

/-- A number near one between -1 and 1 is rounded to one of these again. -/
theorem abs_rounded_sub_lt (hp : 0 < p.digits) {s : ℚ} {t : ℝ} (ht : |t| ≤ 1)
    (h : |s - t| ≤ 9 / 20 * (1 / 10 ^ p.digits)) :
    |((rounded p.digits s : ℚ) : ℝ) - t| < 1 / 10 ^ p.digits ∧ -1 ≤ rounded p.digits s ∧ rounded p.digits s ≤ 1 := by
  have hpos : (0 : ℝ) < 1 / 10 ^ p.digits := by positivity
  have hone := fits_one hp
  obtain ⟨htlow, hthigh⟩ := abs_le.mp ht
  obtain ⟨hlow, hhigh⟩ := abs_le.mp h
  rcases lt_or_ge |s| 1 with hless | hmore
  · have hround := (Rat.cast_le (K := ℝ)).mpr (abs_rounded_sub_le_of_lt_one hp hless)
    push_cast at hround
    obtain ⟨hslow, hshigh⟩ := abs_lt.mp hless
    refine ⟨?_, hone.neg.le_rounded hp hslow.le, hone.rounded_le hp hshigh.le⟩
    linarith [abs_sub_le ((rounded p.digits s : ℚ) : ℝ) s t]
  rcases le_abs.mp hmore with hs | hs
  · have hs' : (1 : ℝ) ≤ s := by exact_mod_cast hs
    have hbeyond : s ≤ 1 + 1 / 10 ^ p.digits := by
      rw [← Rat.cast_le (K := ℝ)]
      push_cast
      linarith
    rw [rounded_of_beyond_one hp hs hbeyond, Rat.cast_one, abs_lt]
    exact ⟨⟨by linarith, by linarith⟩, by norm_num, le_rfl⟩
  · have hs' : (1 : ℝ) ≤ -s := by exact_mod_cast hs
    have hbeyond : -s ≤ 1 + 1 / 10 ^ p.digits := by
      rw [← Rat.cast_le (K := ℝ)]
      push_cast
      linarith
    rw [← neg_neg s, rounded_neg, rounded_of_beyond_one hp hs hbeyond, Rat.cast_neg, Rat.cast_one, abs_lt]
    exact ⟨⟨by linarith, by linarith⟩, le_rfl, by norm_num⟩

/-! ### Sine and cosine -/

theorem anglePrecision?_eq (x : Decimal) (p : Precision) : x.anglePrecision? p =
    if x.leading ≤ Precision.maxDigits then some (p.guard (guardDigits + x.leading.toNat)) else none := by
  unfold anglePrecision?
  by_cases hx : x.leading ≤ Precision.maxDigits
  · rw [if_neg (Nat.not_lt.mpr (Int.toNat_le.mpr hx)), if_pos hx]
  · rw [if_pos (Int.lt_toNat.mpr (not_le.mp hx)), if_neg hx]

theorem sinReduced_near {r : Decimal} (hp : 11 ≤ p.digits) (hp' : p.digits ≤ 43 * 10 ^ 8) (hr : |(r.toRat : ℝ)| ≤ 7) :
    |((sinReduced r p).toRat : ℝ) - Real.sin r.toRat| ≤ 41 * 10 ^ 8 / 10 ^ p.digits := by
  have hw : Series.WaveSum p r r 1 (Real.sin r.toRat) :=
    ⟨hp, hp', hr, by simp [Series.wave], Series.hasSum_wave_sin _, Real.abs_sin_le_one _⟩
  obtain ⟨ending, hrun, hnear⟩ := Series.exists_ending_near hw
  rw [sinReduced, Series.oddFactorials?, hrun]
  exact hnear

theorem cosReduced_near {r : Decimal} (hp : 11 ≤ p.digits) (hp' : p.digits ≤ 43 * 10 ^ 8) (hr : |(r.toRat : ℝ)| ≤ 7) :
    |((cosReduced r p).toRat : ℝ) - Real.cos r.toRat| ≤ 41 * 10 ^ 8 / 10 ^ p.digits := by
  have hw : Series.WaveSum p r one 0 (Real.cos r.toRat) :=
    ⟨hp, hp', hr, by simp [Series.wave, toRat_one], Series.hasSum_wave_cos _, Real.abs_cos_le_one _⟩
  obtain ⟨ending, hrun, hnear⟩ := Series.exists_ending_near hw
  rw [cosReduced, Series.evenFactorials?, hrun]
  exact hnear

/-- The sum of a series at a reduced angle, where turns do not change the limit `f`, which grows no faster than the
angle. -/
theorem near_of_reduced {f : ℝ → ℝ} (hperiod : ∀ (y : ℝ) (z : ℤ), f (y - z * (2 * Real.pi)) = f y)
    (hslow : ∀ y y', |f y - f y'| ≤ |y - y'|) {wp : Precision} (hwp : wp = p.guard (guardDigits + x.leading.toNat))
    {r sum : Decimal} {z : ℤ} (hr : |(r.toRat : ℝ) - (x.toRat - z * (2 * Real.pi))| ≤ 1 / 10 ^ (p.digits + 7))
    (hsum : |(sum.toRat : ℝ) - f r.toRat| ≤ 41 * 10 ^ 8 / 10 ^ wp.digits) :
    |sum.toRat - f x.toRat| ≤ 9 / 20 * (1 / 10 ^ p.digits) := by
  have htriangle := abs_sub_le (sum.toRat : ℝ) (f r.toRat) (f x.toRat)
  have hmove := (hslow r.toRat (x.toRat - z * (2 * Real.pi))).trans hr
  rw [hperiod] at hmove
  have hguard : (41 * 10 ^ 8 / 10 ^ wp.digits : ℝ) ≤ 41 / 100 * (1 / 10 ^ p.digits) := by
    have hdigits : wp.digits = p.digits + 10 + x.leading.toNat := by
      rw [hwp, Nat.add_assoc]
      rfl
    have hplaces : (1 : ℝ) ≤ 10 ^ x.leading.toNat := one_le_pow₀ (by norm_num)
    rw [hdigits, pow_add, pow_add, div_le_iff₀ (by positivity)]
    field_simp
    linarith
  have hangle : (1 : ℝ) / 10 ^ (p.digits + 7) = 1 / 10 ^ 7 * (1 / 10 ^ p.digits) := by
    rw [pow_add]
    field_simp
  have hpos : (0 : ℝ) < 1 / 10 ^ p.digits := by positivity
  linarith

/-- Sine and cosine are found exactly for the angles with at most a thousand digits before the point, and then they lie
between -1 and 1 and differ from the true ones by less than a unit of the last digit behind the point that the precision
stands for. -/
theorem sine_and_cosine_near (x : Decimal) (p : Precision) (hp : p.digits ≤ 10 ^ 9) :
    ((x.sin? p).isSome = true ↔ x.leading ≤ 1000) ∧ ((x.cos? p).isSome = true ↔ x.leading ≤ 1000) ∧
      (∀ s, x.sin? p = some s →
        |(s.toRat : ℝ) - Real.sin x.toRat| < 1 / 10 ^ p.digits ∧ -1 ≤ s.toRat ∧ s.toRat ≤ 1) ∧
      ∀ c, x.cos? p = some c →
        |(c.toRat : ℝ) - Real.cos x.toRat| < 1 / 10 ^ p.digits ∧ -1 ≤ c.toRat ∧ c.toRat ≤ 1 := by
  have hmax : (Precision.maxDigits : ℤ) = 1000 := rfl
  have hpos := p.digits_pos
  rw [sin?, cos?, anglePrecision?_eq, hmax]
  by_cases hx : x.leading ≤ 1000
  · obtain ⟨wp, hwp⟩ : ∃ wp, wp = p.guard (guardDigits + x.leading.toNat) := ⟨_, rfl⟩
    obtain ⟨z, hangle, hsmall⟩ := exists_reduced (by omega) hx hwp
    have hplaces : x.leading.toNat ≤ 1000 := Int.toNat_le.mpr hx
    have hdigits : wp.digits = p.digits + (10 + x.leading.toNat) := by
      rw [hwp]
      rfl
    have hsin := near_of_reduced Real.sin_sub_int_mul_two_pi Real.abs_sin_sub_sin_le hwp hangle
      (sinReduced_near (by omega) (by omega) hsmall)
    have hcos := near_of_reduced Real.cos_sub_int_mul_two_pi Real.abs_cos_sub_cos_le hwp hangle
      (cosReduced_near (by omega) (by omega) hsmall)
    rw [if_pos hx, ← hwp]
    refine ⟨iff_of_true rfl hx, iff_of_true rfl hx, ?_, ?_⟩
    · intro s hs
      rw [← Option.some.inj hs, toRat_roundTo]
      exact abs_rounded_sub_lt hpos (Real.abs_sin_le_one _) hsin
    · intro c hc
      rw [← Option.some.inj hc, toRat_roundTo]
      exact abs_rounded_sub_lt hpos (Real.abs_cos_le_one _) hcos
  · rw [if_neg hx]
    exact ⟨iff_of_false Bool.false_ne_true hx, iff_of_false Bool.false_ne_true hx, nofun, nofun⟩

/-- An angle of many turns. -/
theorem sine_and_cosine_near_many_turns :
    (15 : ℕ) ≤ 10 ^ 9 ∧ leading ⟨1, 22⟩ = 22 ∧
      ∃ s c, sin? ⟨1, 22⟩ ⟨15, by decide⟩ = some s ∧ cos? ⟨1, 22⟩ ⟨15, by decide⟩ = some c ∧
        s = ⟨-852200849767189, -15⟩ ∧ c = ⟨523214785395139, -15⟩ ∧
        |((toRat s : ℚ) : ℝ) - Real.sin (toRat ⟨1, 22⟩ : ℚ)| < 1 / 10 ^ 15 ∧
        |((toRat c : ℚ) : ℝ) - Real.cos (toRat ⟨1, 22⟩ : ℚ)| < 1 / 10 ^ 15 := by
  obtain ⟨-, -, hsin, hcos⟩ := sine_and_cosine_near ⟨1, 22⟩ ⟨15, by decide⟩ (by decide)
  have hs : sin? ⟨1, 22⟩ ⟨15, by decide⟩ = some ⟨-852200849767189, -15⟩ := by decide +kernel
  have hc : cos? ⟨1, 22⟩ ⟨15, by decide⟩ = some ⟨523214785395139, -15⟩ := by decide +kernel
  exact ⟨by decide, by decide +kernel, _, _, hs, hc, rfl, rfl, (hsin _ hs).1, (hcos _ hc).1⟩

end
end Calculator.Decimal
