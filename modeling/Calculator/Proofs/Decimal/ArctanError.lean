import Calculator.Proofs.Decimal.Pi
import Calculator.Proofs.Decimal.Powers
import Calculator.Proofs.Decimal.Summation
import Mathlib.Analysis.Real.Pi.Bounds
/-!
The error of the arctangent. A halving of the angle costs five roundings. The terms of the series are so small beside
their argument that most of what the sum loses is one rounding for each, and there are hardly more terms than digits. For
precisions of 32 bits that is a few units of the last digit, ten at most with those of a quarter turn.
-/
namespace Calculator.Decimal

/-! ### Differences of arctangents -/

theorem abs_arctan_le (t : ℝ) : |Real.arctan t| ≤ |t| := by
  have hle : ∀ t : ℝ, 0 ≤ t → Real.arctan t ≤ t := fun t ht => by
    have htan := Real.le_tan (Real.arctan_nonneg.mpr ht) (Real.arctan_lt_pi_div_two t)
    rwa [Real.tan_arctan] at htan
  rcases le_total 0 t with ht | ht
  · rw [abs_of_nonneg ht, abs_of_nonneg (Real.arctan_nonneg.mpr ht)]
    exact hle t ht
  · have hneg := hle (-t) (neg_nonneg.mpr ht)
    have hnonneg := Real.arctan_nonneg.mpr (neg_nonneg.mpr ht)
    rw [Real.arctan_neg] at hneg hnonneg
    rwa [abs_of_nonpos ht, abs_of_nonpos (neg_nonneg.mp hnonneg)]

theorem abs_arctan_sub_arctan_le {a b : ℝ} (h : 0 ≤ a * b) :
    |Real.arctan a - Real.arctan b| ≤ |a - b| / (1 + a * b) := by
  have hsum := Real.arctan_add (x := a) (y := -b) (by linarith)
  rw [Real.arctan_neg, ← sub_eq_add_neg, ← sub_eq_add_neg, mul_neg, sub_neg_eq_add] at hsum
  rw [hsum]
  refine (abs_arctan_le _).trans_eq ?_
  rw [abs_div, abs_of_pos (by linarith : 0 < 1 + a * b)]

theorem abs_arctan_sub_arctan_le_abs (a b : ℝ) : |Real.arctan a - Real.arctan b| ≤ |a - b| := by
  have hslope : ∀ t ∈ Set.univ, ‖deriv Real.arctan t‖ ≤ 1 := fun t _ => by
    rw [Real.deriv_arctan, Real.norm_of_nonneg (by positivity)]
    exact div_le_one_of_le₀ (by linarith [sq_nonneg t]) (by positivity)
  have hmean := convex_univ.norm_image_sub_le_of_norm_deriv_le (fun t _ => Real.differentiableAt_arctan t) hslope
    (Set.mem_univ b) (Set.mem_univ a)
  rwa [one_mul] at hmean

/-! ### Halvings -/

/-- The tangent of half the angle with this one. -/
noncomputable def halfTangent (t : ℝ) : ℝ := t / (1 + √(1 + t ^ 2))

theorem two_mul_arctan_halfTangent (t : ℝ) : 2 * Real.arctan (halfTangent t) = Real.arctan t := by
  obtain ⟨h, hh⟩ : ∃ h, h = √(1 + t ^ 2) := ⟨_, rfl⟩
  have hsq : h * h = 1 + t ^ 2 := hh ▸ Real.mul_self_sqrt (by positivity)
  have hone : 1 ≤ h := by rw [hh, Real.one_le_sqrt]; linarith [sq_nonneg t]
  have hless : |t| < 1 + h := abs_lt_of_sq_lt_sq (by nlinarith) (by linarith)
  obtain ⟨hlow, hhigh⟩ := abs_lt.mp hless
  rw [halfTangent, ← hh, Real.two_mul_arctan]
  · congr 1
    have hdenominator : 1 - (t / (1 + h)) ^ 2 = 2 / (1 + h) := by
      field_simp
      linear_combination hsq
    rw [hdenominator]
    field_simp
  · rw [lt_div_iff₀ (by linarith)]
    linarith
  · rwa [div_lt_one (by linarith)]

theorem abs_halfTangent_le (t : ℝ) : |halfTangent t| ≤ |t| / 2 := by
  have hone : 1 ≤ √(1 + t ^ 2) := by rw [Real.one_le_sqrt]; linarith [sq_nonneg t]
  rw [halfTangent, abs_div, abs_of_pos (by linarith : 0 < 1 + √(1 + t ^ 2))]
  exact div_le_div_of_nonneg_left (abs_nonneg t) two_pos (by linarith)

section
variable {x : Decimal} {p : Precision}

/-- One halving: it stops at a number near the lower end of the exponent range, or it goes on with a number that is off
by five roundings. -/
theorem exists_halving (hp : 8 ≤ p.digits) (hx : x.toRat ≠ 0) (hone : |x.toRat| ≤ 1) (n : ℕ) :
    (halveArctan p (n + 1) x = x ∧ |x.toRat| ≤ 7 * 10 ^ (-maxExponent)) ∨
      ∃ y : Decimal, halveArctan p (n + 1) x = halveArctan p n y ∧ Fits p.digits y.toRat ∧ y.toRat ≠ 0 ∧
        (∀ b, |x.toRat| ≤ b → Fits p.digits (b / 2) → |y.toRat| ≤ b / 2) ∧
          SignedClose p.digits 5 y.toRat (halfTangent x.toRat) := by
  have hp' := p.digits_pos
  obtain ⟨d, hd, -, -, hclose, hstop, hgo⟩ := exists_divisor hp x n
  have hd0 : 0 < d.toRat := by linarith
  have hd0' : (0 : ℝ) < d.toRat := by exact_mod_cast hd0
  obtain ⟨c, hc, hdiv⟩ := div?_eq x hd0.ne' p
  have habs : |c.toRat| = rounded p.digits (|x.toRat| / d.toRat) := by
    rw [hc, abs_rounded hp', abs_div, abs_of_pos hd0]
  have hne : c.toRat ≠ 0 := by
    rw [hc, ← sign_ne_zero, sign_rounded hp', sign_ne_zero]
    exact div_ne_zero hx hd0.ne'
  have hle (b : ℚ) (hb : |x.toRat| ≤ b) (hfits : Fits p.digits (b / 2)) : |c.toRat| ≤ b / 2 :=
    habs ▸ hfits.rounded_le hp' (div_le_div₀ ((abs_nonneg _).trans hb) hb two_pos hd)
  by_cases hrange : Representable c.toRat
  · refine .inr ⟨c, hgo c ?_, hc ▸ fits_rounded hp' _, hne, hle, ?_⟩
    · rw [hdiv, checked_eq, if_pos hrange]
    · have hdivisor : 0 < 1 + √(1 + (x.toRat : ℝ) ^ 2) := by positivity
      have hsigned : SignedClose p.digits 4 d.toRat (1 + √(1 + (x.toRat : ℝ) ^ 2)) := by
        rw [SignedClose, sign_pos hd0', sign_pos hdivisor, abs_of_pos hd0', abs_of_pos hdivisor]
        exact ⟨rfl, hclose⟩
      have hquotient := (SignedClose.refl p.digits (x.toRat : ℝ)).mul hp' (hsigned.inv hp' hdivisor.ne')
      rw [← Rat.cast_inv, ← Rat.cast_mul, ← div_eq_mul_inv, ← div_eq_mul_inv] at hquotient
      rw [hc]
      exact (signedClose_rounded hp' _).trans hp' hquotient
  · refine .inl ⟨hstop (by rw [hdiv, checked_eq, if_neg hrange]), ?_⟩
    have hsix : d.toRat ≤ 6 := by
      have hmore := hclose.le_two_mul hp' hd0'.le (by
        have hroundoff : roundoff p.digits ≤ 5 / 10 ^ 8 := roundoff_anti hp
        push_cast
        linarith)
      have hroot : √(1 + (x.toRat : ℝ) ^ 2) ≤ 2 := by
        rw [Real.sqrt_le_left two_pos.le]
        have hsq : x.toRat ^ 2 ≤ 1 := (sq_le_one_iff_abs_le_one _).mpr hone
        have hsq' : (x.toRat : ℝ) ^ 2 ≤ 1 := by exact_mod_cast hsq
        linarith
      exact_mod_cast (by linarith : (d.toRat : ℝ) ≤ 6)
    have hlow : |c.toRat| < 10 ^ (-maxExponent) := by
      rw [representable_iff hne, not_and_or, not_le, not_lt] at hrange
      refine hrange.resolve_right fun hhigh => ?_
      have hhalf := hle 2 (by linarith) (by rw [div_self two_ne_zero]; exact fits_one hp')
      have hpower : (10 : ℚ) ^ (1 : ℤ) ≤ 10 ^ (maxExponent + 1) := ten_zpow_le.mpr (by decide)
      norm_num at hpower
      linarith
    obtain ⟨hround, -⟩ := rounded_bounds hp (by positivity : 0 ≤ |x.toRat| / d.toRat)
    rw [← habs, ← mul_div_assoc, div_le_iff₀ hd0] at hround
    linarith [mul_le_mul_of_nonneg_left hsix (abs_nonneg c.toRat), ten_zpow_pos (-maxExponent)]

theorem fits_eighths (hp : 8 ≤ p.digits) {m : ℕ} (hm : m ≤ 3) : Fits p.digits (1 / 2 ^ m) := by
  refine Fits.mono (p := 8) ⟨5 ^ m, -m, ?_, ?_⟩ hp
  · have hpower : (5 : ℤ) ^ m ≤ 5 ^ 3 := pow_le_pow_right₀ (by norm_num) hm
    rw [abs_of_nonneg (by positivity)]
    linarith
  · rw [zpow_neg, zpow_natCast, ← div_eq_mul_inv, show (10 : ℚ) = 5 * 2 by norm_num, mul_pow]
    push_cast
    field_simp

/-- What `n` halvings get to: a number up to an eighth, whose angle is off by the roundings, each of them doubled as often
as the halvings behind it, and by what is left where they stop. -/
structure Halves (p : Precision) (n : ℕ) (x y : Decimal) : Prop where
  fits : Fits p.digits y.toRat
  ne_zero : y.toRat ≠ 0
  le : |y.toRat| ≤ 1 / 2 ^ 3
  near : |2 ^ n * Real.arctan y.toRat - Real.arctan x.toRat| ≤
    (2 ^ n - 1) * (10 * roundoff p.digits * |(x.toRat : ℝ)|) + 2 ^ n * (7 * 10 ^ (-maxExponent))

/-- Where the halvings stop, the angle is so small that its multiple is small as well. -/
theorem Halves.of_tiny (hfits : Fits p.digits x.toRat) (hx : x.toRat ≠ 0) (htiny : |x.toRat| ≤ 7 * 10 ^ (-maxExponent))
    (n : ℕ) : Halves p n x x := by
  refine ⟨hfits, hx, ?_, ?_⟩
  · linarith [sixteen_least_le, ten_zpow_pos (-maxExponent)]
  · have htiny' : |(x.toRat : ℝ)| ≤ 7 * 10 ^ (-maxExponent) := by
      rw [← Rat.cast_le (K := ℝ)] at htiny
      push_cast at htiny
      exact htiny
    have hleast : (0 : ℝ) < 10 ^ (-maxExponent) := by positivity
    have hroundoff := roundoff_pos p.digits
    have hfactor : (0 : ℝ) ≤ 2 ^ n - 1 := sub_nonneg.mpr (one_le_pow₀ (by norm_num))
    have hsplit : 2 ^ n * Real.arctan x.toRat - Real.arctan x.toRat = (2 ^ n - 1) * Real.arctan x.toRat := by ring
    rw [hsplit, abs_mul, abs_of_nonneg hfactor]
    have hmore := mul_le_mul_of_nonneg_left ((abs_arctan_le x.toRat).trans htiny') hfactor
    have hwaste : 0 ≤ (2 ^ n - 1) * (10 * roundoff p.digits * |(x.toRat : ℝ)|) := mul_nonneg hfactor (by positivity)
    linarith

/-- The error of a halving is doubled by those behind it. -/
theorem Halves.of_step (hp : 8 ≤ p.digits) {y z : Decimal} {n : ℕ}
    (hclose : SignedClose p.digits 5 y.toRat (halfTangent x.toRat)) (h : Halves p n y z) : Halves p (n + 1) x z := by
  have hroundoff := roundoff_pos p.digits
  have hwide : roundoff p.digits ≤ 5 / 10 ^ 8 := roundoff_anti hp
  have hnear := hclose.abs_sub_le p.digits_pos (by push_cast; linarith)
  have hmass := abs_halfTangent_le x.toRat
  have hstep : |2 * Real.arctan y.toRat - Real.arctan x.toRat| ≤ 10 * roundoff p.digits * |(x.toRat : ℝ)| := by
    rw [← two_mul_arctan_halfTangent x.toRat, ← mul_sub, abs_mul, abs_two]
    have hangle := (abs_arctan_sub_arctan_le_abs _ _).trans hnear
    push_cast at hangle
    linarith [mul_le_mul_of_nonneg_left hmass hroundoff.le]
  have hless : |(y.toRat : ℝ)| ≤ |(x.toRat : ℝ)| := by
    have htriangle := abs_sub_abs_le_abs_sub (y.toRat : ℝ) (halfTangent x.toRat)
    push_cast at hnear
    linarith [mul_le_mul_of_nonneg_right hwide (abs_nonneg (halfTangent x.toRat)), abs_nonneg (x.toRat : ℝ)]
  have hfactor : (0 : ℝ) ≤ (2 ^ n - 1) * (10 * roundoff p.digits) :=
    mul_nonneg (by linarith [one_le_pow₀ (by norm_num : (1 : ℝ) ≤ 2) (n := n)]) (by positivity)
  refine ⟨h.fits, h.ne_zero, h.le, ?_⟩
  have hsplit : 2 ^ (n + 1) * Real.arctan z.toRat - Real.arctan x.toRat =
      2 * (2 ^ n * Real.arctan z.toRat - Real.arctan y.toRat) + (2 * Real.arctan y.toRat - Real.arctan x.toRat) := by ring
  rw [hsplit]
  refine (abs_add_le _ _).trans ?_
  rw [abs_mul, abs_two, pow_succ]
  linarith [h.near, mul_le_mul_of_nonneg_left hless hfactor]

/-- After `m` halvings of three the number is not greater than it is exactly after as many halvings of one. -/
theorem halves_halveArctan (hp : 8 ≤ p.digits) {m n : ℕ} (hmn : m + n = 3) (hfits : Fits p.digits x.toRat)
    (hx : x.toRat ≠ 0) (hle : |x.toRat| ≤ 1 / 2 ^ m) : Halves p n x (halveArctan p n x) := by
  induction n generalizing m x with
  | zero =>
    obtain rfl : m = 3 := hmn
    refine ⟨hfits, hx, hle, ?_⟩
    simp only [halveArctan, pow_zero, one_mul, sub_self, abs_zero, zero_mul, zero_add]
    positivity
  | succ n ih =>
    have hone : |x.toRat| ≤ 1 := hle.trans (div_le_one_of_le₀ (one_le_pow₀ (by norm_num)) (by positivity))
    rcases exists_halving hp hx hone n with ⟨hstop, htiny⟩ | ⟨y, hgo, hyfits, hy, hyle, hclose⟩
    · rw [hstop]
      exact .of_tiny hfits hx htiny (n + 1)
    · have hhalf : |y.toRat| ≤ 1 / 2 ^ (m + 1) := by
        have hsplit : (1 : ℚ) / 2 ^ (m + 1) = 1 / 2 ^ m / 2 := by rw [pow_succ, div_div]
        rw [hsplit]
        exact hyle _ hle (hsplit ▸ fits_eighths hp (by omega))
      rw [hgo]
      exact .of_step hp hclose (ih (m := m + 1) (by omega) hyfits hy hhalf)

end

/-! ### The series -/

namespace Series

variable {p : Precision} {y square sum : Decimal} {k : ℕ} {s : Position}

/-- The next power and the next term, whether it is in range or not. -/
theorem oddPowerNext_eq (p : Precision) (square : Decimal) (s : Position) :
    ∃ power term : Decimal, power.toRat = -rounded p.digits (s.power.toRat * square.toRat) ∧
      term.toRat = rounded p.digits (power.toRat / (s.index + 2 : ℕ)) ∧
      oddPowerNext p square true s = if Representable term.toRat then some (term, ⟨power, s.index + 2⟩) else none := by
  have hdivisor : (ofInt (s.index + 2 : ℕ)).toRat = (s.index + 2 : ℕ) := by
    rw [toRat_ofInt, Int.cast_natCast]
  obtain ⟨d, hd, hdiv⟩ := div?_eq ((s.power.mul square p).negIf true) (hdivisor.trans_ne (by positivity)) p
  refine ⟨(s.power.mul square p).negIf true, d, ?_, by rw [hd, hdivisor], ?_⟩
  · rw [toRat_negIf, if_pos rfl, toRat_mul]
  · rw [oddPowerNext, hdiv, checked_eq]
    split <;> rfl

/-- What the series is summed for: an argument up to an eighth that is not zero. -/
structure ArctanArgument (p : Precision) (y : Decimal) : Prop where
  digits_ge : 11 ≤ p.digits
  digits_le : p.digits ≤ 44 * 10 ^ 8
  fits : Fits p.digits y.toRat
  ne_zero : y.toRat ≠ 0
  small : |y.toRat| ≤ 1 / 8

theorem ArctanArgument.wide (hy : ArctanArgument p y) : 8 ≤ p.digits := (by decide : 8 ≤ 11).trans hy.digits_ge

theorem ArctanArgument.abs_le (hy : ArctanArgument p y) : |(y.toRat : ℝ)| ≤ 1 / 8 := by
  have hsmall := hy.small
  rw [← Rat.cast_le (K := ℝ)] at hsmall
  push_cast at hsmall
  exact hsmall

/-- The state behind `k` terms: the power has two roundings for each. -/
structure Descended (p : ℕ) (y : ℚ) (k : ℕ) (s : Position) : Prop where
  index_eq : s.index = 2 * k + 1
  power_near : SignedClose p (2 * k) s.power.toRat ((-1) ^ k * (y : ℝ) ^ (2 * k + 1))
  power_le : |s.power.toRat| * 50 ^ k ≤ |y|

theorem Descended.start (p : ℕ) (y : Decimal) : Descended p y.toRat 0 ⟨y, 1⟩ where
  index_eq := rfl
  power_near := by simpa using SignedClose.refl p (y.toRat : ℝ)
  power_le := by simp

/-- A power is less than the one before by a factor of fifty, and has two roundings more. -/
theorem Descended.next (hy : ArctanArgument p y) (h : Descended p.digits y.toRat k s) {power : Decimal}
    (hpower : power.toRat = -rounded p.digits (s.power.toRat * (y.mul y p).toRat)) :
    Descended p.digits y.toRat (k + 1) ⟨power, s.index + 2⟩ := by
  have hp' := p.digits_pos
  obtain ⟨hsquare, hsquare_le⟩ := square_bounds hy.wide hy.ne_zero hy.small
  refine ⟨by rw [h.index_eq]; ring, ?_, ?_⟩
  · have hround := signedClose_rounded hp' (y.toRat * y.toRat)
    rw [← toRat_mul y y p, Rat.cast_mul] at hround
    have hproduct := h.power_near.mul hp' hround
    rw [← Rat.cast_mul] at hproduct
    have hnext := ((signedClose_rounded hp' _).trans hp' hproduct).neg
    rw [hpower]
    push_cast
    have hcount : 1 + (2 * k + 1) = 2 * (k + 1) := by ring
    have hexact : -((-1) ^ k * (y.toRat : ℝ) ^ (2 * k + 1) * (y.toRat * y.toRat)) =
        (-1) ^ (k + 1) * (y.toRat : ℝ) ^ (2 * (k + 1) + 1) := by ring
    rwa [hcount, hexact] at hnext
  · obtain ⟨-, hround⟩ := rounded_bounds hy.wide (mul_nonneg (abs_nonneg s.power.toRat) hsquare.le)
    have hshrink : 50 * |power.toRat| ≤ |s.power.toRat| := by
      rw [hpower, abs_neg, abs_rounded hp', abs_mul, abs_of_pos hsquare]
      linarith [mul_le_mul_of_nonneg_left hsquare_le (abs_nonneg s.power.toRat), abs_nonneg s.power.toRat]
    have hscale := mul_le_mul_of_nonneg_right hshrink (by positivity : (0 : ℚ) ≤ 50 ^ k)
    rw [pow_succ]
    linarith [h.power_le]

/-- A term has one rounding more than its power. -/
theorem Descended.term_near (h : Descended p.digits y.toRat k s) {term : Decimal}
    (hterm : term.toRat = rounded p.digits (s.power.toRat / s.index)) :
    SignedClose p.digits (2 * k + 1) term.toRat ((-1) ^ k * arctanTerm y.toRat k) := by
  have hp' := p.digits_pos
  have hquotient := h.power_near.mul hp' (SignedClose.refl p.digits ((s.index : ℝ)⁻¹))
  rw [← Rat.cast_natCast, ← Rat.cast_inv, ← Rat.cast_mul, ← div_eq_mul_inv, Nat.add_zero] at hquotient
  have hround := (signedClose_rounded hp' _).trans hp' hquotient
  rw [← hterm, Nat.add_comm] at hround
  have hexact : (-1) ^ k * (y.toRat : ℝ) ^ (2 * k + 1) * ((s.index : ℚ)⁻¹ : ℚ) = (-1) ^ k * arctanTerm y.toRat k := by
    rw [arctanTerm, h.index_eq]
    push_cast
    ring
  rwa [hexact] at hround

theorem Gets.descended (hy : ArctanArgument p y) (h : Gets p (oddPowerNext p (y.mul y p) true) ⟨y, 1⟩ y k s sum) :
    Descended p.digits y.toRat k s := by
  induction h with
  | start => exact Descended.start p.digits y
  | @add k s s' sum term h hnext _ ih =>
    obtain ⟨hindex, hpower, -⟩ := oddPowerNext_eq_some hnext
    have hstep := ih.next hy hpower
    rwa [← hindex] at hstep

/-- The state behind a next term that is found, and the term. -/
theorem Gets.found (hy : ArctanArgument p y) (h : Gets p (oddPowerNext p (y.mul y p) true) ⟨y, 1⟩ y k s sum)
    {term : Decimal} {s' : Position} (hnext : oddPowerNext p (y.mul y p) true s = some (term, s')) :
    Descended p.digits y.toRat (k + 1) s' ∧ term.toRat = rounded p.digits (s'.power.toRat / s'.index) := by
  obtain ⟨hindex, hpower, hterm⟩ := oddPowerNext_eq_some hnext
  have hstate := (h.descended hy).next hy hpower
  rw [← hindex] at hstate hterm
  exact ⟨hstate, hterm⟩

/-- The partial sums are not greater than the argument, and hardly less. -/
theorem Gets.sum_bounds (hy : ArctanArgument p y) (h : Gets p (oddPowerNext p (y.mul y p) true) ⟨y, 1⟩ y k s sum) :
    69 * |y.toRat| ≤ 70 * |sum.toRat| ∧ |sum.toRat| ≤ |y.toRat| := by
  obtain ⟨σ, hσ, habs⟩ := exists_abs_eq_mul y.toRat
  obtain ⟨hsquare, hsquare_le⟩ := square_bounds hy.wide hy.ne_zero hy.small
  have hsinking : 0 < s.index ∧ Sinking p.digits |y.toRat| (σ * s.power.toRat) s.index (σ * sum.toRat) := by
    induction h with
    | start => exact ⟨one_pos, Sinking.start_of_sign habs hy.ne_zero hy.fits⟩
    | add _ hnext _ ih =>
      refine ⟨?_, ih.2.next hy.wide hsquare hsquare_le hσ ih.1 hnext⟩
      rw [(oddPowerNext_eq_some hnext).1]
      omega
  exact (hsinking.2.bounds hσ habs hy.ne_zero).2

/-- Each term is less than the argument by as many factors of fifty as there are terms before it. -/
theorem Descended.term_small (hy : ArctanArgument p y) (h : Descended p.digits y.toRat k s) (hk : 0 < k)
    {term : Decimal} (hterm : term.toRat = rounded p.digits (s.power.toRat / s.index)) :
    |term.toRat| * 50 ^ k ≤ |y.toRat| := by
  have hindex : (3 : ℚ) ≤ s.index := by
    rw [h.index_eq]
    exact_mod_cast (by omega : 3 ≤ 2 * k + 1)
  obtain ⟨-, hround⟩ := rounded_bounds hy.wide (by positivity : 0 ≤ |s.power.toRat| / s.index)
  have hless : |term.toRat| ≤ |s.power.toRat| := by
    rw [hterm, abs_rounded p.digits_pos, abs_div, Nat.abs_cast]
    refine hround.trans ?_
    rw [mul_div_assoc', div_le_iff₀ (by linarith)]
    linarith [mul_le_mul_of_nonneg_left hindex (abs_nonneg s.power.toRat), abs_nonneg s.power.toRat]
  exact (mul_le_mul_of_nonneg_right hless (by positivity)).trans h.power_le

/-- There are hardly more terms than digits. -/
theorem Gets.lt_digits (hy : ArctanArgument p y) (h : Gets p (oddPowerNext p (y.mul y p) true) ⟨y, 1⟩ y k s sum) :
    k < p.digits + 4 := by
  cases h with
  | start => omega
  | @add k s s' sum term hgets hnext hmore =>
    obtain ⟨hstate, hterm⟩ := hgets.found hy hnext
    have hsmall := hstate.term_small hy k.succ_pos hterm
    have hlarge := (abs_le_of_not_negligible hmore).2
    have hsum := (hgets.sum_bounds hy).1
    have hpos := abs_pos.mpr hy.ne_zero
    have hpower : (10 : ℚ) ^ (k + 1) < 10 ^ (p.digits + 4) := by
      refine lt_of_mul_lt_mul_left ?_ hpos.le
      calc |y.toRat| * 10 ^ (k + 1) ≤ 70 / 69 * |sum.toRat| * 50 ^ (k + 1) := by
            gcongr
            · linarith
            · norm_num
        _ ≤ 70 / 69 * (|term.toRat| * 10 ^ (p.digits + 3)) * 50 ^ (k + 1) := by gcongr
        _ = 70 / 69 * (|term.toRat| * 50 ^ (k + 1)) * 10 ^ (p.digits + 3) := by ring
        _ ≤ 70 / 69 * |y.toRat| * 10 ^ (p.digits + 3) := by gcongr
        _ < |y.toRat| * 10 ^ (p.digits + 4) := by
          rw [pow_succ _ (p.digits + 3)]
          have hten : (0 : ℚ) < 10 ^ (p.digits + 3) := by positivity
          linarith [mul_pos hpos hten]
    exact (pow_lt_pow_iff_right₀ (by norm_num)).mp hpower

theorem Gets.few (hy : ArctanArgument p y) (h : Gets p (oddPowerNext p (y.mul y p) true) ⟨y, 1⟩ y k s sum) :
    ((2 * (k + 1) + 1 : ℕ) : ℝ) * roundoff p.digits ≤ 1 / 2 := by
  have hk := h.lt_digits hy
  have hdigits := hy.digits_le
  have hcount : ((2 * (k + 1) + 1 : ℕ) : ℝ) ≤ 10 ^ 10 := by exact_mod_cast (by omega : 2 * (k + 1) + 1 ≤ 10 ^ 10)
  calc ((2 * (k + 1) + 1 : ℕ) : ℝ) * roundoff p.digits ≤ 10 ^ 10 * (5 / 10 ^ 11) :=
        mul_le_mul hcount (roundoff_anti hy.digits_ge) (roundoff_pos _).le (by positivity)
    _ = 1 / 2 := by norm_num

/-- The error of a term, which is added to that of its sum. -/
theorem Gets.term_error (hy : ArctanArgument p y) (h : Gets p (oddPowerNext p (y.mul y p) true) ⟨y, 1⟩ y k s sum)
    {term : Decimal} {s' : Position} (hnext : oddPowerNext p (y.mul y p) true s = some (term, s')) :
    |(term.toRat : ℝ) - (-1) ^ (k + 1) * arctanTerm y.toRat (k + 1)| ≤ roundoff p.digits / 256 := by
  obtain ⟨hstate, hterm⟩ := h.found hy hnext
  have hsmall := hy.abs_le
  refine ((hstate.term_near hterm).abs_sub_le p.digits_pos (h.few hy)).trans ?_
  have hexact : |(-1) ^ (k + 1) * arctanTerm y.toRat (k + 1)| =
      |(y.toRat : ℝ)| ^ (2 * (k + 1) + 1) / (2 * (k + 1) + 1 : ℕ) := by
    rw [abs_mul, abs_neg_one_pow, one_mul, arctanTerm, abs_div, abs_pow, Nat.abs_cast]
  have hpow : |(y.toRat : ℝ)| ^ (2 * (k + 1) + 1) ≤ 1 / 512 := by
    calc |(y.toRat : ℝ)| ^ (2 * (k + 1) + 1) ≤ (1 / 8) ^ (2 * (k + 1) + 1) := by gcongr
      _ ≤ (1 / 8) ^ 3 := pow_le_pow_of_le_one (by norm_num) (by norm_num) (by omega)
      _ = 1 / 512 := by norm_num
  rw [hexact]
  have hcount : ((2 * (k + 1) + 1 : ℕ) : ℝ) ≠ 0 := by positivity
  calc 2 * (((2 * (k + 1) + 1 : ℕ) : ℝ) * roundoff p.digits) *
        (|(y.toRat : ℝ)| ^ (2 * (k + 1) + 1) / (2 * (k + 1) + 1 : ℕ))
      = 2 * roundoff p.digits * |(y.toRat : ℝ)| ^ (2 * (k + 1) + 1) := by
        field_simp
    _ ≤ 2 * roundoff p.digits * (1 / 512) := by
        have hroundoff := roundoff_pos p.digits
        gcongr
    _ = roundoff p.digits / 256 := by ring

/-- The distance of the sum from as many exact terms. -/
theorem Gets.near_partial (hy : ArctanArgument p y) (h : Gets p (oddPowerNext p (y.mul y p) true) ⟨y, 1⟩ y k s sum) :
    |(sum.toRat : ℝ) - ∑ i ∈ Finset.range (k + 1), (-1) ^ i * arctanTerm y.toRat i| ≤ k * (3 / 10 * roundoff p.digits) := by
  have hroundoff := roundoff_pos p.digits
  refine (h.abs_sum_sub_le (fun _ => roundoff p.digits / 256) (fun _ => 1 / 7) ?_ ?_ ?_).trans ?_
  · simp [arctanTerm]
  · intro k s sum term s' hgets hnext
    exact hgets.term_error hy hnext
  · intro k s sum term s' hgets hnext _ _
    obtain ⟨hstate, hterm⟩ := hgets.found hy hnext
    have hsum := (hgets.sum_bounds hy).2
    have hterm_small := hstate.term_small hy k.succ_pos hterm
    have hpow : (50 : ℚ) ≤ 50 ^ (k + 1) := le_self_pow₀ (by norm_num) k.succ_ne_zero
    have hsmall := hy.small
    have hboth : |sum.toRat + term.toRat| ≤ 1 / 7 := by
      linarith [abs_add_le sum.toRat term.toRat, mul_le_mul_of_nonneg_left hpow (abs_nonneg term.toRat)]
    rw [← Rat.cast_le (K := ℝ)] at hboth
    push_cast at hboth
    exact hboth
  · rw [drift, Finset.sum_const, Finset.card_range, nsmul_eq_mul]
    gcongr
    linarith

/-- Where a run ends the next term, found or not, is too small to count. -/
theorem Gets.abs_next_le (hy : ArctanArgument p y) (h : Gets p (oddPowerNext p (y.mul y p) true) ⟨y, 1⟩ y k s sum)
    (hend : ∀ term s', oddPowerNext p (y.mul y p) true s = some (term, s') → negligible term sum p = true) :
    |(-1) ^ (k + 1) * arctanTerm y.toRat (k + 1)| ≤ 1 / 10 ^ p.digits := by
  obtain ⟨power, term, hpower, hterm, hnext⟩ := oddPowerNext_eq p (y.mul y p) s
  have hstate := (h.descended hy).next hy hpower
  have hexact := (hstate.term_near hterm).2.symm.le_two_mul p.digits_pos (abs_nonneg _) (h.few hy)
  have hpow : (1 : ℚ) ≤ 50 ^ (k + 1) := one_le_pow₀ (by norm_num)
  have hless : |term.toRat| ≤ 1 / 8 := by
    linarith [hy.small, hstate.term_small hy k.succ_pos hterm, mul_le_mul_of_nonneg_left hpow (abs_nonneg term.toRat)]
  have hone : (1 : ℚ) ≤ 10 ^ (maxExponent + 1) := one_le_zpow₀ (by norm_num) (by decide)
  have htiny : |term.toRat| * 10 ^ p.digits ≤ 1 / 2 := by
    rcases abs_lt_of_end (fun hrange => hend _ _ (by rw [hnext, if_pos hrange])) (by linarith) with hfar | hlow
    · rw [pow_add] at hfar
      linarith [hy.small, (h.sum_bounds hy).2, mul_nonneg (abs_nonneg term.toRat) (by positivity : (0 : ℚ) ≤ 10 ^ p.digits)]
    · have hfew := hy.digits_le
      linarith [mul_le_mul_of_nonneg_right hlow.le (by positivity : (0 : ℚ) ≤ 10 ^ p.digits),
        least_mul_le (n := p.digits) (by omega)]
  have htiny' := (Rat.cast_le (K := ℝ)).mpr htiny
  push_cast at htiny'
  rw [le_div_iff₀ (by positivity)]
  linarith [mul_le_mul_of_nonneg_right hexact (by positivity : (0 : ℝ) ≤ 10 ^ p.digits)]

/-- The rest of the series, for an argument of either sign. -/
theorem abs_arctan_sub_sum_le {t : ℝ} (ht : |t| < 1) (n : ℕ) :
    |Real.arctan t - ∑ i ∈ Finset.range n, (-1) ^ i * arctanTerm t i| ≤ |(-1) ^ n * arctanTerm t n| := by
  have hodd : ∀ i, arctanTerm (-t) i = -arctanTerm t i := fun i => by
    rw [arctanTerm, (odd_two_mul_add_one i).neg_pow, neg_div, arctanTerm]
  rw [abs_mul, abs_neg_one_pow, one_mul]
  rcases le_total 0 t with h | h
  · rw [abs_of_nonneg h] at ht
    exact (abs_arctan_sub_le h ht n).trans (le_abs_self _)
  · rw [abs_of_nonpos h] at ht
    have hneg := abs_arctan_sub_le (neg_nonneg.mpr h) ht n
    simp only [Real.arctan_neg, hodd, mul_neg, Finset.sum_neg_distrib] at hneg
    rw [← neg_sub', abs_neg] at hneg
    exact hneg.trans (neg_le_abs _)

/-- The sum of the series is found, and it is off by a unit or two of the working precision for each digit. -/
theorem arctanSum_near (hy : ArctanArgument p y) :
    |((((oddPowers? p true y).map Ending.sum).getD y).toRat : ℝ) - Real.arctan y.toRat| ≤
      (3 / 2 * p.digits + 6) / 10 ^ p.digits := by
  have hsteps : 10 ^ 16 ≤ steps y := Nat.le_add_left ..
  have hdigits := hy.digits_le
  have hstart : Gets p (oddPowerNext p (y.mul y p) true) ⟨y, 1⟩ y 0 ⟨y, 1⟩ y := .start
  obtain ⟨ending, hrun, k, s, hgets, hend⟩ := hstart.run (steps y) fun j s sum hj => by
    have hless := hj.lt_digits hy
    omega
  have hpartial := hgets.near_partial hy
  have hrest := (abs_arctan_sub_sum_le (by linarith [hy.abs_le]) (k + 1)).trans (hgets.abs_next_le hy hend)
  have hk : (k : ℝ) ≤ p.digits + 3 := by exact_mod_cast Nat.le_of_lt_succ (hgets.lt_digits hy)
  have hsum : (((oddPowers? p true y).map Ending.sum).getD y) = ending.sum := by rw [oddPowers?, hrun]; rfl
  have hmore := mul_le_mul_of_nonneg_right hk (by linarith [roundoff_pos p.digits] : 0 ≤ 3 / 10 * roundoff p.digits)
  have htriangle := abs_sub_le (ending.sum.toRat : ℝ) (∑ i ∈ Finset.range (k + 1), (-1) ^ i * arctanTerm y.toRat i)
    (Real.arctan y.toRat)
  rw [abs_sub_comm (Real.arctan _)] at hrest
  have hsplit : (3 / 2 * p.digits + 6 : ℝ) / 10 ^ p.digits =
      (p.digits + 3) * (3 / 10 * roundoff p.digits) + 1 / 10 ^ p.digits + 1 / 2 / 10 ^ p.digits := by
    rw [roundoff]
    ring
  have hhalf : (0 : ℝ) ≤ 1 / 2 / 10 ^ p.digits := by positivity
  rw [hsum, hsplit]
  linarith

end Series
/-! ### The arctangent -/

section
variable {x : Decimal} {p : Precision}

/-- A number near `z` that is rounded twice, the first time to ten digits more. -/
theorem abs_rounded_twice_sub_le (hp : 8 ≤ p.digits) {wp : Precision} (hwp : wp = p.guard guardDigits) {q : ℚ}
    {z B E : ℝ} (hB : |z| ≤ B) (hE : E ≤ 10 ^ 12) (h : |(q : ℝ) - z| ≤ E / 10 ^ wp.digits) :
    |((rounded p.digits (rounded wp.digits q) : ℚ) : ℝ) - z| ≤ (51 / 10 * B + E / 10 ^ 10 + 1 / 10) / 10 ^ p.digits := by
  have hwp' : wp.digits = p.digits + 10 := by rw [hwp]; rfl
  obtain ⟨t, ht, ht0, ht1, hroundoff⟩ := exists_place hp
  have hfirst := abs_rounded_sub_le wp.digits_pos q
  have hsecond := abs_rounded_sub_le p.digits_pos (rounded wp.digits q)
  have hroundoff' : roundoff wp.digits = 5 / 10 ^ 10 * t := by
    rw [roundoff, hwp', ht, pow_add]
    ring
  have hnear : |(q : ℝ) - z| ≤ E / 10 ^ 10 * t := by
    refine h.trans_eq ?_
    rw [hwp', ht, pow_add]
    ring
  rw [hroundoff'] at hfirst
  rw [hroundoff] at hsecond
  have hsize : |(q : ℝ)| ≤ B + 1 / 10 ^ 5 := by
    have hEt : E / 10 ^ 10 * t ≤ 10 ^ 2 * (1 / 10 ^ 8) := mul_le_mul (by linarith) ht1 ht0.le (by norm_num)
    linarith [abs_sub_abs_le_abs_sub (q : ℝ) z]
  have hscale := mul_le_mul_of_nonneg_left hsize ht0.le
  have hsize' : |((rounded wp.digits q : ℚ) : ℝ)| ≤ 1001 / 1000 * |(q : ℝ)| := by
    linarith [abs_sub_abs_le_abs_sub ((rounded wp.digits q : ℚ) : ℝ) q, mul_le_mul_of_nonneg_right ht1 (abs_nonneg (q : ℝ)),
      abs_nonneg (q : ℝ)]
  have hscale' := mul_le_mul_of_nonneg_left hsize' ht0.le
  have hsplit : (51 / 10 * B + E / 10 ^ 10 + 1 / 10) / 10 ^ p.digits =
      51 / 10 * (t * B) + E / 10 ^ 10 * t + 1 / 10 * t := by
    rw [ht]
    ring
  have hB0 := mul_nonneg ht0.le ((abs_nonneg z).trans hB)
  rw [hsplit]
  linarith [abs_sub_le ((rounded p.digits (rounded wp.digits q) : ℚ) : ℝ) (rounded wp.digits q : ℚ) z,
    abs_sub_le ((rounded wp.digits q : ℚ) : ℝ) q z]

/-- The arctangent of a number up to one is off by eleven units of its last place, counted from the point. -/
theorem abs_atanWithinOne_sub_le (hp : 8 ≤ p.digits) (hp' : p.digits ≤ 43 * 10 ^ 8 + 20)
    (hfits : Fits (p.digits + 10) x.toRat) (hone : |x.toRat| ≤ 1) :
    |((x.atanWithinOne p).toRat : ℝ) - Real.arctan x.toRat| ≤ 11 / 10 ^ p.digits := by
  rcases eq_or_ne x.toRat 0 with hzero | hx
  · have hvalue : x.atanWithinOne p = zero := by rw [atanWithinOne, if_pos (isZero_iff.mpr hzero)]
    rw [hvalue, hzero, toRat_zero, Rat.cast_zero, Real.arctan_zero, sub_zero, abs_zero]
    positivity
  obtain ⟨wp, hwp⟩ : ∃ wp, wp = p.guard guardDigits := ⟨_, rfl⟩
  have hwp' : wp.digits = p.digits + 10 := by rw [hwp]; rfl
  obtain ⟨y, hy⟩ : ∃ y, y = halveArctan wp 3 x := ⟨_, rfl⟩
  obtain ⟨sum, hsum⟩ : ∃ sum, sum = ((Series.oddPowers? wp true y).map Series.Ending.sum).getD y := ⟨_, rfl⟩
  have hhalves : Halves wp 3 x y := by
    rw [hy]
    exact halves_halveArctan (m := 0) (by omega) rfl (hwp' ▸ hfits) hx (by rwa [pow_zero, div_one])
  have hseries := Series.arctanSum_near (p := wp) (y := y)
    ⟨by omega, by omega, hhalves.fits, hhalves.ne_zero, hhalves.le.trans (by norm_num)⟩
  rw [← hsum] at hseries
  have hone' : |(x.toRat : ℝ)| ≤ 1 := by exact_mod_cast hone
  have hangle := hhalves.near
  have hleast : (10 : ℝ) ^ (-maxExponent) ≤ 1 / 100 / 10 ^ wp.digits := by
    have hpower : (10 : ℝ) ^ (-maxExponent) ≤ 10 ^ (-(wp.digits + 2 : ℕ) : ℤ) := by
      rw [zpow_le_zpow_iff_right₀ (by norm_num)]
      unfold maxExponent
      omega
    refine hpower.trans_eq ?_
    rw [zpow_neg, zpow_natCast, pow_add]
    field_simp
    norm_num
  have herror : |((sum.toRat * 8 : ℚ) : ℝ) - Real.arctan x.toRat| ≤ (12 * wp.digits + 400) / 10 ^ wp.digits := by
    have hroundoff := roundoff_pos wp.digits
    have hsplit : ((sum.toRat * 8 : ℚ) : ℝ) - Real.arctan x.toRat =
        8 * (sum.toRat - Real.arctan y.toRat) + (2 ^ 3 * Real.arctan y.toRat - Real.arctan x.toRat) := by
      push_cast
      ring
    have hmore := mul_le_mul_of_nonneg_left hone' (by positivity : 0 ≤ 70 * roundoff wp.digits)
    have htotal : (12 * wp.digits + 400 : ℝ) / 10 ^ wp.digits = 8 * ((3 / 2 * wp.digits + 6) / 10 ^ wp.digits) +
        (70 * roundoff wp.digits + 200 * (1 / 100 / 10 ^ wp.digits)) := by
      rw [roundoff]
      ring
    have height : (2 : ℝ) ^ 3 = 8 := by norm_num
    rw [height] at hangle
    rw [hsplit, htotal, height]
    refine (abs_add_le _ _).trans ?_
    rw [abs_mul, abs_of_pos (by norm_num : (0 : ℝ) < 8)]
    linarith [(by positivity : (0 : ℝ) < 10 ^ (-maxExponent))]
  have hcount : (wp.digits : ℝ) ≤ 43 * 10 ^ 8 + 30 := by exact_mod_cast (by omega : wp.digits ≤ 43 * 10 ^ 8 + 30)
  rw [toRat_atanWithinOne hx hwp hy hsum]
  refine (abs_rounded_twice_sub_le hp hwp ((abs_arctan_le _).trans hone') (by linarith) herror).trans ?_
  gcongr
  linarith

theorem abs_quarterTurn_sub_le (hp : 8 ≤ p.digits) (hp' : p.digits ≤ 43 * 10 ^ 8) :
    |((quarterTurn p).toRat : ℝ) - Real.pi / 2| ≤ 20 / 10 ^ p.digits := by
  obtain ⟨q, hvalue, hnear⟩ := exists_near_pi hp'
  obtain ⟨t, ht, ht0, ht1, hroundoff⟩ := exists_place hp
  have hplace : (10 : ℝ) ^ (1 - p.digits : ℤ) / 2 = 5 * t := by
    rw [zpow_sub₀ (by norm_num), zpow_one, zpow_natCast, ht]
    ring
  rw [hplace] at hnear
  have hsize : |(q : ℝ)| ≤ 315 / 100 := by
    linarith [abs_sub_abs_le_abs_sub (q : ℝ) Real.pi, abs_of_pos Real.pi_pos, Real.pi_lt_d4]
  -- The number π, and its half, each of them rounded.
  have hpi := abs_rounded_sub_le p.digits_pos q
  rw [← hvalue, hroundoff] at hpi
  have hscale := mul_le_mul_of_nonneg_left hsize ht0.le
  have hpi_size : |((pi p).toRat : ℝ)| ≤ 316 / 100 := by
    linarith [abs_sub_abs_le_abs_sub ((pi p).toRat : ℝ) q]
  have hhalf := abs_rounded_sub_le p.digits_pos ((pi p).toRat * (1 / 2))
  rw [← toRat_half, ← toRat_mul, toRat_half, hroundoff] at hhalf
  push_cast at hhalf
  rw [abs_mul, abs_of_pos (by norm_num : (0 : ℝ) < 1 / 2)] at hhalf
  have hscale' := mul_le_mul_of_nonneg_left hpi_size ht0.le
  have hsplit : (20 : ℝ) / 10 ^ p.digits = 20 * t := by rw [ht]; ring
  rw [hsplit, quarterTurn]
  obtain ⟨hlow, hhigh⟩ := abs_le.mp hpi
  obtain ⟨hlow', hhigh'⟩ := abs_le.mp hhalf
  obtain ⟨hlow'', hhigh''⟩ := abs_lt.mp hnear
  rw [abs_le]
  constructor <;> linarith

/-- The arctangent of the inverse, on either side of zero. -/
theorem arctan_inv (hx : x.toRat ≠ 0) : Real.arctan (x.toRat : ℝ)⁻¹ =
    (if x.isNegative then -(Real.pi / 2) else Real.pi / 2) - Real.arctan x.toRat := by
  rcases lt_or_gt_of_ne hx with hneg | hpos
  · rw [if_pos (isNegative_iff.mpr hneg), Real.arctan_inv_of_neg (by exact_mod_cast hneg)]
  · rw [if_neg (mt isNegative_iff.mp hpos.not_gt), Real.arctan_inv_of_pos (by exact_mod_cast hpos)]

/-- The arctangent of a number beyond one, before it is rounded: a quarter turn less the arctangent of the inverse. -/
theorem exists_beyond_one {wp : Precision} (hwp : wp = p.guard guardDigits) (hp' : p.digits ≤ 43 * 10 ^ 8 - 10)
    (hone : 1 < |x.toRat|) (hle : |x.toRat| ≤ 10 ^ maxExponent) :
    ∃ q : ℚ, (x.atan p).toRat = rounded p.digits (rounded wp.digits q) ∧
      |(q : ℝ) - Real.arctan x.toRat| ≤ 40 / 10 ^ wp.digits := by
  have hwp' : wp.digits = p.digits + 10 := by rw [hwp]; rfl
  have hpos := wp.digits_pos
  have hx : x.toRat ≠ 0 := abs_pos.mp (by linarith)
  obtain ⟨c, hc, -, -, -, hcone, hcfits⟩ := exists_inverse (p := wp) hone.le hle
  have hinverse : c.toRat = rounded wp.digits (1 / x.toRat) := by
    obtain ⟨d, hd, hdiv⟩ := div?_eq one hx wp
    rw [hdiv] at hc
    rw [← eq_of_checked hc, hd, toRat_one]
  obtain ⟨quarter, hquarter⟩ : ∃ q, q = (quarterTurn wp).negIf x.isNegative := ⟨_, rfl⟩
  have hvalue : quarter.toRat = if x.isNegative then -(quarterTurn wp).toRat else (quarterTurn wp).toRat := by
    rw [hquarter, toRat_negIf]
  have hturn : Fits wp.digits (quarterTurn wp).toRat := by
    rw [quarterTurn, toRat_mul]
    exact fits_rounded hpos _
  have hfits : Fits wp.digits quarter.toRat := by
    rw [hvalue]
    split
    · exact hturn.neg
    · exact hturn
  have hinner := fits_of_digits (within_atanWithinOne c wp).digits_le
  refine ⟨quarter.toRat - (c.atanWithinOne wp).toRat, ?_, ?_⟩
  · rw [← toRat_sub (hfits.isolated hpos) (hinner.isolated hpos), ← toRat_roundTo, hquarter, atan,
      if_pos (lt_iff.mpr (by rw [toRat_one, toRat_abs]; exact hone))]
    dsimp only
    rw [← hwp, hc]
  · have hquarter_near := abs_quarterTurn_sub_le (p := wp) (by omega) (by omega)
    have hturn_near : |(quarter.toRat : ℝ) - if x.isNegative then -(Real.pi / 2) else Real.pi / 2| ≤ 20 / 10 ^ wp.digits := by
      rw [hvalue]
      split
      · rw [Rat.cast_neg, ← neg_sub', abs_neg]
        exact hquarter_near
      · exact hquarter_near
    have hinner_near := abs_atanWithinOne_sub_le (x := c) (p := wp) (by omega) (by omega) (hcfits.mono (by omega)) hcone
    have hround := abs_rounded_sub_le hpos (1 / x.toRat)
    rw [← hinverse] at hround
    push_cast at hround
    rw [one_div] at hround
    have hsmall : |(x.toRat : ℝ)⁻¹| ≤ 1 := by
      rw [abs_inv, ← Rat.cast_abs]
      exact inv_le_one_of_one_le₀ (by exact_mod_cast hone.le)
    have hangle := (abs_arctan_sub_arctan_le_abs (c.toRat : ℝ) (x.toRat : ℝ)⁻¹).trans
      (hround.trans (mul_le_of_le_one_right (roundoff_pos _).le hsmall))
    rw [arctan_inv hx] at hangle
    rw [roundoff] at hangle
    have hsplit : ((quarter.toRat - (c.atanWithinOne wp).toRat : ℚ) : ℝ) - Real.arctan x.toRat =
        (quarter.toRat - if x.isNegative then -(Real.pi / 2) else Real.pi / 2) -
          ((c.atanWithinOne wp).toRat - Real.arctan c.toRat) -
            (Real.arctan c.toRat - ((if x.isNegative then -(Real.pi / 2) else Real.pi / 2) - Real.arctan x.toRat)) := by
      push_cast
      ring
    have htotal : (40 : ℝ) / 10 ^ wp.digits = 20 / 10 ^ wp.digits + 11 / 10 ^ wp.digits + 5 / 10 ^ wp.digits +
        4 / 10 ^ wp.digits := by ring
    have hrest : (0 : ℝ) ≤ 4 / 10 ^ wp.digits := by positivity
    rw [hsplit, htotal]
    refine (abs_sub _ _).trans ?_
    linarith [abs_sub (quarter.toRat - if x.isNegative then -(Real.pi / 2) else Real.pi / 2 : ℝ)
      ((c.atanWithinOne wp).toRat - Real.arctan c.toRat)]

/-- The arctangent is off by eleven units of its last place at most, counted from the point. -/
theorem abs_atan_sub_le (hp : 8 ≤ p.digits) (hp' : p.digits ≤ 43 * 10 ^ 8 - 10)
    (hfits : Fits (p.digits + 10) x.toRat) (hle : |x.toRat| ≤ 10 ^ maxExponent) :
    |((x.atan p).toRat : ℝ) - Real.arctan x.toRat| ≤ 11 / 10 ^ p.digits := by
  rcases le_or_gt |x.toRat| 1 with hone | hone
  · rw [atan, if_neg (by rw [lt_iff, toRat_one, toRat_abs]; exact hone.not_gt)]
    exact abs_atanWithinOne_sub_le hp (by omega) hfits hone
  · obtain ⟨q, hvalue, herror⟩ := exists_beyond_one rfl hp' hone hle
    have hangle : |Real.arctan x.toRat| ≤ 158 / 100 := by
      rw [abs_le]
      constructor <;> linarith [Real.arctan_lt_pi_div_two x.toRat, Real.neg_pi_div_two_lt_arctan x.toRat, Real.pi_lt_d2]
    rw [hvalue]
    refine (abs_rounded_twice_sub_le hp rfl hangle (by norm_num) herror).trans ?_
    gcongr
    norm_num

end
end Calculator.Decimal
