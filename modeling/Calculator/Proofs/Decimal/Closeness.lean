import Calculator.Proofs.Decimal.Quotients
import Calculator.Proofs.Decimal.Roots
import Mathlib.Analysis.SpecialFunctions.Log.Basic
import Mathlib.Tactic.GCongr
/-!
Relative errors. Two numbers are close up to so many roundings if none is smaller than the other one after it has lost
half a unit of its last digit so often. Products, quotients and sums of close numbers are close, and each operation on
decimal numbers adds one rounding.
-/
namespace Calculator.Decimal

/-- The greatest relative error of a rounding to `p` digits. -/
noncomputable def roundoff (p : ℕ) : ℝ := 5 / 10 ^ p

/-- The numbers agree up to `n` roundings to `p` digits. -/
def Close (p n : ℕ) (a b : ℝ) : Prop := b * (1 - roundoff p) ^ n ≤ a ∧ a * (1 - roundoff p) ^ n ≤ b

theorem roundoff_pos (p : ℕ) : 0 < roundoff p := by
  unfold roundoff
  positivity

theorem roundoff_anti {n p : ℕ} (h : n ≤ p) : roundoff p ≤ roundoff n := by
  have hpower : (10 : ℝ) ^ n ≤ 10 ^ p := pow_le_pow_right₀ (by norm_num) h
  unfold roundoff
  gcongr

/-- The unit of the last of `p` places behind the point. -/
theorem exists_place {n p : ℕ} (h : n ≤ p) :
    ∃ t : ℝ, t = 1 / 10 ^ p ∧ 0 < t ∧ t ≤ 1 / 10 ^ n ∧ roundoff p = 5 * t :=
  ⟨1 / 10 ^ p, rfl, by positivity, one_div_le_one_div_of_le (by positivity) (pow_le_pow_right₀ (by norm_num) h), by
    rw [roundoff]
    ring⟩

theorem roundoff_le_half {p : ℕ} (hp : 0 < p) : roundoff p ≤ 1 / 2 := by
  have hten : (10 : ℝ) ≤ 10 ^ p := le_self_pow₀ (by norm_num) hp.ne'
  rw [roundoff, div_le_iff₀ (by positivity)]
  linarith

section
variable {p n m : ℕ} {a b c d : ℝ}

theorem keep_pos (hp : 0 < p) : 0 < 1 - roundoff p := by linarith [roundoff_le_half hp]

theorem keep_le_one (p : ℕ) : 1 - roundoff p ≤ 1 := by linarith [roundoff_pos p]

/-! ### The relation -/

theorem Close.refl (p : ℕ) (a : ℝ) : Close p 0 a a := by
  simp [Close]

theorem Close.symm (h : Close p n a b) : Close p n b a := ⟨h.2, h.1⟩

theorem Close.trans (hp : 0 < p) (h : Close p n a b) (h' : Close p m b c) : Close p (n + m) a c := by
  have hkeep := (keep_pos hp).le
  constructor
  · calc c * (1 - roundoff p) ^ (n + m)
        = c * (1 - roundoff p) ^ m * (1 - roundoff p) ^ n := by ring
      _ ≤ b * (1 - roundoff p) ^ n := by gcongr; exact h'.1
      _ ≤ a := h.1
  · calc a * (1 - roundoff p) ^ (n + m)
        = a * (1 - roundoff p) ^ n * (1 - roundoff p) ^ m := by ring
      _ ≤ b * (1 - roundoff p) ^ m := by gcongr; exact h.2
      _ ≤ c := h'.2

theorem Close.mono (hp : 0 < p) (ha : 0 ≤ a) (hb : 0 ≤ b) (h : Close p n a b) (hn : n ≤ m) : Close p m a b := by
  have hpower : (1 - roundoff p) ^ m ≤ (1 - roundoff p) ^ n :=
    pow_le_pow_of_le_one (keep_pos hp).le (keep_le_one p) hn
  exact ⟨(mul_le_mul_of_nonneg_left hpower hb).trans h.1, (mul_le_mul_of_nonneg_left hpower ha).trans h.2⟩

theorem Close.nonneg (hp : 0 < p) (h : Close p n a b) (hb : 0 ≤ b) : 0 ≤ a :=
  (mul_nonneg hb (pow_nonneg (keep_pos hp).le n)).trans h.1

theorem Close.pos (hp : 0 < p) (h : Close p n a b) (hb : 0 < b) : 0 < a :=
  (mul_pos hb (pow_pos (keep_pos hp) n)).trans_le h.1

theorem Close.mul (hp : 0 < p) (hb : 0 ≤ b) (hd : 0 ≤ d) (h : Close p n a b) (h' : Close p m c d) :
    Close p (n + m) (a * c) (b * d) := by
  have hkeep := (keep_pos hp).le
  have ha := h.nonneg hp hb
  have hc := h'.nonneg hp hd
  constructor
  · calc b * d * (1 - roundoff p) ^ (n + m)
        = b * (1 - roundoff p) ^ n * (d * (1 - roundoff p) ^ m) := by ring
      _ ≤ a * c := mul_le_mul h.1 h'.1 (by positivity) ha
  · calc a * c * (1 - roundoff p) ^ (n + m)
        = a * (1 - roundoff p) ^ n * (c * (1 - roundoff p) ^ m) := by ring
      _ ≤ b * d := mul_le_mul h.2 h'.2 (by positivity) hb

theorem Close.div (hp : 0 < p) (hb : 0 ≤ b) (hd : 0 < d) (h : Close p n a b) (h' : Close p m c d) :
    Close p (n + m) (a / c) (b / d) := by
  have hkeep := (keep_pos hp).le
  have ha := h.nonneg hp hb
  have hc := h'.pos hp hd
  constructor
  · rw [le_div_iff₀ hc]
    calc b / d * (1 - roundoff p) ^ (n + m) * c
        = b * (1 - roundoff p) ^ n * (c * (1 - roundoff p) ^ m) / d := by ring
      _ ≤ a * d / d := by
        gcongr ?_ / d
        exact mul_le_mul h.1 h'.2 (by positivity) ha
      _ = a := mul_div_cancel_right₀ a hd.ne'
  · rw [le_div_iff₀ hd]
    calc a / c * (1 - roundoff p) ^ (n + m) * d
        = a * (1 - roundoff p) ^ n * (d * (1 - roundoff p) ^ m) / c := by ring
      _ ≤ b * c / c := by
        gcongr ?_ / c
        exact mul_le_mul h.2 h'.1 (by positivity) hb
      _ = b := mul_div_cancel_right₀ b hc.ne'

theorem Close.add (h : Close p n a b) (h' : Close p n c d) : Close p n (a + c) (b + d) := by
  constructor
  · rw [add_mul]
    exact add_le_add h.1 h'.1
  · rw [add_mul]
    exact add_le_add h.2 h'.2

theorem mul_le_sqrt {c k : ℝ} (hc : 0 ≤ c) (hk : 0 ≤ k) (hk1 : k ≤ 1) (h : c * k ≤ d) : √c * k ≤ √d := by
  have hroot : k ≤ √k := Real.le_sqrt_of_sq_le (by rw [sq]; exact mul_le_of_le_one_left hk hk1)
  calc √c * k ≤ √c * √k := mul_le_mul_of_nonneg_left hroot (Real.sqrt_nonneg c)
    _ = √(c * k) := (Real.sqrt_mul hc k).symm
    _ ≤ √d := Real.sqrt_le_sqrt h

/-- A square root has no greater errors than the number. -/
theorem Close.sqrt (hp : 0 < p) (hb : 0 ≤ b) (h : Close p n a b) : Close p n √a √b := by
  have hkeep := pow_nonneg (keep_pos hp).le n
  have hkeep' := pow_le_one₀ (n := n) (keep_pos hp).le (keep_le_one p)
  exact ⟨mul_le_sqrt hb hkeep hkeep' h.1, mul_le_sqrt (h.nonneg hp hb) hkeep hkeep' h.2⟩

/-- A relative error that is not greater than that of a rounding. -/
theorem close_of_abs_sub_le (hp : 0 < p) (hb : 0 ≤ b) (h : |a - b| ≤ roundoff p * b) : Close p 1 a b := by
  obtain ⟨hlow, hhigh⟩ := abs_le.mp h
  rw [Close, pow_one]
  constructor
  · linarith
  · calc a * (1 - roundoff p)
        ≤ (b + roundoff p * b) * (1 - roundoff p) := mul_le_mul_of_nonneg_right (by linarith) (keep_pos hp).le
      _ = b - roundoff p ^ 2 * b := by ring
      _ ≤ b := sub_le_self b (by positivity)

/-- What remains after `n` roundings. -/
theorem keep_pow_ge (hp : 0 < p) (n : ℕ) : 1 - n * roundoff p ≤ (1 - roundoff p) ^ n := by
  have hbernoulli := one_add_mul_le_pow (by linarith [roundoff_le_half hp] : (-2 : ℝ) ≤ -roundoff p) n
  rwa [← sub_eq_add_neg, mul_neg, ← sub_eq_add_neg] at hbernoulli

/-- An excess that is not greater than the error of `n` roundings. -/
theorem close_of_le (hp : 0 < p) (hb : 0 ≤ b) (hle : b ≤ a) (h : a ≤ (1 + n * roundoff p) * b) : Close p n a b := by
  have hroundoff := roundoff_pos p
  have hkeep := keep_pos hp
  have hgrowth : (1 + n * roundoff p) * (1 - roundoff p) ^ n ≤ 1 := by
    calc (1 + n * roundoff p) * (1 - roundoff p) ^ n
        ≤ (1 + roundoff p) ^ n * (1 - roundoff p) ^ n := by
          gcongr
          exact one_add_mul_le_pow (by linarith) n
      _ = (1 - roundoff p ^ 2) ^ n := by rw [← mul_pow]; ring
      _ ≤ 1 := pow_le_one₀ (by nlinarith [roundoff_le_half hp]) (by linarith [sq_nonneg (roundoff p)])
  constructor
  · exact (mul_le_of_le_one_right hb (pow_le_one₀ hkeep.le (keep_le_one p))).trans hle
  · calc a * (1 - roundoff p) ^ n
        ≤ (1 + n * roundoff p) * b * (1 - roundoff p) ^ n := by gcongr
      _ = (1 + n * roundoff p) * (1 - roundoff p) ^ n * b := by ring
      _ ≤ b := mul_le_of_le_one_left hb hgrowth

theorem Close.le_two_mul (hp : 0 < p) (ha : 0 ≤ a) (h : Close p n a b) (hn : n * roundoff p ≤ 1 / 2) : a ≤ 2 * b := by
  have hkeep := (mul_le_mul_of_nonneg_left (keep_pow_ge hp n) ha).trans h.2
  linarith [mul_le_mul_of_nonneg_left hn ha]

/-- The relative error of few roundings. -/
theorem Close.abs_sub_le (hp : 0 < p) (hb : 0 ≤ b) (h : Close p n a b) (hn : n * roundoff p ≤ 1 / 2) :
    |a - b| ≤ 2 * (n * roundoff p) * b := by
  have hkeep := keep_pow_ge hp n
  have hroundoff := roundoff_pos p
  have hnonneg : 0 ≤ n * roundoff p := by positivity
  have ha := h.nonneg hp hb
  have hlow : b * (1 - n * roundoff p) ≤ a := (mul_le_mul_of_nonneg_left hkeep hb).trans h.1
  have hhigh : a * (1 - n * roundoff p) ≤ b := (mul_le_mul_of_nonneg_left hkeep ha).trans h.2
  rw [abs_le]
  constructor
  · linarith [mul_nonneg hnonneg hb]
  · linarith [mul_le_mul_of_nonneg_left (h.le_two_mul hp ha hn) hnonneg]

end

/-! ### Roundings -/

section
variable {p : ℕ} {y : ℝ} {r : ℚ}

/-- Numbers with `p` digits stay on their side of the rounding. -/
theorem IsRealRounding.ge_of_fits (h : IsRealRounding p y r) {s : ℚ} (hs : Fits p s) (hle : s ≤ y) : s ≤ r := by
  by_contra! hlt
  have hlt' : (r : ℝ) < s := by exact_mod_cast hlt
  have hnear := h.nearest s hs
  rw [abs_of_pos (by linarith), abs_of_nonneg (by linarith)] at hnear
  linarith

theorem IsRealRounding.le_of_fits (h : IsRealRounding p y r) {s : ℚ} (hs : Fits p s) (hle : y ≤ s) : r ≤ s := by
  have hneg := h.neg.ge_of_fits hs.neg (by rw [Rat.cast_neg]; exact neg_le_neg hle)
  exact neg_le_neg_iff.mp hneg

/-- A rounding differs from the number by half a unit of the last digit at most. -/
theorem IsRealRounding.abs_sub_le (hp : 0 < p) (h : IsRealRounding p y r) (hy : 0 < y) :
    |(r : ℝ) - y| ≤ roundoff p * y := by
  set k := Int.log 10 y with hk
  have hlow : (10 : ℝ) ^ k ≤ y := by exact_mod_cast Int.zpow_log_le_self (b := 10) (by decide) hy
  have hhigh : y < (10 : ℝ) ^ (k + 1) := by exact_mod_cast Int.lt_zpow_succ_log_self (b := 10) (by decide) y
  set u : ℝ := 10 ^ (k - p + 1) with hu
  have hupos : 0 < u := by positivity
  have hscale : (10 : ℝ) ^ p * u = 10 ^ (k + 1) := by
    rw [hu, ← zpow_natCast, ← zpow_add₀ (by norm_num)]
    congr 1
    ring
  -- The nearest multiple of the unit of the last digit.
  set n : ℤ := ⌊y / u + 1 / 2⌋
  have hbelow : (n : ℝ) ≤ y / u + 1 / 2 := Int.floor_le _
  have habove : y / u + 1 / 2 < n + 1 := Int.lt_floor_add_one _
  have hbound : |n| ≤ 10 ^ p := by
    have hquotient : y / u < 10 ^ p := by rwa [div_lt_iff₀ hupos, hscale]
    have hquotient' : 0 < y / u := div_pos hy hupos
    have hle : (n : ℝ) < 10 ^ p + 1 := by linarith
    have hge : (-1 : ℝ) < n := by linarith
    have hle' : n < 10 ^ p + 1 := by exact_mod_cast hle
    have hge' : -1 < n := by exact_mod_cast hge
    have hpower : (0 : ℤ) < 10 ^ p := by positivity
    rw [abs_le]
    omega
  have hnear := h.nearest _ (fits_mul_ten_zpow hp hbound (k - p + 1))
  have hdistance : |y - n * u| ≤ u / 2 := by
    have hfactor : y - n * u = (y / u - n) * u := by rw [sub_mul, div_mul_cancel₀ _ hupos.ne']
    have hhalf : |y / u - n| ≤ 1 / 2 := abs_le.mpr ⟨by linarith, by linarith⟩
    rw [hfactor, abs_mul, abs_of_pos hupos]
    linarith [mul_le_mul_of_nonneg_right hhalf hupos.le]
  have hhalf : u / 2 = roundoff p * 10 ^ k := by
    have hten : (10 : ℝ) ^ (k + 1) = 10 ^ k * 10 := by rw [zpow_add₀ (by norm_num), zpow_one]
    rw [roundoff, div_mul_eq_mul_div, eq_div_iff (by positivity)]
    linarith
  push_cast at hnear
  rw [abs_sub_comm]
  calc |y - r| ≤ u / 2 := hnear.trans hdistance
    _ = roundoff p * 10 ^ k := hhalf
    _ ≤ roundoff p * y := mul_le_mul_of_nonneg_left hlow (roundoff_pos p).le

theorem IsRealRounding.close (hp : 0 < p) (h : IsRealRounding p y r) (hy : 0 ≤ y) : Close p 1 r y := by
  rcases hy.eq_or_lt with rfl | hpos
  · rw [← Rat.cast_zero] at h
    rw [h.eq_of_fits hp (fits_zero _), Rat.cast_zero]
    simp [Close]
  · exact close_of_abs_sub_le hp hy (h.abs_sub_le hp hpos)

theorem abs_rounded_sub_le (hp : 0 < p) (q : ℚ) : |((rounded p q : ℚ) : ℝ) - q| ≤ roundoff p * |(q : ℝ)| := by
  refine rounded_cases (P := fun q r => |((r : ℚ) : ℝ) - (q : ℚ)| ≤ roundoff p * |(q : ℝ)|) ?_ (fun q r ih => ?_)
    (fun q hq => ?_) q
  · simp
  · rw [Rat.cast_neg, Rat.cast_neg, abs_neg, ← neg_sub', abs_neg]
    exact ih
  · have hq' : (0 : ℝ) < q := by exact_mod_cast hq
    rw [abs_of_pos hq']
    exact (isRealRounding_cast.mpr (isRounding_rounded hp q)).abs_sub_le hp hq'

/-- The same bound, as one on rational numbers. -/
theorem abs_rounded_sub_le_mul (hp : 0 < p) (q : ℚ) : |rounded p q - q| ≤ 5 / 10 ^ p * |q| := by
  rw [← Rat.cast_le (K := ℝ)]
  push_cast
  exact abs_rounded_sub_le hp q

/-- A rounding to eight digits and more. -/
theorem rounded_bounds {q : ℚ} (hp : 8 ≤ p) (hq : 0 ≤ q) :
    999999 / 1000000 * q ≤ rounded p q ∧ rounded p q ≤ 1000001 / 1000000 * q := by
  have herror := abs_rounded_sub_le_mul (by omega : 0 < p) q
  have hsmall : (5 : ℚ) / 10 ^ p ≤ 1 / 1000000 := by
    rw [div_le_iff₀ (by positivity)]
    have hpower : (10 : ℚ) ^ 8 ≤ 10 ^ p := pow_le_pow_right₀ (by norm_num) hp
    linarith
  rw [abs_of_nonneg hq] at herror
  obtain ⟨hlow, hhigh⟩ := abs_le.mp herror
  have hscale := mul_le_mul_of_nonneg_right hsmall hq
  constructor <;> linarith

theorem close_rounded (hp : 0 < p) {q : ℚ} (hq : 0 ≤ q) : Close p 1 (rounded p q : ℚ) q := by
  have hq' : (0 : ℝ) ≤ q := by exact_mod_cast hq
  have herror := abs_rounded_sub_le hp q
  rw [abs_of_nonneg hq'] at herror
  exact close_of_abs_sub_le hp hq' herror

/-- A number that differs from `y` by less than a unit of its last digit is still rounded to one that does, up to what
the error is above that. -/
theorem abs_rounded_sub_lt_unit (hp : 0 < p) {s : ℚ} {t : ℝ} (ht : 0 ≤ t) (h : |s - y| ≤ 2 / 5 / 10 ^ p * |y| + t) :
    |(rounded p s : ℚ) - y| < unit p (rounded p s) + 25 / 24 * t := by
  have hten : (10 : ℝ) ≤ 10 ^ p := le_self_pow₀ (by norm_num) hp.ne'
  have hsmall : (2 : ℝ) / 5 / 10 ^ p ≤ 1 / 25 := by
    rw [div_le_iff₀ (by positivity)]
    linarith
  have hmass : |y| ≤ 25 / 24 * (|(s : ℝ)| + t) := by
    have htriangle := abs_sub_abs_le_abs_sub y s
    rw [abs_sub_comm y] at htriangle
    linarith [mul_le_mul_of_nonneg_right hsmall (abs_nonneg y)]
  obtain ⟨hround, hunit⟩ := abs_rounded_sub_le_unit hp s
  have hround' : |((rounded p s : ℚ) : ℝ) - s| ≤ unit p s / 2 := by exact_mod_cast hround
  have hunit' : (unit p s : ℝ) ≤ unit p (rounded p s) := by exact_mod_cast hunit
  have hdigits : |(s : ℝ)| < 10 ^ p * unit p s := by exact_mod_cast abs_lt_unit p s
  have hpos : (0 : ℝ) < unit p s := by exact_mod_cast ten_zpow_pos _
  have herror : |s - y| ≤ 5 / 12 * unit p s + 25 / 24 * t := by
    calc |s - y| ≤ 2 / 5 / 10 ^ p * |y| + t := h
      _ ≤ 2 / 5 / 10 ^ p * (25 / 24 * (10 ^ p * unit p s + t)) + t := by
        gcongr
        exact hmass.trans (by linarith)
      _ = 5 / 12 * unit p s + (2 / 5 / 10 ^ p * (25 / 24 * t) + t) := by field_simp; ring
      _ ≤ 5 / 12 * unit p s + 25 / 24 * t := by linarith [mul_le_mul_of_nonneg_right hsmall (by positivity : 0 ≤ 25 / 24 * t)]
  have htriangle := abs_sub_le ((rounded p s : ℚ) : ℝ) s y
  linarith

end

/-! ### Operations -/

section
variable {a b : Decimal} {p : Precision} {n m : ℕ} {x y : ℝ}

theorem close_mul (hx : 0 ≤ x) (hy : 0 ≤ y) (ha : Close p.digits n a.toRat x) (hb : Close p.digits m b.toRat y) :
    Close p.digits (n + m + 1) (a.mul b p).toRat (x * y) := by
  have hproduct := ha.mul p.digits_pos hx hy hb
  have hnonneg : 0 ≤ a.toRat * b.toRat := by
    exact_mod_cast hproduct.nonneg p.digits_pos (mul_nonneg hx hy)
  have hround := close_rounded p.digits_pos hnonneg
  rw [← toRat_mul a b p, Rat.cast_mul] at hround
  rw [add_comm (n + m)]
  exact hround.trans p.digits_pos hproduct

/-- A quotient that is not beyond powers of ten in the exponent range is in range. -/
theorem div?_of_between (hb : b.toRat ≠ 0) {low high : ℤ} (hlow : 10 ^ low ≤ |a.toRat / b.toRat|)
    (hhigh : |a.toRat / b.toRat| ≤ 10 ^ high) (hmin : -maxExponent ≤ low) (hmax : high ≤ maxExponent) (p : Precision) :
    ∃ c, a.div? b p = some c ∧ c.toRat = rounded p.digits (a.toRat / b.toRat) := by
  obtain ⟨c, hc, hdiv⟩ := div?_eq a hb p
  refine ⟨c, ?_, hc⟩
  rw [hdiv, checked_eq_some_iff]
  refine ⟨rfl, ?_⟩
  have hbounds := rounded_between p.digits_pos hlow hhigh
  have habs : Representable |c.toRat| := by
    rcases le_total 0 (a.toRat / b.toRat) with h | h
    · rw [abs_of_nonneg h, ← hc] at hbounds
      rw [abs_of_pos ((ten_zpow_pos low).trans_le hbounds.1)]
      exact representable_of_between hmin hmax hbounds.1 hbounds.2
    · rw [abs_of_nonpos h, rounded_neg, ← hc] at hbounds
      rw [abs_of_neg (neg_pos.mp ((ten_zpow_pos low).trans_le hbounds.1))]
      exact representable_of_between hmin hmax hbounds.1 hbounds.2
  rwa [Representable, abs_abs, abs_eq_zero] at habs

/-- A quotient up to one that is not below the exponent range. -/
theorem div?_of_le_one (hb : b.toRat ≠ 0) (hlow : 10 ^ (-maxExponent) ≤ |a.toRat / b.toRat|)
    (hhigh : |a.toRat / b.toRat| ≤ 1) (p : Precision) :
    ∃ c, a.div? b p = some c ∧ c.toRat = rounded p.digits (a.toRat / b.toRat) := by
  rw [← zpow_zero (10 : ℚ)] at hhigh
  exact div?_of_between hb hlow hhigh le_rfl (by decide) p

/-- A quotient that is below the exponent range is not found. -/
theorem div?_eq_none_of_lt (ha : a.toRat ≠ 0) (hb : b.toRat ≠ 0)
    (h : |rounded p.digits (a.toRat / b.toRat)| < 10 ^ (-maxExponent)) : a.div? b p = none := by
  obtain ⟨c, hc, hdiv⟩ := div?_eq a hb p
  have hne : c.toRat ≠ 0 := by
    rw [hc, ← sign_ne_zero, sign_rounded p.digits_pos, sign_ne_zero]
    exact div_ne_zero ha hb
  rw [hdiv, checked_eq_none_iff, representable_iff hne, hc]
  exact fun hrange => hrange.1.not_gt h

theorem div?_of_zero_left (ha : a.toRat = 0) (hb : b.toRat ≠ 0) (p : Precision) : a.div? b p = some zero := by
  rw [div?, if_neg (mt isZero_iff.mp hb), if_pos (isZero_iff.mpr ha)]

/-- A quotient of close numbers is close, and it is in range if the exact one is not near the ends of the range. -/
theorem exists_div_close (hx : 0 ≤ x) (hy : 0 < y) (ha : Close p.digits n a.toRat x) (hb : Close p.digits m b.toRat y)
    (hfew : (n + m : ℕ) * roundoff p.digits ≤ 1 / 2) {low high : ℤ} (hlow : 2 * 10 ^ low ≤ x / y)
    (hhigh : 2 * (x / y) ≤ 10 ^ high) (hmin : -maxExponent ≤ low) (hmax : high ≤ maxExponent) :
    ∃ c, a.div? b p = some c ∧ c.toRat = rounded p.digits (a.toRat / b.toRat) ∧
      Close p.digits (n + m + 1) c.toRat (x / y) := by
  have hp := p.digits_pos
  have hquotient := ha.div hp hx hy hb
  rw [← Rat.cast_div] at hquotient
  have hpos := hquotient.pos hp ((by positivity : (0 : ℝ) < 2 * 10 ^ low).trans_le hlow)
  have hbelow := hquotient.symm.le_two_mul hp (div_nonneg hx hy.le) hfew
  have habove := hquotient.le_two_mul hp hpos.le hfew
  have hlow' : (10 : ℚ) ^ low ≤ |a.toRat / b.toRat| := by
    rw [← Rat.cast_le (K := ℝ), Rat.cast_abs, abs_of_pos hpos, Rat.cast_zpow, Rat.cast_ofNat]
    linarith
  have hhigh' : |a.toRat / b.toRat| ≤ 10 ^ high := by
    rw [← Rat.cast_le (K := ℝ), Rat.cast_abs, abs_of_pos hpos, Rat.cast_zpow, Rat.cast_ofNat]
    linarith
  have hdivisor : b.toRat ≠ 0 := by exact_mod_cast (hb.pos hp hy).ne'
  obtain ⟨c, hc, hvalue⟩ := div?_of_between hdivisor hlow' hhigh' hmin hmax p
  have hround := close_rounded hp (by exact_mod_cast hpos.le : 0 ≤ a.toRat / b.toRat)
  refine ⟨c, hc, hvalue, ?_⟩
  rw [hvalue, add_comm (n + m)]
  exact hround.trans hp hquotient

theorem close_add (hx : 0 ≤ x) (hy : 0 ≤ y) (hafits : Fits p.digits a.toRat) (hbfits : Fits p.digits b.toRat)
    (ha : Close p.digits n a.toRat x) (hb : Close p.digits n b.toRat y) :
    Close p.digits (n + 1) (a.add b p).toRat (x + y) := by
  have hsum := ha.add hb
  have hnonneg : 0 ≤ a.toRat + b.toRat := by
    exact_mod_cast hsum.nonneg p.digits_pos (add_nonneg hx hy)
  have hround := close_rounded p.digits_pos hnonneg
  rw [← toRat_add (hafits.isolated p.digits_pos) (hbfits.isolated p.digits_pos), Rat.cast_add] at hround
  rw [add_comm n]
  exact hround.trans p.digits_pos hsum

/-- A sum of numbers of any length differs from the exact one by a unit of its last digit at most. -/
theorem abs_add_sub_le (a b : Decimal) (p : Precision) :
    |((a.add b p).toRat : ℝ) - (a.toRat + b.toRat)| ≤ 2 * roundoff p.digits * |(a.toRat + b.toRat : ℝ)| := by
  have hroundoff := roundoff_pos p.digits
  have hleft : ∀ a b : Decimal, LeftOut p a b →
      |((a.roundTo p).toRat : ℝ) - (a.toRat + b.toRat)| ≤ 2 * roundoff p.digits * |(a.toRat + b.toRat : ℝ)| := by
    intro a b h
    have hsmall : |(b.toRat : ℝ)| * 10 ^ (p.digits + 2) ≤ |(a.toRat : ℝ)| := by exact_mod_cast h.abs_mul_lt.le
    have hround := abs_rounded_sub_le p.digits_pos a.toRat
    have htriangle := abs_sub_le (rounded p.digits a.toRat : ℝ) a.toRat (a.toRat + b.toRat)
    rw [sub_add_cancel_left, abs_neg] at htriangle
    have hsum := abs_sub_abs_le_abs_sub (a.toRat : ℝ) (-b.toRat)
    rw [abs_neg, sub_neg_eq_add] at hsum
    have hscale : |(b.toRat : ℝ)| * 500 ≤ roundoff p.digits * |(a.toRat : ℝ)| := by
      rw [roundoff, div_mul_eq_mul_div, le_div_iff₀ (by positivity)]
      rw [pow_add] at hsmall
      linarith
    have hhalf := roundoff_le_half p.digits_pos
    rw [toRat_roundTo]
    have hmass : |(a.toRat : ℝ)| * (1 - roundoff p.digits / 500) ≤ |(a.toRat + b.toRat : ℝ)| := by linarith
    have hproduct := mul_nonneg hroundoff.le (abs_nonneg (a.toRat : ℝ))
    linarith [mul_le_mul_of_nonneg_left hmass hroundoff.le, mul_le_mul_of_nonneg_right hhalf hproduct]
  rcases add_cases a b p with ⟨h, hvalue⟩ | ⟨h, hvalue⟩ | ⟨-, -, hvalue⟩
  · rw [hvalue]
    exact hleft a b h
  · rw [hvalue, add_comm (a.toRat : ℝ)]
    exact hleft b a h
  · have hround := abs_rounded_sub_le p.digits_pos (a.toRat + b.toRat)
    rw [hvalue, ← Rat.cast_add]
    linarith [mul_nonneg hroundoff.le (abs_nonneg ((a.toRat + b.toRat : ℚ) : ℝ))]

end

end Calculator.Decimal
