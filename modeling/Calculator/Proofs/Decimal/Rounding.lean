import Calculator.Decimal.Rounding
import Calculator.Proofs.Decimal.Value
import Mathlib.Data.Sign.Basic
/-!
Rounding to significant digits, as a function on rational numbers: the nearest number with so many digits, and of two
equally near ones the one away from zero. Decimal numbers are rounded by it, and a number with at most so many digits
is its own rounding.
-/
namespace Calculator.Decimal

/-- The unit of the last of `p` significant digits. -/
def unit (p : ℕ) (q : ℚ) : ℚ := 10 ^ (Int.log 10 |q| - p + 1)

/-- The nearest whole number; a half goes up. -/
def nearest (q : ℚ) : ℤ := ⌊q + 1 / 2⌋

/-- The number with `p` significant digits that is nearest; a half goes away from zero. -/
def rounded (p : ℕ) (q : ℚ) : ℚ := SignType.sign q * (nearest (|q| / unit p q) * unit p q)

/-- The number has at most `p` significant digits. -/
def Fits (p : ℕ) (q : ℚ) : Prop := ∃ n e : ℤ, |n| < 10 ^ p ∧ q = n * 10 ^ e

/-! ### To a whole number -/

theorem nearest_eq_iff {q : ℚ} {n : ℤ} : nearest q = n ↔ n - 1 / 2 ≤ q ∧ q < n + 1 / 2 := by
  rw [nearest, Int.floor_eq_iff]
  constructor
  · rintro ⟨hlow, hhigh⟩
    constructor <;> linarith
  · rintro ⟨hlow, hhigh⟩
    constructor <;> linarith

theorem nearest_intCast (n : ℤ) : nearest n = n :=
  nearest_eq_iff.mpr ⟨by linarith, by linarith⟩

theorem nearest_natCast (n : ℕ) : nearest n = n := nearest_intCast n

theorem nearest_mono {x y : ℚ} (h : x ≤ y) : nearest x ≤ nearest y := Int.floor_mono (add_le_add_left h _)

/-- No whole number is further away than a half. -/
theorem nearest_bounds (q : ℚ) : q - 1 / 2 < nearest q ∧ nearest q ≤ q + 1 / 2 := by
  obtain ⟨hlow, hhigh⟩ := nearest_eq_iff.mp (rfl : nearest q = nearest q)
  constructor <;> linarith

/-! ### To significant digits -/

section
variable {p : ℕ} {q : ℚ}

@[simp]
theorem rounded_zero (p : ℕ) : rounded p 0 = 0 := by
  simp [rounded]

theorem rounded_neg (p : ℕ) (q : ℚ) : rounded p (-q) = -rounded p q := by
  simp [rounded, unit, Left.sign_neg]

theorem rounded_mul_sign {σ : ℚ} (hσ : σ = 1 ∨ σ = -1) (q : ℚ) : rounded p (σ * q) = σ * rounded p q := by
  rcases hσ with rfl | rfl
  · rw [one_mul, one_mul]
  · rw [neg_one_mul, neg_one_mul, rounded_neg]

/-- Positive numbers between two powers of ten are rounded in one unit. -/
theorem rounded_eq {k : ℤ} (hlow : 10 ^ k ≤ q) (hhigh : q < 10 ^ (k + 1)) :
    rounded p q = nearest (q / 10 ^ (k - p + 1)) * 10 ^ (k - p + 1) := by
  have hq : 0 < q := (ten_zpow_pos k).trans_le hlow
  rw [rounded, unit, abs_of_pos hq, sign_pos hq, log_eq hlow hhigh, SignType.coe_one, one_mul]

/-- If a fact about roundings holds at zero, for positive numbers, and with a sign before them, it holds always. -/
theorem rounded_cases {P : ℚ → ℚ → Prop} (hzero : P 0 0) (hneg : ∀ q r, P q r → P (-q) (-r))
    (hpos : ∀ q, 0 < q → P q (rounded p q)) (q : ℚ) : P q (rounded p q) := by
  rcases lt_trichotomy q 0 with hq | rfl | hq
  · have h := hneg _ _ (hpos (-q) (neg_pos.mpr hq))
    rwa [rounded_neg, neg_neg, neg_neg] at h
  · rwa [rounded_zero]
  · exact hpos q hq

theorem Fits.neg (h : Fits p q) : Fits p (-q) := by
  obtain ⟨n, e, hn, rfl⟩ := h
  refine ⟨-n, e, by rwa [abs_neg], ?_⟩
  rw [Int.cast_neg, neg_mul]

theorem Fits.abs (h : Fits p q) : Fits p |q| := by
  rcases abs_choice q with hsign | hsign
  · rwa [hsign]
  · rw [hsign]
    exact h.neg

theorem Fits.mono {p' : ℕ} (h : Fits p q) (hp : p ≤ p') : Fits p' q := by
  obtain ⟨n, e, hn, rfl⟩ := h
  exact ⟨n, e, hn.trans_le (pow_le_pow_right₀ (by decide) hp), rfl⟩

/-- A power of ten has one digit. -/
theorem fits_ten_zpow (hp : 0 < p) (e : ℤ) : Fits p (10 ^ e) :=
  ⟨1, e, by rw [abs_one]; exact one_lt_pow₀ (by decide) (Nat.ne_of_gt hp), by rw [Int.cast_one, one_mul]⟩

theorem fits_digit (hp : 0 < p) {n : ℕ} (hn : n < 10) : Fits p n := by
  refine ⟨n, 0, ?_, by rw [zpow_zero, mul_one, Int.cast_natCast]⟩
  exact_mod_cast hn.trans_le (Nat.le_self_pow hp.ne' 10)

theorem fits_one (hp : 0 < p) : Fits p 1 := by
  exact_mod_cast fits_digit hp (by decide : 1 < 10)

theorem Fits.half (h : Fits p q) : Fits (p + 1) (q / 2) := by
  obtain ⟨n, e, hn, rfl⟩ := h
  refine ⟨5 * n, e - 1, ?_, ?_⟩
  · have hpower : (0 : ℤ) < 10 ^ p := by positivity
    rw [abs_mul, abs_of_pos (by norm_num : (0 : ℤ) < 5), pow_succ]
    omega
  · rw [zpow_sub₀ (by norm_num), zpow_one]
    push_cast
    ring

/-- An integer that is not beyond `10 ^ p` has at most `p` digits. -/
theorem fits_mul_ten_zpow (hp : 0 < p) {n : ℤ} (hn : |n| ≤ 10 ^ p) (e : ℤ) : Fits p (n * 10 ^ e) := by
  rcases hn.lt_or_eq with hlt | heq
  · exact ⟨n, e, hlt, rfl⟩
  · have hpower : ((10 : ℤ) ^ p : ℚ) * 10 ^ e = 10 ^ (p + e : ℤ) := by
      rw [ten_zpow_add, zpow_natCast, Int.cast_ofNat]
    rcases abs_choice n with hsign | hsign
    · rw [hsign] at heq
      rw [heq, Int.cast_pow, hpower]
      exact fits_ten_zpow hp _
    · have hneg : n = -10 ^ p := by omega
      rw [hneg, Int.cast_neg, neg_mul, Int.cast_pow, hpower]
      exact (fits_ten_zpow hp _).neg

theorem unit_scale (p : ℕ) (k : ℤ) : (10 : ℚ) ^ (k + 1) = 10 ^ p * 10 ^ (k - p + 1) := by
  rw [← zpow_natCast, ← ten_zpow_add]
  congr 1
  ring

theorem unit_scale_pred (hp : 0 < p) (k : ℤ) : (10 : ℚ) ^ k = 10 ^ (p - 1) * 10 ^ (k - p + 1) := by
  rw [← zpow_natCast, ← ten_zpow_add]
  congr 1
  omega

/-- A positive number with at most `p` digits is a multiple of the unit of its last digit. -/
theorem Fits.exists_mul (h : Fits p q) {k : ℤ} (hlow : 10 ^ k ≤ q) (hhigh : q < 10 ^ (k + 1)) :
    ∃ n : ℕ, n < 10 ^ p ∧ q = n * 10 ^ (k - p + 1) := by
  obtain ⟨n, e, hn, rfl⟩ := h
  have hpos : 0 < n := by
    have hq := (ten_zpow_pos k).trans_le hlow
    rw [mul_pos_iff_of_pos_right (ten_zpow_pos e)] at hq
    exact_mod_cast hq
  rw [abs_of_pos hpos] at hn
  have hplace : k - p + 1 ≤ e := by
    have hpower : (10 : ℚ) ^ k < 10 ^ ((p : ℤ) + e) := by
      refine hlow.trans_lt ?_
      rw [ten_zpow_add]
      refine mul_lt_mul_of_pos_right ?_ (ten_zpow_pos e)
      rw [zpow_natCast]
      exact_mod_cast hn
    have := ten_zpow_lt.mp hpower
    omega
  have hmul : (n : ℚ) * 10 ^ e = (n.toNat * 10 ^ (e - (k - p + 1)).toNat : ℕ) * 10 ^ (k - p + 1) := by
    have hcast : ((n.toNat : ℕ) : ℚ) = n := by exact_mod_cast Int.toNat_of_nonneg hpos.le
    rw [Nat.cast_mul, hcast, mul_assoc]
    congr 1
    rw [← pow10_eq, cast_pow10_toNat (by omega), ← ten_zpow_add]
    congr 1
    ring
  refine ⟨_, ?_, hmul⟩
  rw [hmul, unit_scale p k, mul_lt_mul_iff_left₀ (ten_zpow_pos _)] at hhigh
  exact_mod_cast hhigh

/-- There is another number with `p` digits before the double. -/
theorem Fits.exists_next (hp : 0 < p) (h : Fits p q) (hq : 0 < q) : ∃ r, Fits p r ∧ q < r ∧ r ≤ 2 * q := by
  obtain ⟨hlow, hhigh⟩ := log_bounds hq
  obtain ⟨n, hn, heq⟩ := h.exists_mul hlow hhigh
  have hunit := ten_zpow_pos (Int.log 10 q - p + 1)
  have hn0 : (0 : ℚ) < n := by
    rw [heq, mul_pos_iff_of_pos_right hunit] at hq
    exact hq
  have hn1 : (1 : ℚ) ≤ n := by exact_mod_cast hn0
  refine ⟨(n + 1 : ℤ) * 10 ^ (Int.log 10 q - p + 1), fits_mul_ten_zpow hp ?_ _, ?_, ?_⟩
  · rw [abs_of_nonneg (by positivity)]
    exact_mod_cast hn
  · push_cast
    linarith
  · push_cast
    linarith [mul_le_mul_of_nonneg_right hn1 hunit.le]

/-- A number with at most `p` digits is its own rounding. -/
theorem rounded_of_fits (h : Fits p q) : rounded p q = q := by
  refine rounded_cases (P := fun q r => Fits p q → r = q) (fun _ => rfl) (fun q r ih h => ?_) (fun q hq h => ?_) q h
  · rw [ih (by simpa using h.neg)]
  · obtain ⟨hlow, hhigh⟩ := log_bounds hq
    obtain ⟨n, -, hn⟩ := h.exists_mul hlow hhigh
    rw [rounded_eq hlow hhigh, (eq_div_iff (ten_zpow_pos _).ne').mpr hn.symm |>.symm, nearest_natCast]
    exact_mod_cast hn.symm

/-- A rounding has at most `p` digits. -/
theorem fits_rounded (hp : 0 < p) (q : ℚ) : Fits p (rounded p q) := by
  refine rounded_cases (P := fun _ r => Fits p r) ⟨0, 0, by positivity, by simp⟩ (fun _ _ h => h.neg) (fun q hq => ?_) q
  obtain ⟨hlow, hhigh⟩ := log_bounds hq
  rw [rounded_eq hlow hhigh]
  refine fits_mul_ten_zpow hp ?_ _
  have hunit := ten_zpow_pos (Int.log 10 q - p + 1)
  have hnonneg : 0 ≤ q / 10 ^ (Int.log 10 q - p + 1) := (div_pos hq hunit).le
  have hlt : q / 10 ^ (Int.log 10 q - p + 1) < 10 ^ p := by
    rwa [div_lt_iff₀ hunit, ← unit_scale]
  obtain ⟨hround', hround⟩ := nearest_bounds (q / 10 ^ (Int.log 10 q - p + 1))
  rw [abs_le]
  constructor
  · have : (-1 : ℚ) < nearest (q / 10 ^ (Int.log 10 q - p + 1)) := by linarith
    have : -1 < nearest (q / 10 ^ (Int.log 10 q - p + 1)) := by exact_mod_cast this
    have : (0 : ℤ) < 10 ^ p := by positivity
    omega
  · have : (nearest (q / 10 ^ (Int.log 10 q - p + 1)) : ℚ) < 10 ^ p + 1 := by linarith
    have : nearest (q / 10 ^ (Int.log 10 q - p + 1)) < (10 : ℤ) ^ p + 1 := by exact_mod_cast this
    omega

/-- Near a number with `p` digits the rounding is that number. Below it the distance is less, since the unit may be
smaller there. -/
theorem rounded_of_near {c : ℚ} (hp : 0 < p) (hc : Fits p c) {k : ℤ} (hlow : 10 ^ k ≤ c) (hhigh : c < 10 ^ (k + 1))
    (hbelow : c - 10 ^ (k - p + 1) / 20 ≤ q) (habove : q < c + 10 ^ (k - p + 1) / 2) : rounded p q = c := by
  obtain ⟨n, hn, hmul⟩ := hc.exists_mul hlow hhigh
  have hunit := ten_zpow_pos (k - p + 1)
  set u : ℚ := 10 ^ (k - p + 1) with hu
  rcases le_or_gt (10 ^ k) q with hq | hq
  · have hroom : c + u ≤ 10 ^ (k + 1) := by
      rw [unit_scale p, ← hu, hmul]
      have hsucc : (n : ℚ) + 1 ≤ 10 ^ p := by exact_mod_cast hn
      linarith [mul_le_mul_of_nonneg_right hsucc hunit.le]
    have hround : nearest (q / u) = n := by
      rw [nearest_eq_iff, le_div_iff₀ hunit, div_lt_iff₀ hunit, Int.cast_natCast]
      constructor <;> linarith
    rw [rounded_eq hq (by linarith), ← hu, hround, hmul, Int.cast_natCast]
  · -- Below a power of ten the unit is a tenth.
    have hle : u ≤ 10 ^ k := ten_zpow_le.mpr (by omega)
    have hdown : (10 : ℚ) ^ k = 10 * 10 ^ (k - 1) := by
      rw [← zpow_one_add₀ (by norm_num)]
      congr 1
      ring
    have hfine : u = 10 * 10 ^ (k - 1 - p + 1) := by
      rw [hu, ← zpow_one_add₀ (by norm_num)]
      congr 1
      ring
    set v : ℚ := 10 ^ (k - 1 - p + 1) with hv
    have hround : nearest (q / v) = (10 * n : ℕ) := by
      rw [nearest_eq_iff, le_div_iff₀ (ten_zpow_pos _), div_lt_iff₀ (ten_zpow_pos _), Int.cast_natCast]
      push_cast
      rw [← hv]
      constructor <;> nlinarith
    have hpow := ten_zpow_pos (k - 1)
    rw [rounded_eq (k := k - 1) (by linarith) (by rwa [sub_add_cancel]), ← hv, hround, hmul, hfine]
    push_cast
    ring

/-- In its decade a number stays when it is rounded, or it becomes the power of ten above. -/
theorem rounded_mem {k : ℤ} (hp : 0 < p) (hlow : 10 ^ k ≤ q) (hhigh : q < 10 ^ (k + 1)) :
    10 ^ k ≤ rounded p q ∧ rounded p q ≤ 10 ^ (k + 1) := by
  have hunit := ten_zpow_pos (k - p + 1)
  have hlast : (10 : ℚ) ^ k = (10 ^ (p - 1) : ℕ) * 10 ^ (k - p + 1) := by
    rw [Nat.cast_pow, Nat.cast_ofNat, ← unit_scale_pred hp]
  have hfirst : (10 : ℚ) ^ (k + 1) = (10 ^ p : ℕ) * 10 ^ (k - p + 1) := by
    rw [unit_scale p, Nat.cast_pow, Nat.cast_ofNat]
  rw [rounded_eq hlow hhigh]
  constructor
  · rw [hlast, mul_le_mul_iff_left₀ hunit]
    have hmono := nearest_mono ((le_div_iff₀ hunit).mpr (hlast.symm.trans_le hlow))
    rw [nearest_natCast] at hmono
    exact_mod_cast hmono
  · rw [hfirst, mul_le_mul_iff_left₀ hunit]
    have hmono := nearest_mono ((div_le_iff₀ hunit).mpr (hhigh.le.trans_eq hfirst))
    rw [nearest_natCast] at hmono
    exact_mod_cast hmono

theorem rounded_pos (hp : 0 < p) (hq : 0 < q) : 0 < rounded p q := by
  obtain ⟨hlow, hhigh⟩ := log_bounds hq
  exact (ten_zpow_pos _).trans_le (rounded_mem hp hlow hhigh).1

theorem rounded_mono_of_pos {r : ℚ} (hp : 0 < p) (hq : 0 < q) (h : q ≤ r) : rounded p q ≤ rounded p r := by
  obtain ⟨hlow, hhigh⟩ := log_bounds hq
  obtain ⟨hlow', hhigh'⟩ := log_bounds (hq.trans_le h)
  rcases (Int.log_mono_right (b := 10) hq h).lt_or_eq with hlt | heq
  · calc rounded p q
        ≤ 10 ^ (Int.log 10 q + 1) := (rounded_mem hp hlow hhigh).2
      _ ≤ 10 ^ Int.log 10 r := ten_zpow_le.mpr (by omega)
      _ ≤ rounded p r := (rounded_mem hp hlow' hhigh').1
  · rw [rounded_eq hlow hhigh, rounded_eq hlow' hhigh', heq]
    have hunit := ten_zpow_pos (Int.log 10 r - p + 1)
    have hround := nearest_mono ((div_le_div_iff_of_pos_right hunit).mpr h)
    exact mul_le_mul_of_nonneg_right (by exact_mod_cast hround) hunit.le

/-- Rounding keeps the order. -/
theorem rounded_mono (hp : 0 < p) : Monotone (rounded p) := by
  intro q r h
  rcases lt_or_ge 0 q with hq | hq
  · exact rounded_mono_of_pos hp hq h
  rcases lt_or_ge r 0 with hr | hr
  · have hneg := rounded_mono_of_pos hp (neg_pos.mpr hr) (neg_le_neg h)
    rw [rounded_neg, rounded_neg] at hneg
    exact neg_le_neg_iff.mp hneg
  have hsign : ∀ s : ℚ, 0 ≤ s → 0 ≤ rounded p s := by
    intro s hs
    rcases hs.lt_or_eq with hs | rfl
    · exact (rounded_pos hp hs).le
    · rw [rounded_zero]
  have hneg := hsign (-q) (neg_nonneg.mpr hq)
  rw [rounded_neg] at hneg
  linarith [hsign r hr]

/-- Between powers of ten a number stays when it is rounded. -/
theorem rounded_between {a b : ℤ} (hp : 0 < p) (hlow : 10 ^ a ≤ q) (hhigh : q ≤ 10 ^ b) :
    10 ^ a ≤ rounded p q ∧ rounded p q ≤ 10 ^ b := by
  have hlow' := rounded_mono hp hlow
  have hhigh' := rounded_mono hp hhigh
  rw [rounded_of_fits (fits_ten_zpow hp _)] at hlow' hhigh'
  exact ⟨hlow', hhigh'⟩

theorem sign_rounded (hp : 0 < p) (q : ℚ) : SignType.sign (rounded p q) = SignType.sign q := by
  refine rounded_cases (P := fun q r => SignType.sign r = SignType.sign q) rfl (fun q r ih => ?_) (fun q hq => ?_) q
  · rw [Left.sign_neg, Left.sign_neg, ih]
  · rw [sign_pos hq, sign_pos (rounded_pos hp hq)]

theorem abs_rounded (hp : 0 < p) (q : ℚ) : |rounded p q| = rounded p |q| := by
  rcases lt_trichotomy q 0 with hq | rfl | hq
  · have hpos := rounded_pos hp (neg_pos.mpr hq)
    rw [abs_of_neg hq, ← abs_neg, ← rounded_neg, abs_of_pos hpos]
  · rw [abs_zero, rounded_zero, abs_zero]
  · rw [abs_of_pos hq, abs_of_pos (rounded_pos hp hq)]

/-- A rounding differs from the number by half a unit at most, and the unit is not greater than that of the rounding. -/
theorem abs_rounded_sub_le_unit (hp : 0 < p) (q : ℚ) :
    |rounded p q - q| ≤ unit p q / 2 ∧ unit p q ≤ unit p (rounded p q) := by
  refine rounded_cases (P := fun q r => |r - q| ≤ unit p q / 2 ∧ unit p q ≤ unit p r) ?_ (fun q r ih => ?_)
    (fun q hq => ?_) q
  · rw [sub_self, abs_zero]
    exact ⟨(half_pos (ten_zpow_pos _)).le, le_rfl⟩
  · rw [← neg_sub', abs_neg, unit, abs_neg, unit, abs_neg]
    exact ih
  · obtain ⟨hlow, hhigh⟩ := log_bounds hq
    have hunit : unit p q = 10 ^ (Int.log 10 q - p + 1) := by rw [unit, abs_of_pos hq]
    have hpos : 0 < unit p q := ten_zpow_pos _
    constructor
    · obtain ⟨hbelow, habove⟩ := nearest_bounds (q / unit p q)
      have hsplit : rounded p q - q = (nearest (q / unit p q) - q / unit p q) * unit p q := by
        rw [rounded_eq hlow hhigh, ← hunit, sub_mul, div_mul_cancel₀ _ hpos.ne']
      have hhalf : |nearest (q / unit p q) - q / unit p q| ≤ 1 / 2 := abs_le.mpr ⟨by linarith, by linarith⟩
      rw [hsplit, abs_mul, abs_of_pos hpos]
      linarith [mul_le_mul_of_nonneg_right hhalf hpos.le]
    · have hmem := (rounded_mem hp hlow hhigh).1
      have hround : 0 < rounded p q := rounded_pos hp hq
      rw [hunit, unit, abs_of_pos hround, ten_zpow_le]
      have hmono := Int.log_mono_right (b := 10) (ten_zpow_pos _) hmem
      have hpower : Int.log 10 ((10 : ℚ) ^ Int.log 10 q) = Int.log 10 q := by
        exact_mod_cast Int.log_zpow (R := ℚ) (by decide : 1 < 10) (Int.log 10 q)
      rw [hpower] at hmono
      omega

/-- A number has `p` digits before its unit ends. -/
theorem abs_lt_unit (p : ℕ) (q : ℚ) : |q| < 10 ^ p * unit p q := by
  rw [unit, ← unit_scale]
  rcases eq_or_ne q 0 with rfl | hq
  · rw [abs_zero]
    exact ten_zpow_pos _
  · exact (log_bounds (abs_pos.mpr hq)).2

/-- A number that is very near to one with `p` digits is rounded to it. -/
theorem rounded_of_close (hp : 0 < p) {c q : ℚ} (hc : Fits p c) (h : |q - c| ≤ |c| / 10 ^ (p + 2)) :
    rounded p q = c := by
  have hpositive : ∀ {c q : ℚ}, 0 < c → Fits p c → |q - c| ≤ c / 10 ^ (p + 2) → rounded p q = c := by
    intro c q hcpos hc h
    obtain ⟨hlow, hhigh⟩ := log_bounds hcpos
    have hsmall : c / 10 ^ (p + 2) < 10 ^ (Int.log 10 c - p + 1) / 100 := by
      rw [div_lt_iff₀ (by positivity), pow_add]
      rw [unit_scale p] at hhigh
      linarith
    obtain ⟨hbelow, habove⟩ := abs_le.mp h
    have hunit := ten_zpow_pos (Int.log 10 c - p + 1)
    exact rounded_of_near hp hc hlow hhigh (by linarith) (by linarith)
  rcases lt_trichotomy c 0 with hneg | rfl | hpos
  · have hround := hpositive (c := -c) (q := -q) (neg_pos.mpr hneg) hc.neg
      (by rwa [← neg_sub', abs_neg, ← abs_of_neg hneg])
    rw [rounded_neg] at hround
    exact neg_inj.mp hround
  · rw [sub_zero, abs_zero, zero_div] at h
    rw [abs_nonpos_iff.mp h, rounded_zero]
  · exact hpositive hpos hc (by rwa [abs_of_pos hpos] at h)

theorem unit_le {r : ℚ} (hq : q ≠ 0) (h : |q| ≤ |r|) : unit p q ≤ unit p r := by
  have hlog := Int.log_mono_right (b := 10) (abs_pos.mpr hq) h
  exact ten_zpow_le.mpr (by omega)

/-- A number with `p` digits stays if less than half a unit of its last digit is added. -/
theorem Fits.rounded_add {a : ℚ} (hp : 0 < p) (ha : Fits p a) (hpos : 0 < a) {t : ℚ} (ht : 0 ≤ t) (h : t < unit p a / 2) :
    rounded p (a + t) = a := by
  obtain ⟨hlow, hhigh⟩ := log_bounds hpos
  rw [unit, abs_of_pos hpos] at h
  have hunit := ten_zpow_pos (Int.log 10 a - p + 1)
  exact rounded_of_near hp ha hlow hhigh (by linarith) (by linarith)

theorem Fits.rounded_le {a : ℚ} (hp : 0 < p) (ha : Fits p a) (h : q ≤ a) : rounded p q ≤ a := by
  rw [← rounded_of_fits ha]
  exact rounded_mono hp h

theorem Fits.le_rounded {a : ℚ} (hp : 0 < p) (ha : Fits p a) (h : a ≤ q) : a ≤ rounded p q := by
  rw [← rounded_of_fits ha]
  exact rounded_mono hp h

/-- Less is won back by a second summand than was lost by the first, though both sums are rounded. -/
theorem Fits.rounded_sub_add_le {a s t : ℚ} (hp : 0 < p) (ha : Fits p a) (hs : s < a) (ht : 0 ≤ t) (h : 2 * t ≤ s) :
    rounded p (rounded p (a - s) + t) ≤ a := by
  by_cases hsum : rounded p (a - s) + t ≤ a
  · exact ha.rounded_le hp hsum
  · have hpos : 0 < a := by linarith
    have hbelow : rounded p (a - s) ≤ a := ha.rounded_le hp (by linarith)
    have hnear := (abs_le.mp (abs_rounded_sub_le_unit hp (a - s)).1).2
    have hunit : unit p (a - s) ≤ unit p a := by
      apply unit_le (by linarith)
      rw [abs_of_pos hpos, abs_of_pos (by linarith)]
      linarith
    calc rounded p (rounded p (a - s) + t)
        ≤ rounded p (a + t) := rounded_mono hp (by linarith)
      _ = a := ha.rounded_add hp hpos ht (by linarith)

/-- Rounding to a multiple of a power of ten looks only at the integer part. -/
theorem round_div_pow {t : ℕ} (ht : 0 < t) (x : ℚ) : nearest (x / 10 ^ t) = (⌊x⌋ + 5 * 10 ^ (t - 1)) / 10 ^ t := by
  have hhalf : x / 10 ^ t + 1 / 2 = (x + (5 * 10 ^ (t - 1) : ℕ)) / (10 ^ t : ℕ) := by
    obtain ⟨t, rfl⟩ := Nat.exists_eq_succ_of_ne_zero (Nat.ne_of_gt ht)
    rw [Nat.succ_sub_one, Nat.succ_eq_add_one]
    push_cast
    field_simp
    ring
  rw [nearest, hhalf, Int.floor_div_natCast, Int.floor_add_natCast]
  push_cast
  rfl

/-- What stands below the unit of the last digit but one does not matter for the rounding. -/
theorem rounded_of_floor {n : ℕ} (hn : 10 ^ p ≤ n) {x : ℚ} (hx : n ≤ x) (hx' : x < n + 1) (e : ℤ) :
    rounded p (x * 10 ^ e) = rounded p (n * 10 ^ e) := by
  have hn0 : n ≠ 0 := Nat.ne_of_gt ((Nat.pow_pos (by decide)).trans_le hn)
  have hplace : p ≤ Nat.log 10 n := Nat.le_log_of_pow_le (by decide) hn
  have hlow : (10 : ℚ) ^ Nat.log 10 n ≤ n := by exact_mod_cast Nat.pow_log_le_self 10 hn0
  have hhigh : (n : ℚ) + 1 ≤ 10 ^ (Nat.log 10 n + 1) := by
    exact_mod_cast Nat.lt_pow_succ_log_self (by decide : 1 < 10) n
  have hcell : ∀ y : ℚ, n ≤ y → y < n + 1 → rounded p (y * 10 ^ e) =
      ((n + 5 * 10 ^ (Nat.log 10 n - p)) / 10 ^ (Nat.log 10 n - p + 1) : ℤ) * 10 ^ (Nat.log 10 n + e - p + 1) := by
    intro y hy hy'
    have hfloor : ⌊y⌋ = n := Int.floor_eq_iff.mpr ⟨by exact_mod_cast hy, by exact_mod_cast hy'⟩
    have hlow' : (10 : ℚ) ^ (Nat.log 10 n + e) ≤ y * 10 ^ e := by
      rw [ten_zpow_add, zpow_natCast]
      exact mul_le_mul_of_nonneg_right (hlow.trans hy) (ten_zpow_pos e).le
    have hhigh' : y * 10 ^ e < (10 : ℚ) ^ (Nat.log 10 n + e + 1) := by
      have hplace : (Nat.log 10 n + e + 1 : ℤ) = (Nat.log 10 n + 1 : ℕ) + e := by push_cast; ring
      rw [hplace, ten_zpow_add, zpow_natCast]
      exact mul_lt_mul_of_pos_right (hy'.trans_le hhigh) (ten_zpow_pos e)
    have hunit : y * 10 ^ e / 10 ^ (Nat.log 10 n + e - p + 1) = y / 10 ^ (Nat.log 10 n - p + 1) := by
      have hsplit : (Nat.log 10 n + e - p + 1 : ℤ) = (Nat.log 10 n - p + 1 : ℕ) + e := by omega
      rw [hsplit, ten_zpow_add, zpow_natCast, mul_div_mul_right _ _ (ten_zpow_pos e).ne']
    rw [rounded_eq hlow' hhigh', hunit, round_div_pow (Nat.succ_pos _), hfloor, Nat.succ_sub_one]
  rw [hcell x hx hx', hcell n le_rfl (by linarith)]

end

/-! ### On decimal numbers -/

theorem fits_of_digits {d : Decimal} {p : ℕ} (h : d.digits ≤ p) : Fits p d.toRat := by
  refine ⟨d.mantissa, d.exponent, ?_, rfl⟩
  have hlt := (Digits.lt_pow_count d.mantissa.natAbs).trans_le (Nat.pow_le_pow_right (by decide) h)
  rw [Int.abs_eq_natAbs]
  exact_mod_cast hlt

/-- A number in normal form has no more digits than its value needs. -/
theorem Normal.digits_le {d : Decimal} (hd : d.Normal) {p : ℕ} (hp : 0 < p) (h : Fits p d.toRat) : d.digits ≤ p := by
  rcases hd with rfl | hd
  · exact Nat.le_trans (by decide +kernel) hp
  obtain ⟨n, e, hn, hvalue⟩ := h
  rw [digits, Digits.count_le_iff hp]
  rw [toRat] at hvalue
  rcases le_or_gt e d.exponent with he | he
  · -- `n` is the mantissa with zeros behind it.
    have hmul : n = d.mantissa * 10 ^ (d.exponent - e).toNat := by
      have hcast : (n : ℚ) = d.mantissa * (10 ^ (d.exponent - e).toNat : ℕ) := by
        rw [← pow10_eq, cast_pow10_toNat (by omega), zpow_sub₀ (by norm_num), ← mul_div_assoc, hvalue,
          mul_div_cancel_right₀ _ (ten_zpow_pos e).ne']
      exact_mod_cast hcast
    have hle : d.mantissa.natAbs ≤ n.natAbs := by
      rw [hmul, Int.natAbs_mul]
      exact Nat.le_mul_of_pos_right _ (Int.natAbs_pos.mpr (by positivity))
    have hlt : n.natAbs < 10 ^ p := by
      rw [Int.abs_eq_natAbs] at hn
      exact_mod_cast hn
    exact hle.trans_lt hlt
  · -- The mantissa would end in zero.
    refine absurd ?_ hd
    have hmul : d.mantissa = n * 10 ^ (e - d.exponent).toNat := by
      have hcast : (d.mantissa : ℚ) = n * (10 ^ (e - d.exponent).toNat : ℕ) := by
        rw [← pow10_eq, cast_pow10_toNat (by omega), zpow_sub₀ (by norm_num), ← mul_div_assoc, ← hvalue,
          mul_div_cancel_right₀ _ (ten_zpow_pos _).ne']
      exact_mod_cast hcast
    rw [hmul]
    exact Dvd.dvd.mul_left (dvd_pow_self 10 (by omega)) n

theorem nearestUp_eq {n u : ℕ} (hu : 0 < u) : (nearestUp n u : ℤ) = nearest ((n : ℚ) / u) := by
  have hu' : (0 : ℚ) < u := by exact_mod_cast hu
  have hsplit : (n : ℚ) = u * (n / u : ℕ) + (n % u : ℕ) := by exact_mod_cast (Nat.div_add_mod n u).symm
  unfold nearestUp
  generalize n / u = quotient at hsplit ⊢
  have hlt : ((n % u : ℕ) : ℚ) < u := by exact_mod_cast Nat.mod_lt n hu
  have hge : (0 : ℚ) ≤ (n % u : ℕ) := Nat.cast_nonneg _
  symm
  rw [nearest_eq_iff, le_div_iff₀ hu', div_lt_iff₀ hu', hsplit]
  split
  · rename_i h
    have hhalf : (u : ℚ) ≤ 2 * (n % u : ℕ) := by exact_mod_cast h
    push_cast
    constructor <;> nlinarith
  · rename_i h
    have hhalf : 2 * ((n % u : ℕ) : ℚ) < u := by exact_mod_cast Nat.lt_of_not_le h
    push_cast
    constructor <;> nlinarith

/-- Zero has one digit, and so it is never rounded. -/
theorem mantissa_ne_zero_of_digits {d : Decimal} {p : Precision} (h : ¬d.digits ≤ p.digits) : d.mantissa ≠ 0 := by
  intro hzero
  have hone : d.digits = 1 := by rw [digits, hzero]; decide +kernel
  exact h (hone ▸ p.digits_pos)

/-- The value of a number that is rounded is its value, rounded. -/
theorem toRat_roundTo (d : Decimal) (p : Precision) : (d.roundTo p).toRat = rounded p.digits d.toRat := by
  unfold roundTo
  split
  · rename_i h
    exact (rounded_of_fits (fits_of_digits h)).symm
  · rename_i h
    have hd := mantissa_ne_zero_of_digits h
    have hplace : d.leading - p.digits + 1 = d.exponent + (d.digits - p.digits : ℕ) := by
      rw [leading]
      omega
    have hunit : |d.toRat| / unit p.digits d.toRat = d.mantissa.natAbs / (pow10 (d.digits - p.digits) : ℕ) := by
      rw [unit, log_toRat hd, hplace, abs_toRat, ten_zpow_add, mul_comm, ← cast_pow10,
        mul_div_mul_left _ _ (ten_zpow_pos _).ne']
    rw [rounded, hunit, ← nearestUp_eq (pow10_pos _), unit, log_toRat hd, hplace, toRat_ofParts]
    cases hsign : d.isNegative with
    | true =>
      rw [sign_neg (isNegative_iff.mp hsign), if_pos rfl, SignType.coe_neg_one, Int.cast_neg, Int.cast_natCast]
      ring
    | false =>
      have hpos : 0 < d.toRat := by
        refine lt_of_le_of_ne ?_ (Ne.symm (mt toRat_eq_zero_iff.mp hd))
        exact not_lt.mp fun hneg => by rw [isNegative_iff.mpr hneg] at hsign; cases hsign
      rw [sign_pos hpos, if_neg Bool.false_ne_true, SignType.coe_one, one_mul]

theorem digits_ofRequest_le (n : ℕ) : (Precision.ofRequest n).digits ≤ Precision.maxDigits :=
  Nat.max_le.mpr ⟨by decide, Nat.min_le_right ..⟩

theorem fits_roundTo (d : Decimal) (p : Precision) : Fits p.digits (d.roundTo p).toRat := by
  rw [toRat_roundTo]
  exact fits_rounded p.digits_pos _

/-- A number in normal form with no more digits than the precision. -/
structure Within (p : Precision) (d : Decimal) : Prop where
  normal : d.Normal
  digits_le : d.digits ≤ p.digits

theorem Normal.roundTo {d : Decimal} (hd : d.Normal) (p : Precision) : (d.roundTo p).Within p := by
  have hnormal : (d.roundTo p).Normal := by
    unfold Decimal.roundTo
    split
    · exact hd
    · exact normal_ofParts _ _
  exact ⟨hnormal, hnormal.digits_le p.digits_pos (d.fits_roundTo p)⟩

theorem Within.neg {d : Decimal} {p : Precision} (h : d.Within p) : d.neg.Within p := by
  refine ⟨h.normal.neg, ?_⟩
  rw [digits, Decimal.neg, Int.natAbs_neg]
  exact h.digits_le

theorem Within.negIf {d : Decimal} {p : Precision} (h : d.Within p) (flip : Bool) : (d.negIf flip).Within p := by
  cases flip with
  | true => exact h.neg
  | false => exact h

theorem within_zero (p : Precision) : zero.Within p :=
  ⟨normal_zero, Nat.le_trans (by decide +kernel) p.digits_pos⟩

theorem within_one (p : Precision) : one.Within p :=
  ⟨normal_ofInt 1, Nat.le_trans (by decide +kernel) p.digits_pos⟩

end Calculator.Decimal
