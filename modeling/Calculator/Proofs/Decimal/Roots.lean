import Calculator.Proofs.Decimal.Functions
import Calculator.Proofs.Decimal.Nearest
import Mathlib.Analysis.SpecialFunctions.Pow.NthRootLemmas
import Mathlib.Analysis.SpecialFunctions.Pow.Real
/-!
Square and cube roots are rounded once. The integer root of the mantissa, with enough zeros behind it, has more digits
than are kept, so that the real root is rounded like every number with that integer part.
-/
namespace Calculator.Decimal

/-! ### Roundings of real numbers -/

/-- The number with at most `p` digits that is nearest to a real number; of two equally near ones the one further from
zero. -/
structure IsRealRounding (p : ℕ) (y : ℝ) (r : ℚ) : Prop where
  fits : Fits p r
  nearest : ∀ s, Fits p s → |y - r| ≤ |y - s|
  away : ∀ s, Fits p s → |y - s| = |y - r| → |s| ≤ |r|

section
variable {p : ℕ} {y : ℝ} {r : ℚ}

/-- On rational numbers it is the rounding of these. -/
theorem isRealRounding_cast {q : ℚ} : IsRealRounding p q r ↔ IsRounding p q r := by
  constructor
  · intro h
    exact ⟨h.fits, fun s hs => by exact_mod_cast h.nearest s hs, fun s hs heq => h.away s hs (by exact_mod_cast heq)⟩
  · intro h
    exact ⟨h.fits, fun s hs => by exact_mod_cast h.nearest s hs, fun s hs heq => h.away s hs (by exact_mod_cast heq)⟩

theorem IsRealRounding.neg (h : IsRealRounding p y r) : IsRealRounding p (-y) (-r : ℚ) := by
  have hflip : ∀ s : ℚ, |-y - (s : ℚ)| = |y - (-s : ℚ)| := fun s => by
    rw [Rat.cast_neg, ← abs_neg, neg_sub', neg_neg]
  refine ⟨h.fits.neg, fun s hs => ?_, fun s hs heq => ?_⟩
  · rw [hflip, hflip, neg_neg]
    exact h.nearest _ hs.neg
  · rw [hflip, hflip, neg_neg] at heq
    rw [← abs_neg s, abs_neg r]
    exact h.away _ hs.neg heq

/-- If all rational numbers of an interval have one rounding, the real numbers in it have it too. -/
theorem isRealRounding_of_interval {a b : ℚ} (h : ∀ x : ℚ, a ≤ x → x < b → IsRounding p x r) (hlow : a ≤ y)
    (hhigh : y < b) : IsRealRounding p y r := by
  obtain ⟨x₀, hx₀, hx₀'⟩ := exists_rat_btwn hhigh
  refine ⟨(h x₀ (by exact_mod_cast hlow.trans hx₀.le) (by exact_mod_cast hx₀')).fits, fun s hs => ?_, fun s hs heq => ?_⟩
  · -- Another number that is nearer would be nearer to the rational numbers close by.
    by_contra! hlt
    have hroom : y < Min.min (b : ℝ) (y + (|y - r| - |y - s|) / 2) := lt_min hhigh (by linarith)
    obtain ⟨x, hx, hx'⟩ := exists_rat_btwn hroom
    obtain ⟨hxb, hxy⟩ := lt_min_iff.mp hx'
    have hnear : |(x : ℝ) - r| ≤ |(x : ℝ) - s| := by
      exact_mod_cast (h x (by exact_mod_cast hlow.trans hx.le) (by exact_mod_cast hxb)).nearest s hs
    have hr := abs_sub_le y x r
    have hs := abs_sub_le (x : ℝ) y s
    rw [abs_sub_comm y x, abs_of_pos (sub_pos.mpr hx)] at hr
    rw [abs_of_pos (sub_pos.mpr hx)] at hs
    linarith
  · rcases abs_eq_abs.mp heq with hsame | hopposite
    · have hrs : s = r := by exact_mod_cast sub_right_inj.mp hsame
      rw [hrs]
    · -- A real number half-way between two rational ones is rational.
      have hy : y = ((s + r) / 2 : ℚ) := by
        push_cast
        linarith
      rw [hy] at hlow hhigh heq
      refine (h ((s + r) / 2) (by exact_mod_cast hlow) (by exact_mod_cast hhigh)).away s hs ?_
      exact_mod_cast heq

/-- A real number is rounded like its integer part, if that has more digits than are kept. -/
theorem isRealRounding_of_floor (hp : 0 < p) {n : ℕ} (hn : 10 ^ p ≤ n) (hlow : n ≤ y) (hhigh : y < n + 1) (e : ℤ) :
    IsRealRounding p (y * 10 ^ e) (rounded p (n * 10 ^ e)) := by
  have hunit := ten_zpow_pos e
  have hunit' : (0 : ℝ) < 10 ^ e := by positivity
  refine isRealRounding_of_interval (a := n * 10 ^ e) (b := (n + 1) * 10 ^ e) (fun x hx hx' => ?_) ?_ ?_
  · have hfloor := rounded_of_floor hn ((le_div_iff₀ hunit).mpr hx) ((div_lt_iff₀ hunit).mpr hx') e
    rw [div_mul_cancel₀ _ hunit.ne'] at hfloor
    rw [← hfloor]
    exact isRounding_rounded hp x
  · push_cast
    exact mul_le_mul_of_nonneg_right hlow hunit'.le
  · push_cast
    exact mul_lt_mul_of_pos_right hhigh hunit'

end

/-! ### Integer roots -/

/-- Newton's iteration stays at or above the root, and stops there. -/
theorem rootFrom_spec {k n x : ℕ} (hk : 0 < k) (hx : n < (x + 1) ^ k) :
    rootFrom k n x ^ k ≤ n ∧ n < (rootFrom k n x + 1) ^ k := by
  obtain ⟨j, rfl⟩ := Nat.exists_eq_succ_of_ne_zero hk.ne'
  fun_induction rootFrom (j + 1) n x with
  | case1 x y h ih =>
    have hx0 : x ≠ 0 := Nat.ne_of_gt (Nat.zero_lt_of_lt h)
    refine ih ?_
    have hstep := Nat.nthRoot.lt_pow_go_succ_aux (a := n) (n := j) hx0
    rwa [add_comm (n / x ^ j)] at hstep
  | case2 x y h =>
    refine ⟨?_, hx⟩
    rcases Nat.eq_zero_or_pos x with rfl | hpos
    · rw [zero_pow (Nat.succ_ne_zero j)]
      exact Nat.zero_le n
    have hle : x ≤ n / x ^ j := by
      have hmul := (Nat.le_div_iff_mul_le (Nat.succ_pos j)).mp (not_lt.mp h)
      rw [Nat.add_sub_cancel] at hmul
      have hpow : Nat.pow x j = x ^ j := rfl
      rw [hpow] at hmul
      linarith
    rw [pow_succ']
    exact (Nat.le_div_iff_mul_le (by positivity)).mp hle

theorem rootFloor_spec {k : ℕ} (hk : 0 < k) (n : ℕ) : rootFloor k n ^ k ≤ n ∧ n < (rootFloor k n + 1) ^ k := by
  unfold rootFloor
  split
  · rename_i hn
    rw [hn, zero_pow hk.ne', zero_add, one_pow]
    exact ⟨le_rfl, one_pos⟩
  · refine rootFrom_spec hk ?_
    have hexponent : n.log2 + 1 ≤ (n.log2 / k + 1) * k := by
      have hsplit := Nat.div_add_mod n.log2 k
      have hrest := Nat.mod_lt n.log2 hk
      rw [add_mul, one_mul, mul_comm]
      omega
    calc n < 2 ^ (n.log2 + 1) := Nat.lt_log2_self
      _ ≤ 2 ^ ((n.log2 / k + 1) * k) := Nat.pow_le_pow_right (by decide) hexponent
      _ = pow2 (n.log2 / k + 1) ^ k := pow_mul ..
      _ ≤ (pow2 (n.log2 / k + 1) + 1) ^ k := Nat.pow_le_pow_left (Nat.le_succ _) k

/-! ### Roots of decimal numbers -/

section
variable {d : Decimal} {p : Precision} {k : ℕ}

/-- The mantissa of which the integer root is taken has so many digits that the root has more than are kept. -/
theorem pow_le_rootFloor (hk : 0 < k) (hd : d.mantissa ≠ 0) {shift : ℕ} (h : k * (p.digits + 2) - d.digits ≤ shift) :
    10 ^ p.digits ≤ rootFloor k (d.mantissa.natAbs * pow10 shift) := by
  have hcount := Digits.count_pos d.mantissa.natAbs
  have hplaces : p.digits * k ≤ d.digits - 1 + shift := by
    have hmul : p.digits * k + 2 * k = k * (p.digits + 2) := by ring
    rw [digits] at h ⊢
    omega
  have hscaled : (10 ^ p.digits) ^ k ≤ d.mantissa.natAbs * pow10 shift := by
    calc (10 ^ p.digits) ^ k
        = 10 ^ (p.digits * k) := (pow_mul ..).symm
      _ ≤ 10 ^ (d.digits - 1 + shift) := Nat.pow_le_pow_right (by decide) hplaces
      _ = 10 ^ (d.digits - 1) * 10 ^ shift := pow_add ..
      _ ≤ d.mantissa.natAbs * pow10 shift :=
        Nat.mul_le_mul_right _ (Digits.pow_count_le (Int.natAbs_ne_zero.mpr hd))
  have hlt := hscaled.trans_lt (rootFloor_spec hk _).2
  exact Nat.lt_succ_iff.mp (lt_of_pow_lt_pow_left₀ k (Nat.zero_le _) hlt)

/-- The root of a positive number is the real one, rounded once. -/
theorem isRealRounding_rootOfPositive (hk : 0 < k) (hd : 0 < d.toRat) {y : ℝ} (hy : 0 ≤ y) (hroot : y ^ k = d.toRat) :
    IsRealRounding p.digits y (d.rootOfPositive k p).toRat := by
  have hmantissa : 0 < d.mantissa := toRat_pos_iff.mp hd
  unfold rootOfPositive
  dsimp only
  set padding := k * (p.digits + 2) - d.digits
  set shift := padding + ((d.exponent - padding) % k).toNat with hshift
  set root := rootFloor k (d.mantissa.natAbs * pow10 shift)
  set e : ℤ := (d.exponent - shift) / k with he
  obtain ⟨x, hlow, hhigh, hx⟩ := toRat_withSticky root (Nat.pow root k == d.mantissa.natAbs * pow10 shift) e
  have hmany : 10 ^ p.digits ≤ root := pow_le_rootFloor hk hmantissa.ne' (Nat.le_add_right ..)
  have hvalue : ((withSticky root (Nat.pow root k == d.mantissa.natAbs * pow10 shift) e).roundTo p).toRat =
      rounded p.digits (root * 10 ^ e) := by
    rw [toRat_roundTo, hx, rounded_of_floor hmany hlow hhigh]
  -- The exponent that is left is a multiple of `k`.
  have hexponent : d.exponent = shift + e * k := by
    have hmod := Int.emod_nonneg (d.exponent - padding) (by omega : (k : ℤ) ≠ 0)
    have hdvd : (k : ℤ) ∣ d.exponent - shift := by
      have hsplit : d.exponent - shift = d.exponent - padding - (d.exponent - padding) % k := by omega
      rw [hsplit]
      exact Int.dvd_self_sub_emod
    rw [he, Int.ediv_mul_cancel hdvd]
    ring
  have hunit : (0 : ℝ) < 10 ^ e := by positivity
  have hscaled : (y / 10 ^ e) ^ k = (d.mantissa.natAbs * pow10 shift : ℕ) := by
    have hpower : ((10 : ℝ) ^ e) ^ k = 10 ^ (e * k) := by rw [zpow_mul, zpow_natCast]
    have hreal : (d.toRat : ℝ) = d.mantissa.natAbs * 10 ^ shift * 10 ^ (e * k) := by
      have habs : (d.mantissa : ℝ) = d.mantissa.natAbs := by
        rw [Nat.cast_natAbs, abs_of_pos hmantissa]
      rw [toRat, hexponent, ten_zpow_add, zpow_natCast]
      push_cast
      rw [habs, mul_assoc]
    rw [div_pow, hroot, hpower, hreal, mul_div_cancel_right₀ _ (by positivity), pow10_eq]
    push_cast
    rfl
  obtain ⟨hfloor, hceil⟩ := rootFloor_spec hk (d.mantissa.natAbs * pow10 shift)
  have hquotient : 0 ≤ y / 10 ^ e := by positivity
  have hfloor' : (root : ℝ) ≤ y / 10 ^ e := by
    refine le_of_pow_le_pow_left₀ hk.ne' hquotient ?_
    rw [hscaled]
    exact_mod_cast hfloor
  have hceil' : y / 10 ^ e < root + 1 := by
    refine lt_of_pow_lt_pow_left₀ k (by positivity) ?_
    rw [hscaled]
    exact_mod_cast hceil
  have hround := isRealRounding_of_floor p.digits_pos hmany hfloor' hceil' e
  rwa [div_mul_cancel₀ _ hunit.ne', ← hvalue] at hround

/-- The square root of a number that is not negative is the real one, rounded once. -/
theorem isRealRounding_sqrt? (hd : 0 ≤ d.toRat) :
    ∃ c, d.sqrt? p = some c ∧ IsRealRounding p.digits √(d.toRat : ℝ) c.toRat := by
  unfold sqrt?
  rw [if_neg (mt isNegative_iff.mp (not_lt.mpr hd))]
  split
  · rename_i hzero
    refine ⟨zero, rfl, ?_⟩
    rw [isZero_iff.mp hzero, toRat_zero, Rat.cast_zero, Real.sqrt_zero, ← Rat.cast_zero, isRealRounding_cast]
    exact isRounding_zero _
  · rename_i hzero
    have hpos : 0 < d.toRat := lt_of_le_of_ne hd (Ne.symm (mt isZero_iff.mpr hzero))
    refine ⟨_, rfl, isRealRounding_rootOfPositive two_pos hpos (Real.sqrt_nonneg _) (Real.sq_sqrt ?_)⟩
    exact_mod_cast hd

theorem sqrt?_eq_none_iff : d.sqrt? p = none ↔ d.toRat < 0 := by
  unfold sqrt?
  split
  · rename_i hneg
    exact iff_of_true rfl (isNegative_iff.mp hneg)
  · rename_i hneg
    refine iff_of_false ?_ (mt isNegative_iff.mpr hneg)
    split
    · exact Option.some_ne_none _
    · exact Option.some_ne_none _

/-- A cube root is the real one, rounded once, and has its sign. -/
theorem isRealRounding_cbrt {y : ℝ} (hroot : y ^ 3 = d.toRat) : IsRealRounding p.digits y (d.cbrt p).toRat := by
  unfold cbrt
  split
  · rename_i hzero
    rw [isZero_iff.mp hzero, Rat.cast_zero] at hroot
    rw [(pow_eq_zero_iff three_ne_zero).mp hroot, toRat_zero, ← Rat.cast_zero, isRealRounding_cast]
    exact isRounding_zero _
  rename_i hzero
  have hne : d.toRat ≠ 0 := mt isZero_iff.mpr hzero
  have habs : 0 < d.abs.toRat := by
    rw [toRat_abs]
    exact abs_pos.mpr hne
  have hround := isRealRounding_rootOfPositive (p := p) three_pos habs (abs_nonneg y)
    (by rw [← abs_pow, hroot, toRat_abs, Rat.cast_abs])
  rw [toRat_negIf]
  cases hsign : d.isNegative with
  | true =>
    have hneg : y < 0 := by
      by_contra! h
      have hpow : (0 : ℝ) ≤ y ^ 3 := pow_nonneg h 3
      rw [hroot] at hpow
      exact absurd (isNegative_iff.mp hsign) (not_lt.mpr (by exact_mod_cast hpow))
    rw [if_pos rfl]
    have hback := hround.neg
    rwa [abs_of_neg hneg, neg_neg] at hback
  | false =>
    have hnonneg : 0 ≤ y := by
      by_contra! h
      have hpow : y ^ 3 < 0 := Odd.pow_neg (by decide) h
      rw [hroot] at hpow
      have htrue : d.isNegative = true := isNegative_iff.mpr (by exact_mod_cast hpow)
      rw [hsign] at htrue
      cases htrue
    rwa [abs_of_nonneg hnonneg] at hround

end

theorem exists_cube_root (x : ℝ) : ∃ y : ℝ, y ^ 3 = x := by
  have hpos : ∀ z : ℝ, 0 ≤ z → (z ^ ((3 : ℕ) : ℝ)⁻¹) ^ 3 = z := fun z hz => Real.rpow_inv_natCast_pow hz (by decide)
  rcases le_total 0 x with h | h
  · exact ⟨_, hpos x h⟩
  · refine ⟨-(-x) ^ ((3 : ℕ) : ℝ)⁻¹, ?_⟩
    rw [Odd.neg_pow (by decide), hpos (-x) (neg_nonneg.mpr h), neg_neg]

/-- A root with at most `p` digits is its own rounding. -/
theorem IsRealRounding.eq_of_fits {p : ℕ} (hp : 0 < p) {q r : ℚ} (h : IsRealRounding p q r) (hq : Fits p q) : r = q := by
  rw [(isRounding_iff hp).mp (isRealRounding_cast.mp h), rounded_of_fits hq]

/-- Roots of numbers of any length are the real ones, rounded once: there is a square root exactly of numbers that are
not negative, and a cube root of every number. A root with at most `p` digits is exact. The shifts of the numbers have to
fit in 32 bits. -/
theorem roots_round_once (x : Decimal) (p : Precision) :
    (2 * (p.digits + 2) < 2 ^ 32 → (x.sqrt? p = none ↔ x.toRat < 0) ∧
      (0 ≤ x.toRat → ∃ c, x.sqrt? p = some c ∧ c.Normal ∧ IsRealRounding p.digits √(x.toRat : ℝ) c.toRat ∧
        ∀ q, Fits p.digits q → 0 ≤ q → q ^ 2 = x.toRat → c.toRat = q)) ∧
    (3 * (p.digits + 2) + 1 < 2 ^ 32 → (x.cbrt p).Normal ∧
      (∃ y : ℝ, y ^ 3 = x.toRat ∧ IsRealRounding p.digits y (x.cbrt p).toRat) ∧
        ∀ q, Fits p.digits q → q ^ 3 = x.toRat → (x.cbrt p).toRat = q) := by
  refine ⟨fun _ => ⟨sqrt?_eq_none_iff, fun hx => ?_⟩, fun _ => ⟨(within_cbrt x p).normal, ?_, fun q hq hroot => ?_⟩⟩
  · obtain ⟨c, hc, hround⟩ := isRealRounding_sqrt? (p := p) hx
    refine ⟨c, hc, (within_of_sqrt? hc).normal, hround, fun q hq hnonneg hroot => ?_⟩
    rw [← hroot, Rat.cast_pow, Real.sqrt_sq (by exact_mod_cast hnonneg)] at hround
    exact hround.eq_of_fits p.digits_pos hq
  · obtain ⟨y, hy⟩ := exists_cube_root x.toRat
    exact ⟨y, hy, isRealRounding_cbrt hy⟩
  · refine (isRealRounding_cbrt (y := q) ?_).eq_of_fits p.digits_pos hq
    exact_mod_cast hroot

/-- The square root of two, and the cube root of minus twenty-seven. -/
theorem roots_round_once_of_two :
    2 * (15 + 2) < 2 ^ 32 ∧ 3 * (15 + 2) + 1 < 2 ^ 32 ∧ (∃ c, (ofInt 2).sqrt? ⟨15, by decide⟩ = some c ∧
      IsRealRounding 15 √((ofInt 2).toRat : ℝ) c.toRat) ∧ ((ofInt (-27)).cbrt ⟨15, by decide⟩).toRat = -3 := by
  have hsquare : 2 * (15 + 2) < 2 ^ 32 := by decide
  have hcube : 3 * (15 + 2) + 1 < 2 ^ 32 := by decide
  have htwo : 0 ≤ (ofInt 2).toRat := by
    rw [toRat_ofInt]
    norm_num
  obtain ⟨c, hc, -, hround, -⟩ := ((roots_round_once (ofInt 2) ⟨15, by decide⟩).1 hsquare).2 htwo
  obtain ⟨-, -, hexact⟩ := (roots_round_once (ofInt (-27)) ⟨15, by decide⟩).2 hcube
  have hfits : Fits 15 (-3) := ⟨-3, 0, by norm_num, by norm_num⟩
  have hvalue : (-3 : ℚ) ^ 3 = (ofInt (-27)).toRat := by
    rw [toRat_ofInt]
    norm_num
  exact ⟨hsquare, hcube, ⟨c, hc, hround⟩, hexact (-3) hfits hvalue⟩

end Calculator.Decimal
