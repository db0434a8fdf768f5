import Calculator.Proofs.Decimal.Arctangent
import Mathlib.Algebra.Ring.GeomSum
import Mathlib.Analysis.SpecialFunctions.Complex.Arctan
import Mathlib.Analysis.SpecialFunctions.Trigonometric.Arctan
import Mathlib.Analysis.SpecificLimits.Normed
/-!
The digits of π. The series of two arctangents are added up in whole numbers, and each power and each term is cut off. A
term loses less than 3/2 by that; since the signs alternate, half of it counts for the sum, and there are at most three
terms for every four places. For precisions of 32 bits this stays below half a unit of the last digit.
-/
namespace Calculator.Decimal

/-! ### The series of the arctangent -/

/-- A term of the series, without its sign. -/
noncomputable def arctanTerm (x : ℝ) (i : ℕ) : ℝ := x ^ (2 * i + 1) / (2 * i + 1 : ℕ)

section
variable {x : ℝ}

theorem arctanTerm_nonneg (hx : 0 ≤ x) (i : ℕ) : 0 ≤ arctanTerm x i := by
  unfold arctanTerm
  positivity

theorem antitone_arctanTerm (hx : 0 ≤ x) (hx1 : x ≤ 1) : Antitone (arctanTerm x) := by
  refine antitone_nat_of_succ_le fun i => ?_
  unfold arctanTerm
  have hpower : x ^ (2 * (i + 1) + 1) ≤ x ^ (2 * i + 1) := pow_le_pow_of_le_one hx hx1 (by omega)
  gcongr
  omega

/-- The rest of the alternating series is less than its first term. -/
theorem abs_arctan_sub_le (hx : 0 ≤ x) (hx1 : x < 1) (n : ℕ) :
    |Real.arctan x - ∑ i ∈ Finset.range n, (-1) ^ i * arctanTerm x i| ≤ arctanTerm x n := by
  have hsum : HasSum (fun i => (-1) ^ i * arctanTerm x i) (Real.arctan x) := by
    simpa only [arctanTerm, mul_div_assoc] using Real.hasSum_arctan (by rwa [Real.norm_of_nonneg hx] : ‖x‖ < 1)
  have hsummable : Summable (arctanTerm x) := by
    refine hsum.summable.abs.congr fun i => ?_
    rw [abs_mul, abs_neg_one_pow, one_mul, abs_of_nonneg (arctanTerm_nonneg hx i)]
  rw [← hsum.tsum_eq]
  exact alternating_series_error_bound _ (antitone_arctanTerm hx hx1.le) hsummable n

end

/-! ### The sum in whole numbers -/

/-- What is cut off by a division of whole numbers. -/
theorem natCast_div_bounds (a : ℕ) {b : ℕ} (hb : 0 < b) :
    ((a / b : ℕ) : ℝ) ≤ a / b ∧ (a : ℝ) / b < (a / b : ℕ) + 1 := by
  have hb' : (0 : ℝ) < b := by exact_mod_cast hb
  refine ⟨Nat.cast_div_le, ?_⟩
  rw [div_lt_iff₀ hb']
  exact_mod_cast Nat.lt_mul_of_div_lt (Nat.lt_succ_self (a / b)) hb

/-- The sum of the exact terms up to the index `j`, each of them less 3/4. -/
noncomputable def centredSum (n scale j : ℕ) : ℝ :=
  ∑ i ∈ Finset.range (j + 1), (-1) ^ i * (scale * arctanTerm (n : ℝ)⁻¹ i - 3 / 4)

theorem centredSum_succ (n scale j : ℕ) : centredSum n scale (j + 1) =
    centredSum n scale j + (-1) ^ (j + 1) * (scale * arctanTerm (n : ℝ)⁻¹ (j + 1) - 3 / 4) :=
  Finset.sum_range_succ ..

/-- The amounts by which the terms are less cancel but for one. -/
theorem abs_centredSum_sub_le {n : ℕ} (hn : 1 < n) (scale j : ℕ) :
    |centredSum n scale j - scale * Real.arctan (n : ℝ)⁻¹| ≤ scale * arctanTerm (n : ℝ)⁻¹ (j + 1) + 3 / 4 := by
  have hn' : (1 : ℝ) < n := by exact_mod_cast hn
  have hseries := abs_arctan_sub_le (by positivity) (inv_lt_one_of_one_lt₀ hn') (j + 1)
  have hscaled : |scale * Real.arctan (n : ℝ)⁻¹ - scale * ∑ i ∈ Finset.range (j + 1), (-1) ^ i * arctanTerm (n : ℝ)⁻¹ i| ≤
      scale * arctanTerm (n : ℝ)⁻¹ (j + 1) := by
    rw [← mul_sub, abs_mul, Nat.abs_cast]
    exact mul_le_mul_of_nonneg_left hseries (Nat.cast_nonneg scale)
  have hsplit : centredSum n scale j = scale * ∑ i ∈ Finset.range (j + 1), (-1) ^ i * arctanTerm (n : ℝ)⁻¹ i -
      3 / 4 * ∑ i ∈ Finset.range (j + 1), (-1 : ℝ) ^ i := by
    rw [centredSum, Finset.mul_sum, Finset.mul_sum, ← Finset.sum_sub_distrib]
    exact Finset.sum_congr rfl fun i _ => by ring
  have hone : |∑ i ∈ Finset.range (j + 1), (-1 : ℝ) ^ i| ≤ 1 := by
    rw [neg_one_geom_sum]
    split <;> simp
  obtain ⟨hone, hone'⟩ := abs_le.mp hone
  obtain ⟨hscaled, hscaled'⟩ := abs_le.mp hscaled
  rw [hsplit, abs_le]
  constructor <;> linarith

/-- What the power and the sum keep when the terms up to the index `j` are added: no term that is added differs from the
exact one less 3/4 by more than 3/4. -/
structure Accrued (n scale j power : ℕ) (sum : ℤ) : Prop where
  power_le : (power : ℝ) ≤ scale * (n : ℝ)⁻¹ ^ (2 * j + 1)
  le_power : scale * (n : ℝ)⁻¹ ^ (2 * j + 1) ≤ (power : ℝ) + 25 / 24
  total : |sum - centredSum n scale j| ≤ 3 / 4 * (j + 1 : ℕ)
  reached : 5 ^ (2 * j + 1) ≤ scale

section
variable {n scale j power next term : ℕ} {sum : ℤ}

theorem Accrued.start (hn : 5 ≤ n) (hscale : 5 ≤ scale) : Accrued n scale 0 (scale / n) (scale / n : ℕ) := by
  obtain ⟨hlow, hhigh⟩ := natCast_div_bounds scale (by omega : 0 < n)
  rw [div_eq_mul_inv] at hlow hhigh
  refine ⟨by simpa using hlow, ?_, ?_, by simpa using hscale⟩
  · rw [mul_zero, zero_add, pow_one]
    linarith
  · simp only [centredSum, arctanTerm, zero_add, Finset.sum_range_one, mul_zero, pow_zero, pow_one, one_mul, Nat.cast_one,
      div_one, Int.cast_natCast, mul_one]
    rw [abs_le]
    constructor <;> linarith

/-- The next power is cut off once more. -/
theorem Accrued.next_bounds (hn : 5 ≤ n) (h : Accrued n scale j power sum) (hnext : next = power / (n * n)) :
    (next : ℝ) ≤ scale * (n : ℝ)⁻¹ ^ (2 * (j + 1) + 1) ∧
      scale * (n : ℝ)⁻¹ ^ (2 * (j + 1) + 1) ≤ (next : ℝ) + 25 / 24 := by
  have hn' : (5 : ℝ) ≤ n := by exact_mod_cast hn
  have hsquare : (n : ℝ)⁻¹ * (n : ℝ)⁻¹ ≤ 1 / 25 := by
    have hinv : (n : ℝ)⁻¹ ≤ 5⁻¹ := inv_anti₀ (by norm_num) hn'
    calc (n : ℝ)⁻¹ * (n : ℝ)⁻¹ ≤ 5⁻¹ * 5⁻¹ := mul_le_mul hinv hinv (by positivity) (by norm_num)
      _ = 1 / 25 := by norm_num
  obtain ⟨hlow, hhigh⟩ := natCast_div_bounds power (by positivity : 0 < n * n)
  rw [← hnext, Nat.cast_mul, div_eq_mul_inv, mul_inv] at hlow hhigh
  have hsplit : scale * (n : ℝ)⁻¹ ^ (2 * (j + 1) + 1) =
      scale * (n : ℝ)⁻¹ ^ (2 * j + 1) * ((n : ℝ)⁻¹ * (n : ℝ)⁻¹) := by ring
  have hpos : (0 : ℝ) ≤ (n : ℝ)⁻¹ * (n : ℝ)⁻¹ := by positivity
  rw [hsplit]
  constructor
  · linarith [mul_le_mul_of_nonneg_right h.power_le hpos]
  · linarith [mul_le_mul_of_nonneg_right h.le_power hpos]

/-- A term loses less than 3/2. -/
theorem Accrued.term_bounds (hn : 5 ≤ n) (h : Accrued n scale j power sum) (hnext : next = power / (n * n))
    (hterm : term = next / (2 * (j + 1) + 1)) :
    (term : ℝ) ≤ scale * arctanTerm (n : ℝ)⁻¹ (j + 1) ∧ scale * arctanTerm (n : ℝ)⁻¹ (j + 1) ≤ (term : ℝ) + 3 / 2 := by
  obtain ⟨hpower, hpower'⟩ := h.next_bounds hn hnext
  obtain ⟨hlow, hhigh⟩ := natCast_div_bounds next (by omega : 0 < 2 * (j + 1) + 1)
  rw [← hterm] at hlow hhigh
  have hindex : (3 : ℝ) ≤ (2 * (j + 1) + 1 : ℕ) := by exact_mod_cast (by omega : 3 ≤ 2 * (j + 1) + 1)
  have hlost : (25 : ℝ) / 24 / (2 * (j + 1) + 1 : ℕ) ≤ 25 / 24 / 3 :=
    div_le_div_of_nonneg_left (by norm_num) (by norm_num) hindex
  rw [arctanTerm, ← mul_div_assoc]
  constructor
  · exact hlow.trans (by gcongr)
  · calc scale * (n : ℝ)⁻¹ ^ (2 * (j + 1) + 1) / (2 * (j + 1) + 1 : ℕ)
        ≤ ((next : ℝ) + 25 / 24) / (2 * (j + 1) + 1 : ℕ) := by gcongr
      _ = next / (2 * (j + 1) + 1 : ℕ) + 25 / 24 / (2 * (j + 1) + 1 : ℕ) := add_div ..
      _ ≤ (term : ℝ) + 3 / 2 := by linarith

/-- A term that does not vanish is added with its sign. -/
theorem Accrued.step (hn : 5 ≤ n) (h : Accrued n scale j power sum) (hnext : next = power / (n * n))
    (hterm : term = next / (2 * (j + 1) + 1)) (hne : term ≠ 0) :
    Accrued n scale (j + 1) next (sum + (-1) ^ (j + 1) * term) := by
  obtain ⟨hpower, hpower'⟩ := h.next_bounds hn hnext
  obtain ⟨hlow, hhigh⟩ := h.term_bounds hn hnext hterm
  refine ⟨hpower, hpower', ?_, ?_⟩
  · have hlost : |(term : ℝ) - (scale * arctanTerm (n : ℝ)⁻¹ (j + 1) - 3 / 4)| ≤ 3 / 4 :=
      abs_le.mpr ⟨by linarith, by linarith⟩
    have hsplit : ((sum + (-1) ^ (j + 1) * term : ℤ) : ℝ) - centredSum n scale (j + 1) =
        (sum - centredSum n scale j) +
          (-1) ^ (j + 1) * (term - (scale * arctanTerm (n : ℝ)⁻¹ (j + 1) - 3 / 4)) := by
      rw [centredSum_succ]
      push_cast
      ring
    have htriangle := abs_add_le (sum - centredSum n scale j)
      ((-1) ^ (j + 1) * (term - (scale * arctanTerm (n : ℝ)⁻¹ (j + 1) - 3 / 4)))
    rw [abs_mul, abs_neg_one_pow, one_mul] at htriangle
    have htotal := h.total
    rw [hsplit]
    push_cast at htotal ⊢
    linarith
  · have hone : 1 ≤ next := by
      rw [Nat.one_le_iff_ne_zero]
      rintro rfl
      exact hne (by rw [hterm, Nat.zero_div])
    have hpos : (0 : ℝ) < n := by exact_mod_cast (by omega : 0 < n)
    have hreached : (n : ℝ) ^ (2 * (j + 1) + 1) ≤ scale := by
      have hone' : (1 : ℝ) ≤ scale * (n : ℝ)⁻¹ ^ (2 * (j + 1) + 1) := by
        have hcast : (1 : ℝ) ≤ next := by exact_mod_cast hone
        exact hcast.trans hpower
      rwa [inv_pow, ← div_eq_mul_inv, le_div_iff₀ (by positivity), one_mul] at hone'
    calc 5 ^ (2 * (j + 1) + 1) ≤ n ^ (2 * (j + 1) + 1) := Nat.pow_le_pow_left hn _
      _ ≤ scale := by exact_mod_cast hreached

/-- Where the next term vanishes the sum is near to the arctangent. -/
theorem Accrued.stop (hn : 5 ≤ n) (h : Accrued n scale j power sum) (hzero : power / (n * n) / (2 * (j + 1) + 1) = 0) :
    |sum - scale * Real.arctan (n : ℝ)⁻¹| ≤ 3 / 4 * j + 3 := by
  have hrest := (h.term_bounds hn rfl hzero.symm).2
  rw [Nat.cast_zero, zero_add] at hrest
  have hcentred := abs_centredSum_sub_le (by omega : 1 < n) scale j
  have htotal := h.total
  push_cast at htotal
  have htriangle := abs_sub_le (sum : ℝ) (centredSum n scale j) (scale * Real.arctan (n : ℝ)⁻¹)
  linarith

theorem ite_odd_sub_add (k : ℕ) (a b : ℤ) : (if k % 2 = 1 then a - b else a + b) = a + (-1) ^ k * b := by
  rcases Nat.even_or_odd k with hk | hk
  · rw [if_neg (by have := Nat.even_iff.mp hk; omega), hk.neg_one_pow, one_mul]
  · rw [if_pos (Nat.odd_iff.mp hk), hk.neg_one_pow, neg_one_mul, sub_eq_add_neg]

/-- However many terms there are, each of them is a power of five further. -/
theorem Accrued.run (hn : 5 ≤ n) (hsquare : 1 < n * n) (h : Accrued n scale j power sum) :
    ∃ m : ℕ, 5 ^ (2 * m + 1) ≤ scale ∧
      |(arctanInverseLoop (n * n) hsquare power (j + 1) sum : ℝ) - scale * Real.arctan (n : ℝ)⁻¹| ≤ 3 / 4 * m + 3 := by
  induction power using Nat.strong_induction_on generalizing j sum with
  | _ power ih =>
    rw [arctanInverseLoop]
    split
    · rename_i hzero
      exact ⟨j, h.reached, h.stop hn hzero⟩
    · rename_i hne
      have hpos : 0 < power := by
        rw [Nat.pos_iff_ne_zero]
        rintro rfl
        simp at hne
      rw [ite_odd_sub_add]
      exact ih _ (Nat.div_lt_self hpos hsquare) (h.step hn rfl rfl hne)

end

/-- The arctangent of an inverse is found up to an error that grows with the places. -/
theorem abs_arctanInverse_sub_le {n places : ℕ} (hn : 5 ≤ n) (hsquare : 1 < n * n) (hplaces : 0 < places) :
    |(arctanInverse n hsquare (pow10 places) : ℝ) - 10 ^ places * Real.arctan (n : ℝ)⁻¹| ≤ 9 / 16 * places + 3 := by
  have hscale : 5 ≤ pow10 places := by
    rw [pow10_eq]
    exact (by decide : 5 ≤ 10).trans (Nat.le_self_pow hplaces.ne' 10)
  obtain ⟨m, hm, herror⟩ := (Accrued.start hn hscale).run hn hsquare
  have hfew : 2 * (2 * m + 1) ≤ 3 * places := by
    rw [pow10_eq] at hm
    have hpower : 5 ^ (2 * (2 * m + 1)) ≤ 5 ^ (3 * places) := by
      calc 5 ^ (2 * (2 * m + 1)) = (5 ^ (2 * m + 1)) ^ 2 := by rw [← pow_mul, mul_comm]
        _ ≤ (10 ^ places) ^ 2 := Nat.pow_le_pow_left hm 2
        _ = (10 ^ 2) ^ places := by rw [← pow_mul, mul_comm, pow_mul]
        _ ≤ (5 ^ 3) ^ places := Nat.pow_le_pow_left (by decide) places
        _ = 5 ^ (3 * places) := (pow_mul ..).symm
    exact (Nat.pow_le_pow_iff_right (by decide)).mp hpower
  have hfew' : (2 : ℝ) * (2 * m + 1) ≤ 3 * places := by exact_mod_cast hfew
  have hcast : ((pow10 places : ℕ) : ℝ) = 10 ^ places := by rw [pow10_eq, Nat.cast_pow, Nat.cast_ofNat]
  rw [zero_add, hcast] at herror
  rw [arctanInverse]
  linarith

/-! ### The number π -/

/-- The units before they are rounded. -/
theorem abs_piUnits_sub_le {places : ℕ} (hplaces : 0 < places) {units : ℤ}
    (hunits : units = arctanInverse 5 (by decide) (pow10 places) * 16 -
      arctanInverse 239 (by decide) (pow10 places) * 4) :
    |units - 10 ^ places * Real.pi| ≤ 45 / 4 * places + 60 := by
  have hfive := abs_arctanInverse_sub_le (n := 5) le_rfl (by decide) hplaces
  have hmany := abs_arctanInverse_sub_le (n := 239) (by decide) (by decide) hplaces
  have hmachin := Real.four_mul_arctan_inv_5_sub_arctan_inv_239
  have hpi : (10 : ℝ) ^ places * Real.pi =
      10 ^ places * Real.arctan (5 : ℝ)⁻¹ * 16 - 10 ^ places * Real.arctan (239 : ℝ)⁻¹ * 4 := by
    linear_combination (-4 * (10 : ℝ) ^ places) * hmachin
  obtain ⟨hfive, hfive'⟩ := abs_le.mp hfive
  obtain ⟨hmany, hmany'⟩ := abs_le.mp hmany
  rw [hpi, hunits]
  push_cast at hfive hfive' hmany hmany' ⊢
  rw [abs_le]
  constructor <;> linarith

/-- Before it is rounded the number is nearer to π than half a unit of its last digit. -/
theorem exists_near_pi {p : Precision} (hp : p.digits ≤ 43 * 10 ^ 8) :
    ∃ q : ℚ, (pi p).toRat = rounded p.digits q ∧ |(q : ℝ) - Real.pi| < 10 ^ (1 - p.digits : ℤ) / 2 := by
  obtain ⟨places, hplaces⟩ : ∃ places, places = p.digits + guardDigits := ⟨_, rfl⟩
  obtain ⟨units, hunits⟩ : ∃ units, units = arctanInverse 5 (by decide) (pow10 places) * 16 -
    arctanInverse 239 (by decide) (pow10 places) * 4 := ⟨_, rfl⟩
  refine ⟨units / 10 ^ places, toRat_pi hplaces hunits, ?_⟩
  have hguard : places = p.digits + 10 := hplaces
  have herror := abs_piUnits_sub_le (by omega) hunits
  have hfew : 45 / 4 * (places : ℝ) + 60 < 5 * 10 ^ 10 := by
    have hbound : (places : ℝ) ≤ 43 * 10 ^ 8 + 10 := by exact_mod_cast (by omega : places ≤ 43 * 10 ^ 8 + 10)
    linarith
  have hscale : (0 : ℝ) < 10 ^ places := by positivity
  have hhalf : (10 : ℝ) ^ (1 - p.digits : ℤ) / 2 = 5 * 10 ^ 10 / 10 ^ places := by
    rw [hguard, zpow_sub₀ (by norm_num), zpow_one, zpow_natCast, pow_add]
    field_simp
    norm_num
  have hsplit : ((units / 10 ^ places : ℚ) : ℝ) - Real.pi = (units - 10 ^ places * Real.pi) / 10 ^ places := by
    push_cast
    field_simp
  rw [hsplit, abs_div, abs_of_pos hscale, hhalf, div_lt_div_iff_of_pos_right hscale]
  linarith

/-- For every precision up to `10 ^ 9` the number has at most so many digits and differs from π by less than a unit of the
last one. -/
theorem pi_within_unit (p : Precision) (hp : p.digits ≤ 10 ^ 9) :
    (pi p).Within p ∧ |((pi p).toRat : ℝ) - Real.pi| < unit p.digits (pi p).toRat := by
  refine ⟨within_pi p, ?_⟩
  obtain ⟨q, hvalue, hnear⟩ := exists_near_pi (p := p) (by omega)
  obtain ⟨hround, hunit⟩ := abs_rounded_sub_le_unit p.digits_pos q
  have hhalf : (10 : ℝ) ^ (1 - p.digits : ℤ) ≤ 1 :=
    zpow_le_one_of_nonpos₀ (by norm_num) (by have := p.digits_pos; omega)
  obtain ⟨hlow, hhigh⟩ := abs_lt.mp hnear
  -- The first digit stands before the point.
  have hdecade : unit p.digits q = 10 ^ (1 - p.digits : ℤ) := by
    have hone : (10 : ℚ) ^ (0 : ℤ) ≤ q := by
      have hcast : (1 : ℝ) ≤ q := by linarith [Real.two_le_pi]
      rw [zpow_zero]
      exact_mod_cast hcast
    have hten : q < (10 : ℚ) ^ (0 + 1 : ℤ) := by
      have hcast : (q : ℝ) < 10 := by linarith [Real.pi_le_four]
      rw [zero_add, zpow_one]
      exact_mod_cast hcast
    rw [unit, abs_of_pos (by linarith [ten_zpow_pos 0]), log_eq hone hten]
    congr 1
    ring
  have hround' : |((rounded p.digits q : ℚ) : ℝ) - q| ≤ unit p.digits q / 2 := by exact_mod_cast hround
  have hunit' : (unit p.digits q : ℝ) ≤ unit p.digits (rounded p.digits q) := by exact_mod_cast hunit
  have htriangle := abs_sub_le ((rounded p.digits q : ℚ) : ℝ) q Real.pi
  have hcast : ((unit p.digits q : ℚ) : ℝ) = 10 ^ (1 - p.digits : ℤ) := by
    rw [hdecade]
    push_cast
    rfl
  rw [hvalue]
  linarith

/-- Fifteen digits, right to less than one unit of the last of them. -/
theorem pi_within_unit_fifteen :
    (Precision.ofRequest 15).digits ≤ 10 ^ 9 ∧ pi (.ofRequest 15) = ⟨314159265358979, -14⟩ ∧
      |((toRat ⟨314159265358979, -14⟩ : ℚ) : ℝ) - Real.pi| < unit 15 (toRat ⟨314159265358979, -14⟩) := by
  have hdigits : (Precision.ofRequest 15).digits = 15 := by decide
  have hvalue : pi (.ofRequest 15) = ⟨314159265358979, -14⟩ := by decide +kernel
  have hunit := (pi_within_unit (.ofRequest 15) (by decide)).2
  rw [hvalue, hdigits] at hunit
  exact ⟨by decide, hvalue, hunit⟩

end Calculator.Decimal
