import Calculator.Proofs.Decimal.Powers
import Calculator.Proofs.Decimal.Summation
import Mathlib.Analysis.Complex.ExponentialBounds
import Mathlib.Analysis.SpecialFunctions.Trigonometric.DerivHyp
import Mathlib.Analysis.SpecialFunctions.Trigonometric.Series
/-!
The sums of the sine and of the cosine, for an argument up to seven. The terms grow before they shrink, and the sum may
cancel almost all of them, so that nothing is known of it relative to itself; the absolute error is bounded. While the terms
are not tiny the partial sums are hardly above one, and from there on a partial sum is compared with the next term.
-/
namespace Calculator.Decimal

namespace Series

/-! ### The absolute values of the terms -/

/-- The absolute value of a term of the exponential series. -/
noncomputable def mass (b : ℝ) (n : ℕ) : ℝ := b ^ n / n.factorial

section
variable {b c : ℝ}

theorem mass_nonneg (hb : 0 ≤ b) (n : ℕ) : 0 ≤ mass b n := by
  unfold mass
  positivity

theorem mass_mono (hb : 0 ≤ b) (h : b ≤ c) (n : ℕ) : mass b n ≤ mass c n := by
  unfold mass
  gcongr

theorem mass_le_exp (hb : 0 ≤ b) (n : ℕ) : mass b n ≤ Real.exp b := Real.pow_div_factorial_le_exp b hb n

/-- Terms on are at most a product of terms. -/
theorem mass_add_le (hb : 0 ≤ b) (n m : ℕ) : mass b (n + m) ≤ mass b n * mass b m := by
  have hfactorial : (n.factorial * m.factorial : ℝ) ≤ (n + m).factorial := by
    exact_mod_cast Nat.le_of_dvd (Nat.factorial_pos _) (Nat.factorial_mul_factorial_dvd_factorial_add n m)
  rw [mass, mass, mass, div_mul_div_comm, ← pow_add]
  gcongr

/-- Every second term from `n` on, in all. -/
theorem hasSum_mass (b : ℝ) (n : ℕ) : HasSum (fun j => mass b n * mass b (2 * j)) (mass b n * Real.cosh b) :=
  (Real.hasSum_cosh b).mul_left (mass b n)

theorem cosh_le_exp (hb : 0 ≤ b) : Real.cosh b ≤ Real.exp b := by
  linarith [Real.cosh_add_sinh b, Real.sinh_nonneg_iff.mpr hb]

theorem sum_mass_tail_le (hb : 0 ≤ b) (n k : ℕ) :
    ∑ j ∈ Finset.range k, mass b (n + 2 * j) ≤ mass b n * Real.exp b := by
  calc ∑ j ∈ Finset.range k, mass b (n + 2 * j)
      ≤ ∑ j ∈ Finset.range k, mass b n * mass b (2 * j) := Finset.sum_le_sum fun j _ => mass_add_le hb n (2 * j)
    _ ≤ mass b n * Real.cosh b :=
      sum_le_hasSum _ (fun j _ => mul_nonneg (mass_nonneg hb n) (mass_nonneg hb _)) (hasSum_mass b n)
    _ ≤ mass b n * Real.exp b := mul_le_mul_of_nonneg_left (cosh_le_exp hb) (mass_nonneg hb n)

theorem sum_mass_le (hb : 0 ≤ b) (n k : ℕ) : ∑ j ∈ Finset.range k, mass b (n + 2 * j) ≤ Real.exp b := by
  have hall : ∑ j ∈ Finset.range k, mass b (n + 2 * j) ≤ ∑ i ∈ Finset.range (n + 2 * k), mass b i := by
    induction k with
    | zero => exact Finset.sum_nonneg fun i _ => mass_nonneg hb i
    | succ k ih =>
      rw [Finset.sum_range_succ, Nat.mul_succ, ← Nat.add_assoc, Finset.sum_range_succ, Finset.sum_range_succ]
      linarith [mass_nonneg hb (n + 2 * k + 1)]
  exact hall.trans (Real.sum_le_exp_of_nonneg hb _)

theorem exp_seven_le : Real.exp 7 ≤ 1100 := by
  have hsplit : Real.exp 7 = Real.exp 1 ^ 7 := by rw [← Real.exp_nat_mul]; norm_num
  rw [hsplit]
  calc Real.exp 1 ^ 7 ≤ 2.7182818286 ^ 7 := by
        gcongr
        exact Real.exp_one_lt_d9.le
    _ ≤ 1100 := by norm_num

theorem exp_ten_le : Real.exp 10 ≤ 22027 := by
  have hsplit : Real.exp 10 = Real.exp 1 ^ 10 := by rw [← Real.exp_nat_mul]; norm_num
  rw [hsplit]
  calc Real.exp 1 ^ 10 ≤ 2.7182818286 ^ 10 := by
        gcongr
        exact Real.exp_one_lt_d9.le
    _ ≤ 22027 := by norm_num

/-- Behind ten million terms each is smaller by six digits. -/
theorem mass_far {m : ℕ} (hm : 10 ^ 7 ≤ m) (n : ℕ) : mass 10 (m + n) ≤ 10 ^ 5 * (1 / 10 ^ 6) ^ n := by
  have hm' : (10 : ℝ) ^ 7 ≤ m + 1 := by
    have hcast : ((10 ^ 7 : ℕ) : ℝ) ≤ m := by exact_mod_cast hm
    push_cast at hcast
    linarith
  have hratio : 10 / (m + 1 : ℝ) ≤ 1 / 10 ^ 6 := by
    rw [div_le_div_iff₀ (by positivity) (by positivity)]
    linarith
  have hstart : mass 10 m ≤ 10 ^ 5 := (mass_le_exp (by norm_num) m).trans (exp_ten_le.trans (by norm_num))
  have hfactorial : (m.factorial * (m + 1) ^ n : ℝ) ≤ (m + n).factorial := by
    exact_mod_cast Nat.factorial_mul_pow_le_factorial
  calc mass 10 (m + n) ≤ 10 ^ (m + n) / (m.factorial * (m + 1) ^ n) := by
        unfold mass
        gcongr
    _ = mass 10 m * (10 / (m + 1)) ^ n := by rw [mass, pow_add, div_pow, div_mul_div_comm]
    _ ≤ 10 ^ 5 * (1 / 10 ^ 6) ^ n :=
      mul_le_mul hstart (pow_le_pow_left₀ (by positivity) hratio n) (by positivity) (by positivity)

end

/-! ### The exact terms -/

/-- The terms of the series with alternating signs that begins at the index `n`. -/
noncomputable def wave (r : ℝ) (n k : ℕ) : ℝ := (-1) ^ k * (r ^ (n + 2 * k) / (n + 2 * k).factorial)

section
variable {r limit : ℝ} {n : ℕ}

theorem abs_wave (r : ℝ) (n k : ℕ) : |wave r n k| = mass |r| (n + 2 * k) := by
  rw [wave, abs_mul, abs_pow, abs_neg, abs_one, one_pow, one_mul, abs_div, abs_pow, Nat.abs_cast, mass]

theorem wave_succ (r : ℝ) (n k : ℕ) :
    wave r n (k + 1) = -(wave r n k * r ^ 2 / ((n + 2 * k + 1) * (n + 2 * k + 2) : ℕ)) := by
  have hfactorial : (n + 2 * (k + 1)).factorial = (n + 2 * k + 2) * ((n + 2 * k + 1) * (n + 2 * k).factorial) := rfl
  rw [wave, wave, hfactorial]
  have hne : ((n + 2 * k).factorial : ℝ) ≠ 0 := by positivity
  push_cast
  field_simp
  ring

theorem hasSum_wave_cos (r : ℝ) : HasSum (wave r 0) (Real.cos r) := by
  convert Real.hasSum_cos r using 2 with k
  rw [wave, zero_add, mul_div_assoc]

theorem hasSum_wave_sin (r : ℝ) : HasSum (wave r 1) (Real.sin r) := by
  convert Real.hasSum_sin r using 2 with k
  rw [wave, add_comm 1, mul_div_assoc]

/-- What the first terms leave of the sum is a multiple of the next one. -/
theorem abs_sub_sum_wave_le (h : HasSum (wave r n) limit) (k : ℕ) :
    |limit - ∑ i ∈ Finset.range k, wave r n i| ≤ mass |r| (n + 2 * k) * Real.exp |r| := by
  have hrest := (hasSum_nat_add_iff' k).mpr h
  have hbound : |limit - ∑ i ∈ Finset.range k, wave r n i| ≤ mass |r| (n + 2 * k) * Real.cosh |r| := by
    refine hrest.norm_le_of_bounded (hasSum_mass |r| (n + 2 * k)) fun j => ?_
    rw [Real.norm_eq_abs, abs_wave, Nat.mul_add, Nat.add_comm (2 * j), ← Nat.add_assoc]
    exact mass_add_le (abs_nonneg r) _ _
  exact hbound.trans (mul_le_mul_of_nonneg_left (cosh_le_exp (abs_nonneg r)) (mass_nonneg (abs_nonneg r) _))

theorem abs_sum_wave_le (r : ℝ) (n k : ℕ) : |∑ i ∈ Finset.range k, wave r n i| ≤ Real.exp |r| := by
  refine (Finset.abs_sum_le_sum_abs ..).trans ?_
  simp only [abs_wave]
  exact sum_mass_le (abs_nonneg r) n k

end

/-! ### The rounded terms -/

/-- How far a term may be off, relative to the one before: by three roundings. -/
noncomputable def slack (p : ℕ) : ℝ := 6 * roundoff p

/-- What holds of the last term, the one with the number `k`. -/
structure Follows (p : ℕ) (r : ℝ) (n k : ℕ) (s : Position) : Prop where
  index : s.index = n + 2 * k
  abs_le : |(s.power.toRat : ℝ)| ≤ (1 + slack p) ^ k * mass |r| (n + 2 * k)
  near : |(s.power.toRat : ℝ) - wave r n k| ≤ slack p * k * (1 + slack p) ^ k * mass |r| (n + 2 * k)

section
variable {p : Precision} {r first sum : Decimal} {limit : ℝ} {n k : ℕ} {s : Position}

/-- The value of the next term, whether or not it is in range. -/
def nextValue (p : Precision) (square : ℚ) (s : Position) : ℚ :=
  -rounded p.digits (rounded p.digits (s.power.toRat * square) / ((s.index + 1) * (s.index + 2) : ℕ))

theorem factorialNext_eq (p : Precision) (square : Decimal) (s : Position) :
    ∃ term : Decimal, term.toRat = nextValue p square.toRat s ∧ factorialNext p square true s =
      if Representable term.toRat then some (term, ⟨term, s.index + 2⟩) else none := by
  have hdivisor : (ofInt ((s.index + 1) * (s.index + 2) : ℕ)).toRat = ((s.index + 1) * (s.index + 2) : ℕ) := by
    rw [toRat_ofInt, Int.cast_natCast]
  obtain ⟨c, hc, hdiv⟩ := div?_eq (s.power.mul square p) (hdivisor.trans_ne (by positivity)) p
  have hvalue : (c.negIf true).toRat = -c.toRat := toRat_neg c
  refine ⟨c.negIf true, ?_, ?_⟩
  · rw [hvalue, hc, hdivisor, toRat_mul, nextValue]
  · have hrange : Representable (c.negIf true).toRat ↔ Representable c.toRat := by
      rw [hvalue, Representable, Representable, abs_neg, neg_eq_zero]
    rw [if_congr hrange rfl rfl, factorialNext, hdiv, checked_eq]
    split <;> rfl

/-- The next term is the exact one behind the last one, up to three roundings. -/
theorem abs_nextValue_sub_le (hp : 11 ≤ p.digits) (r : Decimal) (s : Position) {exact : ℝ}
    (hexact : exact = -(s.power.toRat * r.toRat ^ 2 / ((s.index + 1) * (s.index + 2) : ℕ))) :
    |(nextValue p (r.mul r p).toRat s : ℝ) - exact| ≤ slack p.digits * |exact| := by
  have hp' := p.digits_pos
  rw [nextValue, hexact]
  generalize (s.index + 1) * (s.index + 2) = d
  have hsquare : SignedClose p.digits 1 (r.mul r p).toRat (r.toRat ^ 2) := by
    have hround := signedClose_rounded hp' (r.toRat * r.toRat)
    rwa [← toRat_mul, ← sq, Rat.cast_pow] at hround
  have hproduct : SignedClose p.digits 2 (rounded p.digits (s.power.toRat * (r.mul r p).toRat) : ℚ)
      (s.power.toRat * r.toRat ^ 2) := by
    have hround := signedClose_rounded hp' (s.power.toRat * (r.mul r p).toRat)
    rw [Rat.cast_mul] at hround
    exact hround.trans hp' ((SignedClose.refl p.digits _).mul hp' hsquare)
  generalize rounded p.digits (s.power.toRat * (r.mul r p).toRat) = product at hproduct
  have hquotient : SignedClose p.digits 3 (rounded p.digits (product / d) : ℚ) (s.power.toRat * r.toRat ^ 2 / d) := by
    have hround := signedClose_rounded hp' (product / d)
    rw [Rat.cast_div, Rat.cast_natCast] at hround
    have hexact := hproduct.mul hp' (SignedClose.refl p.digits (d : ℝ)⁻¹)
    rw [← div_eq_mul_inv, ← div_eq_mul_inv] at hexact
    exact hround.trans hp' hexact
  have hfew : (3 : ℕ) * roundoff p.digits ≤ 1 / 2 := by
    have hsmall := roundoff_anti hp
    have hvalue : roundoff 11 = 5 / 10 ^ 11 := rfl
    rw [hvalue] at hsmall
    push_cast
    linarith
  have herror := hquotient.neg.abs_sub_le hp' hfew
  rw [Rat.cast_neg, slack]
  push_cast at herror
  linarith

theorem slack_nonneg (p : ℕ) : 0 ≤ slack p := mul_nonneg (by norm_num) (roundoff_pos p).le

theorem mass_abs_succ (r : ℝ) (n k : ℕ) :
    mass |r| (n + 2 * (k + 1)) = mass |r| (n + 2 * k) * (r ^ 2 / ((n + 2 * k + 1) * (n + 2 * k + 2) : ℕ)) := by
  have habs := congrArg (|·|) (wave_succ r n k)
  rwa [abs_wave, abs_neg, mul_div_assoc, abs_mul, abs_wave, abs_of_nonneg (by positivity : 0 ≤ r ^ 2 / _)] at habs

/-- The next term, which follows whether or not it is in range. -/
theorem Follows.next (hp : 11 ≤ p.digits) (h : Follows p.digits r.toRat n k s) {term : Decimal}
    (hterm : term.toRat = nextValue p (r.mul r p).toRat s) :
    Follows p.digits r.toRat n (k + 1) ⟨term, s.index + 2⟩ := by
  have hη := slack_nonneg p.digits
  have herror := abs_nextValue_sub_le hp r s rfl
  rw [← hterm, h.index] at herror
  obtain ⟨q, hq⟩ : ∃ q : ℝ, q = r.toRat ^ 2 / ((n + 2 * k + 1) * (n + 2 * k + 2) : ℕ) := ⟨_, rfl⟩
  have hq0 : 0 ≤ q := by
    rw [hq]
    positivity
  have hmass := mass_abs_succ r.toRat n k
  have hwave := wave_succ r.toRat n k
  rw [mul_div_assoc] at hwave herror
  rw [← hq] at hmass hwave herror
  rw [abs_neg, abs_mul, abs_of_nonneg hq0] at herror
  have hpower := mul_le_mul_of_nonneg_right h.abs_le hq0
  have hnear := mul_le_mul_of_nonneg_right h.near hq0
  rw [mul_assoc _ (mass _ _), ← hmass] at hpower hnear
  have herror' := mul_le_mul_of_nonneg_left hpower hη
  refine ⟨by rw [h.index]; ring, ?_, ?_⟩
  · have htriangle := abs_sub_le (term.toRat : ℝ) (-(s.power.toRat * q)) 0
    rw [sub_zero, sub_zero, abs_neg, abs_mul, abs_of_nonneg hq0] at htriangle
    calc |(term.toRat : ℝ)| ≤ (1 + slack p.digits) * (|(s.power.toRat : ℝ)| * q) := by linarith
      _ ≤ (1 + slack p.digits) * ((1 + slack p.digits) ^ k * mass |(r.toRat : ℝ)| (n + 2 * (k + 1))) := by gcongr
      _ = (1 + slack p.digits) ^ (k + 1) * mass |(r.toRat : ℝ)| (n + 2 * (k + 1)) := by ring
  · have htriangle := abs_sub_le (term.toRat : ℝ) (-(s.power.toRat * q)) (wave r.toRat n (k + 1))
    have hmove : |-(s.power.toRat * q) - wave r.toRat n (k + 1)| = |s.power.toRat - wave r.toRat n k| * q := by
      rw [hwave, neg_sub_neg, ← sub_mul, abs_mul, abs_of_nonneg hq0, abs_sub_comm]
    have hgrowth : (1 + slack p.digits) ^ k ≤ (1 + slack p.digits) ^ (k + 1) :=
      pow_le_pow_right₀ (by linarith) (Nat.le_succ k)
    have hmass0 := mass_nonneg (abs_nonneg (r.toRat : ℝ)) (n + 2 * (k + 1))
    calc |(term.toRat : ℝ) - wave r.toRat n (k + 1)|
        ≤ slack p.digits * ((k + 1 : ℕ) : ℝ) * (1 + slack p.digits) ^ k * mass |(r.toRat : ℝ)| (n + 2 * (k + 1)) := by
          push_cast
          linarith
      _ ≤ slack p.digits * ((k + 1 : ℕ) : ℝ) * (1 + slack p.digits) ^ (k + 1) *
          mass |(r.toRat : ℝ)| (n + 2 * (k + 1)) := by gcongr

/-- The last term of a run. -/
theorem Gets.follows (hp : 11 ≤ p.digits) (hfirst : (first.toRat : ℝ) = wave r.toRat n 0)
    (h : Gets p (factorialNext p (r.mul r p) true) ⟨first, n⟩ first k s sum) : Follows p.digits r.toRat n k s := by
  induction h with
  | start => exact ⟨rfl, by simp [hfirst, abs_wave], by simp [hfirst]⟩
  | @add k s s' sum term h hnext hmore ih =>
    obtain ⟨next, hvalue, heq⟩ := factorialNext_eq p (r.mul r p) s
    rw [heq] at hnext
    split at hnext
    · rw [Option.some.injEq, Prod.mk.injEq] at hnext
      obtain ⟨-, rfl⟩ := hnext
      exact ih.next hp hvalue
    · cases hnext

/-! ### The size of the terms -/

theorem slack_le {p : ℕ} (hp : 11 ≤ p) : slack p ≤ 30 / 10 ^ 11 := by
  have hsmall := roundoff_anti hp
  have hvalue : roundoff 11 = 5 / 10 ^ 11 := rfl
  rw [hvalue] at hsmall
  rw [slack]
  linarith

/-- The errors of the terms grow slower than the terms themselves with a greater argument. -/
theorem growth_le {p : ℕ} (hp : 11 ≤ p) (k : ℕ) :
    (1 + slack p) ^ k ≤ ((10 / 7) ^ 2) ^ k ∧ k * (1 + slack p) ^ k ≤ ((10 / 7) ^ 2) ^ k := by
  have hη := slack_nonneg p
  have hη' := slack_le hp
  have hbase : 1 + slack p ≤ 102 / 100 := by linarith
  constructor
  · exact pow_le_pow_left₀ (by linarith) (by linarith) k
  · have hk : (k : ℝ) ≤ 2 ^ k := by exact_mod_cast Nat.lt_two_pow_self.le
    calc k * (1 + slack p) ^ k ≤ 2 ^ k * (102 / 100) ^ k := by gcongr
      _ = (204 / 100) ^ k := by rw [← mul_pow]; norm_num
      _ ≤ ((10 / 7) ^ 2) ^ k := by gcongr; norm_num

theorem mass_mul_le {b : ℝ} (hb : 0 ≤ b) (hb' : b ≤ 7) (n k : ℕ) :
    mass b (n + 2 * k) * ((10 / 7) ^ 2) ^ k ≤ mass 10 (n + 2 * k) := by
  calc mass b (n + 2 * k) * ((10 / 7) ^ 2) ^ k
      ≤ mass 7 (n + 2 * k) * (10 / 7) ^ (n + 2 * k) := by
        gcongr
        · exact mass_nonneg (by norm_num) _
        · exact mass_mono hb hb' _
        · rw [← pow_mul]
          exact pow_le_pow_right₀ (by norm_num) (Nat.le_add_left ..)
    _ = mass 10 (n + 2 * k) := by
      rw [mass, mass, div_mul_eq_mul_div, ← mul_pow]
      norm_num

theorem Follows.abs_le_ten (hp : 11 ≤ p.digits) (hr : |(r.toRat : ℝ)| ≤ 7) (h : Follows p.digits r.toRat n k s) :
    |(s.power.toRat : ℝ)| ≤ mass 10 (n + 2 * k) := by
  refine h.abs_le.trans (le_trans ?_ (mass_mul_le (abs_nonneg _) hr n k))
  rw [mul_comm]
  exact mul_le_mul_of_nonneg_left (growth_le hp k).1 (mass_nonneg (abs_nonneg _) _)

theorem Follows.near_ten (hp : 11 ≤ p.digits) (hr : |(r.toRat : ℝ)| ≤ 7) (h : Follows p.digits r.toRat n k s) :
    |(s.power.toRat : ℝ) - wave r.toRat n k| ≤ slack p.digits * mass 10 (n + 2 * k) := by
  have hη := slack_nonneg p.digits
  calc |(s.power.toRat : ℝ) - wave r.toRat n k|
      ≤ slack p.digits * (mass |(r.toRat : ℝ)| (n + 2 * k) * (k * (1 + slack p.digits) ^ k)) := by linarith [h.near]
    _ ≤ slack p.digits * (mass |(r.toRat : ℝ)| (n + 2 * k) * ((10 / 7) ^ 2) ^ k) := by
      have hmass := mass_nonneg (abs_nonneg (r.toRat : ℝ)) (n + 2 * k)
      gcongr
      exact (growth_le hp k).2
    _ ≤ slack p.digits * mass 10 (n + 2 * k) :=
      mul_le_mul_of_nonneg_left (mass_mul_le (abs_nonneg _) hr n k) hη

/-- While few roundings are made, the exact term is not far above the one that is found. -/
theorem Follows.mass_le (h : Follows p.digits r.toRat n k s) (hfew : slack p.digits * k ≤ 1 / 9) :
    mass |(r.toRat : ℝ)| (n + 2 * k) ≤ 2 * |(s.power.toRat : ℝ)| := by
  have hη := slack_nonneg p.digits
  have hmass := mass_nonneg (abs_nonneg (r.toRat : ℝ)) (n + 2 * k)
  have hgrowth : (1 + slack p.digits) ^ k ≤ 3 := by
    calc (1 + slack p.digits) ^ k ≤ Real.exp (slack p.digits) ^ k :=
          pow_le_pow_left₀ (by linarith) (by linarith [Real.add_one_le_exp (slack p.digits)]) k
      _ = Real.exp (slack p.digits * k) := by rw [← Real.exp_nat_mul, mul_comm]
      _ ≤ Real.exp 1 := Real.exp_le_exp.mpr (by linarith)
      _ ≤ 3 := by linarith [Real.exp_one_lt_d9]
  have hshare : slack p.digits * k * (1 + slack p.digits) ^ k ≤ 1 / 9 * 3 := by gcongr
  have hnear := h.near.trans (mul_le_mul_of_nonneg_right hshare hmass)
  have hless := abs_sub_abs_le_abs_sub (wave r.toRat n k) s.power.toRat
  rw [abs_wave, abs_sub_comm] at hless
  linarith

/-- So many terms are added at most before they are too small to count beside one. -/
def settling (p : ℕ) : ℕ := 5 * 10 ^ 6 + p / 12 + 2

theorem mass_late (hn : k > settling p.digits) : mass 10 (n + 2 * k) ≤ 1 / 10 ^ (p.digits + 9) := by
  unfold settling at hn
  obtain ⟨j, hj⟩ : ∃ j, n + 2 * k = 10 ^ 7 + j := ⟨n + 2 * k - 10 ^ 7, by omega⟩
  have hfar := mass_far le_rfl j
  rw [hj]
  refine hfar.trans ?_
  rw [one_div, one_div, ← inv_pow, ← pow_mul, inv_pow, ← div_eq_mul_inv, div_le_iff₀ (by positivity), ← div_eq_inv_mul,
    le_div_iff₀ (by positivity), ← pow_add]
  exact pow_le_pow_right₀ (by norm_num) (by omega)

/-! ### The error of the sum -/

/-- A bound of a partial sum with `k` terms: up to the settling it is hardly above one, but for what the next terms still
take away, and from there on it is at most a multiple of the last term. -/
noncomputable def partialSize (p : ℕ) (r : ℝ) (n k : ℕ) : ℝ :=
  (if k ≤ settling p then 21 / 20 else 0) + 1100 * mass |r| (n + 2 * (k + 1)) +
    (10 ^ (p + 4) : ℕ) * (if k ≤ settling p then 0 else mass (10 : ℕ) (n + 2 * k))

theorem sum_ite_le (N k : ℕ) {c : ℝ} (hc : 0 ≤ c) :
    ∑ i ∈ Finset.range k, (if i + 1 ≤ N then c else 0) ≤ c * N := by
  have hcount : ((Finset.range k).filter (· + 1 ≤ N)).card ≤ N := by
    have hsubset : (Finset.range k).filter (· + 1 ≤ N) ⊆ Finset.range N := fun i hi => by
      rw [Finset.mem_filter] at hi
      exact Finset.mem_range.mpr hi.2
    exact (Finset.card_le_card hsubset).trans_eq (Finset.card_range N)
  rw [← Finset.sum_filter, Finset.sum_const, nsmul_eq_mul, mul_comm]
  gcongr

theorem sum_late_le (p : Precision) (n k : ℕ) :
    ∑ i ∈ Finset.range k, (if i + 1 ≤ settling p.digits then 0 else mass 10 (n + 2 * (i + 1))) ≤
      1 / 10 ^ (p.digits + 9) * Real.exp 10 := by
  have hmass := mass_nonneg (b := 10) (by norm_num)
  set N := settling p.digits with hN
  have hsubset : Finset.range k ⊆ Finset.range (N + k) := Finset.range_subset_range.mpr (Nat.le_add_left k N)
  calc ∑ i ∈ Finset.range k, (if i + 1 ≤ N then 0 else mass 10 (n + 2 * (i + 1)))
      ≤ ∑ i ∈ Finset.range (N + k), (if i + 1 ≤ N then 0 else mass 10 (n + 2 * (i + 1))) := by
        refine Finset.sum_le_sum_of_subset_of_nonneg hsubset fun i _ _ => ?_
        split
        · exact le_rfl
        · exact hmass _
    _ = ∑ j ∈ Finset.range k, mass 10 (n + 2 * (N + 1) + 2 * j) := by
      have hearly : ∑ i ∈ Finset.range N, (if i + 1 ≤ N then 0 else mass 10 (n + 2 * (i + 1))) = 0 :=
        Finset.sum_eq_zero fun i hi => if_pos (Finset.mem_range.mp hi)
      rw [Finset.sum_range_add, hearly, zero_add]
      refine Finset.sum_congr rfl fun j _ => ?_
      rw [if_neg (by omega), Nat.add_right_comm, Nat.mul_add 2 (N + 1), ← Nat.add_assoc]
    _ ≤ mass 10 (n + 2 * (N + 1)) * Real.exp 10 := sum_mass_tail_le (by norm_num) _ k
    _ ≤ 1 / 10 ^ (p.digits + 9) * Real.exp 10 :=
      mul_le_mul_of_nonneg_right (mass_late (Nat.lt_succ_self N)) (Real.exp_pos 10).le

theorem settling_le {p : ℕ} (hp : p ≤ 43 * 10 ^ 8) : (settling p : ℝ) ≤ 36334 * 10 ^ 4 := by
  have hnat : settling p ≤ 36334 * 10 ^ 4 := by
    unfold settling
    omega
  exact_mod_cast hnat

/-- The sum of a run is never off by more than about four billion units of the place that it is rounded to. -/
theorem drift_le (hp : p.digits ≤ 43 * 10 ^ 8) {ρ : ℝ} (hρ : |ρ| ≤ 7) (n k : ℕ) :
    drift (2 * roundoff p.digits) (fun k => slack p.digits * mass 10 (n + 2 * k)) (partialSize p.digits ρ n) k ≤
      4 * 10 ^ 9 / 10 ^ p.digits := by
  have hten : (0 : ℝ) < 10 ^ p.digits := by positivity
  have hshift : ∀ (b : ℝ) (m : ℕ), 0 ≤ b → ∑ i ∈ Finset.range k, mass b (n + 2 * (i + m)) ≤ Real.exp b := by
    intro b m hb
    have hsum := sum_mass_le hb (n + 2 * m) k
    refine (Finset.sum_congr rfl fun i _ => ?_).trans_le hsum
    rw [Nat.mul_add, Nat.add_comm (2 * i), Nat.add_assoc]
  have herror := hshift 10 1 (by norm_num)
  have htail := (hshift |ρ| 2 (abs_nonneg ρ)).trans (Real.exp_le_exp.mpr hρ)
  have hcount := sum_ite_le (settling p.digits) k (c := 21 / 20) (by norm_num)
  have hlate := sum_late_le p n k
  have hN := settling_le hp
  have hlate' : 10 ^ (p.digits + 4) *
      ∑ i ∈ Finset.range k, (if i + 1 ≤ settling p.digits then 0 else mass 10 (n + 2 * (i + 1))) ≤ 1 := by
    calc 10 ^ (p.digits + 4) *
        ∑ i ∈ Finset.range k, (if i + 1 ≤ settling p.digits then 0 else mass 10 (n + 2 * (i + 1)))
        ≤ 10 ^ (p.digits + 4) * (1 / 10 ^ (p.digits + 9) * Real.exp 10) := by gcongr
      _ = Real.exp 10 / 10 ^ 5 := by
        rw [pow_add, pow_add]
        field_simp
      _ ≤ 1 := by
        rw [div_le_one (by norm_num)]
        linarith [exp_ten_le]
  have hsize : ∑ i ∈ Finset.range k, partialSize p.digits ρ n (i + 1) ≤ 39 * 10 ^ 7 := by
    simp only [partialSize, Nat.cast_pow, Nat.cast_ofNat, Finset.sum_add_distrib, ← Finset.mul_sum]
    linarith [exp_seven_le]
  have htotal : drift (2 * roundoff p.digits) (fun k => slack p.digits * mass 10 (n + 2 * k)) (partialSize p.digits ρ n) k =
      roundoff p.digits * (6 * ∑ i ∈ Finset.range k, mass 10 (n + 2 * (i + 1)) +
        2 * ∑ i ∈ Finset.range k, partialSize p.digits ρ n (i + 1)) := by
    simp only [drift, slack, Finset.sum_add_distrib, ← Finset.mul_sum]
    ring
  rw [htotal, roundoff, div_mul_eq_mul_div]
  exact div_le_div_of_nonneg_right (by linarith [exp_ten_le]) hten.le

/-- What is summed: a series with the terms of a wave, which begins with the number `first` and has the sum `limit`. -/
structure WaveSum (p : Precision) (r first : Decimal) (n : ℕ) (limit : ℝ) : Prop where
  digits_ge : 11 ≤ p.digits
  digits_le : p.digits ≤ 43 * 10 ^ 8
  small : |(r.toRat : ℝ)| ≤ 7
  first_eq : (first.toRat : ℝ) = wave r.toRat n 0
  hasSum : HasSum (wave r.toRat n) limit
  limit_le : |limit| ≤ 1

theorem WaveSum.off_le (hw : WaveSum p r first n limit) : (4 * 10 ^ 9 / 10 ^ p.digits : ℝ) ≤ 1 / 25 := by
  have hpower : (10 : ℝ) ^ 11 ≤ 10 ^ p.digits := pow_le_pow_right₀ (by norm_num) hw.digits_ge
  rw [div_le_div_iff₀ (by positivity) (by norm_num)]
  linarith

/-- A partial sum of a run, before the next term is rounded into it. -/
theorem Follows.size (hw : WaveSum p r first n limit) {term : Decimal}
    (hterm : Follows p.digits r.toRat n (k + 1) ⟨term, s.index + 2⟩) (hmore : negligible term sum p = false)
    (hsum : |(sum.toRat : ℝ) - ∑ i ∈ Finset.range (k + 1), wave r.toRat n i| ≤ 4 * 10 ^ 9 / 10 ^ p.digits) :
    |(sum.toRat + term.toRat : ℝ)| ≤ partialSize p.digits r.toRat n (k + 1) := by
  have hmass := mass_nonneg (abs_nonneg (r.toRat : ℝ)) (n + 2 * (k + 1 + 1))
  have hsmall := hterm.abs_le_ten hw.digits_ge hw.small
  rw [partialSize, Nat.cast_pow, Nat.cast_ofNat]
  by_cases hearly : k + 1 ≤ settling p.digits
  · rw [if_pos hearly, if_pos hearly]
    have hrest := abs_sub_sum_wave_le hw.hasSum (k + 1 + 1)
    rw [Finset.sum_range_succ, abs_sub_comm] at hrest
    have hnear := (hterm.near_ten hw.digits_ge hw.small).trans (mul_le_mul (slack_le hw.digits_ge)
      ((mass_le_exp (by norm_num) _).trans exp_ten_le) (mass_nonneg (by norm_num) _) (by norm_num))
    have hdigits := hw.off_le
    have hseven : mass |(r.toRat : ℝ)| (n + 2 * (k + 1 + 1)) * Real.exp |(r.toRat : ℝ)| ≤
        mass |(r.toRat : ℝ)| (n + 2 * (k + 1 + 1)) * 1100 :=
      mul_le_mul_of_nonneg_left ((Real.exp_le_exp.mpr hw.small).trans exp_seven_le) hmass
    have hsplit : (sum.toRat + term.toRat : ℝ) = (sum.toRat - ∑ i ∈ Finset.range (k + 1), wave r.toRat n i) +
        (term.toRat - wave r.toRat n (k + 1)) +
        (∑ i ∈ Finset.range (k + 1), wave r.toRat n i + wave r.toRat n (k + 1) - limit) + limit := by ring
    rw [hsplit]
    refine (abs_add_le _ _).trans ?_
    linarith [hw.limit_le, abs_add_three (sum.toRat - ∑ i ∈ Finset.range (k + 1), wave r.toRat n i : ℝ)
      (term.toRat - wave r.toRat n (k + 1))
      (∑ i ∈ Finset.range (k + 1), wave r.toRat n i + wave r.toRat n (k + 1) - limit)]
  · rw [if_neg hearly, if_neg hearly]
    have hless : |(sum.toRat : ℝ)| ≤ |(term.toRat : ℝ)| * 10 ^ (p.digits + 3) := by
      exact_mod_cast (abs_le_of_not_negligible hmore).2
    have hone : (1 : ℝ) ≤ 10 ^ (p.digits + 3) := one_le_pow₀ (by norm_num)
    calc |(sum.toRat + term.toRat : ℝ)| ≤ |(sum.toRat : ℝ)| + |(term.toRat : ℝ)| := abs_add_le _ _
      _ ≤ 10 ^ (p.digits + 4) * |(term.toRat : ℝ)| := by
        rw [pow_succ _ (p.digits + 3)]
        linarith [mul_le_mul_of_nonneg_left hone (abs_nonneg (term.toRat : ℝ)), abs_nonneg (term.toRat : ℝ)]
      _ ≤ 10 ^ (p.digits + 4) * mass 10 (n + 2 * (k + 1)) := by gcongr
      _ ≤ 0 + 1100 * mass |(r.toRat : ℝ)| (n + 2 * (k + 1 + 1)) + 10 ^ (p.digits + 4) * mass 10 (n + 2 * (k + 1)) := by
        linarith

/-- The state behind a next term that is found. -/
theorem Follows.of_next (hp : 11 ≤ p.digits) (h : Follows p.digits r.toRat n k s) {term : Decimal} {s' : Position}
    (hnext : factorialNext p (r.mul r p) true s = some (term, s')) :
    s' = ⟨term, s.index + 2⟩ ∧ Representable term.toRat ∧ Follows p.digits r.toRat n (k + 1) ⟨term, s.index + 2⟩ := by
  obtain ⟨next, hvalue, heq⟩ := factorialNext_eq p (r.mul r p) s
  rw [heq] at hnext
  split at hnext
  · rename_i hrange
    rw [Option.some.injEq, Prod.mk.injEq] at hnext
    obtain ⟨rfl, rfl⟩ := hnext
    exact ⟨rfl, hrange, h.next hp hvalue⟩
  · cases hnext

/-- The partial sums of a run. -/
theorem Gets.near (hw : WaveSum p r first n limit)
    (h : Gets p (factorialNext p (r.mul r p) true) ⟨first, n⟩ first k s sum) :
    |(sum.toRat : ℝ) - ∑ i ∈ Finset.range (k + 1), wave r.toRat n i| ≤ 4 * 10 ^ 9 / 10 ^ p.digits := by
  refine (h.abs_sum_sub_le (fun k => slack p.digits * mass 10 (n + 2 * k))
    (partialSize p.digits r.toRat n) hw.first_eq ?_ ?_).trans (drift_le hw.digits_le hw.small n k)
  · intro k s sum term s' hgets hnext
    obtain ⟨-, -, hterm⟩ := (hgets.follows hw.digits_ge hw.first_eq).of_next hw.digits_ge hnext
    exact hterm.near_ten hw.digits_ge hw.small
  · intro k s sum term s' hgets hnext hmore hsum
    obtain ⟨-, -, hterm⟩ := (hgets.follows hw.digits_ge hw.first_eq).of_next hw.digits_ge hnext
    exact hterm.size hw hmore (hsum.trans (drift_le hw.digits_le hw.small n k))

/-- A run does not get farther than its terms stay in the exponent range. -/
theorem Gets.lt (hw : WaveSum p r first n limit)
    (h : Gets p (factorialNext p (r.mul r p) true) ⟨first, n⟩ first k s sum) : k < 10 ^ 16 := by
  cases h with
  | start => decide
  | @add k s _ sum term hgets hnext hmore =>
    obtain ⟨-, hrange, hterm⟩ := (hgets.follows hw.digits_ge hw.first_eq).of_next hw.digits_ge hnext
    obtain ⟨hne, -⟩ := abs_le_of_not_negligible hmore
    have hlow : (10 : ℝ) ^ (-maxExponent) ≤ |(term.toRat : ℝ)| := by
      have hrat := (Rat.cast_le (K := ℝ)).mpr ((representable_iff hne).mp hrange).1
      push_cast at hrat
      exact hrat
    by_contra! hfar
    obtain ⟨j, hj⟩ : ∃ j, n + 2 * (k + 1) = 10 ^ 7 + j := ⟨n + 2 * (k + 1) - 10 ^ 7, by omega⟩
    have hhigh := hlow.trans (hterm.abs_le_ten hw.digits_ge hw.small)
    rw [hj] at hhigh
    have hpower := hhigh.trans (mass_far le_rfl j)
    have hexponent : (10 : ℝ) ^ 5 * (1 / 10 ^ 6) ^ j = 10 ^ (5 - 6 * j : ℤ) := by
      rw [zpow_sub₀ (by norm_num), one_div, inv_pow, ← pow_mul, ← div_eq_mul_inv]
      norm_cast
    rw [hexponent, zpow_le_zpow_iff_right₀ (by norm_num)] at hpower
    unfold maxExponent at hpower
    omega

/-- Where a run ends the next term, found or not, is too small to count. -/
theorem Gets.abs_nextValue_le (hw : WaveSum p r first n limit)
    (h : Gets p (factorialNext p (r.mul r p) true) ⟨first, n⟩ first k s sum)
    (hend : ∀ term s', factorialNext p (r.mul r p) true s = some (term, s') → negligible term sum p = true)
    {next : Decimal} (hvalue : next.toRat = nextValue p (r.mul r p).toRat s)
    (hnext : factorialNext p (r.mul r p) true s = if Representable next.toRat then some (next, ⟨next, s.index + 2⟩) else none) :
    |(next.toRat : ℝ)| ≤ 12 / 10 ^ p.digits := by
  have hten : (0 : ℝ) < 10 ^ p.digits := by positivity
  have hsmall := ((h.follows hw.digits_ge hw.first_eq).next hw.digits_ge hvalue).abs_le_ten hw.digits_ge hw.small
  have hbound : |next.toRat| < 10 ^ (maxExponent + 1) := by
    have hpower : (10 : ℝ) ^ (5 : ℤ) ≤ 10 ^ (maxExponent + 1) := by
      rw [zpow_le_zpow_iff_right₀ (by norm_num)]
      decide
    have hless := hsmall.trans ((mass_le_exp (by norm_num) _).trans exp_ten_le)
    rw [← Rat.cast_lt (K := ℝ)]
    push_cast
    norm_num at hpower
    linarith
  rw [le_div_iff₀ hten]
  rcases abs_lt_of_end (fun hrange => hend _ _ (by rw [hnext, if_pos hrange])) hbound with hless | hlow
  · have hless' : |(next.toRat : ℝ)| * 10 ^ (p.digits + 2) ≤ |(sum.toRat : ℝ)| := by exact_mod_cast hless
    have hsum := h.near hw
    have hpartial := (abs_sum_wave_le r.toRat n (k + 1)).trans ((Real.exp_le_exp.mpr hw.small).trans exp_seven_le)
    have hdigits := hw.off_le
    have htriangle := abs_sub_abs_le_abs_sub (sum.toRat : ℝ) (∑ i ∈ Finset.range (k + 1), wave r.toRat n i)
    rw [pow_add] at hless'
    linarith
  · have hfew := hw.digits_le
    have hleast := (mul_le_mul_of_nonneg_right hlow.le (by positivity)).trans (least_mul_le (n := p.digits) (by omega))
    have hleast' := (Rat.cast_le (K := ℝ)).mpr hleast
    push_cast at hleast'
    linarith

/-- What a run leaves out at its end. -/
theorem Gets.abs_rest_le (hw : WaveSum p r first n limit)
    (h : Gets p (factorialNext p (r.mul r p) true) ⟨first, n⟩ first k s sum)
    (hend : ∀ term s', factorialNext p (r.mul r p) true s = some (term, s') → negligible term sum p = true) :
    |limit - ∑ i ∈ Finset.range (k + 1), wave r.toRat n i| ≤ 3 * 10 ^ 4 / 10 ^ p.digits := by
  have hten : (0 : ℝ) < 10 ^ p.digits := by positivity
  obtain ⟨next, hvalue, hnext⟩ := factorialNext_eq p (r.mul r p) s
  have hsmall := h.abs_nextValue_le hw hend hvalue hnext
  have hfollows := (h.follows hw.digits_ge hw.first_eq).next hw.digits_ge hvalue
  have hmass := mass_nonneg (abs_nonneg (r.toRat : ℝ)) (n + 2 * (k + 1))
  have hmass_le : mass |(r.toRat : ℝ)| (n + 2 * (k + 1)) ≤ 24 / 10 ^ p.digits := by
    rcases le_or_gt (k + 1) (settling p.digits) with hearly | hlate
    · have hfew : slack p.digits * (k + 1 : ℕ) ≤ 1 / 9 := by
        have hcount : ((k + 1 : ℕ) : ℝ) ≤ settling p.digits := by exact_mod_cast hearly
        calc slack p.digits * (k + 1 : ℕ) ≤ 30 / 10 ^ 11 * (36334 * 10 ^ 4) :=
              mul_le_mul (slack_le hw.digits_ge) (hcount.trans (settling_le hw.digits_le)) (by positivity) (by norm_num)
          _ ≤ 1 / 9 := by norm_num
      refine (hfollows.mass_le hfew).trans ?_
      calc 2 * |(next.toRat : ℝ)| ≤ 2 * (12 / 10 ^ p.digits) := by gcongr
        _ = 24 / 10 ^ p.digits := by ring
    · refine (mass_mono (abs_nonneg _) (hw.small.trans (by norm_num)) _).trans ((mass_late hlate).trans ?_)
      rw [div_le_div_iff₀ (by positivity) hten, pow_add]
      linarith
  calc |limit - ∑ i ∈ Finset.range (k + 1), wave r.toRat n i|
      ≤ mass |(r.toRat : ℝ)| (n + 2 * (k + 1)) * Real.exp |(r.toRat : ℝ)| := abs_sub_sum_wave_le hw.hasSum (k + 1)
    _ ≤ 24 / 10 ^ p.digits * 1100 :=
      mul_le_mul hmass_le ((Real.exp_le_exp.mpr hw.small).trans exp_seven_le) (Real.exp_pos _).le (by positivity)
    _ ≤ 3 * 10 ^ 4 / 10 ^ p.digits := by
      rw [div_mul_eq_mul_div]
      exact div_le_div_of_nonneg_right (by norm_num) hten.le

/-- The sum of an alternating series with factorials is found, and it is off by at most about four billion units of the
place that it is rounded to. -/
theorem exists_ending_near (hw : WaveSum p r first n limit) :
    ∃ ending, run p (factorialNext p (r.mul r p) true) (steps r) ⟨first, n⟩ first = some ending ∧
      |(ending.sum.toRat : ℝ) - limit| ≤ 41 * 10 ^ 8 / 10 ^ p.digits := by
  have hsteps : 10 ^ 16 ≤ steps r := Nat.le_add_left ..
  have hstart : Gets p (factorialNext p (r.mul r p) true) ⟨first, n⟩ first 0 ⟨first, n⟩ first := .start
  obtain ⟨ending, hrun, k, s, hgets, hend⟩ := hstart.run (steps r) fun j s sum hj => by
    have hless := hj.lt hw
    rw [Nat.zero_add]
    exact hless.trans_le hsteps
  refine ⟨ending, hrun, ?_⟩
  have hsum := hgets.near hw
  have hrest := hgets.abs_rest_le hw hend
  have htriangle := abs_sub_le (ending.sum.toRat : ℝ) (∑ i ∈ Finset.range (k + 1), wave r.toRat n i) limit
  rw [abs_sub_comm limit] at hrest
  calc |(ending.sum.toRat : ℝ) - limit| ≤ 4 * 10 ^ 9 / 10 ^ p.digits + 3 * 10 ^ 4 / 10 ^ p.digits := by linarith
    _ ≤ 41 * 10 ^ 8 / 10 ^ p.digits := by
      rw [← add_div]
      gcongr
      norm_num

end
end Series
end Calculator.Decimal
