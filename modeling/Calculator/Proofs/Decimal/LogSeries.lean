import Calculator.Proofs.Decimal.Summation
import Mathlib.Analysis.SpecialFunctions.Log.Deriv
/-!
The sum `z + z³ / 3 + z⁵ / 5 + …` for a small positive argument. Each term that is added is close to the exact one, up
to a number of roundings that grows with its index; the sum ends after about a term for every four digits, and what is
left out is less than the error of as many roundings.
-/
namespace Calculator.Decimal

/-! ### Few roundings -/

theorem linear_le_pow {p : ℕ} (hp : 18 ≤ p) : (4 * p + 100) * 5 * 10 ^ 15 ≤ 10 ^ p := by
  obtain ⟨k, rfl⟩ := Nat.exists_eq_add_of_le hp
  have hpower : k < 10 ^ k := Nat.lt_pow_self (by decide)
  rw [pow_add 10 18 k]
  generalize 10 ^ k = power at hpower
  omega

/-- Roundings in a number that is proportional to the digits have little effect. -/
theorem mul_roundoff_le {p n : ℕ} (hp : 18 ≤ p) (hn : n ≤ 4 * p + 100) : n * roundoff p ≤ 1 / 10 ^ 15 := by
  have hle : (n : ℝ) * 5 * 10 ^ 15 ≤ 10 ^ p := by
    exact_mod_cast (Nat.mul_le_mul_right _ (Nat.mul_le_mul_right 5 hn)).trans (linear_le_pow hp)
  rw [roundoff, ← mul_div_assoc, div_le_div_iff₀ (by positivity) (by positivity), one_mul]
  exact hle

theorem mul_roundoff_le_half {p n : ℕ} (hp : 18 ≤ p) (hn : n ≤ 4 * p + 100) : n * roundoff p ≤ 1 / 2 :=
  (mul_roundoff_le hp hn).trans (by norm_num)

namespace Series

variable {p : Precision}

/-! ### The terms -/

/-- The sum of the first `n` terms. -/
noncomputable def oddSum (z : ℝ) (n : ℕ) : ℝ := ∑ i ∈ Finset.range n, z ^ (2 * i + 1) / (2 * i + 1)

theorem oddSum_succ (z : ℝ) (n : ℕ) : oddSum z (n + 1) = oddSum z n + z ^ (2 * n + 1) / (2 * n + 1) :=
  Finset.sum_range_succ ..

theorem oddSum_nonneg {z : ℝ} (hz : 0 ≤ z) (n : ℕ) : 0 ≤ oddSum z n :=
  Finset.sum_nonneg fun _ _ => by positivity

theorem le_oddSum {z : ℝ} (hz : 0 ≤ z) (n : ℕ) : z ≤ oddSum z (n + 1) := by
  induction n with
  | zero => simp [oddSum]
  | succ n ih =>
    rw [oddSum_succ]
    exact ih.trans (le_add_of_nonneg_right (by positivity))

/-- The argument is positive, small, and not less than `10 ^ -places`, and with the precision these are not so many
places that a term could leave the exponent range. -/
structure Moderate (p : Precision) (places : ℕ) (z : ℝ) : Prop where
  pos : 0 < z
  le : z ≤ 1 / 100
  ge : 10 ^ (-places : ℤ) ≤ z
  digits_ge : 18 ≤ p.digits
  digits_le : p.digits ≤ 10 ^ 14
  places_le : places ≤ 10 ^ 14

/-- What holds when the terms up to index `2 j + 1` are summed. -/
structure Reached (p : Precision) (places : ℕ) (z : ℝ) (j : ℕ) (s : Position) (sum : Decimal) : Prop where
  index : s.index = 2 * j + 1
  power : Close p.digits (8 * j + 3) s.power.toRat (z ^ (2 * j + 1))
  total : Close p.digits (8 * j + 5) sum.toRat (oddSum z (j + 1))
  fits : Fits p.digits sum.toRat
  few : 4 * j ≤ p.digits + 3
  great : 10 ^ (-(places + p.digits + 4) : ℤ) ≤ z ^ (2 * j + 1)

section
variable {places j : ℕ} {z : ℝ} {s : Position} {sum square term : Decimal}

theorem Moderate.pow_le (hz : Moderate p places z) (j : ℕ) : z ^ (2 * j + 1) ≤ z * (1 / 10 ^ (4 * j)) := by
  have hsquare : z ^ 2 ≤ 1 / 10 ^ 4 := by
    calc z ^ 2 ≤ (1 / 100) ^ 2 := pow_le_pow_left₀ hz.pos.le hz.le 2
      _ = 1 / 10 ^ 4 := by norm_num
  have hpower : (z ^ 2) ^ j ≤ (1 / 10 ^ 4) ^ j := pow_le_pow_left₀ (by positivity) hsquare j
  calc z ^ (2 * j + 1) = z * (z ^ 2) ^ j := by rw [pow_succ', pow_mul]
    _ ≤ z * (1 / 10 ^ 4) ^ j := mul_le_mul_of_nonneg_left hpower hz.pos.le
    _ = z * (1 / 10 ^ (4 * j)) := by rw [div_pow, one_pow, ← pow_mul]

theorem pow_next (z : ℝ) (j : ℕ) : z ^ (2 * (j + 1) + 1) = z ^ (2 * j + 1) * z ^ 2 := by
  ring

/-- The exact term behind those that are summed is in range. -/
theorem Reached.term_bounds (hz : Moderate p places z) (h : Reached p places z j s sum) :
    2 * 10 ^ (-(3 * places + p.digits + 20) : ℤ) ≤ z ^ (2 * (j + 1) + 1) / (2 * (j + 1) + 1) ∧
      2 * (z ^ (2 * (j + 1) + 1) / (2 * (j + 1) + 1)) ≤ 10 ^ (0 : ℤ) := by
  have hzpos := hz.pos
  constructor
  · have hwhole : (2 * (j + 1) + 1 : ℝ) ≤ 10 ^ (15 : ℤ) := by
      have hbound : 2 * (j + 1) + 1 ≤ 10 ^ 15 := by
        have hdigits := hz.digits_le
        have hfew := h.few
        omega
      exact_mod_cast hbound
    calc (2 : ℝ) * 10 ^ (-(3 * places + p.digits + 20) : ℤ)
        ≤ 10 * 10 ^ (-(3 * places + p.digits + 20) : ℤ) := by gcongr; norm_num
      _ = 10 ^ (-(places + p.digits + 4) : ℤ) * (10 ^ (-places : ℤ)) ^ 2 / 10 ^ (15 : ℤ) := by
        rw [← zpow_one_add₀ (by norm_num), ← zpow_natCast, ← zpow_mul, ← zpow_add₀ (by norm_num),
          ← zpow_sub₀ (by norm_num)]
        congr 1
        push_cast
        ring
      _ ≤ z ^ (2 * j + 1) * z ^ 2 / (2 * (j + 1) + 1) := by
        refine div_le_div₀ (by positivity) ?_ (by positivity) hwhole
        exact mul_le_mul h.great (pow_le_pow_left₀ (by positivity) hz.ge 2) (by positivity) (by positivity)
      _ = z ^ (2 * (j + 1) + 1) / (2 * (j + 1) + 1) := by rw [← pow_next]
  · have hpow : (1 : ℝ) / 10 ^ (4 * (j + 1)) ≤ 1 := (div_le_one (by positivity)).mpr (one_le_pow₀ (by norm_num))
    have hle := mul_le_mul_of_nonneg_left hpow hzpos.le
    have hterm : z ^ (2 * (j + 1) + 1) / (2 * (j + 1) + 1) ≤ z ^ (2 * (j + 1) + 1) :=
      div_le_self (by positivity) (by linarith [(Nat.cast_nonneg j : (0 : ℝ) ≤ j)])
    rw [zpow_zero]
    linarith [hz.pow_le (j + 1), hz.le]

/-- The next term is close to the exact one. -/
theorem Reached.next (hz : Moderate p places z) (hsquare : Close p.digits 7 square.toRat (z ^ 2))
    (h : Reached p places z j s sum) :
    ∃ term power, oddPowerNext p square false s = some (term, ⟨power, 2 * (j + 1) + 1⟩) ∧
      Close p.digits (8 * (j + 1) + 3) power.toRat (z ^ (2 * (j + 1) + 1)) ∧
      Close p.digits (8 * (j + 1) + 4) term.toRat (z ^ (2 * (j + 1) + 1) / (2 * (j + 1) + 1)) ∧
      Fits p.digits term.toRat := by
  have hzpos := hz.pos
  have hpower : Close p.digits (8 * (j + 1) + 3) (s.power.mul square p).toRat (z ^ (2 * (j + 1) + 1)) := by
    have hproduct := close_mul (p := p) (by positivity) (by positivity) h.power hsquare
    rwa [← pow_next] at hproduct
  have hindex : Close p.digits 0 (ofInt (s.index + 2 : ℕ)).toRat (2 * (j + 1) + 1) := by
    have hvalue : (((ofInt (s.index + 2 : ℕ)).toRat : ℚ) : ℝ) = 2 * (j + 1) + 1 := by
      rw [toRat_ofInt, h.index]
      push_cast
      ring
    rw [hvalue]
    exact Close.refl _ _
  obtain ⟨hlow, hhigh⟩ := h.term_bounds hz
  have hfew : ((8 * (j + 1) + 3 + 0 : ℕ) : ℝ) * roundoff p.digits ≤ 1 / 2 :=
    mul_roundoff_le_half hz.digits_ge (by have hfew := h.few; omega)
  have hrange : -maxExponent ≤ -(3 * places + p.digits + 20) := by
    have hdigits := hz.digits_le
    have hplaces := hz.places_le
    unfold maxExponent
    omega
  obtain ⟨term, hterm, hvalue, hclose⟩ := exists_div_close (by positivity) (by positivity) hpower hindex hfew hlow hhigh
    hrange (by decide)
  refine ⟨term, s.power.mul square p, ?_, hpower, hclose, ?_⟩
  · rw [oddPowerNext, negIf, if_neg Bool.false_ne_true, hterm, h.index]
    rfl
  · rw [hvalue]
    exact fits_rounded p.digits_pos _

/-- The sum is at least half of the argument. -/
theorem Reached.le_sum (hz : Moderate p places z) (h : Reached p places z j s sum) :
    z ≤ 2 * sum.toRat ∧ (sum.toRat : ℝ) ≤ 2 * oddSum z (j + 1) ∧ 0 < sum.toRat := by
  have hp := p.digits_pos
  have hexact := le_oddSum hz.pos.le j
  have hpos := h.total.pos hp (hz.pos.trans_le hexact)
  have hfew : ((8 * j + 5 : ℕ) : ℝ) * roundoff p.digits ≤ 1 / 2 :=
    mul_roundoff_le_half hz.digits_ge (by have hfew := h.few; omega)
  have hlow := h.total.symm.le_two_mul hp (hz.pos.le.trans hexact) hfew
  exact ⟨hexact.trans hlow, h.total.le_two_mul hp hpos.le hfew, by exact_mod_cast hpos⟩

/-- A term that is added is in the range of the sum. -/
theorem Reached.add (hz : Moderate p places z) (h : Reached p places z j s sum) {power : Decimal}
    (hpower : Close p.digits (8 * (j + 1) + 3) power.toRat (z ^ (2 * (j + 1) + 1)))
    (hterm : Close p.digits (8 * (j + 1) + 4) term.toRat (z ^ (2 * (j + 1) + 1) / (2 * (j + 1) + 1)))
    (hfits : Fits p.digits term.toRat) (hmore : negligible term sum p = false) :
    Reached p places z (j + 1) ⟨power, 2 * (j + 1) + 1⟩ (sum.add term p) := by
  have hp := p.digits_pos
  have hzpos := hz.pos
  obtain ⟨hsum, -, hsumpos⟩ := h.le_sum hz
  have htermpos := hterm.pos hp (by positivity)
  have hfew : ((8 * (j + 1) + 4 : ℕ) : ℝ) * roundoff p.digits ≤ 1 / 2 :=
    mul_roundoff_le_half hz.digits_ge (by have hfew := h.few; omega)
  -- The term is not far below the argument, and the powers of the argument fall by four digits each.
  have hle : (sum.toRat : ℝ) ≤ term.toRat * 10 ^ (p.digits + 3) := by
    have htermpos' : 0 < term.toRat := by exact_mod_cast htermpos
    have hle := (abs_le_of_not_negligible hmore).2
    rw [abs_of_pos htermpos', abs_of_pos hsumpos] at hle
    exact_mod_cast hle
  have hthird : z ^ (2 * (j + 1) + 1) / (2 * (j + 1) + 1) ≤ z ^ (2 * (j + 1) + 1) / 3 := by
    gcongr
    linarith [(Nat.cast_nonneg j : (0 : ℝ) ≤ j)]
  have hpow : z ≤ 4 / 3 * z ^ (2 * (j + 1) + 1) * 10 ^ (p.digits + 3) := by
    have htwice := mul_le_mul_of_nonneg_right (hterm.le_two_mul hp htermpos.le hfew)
      (by positivity : (0 : ℝ) ≤ 10 ^ (p.digits + 3))
    have hthird' := mul_le_mul_of_nonneg_right hthird (by positivity : (0 : ℝ) ≤ 10 ^ (p.digits + 3))
    linarith
  refine ⟨rfl, hpower, ?_, ?_, ?_, ?_⟩
  · rw [oddSum_succ]
    push_cast
    refine (close_add (n := 8 * j + 12) (oddSum_nonneg hzpos.le _) (by positivity) h.fits hfits ?_ hterm)
    exact h.total.mono hp (by exact_mod_cast hsumpos.le) (oddSum_nonneg hzpos.le _) (by omega)
  · have hvalue : (sum.add term p).toRat = rounded p.digits (sum.toRat + term.toRat) :=
      toRat_add (h.fits.isolated hp) (hfits.isolated hp)
    rw [hvalue]
    exact fits_rounded hp _
  · have hdecay : (10 : ℝ) ^ (4 * (j + 1)) < 10 ^ (p.digits + 4) := by
      have hsmall := mul_le_mul_of_nonneg_right (hz.pow_le (j + 1)) (by positivity : (0 : ℝ) ≤ 10 ^ (p.digits + 3))
      have hfactor : z * 1 ≤ z * (4 / 3 * (10 ^ (p.digits + 3) / 10 ^ (4 * (j + 1)))) := by
        calc z * 1 ≤ 4 / 3 * z ^ (2 * (j + 1) + 1) * 10 ^ (p.digits + 3) := by linarith
          _ ≤ 4 / 3 * (z * (1 / 10 ^ (4 * (j + 1))) * 10 ^ (p.digits + 3)) := by linarith
          _ = z * (4 / 3 * (10 ^ (p.digits + 3) / 10 ^ (4 * (j + 1)))) := by ring
      have hone := le_of_mul_le_mul_left hfactor hzpos
      rw [mul_div_assoc', le_div_iff₀ (by positivity), one_mul] at hone
      have hsucc : (10 : ℝ) ^ (p.digits + 4) = 10 ^ (p.digits + 3) * 10 := pow_succ ..
      have hpos : (0 : ℝ) < 10 ^ (p.digits + 3) := by positivity
      linarith
    have hexponent := (pow_lt_pow_iff_right₀ (by norm_num : (1 : ℝ) < 10)).mp hdecay
    omega
  · have hsplit : (10 : ℝ) ^ (-(places + p.digits + 4) : ℤ) * (10 * 10 ^ (p.digits + 3)) = 10 ^ (-places : ℤ) := by
      rw [← pow_succ', ← zpow_natCast, ← zpow_add₀ (by norm_num)]
      congr 1
      push_cast
      ring
    have hscale : (0 : ℝ) < 10 ^ (p.digits + 3) := by positivity
    refine le_of_mul_le_mul_right ?_ (by positivity : (0 : ℝ) < 10 * 10 ^ (p.digits + 3))
    rw [hsplit]
    have hpos : 0 ≤ z ^ (2 * (j + 1) + 1) * 10 ^ (p.digits + 3) := by positivity
    linarith [hz.ge]

/-- Where the sum ends it is close to the exact one of the whole series. -/
theorem Reached.close_log (hz : Moderate p places z) (h : Reached p places z j s sum)
    (hterm : Close p.digits (8 * (j + 1) + 4) term.toRat (z ^ (2 * (j + 1) + 1) / (2 * (j + 1) + 1)))
    (hless : negligible term sum p = true) :
    Close p.digits (10 * j + 8) sum.toRat (1 / 2 * Real.log ((1 + z) / (1 - z))) := by
  have hp := p.digits_pos
  have hzpos := hz.pos
  have hzle := hz.le
  obtain ⟨-, hsum, hsumpos⟩ := h.le_sum hz
  have hexact : 0 < z ^ (2 * (j + 1) + 1) / (2 * (j + 1) + 1) := by positivity
  have htermpos := hterm.pos hp hexact
  have hfew : ((8 * (j + 1) + 4 : ℕ) : ℝ) * roundoff p.digits ≤ 1 / 2 :=
    mul_roundoff_le_half hz.digits_ge (by have hfew := h.few; omega)
  have hhalf := hterm.symm.le_two_mul hp hexact.le hfew
  have hsmall : (term.toRat : ℝ) * 10 ^ (p.digits + 2) ≤ sum.toRat := by
    have hle := abs_mul_le_of_negligible hless
    rw [abs_of_pos (by exact_mod_cast htermpos : 0 < term.toRat), abs_of_pos hsumpos] at hle
    exact_mod_cast hle
  -- The rest of the series, from the term on that is left out.
  have hbelow := Real.sum_range_le_log_div hzpos.le (by linarith) (j + 1)
  have habove := Real.log_div_le_sum_range_add hzpos.le (by linarith) (j + 1)
  rw [← oddSum] at hbelow habove
  have hrest : z ^ (2 * (j + 1) + 1) / (1 - z ^ 2) ≤ (2 * j + 3 : ℕ) * roundoff p.digits * oddSum z (j + 1) := by
    have hsquare : (1 : ℝ) / 2 ≤ 1 - z ^ 2 := by nlinarith
    have hpower : z ^ (2 * (j + 1) + 1) = (2 * (j + 1) + 1) * (z ^ (2 * (j + 1) + 1) / (2 * (j + 1) + 1)) :=
      (mul_div_cancel₀ _ (by positivity)).symm
    have hscaled : z ^ (2 * (j + 1) + 1) / (2 * (j + 1) + 1) * 10 ^ p.digits ≤ oddSum z (j + 1) / 25 := by
      have hscale := mul_le_mul_of_nonneg_right hhalf (by positivity : (0 : ℝ) ≤ 10 ^ p.digits)
      rw [pow_add] at hsmall
      linarith
    rw [div_le_iff₀ (by linarith), roundoff]
    calc z ^ (2 * (j + 1) + 1)
        = (2 * (j + 1) + 1) * (z ^ (2 * (j + 1) + 1) / (2 * (j + 1) + 1) * 10 ^ p.digits) / 10 ^ p.digits := by
          field_simp
      _ ≤ (2 * (j + 1) + 1) * (oddSum z (j + 1) / 25) / 10 ^ p.digits := by gcongr
      _ ≤ (2 * (j + 1) + 1) * (oddSum z (j + 1) * 5 * (1 / 2)) / 10 ^ p.digits := by
          gcongr
          linarith [oddSum_nonneg hzpos.le (j + 1)]
      _ ≤ (2 * (j + 1) + 1) * (oddSum z (j + 1) * 5 * (1 - z ^ 2)) / 10 ^ p.digits := by
          gcongr
          linarith [oddSum_nonneg hzpos.le (j + 1)]
      _ = (2 * j + 3 : ℕ) * (5 / 10 ^ p.digits) * oddSum z (j + 1) * (1 - z ^ 2) := by
          push_cast
          ring
  have htail : Close p.digits (2 * j + 3) (1 / 2 * Real.log ((1 + z) / (1 - z))) (oddSum z (j + 1)) := by
    refine close_of_le hp (oddSum_nonneg hzpos.le _) hbelow ?_
    linarith
  have hcount : 10 * j + 8 = 8 * j + 5 + (2 * j + 3) := by ring
  rw [hcount]
  exact h.total.trans hp htail.symm

/-! ### The whole sum -/

/-- From where it is reached the sum ends before the steps do. -/
theorem Reached.run (hz : Moderate p places z) (hsquare : Close p.digits 7 square.toRat (z ^ 2)) {steps : ℕ}
    (hsteps : p.digits + 8 ≤ 4 * (j + steps)) (h : Reached p places z j s sum) :
    ∃ sum', run p (oddPowerNext p square false) steps s sum = some (.settled sum') ∧ 0 < sum'.toRat ∧
      Close p.digits (3 * p.digits + 16) sum'.toRat (1 / 2 * Real.log ((1 + z) / (1 - z))) := by
  induction steps generalizing j s sum with
  | zero =>
    have hfew := h.few
    omega
  | succ steps ih =>
    obtain ⟨term, power, hnext, hpower, hterm, hfits⟩ := h.next hz hsquare
    rw [Series.run, hnext]
    dsimp only
    cases hend : negligible term sum p with
    | true =>
      have hpos := (h.le_sum hz).2.2
      refine ⟨sum, rfl, hpos, (h.close_log hz hterm hend).mono p.digits_pos (by exact_mod_cast hpos.le) ?_ ?_⟩
      · have hsum := (oddSum_nonneg hz.pos.le (j + 1)).trans
          (Real.sum_range_le_log_div hz.pos.le (by linarith [hz.le]) (j + 1))
        exact hsum
      · have hfew := h.few
        omega
    | false =>
      rw [if_neg Bool.false_ne_true]
      exact ih (by omega) (h.add hz hpower hterm hfits hend)

theorem run_of_zero {x : Decimal} (hx : x.toRat = 0) (square : Decimal) {steps : ℕ} (hsteps : steps ≠ 0) :
    run p (oddPowerNext p square false) steps ⟨x, 1⟩ x = some (.settled x) := by
  obtain ⟨steps, rfl⟩ := Nat.exists_eq_succ_of_ne_zero hsteps
  have hpower : (x.mul square p).toRat = 0 := by rw [toRat_mul, hx, zero_mul, rounded_zero]
  have hdivisor : (ofInt (1 + 2 : ℕ)).toRat ≠ 0 := by
    rw [toRat_ofInt]
    norm_num
  have hnext : oddPowerNext p square false ⟨x, 1⟩ = some (zero, ⟨x.mul square p, 3⟩) := by
    rw [oddPowerNext, negIf, if_neg Bool.false_ne_true, div?_of_zero_left hpower hdivisor]
    rfl
  rw [run, hnext]
  rfl

/-- The sum of an argument that is close to `z` ends, and is close to the inverse hyperbolic tangent of `z`. -/
theorem oddPowers?_close {x : Decimal} (hx : Close p.digits 3 x.toRat z) (hfits : Fits p.digits x.toRat)
    (hz : z = 0 ∨ Moderate p places z) :
    ∃ sum, oddPowers? p false x = some (.settled sum) ∧ 0 ≤ sum.toRat ∧
      Close p.digits (3 * p.digits + 16) sum.toRat (1 / 2 * Real.log ((1 + z) / (1 - z))) := by
  have hsteps : 10 ^ 16 ≤ steps x := Nat.le_add_left ..
  rcases hz with rfl | hz
  · have hzero : x.toRat = 0 := by
      have hle := hx.2
      have hge := hx.nonneg p.digits_pos le_rfl
      have hkeep := pow_pos (keep_pos p.digits_pos) 3
      exact_mod_cast le_antisymm (nonpos_of_mul_nonpos_left hle hkeep) hge
    refine ⟨x, run_of_zero hzero _ (by omega), hzero.ge, ?_⟩
    rw [hzero]
    simp [Close]
  · have hsquare : Close p.digits 7 (x.mul x p).toRat (z ^ 2) := by
      rw [pow_two]
      exact close_mul hz.pos.le hz.pos.le hx hx
    have hstart : Reached p places z 0 ⟨x, 1⟩ x := by
      refine ⟨rfl, by simpa using hx, ?_, hfits, by omega, ?_⟩
      · have hsum : oddSum z (0 + 1) = z := by simp [oddSum]
        rw [hsum]
        exact hx.mono p.digits_pos (hx.nonneg p.digits_pos hz.pos.le) hz.pos.le (by omega)
      · calc (10 : ℝ) ^ (-(places + p.digits + 4) : ℤ)
            ≤ 10 ^ (-places : ℤ) := zpow_le_zpow_right₀ (by norm_num) (by omega)
          _ ≤ z ^ (2 * 0 + 1) := by simpa using hz.ge
    obtain ⟨sum, hrun, hpos, hclose⟩ := hstart.run hz hsquare (show p.digits + 8 ≤ 4 * (0 + steps x) by have := hz.digits_le; omega)
    exact ⟨sum, hrun, hpos.le, hclose⟩

end

end Series
end Calculator.Decimal
