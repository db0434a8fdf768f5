import Calculator.Proofs.Decimal.Closeness
/-!
The sum of the arctangent, `y - y³ / 3 + y⁵ / 5 - …`, for an argument up to an eighth. Each term and each sum is rounded.
The sum that is found is hardly less than the argument, and it is not greater: what is added after a subtraction is so
much less than what was subtracted that no rounding makes up for the difference.
-/
namespace Calculator.Decimal

namespace Series

/-- What the sum of the arctangent of a positive `y` keeps. Each power is at most a fiftieth of the one before; after a
subtraction there is room for the next term. -/
structure Sinking (p : ℕ) (y power : ℚ) (index : ℕ) (sum : ℚ) : Prop where
  fits : Fits p sum
  power_le : |power| ≤ y
  near : 70 * |sum - y| ≤ y - |power|
  le : sum ≤ y
  turn : 0 < power ∨ power < 0 ∧ ∀ t, 0 ≤ t → 20 * (index * t) ≤ -power → rounded p (sum + t) ≤ y

section
variable {p : ℕ} {y power square sum : ℚ} {index : ℕ}

theorem Sinking.start (hy : 0 < y) (hfits : Fits p y) : Sinking p y y 1 y where
  fits := hfits
  power_le := (abs_of_pos hy).le
  near := by rw [sub_self, abs_zero, abs_of_pos hy, sub_self, mul_zero]
  le := le_rfl
  turn := .inl hy

/-- The size of the next power and of the next term. -/
theorem next_bounds (hp : 8 ≤ p) (hsquare : 0 < square) (hsmall : square ≤ 1 / 64) {a next term : ℚ} (ha : 0 < a)
    (hnext : next = rounded p (a * square)) (hterm : term = rounded p (next / (index + 2 : ℕ))) :
    0 < next ∧ 50 * next ≤ a ∧ 0 < term ∧ 999999 / 1000000 * next ≤ (index + 2) * term ∧
      (index + 2) * term ≤ 1000001 / 1000000 * next := by
  have hp' : 0 < p := by omega
  have hdivisor : (0 : ℚ) < (index + 2 : ℕ) := by positivity
  have hproduct : 0 < a * square := mul_pos ha hsquare
  obtain ⟨-, hhigh⟩ := rounded_bounds hp hproduct.le
  have hpos : 0 < next := hnext ▸ rounded_pos hp' hproduct
  obtain ⟨htlow, hthigh⟩ := rounded_bounds hp (div_pos hpos hdivisor).le
  rw [← hnext] at hhigh
  rw [← hterm, ← mul_div_assoc, le_div_iff₀ hdivisor] at hthigh
  rw [← hterm, ← mul_div_assoc, div_le_iff₀ hdivisor] at htlow
  push_cast at hthigh htlow
  refine ⟨hpos, ?_, hterm ▸ rounded_pos hp' (div_pos hpos hdivisor), by linarith, by linarith⟩
  linarith [mul_le_mul_of_nonneg_left hsmall ha.le]

theorem Sinking.near_add (hp : 0 < p) (h : Sinking p y power index sum) {next t : ℚ} (hshrink : 50 * next ≤ |power|)
    (ht : 3 * |t| ≤ 1000001 / 1000000 * next) : 70 * |rounded p (sum + t) - y| ≤ y - next := by
  have hmove := h.fits.abs_rounded_add_sub_le hp t
  have htriangle := abs_sub_le (rounded p (sum + t)) sum y
  have hbefore := h.near
  have hnonneg := abs_nonneg t
  linarith

theorem three_mul_le {index : ℕ} (hindex : 0 < index) {a b : ℚ} (ha : 0 < a) (h : (index + 2) * a ≤ b) : 3 * a ≤ b := by
  have hindex' : (1 : ℚ) ≤ index := by exact_mod_cast hindex
  linarith [mul_le_mul_of_nonneg_right hindex' ha.le]

/-- A term is subtracted. -/
theorem Sinking.sub (hp : 8 ≤ p) (hindex : 0 < index) (hsquare : 0 < square) (hsmall : square ≤ 1 / 64)
    (h : Sinking p y power index sum) (hpower : 0 < power) {next term : ℚ} (hnext : next = rounded p (power * square))
    (hterm : term = rounded p (next / (index + 2 : ℕ))) :
    Sinking p y (-next) (index + 2) (rounded p (sum - term)) := by
  have hp' : 0 < p := by omega
  obtain ⟨hpos, hshrink, htpos, htlow, hthigh⟩ := next_bounds hp hsquare hsmall hpower hnext hterm
  have hthird := three_mul_le hindex htpos hthigh
  have hpower_le := h.power_le
  have hnear := h.near_add (t := -term) hp' (hshrink.trans (le_abs_self power)) (by rwa [abs_neg, abs_of_pos htpos])
  rw [← sub_eq_add_neg] at hnear
  have hle : rounded p (sum - term) ≤ sum := h.fits.rounded_le hp' (by linarith)
  rw [abs_of_pos hpower] at hpower_le
  refine ⟨fits_rounded hp' _, ?_, ?_, hle.trans h.le, .inr ⟨by linarith, fun t ht hroom => ?_⟩⟩
  · rw [abs_neg, abs_of_pos hpos]
    linarith
  · rwa [abs_neg, abs_of_pos hpos]
  · have hbefore := h.near
    have hlow := neg_le_of_abs_le (le_refl |sum - y|)
    rw [abs_of_pos hpower] at hbefore
    have hless : 2 * t ≤ term := by
      have hscale : (0 : ℚ) < index + 2 := by positivity
      refine le_of_mul_le_mul_left ?_ hscale
      push_cast at hroom
      linarith
    exact (h.fits.rounded_sub_add_le hp' (by linarith) ht hless).trans h.le

/-- A term is added. -/
theorem Sinking.add (hp : 8 ≤ p) (hindex : 0 < index) (hsquare : 0 < square) (hsmall : square ≤ 1 / 64)
    (h : Sinking p y power index sum) (hpower : power < 0) {next term : ℚ} (hnext : next = rounded p (-power * square))
    (hterm : term = rounded p (next / (index + 2 : ℕ))) :
    Sinking p y next (index + 2) (rounded p (sum + term)) := by
  have hp' : 0 < p := by omega
  obtain ⟨hpos, hshrink, htpos, htlow, hthigh⟩ := next_bounds hp hsquare hsmall (neg_pos.mpr hpower) hnext hterm
  have hthird := three_mul_le hindex htpos hthigh
  have hpower_le := h.power_le
  have hnear := h.near_add (t := term) hp' (hshrink.trans (neg_le_abs power)) (by rwa [abs_of_pos htpos])
  rw [abs_of_neg hpower] at hpower_le
  obtain ⟨-, hroom⟩ := h.turn.resolve_left hpower.not_gt
  refine ⟨fits_rounded hp' _, ?_, ?_, hroom term htpos.le ?_, .inl hpos⟩
  · rw [abs_of_pos hpos]
    linarith
  · rwa [abs_of_pos hpos]
  · linarith

end

section
variable {y : ℚ} {p : Precision} {square sum : Decimal} {s : Position}

/-- The next term of the arctangent's series, where there is one. -/
theorem oddPowerNext_eq_some {term : Decimal} {s' : Position} (h : oddPowerNext p square true s = some (term, s')) :
    s'.index = s.index + 2 ∧ s'.power.toRat = -rounded p.digits (s.power.toRat * square.toRat) ∧
      term.toRat = rounded p.digits (s'.power.toRat / (s.index + 2 : ℕ)) := by
  unfold oddPowerNext at h
  obtain ⟨c, hc, h⟩ := Option.bind_eq_some_iff.mp h
  obtain ⟨rfl, rfl⟩ := Prod.mk.injEq .. ▸ Option.some.inj h
  have hdivisor : (ofInt (s.index + 2 : ℕ)).toRat = (s.index + 2 : ℕ) := by
    rw [toRat_ofInt, Int.cast_natCast]
  obtain ⟨d, hd, hdiv⟩ := div?_eq ((s.power.mul square p).negIf true) (hdivisor.trans_ne (by positivity)) p
  rw [hdiv] at hc
  refine ⟨rfl, ?_, ?_⟩
  · rw [toRat_negIf, if_pos rfl, toRat_mul]
  · rw [← eq_of_checked hc, hd, hdivisor]

/-- The step of the run that adds a term, for a `y` of either sign. -/
theorem Sinking.next (hp : 8 ≤ p.digits) (hsquare : 0 < square.toRat) (hsmall : square.toRat ≤ 1 / 64) {σ : ℚ}
    (hσ : σ = 1 ∨ σ = -1) (hindex : 0 < s.index)
    (h : Sinking p.digits y (σ * s.power.toRat) s.index (σ * sum.toRat)) {term : Decimal} {s' : Position}
    (hnext : oddPowerNext p square true s = some (term, s')) :
    Sinking p.digits y (σ * s'.power.toRat) s'.index (σ * (sum.add term p).toRat) := by
  have hp' := p.digits_pos
  obtain ⟨hindex', hpower, hterm⟩ := oddPowerNext_eq_some hnext
  have hself : ∀ q : ℚ, σ * (σ * q) = q := by
    intro q
    rcases hσ with rfl | rfl <;> ring
  have hfits : Fits p.digits sum.toRat := by
    rw [← hself sum.toRat]
    rcases hσ with rfl | rfl
    · simpa using h.fits
    · simpa using h.fits.neg
  have hadd : (sum.add term p).toRat = rounded p.digits (sum.toRat + term.toRat) :=
    toRat_add (hfits.isolated hp') ((hterm ▸ fits_rounded hp' _ : Fits p.digits term.toRat).isolated hp')
  set next := rounded p.digits (s.power.toRat * square.toRat)
  have hterm' : σ * term.toRat = rounded p.digits (σ * -next / (s.index + 2 : ℕ)) := by
    rw [hterm, hpower, ← rounded_mul_sign hσ, mul_div_assoc]
  rw [hadd, ← rounded_mul_sign hσ, mul_add, hindex', hterm', hpower]
  rcases h.turn with hsign | ⟨hsign, -⟩
  · have hproduct : σ * next = rounded p.digits (σ * s.power.toRat * square.toRat) := by
      rw [mul_assoc, rounded_mul_sign hσ]
    have hstep := h.sub hp hindex hsquare hsmall hsign hproduct rfl
    rwa [mul_neg, neg_div, rounded_neg, ← sub_eq_add_neg]
  · have hproduct : σ * -next = rounded p.digits (-(σ * s.power.toRat) * square.toRat) := by
      rw [neg_mul, rounded_neg, mul_assoc, rounded_mul_sign hσ, mul_neg]
    exact h.add hp hindex hsquare hsmall hsign hproduct rfl

theorem Sinking.run (hp : 8 ≤ p.digits) (hsquare : 0 < square.toRat) (hsmall : square.toRat ≤ 1 / 64) {σ : ℚ}
    (hσ : σ = 1 ∨ σ = -1) {steps : ℕ} {ending : Ending} (hindex : 0 < s.index)
    (h : Sinking p.digits y (σ * s.power.toRat) s.index (σ * sum.toRat))
    (hrun : Series.run p (oddPowerNext p square true) steps s sum = some ending) :
    ∃ power index, Sinking p.digits y power index (σ * ending.sum.toRat) := by
  induction steps generalizing s sum with
  | zero => cases hrun
  | succ steps ih =>
    rw [Series.run] at hrun
    split at hrun
    · obtain rfl := Option.some.inj hrun
      exact ⟨_, _, h⟩
    · rename_i term s' hnext
      split at hrun
      · obtain rfl := Option.some.inj hrun
        exact ⟨_, _, h⟩
      · refine ih ?_ (h.next hp hsquare hsmall hσ hindex hnext) hrun
        rw [(oddPowerNext_eq_some hnext).1]
        omega

/-! ### Arguments of either sign -/

/-- The terms of a negative argument are those of its absolute value with the other sign. -/
theorem exists_abs_eq_mul (q : ℚ) : ∃ σ : ℚ, (σ = 1 ∨ σ = -1) ∧ |q| = σ * q := by
  rcases abs_choice q with h | h
  · exact ⟨1, .inl rfl, by rw [h, one_mul]⟩
  · exact ⟨-1, .inr rfl, by rw [h, neg_one_mul]⟩

theorem Sinking.start_of_sign {σ q : ℚ} (habs : |q| = σ * q) (hq : q ≠ 0) (hfits : Fits p.digits q) :
    Sinking p.digits |q| (σ * q) 1 (σ * q) := by
  rw [← habs]
  exact Sinking.start (abs_pos.mpr hq) hfits.abs

/-- The square of an argument up to an eighth. -/
theorem square_bounds {x : Decimal} (hp : 8 ≤ p.digits) (hx : x.toRat ≠ 0) (hsmall : |x.toRat| ≤ 1 / 8) :
    0 < (x.mul x p).toRat ∧ (x.mul x p).toRat ≤ 1 / 64 := by
  have hp' := p.digits_pos
  have hfits : Fits p.digits (1 / 64) := Fits.mono (p := 8) ⟨15625, -6, by norm_num, by norm_num⟩ hp
  rw [toRat_mul]
  refine ⟨rounded_pos hp' (mul_self_pos.mpr hx), hfits.rounded_le hp' ?_⟩
  rw [← abs_mul_abs_self]
  linarith [mul_le_mul hsmall hsmall (abs_nonneg x.toRat) (by norm_num)]

theorem Sinking.bounds {σ q r power : ℚ} {index : ℕ} (hσ : σ = 1 ∨ σ = -1) (habs : |q| = σ * q) (hq : q ≠ 0)
    (h : Sinking p.digits |q| power index (σ * r)) :
    SignType.sign r = SignType.sign q ∧ 69 * |q| ≤ 70 * |r| ∧ |r| ≤ |q| := by
  have hnear := h.near
  have hlow := neg_le_of_abs_le (le_refl |σ * r - (|q|)|)
  have hpower := abs_nonneg power
  have hposq := abs_pos.mpr hq
  have hpos : 0 < σ * r := by linarith
  have hle := h.le
  rcases hσ with rfl | rfl
  · rw [one_mul] at *
    rw [sign_pos hpos, sign_pos (habs ▸ hposq), abs_of_pos hpos]
    exact ⟨rfl, by linarith, hle⟩
  · rw [neg_one_mul] at *
    rw [sign_neg (neg_pos.mp hpos), sign_neg (neg_pos.mp (habs ▸ hposq)), abs_of_neg (neg_pos.mp hpos)]
    exact ⟨rfl, by linarith, hle⟩

/-- However the sum of the arctangent ends, it has the sign of its argument, and is not greater. -/
theorem arctanSum_bounds {x : Decimal} (hp : 8 ≤ p.digits) (hx : x.toRat ≠ 0) (hfits : Fits p.digits x.toRat)
    (hsmall : |x.toRat| ≤ 1 / 8) {sum : Decimal}
    (hsum : sum = ((oddPowers? p true x).map Ending.sum).getD x) :
    SignType.sign sum.toRat = SignType.sign x.toRat ∧ 69 * |x.toRat| ≤ 70 * |sum.toRat| ∧ |sum.toRat| ≤ |x.toRat| := by
  obtain ⟨σ, hσ, habs⟩ := exists_abs_eq_mul x.toRat
  obtain ⟨hsquare, hsquare_le⟩ := square_bounds hp hx hsmall
  have hstart := Sinking.start_of_sign habs hx hfits
  obtain ⟨power, index, hend⟩ : ∃ power index, Sinking p.digits |x.toRat| power index (σ * sum.toRat) := by
    rw [hsum]
    cases hrun : oddPowers? p true x with
    | none => exact ⟨_, _, hstart⟩
    | some ending => exact Sinking.run (s := ⟨x, 1⟩) hp hsquare hsquare_le hσ one_pos hstart hrun
  exact hend.bounds hσ habs hx

end
end Series
end Calculator.Decimal
