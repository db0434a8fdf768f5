import Calculator.Proofs.Decimal.Rounding
/-!
Rounding to significant digits, said without units: the nearest number with so many digits, and of two equally near ones
the one away from zero. Two numbers of one sign are rounded to the same number unless a tie lies between them, which is
a number half-way between two neighbours.
-/
namespace Calculator.Decimal

/-- The number with at most `p` digits that is nearest; of two equally near ones the one further from zero. -/
structure IsRounding (p : ℕ) (q r : ℚ) : Prop where
  fits : Fits p r
  nearest : ∀ s, Fits p s → |q - r| ≤ |q - s|
  away : ∀ s, Fits p s → |q - s| = |q - r| → |s| ≤ |r|

section
variable {p : ℕ} {q r : ℚ}

/-! ### To a whole number -/

/-- No whole number is nearer, and none that is as near is greater. -/
theorem nearest_le (x : ℚ) (m : ℤ) : |x - nearest x| ≤ |x - m| ∧ (|x - m| = |x - nearest x| → m ≤ nearest x) := by
  obtain ⟨hlow, hhigh⟩ := nearest_bounds x
  have hhalf : |x - nearest x| ≤ 1 / 2 := abs_le.mpr ⟨by linarith, by linarith⟩
  rcases lt_trichotomy m (nearest x) with hm | rfl | hm
  · have hm' : (m : ℚ) + 1 ≤ nearest x := by exact_mod_cast hm
    exact ⟨hhalf.trans (le_abs.mpr (.inl (by linarith))), fun _ => hm.le⟩
  · exact ⟨le_rfl, fun _ => le_rfl⟩
  · have hm' : (nearest x : ℚ) + 1 ≤ m := by exact_mod_cast hm
    have hfar : |x - nearest x| < |x - m| := hhalf.trans_lt (lt_abs.mpr (.inr (by linarith)))
    exact ⟨hfar.le, fun heq => absurd heq hfar.ne'⟩

/-- The same for multiples of a unit. -/
theorem nearest_mul_le {u : ℚ} (hu : 0 < u) (q : ℚ) (m : ℤ) : |q - nearest (q / u) * u| ≤ |q - m * u| ∧
    (|q - m * u| = |q - nearest (q / u) * u| → (m : ℚ) * u ≤ nearest (q / u) * u) := by
  have hscale : ∀ n : ℤ, |q - n * u| = |q / u - n| * u := by
    intro n
    rw [← abs_of_pos hu, ← abs_mul, abs_of_pos hu, sub_mul, div_mul_cancel₀ _ hu.ne']
  obtain ⟨hle, haway⟩ := nearest_le (q / u) m
  rw [hscale, hscale]
  refine ⟨mul_le_mul_of_nonneg_right hle hu.le, fun heq => ?_⟩
  exact mul_le_mul_of_nonneg_right (by exact_mod_cast haway (mul_right_cancel₀ hu.ne' heq)) hu.le

/-! ### To significant digits -/

/-- A number with `p` digits that is no multiple of a number's unit is further away than a multiple. -/
theorem Fits.exists_unit_near {s : ℚ} (hp : 0 < p) (hs : Fits p s) {k : ℤ} (hlow : 10 ^ k ≤ q)
    (hhigh : q < 10 ^ (k + 1)) : ∃ m : ℤ, |q - m * 10 ^ (k - p + 1)| ≤ |q - s| ∧
      (|q - m * 10 ^ (k - p + 1)| = |q - s| → s ≤ m * 10 ^ (k - p + 1)) := by
  have hlast : (10 : ℚ) ^ k = ((10 ^ (p - 1) : ℕ) : ℤ) * 10 ^ (k - p + 1) := by
    rw [Int.cast_natCast, Nat.cast_pow, Nat.cast_ofNat, ← unit_scale_pred hp]
  have hfirst : (10 : ℚ) ^ (k + 1) = ((10 ^ p : ℕ) : ℤ) * 10 ^ (k - p + 1) := by
    rw [Int.cast_natCast, Nat.cast_pow, Nat.cast_ofNat, ← unit_scale]
  rcases lt_or_ge s (10 ^ k) with hbelow | hbelow
  · refine ⟨(10 ^ (p - 1) : ℕ), ?_, fun _ => ?_⟩
    · rw [← hlast, abs_of_nonneg (by linarith), abs_of_nonneg (by linarith)]
      linarith
    · rw [← hlast]
      exact hbelow.le
  rcases lt_or_ge s (10 ^ (k + 1)) with habove | habove
  · obtain ⟨n, -, rfl⟩ := hs.exists_mul hbelow habove
    exact ⟨n, by rw [Int.cast_natCast], fun _ => by rw [Int.cast_natCast]⟩
  · refine ⟨(10 ^ p : ℕ), ?_, fun heq => ?_⟩
    · rw [← hfirst, abs_sub_comm, abs_sub_comm q, abs_of_nonneg (by linarith), abs_of_nonneg (by linarith)]
      linarith
    · rw [← hfirst, abs_sub_comm, abs_sub_comm q, abs_of_nonneg (by linarith), abs_of_nonneg (by linarith)] at heq
      rw [← hfirst]
      linarith

theorem fits_zero (p : ℕ) : Fits p 0 := ⟨0, 0, by rw [abs_zero]; positivity, by rw [Int.cast_zero, zero_mul]⟩

theorem isRounding_of_pos (hp : 0 < p) (hq : 0 < q) : IsRounding p q (rounded p q) := by
  obtain ⟨hlow, hhigh⟩ := log_bounds hq
  have hunit := ten_zpow_pos (Int.log 10 q - p + 1)
  have hvalue := rounded_eq (p := p) hlow hhigh
  have hnearest : ∀ s, Fits p s → |q - rounded p q| ≤ |q - s| := by
    intro s hs
    obtain ⟨m, hm, -⟩ := hs.exists_unit_near hp hlow hhigh
    rw [hvalue]
    exact (nearest_mul_le hunit q m).1.trans hm
  refine ⟨fits_rounded hp q, hnearest, fun s hs heq => ?_⟩
  have hnonneg : 0 ≤ s := by
    -- Negative numbers are further away than zero.
    by_contra! hneg
    have hzero := hnearest 0 (fits_zero p)
    rw [← heq, sub_zero, abs_of_pos hq, abs_of_pos (by linarith)] at hzero
    linarith
  obtain ⟨m, hm, hbelow⟩ := hs.exists_unit_near hp hlow hhigh
  obtain ⟨hle, haway⟩ := nearest_mul_le hunit q m
  rw [← hvalue] at hle haway
  have hsame := le_antisymm (hm.trans_eq heq) hle
  rw [abs_of_nonneg hnonneg, abs_of_pos (rounded_pos hp hq)]
  exact (hbelow (hsame.trans heq.symm)).trans (haway hsame)

theorem isRounding_zero (p : ℕ) : IsRounding p 0 0 where
  fits := fits_zero p
  nearest s _ := by
    rw [sub_zero, abs_zero]
    exact abs_nonneg _
  away s _ h := by
    rw [zero_sub, abs_neg, sub_zero] at h
    exact h.le

theorem IsRounding.neg (h : IsRounding p q r) : IsRounding p (-q) (-r) := by
  have hflip : ∀ s, |-q - s| = |q - -s| := fun s => by rw [← abs_neg, neg_sub', neg_neg]
  refine ⟨h.fits.neg, fun s hs => ?_, fun s hs heq => ?_⟩
  · rw [hflip, hflip, neg_neg]
    exact h.nearest _ hs.neg
  · rw [hflip, hflip, neg_neg] at heq
    rw [← abs_neg s, abs_neg r]
    exact h.away _ hs.neg heq

theorem isRounding_rounded (hp : 0 < p) (q : ℚ) : IsRounding p q (rounded p q) :=
  rounded_cases (isRounding_zero p) (fun _ _ h => h.neg) (fun _ hq => isRounding_of_pos hp hq) q

/-- Adding moves a number with `p` digits by twice the summand at most. -/
theorem Fits.abs_rounded_add_sub_le {a : ℚ} (hp : 0 < p) (ha : Fits p a) (t : ℚ) : |rounded p (a + t) - a| ≤ 2 * |t| := by
  have hnear := (isRounding_rounded hp (a + t)).nearest a ha
  rw [add_sub_cancel_left] at hnear
  have htriangle := abs_sub_le (rounded p (a + t)) (a + t) a
  rw [abs_sub_comm _ (a + t), add_sub_cancel_left] at htriangle
  linarith

theorem IsRounding.unique {r' : ℚ} (h : IsRounding p q r) (h' : IsRounding p q r') : r = r' := by
  have hdistance := le_antisymm (h.nearest r' h'.fits) (h'.nearest r h.fits)
  have habs := le_antisymm (h'.away r h.fits hdistance) (h.away r' h'.fits hdistance.symm)
  rcases abs_eq_abs.mp habs with heq | heq
  · exact heq
  · -- Opposite numbers are equally near to zero only, which is nearer to it than they are.
    rw [heq] at hdistance ⊢
    have hzero := h'.nearest 0 (fits_zero p)
    rcases abs_eq_abs.mp hdistance with hsame | hsame
    · linarith
    · have hq : q = 0 := by linarith
      rw [hq, zero_sub, abs_neg, sub_zero, abs_zero] at hzero
      rw [abs_nonpos_iff.mp hzero, neg_zero]

/-- There is exactly one such number. -/
theorem isRounding_iff (hp : 0 < p) : IsRounding p q r ↔ r = rounded p q := by
  constructor
  · exact fun h => h.unique (isRounding_rounded hp q)
  · rintro rfl
    exact isRounding_rounded hp q

/-! ### Ties -/

/-- A number half-way between two neighbours with `p` digits. -/
def IsTie (p : ℕ) (t : ℚ) : Prop := ∃ (n : ℕ) (e : ℤ), 10 ^ (p - 1) ≤ n ∧ n < 10 ^ p ∧ t = (n + 1 / 2) * 10 ^ e

/-- A tie lies between the absolute values of two numbers, or is the greater of them. -/
def Separated (p : ℕ) (q r : ℚ) : Prop := ∃ t, IsTie p t ∧ (|q| < t ∧ t ≤ |r| ∨ |r| < t ∧ t ≤ |q|)

/-- A number with `p` digits lies in the decade of its unit. -/
theorem decade_of_digits {n : ℕ} (hp : 0 < p) (hlow : 10 ^ (p - 1) ≤ n) (hhigh : n < 10 ^ p) (e : ℤ) :
    (10 : ℚ) ^ (e + p - 1) ≤ n * 10 ^ e ∧ (n + 1 : ℚ) * 10 ^ e ≤ 10 ^ (e + p - 1 + 1) := by
  have hplace : (e + p - 1 - p + 1 : ℤ) = e := by ring
  rw [unit_scale p, unit_scale_pred hp, hplace]
  constructor
  · exact mul_le_mul_of_nonneg_right (by exact_mod_cast hlow) (ten_zpow_pos e).le
  · exact mul_le_mul_of_nonneg_right (by exact_mod_cast hhigh) (ten_zpow_pos e).le

/-- A positive number with at most `p` digits, with zeros behind them up to `p`. -/
theorem Fits.exists_digits (h : Fits p q) (hp : 0 < p) (hq : 0 < q) :
    ∃ (n : ℕ) (e : ℤ), 10 ^ (p - 1) ≤ n ∧ n < 10 ^ p ∧ q = n * 10 ^ e := by
  obtain ⟨hlow, hhigh⟩ := log_bounds hq
  obtain ⟨n, hn, hvalue⟩ := h.exists_mul hlow hhigh
  refine ⟨n, _, ?_, hn, hvalue⟩
  rw [unit_scale_pred hp] at hlow
  exact_mod_cast le_of_mul_le_mul_right (hlow.trans_eq hvalue) (ten_zpow_pos _)

/-- Below a tie numbers are rounded to its lower neighbour at most, and from it on to its upper one at least. -/
theorem rounded_around_tie {n : ℕ} {e : ℤ} (hp : 0 < p) (hlow : 10 ^ (p - 1) ≤ n) (hhigh : n < 10 ^ p) :
    (q < (n + 1 / 2) * 10 ^ e → rounded p q ≤ n * 10 ^ e) ∧
      ((n + 1 / 2) * 10 ^ e ≤ q → (n + 1) * 10 ^ e ≤ rounded p q) := by
  obtain ⟨hbelow, habove⟩ := decade_of_digits hp hlow hhigh e
  have hunit := ten_zpow_pos e
  have hplace : (e + p - 1 - p + 1 : ℤ) = e := by ring
  have hfits : Fits p ((n : ℚ) * 10 ^ e) :=
    ⟨n, e, by rw [Nat.abs_cast]; exact_mod_cast hhigh, by rw [Int.cast_natCast]⟩
  constructor
  · intro hq
    rcases le_or_gt ((n : ℚ) * 10 ^ e) q with h | h
    · refine (rounded_of_near hp hfits hbelow (by linarith) ?_ ?_).le
      · rw [hplace]
        linarith
      · rw [hplace]
        linarith
    · exact (rounded_mono hp h.le).trans_eq (rounded_of_fits hfits)
  · intro hq
    have hnearest : nearest ((n + 1 / 2) * 10 ^ e / 10 ^ e) = n + 1 := by
      rw [mul_div_cancel_right₀ _ hunit.ne', nearest_eq_iff]
      push_cast
      constructor <;> linarith
    have htie := rounded_eq (p := p) (q := (n + 1 / 2) * 10 ^ e) (k := e + p - 1) (by linarith) (by linarith)
    rw [hplace, hnearest, Int.cast_add, Int.cast_natCast, Int.cast_one] at htie
    exact htie ▸ rounded_mono hp hq

/-- Positive numbers are rounded apart exactly if a tie lies between them. -/
theorem rounded_lt_iff (hp : 0 < p) (hq : 0 < q) :
    rounded p q < rounded p r ↔ ∃ t, IsTie p t ∧ q < t ∧ t ≤ r := by
  constructor
  · intro hlt
    -- The tie above the number that the lower one is rounded to.
    obtain ⟨n, e, hlow, hhigh, hvalue⟩ := (fits_rounded hp q).exists_digits hp (rounded_pos hp hq)
    have hunit := ten_zpow_pos e
    refine ⟨(n + 1 / 2) * 10 ^ e, ⟨n, e, hlow, hhigh, rfl⟩, ?_, ?_⟩
    · by_contra! hle
      have hup := (rounded_around_tie hp hlow hhigh).2 hle
      linarith
    · by_contra! hle
      have hdown := (rounded_around_tie hp hlow hhigh).1 hle
      linarith
  · rintro ⟨t, ⟨n, e, hlow, hhigh, rfl⟩, hbelow, habove⟩
    calc rounded p q
        ≤ n * 10 ^ e := (rounded_around_tie hp hlow hhigh).1 hbelow
      _ < (n + 1) * 10 ^ e := mul_lt_mul_of_pos_right (lt_add_one _) (ten_zpow_pos e)
      _ ≤ rounded p r := (rounded_around_tie hp hlow hhigh).2 habove

theorem Separated.neg (h : Separated p q r) : Separated p (-q) (-r) := by
  rwa [Separated, abs_neg, abs_neg]

/-- Numbers of one sign are rounded to the same number exactly if no tie lies between them. -/
theorem rounded_eq_iff (hp : 0 < p) (hsign : 0 < q ∧ 0 < r ∨ q < 0 ∧ r < 0) :
    rounded p q = rounded p r ↔ ¬Separated p q r := by
  have hpos : ∀ {x y : ℚ}, 0 < x → 0 < y → (rounded p x = rounded p y ↔ ¬Separated p x y) := by
    intro x y hx hy
    simp only [Separated, abs_of_pos hx, abs_of_pos hy, and_or_left, exists_or, ← rounded_lt_iff hp hx,
      ← rounded_lt_iff hp hy, not_or, not_lt]
    exact ⟨fun h => ⟨h.ge, h.le⟩, fun h => le_antisymm h.2 h.1⟩
  rcases hsign with ⟨hq, hr⟩ | ⟨hq, hr⟩
  · exact hpos hq hr
  · have hneg := hpos (neg_pos.mpr hq) (neg_pos.mpr hr)
    rw [rounded_neg, rounded_neg, neg_inj] at hneg
    refine hneg.trans (not_congr ⟨fun h => ?_, Separated.neg⟩)
    simpa using h.neg

end

end Calculator.Decimal
