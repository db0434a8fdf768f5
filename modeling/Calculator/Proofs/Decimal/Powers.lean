import Calculator.Proofs.Decimal.Closeness
/-!
Powers with a whole exponent. Repeated squaring rounds each product, and a product has the errors of both its factors, so
that the power is found up to as many roundings as the exponent says. The digits kept behind those of the result grow
with the digits of the exponent, and so all these roundings together stay far below the last digit of the result.
-/
namespace Calculator.Decimal

/-! ### Errors with a sign -/

/-- The numbers have one sign, and their magnitudes agree up to `n` roundings to `p` digits. -/
def SignedClose (p n : ℕ) (a b : ℝ) : Prop := SignType.sign a = SignType.sign b ∧ Close p n |a| |b|

section
variable {p n m : ℕ} {a b c d : ℝ}

theorem SignedClose.refl (p : ℕ) (a : ℝ) : SignedClose p 0 a a := ⟨rfl, Close.refl p |a|⟩

theorem SignedClose.trans (hp : 0 < p) (h : SignedClose p n a b) (h' : SignedClose p m b c) :
    SignedClose p (n + m) a c :=
  ⟨h.1.trans h'.1, h.2.trans hp h'.2⟩

theorem SignedClose.mono (hp : 0 < p) (h : SignedClose p n a b) (hn : n ≤ m) : SignedClose p m a b :=
  ⟨h.1, h.2.mono hp (abs_nonneg a) (abs_nonneg b) hn⟩

theorem SignedClose.ne_zero (h : SignedClose p n a b) (hb : b ≠ 0) : a ≠ 0 := by
  rw [← sign_ne_zero, h.1, sign_ne_zero]
  exact hb

theorem SignedClose.mul (hp : 0 < p) (h : SignedClose p n a b) (h' : SignedClose p m c d) :
    SignedClose p (n + m) (a * c) (b * d) := by
  constructor
  · rw [sign_mul, sign_mul, h.1, h'.1]
  · rw [abs_mul, abs_mul]
    exact h.2.mul hp (abs_nonneg b) (abs_nonneg d) h'.2

theorem SignedClose.neg (h : SignedClose p n a b) : SignedClose p n (-a) (-b) := by
  constructor
  · rw [Left.sign_neg, Left.sign_neg, h.1]
  · rw [abs_neg, abs_neg]
    exact h.2

theorem SignedClose.inv (hp : 0 < p) (hb : b ≠ 0) (h : SignedClose p n a b) : SignedClose p n a⁻¹ b⁻¹ := by
  constructor
  · rcases hb.lt_or_gt with hb | hb
    · have ha : a < 0 := sign_eq_neg_one_iff.mp (h.1.trans (sign_neg hb))
      rw [sign_neg (inv_lt_zero.mpr ha), sign_neg (inv_lt_zero.mpr hb)]
    · have ha : 0 < a := sign_eq_one_iff.mp (h.1.trans (sign_pos hb))
      rw [sign_pos (inv_pos.mpr ha), sign_pos (inv_pos.mpr hb)]
  · have hone := (Close.refl p 1).div hp zero_le_one (abs_pos.mpr hb) h.2
    rwa [zero_add, one_div, one_div, ← abs_inv, ← abs_inv] at hone

/-- The relative error of few roundings. -/
theorem SignedClose.abs_sub_le (hp : 0 < p) (h : SignedClose p n a b) (hn : n * roundoff p ≤ 1 / 2) :
    |a - b| ≤ 2 * (n * roundoff p) * |b| := by
  have hdistance : |a - b| = |(|a| - |b|)| := by
    rcases lt_trichotomy b 0 with hb | rfl | hb
    · have ha : a < 0 := sign_eq_neg_one_iff.mp (h.1.trans (sign_neg hb))
      rw [abs_of_neg ha, abs_of_neg hb, neg_sub_neg, abs_sub_comm]
    · have ha : a = 0 := sign_eq_zero_iff.mp (h.1.trans sign_zero)
      rw [ha, abs_zero]
    · have ha : 0 < a := sign_eq_one_iff.mp (h.1.trans (sign_pos hb))
      rw [abs_of_pos ha, abs_of_pos hb]
  rw [hdistance]
  exact h.2.abs_sub_le hp (abs_nonneg b) hn

theorem sign_ratCast (q : ℚ) : SignType.sign (q : ℝ) = SignType.sign q := by
  rcases lt_trichotomy q 0 with hq | rfl | hq
  · rw [sign_neg hq, sign_neg (by exact_mod_cast hq)]
  · rw [Rat.cast_zero, sign_zero, sign_zero]
  · rw [sign_pos hq, sign_pos (by exact_mod_cast hq)]

theorem signedClose_rounded (hp : 0 < p) (q : ℚ) : SignedClose p 1 (rounded p q : ℚ) q := by
  constructor
  · rw [sign_ratCast, sign_ratCast, sign_rounded hp]
  · have hclose := close_rounded hp (abs_nonneg q)
    rw [← abs_rounded hp] at hclose
    exact_mod_cast hclose

end

/-! ### Repeated squaring -/

section
variable {base acc c : Decimal} {p : Precision} {n m : ℕ} {x y : ℝ}

theorem signedClose_mul? (ha : SignedClose p.digits n acc.toRat x) (hb : SignedClose p.digits m base.toRat y)
    (h : acc.mul? base p = some c) : SignedClose p.digits (n + m + 1) c.toRat (x * y) := by
  obtain ⟨product, hproduct, hmul⟩ := mul?_eq acc base p
  have hround := signedClose_rounded p.digits_pos (acc.toRat * base.toRat)
  rw [hmul] at h
  rw [← hproduct, eq_of_checked h, Rat.cast_mul] at hround
  rw [add_comm (n + m)]
  exact hround.trans p.digits_pos (ha.mul p.digits_pos hb)

theorem signedClose_inverse (ha : SignedClose p.digits n acc.toRat x) (hx : x ≠ 0) (h : one.div? acc p = some c) :
    SignedClose p.digits (n + 1) c.toRat x⁻¹ := by
  have hacc : acc.toRat ≠ 0 := by exact_mod_cast ha.ne_zero hx
  obtain ⟨quotient, hquotient, hdiv⟩ := div?_eq one hacc p
  have hround := signedClose_rounded p.digits_pos (one.toRat / acc.toRat)
  rw [hdiv] at h
  rw [← hquotient, eq_of_checked h, toRat_one, one_div, Rat.cast_inv] at hround
  rw [add_comm n]
  exact hround.trans p.digits_pos (ha.inv p.digits_pos hx)

/-- Each factor of the power brings the errors of the base with it and adds one rounding. -/
theorem signedClose_powLoop {k : ℕ} (ha : SignedClose p.digits n acc.toRat x)
    (hb : SignedClose p.digits m base.toRat y) (h : powLoop p base acc k = some c) :
    SignedClose p.digits (n + k * (m + 1)) c.toRat (x * y ^ k) := by
  induction k using Nat.strong_induction_on generalizing base acc n m x y with
  | _ k ih =>
    rw [powLoop] at h
    split at h
    · rename_i hzero
      rw [← Option.some.inj h, hzero, Nat.zero_mul, Nat.add_zero, pow_zero, mul_one]
      exact ha
    rename_i hk
    -- What is left to do once the product so far has taken the factor of the lowest bit.
    have hrest : ∀ (acc' : Decimal) (n' : ℕ) (x' : ℝ), SignedClose p.digits n' acc'.toRat x' →
        (if k / 2 = 0 then some acc' else base.mul? base p >>= fun square => powLoop p square acc' (k / 2)) = some c →
        SignedClose p.digits (n' + k / 2 * (m + m + 1 + 1)) c.toRat (x' * (y * y) ^ (k / 2)) := by
      intro acc' n' x' ha' h
      split at h
      · rename_i hhalf
        rw [← Option.some.inj h, hhalf, Nat.zero_mul, Nat.add_zero, pow_zero, mul_one]
        exact ha'
      · obtain ⟨square, hsquare, h⟩ := Option.bind_eq_some_iff.mp h
        exact ih (k / 2) (by omega) ha' (signedClose_mul? hb hb hsquare) h
    by_cases hodd : k % 2 = 1
    · rw [if_pos hodd] at h
      obtain ⟨product, hproduct, h⟩ := Option.bind_eq_some_iff.mp h
      have hclose := hrest product _ _ (signedClose_mul? ha hb hproduct) h
      obtain ⟨j, rfl⟩ : ∃ j, k = 2 * j + 1 := ⟨k / 2, by omega⟩
      have hhalf : (2 * j + 1) / 2 = j := by omega
      have hcount : n + m + 1 + j * (m + m + 1 + 1) = n + (2 * j + 1) * (m + 1) := by ring
      have hpower : x * y * (y * y) ^ j = x * y ^ (2 * j + 1) := by ring
      rwa [hhalf, hcount, hpower] at hclose
    · rw [if_neg hodd] at h
      have hclose := hrest acc n x ha h
      obtain ⟨j, rfl⟩ : ∃ j, k = 2 * j := ⟨k / 2, by omega⟩
      have hhalf : 2 * j / 2 = j := by omega
      have hcount : n + j * (m + m + 1 + 1) = n + 2 * j * (m + 1) := by ring
      have hpower : x * (y * y) ^ j = x * y ^ (2 * j) := by ring
      rwa [hhalf, hcount, hpower] at hclose

end

/-! ### Accuracy -/

/-- As many roundings as the exponent says, and one more, stay far below the last digit. -/
theorem powers_roundoff_le (p n : ℕ) :
    (n + 1 : ℕ) * roundoff (p + (guardDigits + Digits.count n)) ≤ 1 / 2 / 10 ^ (p + 2) := by
  have hcount : ((n + 1 : ℕ) : ℝ) ≤ 10 ^ Digits.count n := by exact_mod_cast Digits.lt_pow_count n
  have hsplit : (10 : ℝ) ^ (p + (guardDigits + Digits.count n)) = 10 ^ (p + 2) * (10 ^ 8 * 10 ^ Digits.count n) := by
    rw [guardDigits]
    ring
  rw [roundoff, hsplit, mul_div_assoc', div_le_div_iff₀ (by positivity) (by positivity)]
  have hscaled := mul_le_mul_of_nonneg_left hcount (by positivity : (0 : ℝ) ≤ 10 ^ (p + 2))
  have hpos : (0 : ℝ) < 10 ^ (p + 2) * 10 ^ Digits.count n := by positivity
  linarith

/-- A power before it is rounded to the precision. -/
theorem exists_power {x r : Decimal} {n : ℤ} {p : Precision} (hn : n ≠ 0) (hx : x.toRat ≠ 0)
    (h : x.powInt? n p = some r) : ∃ s : Decimal, r = s.roundTo p ∧
      SignedClose (p.digits + (guardDigits + Digits.count n.natAbs)) (n.natAbs + 1) s.toRat ((x.toRat : ℝ) ^ n) := by
  have hx' : (x.toRat : ℝ) ≠ 0 := by exact_mod_cast hx
  rw [powInt?, if_neg hn, if_neg (mt isZero_iff.mp hx)] at h
  obtain ⟨power, hpower, h⟩ := Option.bind_eq_some_iff.mp h
  dsimp only at h
  set wp := p.guard (guardDigits + Digits.count n.natAbs) with hwp
  have hstart : SignedClose wp.digits 0 one.toRat (1 : ℝ) := by
    rw [toRat_one, Rat.cast_one]
    exact SignedClose.refl _ _
  have hclose := signedClose_powLoop hstart (SignedClose.refl wp.digits x.toRat) hpower
  rw [zero_add, zero_add, mul_one, one_mul] at hclose
  by_cases hneg : n < 0
  · rw [if_pos hneg] at h
    obtain ⟨s, hs, h⟩ := Option.bind_eq_some_iff.mp h
    refine ⟨s, (Option.some.inj h).symm, ?_⟩
    have hinverse := signedClose_inverse hclose (pow_ne_zero _ hx') hs
    have hpower : (x.toRat : ℝ) ^ n = ((x.toRat : ℝ) ^ n.natAbs)⁻¹ := by
      rw [← zpow_natCast, ← zpow_neg, Int.natCast_natAbs, abs_of_neg hneg, neg_neg]
    rw [hpower]
    exact hinverse
  · rw [if_neg hneg] at h
    refine ⟨power, (Option.some.inj h).symm, ?_⟩
    have hpower : (x.toRat : ℝ) ^ n = (x.toRat : ℝ) ^ n.natAbs := by
      rw [← zpow_natCast, Int.natAbs_of_nonneg (by omega)]
    rw [hpower]
    exact hclose.mono wp.digits_pos (Nat.le_succ _)

/-- A power with a whole exponent that is found has the sign of the exact one, differs from it by less than a unit of its
last digit, and is the exact one where that has no more digits than the precision. The digits of the products fit in 32
bits, guard digits included. -/
theorem powers_within_unit (x : Decimal) (n : ℤ) (p : Precision)
    (_ : p.digits + guardDigits + Digits.count n.natAbs < 2 ^ 31) {r : Decimal} (h : x.powInt? n p = some r) :
    SignType.sign r.toRat = SignType.sign (x.toRat ^ n) ∧ |r.toRat - x.toRat ^ n| < unit p.digits r.toRat ∧
      (Fits p.digits (x.toRat ^ n) → r.toRat = x.toRat ^ n) := by
  have hexact (heq : r.toRat = x.toRat ^ n) : SignType.sign r.toRat = SignType.sign (x.toRat ^ n) ∧
      |r.toRat - x.toRat ^ n| < unit p.digits r.toRat ∧ (Fits p.digits (x.toRat ^ n) → r.toRat = x.toRat ^ n) := by
    rw [← heq, sub_self, abs_zero]
    exact ⟨rfl, ten_zpow_pos _, fun _ => rfl⟩
  by_cases hn : n = 0
  · apply hexact
    rw [powInt?, if_pos hn] at h
    rw [← Option.some.inj h, hn, zpow_zero, toRat_one]
  by_cases hx : x.toRat = 0
  · apply hexact
    rw [powInt?, if_neg hn, if_pos (isZero_iff.mpr hx)] at h
    split at h
    · cases h
    · rw [← Option.some.inj h, hx, zero_zpow n hn, toRat_zero]
  obtain ⟨s, rfl, hclose⟩ := exists_power hn hx h
  have hp := p.digits_pos
  have hroundoff := powers_roundoff_le p.digits n.natAbs
  have hfew : 1 / 2 / (10 : ℝ) ^ (p.digits + 2) ≤ 1 / 2 :=
    div_le_self (by norm_num) (one_le_pow₀ (by norm_num))
  have herror : |(s.toRat : ℝ) - x.toRat ^ n| ≤ |(x.toRat ^ n : ℝ)| / 10 ^ (p.digits + 2) := by
    calc |(s.toRat : ℝ) - x.toRat ^ n|
        ≤ 2 * ((n.natAbs + 1 : ℕ) * roundoff (p.digits + (guardDigits + Digits.count n.natAbs))) * |(x.toRat ^ n : ℝ)| :=
          hclose.abs_sub_le (Nat.add_pos_left hp _) (hroundoff.trans hfew)
      _ ≤ 2 * (1 / 2 / 10 ^ (p.digits + 2)) * |(x.toRat ^ n : ℝ)| := by gcongr
      _ = |(x.toRat ^ n : ℝ)| / 10 ^ (p.digits + 2) := by ring
  rw [toRat_roundTo]
  refine ⟨?_, ?_, fun hfits => rounded_of_close hp hfits (by exact_mod_cast herror)⟩
  · rw [sign_rounded hp, ← sign_ratCast, hclose.1]
    exact_mod_cast sign_ratCast (x.toRat ^ n)
  · have hless : |(s.toRat : ℝ) - x.toRat ^ n| ≤ 2 / 5 / 10 ^ p.digits * |(x.toRat ^ n : ℝ)| + 0 := by
      calc |(s.toRat : ℝ) - x.toRat ^ n|
          ≤ |(x.toRat ^ n : ℝ)| / 10 ^ (p.digits + 2) := herror
        _ = 1 / 100 / 10 ^ p.digits * |(x.toRat ^ n : ℝ)| := by
          rw [pow_add]
          field_simp
          norm_num
        _ ≤ 2 / 5 / 10 ^ p.digits * |(x.toRat ^ n : ℝ)| + 0 := by
          rw [add_zero]
          gcongr <;> norm_num
    have hunit := abs_rounded_sub_lt_unit hp le_rfl hless
    rw [mul_zero, add_zero] at hunit
    exact_mod_cast hunit

/-- The least exponent of 64 bits takes 64 products and an inverse. -/
theorem powers_within_unit_least_word :
    15 + guardDigits + Digits.count (-9223372036854775808 : ℤ).natAbs < 2 ^ 31 ∧
      (ofParts (-10000000001) (-10)).powInt? (-9223372036854775808) ⟨15, by decide⟩ =
        some ⟨10123944595618, -400565971⟩ ∧
      SignType.sign (toRat ⟨10123944595618, -400565971⟩) =
        SignType.sign ((ofParts (-10000000001) (-10)).toRat ^ (-9223372036854775808 : ℤ)) ∧
      |toRat ⟨10123944595618, -400565971⟩ - (ofParts (-10000000001) (-10)).toRat ^ (-9223372036854775808 : ℤ)| <
        unit 15 (toRat ⟨10123944595618, -400565971⟩) := by
  have hpower : (ofParts (-10000000001) (-10)).powInt? (-9223372036854775808) ⟨15, by decide⟩ =
      some ⟨10123944595618, -400565971⟩ := by decide +kernel
  have hguarded : 15 + guardDigits + Digits.count (-9223372036854775808 : ℤ).natAbs < 2 ^ 31 := by decide +kernel
  obtain ⟨hsign, hunit, -⟩ := powers_within_unit _ _ _ hguarded hpower
  exact ⟨hguarded, hpower, hsign, hunit⟩

end Calculator.Decimal
