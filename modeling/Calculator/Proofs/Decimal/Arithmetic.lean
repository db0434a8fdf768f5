import Calculator.Decimal.Arithmetic
import Calculator.Proofs.Decimal.Rounding
import Mathlib.Tactic.LinearCombination
/-!
The values of sums, products, quotients and remainders: each is the exact result, rounded once. A sum needs that what
lies far below the last digit of an operand does not matter, which holds of operands that are rounded themselves.
-/
namespace Calculator.Decimal

/-! ### Order -/

/-- The places of the first digits order the values. -/
theorem lt_of_leading {a b : Decimal} (ha : a.mantissa ≠ 0) {n : ℕ} (h : b.leading + n < a.leading) :
    |b.toRat| * 10 ^ n < |a.toRat| := by
  have hapos : 0 < |a.toRat| := abs_pos.mpr (mt toRat_eq_zero_iff.mp ha)
  rcases eq_or_ne b.mantissa 0 with hb | hb
  · rwa [toRat_eq_zero_iff.mpr hb, abs_zero, zero_mul]
  have hhigh := (log_bounds (abs_pos.mpr (mt toRat_eq_zero_iff.mp hb))).2
  have hlow := (log_bounds hapos).1
  rw [log_toRat hb] at hhigh
  rw [log_toRat ha] at hlow
  calc |b.toRat| * 10 ^ n
      < 10 ^ (b.leading + 1) * 10 ^ n := mul_lt_mul_of_pos_right hhigh (by positivity)
    _ = 10 ^ (b.leading + 1 + n) := by rw [ten_zpow_add (b.leading + 1), zpow_natCast]
    _ ≤ 10 ^ a.leading := ten_zpow_le.mpr (by omega)
    _ ≤ |a.toRat| := hlow

/-- A number with zeros behind its digits, down to a lower place. -/
theorem toRat_align (d : Decimal) {e : ℤ} (he : e ≤ d.exponent) :
    (d.mantissa * pow10 (d.exponent - e).toNat : ℤ) * (10 : ℚ) ^ e = d.toRat := by
  rw [Int.cast_mul, Int.cast_natCast, cast_pow10_toNat (by omega), mul_assoc, ← ten_zpow_add, toRat, sub_add_cancel]

theorem abs_align (d : Decimal) {e : ℤ} (he : e ≤ d.exponent) :
    (d.mantissa.natAbs * pow10 (d.exponent - e).toNat : ℕ) * (10 : ℚ) ^ e = |d.toRat| := by
  rw [Nat.cast_mul, cast_pow10_toNat (by omega), mul_assoc, ← ten_zpow_add, abs_toRat, sub_add_cancel]

theorem compares_compare {α : Type*} [LinearOrder α] (x y : α) : (Ord.compare x y).Compares x y := by
  rw [← cmp_eq_compare]
  exact cmp_compares x y

theorem compareAbs_compares {a b : Decimal} (ha : a.mantissa ≠ 0) (hb : b.mantissa ≠ 0) :
    (a.compareAbs b).Compares |a.toRat| |b.toRat| := by
  unfold compareAbs
  have hleading := compares_compare a.leading b.leading
  split
  · -- The first digits stand at one place: both mantissas are written out to the lower last place.
    dsimp only
    set e := Min.min a.exponent b.exponent
    have hunit := ten_zpow_pos e
    rw [← abs_align a (min_le_left _ _ : e ≤ _), ← abs_align b (min_le_right _ _ : e ≤ _)]
    have hscaled := compares_compare (a.mantissa.natAbs * pow10 (a.exponent - e).toNat)
      (b.mantissa.natAbs * pow10 (b.exponent - e).toNat)
    revert hscaled
    cases Ord.compare (a.mantissa.natAbs * pow10 (a.exponent - e).toNat)
      (b.mantissa.natAbs * pow10 (b.exponent - e).toNat) with
    | lt => exact fun h => mul_lt_mul_of_pos_right (Nat.cast_lt.mpr h) hunit
    | eq => exact fun h => congrArg (fun n : ℕ => (n : ℚ) * 10 ^ e) h
    | gt => exact fun h => mul_lt_mul_of_pos_right (Nat.cast_lt.mpr h) hunit
  · rename_i hne
    revert hleading hne
    cases Ord.compare a.leading b.leading with
    | lt => exact fun h _ => by simpa using lt_of_leading hb (n := 0) (by simpa using h)
    | eq => exact fun _ hne => absurd rfl hne
    | gt => exact fun h _ => by simpa using lt_of_leading ha (n := 0) (by simpa using h)

theorem lt_of_sign_lt {a b : Decimal} (h : a.mantissa.sign < b.mantissa.sign) : a.toRat < b.toRat := by
  rcases lt_trichotomy a.mantissa 0 with ha | ha | ha
  · rw [Int.sign_eq_neg_one_of_neg ha] at h
    have hb : 0 ≤ b.mantissa := by
      by_contra hb
      rw [Int.sign_eq_neg_one_of_neg (not_le.mp hb)] at h
      exact lt_irrefl _ h
    exact (toRat_neg_iff.mpr ha).trans_le (not_lt.mp (mt toRat_neg_iff.mp (not_lt.mpr hb)))
  · rw [ha, Int.sign_zero, Int.sign_pos_iff] at h
    rw [toRat_eq_zero_iff.mpr ha]
    exact toRat_pos_iff.mpr h
  · have hle : b.mantissa.sign ≤ 1 := by
      rcases Int.sign_trichotomy b.mantissa with hb | hb | hb <;> omega
    rw [Int.sign_eq_one_of_pos ha] at h
    omega

/-- Numbers are in the order of their values. -/
theorem compare_compares (a b : Decimal) : (a.compare b).Compares a.toRat b.toRat := by
  unfold compare
  split
  · rename_i hsign
    have hsigns := compares_compare a.mantissa.sign b.mantissa.sign
    revert hsigns
    cases Ord.compare a.mantissa.sign b.mantissa.sign with
    | lt => exact lt_of_sign_lt
    | eq => exact fun h => absurd h hsign
    | gt => exact lt_of_sign_lt
  rename_i hsign
  replace hsign := not_not.mp hsign
  split
  · rename_i ha
    rw [ha, Int.sign_zero, eq_comm, Int.sign_eq_zero_iff_zero] at hsign
    exact (toRat_eq_zero_iff.mpr ha).trans (toRat_eq_zero_iff.mpr hsign).symm
  rename_i ha
  have hb : b.mantissa ≠ 0 := by
    rwa [Ne, ← Int.sign_eq_zero_iff_zero, ← hsign, Int.sign_eq_zero_iff_zero]
  have habs := compareAbs_compares ha hb
  split
  · rename_i hneg
    rw [Int.sign_eq_neg_one_of_neg hneg, eq_comm, Int.sign_eq_neg_one_iff_neg] at hsign
    rw [abs_of_neg (toRat_neg_iff.mpr hneg), abs_of_neg (toRat_neg_iff.mpr hsign)] at habs
    rw [Ordering.compares_swap]
    revert habs
    cases a.compareAbs b with
    | lt => exact neg_lt_neg_iff.mp
    | eq => exact fun h => (neg_inj.mp h).symm
    | gt => exact neg_lt_neg_iff.mp
  · rename_i hneg
    have hpos : 0 < a.mantissa := by omega
    rw [Int.sign_eq_one_of_pos hpos, eq_comm, Int.sign_eq_one_iff_pos] at hsign
    rwa [abs_of_pos (toRat_pos_iff.mpr hpos), abs_of_pos (toRat_pos_iff.mpr hsign)] at habs

theorem lt_iff {a b : Decimal} : a.lt b = true ↔ a.toRat < b.toRat := by
  have h := compare_compares a b
  rw [lt]
  revert h
  cases a.compare b with
  | lt => exact fun h => iff_of_true rfl h
  | eq => exact fun h => iff_of_false Bool.false_ne_true (h ▸ lt_irrefl _)
  | gt => exact fun h => iff_of_false Bool.false_ne_true h.not_gt

/-! ### Sums -/

/-- What is far below the last of `p` digits does not matter when it is added. -/
def Isolated (p : ℕ) (q : ℚ) : Prop := ∀ y, |y| * 10 ^ (p + 2) < |q| → rounded p (q + y) = rounded p q

section
variable {p : ℕ} {q : ℚ}

theorem Isolated.neg (h : Isolated p q) : Isolated p (-q) := by
  intro y hy
  have hsame := h (-y) (by rwa [abs_neg, ← abs_neg q])
  rw [rounded_neg, ← hsame, ← rounded_neg]
  congr 1
  ring

/-- A number is isolated if it is a number with `p` digits, or hardly above one. -/
theorem isolated_of_near (hp : 0 < p) {c : ℚ} {k : ℤ} (hc : Fits p c) (hlow : 10 ^ k ≤ c) (hbelow : c ≤ q)
    (habove : q ≤ c + 10 ^ (k - p + 1) / 10) (hhigh : q < 10 ^ (k + 1)) : Isolated p q := by
  intro y hy
  have hunit := ten_zpow_pos (k - p + 1)
  have hq : 0 < q := (ten_zpow_pos k).trans_le (hlow.trans hbelow)
  have hsmall : |y| < 10 ^ (k - p + 1) / 100 := by
    rw [abs_of_pos hq] at hy
    have hy' := hy.trans hhigh
    rw [unit_scale p k, pow_add] at hy'
    have hpower : (0 : ℚ) < 10 ^ p := by positivity
    have : |y| * 100 < 10 ^ (k - p + 1) := by
      refine lt_of_mul_lt_mul_left ?_ hpower.le
      linarith
    linarith
  obtain ⟨hneg, hpos⟩ := abs_lt.mp hsmall
  rw [rounded_of_near hp hc hlow (hbelow.trans_lt hhigh) (by linarith) (by linarith : q + y < _),
    rounded_of_near hp hc hlow (hbelow.trans_lt hhigh) (by linarith) (by linarith : q < _)]

theorem Fits.isolated (hp : 0 < p) (h : Fits p q) : Isolated p q := by
  rcases lt_trichotomy q 0 with hq | rfl | hq
  · obtain ⟨hlow, hhigh⟩ := log_bounds (neg_pos.mpr hq)
    have hunit := div_pos (ten_zpow_pos (Int.log 10 (-q) - p + 1)) (by norm_num : (0 : ℚ) < 10)
    have hneg := isolated_of_near hp h.neg hlow le_rfl (le_add_of_nonneg_right hunit.le) hhigh
    simpa using hneg.neg
  · intro y hy
    rw [abs_zero] at hy
    exact absurd hy (not_lt.mpr (by positivity))
  · obtain ⟨hlow, hhigh⟩ := log_bounds hq
    have hunit := div_pos (ten_zpow_pos (Int.log 10 q - p + 1)) (by norm_num : (0 : ℚ) < 10)
    exact isolated_of_near hp h hlow le_rfl (le_add_of_nonneg_right hunit.le) hhigh

end

/-- The second operand is left out of the sum: its first digit stands more than `p + 2` places below that of the first. -/
def LeftOut (p : Precision) (a b : Decimal) : Prop :=
  a.toRat ≠ 0 ∧ b.toRat ≠ 0 ∧ b.leading + (p.digits + 2) < a.leading

theorem LeftOut.not_symm {a b : Decimal} {p : Precision} (h : LeftOut p a b) : ¬LeftOut p b a := by
  rintro ⟨-, -, hleading⟩
  have hleading' := h.2.2
  omega

theorem LeftOut.abs_mul_lt {a b : Decimal} {p : Precision} (h : LeftOut p a b) :
    |b.toRat| * 10 ^ (p.digits + 2) < |a.toRat| :=
  lt_of_leading (mt toRat_eq_zero_iff.mpr h.1) (by exact_mod_cast h.2.2)

/-- What a sum can be: one operand rounded, where the other is left out, or the exact sum rounded. -/
theorem add_cases (a b : Decimal) (p : Precision) :
    LeftOut p a b ∧ a.add b p = a.roundTo p ∨ LeftOut p b a ∧ a.add b p = b.roundTo p ∨
      ¬LeftOut p a b ∧ ¬LeftOut p b a ∧ (a.add b p).toRat = rounded p.digits (a.toRat + b.toRat) := by
  unfold add
  split
  · rename_i hzero
    rw [isZero_iff] at hzero
    exact .inr (.inr ⟨fun h => h.1 hzero, fun h => h.2.1 hzero, by rw [toRat_roundTo, hzero, zero_add]⟩)
  rename_i hazero
  split
  · rename_i hzero
    rw [isZero_iff] at hzero
    exact .inr (.inr ⟨fun h => h.2.1 hzero, fun h => h.1 hzero, by rw [toRat_roundTo, hzero, add_zero]⟩)
  rename_i hbzero
  dsimp only
  split
  · exact .inl ⟨⟨mt isZero_iff.mpr hazero, mt isZero_iff.mpr hbzero, by omega⟩, rfl⟩
  split
  · exact .inr (.inl ⟨⟨mt isZero_iff.mpr hbzero, mt isZero_iff.mpr hazero, by omega⟩, rfl⟩)
  · refine .inr (.inr ⟨fun h => ?_, fun h => ?_, ?_⟩)
    · have hleading := h.2.2
      omega
    · have hleading := h.2.2
      omega
    · rw [toRat_roundTo, toRat_ofParts, Int.cast_add, add_mul, toRat_align a (min_le_left ..),
        toRat_align b (min_le_right ..)]

theorem toRat_add {a b : Decimal} {p : Precision} (ha : Isolated p.digits a.toRat) (hb : Isolated p.digits b.toRat) :
    (a.add b p).toRat = rounded p.digits (a.toRat + b.toRat) := by
  rcases add_cases a b p with ⟨hleft, hvalue⟩ | ⟨hleft, hvalue⟩ | ⟨-, -, hvalue⟩
  · rw [hvalue, toRat_roundTo, ha _ hleft.abs_mul_lt]
  · rw [hvalue, toRat_roundTo, add_comm a.toRat, hb _ hleft.abs_mul_lt]
  · exact hvalue

theorem toRat_sub {a b : Decimal} {p : Precision} (ha : Isolated p.digits a.toRat) (hb : Isolated p.digits b.toRat) :
    (a.sub b p).toRat = rounded p.digits (a.toRat - b.toRat) := by
  have hneg : Isolated p.digits b.neg.toRat := by
    rw [toRat_neg]
    exact hb.neg
  rw [sub, toRat_add ha hneg, toRat_neg, sub_eq_add_neg]

/-! ### Range -/

/-- Whether a value is zero, or its first digit's place is in the exponent range. -/
def Representable (q : ℚ) : Prop := 
  q = 0 ∨ -maxExponent ≤ Int.log 10 |q| ∧ Int.log 10 |q| ≤ maxExponent

instance (q : ℚ) : Decidable (Representable q) := inferInstanceAs (Decidable (_ ∨ _))

theorem inRange_iff {d : Decimal} : d.inRange = true ↔ Representable d.toRat := by
  rw [inRange, Bool.or_eq_true, isZero_iff, decide_eq_true_iff, Representable]
  rcases eq_or_ne d.toRat 0 with h | h
  · simp [h]
  · rw [log_toRat (mt toRat_eq_zero_iff.mpr h)]
    refine or_congr_right ?_
    unfold maxExponent
    omega

theorem inRange_abs (d : Decimal) : d.abs.inRange = d.inRange := by
  rw [Bool.eq_iff_iff, inRange_iff, inRange_iff, Representable, Representable, toRat_abs, abs_abs, abs_eq_zero]

theorem checked_eq (d : Decimal) : d.checked = if Representable d.toRat then some d else none := by
  rw [checked]
  exact if_congr inRange_iff rfl rfl

theorem representable_iff {q : ℚ} (hq : q ≠ 0) :
    Representable q ↔ 10 ^ (-maxExponent) ≤ |q| ∧ |q| < 10 ^ (maxExponent + 1) := by
  have hpos : 0 < |q| := abs_pos.mpr hq
  have hlow : (10 : ℚ) ^ (-maxExponent) ≤ |q| ↔ -maxExponent ≤ Int.log 10 |q| := by
    exact_mod_cast Int.zpow_le_iff_le_log (b := 10) (by decide) hpos
  have hhigh : |q| < (10 : ℚ) ^ (maxExponent + 1) ↔ Int.log 10 |q| < maxExponent + 1 := by
    exact_mod_cast Int.lt_zpow_iff_log_lt (b := 10) (by decide) hpos
  rw [Representable, or_iff_right hq, hlow, hhigh, Int.lt_add_one_iff]

theorem representable_of_between {q : ℚ} {a b : ℤ} (ha : -maxExponent ≤ a) (hb : b ≤ maxExponent) (hlow : 10 ^ a ≤ q)
    (hhigh : q ≤ 10 ^ b) : Representable q := by
  have hq : 0 < q := (ten_zpow_pos a).trans_le hlow
  have hlog := Int.log_mono_right (b := 10) (ten_zpow_pos a) hlow
  have hlog' := Int.log_mono_right (b := 10) hq hhigh
  have hpower : ∀ e : ℤ, Int.log 10 ((10 : ℚ) ^ e) = e := fun e => by
    exact_mod_cast Int.log_zpow (R := ℚ) (by decide : 1 < 10) e
  rw [hpower] at hlog hlog'
  rw [Representable, abs_of_pos hq]
  exact .inr ⟨ha.trans hlog, hlog'.trans hb⟩

/-! ### Products and quotients -/

theorem toRat_mul (a b : Decimal) (p : Precision) : (a.mul b p).toRat = rounded p.digits (a.toRat * b.toRat) := by
  rw [mul, toRat_roundTo, toRat_ofParts, toRat, toRat, Int.cast_mul, ten_zpow_add]
  congr 1
  ring

theorem checked_zero : zero.checked = some zero := by
  decide +kernel

theorem mul?_eq (a b : Decimal) (p : Precision) :
    ∃ c : Decimal, c.toRat = rounded p.digits (a.toRat * b.toRat) ∧ a.mul? b p = c.checked := by
  unfold mul?
  split
  · rename_i h
    refine ⟨zero, ?_, checked_zero.symm⟩
    rw [Bool.or_eq_true, isZero_iff, isZero_iff, ← mul_eq_zero] at h
    rw [toRat_zero, h, rounded_zero]
  · exact ⟨a.mul b p, toRat_mul a b p, rfl⟩

theorem toRat_negIf (flip : Bool) (d : Decimal) : (d.negIf flip).toRat = if flip then -d.toRat else d.toRat := by
  cases flip with
  | true => exact d.toRat_neg
  | false => rfl

/-- The digit behind the quotient leaves it between the quotient and the next number. -/
theorem toRat_withSticky (quotient : ℕ) (exact : Bool) (e : ℤ) :
    ∃ x : ℚ, quotient ≤ x ∧ x < quotient + 1 ∧ (withSticky quotient exact e).toRat = x * 10 ^ e := by
  cases exact with
  | true => exact ⟨quotient, le_rfl, lt_add_one _, by rw [withSticky, if_pos rfl, toRat_ofParts, Int.cast_natCast]⟩
  | false =>
    refine ⟨quotient + 1 / 10, by linarith, by linarith, ?_⟩
    rw [withSticky, if_neg Bool.false_ne_true, toRat_ofParts, zpow_sub₀ (by norm_num), zpow_one]
    push_cast
    ring

/-- A quotient with more than `p` digits, and the digit that tells whether anything was left, round as the ratio. -/
theorem rounded_withSticky {p n m : ℕ} (hm : 0 < m) (h : 10 ^ p ≤ n / m) (exact : Bool) (e : ℤ) :
    rounded p (withSticky (n / m) exact e).toRat = rounded p (n / m * 10 ^ e) := by
  have hm' : (0 : ℚ) < m := by exact_mod_cast hm
  obtain ⟨x, hlow, hhigh, hx⟩ := toRat_withSticky (n / m) exact e
  have hsplit : (n : ℚ) = m * (n / m : ℕ) + (n % m : ℕ) := by exact_mod_cast (Nat.div_add_mod n m).symm
  have hrest : ((n % m : ℕ) : ℚ) < m := by exact_mod_cast Nat.mod_lt n hm
  have hrest' : (0 : ℚ) ≤ (n % m : ℕ) := Nat.cast_nonneg _
  have hlow' : ((n / m : ℕ) : ℚ) ≤ n / m := by
    rw [le_div_iff₀ hm']
    linarith
  have hhigh' : (n : ℚ) / m < (n / m : ℕ) + 1 := by
    rw [div_lt_iff₀ hm']
    linarith
  rw [hx, rounded_of_floor h hlow hhigh, rounded_of_floor h hlow' hhigh']

/-- The quotient that is computed has more digits than are kept. -/
theorem pow_le_quotient {a b : Decimal} (ha : a.mantissa ≠ 0) (hb : b.mantissa ≠ 0) (p : ℕ) :
    10 ^ p ≤ a.mantissa.natAbs * pow10 (p + 2 + b.digits - a.digits) / b.mantissa.natAbs := by
  rw [Nat.le_div_iff_mul_le (Int.natAbs_pos.mpr hb)]
  have hcount : 0 < a.digits := Digits.count_pos _
  calc 10 ^ p * b.mantissa.natAbs
      ≤ 10 ^ p * 10 ^ b.digits := Nat.mul_le_mul_left _ (Digits.lt_pow_count _).le
    _ = 10 ^ (p + b.digits) := (pow_add ..).symm
    _ ≤ 10 ^ (a.digits - 1 + (p + 2 + b.digits - a.digits)) := Nat.pow_le_pow_right (by decide) (by omega)
    _ = 10 ^ (a.digits - 1) * 10 ^ (p + 2 + b.digits - a.digits) := pow_add ..
    _ ≤ a.mantissa.natAbs * 10 ^ (p + 2 + b.digits - a.digits) :=
      Nat.mul_le_mul_right _ (Digits.pow_count_le (Int.natAbs_ne_zero.mpr ha))

/-- Signs that differ make the quotient negative. -/
theorem isNegative_bne {a b : Decimal} (ha : a.toRat ≠ 0) (hb : b.toRat ≠ 0) :
    (a.isNegative != b.isNegative) = decide (a.toRat / b.toRat < 0) := by
  have hsign : ∀ d : Decimal, d.isNegative = decide (d.toRat < 0) := fun d => by
    rw [Bool.eq_iff_iff, isNegative_iff, decide_eq_true_iff]
  rw [hsign, hsign]
  rcases lt_or_gt_of_ne ha with ha | ha <;> rcases lt_or_gt_of_ne hb with hb | hb <;>
    simp [div_neg_iff, ha, hb, ha.not_gt, hb.not_gt]

theorem div?_eq (a : Decimal) {b : Decimal} (hb : b.toRat ≠ 0) (p : Precision) :
    ∃ c : Decimal, c.toRat = rounded p.digits (a.toRat / b.toRat) ∧ a.div? b p = c.checked := by
  unfold div?
  rw [if_neg (mt isZero_iff.mp hb)]
  split
  · rename_i h
    refine ⟨zero, ?_, checked_zero.symm⟩
    rw [toRat_zero, isZero_iff.mp h, zero_div, rounded_zero]
  rename_i hazero
  have ha : a.mantissa ≠ 0 := fun h => hazero (isZero_iff.mpr (toRat_eq_zero_iff.mpr h))
  have hb' : b.mantissa ≠ 0 := mt toRat_eq_zero_iff.mpr hb
  refine ⟨_, ?_, rfl⟩
  have hmagnitude : |a.toRat / b.toRat| = (a.mantissa.natAbs * pow10 (p.digits + 2 + b.digits - a.digits) : ℕ) /
      b.mantissa.natAbs * 10 ^ (a.exponent - b.exponent - (p.digits + 2 + b.digits - a.digits : ℕ)) := by
    rw [abs_div, abs_toRat, abs_toRat, Nat.cast_mul, cast_pow10, zpow_sub₀ (by norm_num), zpow_sub₀ (by norm_num)]
    have hpower := ten_zpow_pos ((p.digits + 2 + b.digits - a.digits : ℕ) : ℤ)
    have hpower' := ten_zpow_pos b.exponent
    field_simp
  have hround := rounded_withSticky (Int.natAbs_pos.mpr hb') (pow_le_quotient ha hb' p.digits)
    (a.mantissa.natAbs * pow10 (p.digits + 2 + b.digits - a.digits) % b.mantissa.natAbs == 0)
    (a.exponent - b.exponent - (p.digits + 2 + b.digits - a.digits : ℕ))
  rw [← hmagnitude] at hround
  rw [toRat_roundTo, toRat_negIf, isNegative_bne (mt isZero_iff.mpr hazero) hb]
  rcases lt_or_ge (a.toRat / b.toRat) 0 with hneg | hpos
  · rw [decide_eq_true hneg, if_pos rfl, rounded_neg, hround, abs_of_neg hneg, rounded_neg, neg_neg]
  · rw [decide_eq_false (not_lt.mpr hpos), if_neg Bool.false_ne_true, hround, abs_of_nonneg hpos]

/-! ### Remainders -/

/-- The whole part of a number, cut toward zero. -/
def truncate (q : ℚ) : ℤ := if q < 0 then ⌈q⌉ else ⌊q⌋

/-- What a division that is cut toward zero leaves. -/
def remainder (x y : ℚ) : ℚ := x - y * truncate (x / y)

theorem truncate_neg (q : ℚ) : truncate (-q) = -truncate q := by
  unfold truncate
  rcases lt_trichotomy q 0 with h | rfl | h
  · rw [if_pos h, if_neg (by linarith), Int.floor_neg]
  · simp
  · rw [if_neg h.not_gt, if_pos (by linarith), Int.ceil_neg]

theorem remainder_neg_left (x y : ℚ) : remainder (-x) y = -remainder x y := by
  rw [remainder, neg_div, truncate_neg, remainder]
  push_cast
  ring

theorem remainder_neg_right (x y : ℚ) : remainder x (-y) = remainder x y := by
  rw [remainder, div_neg, truncate_neg, remainder]
  push_cast
  ring

theorem remainder_abs_right (x y : ℚ) : remainder x |y| = remainder x y := by
  rcases abs_choice y with h | h
  · rw [h]
  · rw [h, remainder_neg_right]

/-- The remainder has the sign of the dividend. -/
theorem remainder_eq_ite (x y : ℚ) : remainder x y = if x < 0 then -remainder |x| |y| else remainder |x| |y| := by
  rw [remainder_abs_right]
  split
  · rename_i h
    rw [abs_of_neg h, remainder_neg_left, neg_neg]
  · rename_i h
    rw [abs_of_nonneg (not_lt.mp h)]

theorem remainder_of_lt {x y : ℚ} (h : |x| < |y|) : remainder x y = x := by
  have hypos := (abs_nonneg x).trans_lt h
  have hfloor : ⌊|x| / |y|⌋ = 0 := Int.floor_eq_zero_iff.mpr ⟨by positivity, (div_lt_one hypos).mpr h⟩
  have habs : remainder |x| |y| = |x| := by
    rw [remainder, truncate, if_neg (not_lt.mpr (by positivity)), hfloor, Int.cast_zero, mul_zero, sub_zero]
  rw [remainder_eq_ite, habs]
  split
  · rename_i hx
    rw [abs_of_neg hx, neg_neg]
  · rename_i hx
    rw [abs_of_nonneg (not_lt.mp hx)]

/-- In a common unit it is the remainder of whole numbers. -/
theorem remainder_mul (n m : ℕ) {u : ℚ} (hu : 0 < u) : remainder (n * u) (m * u) = (n % m : ℕ) * u := by
  have hfloor : ⌊(n * u) / (m * u)⌋ = (n / m : ℕ) := by
    rw [mul_div_mul_right _ _ hu.ne']
    exact Rat.floor_intCast_div_natCast n m
  have hsplit : (n : ℚ) = m * (n / m : ℕ) + (n % m : ℕ) := by exact_mod_cast (Nat.div_add_mod n m).symm
  rw [remainder, truncate, if_neg (not_lt.mpr (by positivity)), hfloor, Int.cast_natCast]
  linear_combination u * hsplit

theorem powMod_eq (base n m : ℕ) : powMod base n m = base ^ n % m := by
  fun_induction powMod base n m with
  | case1 => rw [pow_zero]
  | case2 n h root heven ih =>
    have hsplit : n = n / 2 + n / 2 := by omega
    unfold root
    rw [ih, ← Nat.mul_mod, ← pow_add, ← hsplit]
  | case3 n h root hodd ih =>
    have hsplit : n = n / 2 + n / 2 + 1 := by omega
    conv_rhs => rw [hsplit, pow_succ, pow_add]
    unfold root
    rw [ih, ← Nat.mul_mod, Nat.mod_mul_mod]

/-- The remainder of the numbers at their common place. -/
theorem remainderAbs_eq (a b : Decimal) :
    remainderAbs a b = (a.mantissa.natAbs * pow10 (a.exponent - Min.min a.exponent b.exponent).toNat) %
      (b.mantissa.natAbs * pow10 (b.exponent - Min.min a.exponent b.exponent).toNat) := by
  have hone : pow10 0 = 1 := rfl
  unfold remainderAbs
  dsimp only
  split
  · rename_i h
    rw [min_eq_right h, sub_self, Int.toNat_zero, hone, mul_one, powMod_eq, pow10_eq, ← Nat.mul_mod]
  · rename_i h
    rw [min_eq_left (not_le.mp h).le, sub_self, Int.toNat_zero, hone, mul_one]

theorem toRat_remainderAbs (a b : Decimal) :
    (ofParts (remainderAbs a b) (Min.min a.exponent b.exponent)).toRat = remainder |a.toRat| |b.toRat| := by
  rw [toRat_ofParts, Int.cast_natCast, remainderAbs_eq, ← abs_align a (min_le_left ..),
    ← abs_align b (min_le_right ..), remainder_mul _ _ (ten_zpow_pos _)]

/-- The remainder before it is rounded. -/
theorem exists_exact_remainder (a : Decimal) {b : Decimal} (hb : b.toRat ≠ 0) (p : Precision) :
    ∃ r : Decimal, r.toRat = remainder a.toRat b.toRat ∧ a.rem? b p = some (r.roundTo p) := by
  unfold rem?
  rw [if_neg (mt isZero_iff.mp hb)]
  split
  · rename_i h
    refine ⟨a, (remainder_of_lt ?_).symm, rfl⟩
    rw [Bool.or_eq_true, isZero_iff, lt_iff, toRat_abs, toRat_abs] at h
    rcases h with h | h
    · rw [h, abs_zero]
      exact abs_pos.mpr hb
    · exact h
  · refine ⟨_, ?_, rfl⟩
    rw [toRat_negIf, toRat_remainderAbs, remainder_eq_ite a.toRat]
    exact if_congr isNegative_iff rfl rfl

theorem rem?_eq (a : Decimal) {b : Decimal} (hb : b.toRat ≠ 0) (p : Precision) :
    ∃ c : Decimal, c.toRat = rounded p.digits (remainder a.toRat b.toRat) ∧ a.rem? b p = some c := by
  obtain ⟨r, hvalue, hrem⟩ := exists_exact_remainder a hb p
  exact ⟨_, by rw [toRat_roundTo, hvalue], hrem⟩

theorem remainderAbs_lt {a b : Decimal} {p : ℕ} (ha : a.digits ≤ p) (hb : b.digits ≤ p) (hb0 : b.mantissa ≠ 0) :
    remainderAbs a b < 10 ^ p := by
  have ha' := (Digits.lt_pow_count a.mantissa.natAbs).trans_le (Nat.pow_le_pow_right (by decide) ha)
  have hb' := (Digits.lt_pow_count b.mantissa.natAbs).trans_le (Nat.pow_le_pow_right (by decide) hb)
  have hone : pow10 0 = 1 := rfl
  have hpos : 0 < b.mantissa.natAbs := Int.natAbs_pos.mpr hb0
  rw [remainderAbs_eq]
  rcases le_total b.exponent a.exponent with h | h
  · rw [min_eq_right h, sub_self, Int.toNat_zero, hone, mul_one]
    exact (Nat.mod_lt _ hpos).trans hb'
  · rw [min_eq_left h, sub_self, Int.toNat_zero, hone, mul_one]
    exact (Nat.mod_le _ _).trans_lt ha'

/-- The remainder of numbers with at most `p` digits has at most `p` digits. -/
theorem fits_remainder {a b : Decimal} {p : ℕ} (ha : a.digits ≤ p) (hb : b.digits ≤ p) (hb0 : b.toRat ≠ 0) :
    Fits p (remainder a.toRat b.toRat) := by
  have hlt := remainderAbs_lt ha hb (mt toRat_eq_zero_iff.mpr hb0)
  have habs : Fits p (remainder |a.toRat| |b.toRat|) := by
    refine ⟨remainderAbs a b, Min.min a.exponent b.exponent, ?_, ?_⟩
    · rw [Nat.abs_cast]
      exact_mod_cast hlt
    · rw [← toRat_remainderAbs, toRat_ofParts]
  rw [remainder_eq_ite]
  split
  · exact habs.neg
  · exact habs

/-! ### Digits of the results -/

section
variable {a b c : Decimal} {p : Precision}

theorem Normal.add (ha : a.Normal) (hb : b.Normal) (p : Precision) : (a.add b p).Within p := by
  unfold Decimal.add
  split
  · exact hb.roundTo p
  split
  · exact ha.roundTo p
  dsimp only
  split
  · exact ha.roundTo p
  split
  · exact hb.roundTo p
  · exact (normal_ofParts _ _).roundTo p

theorem Normal.sub (ha : a.Normal) (hb : b.Normal) (p : Precision) : (a.sub b p).Within p := ha.add hb.neg p

theorem within_mul (a b : Decimal) (p : Precision) : (a.mul b p).Within p := (normal_ofParts _ _).roundTo p

theorem eq_of_checked (h : c.checked = some a) : c = a := by
  unfold checked at h
  split at h
  · exact Option.some.inj h
  · cases h

theorem within_of_mul? (h : a.mul? b p = some c) : c.Within p := by
  unfold mul? at h
  split at h
  · exact Option.some.inj h ▸ within_zero p
  · exact eq_of_checked h ▸ within_mul a b p

theorem normal_withSticky (quotient : ℕ) (exact : Bool) (e : ℤ) : (withSticky quotient exact e).Normal := by
  unfold withSticky
  split
  · exact normal_ofParts _ _
  · exact normal_ofParts _ _

theorem within_of_div? (h : a.div? b p = some c) : c.Within p := by
  unfold div? at h
  split at h
  · cases h
  split at h
  · exact Option.some.inj h ▸ within_zero p
  · exact eq_of_checked h ▸ ((normal_withSticky _ _ _).negIf _).roundTo p

theorem Normal.of_rem? (ha : a.Normal) (h : a.rem? b p = some c) : c.Within p := by
  unfold rem? at h
  split at h
  · cases h
  split at h
  · exact Option.some.inj h ▸ ha.roundTo p
  · exact Option.some.inj h ▸ ((normal_ofParts _ _).negIf _).roundTo p

end

end Calculator.Decimal
