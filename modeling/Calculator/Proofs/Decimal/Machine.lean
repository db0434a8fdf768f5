import Calculator.Decimal.Machine
import Calculator.Proofs.Decimal.Functions
import Calculator.Proofs.Decimal.Literal
import Calculator.Proofs.Decimal.Roots
import Calculator.Proofs.Decimal.RoundTo
/-!
Decimal numbers of moderate size on a machine. Their exponents stay far from the ends of a word, and the guards of each
operation keep its shifts small, so that all that is computed on the way fits. What a machine does with results that do
not fit makes no difference then. Precisions near the end of a word of 32 bits are another matter: a shift loses its high
bit, or guard digits start the precision again from zero.
-/
namespace Calculator
open Decimal

/-! ### The parts of a number in normal form -/

namespace Decimal

theorem ofParts_self {d : Decimal} (hd : d.Normal) : ofParts d.mantissa d.exponent = d :=
  (normal_ofParts _ _).eq_of_toRat hd (toRat_ofParts _ _)

theorem ofParts_mul_ten (n e : ℤ) : ofParts (n * 10) e = ofParts n (e + 1) := by
  refine (normal_ofParts _ _).eq_of_toRat (normal_ofParts _ _) ?_
  rw [toRat_ofParts, toRat_ofParts, zpow_add_one₀ (by norm_num)]
  push_cast
  ring

/-- A number in normal form has no more digits than it was given, and each zero at the end moves its exponent by one. -/
theorem ofParts_bounds (n e : ℤ) : (ofParts n e).digits ≤ Digits.count n.natAbs ∧
    (ofParts n e).exponent.natAbs ≤ e.natAbs + Digits.count n.natAbs := by
  unfold ofParts
  split
  · rename_i hn
    rw [hn]
    exact ⟨le_rfl, Nat.zero_le _⟩
  · rename_i hn
    have hpos : 0 < n.natAbs := Int.natAbs_pos.mpr hn
    have hdropped : trailingZeros n.natAbs < Digits.count n.natAbs := by
      rw [← Nat.pow_lt_pow_iff_right (by decide : 1 < 10)]
      exact (Nat.le_of_dvd hpos (pow_trailingZeros_dvd _)).trans_lt (Digits.lt_pow_count _)
    constructor
    · refine Digits.count_mono ?_
      show (n / (10 ^ trailingZeros n.natAbs : ℕ)).natAbs ≤ n.natAbs
      rw [Int.natAbs_ediv_of_dvd (Int.natCast_dvd.mpr (pow_trailingZeros_dvd _)), Int.natAbs_natCast]
      exact Nat.div_le_self _ _
    · dsimp only
      omega

/-- Rounding adds no digit to a mantissa. -/
theorem count_nearestUp_le {d : Decimal} {p : Precision} (h : ¬d.digits ≤ p.digits) :
    Digits.count (nearestUp d.mantissa.natAbs (pow10 (d.digits - p.digits))) ≤ d.digits := by
  have hp := p.digits_pos
  have hten : 10 ≤ d.mantissa.natAbs := by
    refine le_trans ?_ (Digits.pow_count_le (Int.natAbs_ne_zero.mpr (mantissa_ne_zero_of_digits h)))
    exact Nat.le_self_pow (by rw [digits] at h; omega) 10
  have hunit : 10 ≤ pow10 (d.digits - p.digits) := Nat.le_self_pow (by omega) 10
  have hle := Nat.div_le_div_left (a := d.mantissa.natAbs) hunit (by decide)
  refine Digits.count_mono ?_
  unfold nearestUp
  split <;> omega

theorem natAbs_signed (negative : Bool) (q : ℕ) : (if negative then -(q : ℤ) else q).natAbs = q := by
  split <;> omega

/-- Rounding moves the exponent at most past all digits. -/
theorem roundTo_bounds (d : Decimal) (p : Precision) : (d.roundTo p).digits ≤ d.digits ∧
    (d.roundTo p).exponent.natAbs ≤ d.exponent.natAbs + 2 * d.digits := by
  unfold roundTo
  split
  · exact ⟨le_rfl, Nat.le_add_right ..⟩
  · rename_i h
    have hcount := count_nearestUp_le h
    dsimp only
    generalize nearestUp d.mantissa.natAbs (pow10 (d.digits - p.digits)) = q at hcount ⊢
    obtain ⟨hdigits, hexponent⟩ :=
      ofParts_bounds (if d.isNegative then -(q : ℤ) else q) (d.exponent + (d.digits - p.digits : ℕ))
    rw [natAbs_signed] at hdigits hexponent
    exact ⟨hdigits.trans hcount, by omega⟩

end Decimal

namespace Machine

variable {m : Type → Type} [Monad m] {M : Machine m}

/-- What fits is kept. -/
structure Exact (M : Machine m) : Prop where
  word : ∀ n, fitsWord n = true → M.word n = pure n
  short : ∀ n, fitsShort n = true → M.short n = pure n.toNat
  power : ∀ n, fitsShort n = true → M.power n = pure (pow10 n.toNat)

theorem checking_exact : checking.Exact where
  word _ h := if_pos h
  short _ h := if_pos h
  power _ h := if_pos h

theorem wrapping_exact : wrapping.Exact := by
  have hlow : ∀ n, fitsShort n = true → n % 4294967296 = n := by
    intro n h
    have hbounds := of_decide_eq_true h
    exact Int.emod_eq_of_lt hbounds.1 hbounds.2
  refine ⟨fun n h => ?_, fun n h => ?_, fun n h => ?_⟩
  · have hbounds := of_decide_eq_true h
    show n.bmod 18446744073709551616 = n
    exact Int.bmod_eq_of_le (by omega) (by omega)
  · show (n % 4294967296).toNat = n.toNat
    rw [hlow n h]
  · show pow10 (n % 4294967296).toNat = pow10 n.toNat
    rw [hlow n h]

theorem Exact.word_of (h : M.Exact) {n : ℤ} (hn : n.natAbs ≤ 9000000000000000000) : M.word n = pure n :=
  h.word n (decide_eq_true (by omega))

theorem Exact.short_of (h : M.Exact) {n : ℤ} (hlow : 0 ≤ n) (hhigh : n ≤ 4294967295) : M.short n = pure n.toNat :=
  h.short n (decide_eq_true (by omega))

theorem Exact.power_of (h : M.Exact) {n : ℤ} (hlow : 0 ≤ n) (hhigh : n ≤ 4294967295) :
    M.power n = pure (pow10 n.toNat) :=
  h.power n (decide_eq_true (by omega))

/-! ### Sizes -/

/-- The parts of a number are far from the ends of a word. -/
structure Roomy (d : Decimal) : Prop where
  digits_le : d.digits ≤ 4000000000
  exponent_le : d.exponent.natAbs ≤ 50000000000000000

/-- A number in range, with not too many digits. -/
structure Moderate (d : Decimal) : Prop where
  normal : d.Normal
  inRange : d.inRange = true
  digits_le : d.digits ≤ 1100000000

section
variable {a b d : Decimal} {p : Precision}

theorem Moderate.exponent_le (h : Moderate d) : d.exponent.natAbs ≤ 1000001100000000 := by
  have hleading := h.normal.leading_le h.inRange
  have hbound : maxExponent.natAbs = 1000000000000000 := rfl
  have hdef : d.leading = d.exponent + d.digits - 1 := rfl
  have hdigits := h.digits_le
  omega

theorem Moderate.roomy (h : Moderate d) : Roomy d := by
  have hdigits := h.digits_le
  have hexponent := h.exponent_le
  constructor <;> omega

theorem Moderate.neg (h : Moderate d) : Moderate d.neg := by
  refine ⟨h.normal.neg, ?_, (digits_neg d).trans_le h.digits_le⟩
  rw [← inRange_abs, Decimal.abs, Decimal.neg, Int.natAbs_neg, ← Decimal.abs, inRange_abs]
  exact h.inRange

theorem Moderate.abs (h : Moderate d) : Moderate d.abs :=
  ⟨h.normal.abs, (inRange_abs d).trans h.inRange, (digits_abs d).trans_le h.digits_le⟩

theorem Roomy.parts_le (h : Roomy d) : d.exponent.natAbs + d.digits ≤ 1000000000000000000 := by
  obtain ⟨hdigits, hexponent⟩ := h
  omega

theorem Roomy.parts_roundTo_le (h : Roomy d) :
    (d.roundTo p).exponent.natAbs + (d.roundTo p).digits ≤ 1000000000000000000 := by
  obtain ⟨hdigits, hexponent⟩ := h
  obtain ⟨hdigits', hexponent'⟩ := roundTo_bounds d p
  omega

theorem Roomy.negIf (h : Roomy d) (flip : Bool) : Roomy (d.negIf flip) := by
  cases flip with
  | true => exact ⟨(digits_neg d).trans_le h.digits_le, h.exponent_le⟩
  | false => exact h

theorem roomy_ofParts {n e : ℤ} (hn : Digits.count n.natAbs ≤ 4000000000) (he : e.natAbs ≤ 10000000000000000) :
    Roomy (Decimal.ofParts n e) := by
  obtain ⟨hdigits, hexponent⟩ := ofParts_bounds n e
  constructor <;> omega

/-- A number that is rounded and in range is of moderate size. -/
theorem Moderate.of_checked {c : Decimal} (hp : p.digits ≤ 1100000000) (hc : c.Within p) (h : c.checked = some d) :
    Moderate d := by
  obtain rfl := eq_of_checked h
  refine ⟨hc.normal, ?_, hc.digits_le.trans hp⟩
  by_contra hrange
  rw [Decimal.checked, if_neg hrange] at h
  cases h

theorem Moderate.of_mul? (hp : p.digits ≤ 1100000000) (h : a.mul? b p = some d) : Moderate d := by
  unfold Decimal.mul? at h
  split at h
  · exact Option.some.inj h ▸ ⟨normal_zero, rfl, (within_zero p).digits_le.trans hp⟩
  · exact .of_checked hp (within_mul a b p) h

theorem Moderate.of_div? (hp : p.digits ≤ 1100000000) (h : a.div? b p = some d) : Moderate d := by
  unfold Decimal.div? at h
  split at h
  · cases h
  split at h
  · exact Option.some.inj h ▸ ⟨normal_zero, rfl, (within_zero p).digits_le.trans hp⟩
  · exact .of_checked hp (((normal_withSticky _ _ _).negIf _).roundTo p) h

end

/-! ### The parts of a number -/

variable [LawfulMonad m]

section
variable {a b d : Decimal} {p : Precision}

theorem Exact.dropZeros (h : M.Exact) {n e : ℤ} (hn : n ≠ 0)
    (he : e.natAbs + Digits.count n.natAbs ≤ 9000000000000000000) : M.dropZeros n e = pure (Decimal.ofParts n e) := by
  induction hsize : n.natAbs using Nat.strong_induction_on generalizing n e with
  | _ size ih =>
    subst hsize
    rw [Machine.dropZeros]
    split
    · rename_i hzero
      have hten : 10 ≤ n.natAbs := by omega
      have hquotient : (n / 10).natAbs = n.natAbs / 10 := by omega
      have hcount := Digits.count_div_ten hten
      have hvalue : Decimal.ofParts (n / 10) (e + 1) = Decimal.ofParts n e := by
        rw [← ofParts_mul_ten, Int.ediv_mul_cancel (Int.dvd_of_emod_eq_zero hzero.2)]
      rw [h.word_of (by omega), pure_bind, ih _ (by omega) (by omega) (by rw [hquotient]; omega) rfl, hvalue]
    · rename_i hlast
      have hnormal : Normal ⟨n, e⟩ := .inr fun hdvd => hlast ⟨hn, Int.emod_eq_zero_of_dvd hdvd⟩
      exact congrArg pure (ofParts_self hnormal).symm

theorem Exact.ofParts (h : M.Exact) {n e : ℤ} (hn : Digits.count n.natAbs ≤ 4000000000)
    (he : e.natAbs ≤ 100000000000000000) : M.ofParts n e = pure (Decimal.ofParts n e) := by
  unfold Machine.ofParts
  split
  · rename_i hzero
    rw [Decimal.ofParts, if_pos hzero]
  · rename_i hzero
    exact h.dropZeros hzero (by omega)

theorem Exact.leading (h : M.Exact) (hd : d.exponent.natAbs + d.digits ≤ 1000000000000000000) :
    M.leading d = pure d.leading := by
  unfold Machine.leading Decimal.leading
  rw [h.word_of (by omega), pure_bind, h.word_of (by omega)]

theorem Exact.checked (h : M.Exact) (hd : d.exponent.natAbs + d.digits ≤ 1000000000000000000) :
    M.checked d = pure d.checked := by
  have hleading : d.leading.natAbs ≤ 1000000000000000001 := by
    unfold Decimal.leading
    omega
  have hmax : maxExponent = maxExponent.natAbs := rfl
  unfold Machine.checked Decimal.checked Decimal.inRange
  cases d.isZero with
  | true => rfl
  | false =>
    rw [if_neg Bool.false_ne_true, h.leading hd, pure_bind, h.word_of (by omega), pure_bind, Bool.false_or]
    by_cases hrange : d.leading.natAbs ≤ maxExponent.natAbs
    · rw [if_pos (by omega), decide_eq_true hrange, if_pos rfl]
    · rw [if_neg (by omega), decide_eq_false hrange, if_neg Bool.false_ne_true]

theorem Exact.between (h : M.Exact) {high low : ℤ} (hlow : low ≤ high) (hhigh : high ≤ low + 4294967295) :
    M.between high low = pure (pow10 (high - low).toNat) := by
  unfold Machine.between
  rw [h.word_of (by omega), pure_bind, h.power_of (by omega) (by omega)]

theorem Exact.roundTo (h : M.Exact) (hd : Roomy d) (hp : p.digits ≤ 4294967295) :
    M.roundTo d p.digits = pure (d.roundTo p) := by
  obtain ⟨hdigits, hexponent⟩ := hd
  unfold Machine.roundTo Decimal.roundTo
  rw [h.word_of (by omega), pure_bind]
  by_cases hle : d.digits ≤ p.digits
  · rw [if_pos (by omega), if_pos hle]
  · have hexcess : (d.digits - p.digits : ℤ) = (d.digits - p.digits : ℕ) := by omega
    have hcount := count_nearestUp_le hle
    rw [if_neg (by omega), if_neg hle, hexcess, h.power_of (by omega) (by omega), pure_bind, h.word_of (by omega),
      pure_bind, Int.toNat_natCast]
    dsimp only
    generalize nearestUp d.mantissa.natAbs (pow10 (d.digits - p.digits)) = q at hcount ⊢
    exact h.ofParts (by rw [natAbs_signed]; omega) (by omega)

/-! ### Order -/

theorem Exact.compareAbs (h : M.Exact) (ha : Roomy a) (hb : Roomy b) : M.compareAbs a b = pure (a.compareAbs b) := by
  unfold Machine.compareAbs Decimal.compareAbs
  rw [h.leading ha.parts_le, pure_bind, h.leading hb.parts_le, pure_bind]
  cases hplaces : Ord.compare a.leading b.leading with
  | lt => rfl
  | gt => rfl
  | eq =>
    -- with their first digits at one place, the exponents differ as the numbers of digits do
    have hsame : a.exponent + a.digits - 1 = b.exponent + b.digits - 1 := compare_eq_iff_eq.mp hplaces
    have hdigits := ha.digits_le
    have hdigits' := hb.digits_le
    dsimp only
    rw [h.between (by omega) (by omega), pure_bind, h.between (by omega) (by omega), pure_bind]

theorem Exact.compare (h : M.Exact) (ha : Roomy a) (hb : Roomy b) : M.compare a b = pure (a.compare b) := by
  unfold Machine.compare Decimal.compare
  rw [h.compareAbs ha hb, pure_bind]
  split_ifs <;> rfl

/-! ### Arithmetic -/

/-- Of two numbers whose first digits are at most `n` places apart, neither has a long way to the lower last place. -/
theorem align_bounds {n : ℕ} (h : a.leading - b.leading ≤ n) :
    a.exponent - Min.min a.exponent b.exponent ≤ n + b.digits ∧
      Digits.count (a.mantissa * pow10 (a.exponent - Min.min a.exponent b.exponent).toNat).natAbs ≤
        n + a.digits + b.digits := by
  have hshift : a.exponent - Min.min a.exponent b.exponent ≤ n + b.digits := by
    unfold Decimal.leading at h
    omega
  refine ⟨hshift, ?_⟩
  have hcount := Digits.count_mul_pow10_le a.mantissa.natAbs (a.exponent - Min.min a.exponent b.exponent).toNat
  have hdigits : a.digits = Digits.count a.mantissa.natAbs := rfl
  rw [Int.natAbs_mul, Int.natAbs_natCast]
  omega

/-- The sum of two integers has at most one digit more than the longer one. -/
theorem count_sum_le {x y : ℤ} {n : ℕ} (hx : Digits.count x.natAbs ≤ n) (hy : Digits.count y.natAbs ≤ n) :
    Digits.count (x + y).natAbs ≤ n + 1 := by
  calc Digits.count (x + y).natAbs
      ≤ Digits.count (x.natAbs + y.natAbs) := Digits.count_mono (Int.natAbs_add_le x y)
    _ ≤ max (Digits.count x.natAbs) (Digits.count y.natAbs) + 1 := Digits.count_add_le _ _
    _ ≤ n + 1 := Nat.succ_le_succ (max_le hx hy)

theorem roomy_roundTo (hdigits : d.digits ≤ 4000000000) (hexponent : d.exponent.natAbs ≤ 20000000000000000) :
    Roomy (d.roundTo p) := by
  obtain ⟨hdigits', hexponent'⟩ := roundTo_bounds d p
  constructor <;> omega

theorem Exact.roundTo_ofParts (h : M.Exact) {n e : ℤ} (hn : Digits.count n.natAbs ≤ 4000000000)
    (he : e.natAbs ≤ 10000000000000000) (hp : p.digits ≤ 4294967295) :
    (do M.roundTo (← M.ofParts n e) p.digits) = pure ((Decimal.ofParts n e).roundTo p) := by
  rw [h.ofParts (by omega) (by omega), pure_bind, h.roundTo (roomy_ofParts hn he) hp]

/-- The operands come near each other only by the number of digits that are kept. -/
theorem Exact.add (h : M.Exact) (ha : Moderate a) (hb : Moderate b) (hp : p.digits ≤ 1200000000) :
    M.add a b p.digits = pure (a.add b p) ∧ Roomy (a.add b p) := by
  have hadigits := ha.digits_le
  have haexponent := ha.exponent_le
  have hbdigits := hb.digits_le
  have hbexponent := hb.exponent_le
  have haround := h.roundTo ha.roomy (p := p) (by omega)
  have hbround := h.roundTo hb.roomy (p := p) (by omega)
  have haroomy : Roomy (a.roundTo p) := roomy_roundTo (by omega) (by omega)
  have hbroomy : Roomy (b.roundTo p) := roomy_roundTo (by omega) (by omega)
  unfold Machine.add Decimal.add
  split
  · exact ⟨hbround, hbroomy⟩
  split
  · exact ⟨haround, haroomy⟩
  have hgap : (a.leading - b.leading).natAbs ≤ 9000000000000000000 := by
    unfold Decimal.leading
    omega
  rw [h.leading ha.roomy.parts_le, pure_bind, h.leading hb.roomy.parts_le, pure_bind, h.word_of hgap, pure_bind,
    h.word_of (by omega), pure_bind, h.word_of (by omega), pure_bind, neg_sub]
  dsimp only
  split
  · exact ⟨haround, haroomy⟩
  split
  · exact ⟨hbround, hbroomy⟩
  · rename_i hahead hbhead
    obtain ⟨hashift, hacount⟩ := align_bounds (a := a) (b := b) (n := p.digits + 2) (by omega)
    obtain ⟨hbshift, hbcount⟩ := align_bounds (a := b) (b := a) (n := p.digits + 2) (by omega)
    rw [min_comm] at hbshift hbcount
    have hcount := count_sum_le hacount (hbcount.trans_eq (by omega))
    have he : (Min.min a.exponent b.exponent).natAbs ≤ 1000001100000000 := by omega
    rw [h.between (by omega) (by omega), pure_bind, h.between (by omega) (by omega), pure_bind]
    refine ⟨h.roundTo_ofParts (by omega) (by omega) (by omega), ?_⟩
    obtain ⟨hdigits, hexponent⟩ := ofParts_bounds (a.mantissa * pow10 (a.exponent - Min.min a.exponent b.exponent).toNat
      + b.mantissa * pow10 (b.exponent - Min.min a.exponent b.exponent).toNat) (Min.min a.exponent b.exponent)
    exact roomy_roundTo (by omega) (by omega)

/-- The parts of a product before it is normalized. -/
theorem product_bounds (ha : Moderate a) (hb : Moderate b) :
    Digits.count (a.mantissa * b.mantissa).natAbs ≤ 2200000000 ∧ (a.exponent + b.exponent).natAbs ≤ 2000002200000000 := by
  have hadigits := ha.digits_le
  have haexponent := ha.exponent_le
  have hbdigits := hb.digits_le
  have hbexponent := hb.exponent_le
  have hcount := Digits.count_mul_le a.mantissa.natAbs b.mantissa.natAbs
  rw [digits] at hadigits hbdigits
  rw [Int.natAbs_mul]
  omega

theorem Exact.mul (h : M.Exact) (ha : Moderate a) (hb : Moderate b) (hp : p.digits ≤ 4294967295) :
    M.mul a b p.digits = pure (a.mul b p) := by
  obtain ⟨hcount, hexponent⟩ := product_bounds ha hb
  unfold Machine.mul Decimal.mul
  rw [h.word_of (by omega), pure_bind, h.roundTo_ofParts (by omega) (by omega) hp]

theorem Exact.mul? (h : M.Exact) (ha : Moderate a) (hb : Moderate b) (hp : p.digits ≤ 4294967295) :
    M.mul? a b p.digits = pure (a.mul? b p) := by
  obtain ⟨hcount, hexponent⟩ := product_bounds ha hb
  have hfits : fitsWord (a.exponent + b.exponent) = true := decide_eq_true (by omega)
  unfold Machine.mul? Decimal.mul? Decimal.mul
  cases a.isZero || b.isZero with
  | true => rfl
  | false =>
    rw [if_neg Bool.false_ne_true, if_neg Bool.false_ne_true, if_pos hfits, h.ofParts (by omega) (by omega), pure_bind,
      h.roundTo (roomy_ofParts (by omega) (by omega)) hp, pure_bind,
      h.checked (roomy_ofParts (by omega) (by omega)).parts_roundTo_le]

theorem Exact.withSticky (h : M.Exact) {quotient : ℕ} {e : ℤ} (hq : Digits.count quotient ≤ 3999999990)
    (he : e.natAbs ≤ 9000000000000000) (exact : Bool) :
    M.withSticky quotient exact e = pure (Decimal.withSticky quotient exact e) ∧
      Roomy (Decimal.withSticky quotient exact e) := by
  unfold Machine.withSticky Decimal.withSticky
  cases exact with
  | true => exact ⟨h.ofParts (hq.trans (by decide)) (by omega), roomy_ofParts (hq.trans (by decide)) (by omega)⟩
  | false =>
    have hshifted : Digits.count (quotient * 10) ≤ Digits.count quotient + 1 := Digits.count_mul_pow10_le quotient 1
    have hone : Digits.count 1 = 1 := by decide +kernel
    have hcount := Digits.count_add_le (quotient * 10) 1
    have hlong : Digits.count (quotient * 10 + 1 : ℤ).natAbs ≤ 3999999992 := by
      show Digits.count (quotient * 10 + 1) ≤ 3999999992
      omega
    rw [if_neg Bool.false_ne_true, if_neg Bool.false_ne_true, h.word_of (by omega), pure_bind]
    exact ⟨h.ofParts (by omega) (by omega), roomy_ofParts (by omega) (by omega)⟩

theorem Exact.div? (h : M.Exact) (ha : Moderate a) (hb : Moderate b) (hp : p.digits ≤ 1200000000) :
    M.div? a b p.digits = pure (a.div? b p) := by
  have hadigits := ha.digits_le
  have haexponent := ha.exponent_le
  have hbdigits := hb.digits_le
  have hbexponent := hb.exponent_le
  unfold Machine.div? Decimal.div?
  split
  · rfl
  split
  · rfl
  have hshift : max ((p.digits : ℤ) + 2 + b.digits - a.digits) 0 = (p.digits + 2 + b.digits - a.digits : ℕ) := by omega
  dsimp only
  rw [h.word_of (by omega), pure_bind, h.word_of (by omega), pure_bind, h.word_of (by omega), pure_bind, hshift,
    h.power_of (by omega) (by omega), pure_bind, Int.toNat_natCast]
  generalize hplaces : p.digits + 2 + b.digits - a.digits = shift
  have hfits : (fitsWord (a.exponent - b.exponent) && fitsWord (a.exponent - b.exponent - shift)) = true :=
    Bool.and_eq_true_iff.mpr ⟨decide_eq_true (by omega), decide_eq_true (by omega)⟩
  have hcount : Digits.count (a.mantissa.natAbs * pow10 shift / b.mantissa.natAbs) ≤ a.digits + shift :=
    (Digits.count_mono (Nat.div_le_self _ _)).trans (Digits.count_mul_pow10_le _ _)
  obtain ⟨hsticky, hroomy⟩ := h.withSticky (hcount.trans (by omega)) (e := a.exponent - b.exponent - shift) (by omega)
    (a.mantissa.natAbs * pow10 shift % b.mantissa.natAbs == 0)
  rw [if_pos hfits, hsticky, pure_bind, h.roundTo (hroomy.negIf _) (by omega), pure_bind,
    h.checked (hroomy.negIf _).parts_roundTo_le]

theorem Exact.remainderAbs (h : M.Exact) (ha : Moderate a) (hb : Moderate b) (hle : b.leading ≤ a.leading) :
    M.remainderAbs a b = pure (Decimal.remainderAbs a b) := by
  have hadigits := ha.digits_le
  have haexponent := ha.exponent_le
  have hbexponent := hb.exponent_le
  unfold Machine.remainderAbs Decimal.remainderAbs
  dsimp only
  split
  · rw [h.word_of (by omega), pure_bind]
  · unfold Decimal.leading at hle
    rw [h.between (by omega) (by omega), pure_bind]

/-- Where a division is carried out, the dividend is not less, and so it does not begin at a lower place. -/
theorem Exact.rem? (h : M.Exact) (ha : Moderate a) (hb : Moderate b) (hp : p.digits ≤ 4294967295) :
    M.rem? a b p.digits = pure (a.rem? b p) := by
  have hadigits := ha.digits_le
  have haexponent := ha.exponent_le
  have hbdigits := hb.digits_le
  have hbexponent := hb.exponent_le
  unfold Machine.rem? Decimal.rem?
  rw [h.roundTo ha.roomy hp, h.compare ha.abs.roomy hb.abs.roomy, pure_bind, pure_bind]
  by_cases hbzero : b.isZero = true
  · rw [if_pos hbzero, if_pos hbzero]
  by_cases hazero : a.isZero = true
  · rw [if_neg hbzero, if_neg hbzero, hazero, if_pos rfl, Bool.true_or, if_pos rfl]
  have hless : (a.abs.compare b.abs).isLT = a.abs.lt b.abs := rfl
  rw [if_neg hbzero, if_neg hbzero, if_neg hazero, Bool.eq_false_of_not_eq_true hazero, Bool.false_or, hless]
  split
  · rfl
  · rename_i hnot
    have hb0 : b.mantissa ≠ 0 := mt beq_iff_eq.mpr hbzero
    have hle : b.leading ≤ a.leading := by
      by_contra hlower
      refine hnot (lt_iff.mpr ?_)
      have hlt := lt_of_leading (a := b) (b := a) hb0 (n := 0) (by omega)
      rwa [pow_zero, mul_one, ← toRat_abs, ← toRat_abs] at hlt
    have hcount : Digits.count (Decimal.remainderAbs a b : ℤ).natAbs ≤ max a.digits b.digits :=
      (Digits.count_le_iff (lt_max_of_lt_left (Digits.count_pos _))).mpr
        (remainderAbs_lt (le_max_left _ _) (le_max_right _ _) hb0)
    have hroomy := (roomy_ofParts (n := Decimal.remainderAbs a b) (e := Min.min a.exponent b.exponent) (by omega)
      (by omega)).negIf a.isNegative
    rw [h.remainderAbs ha hb hle, pure_bind, h.ofParts (by omega) (by omega), pure_bind, h.roundTo hroomy hp, pure_bind]

/-! ### Whole numbers -/

/-- Where the digits behind the point are cut off, the number has digits before it, and so there are not too many. -/
theorem Exact.floor (h : M.Exact) (hd : Roomy d) : M.floor d = pure d.floor := by
  have hdigits := hd.digits_le
  have hexponent := hd.exponent_le
  unfold Machine.floor Decimal.floor
  rw [h.leading hd.parts_le, pure_bind]
  split
  · rfl
  split
  · split
    · exact h.ofParts (by decide +kernel) (by decide)
    · rfl
  · rename_i hfraction hwhole
    have hnegative : d.exponent < 0 := not_le.mp (mt decide_eq_true hfraction)
    have hshort : -d.exponent ≤ d.digits := by
      unfold Decimal.leading at hwhole
      omega
    have hcount : Digits.count (d.mantissa.fdiv (pow10 (-d.exponent).toNat)).natAbs ≤ d.digits := by
      rw [Int.fdiv_eq_ediv_of_nonneg _ (Int.natCast_nonneg _)]
      exact Digits.count_mono (Int.natAbs_ediv_le_natAbs _ _)
    rw [h.word_of (by omega), pure_bind, h.power_of (by omega) (by omega), pure_bind,
      h.ofParts (hcount.trans (by omega)) (by decide)]

theorem Exact.ceil (h : M.Exact) (hd : Roomy d) : M.ceil d = pure d.ceil := by
  have hfloor : M.floor d.neg = pure d.neg.floor := h.floor (hd.negIf true)
  unfold Machine.ceil Decimal.ceil
  rw [hfloor, pure_bind]

theorem moderate_half : Moderate half := by
  constructor
  · exact normal_ofParts _ _
  · decide +kernel
  · decide +kernel

theorem moderate_one : Moderate one := by
  constructor
  · exact normal_ofParts 1 0
  · decide +kernel
  · decide +kernel

theorem Exact.round (h : M.Exact) (hd : Moderate d) : M.round d = pure d.round := by
  have hdigits := hd.digits_le
  have hmax : Precision.maxDigits = 1000 := rfl
  have hprecision : ((Precision.maxDigits : ℤ) + (d.digits : ℤ).toNat).toNat =
      ((Precision.ofRequest Precision.maxDigits).guard d.digits).digits := rfl
  have hhalf : M.ofParts 5 (-1) = pure half := h.ofParts (by decide +kernel) (by decide)
  obtain ⟨hsum, hroomy⟩ := h.add hd moderate_half (p := (Precision.ofRequest Precision.maxDigits).guard d.digits)
    (by rw [← hprecision]; omega)
  unfold Machine.round Decimal.round
  rw [h.short_of (by omega) (by omega), pure_bind, h.short_of (by omega) (by omega), pure_bind, hhalf, pure_bind,
    hprecision, hsum, pure_bind, h.floor hroomy]

/-! ### Powers and roots -/

theorem Exact.powLoop (h : M.Exact) (hp : p.digits ≤ 1100000000) {base acc : Decimal} (hbase : Moderate base)
    (hacc : Moderate acc) (n : ℕ) : M.powLoop p.digits base acc n = pure (Decimal.powLoop p base acc n) := by
  induction n using Nat.strong_induction_on generalizing base acc with
  | _ n ih =>
    have hfactor : (if n % 2 = 1 then M.mul? acc base p.digits else pure (some acc)) =
        pure (if n % 2 = 1 then acc.mul? base p else some acc) := by
      split
      · exact h.mul? hacc hbase (by omega)
      · rfl
    rw [Machine.powLoop, powLoop_eq, hfactor, pure_bind]
    split
    · rfl
    cases hproduct : (if n % 2 = 1 then acc.mul? base p else some acc) with
    | none => rfl
    | some product =>
      have hmoderate : Moderate product := by
        split at hproduct
        · exact .of_mul? hp hproduct
        · exact Option.some.inj hproduct ▸ hacc
      rw [Option.bind_some]
      dsimp only
      split
      · rfl
      rw [h.mul? hbase hbase (by omega), pure_bind]
      cases hsquare : base.mul? base p with
      | none => rfl
      | some square => exact ih (n / 2) (by omega) (.of_mul? hp hsquare) hmoderate

/-- The guard digits of a power are as many as its exponent has, which fits in a word. -/
theorem Exact.powInt? (h : M.Exact) (hd : Moderate d) (hp : p.digits ≤ 1000000000) {n : ℤ} (hn : fitsWord n = true) :
    M.powInt? d n p.digits = pure (d.powInt? n p) := by
  have hbounds := of_decide_eq_true hn
  have hcount : Digits.count n.natAbs ≤ 19 := (Digits.count_le_iff (by decide)).mpr (by omega)
  have hguard : guardDigits = 10 := rfl
  have hdigits : ((p.digits : ℤ) + ((guardDigits : ℤ) + ((Digits.count n.natAbs : ℤ)).toNat).toNat).toNat =
      (p.guard (guardDigits + Digits.count n.natAbs)).digits := rfl
  unfold Machine.powInt? Decimal.powInt?
  rw [h.short_of (by omega) (by omega), pure_bind, h.short_of (by omega) (by omega), pure_bind,
    h.short_of (by omega) (by omega), pure_bind, hdigits]
  split
  · rfl
  split
  · rfl
  have hprecision : (p.guard (guardDigits + Digits.count n.natAbs)).digits ≤ 1100000000 := by
    rw [← hdigits]
    omega
  dsimp only
  generalize p.guard (guardDigits + Digits.count n.natAbs) = wp at hprecision ⊢
  rw [h.powLoop hprecision hd moderate_one, pure_bind]
  cases hpower : Decimal.powLoop wp d one n.natAbs with
  | none => rfl
  | some power =>
    have hmoderate : Moderate power := of_powLoop (fun _ _ _ => .of_mul? hprecision) moderate_one hpower
    show _ = pure (if n < 0 then (one.div? power wp).bind fun inverse => some (inverse.roundTo p)
      else some (power.roundTo p))
    dsimp only
    split
    · rw [h.div? moderate_one hmoderate (by omega), pure_bind]
      cases hinverse : one.div? power wp with
      | none => rfl
      | some inverse =>
        dsimp only
        rw [h.roundTo (Moderate.of_div? hprecision hinverse).roomy (by omega), pure_bind, Option.bind_some]
    · rw [pure_bind]
      dsimp only
      rw [h.roundTo hmoderate.roomy (by omega), pure_bind]

theorem Exact.rootOfPositive (h : M.Exact) (hd : Moderate d) (hp : p.digits ≤ 1000000000) {k : ℕ} (hk : 0 < k)
    (hk3 : k ≤ 3) : M.rootOfPositive k d p.digits = pure (d.rootOfPositive k p) := by
  have hdigits := hd.digits_le
  have hexponent := hd.exponent_le
  have hproduct : k * (p.digits + 2) ≤ 3 * (p.digits + 2) := Nat.mul_le_mul_right _ hk3
  have hcast : (k : ℤ) * (p.digits + 2) = (k * (p.digits + 2) : ℕ) := by
    push_cast
    rfl
  unfold Machine.rootOfPositive Decimal.rootOfPositive
  rw [h.word_of (by omega), pure_bind, hcast, h.word_of (by omega), pure_bind, h.word_of (by omega), pure_bind]
  have hpadding : max ((k * (p.digits + 2) : ℕ) - d.digits : ℤ) 0 = (k * (p.digits + 2) - d.digits : ℕ) := by omega
  dsimp only
  rw [hpadding]
  generalize hplaces : k * (p.digits + 2) - d.digits = padding
  have hrest := Int.emod_nonneg (d.exponent - padding) (b := k) (by omega)
  have hrest' := Int.emod_lt_of_pos (d.exponent - padding) (b := k) (by omega)
  have hshift : (padding : ℤ) + (d.exponent - padding) % k = (padding + ((d.exponent - padding) % k).toNat : ℕ) := by
    omega
  rw [h.word_of (by omega), pure_bind, hshift, h.word_of (by omega), pure_bind, h.power_of (by omega) (by omega),
    pure_bind, Int.toNat_natCast, h.word_of (by omega), pure_bind]
  generalize hsum : padding + ((d.exponent - padding) % k).toNat = shift at hshift ⊢
  have hroot : rootFloor k (d.mantissa.natAbs * pow10 shift) ≤ d.mantissa.natAbs * pow10 shift :=
    (Nat.le_self_pow hk.ne' _).trans (rootFloor_spec hk _).1
  have hcount := (Digits.count_mono hroot).trans (Digits.count_mul_pow10_le _ _)
  have hexponent' := Int.natAbs_ediv_le_natAbs (d.exponent - shift) k
  have hsame : d.digits = Digits.count d.mantissa.natAbs := rfl
  obtain ⟨hsticky, hroomy⟩ := h.withSticky (hcount.trans (by omega)) (hexponent'.trans (by omega))
    (Nat.pow (rootFloor k (d.mantissa.natAbs * pow10 shift)) k == d.mantissa.natAbs * pow10 shift)
  rw [hsticky, pure_bind, h.roundTo hroomy (by omega)]

theorem Exact.sqrt? (h : M.Exact) (hd : Moderate d) (hp : p.digits ≤ 1000000000) :
    M.sqrt? d p.digits = pure (d.sqrt? p) := by
  unfold Machine.sqrt? Decimal.sqrt?
  rw [h.rootOfPositive hd hp (by decide) (by decide), pure_bind]
  split_ifs <;> rfl

theorem Exact.cbrt (h : M.Exact) (hd : Moderate d) (hp : p.digits ≤ 1000000000) :
    M.cbrt d p.digits = pure (d.cbrt p) := by
  unfold Machine.cbrt Decimal.cbrt
  rw [h.rootOfPositive hd.abs hp (by decide) (by decide), pure_bind]
  split_ifs <;> rfl

end

/-! ### All operations -/

/-- The machine gets through each operation, with the result that numbers of any size have. -/
structure Computes (M : Machine m) (a b : Decimal) (n : ℤ) (p : Precision) : Prop where
  compare : M.compare a b = pure (a.compare b)
  roundTo : M.roundTo a p.digits = pure (a.roundTo p)
  add : M.add a b p.digits = pure (a.add b p)
  sub : M.sub a b p.digits = pure (a.sub b p)
  mul : M.mul a b p.digits = pure (a.mul b p)
  mul? : M.mul? a b p.digits = pure (a.mul? b p)
  div? : M.div? a b p.digits = pure (a.div? b p)
  rem? : M.rem? a b p.digits = pure (a.rem? b p)
  floor : M.floor a = pure a.floor
  ceil : M.ceil a = pure a.ceil
  round : M.round a = pure a.round
  powInt? : M.powInt? a n p.digits = pure (a.powInt? n p)
  sqrt? : M.sqrt? a p.digits = pure (a.sqrt? p)
  cbrt : M.cbrt a p.digits = pure (a.cbrt p)

section
variable {a b : Decimal} {p : Precision}

theorem Exact.computes (h : M.Exact) (ha : Moderate a) (hb : Moderate b) (hp : p.digits ≤ 1000000000) {n : ℤ}
    (hn : fitsWord n = true) : M.Computes a b n p where
  compare := h.compare ha.roomy hb.roomy
  roundTo := h.roundTo ha.roomy (by omega)
  add := (h.add ha hb (by omega)).1
  sub := (h.add ha hb.neg (by omega)).1
  mul := h.mul ha hb (by omega)
  mul? := h.mul? ha hb (by omega)
  div? := h.div? ha hb (by omega)
  rem? := h.rem? ha hb (by omega)
  floor := h.floor ha.roomy
  ceil := h.ceil ha.roomy
  round := h.round ha
  powInt? := h.powInt? ha hp hn
  sqrt? := h.sqrt? ha hp
  cbrt := h.cbrt ha hp

/-- For numbers in range with at most a million digits, and precisions as great, the machine that stops at what does not
fit never stops, and so the machine that keeps the low bits loses none. -/
theorem words_suffice (ha : a.Normal) (harange : a.inRange = true) (hadigits : a.digits ≤ 1000000) (hb : b.Normal)
    (hbrange : b.inRange = true) (hbdigits : b.digits ≤ 1000000) (hp : p.digits ≤ 1000000) {n : ℤ}
    (hn : fitsWord n = true) : checking.Computes a b n p ∧ wrapping.Computes a b n p := by
  have ha' : Moderate a := ⟨ha, harange, hadigits.trans (by decide)⟩
  have hb' : Moderate b := ⟨hb, hbrange, hbdigits.trans (by decide)⟩
  have hp' : p.digits ≤ 1000000000 := hp.trans (by decide)
  exact ⟨checking_exact.computes ha' hb' hp' hn, wrapping_exact.computes ha' hb' hp' hn⟩

/-- The exponents are as far apart as the range allows, and the power has the least exponent of all. -/
theorem words_suffice_at_ends : checking.Computes ⟨-7, 1000000000000000⟩ ⟨3, -1000000000000000⟩ (-9223372036854775808)
      ⟨1000000, by decide⟩ ∧ wrapping.Computes ⟨-7, 1000000000000000⟩ ⟨3, -1000000000000000⟩ (-9223372036854775808)
      ⟨1000000, by decide⟩ :=
  words_suffice (.inr (by decide)) (by decide +kernel) (by decide +kernel) (.inr (by decide)) (by decide +kernel)
    (by decide +kernel) le_rfl (by decide)

end

/-! ### Shifts and guards beyond 32 bits -/

/-- A third of one is no small number with two digits. -/
theorem not_isRounding_third {p : ℕ} (hp : 0 < p) {e : ℤ} (he : e ≤ -3) : ¬IsRounding p (1 / 3) (31 * 10 ^ e) := by
  intro h
  have hthree : Fits p (3 / 10) := by
    refine ⟨3, -1, ?_, by norm_num⟩
    calc |(3 : ℤ)| < 10 ^ 1 := by norm_num
      _ ≤ 10 ^ p := pow_le_pow_right₀ (by norm_num) hp
  have hsmall : (10 : ℚ) ^ e ≤ 10 ^ (-3 : ℤ) := ten_zpow_le.mpr he
  have hpos := ten_zpow_pos e
  have hnear := h.nearest _ hthree
  rw [abs_of_pos (by norm_num at hsmall; linarith), abs_of_pos (by norm_num)] at hnear
  norm_num at hsmall hnear
  linarith

/-- At the greatest precision the shift of a dividend loses its high bit. -/
theorem third_loses_digits : Id.run (wrapping.div? one (ofInt 3) 4294967295) = some ⟨31, -4294967298⟩ ∧
    ¬IsRounding 4294967295 (one.toRat / (ofInt 3).toRat) (toRat ⟨31, -4294967298⟩) := by
  have hquotient : Id.run (wrapping.div? one (ofInt 3) 4294967295) = some ⟨31, -4294967298⟩ := by decide +kernel
  have hvalue : one.toRat / (ofInt 3).toRat = 1 / 3 := by
    rw [toRat_one, toRat_ofInt, Int.cast_ofNat]
  refine ⟨hquotient, ?_⟩
  rw [hvalue, toRat, Int.cast_ofNat]
  exact not_isRounding_third (by decide) (by decide)

/-- So does the shift of a square, at half that precision. -/
theorem square_root_loses_place : Id.run (wrapping.sqrt? (ofInt 4) 2147483648) = some ⟨2, -2147483648⟩ ∧
    toRat ⟨2, -2147483648⟩ ≠ 2 := by
  have hroot : Id.run (wrapping.sqrt? (ofInt 4) 2147483648) = some ⟨2, -2147483648⟩ := by decide +kernel
  refine ⟨hroot, fun hvalue => ?_⟩
  have hnormal : Normal ⟨2, -2147483648⟩ := .inr (by decide)
  have htwo : (ofInt 2).toRat = 2 := by rw [toRat_ofInt, Int.cast_ofNat]
  exact absurd (hnormal.eq_of_toRat (normal_ofParts 2 0) (hvalue.trans htwo.symm)) (by decide +kernel)

/-- Numbers whose distance needs such a shift are not told apart by their difference. -/
theorem difference_vanishes : Id.run (wrapping.compare ⟨1, 4294967296⟩ one) = .gt ∧
    Id.run (wrapping.sub ⟨1, 4294967296⟩ one 4294967295) = zero := by
  constructor <;> decide +kernel

/-- With its guard digits the precision starts from zero again. -/
theorem power_vanishes : Id.run (wrapping.powInt? (ofInt 3) 1 4294967285) = some zero ∧
    zero.toRat ≠ (ofInt 3).toRat ^ (1 : ℤ) := by
  have hpower : Id.run (wrapping.powInt? (ofInt 3) 1 4294967285) = some zero := by decide +kernel
  refine ⟨hpower, ?_⟩
  rw [toRat_zero, toRat_ofInt]
  norm_num

end Machine
end Calculator
