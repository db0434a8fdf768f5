import Calculator.Decimal.Hyperbolic
import Calculator.Decimal.Trigonometric
import Calculator.Proofs.Decimal.Integral
/-!
The digits of the values of functions. Each function ends in a rounding to the precision it is asked for, of a number
in normal form; only a logarithm may end in the nearest whole number instead.
-/
namespace Calculator.Decimal

variable {x c : Decimal} {p : Precision}

/-! ### Sums of series -/

namespace Series

/-- Sums of terms in normal form are in normal form. -/
theorem normal_run {σ : Type} {next : σ → Option (Decimal × σ)}
    (hnext : ∀ s t s', next s = some (t, s') → t.Normal) {steps : ℕ} {s : σ} {sum : Decimal} (hsum : sum.Normal)
    {ending : Ending} (h : run p next steps s sum = some ending) : ending.sum.Normal := by
  induction steps generalizing s sum with
  | zero => cases h
  | succ steps ih =>
    rw [run] at h
    split at h
    · cases h
      exact hsum
    · rename_i term state hterm
      split at h
      · cases h
        exact hsum
      · exact ih (hsum.add (hnext _ _ _ hterm) p).normal h

theorem normal_expNext {r : Decimal} {s s' : Position} (h : expNext p r s = some (c, s')) : c.Normal := by
  obtain ⟨term, hterm, h⟩ := Option.bind_eq_some_iff.mp h
  cases h
  exact (within_of_div? hterm).normal

theorem normal_factorialNext {square : Decimal} {alternating : Bool} {s s' : Position}
    (h : factorialNext p square alternating s = some (c, s')) : c.Normal := by
  obtain ⟨term, hterm, h⟩ := Option.bind_eq_some_iff.mp h
  cases h
  exact (within_of_div? hterm).normal.negIf _

theorem normal_exp? {ending : Ending} (h : exp? p x = some ending) : ending.sum.Normal :=
  normal_run (fun _ _ _ => normal_expNext) (within_one p).normal h

theorem normal_oddFactorials? (hx : x.Normal) {alternating : Bool} {ending : Ending}
    (h : oddFactorials? p alternating x = some ending) : ending.sum.Normal :=
  normal_run (fun _ _ _ => normal_factorialNext) hx h

theorem normal_evenFactorials? {ending : Ending} (h : evenFactorials? p x = some ending) : ending.sum.Normal :=
  normal_run (fun _ _ _ => normal_factorialNext) (within_one p).normal h

theorem Ending.sum_of_settled? {ending : Ending} (h : ending.settled? = some c) : ending.sum = c := by
  cases ending with
  | settled sum => exact Option.some.inj h
  | escaped sum => cases h

/-- The sum that stands in for one that does not end is in normal form, if they all are. -/
theorem normal_sum {ending? : Option Ending} (hsum : ∀ ending, ending? = some ending → ending.sum.Normal)
    (hc : c.Normal) : ((ending?.map Ending.sum).getD c).Normal := by
  cases ending? with
  | none => exact hc
  | some ending => exact hsum ending rfl

end Series

/-! ### Roots, powers and logarithms -/

theorem within_rootOfPositive (k : ℕ) (x : Decimal) (p : Precision) : (x.rootOfPositive k p).Within p :=
  (normal_withSticky _ _ _).roundTo p

theorem within_of_sqrt? (h : x.sqrt? p = some c) : c.Within p := by
  unfold sqrt? at h
  split at h
  · cases h
  split at h
  · exact Option.some.inj h ▸ within_zero p
  · exact Option.some.inj h ▸ within_rootOfPositive 2 x p

theorem rootFrom_le (k n x : ℕ) : rootFrom k n x ≤ x := by
  fun_induction rootFrom k n x with
  | case1 x y h ih => exact ih.trans h.le
  | case2 => exact le_rfl

theorem rootFloor_le (k n : ℕ) : rootFloor k n ≤ 2 * n := by
  unfold rootFloor
  split
  · exact Nat.zero_le _
  · rename_i hn
    calc rootFrom k n (pow2 (n.log2 / k + 1))
        ≤ 2 ^ (n.log2 / k + 1) := rootFrom_le ..
      _ ≤ 2 ^ (n.log2 + 1) := Nat.pow_le_pow_right (by decide) (Nat.succ_le_succ (Nat.div_le_self ..))
      _ = 2 * 2 ^ n.log2 := pow_succ' ..
      _ ≤ 2 * n := Nat.mul_le_mul_left 2 (Nat.log2_self_le hn)

theorem toRat_root_le {k n b : ℕ} {e : ℤ} (he : e ≤ 0) (hn : 2 * n + 1 ≤ 10 ^ b) (exact : Bool) :
    ((withSticky (rootFloor k n) exact e).roundTo p).toRat ≤ 10 ^ (b : ℤ) := by
  obtain ⟨r, hlow, hhigh, hvalue⟩ := toRat_withSticky (rootFloor k n) exact e
  have hr : r ≤ 10 ^ (b : ℤ) := by
    have hle : (rootFloor k n + 1 : ℚ) ≤ 10 ^ b := by
      exact_mod_cast (Nat.succ_le_succ (rootFloor_le k n)).trans hn
    rw [zpow_natCast]
    exact hhigh.le.trans hle
  have hone : (10 : ℚ) ^ e ≤ 1 := (ten_zpow_le.mpr he).trans_eq (zpow_zero _)
  have hmono := rounded_mono p.digits_pos ((mul_le_of_le_one_right ((Nat.cast_nonneg _).trans hlow) hone).trans hr)
  rw [rounded_of_fits (fits_ten_zpow p.digits_pos _)] at hmono
  rwa [toRat_roundTo, hvalue]

/-- The square root of five is not huge, as far as the number of places goes that it is computed with. -/
theorem sqrt_five_le (p : Precision) : ((ofInt 5).rootOfPositive 2 p).toRat ≤ 10 ^ (2 * p.digits + 6 : ℤ) := by
  have hexponent : (ofInt 5).exponent = 0 := by decide +kernel
  have hmantissa : (ofInt 5).mantissa = 5 := by decide +kernel
  have hdigits : (ofInt 5).digits = 1 := by decide +kernel
  unfold rootOfPositive
  rw [hexponent, hmantissa, hdigits]
  dsimp only
  set shift := 2 * (p.digits + 2) - 1 + ((0 - (2 * (p.digits + 2) - 1 : ℕ) : ℤ) % (2 : ℕ)).toNat with hshift
  have hplaces : shift ≤ 2 * p.digits + 4 := by omega
  have hscaled : 2 * (Int.natAbs 5 * pow10 shift) + 1 ≤ 10 ^ (2 * p.digits + 6) := by
    have hpower : 10 ^ shift ≤ 10 ^ (2 * p.digits + 4) := Nat.pow_le_pow_right (by decide) hplaces
    have hone : 1 ≤ 10 ^ (2 * p.digits + 4) := Nat.one_le_pow _ _ (by decide)
    have hsucc : 10 ^ (2 * p.digits + 6) = 100 * 10 ^ (2 * p.digits + 4) := by ring
    have hfive : Int.natAbs 5 = 5 := rfl
    rw [hsucc, pow10_eq, hfive]
    omega
  have hplace : (0 - shift : ℤ) / (2 : ℕ) ≤ 0 := by omega
  exact_mod_cast toRat_root_le hplace hscaled _

theorem toRat_rootOfPositive_nonneg (k : ℕ) (x : Decimal) (p : Precision) : 0 ≤ (x.rootOfPositive k p).toRat := by
  unfold rootOfPositive
  dsimp only
  obtain ⟨r, hlow, -, hvalue⟩ := toRat_withSticky (rootFloor k (x.mantissa.natAbs * pow10
    (k * (p.digits + 2) - x.digits + ((x.exponent - (k * (p.digits + 2) - x.digits : ℕ)) % k).toNat))) _ _
  rw [toRat_roundTo, hvalue, ← rounded_zero p.digits]
  exact rounded_mono p.digits_pos (mul_nonneg ((Nat.cast_nonneg _).trans hlow) (ten_zpow_pos _).le)

theorem within_cbrt (x : Decimal) (p : Precision) : (x.cbrt p).Within p := by
  unfold cbrt
  split
  · exact within_zero p
  · exact (within_rootOfPositive ..).negIf _

theorem powLoop_eq (p : Precision) (base acc : Decimal) (n : ℕ) : powLoop p base acc n =
    if n = 0 then some acc
    else (if n % 2 = 1 then acc.mul? base p else some acc).bind fun acc =>
      if n / 2 = 0 then some acc else (base.mul? base p).bind fun square => powLoop p square acc (n / 2) := by
  rw [powLoop]
  dsimp only
  by_cases hodd : n % 2 = 1
  · rw [if_pos hodd, if_pos hodd]
    rfl
  · rw [if_neg hodd, if_neg hodd]
    rfl

/-- What holds of the start and of every product holds of the power. -/
theorem of_powLoop {P : Decimal → Prop} (hmul : ∀ a b c : Decimal, a.mul? b p = some c → P c) {base acc : Decimal}
    {n : ℕ} (hacc : P acc) (h : powLoop p base acc n = some c) : P c := by
  induction n using Nat.strong_induction_on generalizing base acc with
  | _ n ih =>
    rw [powLoop_eq] at h
    split at h
    · exact Option.some.inj h ▸ hacc
    obtain ⟨acc', hacc', h⟩ := Option.bind_eq_some_iff.mp h
    have hproduct : P acc' := by
      split at hacc'
      · exact hmul _ _ _ hacc'
      · exact Option.some.inj hacc' ▸ hacc
    split at h
    · exact Option.some.inj h ▸ hproduct
    · obtain ⟨square, -, h⟩ := Option.bind_eq_some_iff.mp h
      exact ih (n / 2) (by omega) hproduct h

theorem within_of_powInt? {n : ℤ} (h : x.powInt? n p = some c) : c.Within p := by
  unfold powInt? at h
  split at h
  · exact Option.some.inj h ▸ within_one p
  split at h
  · split at h
    · cases h
    · exact Option.some.inj h ▸ within_zero p
  obtain ⟨power, hpower, h⟩ := Option.bind_eq_some_iff.mp h
  dsimp only at h
  split at h
  · obtain ⟨inverse, hinverse, h⟩ := Option.bind_eq_some_iff.mp h
    exact Option.some.inj h ▸ (within_of_div? hinverse).normal.roundTo p
  · have hnormal := of_powLoop (fun _ _ _ h => (within_of_mul? h).normal) (within_one p).normal hpower
    exact Option.some.inj h ▸ hnormal.roundTo p

theorem Normal.squareTimes (hx : x.Normal) (n : ℕ) : (squareTimes p n x).Normal := by
  induction n generalizing x with
  | zero => exact hx
  | succ n ih => exact ih (within_mul x x p).normal

theorem within_of_exp? (h : x.exp? p = some c) : c.Within p := by
  unfold exp? at h
  split at h
  · exact Option.some.inj h ▸ within_one p
  dsimp only at h
  split at h
  · split at h
    · exact Option.some.inj h ▸ within_zero p
    · cases h
  obtain ⟨ending, hending, h⟩ := Option.bind_eq_some_iff.mp h
  obtain ⟨sum, hsum, h⟩ := Option.bind_eq_some_iff.mp h
  have hnormal := Series.Ending.sum_of_settled? hsum ▸ Series.normal_exp? hending
  exact Option.some.inj h ▸ (hnormal.squareTimes _).roundTo p

theorem normal_lnNearOne? (h : x.lnNearOne? p = some c) : c.Normal := by
  obtain ⟨⟨m, roots⟩, -, h⟩ := Option.bind_eq_some_iff.mp h
  obtain ⟨z, -, h⟩ := Option.bind_eq_some_iff.mp h
  obtain ⟨ending, -, h⟩ := Option.bind_eq_some_iff.mp h
  obtain ⟨sum, -, h⟩ := Option.bind_eq_some_iff.mp h
  exact Option.some.inj h ▸ (within_mul ..).normal

theorem within_of_ln? (h : x.ln? p = some c) : c.Within p := by
  unfold ln? at h
  split at h
  · cases h
  split at h
  · exact Option.some.inj h ▸ within_zero p
  obtain ⟨lnMantissa, hmantissa, h⟩ := Option.bind_eq_some_iff.mp h
  have hnormal := normal_lnNearOne? hmantissa
  dsimp only at h
  split at h
  · exact Option.some.inj h ▸ hnormal.roundTo p
  · obtain ⟨ln10, -, h⟩ := Option.bind_eq_some_iff.mp h
    exact Option.some.inj h ▸ (hnormal.add (within_mul ..).normal _).normal.roundTo p

/-- A logarithm may be a whole number that is found by rounding a number with so many digits. -/
theorem bounded_of_logBase? {base : Decimal} (h : logBase? base x p = some c) : c.Bounded p := by
  obtain ⟨lnX, -, h⟩ := Option.bind_eq_some_iff.mp h
  obtain ⟨lnBase, -, h⟩ := Option.bind_eq_some_iff.mp h
  obtain ⟨quotient, hquotient, h⟩ := Option.bind_eq_some_iff.mp h
  have hrounded := ((within_of_div? hquotient).normal.roundTo p).bounded
  dsimp only at h
  split at h
  · exact Option.some.inj h ▸ hrounded.round
  · exact Option.some.inj h ▸ hrounded

theorem within_of_powReal? {exponent : Decimal} (h : x.powReal? exponent p = some c) : c.Within p := by
  unfold powReal? at h
  split at h
  · split at h
    · cases h
    · exact Option.some.inj h ▸ within_zero p
  dsimp only at h
  split at h
  all_goals
    obtain ⟨flip, -, h⟩ := Option.bind_eq_some_iff.mp h
    obtain ⟨log, -, h⟩ := Option.bind_eq_some_iff.mp h
    obtain ⟨power, hpower, h⟩ := Option.bind_eq_some_iff.mp h
    exact Option.some.inj h ▸ (within_of_exp? hpower).negIf flip

theorem within_of_pow? {exponent : Decimal} (h : x.pow? exponent p = some c) : c.Within p := by
  unfold pow? at h
  split at h
  · split at h
    · exact within_of_powInt? h
    · exact within_of_powReal? h
  · exact within_of_powReal? h

/-! ### Hyperbolic functions -/

theorem Normal.of_sinh? (hx : x.Normal) (h : x.sinh? p = some c) : c.Within p := by
  unfold sinh? at h
  dsimp only at h
  split at h
  · exact Option.some.inj h ▸ (Series.normal_sum (fun _ => Series.normal_oddFactorials? hx) hx).roundTo p
  · obtain ⟨pair, -, h⟩ := Option.bind_eq_some_iff.mp h
    obtain ⟨result, hresult, h⟩ := Option.bind_eq_some_iff.mp h
    exact Option.some.inj h ▸ (within_of_div? hresult).normal.roundTo p

theorem within_of_cosh? (h : x.cosh? p = some c) : c.Within p := by
  obtain ⟨pair, -, h⟩ := Option.bind_eq_some_iff.mp h
  obtain ⟨result, hresult, h⟩ := Option.bind_eq_some_iff.mp h
  exact Option.some.inj h ▸ (within_of_div? hresult).normal.roundTo p

theorem within_tanh (x : Decimal) (p : Precision) : (x.tanh p).Within p := by
  unfold tanh
  dsimp only
  split
  · rename_i ratio hratio
    obtain ⟨sinh, -, hratio⟩ := Option.bind_eq_some_iff.mp hratio
    obtain ⟨cosh, -, hratio⟩ := Option.bind_eq_some_iff.mp hratio
    exact (within_of_div? hratio).normal.roundTo p
  · exact (within_one p).negIf _

theorem Normal.of_belowCubicTerm? (hx : x.Normal) (h : x.belowCubicTerm? p = some c) : c.Within p := by
  unfold belowCubicTerm? at h
  split at h
  · exact Option.some.inj h ▸ hx.roundTo p
  · cases h

theorem Normal.of_asinh? (hx : x.Normal) (h : x.asinh? p = some c) : c.Within p := by
  unfold asinh? at h
  split at h
  · exact Option.some.inj h ▸ within_zero p
  split at h
  · rename_i htiny
    exact Option.some.inj h ▸ hx.of_belowCubicTerm? htiny
  · obtain ⟨root, -, h⟩ := Option.bind_eq_some_iff.mp h
    obtain ⟨result, hresult, h⟩ := Option.bind_eq_some_iff.mp h
    exact Option.some.inj h ▸ ((within_of_ln? hresult).normal.negIf _).roundTo p

theorem within_of_acosh? (h : x.acosh? p = some c) : c.Within p := by
  unfold acosh? at h
  split at h
  · cases h
  obtain ⟨root, -, h⟩ := Option.bind_eq_some_iff.mp h
  obtain ⟨result, hresult, h⟩ := Option.bind_eq_some_iff.mp h
  exact Option.some.inj h ▸ (within_of_ln? hresult).normal.roundTo p

theorem Normal.of_atanh? (hx : x.Normal) (h : x.atanh? p = some c) : c.Within p := by
  unfold atanh? at h
  split at h
  · cases h
  split at h
  · exact Option.some.inj h ▸ within_zero p
  split at h
  · rename_i htiny
    exact Option.some.inj h ▸ hx.of_belowCubicTerm? htiny
  · obtain ⟨ratio, -, h⟩ := Option.bind_eq_some_iff.mp h
    obtain ⟨result, -, h⟩ := Option.bind_eq_some_iff.mp h
    exact Option.some.inj h ▸ (within_mul ..).normal.roundTo p

/-! ### Trigonometric functions -/

theorem within_pi (p : Precision) : (pi p).Within p := (normal_ofParts _ _).roundTo p

theorem Normal.reduceAngle (hx : x.Normal) (p : Precision) : (x.reduceAngle p).Normal := by
  unfold Decimal.reduceAngle
  dsimp only
  split
  · exact hx
  split
  · exact hx
  · exact (hx.sub (within_mul ..).normal p).normal

theorem Normal.sinReduced (hx : x.Normal) (p : Precision) : (x.sinReduced p).Normal :=
  Series.normal_sum (fun _ => Series.normal_oddFactorials? hx) hx

theorem normal_cosReduced (x : Decimal) (p : Precision) : (x.cosReduced p).Normal :=
  Series.normal_sum (fun _ => Series.normal_evenFactorials?) (within_one p).normal

theorem Normal.of_sin? (hx : x.Normal) (h : x.sin? p = some c) : c.Within p := by
  obtain ⟨wp, -, h⟩ := Option.bind_eq_some_iff.mp h
  exact Option.some.inj h ▸ ((hx.reduceAngle wp).sinReduced wp).roundTo p

theorem within_of_cos? (h : x.cos? p = some c) : c.Within p := by
  obtain ⟨wp, -, h⟩ := Option.bind_eq_some_iff.mp h
  exact Option.some.inj h ▸ (normal_cosReduced _ wp).roundTo p

theorem within_of_tan? (h : x.tan? p = some c) : c.Within p := by
  obtain ⟨wp, -, h⟩ := Option.bind_eq_some_iff.mp h
  obtain ⟨quotient, hquotient, h⟩ := Option.bind_eq_some_iff.mp h
  exact Option.some.inj h ▸ (within_of_div? hquotient).normal.roundTo p

theorem within_atanWithinOne (x : Decimal) (p : Precision) : (x.atanWithinOne p).Within p := by
  unfold atanWithinOne
  split
  · exact within_zero p
  · exact (within_mul ..).normal.roundTo p

theorem normal_quarterTurn (p : Precision) : (quarterTurn p).Normal := (within_mul ..).normal

theorem within_atan (x : Decimal) (p : Precision) : (x.atan p).Within p := by
  unfold atan
  split
  · dsimp only
    split
    · exact within_zero p
    · exact (((normal_quarterTurn _).negIf _).sub (within_atanWithinOne ..).normal _).normal.roundTo p
  · exact within_atanWithinOne x p

theorem within_of_asin? (h : x.asin? p = some c) : c.Within p := by
  unfold asin? at h
  dsimp only at h
  split at h
  · cases h
  · exact Option.some.inj h ▸ ((normal_quarterTurn _).negIf _).roundTo p
  · obtain ⟨cosine, -, h⟩ := Option.bind_eq_some_iff.mp h
    obtain ⟨tangent, -, h⟩ := Option.bind_eq_some_iff.mp h
    exact Option.some.inj h ▸ within_atan tangent p

theorem within_of_acos? (h : x.acos? p = some c) : c.Within p := by
  obtain ⟨arcsine, harcsine, h⟩ := Option.bind_eq_some_iff.mp h
  exact Option.some.inj h ▸ ((normal_quarterTurn _).sub (within_of_asin? harcsine).normal _).normal.roundTo p

/-! ### Literals and doubles -/

theorem normal_of_ofDigits? {negative : Bool} {digits : ℕ} {exponent : ℤ}
    (h : ofDigits? negative digits exponent = some c) : c.Normal := by
  unfold ofDigits? at h
  dsimp only at h
  split at h
  · exact Option.some.inj h ▸ normal_ofParts _ _
  · cases h

theorem normal_of_parse {text : String} (h : parse text = .ok c) : c.Normal := by
  unfold parse at h
  dsimp only at h
  split at h
  · cases h
  split at h
  · cases h
  · cases h
  split at h
  · exact Except.ok.inj h ▸ normal_zero
  split at h
  · rename_i hdigits
    exact Except.ok.inj h ▸ normal_of_ofDigits? hdigits
  · cases h

theorem normal_of_ofFloat? {value : Float} (h : ofFloat? value = some c) : c.Normal := by
  obtain ⟨parts, -, rfl⟩ := Option.map_eq_some_iff.mp h
  split
  · exact normal_zero
  · exact normal_ofParts _ _

end Calculator.Decimal
