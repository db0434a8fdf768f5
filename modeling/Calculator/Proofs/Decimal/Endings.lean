import Calculator.Proofs.Decimal.Arctangent
import Calculator.Proofs.Decimal.Logarithm
/-!
Every sum ends before its steps do, whatever the size of its argument. The sum itself has no part in the proof, since it may
cancel again and again and so keep a term from being negligible: from some index on each power is at most a tenth of the one
before, and a term that is added is in the exponent range, which has no more than so many places.
-/
namespace Calculator.Decimal

namespace Series

section
variable {p : Precision} {next : Position → Option (Decimal × Position)} {start s : Position} {first sum : Decimal}
  {k turn : ℕ}

/-! ### Shrinking powers -/

/-- What ends a sum: powers stay in the exponent range as long as terms are added, and behind the first `turn` of them
each is at most a tenth of the one before. -/
structure Shrinking (p : Precision) (next : Position → Option (Decimal × Position)) (start : Position) (first : Decimal)
    (turn : ℕ) : Prop where
  range {k : ℕ} {s s' : Position} {sum term : Decimal} (h : Gets p next start first k s sum)
    (hnext : next s = some (term, s')) (hterm : term.toRat ≠ 0) :
    10 ^ (-maxExponent) ≤ |s'.power.toRat| ∧ |s'.power.toRat| ≤ 10 ^ (maxExponent + 1)
  shrink {k : ℕ} {s s' : Position} {sum term : Decimal} (h : Gets p next start first k s sum)
    (hnext : next s = some (term, s')) (hturn : turn ≤ k) : 10 * |s'.power.toRat| ≤ |s.power.toRat|

/-- The power behind a term that was added. -/
theorem Shrinking.power_bounds (hs : Shrinking p next start first turn) (h : Gets p next start first (k + 1) s sum) :
    10 ^ (-maxExponent) ≤ |s.power.toRat| ∧ |s.power.toRat| ≤ 10 ^ (maxExponent + 1) := by
  cases h with
  | add h hnext hmore => exact hs.range h hnext (abs_le_of_not_negligible hmore).1

theorem Shrinking.power_le (hs : Shrinking p next start first turn) (h : Gets p next start first (turn + k + 1) s sum) :
    |s.power.toRat| * 10 ^ k ≤ 10 ^ (maxExponent + 1) := by
  induction k generalizing s sum with
  | zero => simpa using (hs.power_bounds h).2
  | succ k ih =>
    cases h with
    | add h hnext hmore =>
      have hbefore := ih h
      have htenth := hs.shrink h hnext (by omega)
      rw [pow_succ]
      linarith [mul_le_mul_of_nonneg_right htenth (by positivity : (0 : ℚ) ≤ 10 ^ k)]

/-- The places of the exponent range, from its lower end to its upper one. -/
def rangePlaces : ℕ := 2 * maxExponent.toNat + 3

/-- Behind the first terms no more are added than the exponent range has places. -/
theorem Shrinking.lt_of_gets (hs : Shrinking p next start first turn) (h : Gets p next start first k s sum) :
    k < turn + rangePlaces := by
  by_contra! hle
  obtain ⟨j, rfl⟩ : ∃ j, k = turn + j + 1 := ⟨k - turn - 1, by unfold rangePlaces at hle; omega⟩
  have hlow := (hs.power_bounds h).1
  have hspan : (10 : ℚ) ^ (-maxExponent + j) ≤ 10 ^ (maxExponent + 1) := by
    calc (10 : ℚ) ^ (-maxExponent + j) = 10 ^ (-maxExponent) * 10 ^ j := by rw [ten_zpow_add, zpow_natCast]
      _ ≤ |s.power.toRat| * 10 ^ j := by gcongr
      _ ≤ 10 ^ (maxExponent + 1) := hs.power_le h
  have hplaces := ten_zpow_le.mp hspan
  unfold rangePlaces maxExponent at *
  omega

/-- A sum whose powers shrink in time ends before its steps do. -/
theorem Shrinking.exists_ending (hs : Shrinking p next start first turn) {steps : ℕ} (hsteps : turn + rangePlaces ≤ steps) :
    ∃ ending, run p next steps start first = some ending := by
  obtain ⟨ending, hrun, -⟩ := Gets.start.run steps fun j s sum hj => by
    have hless := hs.lt_of_gets hj
    omega
  exact ⟨ending, hrun⟩

end

/-! ### Steps -/

theorem turnOf_add_rangePlaces_le (x : Decimal) : turnOf x + rangePlaces ≤ steps x := by
  have hturn := two_mul_turnOf_le x
  rw [steps, pow10_eq]
  unfold rangePlaces maxExponent
  omega

/-! ### Terms that are found -/

section
variable {p : Precision} {x term square : Decimal} {alternating : Bool} {s s' : Position}

theorem div?_ofInt_eq_some {a c : Decimal} {n : ℕ} (hn : 0 < n) (h : a.div? (ofInt n) p = some c) :
    |c.toRat| = rounded p.digits (|a.toRat| / n) ∧ Representable c.toRat := by
  have hdivisor : (ofInt n).toRat = n := by rw [toRat_ofInt, Int.cast_natCast]
  obtain ⟨d, hd, hdiv⟩ := div?_eq a (b := ofInt n) (p := p) (hdivisor.trans_ne (by positivity))
  obtain ⟨rfl, hrange⟩ := checked_eq_some_iff.mp (hdiv.symm.trans h)
  refine ⟨?_, hrange⟩
  rw [hd, hdivisor, abs_rounded p.digits_pos, abs_div, Nat.abs_cast]

theorem abs_negIf (flip : Bool) (d : Decimal) : |(d.negIf flip).toRat| = |d.toRat| := by
  rw [toRat_negIf]
  cases flip <;> simp

theorem abs_mul_eq (a b : Decimal) : |(a.mul b p).toRat| = rounded p.digits (|a.toRat| * |b.toRat|) := by
  rw [toRat_mul, abs_rounded p.digits_pos, abs_mul]

theorem representable_negIf (flip : Bool) {d : Decimal} (h : Representable d.toRat) :
    Representable (d.negIf flip).toRat := by
  rw [Representable, abs_negIf]
  refine h.imp_left fun hzero => ?_
  rw [← abs_eq_zero, abs_negIf, hzero, abs_zero]

theorem expNext_eq_some (h : expNext p x s = some (term, s')) :
    s' = ⟨term, s.index + 1⟩ ∧ Representable term.toRat ∧
      |term.toRat| = rounded p.digits (rounded p.digits (|s.power.toRat| * |x.toRat|) / (s.index + 1 : ℕ)) := by
  unfold expNext at h
  obtain ⟨c, hc, h⟩ := Option.bind_eq_some_iff.mp h
  obtain ⟨rfl, rfl⟩ := Prod.mk.injEq .. ▸ Option.some.inj h
  obtain ⟨hvalue, hrange⟩ := div?_ofInt_eq_some (Nat.succ_pos _) hc
  rw [abs_mul_eq] at hvalue
  exact ⟨rfl, hrange, hvalue⟩

theorem factorialNext_eq_some (h : factorialNext p square alternating s = some (term, s')) :
    s' = ⟨term, s.index + 2⟩ ∧ Representable term.toRat ∧ |term.toRat| =
      rounded p.digits (rounded p.digits (|s.power.toRat| * |square.toRat|) / ((s.index + 1) * (s.index + 2) : ℕ)) := by
  unfold factorialNext at h
  obtain ⟨c, hc, h⟩ := Option.bind_eq_some_iff.mp h
  obtain ⟨rfl, rfl⟩ := Prod.mk.injEq .. ▸ Option.some.inj h
  obtain ⟨hvalue, hrange⟩ := div?_ofInt_eq_some (by positivity) hc
  rw [abs_mul_eq] at hvalue
  exact ⟨rfl, representable_negIf _ hrange, (abs_negIf ..).trans hvalue⟩

theorem abs_of_oddPowerNext (h : oddPowerNext p square alternating s = some (term, s')) :
    Representable term.toRat ∧ |s'.power.toRat| = rounded p.digits (|s.power.toRat| * |square.toRat|) ∧
      |term.toRat| ≤ |s'.power.toRat| := by
  have hp := p.digits_pos
  unfold oddPowerNext at h
  obtain ⟨c, hc, h⟩ := Option.bind_eq_some_iff.mp h
  obtain ⟨rfl, rfl⟩ := Prod.mk.injEq .. ▸ Option.some.inj h
  obtain ⟨hvalue, hrange⟩ := div?_ofInt_eq_some (Nat.succ_pos _) hc
  have hpower : |((s.power.mul square p).negIf alternating).toRat| =
      rounded p.digits (|s.power.toRat| * |square.toRat|) := (abs_negIf ..).trans (abs_mul_eq ..)
  have hfits : Fits p.digits |((s.power.mul square p).negIf alternating).toRat| := hpower ▸ fits_rounded hp _
  refine ⟨hrange, hpower, ?_⟩
  rw [hvalue]
  refine hfits.rounded_le hp (div_le_self (abs_nonneg _) ?_)
  exact_mod_cast Nat.succ_pos _

/-- A term that is found is in range. -/
theorem bounds_of_representable {q : ℚ} (h : Representable q) (hq : q ≠ 0) :
    10 ^ (-maxExponent) ≤ |q| ∧ |q| ≤ 10 ^ (maxExponent + 1) :=
  ((representable_iff hq).mp h).imp_right le_of_lt

end

/-! ### The sums -/

section
variable {p : Precision} {x : Decimal}

/-- A rounded quotient of a rounded product is at most a tenth of the first factor, if the divisor is large enough. -/
theorem tenth_of_quotient (hp : 8 ≤ p.digits) {power factor divisor term : ℚ} (hpower : 0 ≤ power) (hfactor : 0 ≤ factor)
    (hdivisor : 0 < divisor) (hlarge : 20 * factor ≤ divisor)
    (hterm : term = rounded p.digits (rounded p.digits (power * factor) / divisor)) : 10 * term ≤ power := by
  have hp' := p.digits_pos
  have hnonneg : 0 ≤ power * factor := mul_nonneg hpower hfactor
  have hproduct := (rounded_bounds hp hnonneg).2
  have hproduct' : 0 ≤ rounded p.digits (power * factor) := (fits_zero _).le_rounded hp' hnonneg
  have hquotient := (rounded_bounds hp (div_nonneg hproduct' hdivisor.le)).2
  rw [← hterm, ← mul_div_assoc, le_div_iff₀ hdivisor] at hquotient
  have hscale := mul_le_mul_of_nonneg_left hlarge hpower
  apply le_of_mul_le_mul_right _ hdivisor
  linarith

/-- A term that is the next power itself: it is in the exponent range, and from the turn on a tenth of the one before. -/
structure NextPower (turn : ℕ) (s s' : Position) (term : Decimal) : Prop where
  index_lt : s.index < s'.index
  power_eq : s'.power = term
  representable : Representable term.toRat
  tenth : turn ≤ s.index → 10 * |term.toRat| ≤ |s.power.toRat|

theorem shrinking_of_nextPower {next : Position → Option (Decimal × Position)} {turn : ℕ} (start : Position)
    (first : Decimal) (hstep : ∀ s term s', next s = some (term, s') → NextPower turn s s' term) :
    Shrinking p next start first turn where
  range h hnext hterm := by
    have hs := hstep _ _ _ hnext
    rw [hs.power_eq]
    exact bounds_of_representable hs.representable hterm
  shrink h hnext hturn := by
    have hs := hstep _ _ _ hnext
    have hindex := h.le_index fun s term s' hnext => (hstep s term s' hnext).index_lt
    rw [hs.power_eq]
    exact hs.tenth (hturn.trans hindex)

theorem nextPower_exp (hp : 8 ≤ p.digits) {r term : Decimal} {s s' : Position} (h : expNext p r s = some (term, s')) :
    NextPower (turnOf r) s s' term := by
  obtain ⟨rfl, hrange, hvalue⟩ := expNext_eq_some h
  apply NextPower.mk (Nat.lt_succ_self _) rfl hrange
  intro hturn
  have hlarge : 20 * |r.toRat| ≤ (s.index + 1 : ℕ) :=
    (mul_abs_le_turnOf r).trans (by exact_mod_cast hturn.trans (Nat.le_succ _))
  exact tenth_of_quotient hp (abs_nonneg _) (abs_nonneg _) (by positivity) hlarge hvalue

theorem nextPower_factorial (hp : 8 ≤ p.digits) {alternating : Bool} {term : Decimal} {s s' : Position}
    (h : factorialNext p (x.mul x p) alternating s = some (term, s')) : NextPower (turnOf x) s s' term := by
  obtain ⟨rfl, hrange, hvalue⟩ := factorialNext_eq_some h
  apply NextPower.mk (Nat.lt_add_of_pos_right two_pos) rfl hrange
  intro hturn
  have hindex : 20 * |x.toRat| ≤ s.index := (mul_abs_le_turnOf x).trans (by exact_mod_cast hturn)
  have hsquare := (rounded_bounds hp (by positivity : 0 ≤ |x.toRat| * |x.toRat|)).2
  rw [← abs_mul_eq] at hsquare
  have hlarge : 20 * |(x.mul x p).toRat| ≤ ((s.index + 1) * (s.index + 2) : ℕ) := by
    push_cast
    calc 20 * |(x.mul x p).toRat| ≤ (20 * |x.toRat|) * (20 * |x.toRat|) := by
          linarith [mul_nonneg (abs_nonneg x.toRat) (abs_nonneg x.toRat)]
      _ ≤ (s.index + 1) * (s.index + 2) := by gcongr <;> linarith
  exact tenth_of_quotient hp (abs_nonneg _) (abs_nonneg _) (by positivity) hlarge hvalue

theorem shrinking_exp (hp : 8 ≤ p.digits) (r : Decimal) : Shrinking p (expNext p r) ⟨one, 0⟩ one (turnOf r) :=
  shrinking_of_nextPower ⟨one, 0⟩ one fun _ _ _ => nextPower_exp hp

theorem shrinking_factorial (hp : 8 ≤ p.digits) (alternating : Bool) (x first : Decimal) (n : ℕ) :
    Shrinking p (factorialNext p (x.mul x p) alternating) ⟨first, n⟩ first (turnOf x) :=
  shrinking_of_nextPower ⟨first, n⟩ first fun _ _ _ => nextPower_factorial hp

/-- The powers of an argument up to an eighth. -/
theorem abs_power_step (hp : 8 ≤ p.digits) (hx : |x.toRat| ≤ 1 / 8) {alternating : Bool} {s s' : Position} {term : Decimal}
    (hnext : oddPowerNext p (x.mul x p) alternating s = some (term, s')) :
    10 * |s'.power.toRat| ≤ |s.power.toRat| := by
  obtain ⟨-, hpower, -⟩ := abs_of_oddPowerNext hnext
  have hsmall : |x.toRat| * |x.toRat| ≤ 1 / 8 * (1 / 8) := by gcongr
  have hsquare := (rounded_bounds hp (by positivity : 0 ≤ |x.toRat| * |x.toRat|)).2
  rw [← abs_mul_eq] at hsquare
  have hround := (rounded_bounds hp (by positivity : 0 ≤ |s.power.toRat| * |(x.mul x p).toRat|)).2
  rw [← hpower] at hround
  have hless : |(x.mul x p).toRat| ≤ 1 / 50 := by linarith
  linarith [mul_le_mul_of_nonneg_left hless (abs_nonneg s.power.toRat), abs_nonneg s.power.toRat]

theorem shrinking_oddPowers (hp : 8 ≤ p.digits) (alternating : Bool) (hx : |x.toRat| ≤ 1 / 8) :
    Shrinking p (oddPowerNext p (x.mul x p) alternating) ⟨x, 1⟩ x 0 where
  range {k s s' sum term} h hnext hterm := by
    obtain ⟨hrange, -, hle⟩ := abs_of_oddPowerNext hnext
    refine ⟨(bounds_of_representable hrange hterm).1.trans hle, ?_⟩
    have hone : |s.power.toRat| ≤ 1 := by
      clear hnext hterm hrange hle
      induction h with
      | start => linarith
      | @add k s s' sum term h hnext hmore ih => linarith [abs_power_step hp hx hnext, abs_nonneg s'.power.toRat]
    have hlimit : (1 : ℚ) ≤ 10 ^ (maxExponent + 1) := one_le_zpow₀ (by norm_num) (by decide)
    linarith [abs_power_step hp hx hnext, abs_nonneg s'.power.toRat]
  shrink h hnext _ := abs_power_step hp hx hnext

/-- The sum of the exponential function ends, whatever is left of the argument after its halvings. -/
theorem exists_exp?_ending (hp : 8 ≤ p.digits) (r : Decimal) : ∃ ending, exp? p r = some ending :=
  (shrinking_exp hp r).exists_ending (turnOf_add_rangePlaces_le r)

theorem exists_oddFactorials?_ending (hp : 8 ≤ p.digits) (alternating : Bool) (x : Decimal) :
    ∃ ending, oddFactorials? p alternating x = some ending :=
  (shrinking_factorial hp alternating x x 1).exists_ending (turnOf_add_rangePlaces_le x)

theorem exists_evenFactorials?_ending (hp : 8 ≤ p.digits) (x : Decimal) :
    ∃ ending, evenFactorials? p x = some ending :=
  (shrinking_factorial hp true x one 0).exists_ending (turnOf_add_rangePlaces_le x)

theorem exists_oddPowers?_ending (hp : 8 ≤ p.digits) (alternating : Bool) (hx : |x.toRat| ≤ 1 / 8) :
    ∃ ending, oddPowers? p alternating x = some ending := by
  refine (shrinking_oddPowers hp alternating hx).exists_ending ?_
  have hsteps := turnOf_add_rangePlaces_le x
  omega

end
end Series

/-! ### Arguments of the sums of odd powers -/

section
variable {x m last z : Decimal} {p : Precision}

/-- The argument of the sum for the logarithm is near zero. -/
theorem RootsFrom.abs_argument_le {roots : ℕ} (h : RootsFrom p m last roots) (hp : 18 ≤ p.digits)
    (hz : (last.sub one p).div? (last.add one p) p = some z) : |z.toRat| ≤ 1 / 8 := by
  have hp' := p.digits_pos
  have hone := h.one_le
  have hnear := h.near
  have hsub : rounded p.digits (last.toRat - 1) ≤ 11 / 1000 := by
    have hfits : Fits p.digits ((11 : ℤ) / 1000) := fits_thousandths hp (by norm_num)
    refine (hfits.rounded_le hp' ?_).trans_eq (by norm_num)
    push_cast
    linarith
  have hsub' : 0 ≤ rounded p.digits (last.toRat - 1) := (fits_zero _).le_rounded hp' (by linarith)
  have hadd : 2 ≤ rounded p.digits (last.toRat + 1) := by
    have htwo : Fits p.digits 2 := by exact_mod_cast fits_digit hp' (by decide : 2 < 10)
    exact htwo.le_rounded hp' (by linarith)
  rw [← toRat_sub_one hone (by linarith)] at hsub hsub'
  rw [← toRat_add_one hone (by linarith)] at hadd
  obtain ⟨c, hc, hdiv⟩ := div?_eq (last.sub one p) (b := last.add one p) (p := p) (by linarith)
  obtain rfl := eq_of_checked (hdiv.symm.trans hz)
  have heighth : Fits p.digits (1 / 8) := Fits.mono (p := 3) ⟨125, -3, by norm_num, by norm_num⟩ (by omega)
  rw [hc, abs_rounded hp', abs_div, abs_of_nonneg hsub', abs_of_pos (by linarith)]
  refine heighth.rounded_le hp' ?_
  rw [div_le_iff₀ (by linarith)]
  linarith

/-- A halving halves, or the number is tiny. -/
theorem halveArctan_cases (hp : 8 ≤ p.digits) (hx : |x.toRat| ≤ 1) {c : ℚ} (hc : Fits p.digits c) (hxc : |x.toRat| ≤ 2 * c)
    (n : ℕ) : halveArctan p (n + 1) x = x ∧ |x.toRat| ≤ 1 / 1000 ∨
      ∃ y : Decimal, halveArctan p (n + 1) x = halveArctan p n y ∧ |y.toRat| ≤ c := by
  have hp' := p.digits_pos
  obtain ⟨d, hd, hdle, -, -, hstop, hgo⟩ := exists_divisor hp x n
  have hdpos : 0 < d.toRat := by linarith
  have habs : |x.toRat / d.toRat| = |x.toRat| / d.toRat := by rw [abs_div, abs_of_pos hdpos]
  have hhalf : |x.toRat| / d.toRat ≤ |x.toRat| / 2 := by gcongr
  cases hquotient : x.div? d p with
  | some y =>
    obtain ⟨e, he, hdiv⟩ := div?_eq x hdpos.ne' p
    obtain rfl := eq_of_checked (hdiv.symm.trans hquotient)
    refine .inr ⟨e, hgo e hquotient, ?_⟩
    rw [he, abs_rounded hp', habs]
    exact hc.rounded_le hp' (by linarith)
  | none =>
    refine .inl ⟨hstop hquotient, ?_⟩
    have hthree : d.toRat ≤ 16 := by
      have hsquare : x.toRat ^ 2 ≤ 1 := sq_le_one_iff_abs_le_one _ |>.mpr hx
      have htwo : Fits p.digits 2 := by exact_mod_cast fits_digit hp' (by decide : 2 < 10)
      linarith [hdle 2 htwo zero_le_two (by linarith)]
    have hsmall : |x.toRat| / d.toRat < 10 ^ (-maxExponent) := by
      by_contra! hge
      obtain ⟨y, hy, -⟩ := div?_of_le_one (a := x) hdpos.ne' (habs.symm ▸ hge) (by rw [habs]; linarith) p
      rw [hquotient] at hy
      cases hy
    rw [div_lt_iff₀ hdpos] at hsmall
    have hleast := ten_zpow_pos (-maxExponent)
    linarith [sixteen_least_le, mul_le_mul_of_nonneg_left hthree hleast.le]

theorem abs_halveArctan_le (hp : 8 ≤ p.digits) {n : ℕ} (hn : n ≤ 3) (hx : |x.toRat| ≤ 2 ^ n / 8) :
    |(halveArctan p n x).toRat| ≤ 1 / 8 := by
  induction n generalizing x with
  | zero => simpa [halveArctan] using hx
  | succ n ih =>
    have hpower : (2 : ℚ) ^ (n + 1) ≤ 2 ^ 3 := pow_le_pow_right₀ (by norm_num) hn
    have hpower' : (2 : ℤ) ^ n ≤ 2 ^ 2 := pow_le_pow_right₀ (by norm_num) (by omega)
    have hfits : Fits p.digits (2 ^ n / 8) := by
      refine Fits.mono (p := 4) ⟨2 ^ n * 125, -3, ?_, ?_⟩ (by omega)
      · rw [abs_of_pos (by positivity)]
        linarith
      · push_cast
        norm_num
        ring
    rcases halveArctan_cases hp (hx.trans (by linarith)) hfits (by rw [pow_succ] at hx; linarith) n with
      ⟨hstop, htiny⟩ | ⟨y, hgo, hy⟩
    · rw [hstop]
      linarith
    · rw [hgo]
      exact ih (by omega) hy

end
end Calculator.Decimal
