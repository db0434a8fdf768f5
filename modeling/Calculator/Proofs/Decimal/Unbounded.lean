import Calculator.Decimal.Hyperbolic
import Calculator.Proofs.Decimal.Endings
import Mathlib.Data.PFun
/-!
The functions of decimal numbers that sum series, with loops that are not bounded by a number of steps. Such a loop need not
end, and what it computes is a partial value: it is there if the loop ends. The loops do end, for every number and every
precision, so that the numbers of steps that bound the sums elsewhere never cut one off.
-/
namespace Calculator.Decimal.Unbounded

open Series (Position Ending expNext oddPowerNext factorialNext)

/-! ### Loops -/

/-- What is found without a loop, or is not. -/
def ofOption {α : Type} (found : Option α) : OptionT Part α := .mk (Part.some found)

/-- Takes turn after turn, until one of them gives a result in place of the state for the next. -/
def loop {σ β : Type} (turn : σ → β ⊕ σ) : σ → Part β := PFun.fix fun state => Part.some (turn state)

/-- A turn of a sum: it ends if the next term leaves the exponent range or is negligible, and adds the term otherwise. -/
def sumTurn {σ : Type} (p : Precision) (next : σ → Option (Decimal × σ)) : σ × Decimal → Ending ⊕ σ × Decimal
  | (state, sum) =>
    match next state with
    | none => .inl (.escaped sum)
    | some (term, state) => if negligible term sum p then .inl (.settled sum) else .inr (state, sum.add term p)

/-- A turn on the way toward one: it takes a square root, and counts it, unless the number is near one. -/
def rootTurn (p : Precision) : Decimal × ℕ → Option (Decimal × ℕ) ⊕ Decimal × ℕ
  | (m, count) =>
    if nearOne.lt ((m.sub one p).abs) then
      match m.sqrt? p with
      | none => .inl none
      | some root => .inr (root, count + 1)
    else .inl (some (m, count))

/-- A turn of the arctangent in whole numbers, with a power, an index and a sum: it ends if the next term vanishes. -/
def arctanInverseTurn (square : ℕ) : ℕ × ℕ × ℤ → ℤ ⊕ ℕ × ℕ × ℤ
  | (power, k, sum) =>
    let next := power / square
    let term := next / (2 * k + 1)
    if term = 0 then .inl sum
    else .inr (next, k + 1, if k % 2 = 1 then sum - term else sum + term)

/-! ### Sums -/

/-- The sum `1 + r + r² / 2! + …`. -/
def expSum (p : Precision) (r : Decimal) : Part Ending :=
  loop (sumTurn p (expNext p r)) (⟨one, 0⟩, one)

/-- The sum `x ± x³ / 3 + x⁵ / 5 ± …`. -/
def oddPowers (p : Precision) (alternating : Bool) (x : Decimal) : Part Ending :=
  loop (sumTurn p (oddPowerNext p (x.mul x p) alternating)) (⟨x, 1⟩, x)

/-- The sum `x ± x³ / 3! + x⁵ / 5! ± …`. -/
def oddFactorials (p : Precision) (alternating : Bool) (x : Decimal) : Part Ending :=
  loop (sumTurn p (factorialNext p (x.mul x p) alternating)) (⟨x, 1⟩, x)

/-- The sum `1 - x² / 2! + x⁴ / 4! - …`. -/
def evenFactorials (p : Precision) (x : Decimal) : Part Ending :=
  loop (sumTurn p (factorialNext p (x.mul x p) true)) (⟨one, 0⟩, one)

/-- Takes square roots until the number is near one, and counts them. -/
def rootsTowardOne (p : Precision) (m : Decimal) : OptionT Part (Decimal × ℕ) := .mk (loop (rootTurn p) (m, 0))

/-- The arctangent of `1 / n`, in units of `1 / scale`. -/
def arctanInverse (n scale : ℕ) : Part ℤ :=
  loop (arctanInverseTurn (n * n)) (scale / n, 1, (scale / n : ℕ))

/-! ### Functions -/

/-- The exponential function by way of `n` halvings, with `d` digits more than these call for. -/
def expHalved (n d : ℕ) (x : Decimal) (p : Precision) : OptionT Part Decimal := do
  let wp := p.guard (guardDigits + n / 3 + 1 + d)
  let ending ← expSum wp (halveTimes wp n x)
  let sum ← ofOption ending.settled?
  return (squareTimes wp n sum).roundTo p

def exp (x : Decimal) (p : Precision) : OptionT Part Decimal :=
  if x.isZero then pure one
  else
    let magnitude := x.toFloat.abs
    if expLimit < magnitude then ofOption (if x.isNegative then some zero else none)
    else expHalved (halvings magnitude) (wholeDigits magnitude) x p

def lnNearOne (m : Decimal) (p : Precision) : OptionT Part Decimal := do
  let wp := p.guard 4
  let (m, roots) ← rootsTowardOne wp m
  let z ← ofOption ((m.sub one wp).div? (m.add one wp) wp)
  let ending ← oddPowers wp false z
  let sum ← ofOption ending.settled?
  return sum.mul (ofInt (pow2 (roots + 1))) wp

def ln (x : Decimal) (p : Precision) : OptionT Part Decimal :=
  if !x.isPositive then ofOption none
  else if x = one then pure zero
  else do
    let k := x.leading
    let wp := p.guard (guardDigits + 2 + Digits.count k.natAbs)
    let lnMantissa ← lnNearOne ⟨x.mantissa, x.exponent - k⟩ wp
    let result ←
      if k = 0 then pure lnMantissa
      else do
        let ln10 ← lnNearOne (ofInt 10) wp
        pure (lnMantissa.add (ln10.mul (ofInt k) wp) wp)
    return result.roundTo p

def logBase (base x : Decimal) (p : Precision) : OptionT Part Decimal := do
  let wp := p.guard guardDigits
  let dividend ← ln x wp
  let divisor ← ln base wp
  let quotient ← ofOption (dividend.div? divisor wp)
  let rounded := quotient.roundTo p
  let nearest := rounded.round
  if ((rounded.sub nearest wp).abs).leading < -p.digits then return nearest
  return rounded

def log10 (x : Decimal) (p : Precision) : OptionT Part Decimal := logBase (ofInt 10) x p

def log2 (x : Decimal) (p : Precision) : OptionT Part Decimal := logBase two x p

def pi (p : Precision) : Part Decimal := do
  let places := p.digits + guardDigits
  let scale := pow10 places
  let units := (← arctanInverse 5 scale) * 16 - (← arctanInverse 239 scale) * 4
  return (ofParts units (-places)).roundTo p

def reduceAngle (x : Decimal) (p : Precision) : Part Decimal := do
  let turn := (← pi p).mul two p
  match x.div? turn p with
  | none => return x
  | some quotient =>
    let turns := quotient.round
    return if turns.isZero then x else x.sub (turns.mul turn p) p

def sinReduced (r : Decimal) (p : Precision) : Part Decimal := do
  return (← oddFactorials p true r).sum

def cosReduced (r : Decimal) (p : Precision) : Part Decimal := do
  return (← evenFactorials p r).sum

def sin (x : Decimal) (p : Precision) : OptionT Part Decimal := do
  let wp ← ofOption (x.anglePrecision? p)
  let r ← reduceAngle x wp
  let sine ← sinReduced r wp
  return sine.roundTo p

def cos (x : Decimal) (p : Precision) : OptionT Part Decimal := do
  let wp ← ofOption (x.anglePrecision? p)
  let r ← reduceAngle x wp
  let cosine ← cosReduced r wp
  return cosine.roundTo p

def tan (x : Decimal) (p : Precision) : OptionT Part Decimal := do
  let wp ← ofOption (x.anglePrecision? p)
  let r ← reduceAngle x wp
  let sine ← sinReduced r wp
  let cosine ← cosReduced r wp
  let quotient ← ofOption (sine.div? cosine wp)
  return quotient.roundTo p

def atanWithinOne (x : Decimal) (p : Precision) : Part Decimal :=
  if x.isZero then pure zero
  else do
    let wp := p.guard guardDigits
    let ending ← oddPowers wp true (halveArctan wp 3 x)
    return (ending.sum.mul (ofInt 8) wp).roundTo p

def atan (x : Decimal) (p : Precision) : Part Decimal :=
  if one.lt x.abs then do
    let wp := p.guard guardDigits
    let quarter := ((← pi wp).mul half wp).negIf x.isNegative
    match one.div? x wp with
    | none => return zero
    | some inverse => return (quarter.sub (← atanWithinOne inverse wp) wp).roundTo p
  else atanWithinOne x p

/-- The exponential function and its inverse. -/
def expPair (x : Decimal) (p : Precision) : OptionT Part (Decimal × Decimal) := do
  let e ← exp x p
  let inverse ← ofOption (one.div? e p)
  return (e, inverse)

def sinh (x : Decimal) (p : Precision) : OptionT Part Decimal := do
  let wp := p.guard guardDigits
  if x.abs.lt one then
    let ending ← oddFactorials wp false x
    return ending.sum.roundTo p
  else
    let (e, inverse) ← expPair x wp
    let result ← ofOption ((e.sub inverse wp).div? two wp)
    return result.roundTo p

/-! ### What computations come to -/

/-- The computation ends, with this result. -/
def Ends {α : Type} (run : OptionT Part α) (result : Option α) : Prop := run.run = Part.some result

section
variable {α β : Type} {result : Option α} {run : OptionT Part α} {f : α → OptionT Part β} {g : α → Option β}

theorem ends_ofOption (found : Option α) : Ends (ofOption found) found := rfl

theorem ends_pure (a : α) : Ends (pure a) (some a) := rfl

theorem Ends.bind (h : Ends run result) (hf : ∀ a, result = some a → Ends (f a) (g a)) :
    Ends (run >>= f) (result >>= g) := by
  rw [Ends] at h
  rw [Ends, OptionT.run_bind, Option.elimM, h, Part.bind_eq_bind, Part.bind_some]
  cases result with
  | none => rfl
  | some a => exact hf a rfl

/-- What always comes to a value does not show in the result. -/
theorem Ends.lift_bind {part : Part α} {a : α} {found : Option β} (h : part = Part.some a) (hf : Ends (f a) found) :
    Ends ((liftM part : OptionT Part α) >>= f) found := by
  have hlift : Ends (liftM part : OptionT Part α) (some a) := by simp [Ends, h]
  exact hlift.bind (g := fun _ => found) fun b hb => Option.some.inj hb ▸ hf

end

/-! ### Loops that end -/

section
variable {σ β : Type} {turn : σ → β ⊕ σ} {state state' : σ} {result : β}

theorem loop_of_inl (h : turn state = .inl result) : loop turn state = Part.some result := by
  have hmem : Sum.inl result ∈ Part.some (turn state) := by simp [h]
  exact Part.eq_some_iff.mpr (PFun.fix_stop hmem)

theorem loop_of_inr (h : turn state = .inr state') : loop turn state = loop turn state' := by
  have hmem : Sum.inr state' ∈ Part.some (turn state) := by simp [h]
  exact PFun.fix_fwd_eq hmem

end

section
variable {p : Precision}

/-- A sum that ends before its steps do ends without them. -/
theorem loop_sumTurn_of_run {σ : Type} {next : σ → Option (Decimal × σ)} {steps : ℕ} {state : σ} {sum : Decimal}
    {ending : Ending} (h : Series.run p next steps state sum = some ending) :
    loop (sumTurn p next) (state, sum) = Part.some ending := by
  -- The loop takes the same turns as the run, one for each step.
  induction steps generalizing state sum with
  | zero => simp [Series.run] at h
  | succ steps ih =>
    rw [Series.run] at h
    cases hnext : next state with
    | none =>
      simp only [hnext, Option.some.injEq] at h
      apply loop_of_inl
      simp [sumTurn, hnext, h]
    | some found =>
      obtain ⟨term, state'⟩ := found
      cases hend : negligible term sum p with
      | true =>
        simp only [hnext, hend, if_true, Option.some.injEq] at h
        apply loop_of_inl
        simp [sumTurn, hnext, hend, h]
      | false =>
        simp only [hnext, hend, Bool.false_eq_true, if_false] at h
        rw [← ih h]
        apply loop_of_inr
        simp [sumTurn, hnext, hend]

/-- Roots that are found before the fuel is used up are found without it. -/
theorem loop_rootTurn_of_some {fuel count : ℕ} {m : Decimal} {found : Decimal × ℕ}
    (h : Decimal.rootsTowardOne p fuel m count = some found) : loop (rootTurn p) (m, count) = Part.some (some found) := by
  induction fuel generalizing m count with
  | zero => simp [Decimal.rootsTowardOne] at h
  | succ fuel ih =>
    rw [Decimal.rootsTowardOne] at h
    by_cases hmore : nearOne.lt ((m.sub one p).abs) = true
    · rw [if_pos hmore] at h
      obtain ⟨root, hroot, hrest⟩ := Option.bind_eq_some_iff.mp h
      rw [← ih hrest]
      apply loop_of_inr
      simp [rootTurn, hmore, hroot]
    · rw [if_neg hmore] at h
      apply loop_of_inl
      simp [rootTurn, hmore, Option.some.inj h]

theorem loop_arctanInverseTurn (square : ℕ) (h : 1 < square) (power k : ℕ) (sum : ℤ) :
    loop (arctanInverseTurn square) (power, k, sum) = Part.some (arctanInverseLoop square h power k sum) := by
  induction power, k, sum using arctanInverseLoop.induct square h with
  | case1 power k sum next term hend =>
    rw [arctanInverseLoop, if_pos hend]
    exact loop_of_inl (if_pos hend)
  | case2 power k sum next term hmore ih =>
    rw [arctanInverseLoop, if_neg hmore]
    apply (loop_of_inr _).trans ih
    exact if_neg hmore

/-! ### Functions that end -/

theorem exists_expSum (hp : 8 ≤ p.digits) (r : Decimal) :
    ∃ ending, Series.exp? p r = some ending ∧ expSum p r = Part.some ending := by
  obtain ⟨ending, hrun⟩ := Series.exists_exp?_ending hp r
  exact ⟨ending, hrun, loop_sumTurn_of_run hrun⟩

theorem exists_oddPowers (hp : 8 ≤ p.digits) (alternating : Bool) {x : Decimal} (hx : |x.toRat| ≤ 1 / 8) :
    ∃ ending, Series.oddPowers? p alternating x = some ending ∧ oddPowers p alternating x = Part.some ending := by
  obtain ⟨ending, hrun⟩ := Series.exists_oddPowers?_ending hp alternating hx
  exact ⟨ending, hrun, loop_sumTurn_of_run hrun⟩

theorem exists_oddFactorials (hp : 8 ≤ p.digits) (alternating : Bool) (x : Decimal) :
    ∃ ending, Series.oddFactorials? p alternating x = some ending ∧
      oddFactorials p alternating x = Part.some ending := by
  obtain ⟨ending, hrun⟩ := Series.exists_oddFactorials?_ending hp alternating x
  exact ⟨ending, hrun, loop_sumTurn_of_run hrun⟩

theorem exists_evenFactorials (hp : 8 ≤ p.digits) (x : Decimal) :
    ∃ ending, Series.evenFactorials? p x = some ending ∧ evenFactorials p x = Part.some ending := by
  obtain ⟨ending, hrun⟩ := Series.exists_evenFactorials?_ending hp x
  exact ⟨ending, hrun, loop_sumTurn_of_run hrun⟩

theorem digits_guard_ge (p : Precision) {n : ℕ} (hn : guardDigits ≤ n) : 8 ≤ (p.guard n).digits := by
  show 8 ≤ p.digits + n
  unfold guardDigits at hn
  omega

theorem expHalved_ends (n d : ℕ) (x : Decimal) (p : Precision) :
    let wp := p.guard (guardDigits + n / 3 + 1 + d)
    Ends (expHalved n d x p) (do
      let ending ← Series.exp? wp (halveTimes wp n x)
      let sum ← ending.settled?
      return (squareTimes wp n sum).roundTo p) := by
  intro wp
  obtain ⟨ending, hbounded, hsum⟩ := exists_expSum (p := wp) (digits_guard_ge p (by omega)) (halveTimes wp n x)
  rw [hbounded]
  apply Ends.lift_bind hsum
  apply Ends.bind (ends_ofOption _)
  intro sum _
  exact ends_pure _

theorem exp_ends (x : Decimal) (p : Precision) : Ends (exp x p) (x.exp? p) := by
  unfold exp Decimal.exp?
  split
  · exact ends_pure one
  dsimp only
  split
  · exact ends_ofOption _
  · exact expHalved_ends ..

theorem rootsTowardOne_ends {m : Decimal} (hp : 18 ≤ p.digits) (hm : 1 ≤ m.toRat) (hm' : m.toRat ≤ 10) :
    Ends (rootsTowardOne p m) (Decimal.rootsTowardOne p maxRoots m 0) := by
  obtain ⟨last, roots, hroots, -⟩ := exists_roots hp hm hm'
  rw [hroots]
  exact loop_rootTurn_of_some hroots

theorem lnNearOne_ends {m : Decimal} (hp : 14 ≤ p.digits) (hm : 1 ≤ m.toRat) (hm' : m.toRat ≤ 10) :
    Ends (lnNearOne m p) (m.lnNearOne? p) := by
  have hwp : 18 ≤ (p.guard 4).digits := Nat.add_le_add_right hp 4
  apply Ends.bind (rootsTowardOne_ends hwp hm hm')
  intro (last, roots) hfound
  apply Ends.bind (ends_ofOption _)
  intro z hz
  -- The number behind the roots is near one, so the argument of the sum is small.
  obtain ⟨_, _, hroots, hspec⟩ := exists_roots hwp hm hm'
  obtain ⟨rfl, rfl⟩ := Prod.mk.injEq .. ▸ Option.some.inj (hroots.symm.trans hfound)
  have hsmall := hspec.abs_argument_le hwp hz
  obtain ⟨ending, hbounded, hsum⟩ := exists_oddPowers (p := p.guard 4) (by omega) false hsmall
  rw [hbounded]
  apply Ends.lift_bind hsum
  apply Ends.bind (ends_ofOption _)
  intro sum _
  exact ends_pure _

theorem ln_ends (x : Decimal) (p : Precision) : Ends (ln x p) (x.ln? p) := by
  unfold ln ln?
  split
  · exact ends_ofOption none
  rename_i hpositive
  split
  · exact ends_pure zero
  have hx : 0 < x.toRat := by
    rw [toRat_pos_iff]
    simpa [isPositive] using hpositive
  have hwp : 14 ≤ (p.guard (guardDigits + 2 + Digits.count x.leading.natAbs)).digits := by
    have hcount := Digits.count_pos x.leading.natAbs
    have hpos := p.digits_pos
    show 14 ≤ p.digits + (10 + 2 + _)
    omega
  obtain ⟨hlow, hhigh⟩ := significand_mem hx
  apply Ends.bind (lnNearOne_ends hwp hlow hhigh.le)
  intro lnMantissa _
  dsimp only
  split
  · simpa using ends_pure _
  · have hten : (ofInt 10).toRat = 10 := by rw [toRat_ofInt]; norm_num
    apply Ends.bind (lnNearOne_ends hwp (hten ▸ by norm_num) hten.le)
    intro ln10 _
    simpa using ends_pure _

theorem logBase_ends (base x : Decimal) (p : Precision) : Ends (logBase base x p) (logBase? base x p) := by
  apply Ends.bind (ln_ends x _)
  intro dividend _
  apply Ends.bind (ln_ends base _)
  intro divisor _
  apply Ends.bind (ends_ofOption _)
  intro quotient _
  dsimp only
  split <;> exact ends_pure _

theorem arctanInverse_eq (n : ℕ) (h : 1 < n * n) (scale : ℕ) :
    arctanInverse n scale = Part.some (Decimal.arctanInverse n h scale) :=
  loop_arctanInverseTurn (n * n) h ..

theorem pi_eq (p : Precision) : pi p = Part.some (Decimal.pi p) := by
  rw [pi, arctanInverse_eq 5 (by decide), arctanInverse_eq 239 (by decide)]
  simp only [Part.bind_eq_bind, Part.bind_some]
  rfl

theorem reduceAngle_eq (x : Decimal) (p : Precision) : reduceAngle x p = Part.some (x.reduceAngle p) := by
  rw [reduceAngle, pi_eq, Part.bind_eq_bind, Part.bind_some, Decimal.reduceAngle]
  dsimp only
  cases x.div? ((Decimal.pi p).mul two p) p <;> rfl

theorem sinReduced_eq (hp : 8 ≤ p.digits) (r : Decimal) : sinReduced r p = Part.some (r.sinReduced p) := by
  obtain ⟨ending, hbounded, hsum⟩ := exists_oddFactorials hp true r
  rw [sinReduced, hsum, Part.bind_eq_bind, Part.bind_some, Decimal.sinReduced, hbounded]
  rfl

theorem cosReduced_eq (hp : 8 ≤ p.digits) (r : Decimal) : cosReduced r p = Part.some (r.cosReduced p) := by
  obtain ⟨ending, hbounded, hsum⟩ := exists_evenFactorials hp r
  rw [cosReduced, hsum, Part.bind_eq_bind, Part.bind_some, Decimal.cosReduced, hbounded]
  rfl

theorem digits_of_anglePrecision? {x : Decimal} {wp : Precision} (h : x.anglePrecision? p = some wp) : 8 ≤ wp.digits := by
  unfold anglePrecision? at h
  dsimp only at h
  split at h
  · cases h
  · obtain rfl := Option.some.inj h
    exact digits_guard_ge p (Nat.le_add_right ..)

theorem sin_ends (x : Decimal) (p : Precision) : Ends (sin x p) (x.sin? p) := by
  apply Ends.bind (ends_ofOption _)
  intro wp hwp
  have hp := digits_of_anglePrecision? hwp
  apply Ends.lift_bind (reduceAngle_eq x wp)
  apply Ends.lift_bind (sinReduced_eq hp _)
  exact ends_pure _

theorem cos_ends (x : Decimal) (p : Precision) : Ends (cos x p) (x.cos? p) := by
  apply Ends.bind (ends_ofOption _)
  intro wp hwp
  have hp := digits_of_anglePrecision? hwp
  apply Ends.lift_bind (reduceAngle_eq x wp)
  apply Ends.lift_bind (cosReduced_eq hp _)
  exact ends_pure _

theorem tan_ends (x : Decimal) (p : Precision) : Ends (tan x p) (x.tan? p) := by
  apply Ends.bind (ends_ofOption _)
  intro wp hwp
  have hp := digits_of_anglePrecision? hwp
  apply Ends.lift_bind (reduceAngle_eq x wp)
  apply Ends.lift_bind (sinReduced_eq hp _)
  apply Ends.lift_bind (cosReduced_eq hp _)
  apply Ends.bind (ends_ofOption _)
  intro quotient _
  exact ends_pure _

theorem atanWithinOne_eq {x : Decimal} (hx : |x.toRat| ≤ 1) (p : Precision) :
    atanWithinOne x p = Part.some (x.atanWithinOne p) := by
  have hwp := digits_guard_ge p le_rfl
  unfold atanWithinOne Decimal.atanWithinOne
  split
  · rfl
  obtain ⟨ending, hbounded, hsum⟩ := exists_oddPowers hwp true (abs_halveArctan_le hwp le_rfl (hx.trans (by norm_num)))
  dsimp only
  rw [hsum, hbounded]
  exact Part.bind_some _ _

/-- The inverse of a number beyond one is not beyond one. -/
theorem abs_inverse_le {x inverse : Decimal} (hx : 1 < |x.toRat|) (h : one.div? x p = some inverse) :
    |inverse.toRat| ≤ 1 := by
  have hp := p.digits_pos
  obtain ⟨c, hc, hdiv⟩ := div?_eq one (b := x) (abs_pos.mp (one_pos.trans hx)) p
  obtain rfl := eq_of_checked (hdiv.symm.trans h)
  rw [hc, abs_rounded hp, toRat_one, abs_div, abs_one]
  exact (fits_one hp).rounded_le hp ((div_le_one (one_pos.trans hx)).mpr hx.le)

theorem one_lt_abs_iff {x : Decimal} : one.lt x.abs = true ↔ 1 < |x.toRat| := by rw [lt_iff, toRat_one, toRat_abs]

theorem one_lt_abs_eq_false {x : Decimal} (h : |x.toRat| ≤ 1) : one.lt x.abs = false := by
  rw [← Bool.not_eq_true, one_lt_abs_iff]
  exact h.not_gt

theorem atan_eq (x : Decimal) (p : Precision) : atan x p = Part.some (x.atan p) := by
  unfold atan Decimal.atan
  split
  · rename_i hbeyond
    dsimp only
    rw [pi_eq, Part.bind_eq_bind, Part.bind_some]
    cases hinverse : one.div? x (p.guard guardDigits) with
    | none => rfl
    | some inverse =>
      dsimp only
      rw [atanWithinOne_eq (abs_inverse_le (one_lt_abs_iff.mp hbeyond) hinverse)]
      exact Part.bind_some _ _
  · rename_i hwithin
    exact atanWithinOne_eq (not_lt.mp (mt one_lt_abs_iff.mpr hwithin)) p

theorem expPair_ends (x : Decimal) (p : Precision) : Ends (expPair x p) (x.expPair? p) := by
  apply Ends.bind (exp_ends x p)
  intro e _
  apply Ends.bind (ends_ofOption _)
  intro inverse _
  exact ends_pure _

theorem sinh_ends (x : Decimal) (p : Precision) : Ends (sinh x p) (x.sinh? p) := by
  unfold sinh sinh?
  dsimp only
  split
  · obtain ⟨ending, hbounded, hsum⟩ := exists_oddFactorials (digits_guard_ge p le_rfl) false x
    rw [hbounded]
    apply Ends.lift_bind hsum
    exact ends_pure _
  · apply Ends.bind (expPair_ends x _)
    intro (e, inverse) _
    apply Ends.bind (ends_ofOption _)
    intro result _
    exact ends_pure _

end

/-! ### All functions -/

/-- Every function that sums series gets through its loops, with the result that is found in a bounded number of steps. The
sum of the exponential function ends however often its argument is halved, and the arctangent takes no second inverse. -/
structure LoopsEnd (x : Decimal) (p : Precision) : Prop where
  halved (n d : ℕ) :
    let wp := p.guard (guardDigits + n / 3 + 1 + d)
    ∃ ending, Series.exp? wp (halveTimes wp n x) = some ending ∧ expSum wp (halveTimes wp n x) = Part.some ending
  exp : Ends (exp x p) (x.exp? p)
  ln : Ends (ln x p) (x.ln? p)
  log10 : Ends (log10 x p) (x.log10? p)
  log2 : Ends (log2 x p) (x.log2? p)
  pi : pi p = Part.some (Decimal.pi p)
  sin : Ends (sin x p) (x.sin? p)
  cos : Ends (cos x p) (x.cos? p)
  tan : Ends (tan x p) (x.tan? p)
  sinh : Ends (sinh x p) (x.sinh? p)
  atan : atan x p = Part.some (x.atan p)
  inverse {c : Decimal} (hx : one.lt x.abs = true) (hc : one.div? x (p.guard guardDigits) = some c) : one.lt c.abs = false

/-- The loops end for every number and every precision up to `10 ^ 9`, for which all shifts fit in 32 bits. -/
theorem loops_end (x : Decimal) (p : Precision) (_ : p.digits ≤ 10 ^ 9) : LoopsEnd x p where
  halved n d := exists_expSum (digits_guard_ge p (by omega)) _
  exp := exp_ends x p
  ln := ln_ends x p
  log10 := logBase_ends (ofInt 10) x p
  log2 := logBase_ends two x p
  pi := pi_eq p
  sin := sin_ends x p
  cos := cos_ends x p
  tan := tan_ends x p
  sinh := sinh_ends x p
  atan := atan_eq x p
  inverse hx hc := one_lt_abs_eq_false (abs_inverse_le (one_lt_abs_iff.mp hx) hc)

/-- Two has a logarithm that takes square roots. -/
theorem loops_end_at_two : (15 : ℕ) ≤ 10 ^ 9 ∧ LoopsEnd two ⟨15, by decide⟩ :=
  ⟨by decide, loops_end two ⟨15, by decide⟩ (by decide)⟩

end Calculator.Decimal.Unbounded
