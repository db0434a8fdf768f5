import Calculator.Decimal.Exponential
import Calculator.Proofs.Decimal.LogSeries
import Mathlib.Analysis.Complex.ExponentialBounds
/-!
The logarithm of a number from 1 to 10. Each square root toward one halves the logarithm, up to the error of a rounding,
and as many roots are taken as the logarithm is great, so that doubling the logarithm of the last root again keeps the
relative error small.
-/
namespace Calculator.Decimal

/-- The logarithms of numbers with a relative error below one. -/
theorem abs_log_sub_log_le_div {r y e : ℝ} (hy : 0 < y) (he : e < 1) (h : |r - y| ≤ e * y) :
    |Real.log r - Real.log y| ≤ e / (1 - e) := by
  obtain ⟨hlow, hhigh⟩ := abs_le.mp h
  have he0 : 0 ≤ e := nonneg_of_mul_nonneg_left ((abs_nonneg _).trans h) hy
  have hkeep : 0 < 1 - e := by linarith
  have hr : (1 - e) * y ≤ r := by linarith
  have hr0 : 0 < r := (mul_pos hkeep hy).trans_le hr
  rw [← Real.log_div hr0.ne' hy.ne', abs_le]
  have hup := Real.log_le_sub_one_of_pos (div_pos hr0 hy)
  have hdown := Real.one_sub_inv_le_log_of_pos (div_pos hr0 hy)
  rw [inv_div] at hdown
  constructor
  · have hgain : y / r ≤ 1 / (1 - e) := by
      rw [div_le_div_iff₀ hr0 hkeep]
      linarith
    have hsplit : 1 / (1 - e) = 1 + e / (1 - e) := by
      field_simp
      ring
    linarith
  · have hratio : r / y ≤ 1 + e := by
      rw [div_le_iff₀ hy]
      linarith
    have hshare : e ≤ e / (1 - e) := le_div_self he0 hkeep (by linarith)
    linarith

theorem abs_log_sub_log_le {r y e : ℝ} (hy : 0 < y) (he : e ≤ 1 / 2) (h : |r - y| ≤ e * y) :
    |Real.log r - Real.log y| ≤ 2 * e := by
  have he0 : 0 ≤ e := nonneg_of_mul_nonneg_left ((abs_nonneg _).trans h) hy
  refine (abs_log_sub_log_le_div hy (by linarith) h).trans ?_
  rw [div_le_iff₀ (by linarith)]
  linarith [mul_le_mul_of_nonneg_left he he0]

/-! ### Near one -/

section
variable {m : Decimal} {p : Precision}

theorem toRat_nearOne : nearOne.toRat = 1 / 100 := by
  rw [nearOne, toRat_ofParts]
  norm_num

/-- Numbers whose first digits stand at near places are added exactly, before the sum is rounded. -/
theorem toRat_add_of_leading {a b : Decimal} (h : a.leading ≤ b.leading + (p.digits + 2))
    (h' : b.leading ≤ a.leading + (p.digits + 2)) : (a.add b p).toRat = rounded p.digits (a.toRat + b.toRat) := by
  rcases add_cases a b p with ⟨hleft, -⟩ | ⟨hleft, -⟩ | ⟨-, -, hvalue⟩
  · have hleading := hleft.2.2
    omega
  · have hleading := hleft.2.2
    omega
  · exact hvalue

theorem leading_mem (hm : 1 ≤ m.toRat) (hm' : m.toRat ≤ 10) : 0 ≤ m.leading ∧ m.leading ≤ 1 := by
  have hpos : 0 < m.toRat := one_pos.trans_le hm
  obtain ⟨hlow, hhigh⟩ := leading_bounds (toRat_pos_iff.mp hpos).ne'
  rw [abs_of_pos hpos] at hlow hhigh
  have hbelow : (10 : ℚ) ^ (0 : ℤ) < 10 ^ (m.leading + 1) := by
    rw [zpow_zero]
    linarith
  have habove : (10 : ℚ) ^ m.leading ≤ 10 ^ (1 : ℤ) := by
    rw [zpow_one]
    linarith
  have hbelow' := ten_zpow_lt.mp hbelow
  have habove' := ten_zpow_le.mp habove
  omega

theorem toRat_sub_one (hm : 1 ≤ m.toRat) (hm' : m.toRat ≤ 10) :
    (m.sub one p).toRat = rounded p.digits (m.toRat - 1) := by
  obtain ⟨hlow, hhigh⟩ := leading_mem hm hm'
  have hone : one.neg.leading = 0 := by decide +kernel
  rw [sub, toRat_add_of_leading (by omega) (by omega), toRat_neg, toRat_one, sub_eq_add_neg]

theorem toRat_add_one (hm : 1 ≤ m.toRat) (hm' : m.toRat ≤ 10) :
    (m.add one p).toRat = rounded p.digits (m.toRat + 1) := by
  obtain ⟨hlow, hhigh⟩ := leading_mem hm hm'
  have hone : one.leading = 0 := by decide +kernel
  rw [toRat_add_of_leading (by omega) (by omega), toRat_one]

theorem fits_thousandths (hp : 18 ≤ p.digits) {n : ℤ} (hn : |n| < 10 ^ 4) : Fits p.digits (n / 1000) :=
  Fits.mono (p := 4) ⟨n, -3, hn, by norm_num [div_eq_mul_inv]⟩ (by omega)

/-- Roots are taken of numbers that are more than a hundredth above one, and not of those that are hardly more. -/
theorem nearOne_lt_cases (hp : 18 ≤ p.digits) (hm : 1 ≤ m.toRat) (hm' : m.toRat ≤ 10) :
    nearOne.lt (m.sub one p).abs = true ∧ 101 / 100 < m.toRat ∨
      nearOne.lt (m.sub one p).abs = false ∧ m.toRat < 1011 / 1000 := by
  have hnonneg : 0 ≤ rounded p.digits (m.toRat - 1) := by
    have hmono := rounded_mono p.digits_pos (sub_nonneg.mpr hm)
    rwa [rounded_zero] at hmono
  have hiff : nearOne.lt (m.sub one p).abs = true ↔ 1 / 100 < rounded p.digits (m.toRat - 1) := by
    rw [lt_iff, toRat_abs, toRat_sub_one hm hm', toRat_nearOne, abs_of_nonneg hnonneg]
  rcases Bool.eq_false_or_eq_true (nearOne.lt (m.sub one p).abs) with h | h
  · refine .inl ⟨h, ?_⟩
    by_contra! hle
    have hmono := rounded_mono p.digits_pos (by linarith : m.toRat - 1 ≤ (10 : ℤ) / 1000)
    rw [rounded_of_fits (fits_thousandths hp (by norm_num))] at hmono
    push_cast at hmono
    linarith [hiff.mp h]
  · refine .inr ⟨h, ?_⟩
    by_contra! hle
    have hmono := rounded_mono p.digits_pos (by push_cast; linarith : ((11 : ℤ) : ℚ) / 1000 ≤ m.toRat - 1)
    rw [rounded_of_fits (fits_thousandths hp (by norm_num))] at hmono
    push_cast at hmono
    have hlt : 1 / 100 < rounded p.digits (m.toRat - 1) := by linarith
    rw [hiff.mpr hlt] at h
    cases h

/-! ### Roots toward one -/

/-- What is known of the last root: the logarithm has been halved so often, each time up to the error of a rounding, and
where roots were taken at all, there are no more of them than its size calls for. -/
structure RootsFrom (p : Precision) (m last : Decimal) (roots : ℕ) : Prop where
  one_le : 1 ≤ last.toRat
  near : last.toRat < 1011 / 1000
  log : |2 ^ roots * Real.log last.toRat - Real.log m.toRat| ≤ (2 ^ (roots + 1) - 2) * (2 * roundoff p.digits)
  few : roots = 0 ∧ last = m ∨
    1004 / 1000 ≤ last.toRat ∧ 2 ^ roots * (99 / 20000) + 2 * (2 * roundoff p.digits) ≤ Real.log m.toRat

theorem log_ge_of_far (hm : 101 / 100 < m.toRat) : 199 / 20000 ≤ Real.log m.toRat := by
  have hm' := (Rat.cast_lt (K := ℝ)).mpr hm
  push_cast at hm'
  have hlog := Real.le_log_one_add_of_nonneg (by norm_num : (0 : ℝ) ≤ 1 / 100)
  have hmono := Real.log_le_log (by norm_num) (by linarith : (1 + 1 / 100 : ℝ) ≤ m.toRat)
  refine le_trans ?_ (hlog.trans hmono)
  norm_num

/-- A rounded square root of a number that is not near one halves its logarithm. -/
theorem exists_sqrt (hp : 18 ≤ p.digits) (hm : 101 / 100 < m.toRat) (hm' : m.toRat ≤ 10) :
    ∃ c, m.sqrt? p = some c ∧ 1004 / 1000 ≤ c.toRat ∧ c.toRat ≤ 10 ∧
      |Real.log c.toRat - Real.log m.toRat / 2| ≤ 2 * roundoff p.digits := by
  have hpos : (0 : ℝ) < m.toRat := by exact_mod_cast (by linarith : 0 < m.toRat)
  have hm101 := (Rat.cast_lt (K := ℝ)).mpr hm
  push_cast at hm101
  have hm10 : (m.toRat : ℝ) ≤ 10 := by exact_mod_cast hm'
  obtain ⟨c, hc, hround⟩ := isRealRounding_sqrt? (p := p) (by exact_mod_cast hpos.le)
  have hroot : (0 : ℝ) < √(m.toRat : ℝ) := Real.sqrt_pos.mpr hpos
  have herror := hround.abs_sub_le p.digits_pos hroot
  have hhalf := roundoff_le_half p.digits_pos
  refine ⟨c, hc, ?_, ?_, ?_⟩
  · have hfits : Fits p.digits ((1004 : ℤ) / 1000) := fits_thousandths hp (by norm_num)
    have hle : (((1004 : ℤ) / 1000 : ℚ) : ℝ) ≤ √(m.toRat : ℝ) := by
      refine Real.le_sqrt_of_sq_le ?_
      push_cast
      linarith
    have hge := hround.ge_of_fits hfits hle
    push_cast at hge
    exact hge
  · have hsqrt : √(m.toRat : ℝ) ≤ 4 := by
      rw [Real.sqrt_le_left (by norm_num)]
      linarith
    have hle : (c.toRat : ℝ) ≤ 10 := by
      linarith [(abs_le.mp herror).2, mul_le_mul_of_nonneg_right hhalf hroot.le]
    exact_mod_cast hle
  · rw [← Real.log_sqrt hpos.le]
    exact abs_log_sub_log_le hroot hhalf herror

theorem rootsTowardOne_spec (hp : 18 ≤ p.digits) {fuel : ℕ} (count : ℕ) (hm : 1 ≤ m.toRat) (hm' : m.toRat ≤ 10)
    (hfuel : Real.log m.toRat - 2 * (2 * roundoff p.digits) ≤ 2 ^ fuel * (99 / 10000)) :
    ∃ last roots, rootsTowardOne p (fuel + 1) m count = some (last, count + roots) ∧ RootsFrom p m last roots := by
  have hroundoff : roundoff p.digits ≤ 1 / 10 ^ 15 := by
    simpa using mul_roundoff_le (n := 1) hp (by omega)
  have hroundoff' := roundoff_pos p.digits
  norm_num at hroundoff
  induction fuel generalizing m count with
  | zero =>
    rcases nearOne_lt_cases hp hm hm' with ⟨-, hfar⟩ | ⟨hstop, hnear⟩
    · have hlog := log_ge_of_far hfar
      norm_num at hfuel
      linarith
    · refine ⟨m, 0, by rw [rootsTowardOne, hstop]; rfl, hm, hnear, by simp, .inl ⟨rfl, rfl⟩⟩
  | succ fuel ih =>
    rcases nearOne_lt_cases hp hm hm' with ⟨hmore, hfar⟩ | ⟨hstop, hnear⟩
    · obtain ⟨c, hc, hlow, hhigh, hlog⟩ := exists_sqrt hp hfar hm'
      obtain ⟨hlogdown, hlogup⟩ := abs_le.mp hlog
      have hlogm := log_ge_of_far hfar
      rw [pow_succ] at hfuel
      obtain ⟨last, roots, hlast, hspec⟩ := ih (count + 1) (by linarith) hhigh (by linarith)
      refine ⟨last, roots + 1, ?_, hspec.one_le, hspec.near, ?_, .inr ?_⟩
      · have hcount : count + (roots + 1) = count + 1 + roots := by ring
        rw [rootsTowardOne, if_pos hmore, hc, hcount]
        exact hlast
      · -- The error so far is doubled, and that of one more root is added.
        have hrest := hspec.log
        have hsplit : 2 ^ (roots + 1) * Real.log last.toRat - Real.log m.toRat =
            2 * (2 ^ roots * Real.log last.toRat - Real.log c.toRat) +
              2 * (Real.log c.toRat - Real.log m.toRat / 2) := by ring
        have htriangle := abs_add_le (2 * (2 ^ roots * Real.log last.toRat - Real.log c.toRat))
          (2 * (Real.log c.toRat - Real.log m.toRat / 2))
        rw [abs_mul, abs_mul, abs_two] at htriangle
        rw [hsplit, pow_succ _ (roots + 1)]
        linarith
      · rcases hspec.few with ⟨rfl, rfl⟩ | ⟨hmuch, hfew⟩
        · refine ⟨hlow, ?_⟩
          norm_num
          linarith
        · refine ⟨hmuch, ?_⟩
          rw [pow_succ]
          linarith
    · refine ⟨m, 0, by rw [rootsTowardOne, hstop]; rfl, hm, hnear, by simp, .inl ⟨rfl, rfl⟩⟩

/-! ### The logarithm -/

theorem log_ten_lt : Real.log 10 < 232 / 100 := by
  have hpower : Real.log (10 ^ 3) < Real.log (2 ^ 10) := Real.log_lt_log (by norm_num) (by norm_num)
  rw [Real.log_pow, Real.log_pow] at hpower
  push_cast at hpower
  linarith [Real.log_two_lt_d9]

/-- The number of roots suffices for every number from 1 to 10. -/
theorem exists_roots (hp : 18 ≤ p.digits) (hm : 1 ≤ m.toRat) (hm' : m.toRat ≤ 10) :
    ∃ last roots, rootsTowardOne p maxRoots m 0 = some (last, roots) ∧ RootsFrom p m last roots := by
  have hlog : Real.log m.toRat ≤ Real.log 10 :=
    Real.log_le_log (by exact_mod_cast one_pos.trans_le hm) (by exact_mod_cast hm')
  have hfuel : Real.log m.toRat - 2 * (2 * roundoff p.digits) ≤ 2 ^ 63 * (99 / 10000) := by
    have hroundoff := roundoff_pos p.digits
    norm_num
    linarith [log_ten_lt]
  obtain ⟨last, roots, hlast, hspec⟩ := rootsTowardOne_spec hp 0 hm hm' hfuel
  rw [zero_add] at hlast
  exact ⟨last, roots, hlast, hspec⟩

/-- The logarithm of the last root, doubled again, has a small relative error. -/
theorem RootsFrom.abs_sub_le {last : Decimal} {roots : ℕ} (hm : 1 ≤ m.toRat) (h : RootsFrom p m last roots) :
    |2 ^ roots * Real.log last.toRat - Real.log m.toRat| ≤ 809 * roundoff p.digits * Real.log m.toRat := by
  have hroundoff := roundoff_pos p.digits
  have hlog : 0 ≤ Real.log m.toRat := Real.log_nonneg (by exact_mod_cast hm)
  rcases h.few with ⟨rfl, rfl⟩ | ⟨-, hfew⟩
  · rw [pow_zero, one_mul, sub_self, abs_zero]
    positivity
  · refine h.log.trans ?_
    rw [pow_succ]
    have hscale := mul_le_mul_of_nonneg_left hfew hroundoff.le
    have hpower : 0 ≤ roundoff p.digits * 2 ^ roots := by positivity
    linarith [mul_nonneg hroundoff.le hroundoff.le]

/-- A number is one, or greater by so many places after the point. -/
def FarFromOne (m : Decimal) (places : ℕ) : Prop := m.toRat = 1 ∨ 1 + 10 ^ (-places : ℤ) ≤ m.toRat

theorem farFromOne_of_two_le (hm : 2 ≤ m.toRat) : m.FarFromOne 0 := by
  right
  norm_num
  linarith

/-- The argument of the series is moderate. -/
theorem RootsFrom.moderate {last : Decimal} {roots places : ℕ} (h : RootsFrom p m last roots) (hp : 18 ≤ p.digits)
    (hp' : p.digits ≤ 10 ^ 14) (hplaces : places + 3 ≤ 10 ^ 14)
    (hfar : m.FarFromOne places) :
    ((last.toRat - 1) / (last.toRat + 1) : ℝ) = 0 ∨
      Series.Moderate p (places + 3) ((last.toRat - 1) / (last.toRat + 1)) := by
  have hnear := (Rat.cast_lt (K := ℝ)).mpr h.near
  push_cast at hnear
  have hone : (1 : ℝ) ≤ last.toRat := by exact_mod_cast h.one_le
  have hgap : last.toRat = 1 ∨ (10 : ℝ) ^ (-(places + 3 : ℕ) : ℤ) * 4 ≤ last.toRat - 1 := by
    have hsplit : (10 : ℝ) ^ (-(places + 3 : ℕ) : ℤ) * 1000 = 10 ^ (-places : ℤ) := by
      rw [Nat.cast_add, neg_add, zpow_add₀ (by norm_num), mul_assoc]
      norm_num
    have hpos : (0 : ℝ) < 10 ^ (-places : ℤ) := by positivity
    have hle : (10 : ℝ) ^ (-places : ℤ) ≤ 1 := zpow_le_one_of_nonpos₀ (by norm_num) (by omega)
    rcases h.few with ⟨-, rfl⟩ | ⟨hmuch, -⟩
    · refine Or.imp_right (fun hfar => ?_) hfar
      have hfar' := (Rat.cast_le (K := ℝ)).mpr hfar
      push_cast at hfar'
      linarith
    · have hmuch' := (Rat.cast_le (K := ℝ)).mpr hmuch
      push_cast at hmuch'
      exact .inr (by linarith)
  rcases hgap with hgap | hgap
  · left
    rw [hgap]
    norm_num
  · have hleast : (0 : ℝ) < 10 ^ (-(places + 3 : ℕ) : ℤ) := by positivity
    refine .inr ⟨div_pos (by linarith) (by linarith), ?_, ?_, hp, hp', hplaces⟩
    · rw [div_le_iff₀ (by linarith)]
      linarith
    · rw [le_div_iff₀ (by linarith)]
      linarith [mul_le_mul_of_nonneg_left (by linarith : (last.toRat : ℝ) + 1 ≤ 4) hleast.le]

/-- The argument of the series is computed with three roundings. -/
theorem RootsFrom.exists_argument {last : Decimal} {roots places : ℕ} (h : RootsFrom p m last roots)
    (hz : ((last.toRat - 1) / (last.toRat + 1) : ℝ) = 0 ∨
      Series.Moderate p places ((last.toRat - 1) / (last.toRat + 1))) :
    ∃ z, (last.sub one p).div? (last.add one p) p = some z ∧
      Close p.digits 3 z.toRat ((last.toRat - 1) / (last.toRat + 1)) ∧ Fits p.digits z.toRat := by
  have hpos := p.digits_pos
  have hone := h.one_le
  have hten : last.toRat ≤ 10 := h.near.le.trans (by norm_num)
  have hone' : (1 : ℝ) ≤ last.toRat := by exact_mod_cast hone
  have hsub : Close p.digits 1 (last.sub one p).toRat (last.toRat - 1) := by
    have hround := close_rounded hpos (sub_nonneg.mpr hone)
    rw [← toRat_sub_one hone hten] at hround
    exact_mod_cast hround
  have hadd : Close p.digits 1 (last.add one p).toRat (last.toRat + 1) := by
    have hround := close_rounded hpos (by linarith : 0 ≤ last.toRat + 1)
    rw [← toRat_add_one hone hten] at hround
    exact_mod_cast hround
  rcases hz with hzero | hz
  · have hlast : (last.toRat : ℝ) - 1 = 0 := (div_eq_zero_iff.mp hzero).resolve_right (by linarith)
    have hdivisor : (last.add one p).toRat ≠ 0 := by
      exact_mod_cast (hadd.pos hpos (by linarith)).ne'
    refine ⟨zero, div?_of_zero_left ?_ hdivisor p, ?_, ?_⟩
    · have hlast' : last.toRat - 1 = 0 := by exact_mod_cast hlast
      rw [toRat_sub_one hone hten, hlast', rounded_zero]
    · rw [hzero, toRat_zero]
      simp [Close]
    · rw [toRat_zero]
      exact fits_zero _
  · have hfew : ((1 + 1 : ℕ) : ℝ) * roundoff p.digits ≤ 1 / 2 := mul_roundoff_le_half hz.digits_ge (by omega)
    have hlow : 2 * (10 : ℝ) ^ (-(places + 1) : ℤ) ≤ (last.toRat - 1) / (last.toRat + 1) := by
      refine le_trans ?_ hz.ge
      have hleast : (0 : ℝ) < 10 ^ (-(places + 1) : ℤ) := by positivity
      have hsplit : (10 : ℝ) ^ (-places : ℤ) = 10 ^ (-(places + 1) : ℤ) * 10 := by
        rw [← zpow_add_one₀ (by norm_num)]
        congr 1
        ring
      linarith
    have hhigh : 2 * (((last.toRat - 1) / (last.toRat + 1) : ℝ)) ≤ 10 ^ (0 : ℤ) := by
      rw [zpow_zero]
      linarith [hz.le]
    have hrange : -maxExponent ≤ -(places + 1) := by
      have hplaces := hz.places_le
      unfold maxExponent
      omega
    obtain ⟨z, hz, hvalue, hclose⟩ := exists_div_close (by linarith) (by linarith) hsub hadd hfew hlow hhigh hrange
      (by decide)
    refine ⟨z, hz, hclose, ?_⟩
    rw [hvalue]
    exact fits_rounded hpos _

theorem fits_lnNearOne? {c : Decimal} (h : m.lnNearOne? p = some c) : Fits (p.digits + 4) c.toRat := by
  dsimp only [lnNearOne?] at h
  obtain ⟨⟨last, roots⟩, -, h⟩ := Option.bind_eq_some_iff.mp h
  obtain ⟨z, -, h⟩ := Option.bind_eq_some_iff.mp h
  obtain ⟨ending, -, h⟩ := Option.bind_eq_some_iff.mp h
  obtain ⟨sum, -, h⟩ := Option.bind_eq_some_iff.mp h
  rw [← Option.some.inj h, toRat_mul]
  exact fits_rounded (p.guard 4).digits_pos _

/-- The sum of the series is half the logarithm of the last root, and is doubled once more than roots were taken. -/
theorem close_doubled {sum last : Decimal} {n : ℕ} (roots : ℕ) (hone : 1 ≤ last.toRat)
    (h : Close p.digits n sum.toRat
      (1 / 2 * Real.log ((1 + (last.toRat - 1) / (last.toRat + 1)) / (1 - (last.toRat - 1) / (last.toRat + 1))))) :
    Close p.digits (n + 0 + 1) (sum.mul (ofInt (pow2 (roots + 1))) p).toRat (2 ^ roots * Real.log last.toRat) := by
  have hone' : (1 : ℝ) ≤ last.toRat := by exact_mod_cast hone
  have hlast :
      (1 + (last.toRat - 1) / (last.toRat + 1) : ℝ) / (1 - (last.toRat - 1) / (last.toRat + 1)) = last.toRat := by
    field_simp
    ring
  rw [hlast] at h
  have hloglast := Real.log_nonneg hone'
  have hpower : Close p.digits 0 (ofInt (pow2 (roots + 1))).toRat (2 ^ (roots + 1)) := by
    have hvalue : (((ofInt (pow2 (roots + 1))).toRat : ℚ) : ℝ) = 2 ^ (roots + 1) := by
      rw [toRat_ofInt, pow2, Nat.pow_eq]
      push_cast
      rfl
    rw [hvalue]
    exact Close.refl _ _
  have hvalue : 1 / 2 * Real.log last.toRat * 2 ^ (roots + 1) = 2 ^ roots * Real.log last.toRat := by
    rw [pow_succ]
    ring
  rw [← hvalue]
  exact close_mul (by positivity) (by positivity) h hpower

/-- The logarithm of a number from 1 to 10 has a relative error that is less than that of a rounding, as long as there
are not many thousands of digits. -/
theorem lnNearOne?_spec (places : ℕ) (hp : 14 ≤ p.digits) (hp' : p.digits + 4 ≤ 10 ^ 14) (hplaces : places + 3 ≤ 10 ^ 14)
    (hm : 1 ≤ m.toRat) (hm' : m.toRat ≤ 10) (hfar : m.FarFromOne places) :
    ∃ c, m.lnNearOne? p = some c ∧
      |(c.toRat : ℝ) - Real.log m.toRat| ≤ (p.digits + 200) / 300 / 10 ^ p.digits * Real.log m.toRat := by
  obtain ⟨wp, hwp⟩ : ∃ wp, wp = p.guard 4 := ⟨_, rfl⟩
  have hdigits : wp.digits = p.digits + 4 := by rw [hwp]; rfl
  obtain ⟨last, roots, hroots, hspec⟩ := exists_roots (p := wp) (by omega) hm hm'
  have hmoderate := hspec.moderate (by omega) (by omega) hplaces hfar
  obtain ⟨z, hz, hzclose, hzfits⟩ := hspec.exists_argument hmoderate
  obtain ⟨sum, hsum, hsumpos, hclose⟩ := Series.oddPowers?_close hzclose hzfits hmoderate
  refine ⟨sum.mul (ofInt (pow2 (roots + 1))) wp, ?_, ?_⟩
  · dsimp only [lnNearOne?]
    rw [← hwp, hroots, Option.bind_eq_bind, Option.bind_some]
    dsimp only
    rw [hz, Option.bind_eq_bind, Option.bind_some, hsum]
    rfl
  have hproduct := close_doubled roots hspec.one_le hclose
  have hloglast := Real.log_nonneg (by exact_mod_cast hspec.one_le : (1 : ℝ) ≤ last.toRat)
  have herror := hproduct.abs_sub_le wp.digits_pos (by positivity) (mul_roundoff_le_half (by omega) (by omega))
  have hlog : 0 ≤ Real.log m.toRat := Real.log_nonneg (by exact_mod_cast hm)
  have hrest := hspec.abs_sub_le hm
  have hsmall := mul_roundoff_le (p := wp.digits) (n := 1) (by omega) (by omega)
  have htriangle := abs_sub_le ((sum.mul (ofInt (pow2 (roots + 1))) wp).toRat : ℝ) (2 ^ roots * Real.log last.toRat)
    (Real.log m.toRat)
  have hbound : 2 ^ roots * Real.log last.toRat ≤ 101 / 100 * Real.log m.toRat := by
    norm_num at hsmall
    linarith [(abs_le.mp hrest).2, mul_le_mul_of_nonneg_right hsmall hlog]
  have hroundoff : roundoff wp.digits = 5 / 10000 / 10 ^ p.digits := by
    rw [roundoff, hdigits, pow_add]
    ring
  have hscale : (0 : ℝ) < 1 / 10 ^ p.digits := by positivity
  calc |((sum.mul (ofInt (pow2 (roots + 1))) wp).toRat : ℝ) - Real.log m.toRat|
      ≤ 2 * ((3 * wp.digits + 16 + 0 + 1 : ℕ) * roundoff wp.digits) * (2 ^ roots * Real.log last.toRat) +
          809 * roundoff wp.digits * Real.log m.toRat := htriangle.trans (add_le_add herror hrest)
    _ ≤ 2 * ((3 * wp.digits + 16 + 0 + 1 : ℕ) * roundoff wp.digits) * (101 / 100 * Real.log m.toRat) +
          809 * roundoff wp.digits * Real.log m.toRat := by
        gcongr
        exact mul_nonneg zero_le_two (mul_nonneg (Nat.cast_nonneg _) (roundoff_pos _).le)
    _ = (202 / 100 * (3 * p.digits + 29) + 809) * (5 / 10000) * (1 / 10 ^ p.digits) * Real.log m.toRat := by
        rw [hroundoff, hdigits]
        push_cast
        ring
    _ ≤ (p.digits + 200) / 300 * (1 / 10 ^ p.digits) * Real.log m.toRat := by
        gcongr
        have hnonneg : (0 : ℝ) ≤ p.digits := Nat.cast_nonneg _
        linarith
    _ = (p.digits + 200) / 300 / 10 ^ p.digits * Real.log m.toRat := by ring

end

end Calculator.Decimal
