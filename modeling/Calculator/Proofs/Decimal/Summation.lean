import Calculator.Decimal.Series
import Calculator.Proofs.Decimal.Closeness
/-!
Sums of series whose terms and whose partial sums are rounded. What a run gets to, and that it ends there before its steps
do; how far its sum lies from the exact one, if each term lies near the exact one and no partial sum is large.
-/
namespace Calculator.Decimal

/-! ### Terms that are left out, and terms that are added -/

/-- A term that is left out is less than the sum by `p + 2` digits. -/
theorem abs_mul_le_of_negligible {term sum : Decimal} {p : Precision} (h : negligible term sum p = true) :
    |term.toRat| * 10 ^ (p.digits + 2) ≤ |sum.toRat| := by
  rw [negligible, Bool.or_eq_true, isZero_iff, Bool.and_eq_true, Bool.not_eq_true', decide_eq_true_iff] at h
  rcases h with hzero | ⟨hsum, hless⟩
  · rw [hzero, abs_zero, zero_mul]
    exact abs_nonneg _
  · have hm : sum.mantissa ≠ 0 := by simpa [isZero] using hsum
    have hleading : term.leading + (p.digits + 2 : ℕ) < sum.leading := by
      push_cast
      omega
    exact (lt_of_leading hm hleading).le

/-- A term that is added is not zero, and not less than the sum by `p + 3` digits. -/
theorem abs_le_of_not_negligible {term sum : Decimal} {p : Precision} (h : negligible term sum p = false) :
    term.toRat ≠ 0 ∧ |sum.toRat| ≤ |term.toRat| * 10 ^ (p.digits + 3) := by
  rw [negligible, Bool.or_eq_false_iff, Bool.and_eq_false_iff, Bool.not_eq_false', decide_eq_false_iff_not, isZero_iff] at h
  obtain ⟨hzero, hmore⟩ := h
  have hterm : term.toRat ≠ 0 := fun hz => Bool.false_ne_true (hzero.symm.trans (isZero_iff.mpr hz))
  refine ⟨hterm, ?_⟩
  rcases hmore with hsum | hmore
  · rw [hsum, abs_zero]
    positivity
  rcases eq_or_ne sum.toRat 0 with hsum | hsum
  · rw [hsum, abs_zero]
    positivity
  have hlow := (leading_bounds (mt toRat_eq_zero_iff.mpr hterm)).1
  have hhigh := (leading_bounds (mt toRat_eq_zero_iff.mpr hsum)).2
  calc |sum.toRat| ≤ 10 ^ (sum.leading + 1) := hhigh.le
    _ ≤ 10 ^ (term.leading + (p.digits + 3 : ℕ)) := by
      rw [ten_zpow_le]
      push_cast
      omega
    _ = 10 ^ term.leading * 10 ^ (p.digits + 3) := by rw [ten_zpow_add, zpow_natCast]
    _ ≤ |term.toRat| * 10 ^ (p.digits + 3) := by gcongr

/-- A value that would have been the next term is less than the sum by `p + 2` digits, or it is below the range. -/
theorem abs_lt_of_end {next sum : Decimal} {p : Precision} (h : Representable next.toRat → negligible next sum p = true)
    (hbound : |next.toRat| < 10 ^ (maxExponent + 1)) :
    |next.toRat| * 10 ^ (p.digits + 2) ≤ |sum.toRat| ∨ |next.toRat| < 10 ^ (-maxExponent) := by
  by_cases hrange : Representable next.toRat
  · exact .inl (abs_mul_le_of_negligible (h hrange))
  · have hne : next.toRat ≠ 0 := fun hzero => hrange (.inl hzero)
    rw [representable_iff hne, not_and_or, not_le, not_lt] at hrange
    exact .inr (hrange.resolve_right hbound.not_ge)

/-- What is below the range is below any place that a precision has. -/
theorem least_mul_le {n : ℕ} (h : n ≤ 10 ^ 14) : (10 : ℚ) ^ (-maxExponent) * 10 ^ n ≤ 1 / 10 := by
  calc (10 : ℚ) ^ (-maxExponent) * 10 ^ n = 10 ^ (-maxExponent + n) := by rw [ten_zpow_add, zpow_natCast]
    _ ≤ 10 ^ (-1 : ℤ) := by
      rw [ten_zpow_le]
      unfold maxExponent
      omega
    _ = 1 / 10 := by norm_num

namespace Series

variable {σ : Type} {p : Precision} {next : σ → Option (Decimal × σ)} {start state : σ} {first sum : Decimal} {k : ℕ}

/-- The states and sums that a run gets to, with the number of terms that it has added. -/
inductive Gets (p : Precision) (next : σ → Option (Decimal × σ)) (start : σ) (first : Decimal) : ℕ → σ → Decimal → Prop
  | start : Gets p next start first 0 start first
  | add {k : ℕ} {state state' : σ} {sum term : Decimal} (h : Gets p next start first k state sum)
      (hnext : next state = some (term, state')) (hmore : negligible term sum p = false) :
      Gets p next start first (k + 1) state' (sum.add term p)

/-- A run that cannot get far ends where no more term is found or the next one does not count. -/
theorem Gets.run (h : Gets p next start first k state sum) (steps : ℕ)
    (hfew : ∀ j state sum, Gets p next start first j state sum → j < k + steps) :
    ∃ ending, run p next steps state sum = some ending ∧ ∃ j state', Gets p next start first j state' ending.sum ∧
      ∀ term state'', next state' = some (term, state'') → negligible term ending.sum p = true := by
  induction steps generalizing k state sum with
  | zero => exact absurd (hfew k state sum h) (Nat.lt_irrefl k)
  | succ steps ih =>
    rw [Series.run]
    cases hnext : next state with
    | none => exact ⟨.escaped sum, rfl, k, state, h, fun _ _ hsome => by simp [hnext] at hsome⟩
    | some found =>
      obtain ⟨term, state'⟩ := found
      dsimp only
      cases hend : negligible term sum p with
      | true =>
        refine ⟨.settled sum, rfl, k, state, h, fun term' state'' hsome => ?_⟩
        rw [hnext, Option.some.injEq, Prod.mk.injEq] at hsome
        exact hsome.1 ▸ hend
      | false =>
        rw [if_neg Bool.false_ne_true]
        refine ih (h.add hnext hend) fun j state sum hj => ?_
        have hless := hfew j state sum hj
        omega

/-- If each step raises the index, then it is not less than the number of terms. -/
theorem Gets.le_index {next : Position → Option (Decimal × Position)} {start state : Position}
    (hup : ∀ s term s', next s = some (term, s') → s.index < s'.index) (h : Gets p next start first k state sum) :
    k ≤ state.index := by
  induction h with
  | start => exact Nat.zero_le _
  | add _ hnext _ ih => exact Nat.succ_le_of_lt (ih.trans_lt (hup _ _ _ hnext))

/-- An index from which on a factor of the argument over the index is at most a twentieth. -/
def turnOf (x : Decimal) : ℕ := 20 * 10 ^ (x.leading + 1).toNat

theorem mul_abs_le_turnOf (x : Decimal) : 20 * |x.toRat| ≤ turnOf x := by
  have hpower : |x.toRat| ≤ 10 ^ (x.leading + 1).toNat := by
    rcases eq_or_ne x.toRat 0 with hzero | hne
    · rw [hzero, abs_zero]
      positivity
    · calc |x.toRat| ≤ 10 ^ (x.leading + 1) := (leading_bounds (mt toRat_eq_zero_iff.mpr hne)).2.le
        _ ≤ 10 ^ ((x.leading + 1).toNat : ℤ) := ten_zpow_le.mpr (Int.self_le_toNat _)
        _ = 10 ^ (x.leading + 1).toNat := zpow_natCast ..
  rw [turnOf]
  push_cast
  linarith

theorem two_mul_turnOf_le (x : Decimal) : 2 * turnOf x ≤ 10 ^ (x.leading + 4).toNat + 40 := by
  unfold turnOf
  rcases le_or_gt 0 (x.leading + 1) with hnonneg | hneg
  · have hexponent : (x.leading + 4).toNat = (x.leading + 1).toNat + 3 := by omega
    rw [hexponent, pow_add]
    omega
  · have hzero : (x.leading + 1).toNat = 0 := by omega
    rw [hzero, pow_zero]
    exact Nat.le_add_left ..

/-- What the sum of a run that has added `k` terms may be off: by the errors of the terms, and by a unit of each sum. -/
noncomputable def drift (unit : ℝ) (error size : ℕ → ℝ) (k : ℕ) : ℝ :=
  ∑ i ∈ Finset.range k, (error (i + 1) + unit * size (i + 1))

theorem drift_succ (unit : ℝ) (error size : ℕ → ℝ) (k : ℕ) :
    drift unit error size (k + 1) = drift unit error size k + (error (k + 1) + unit * size (k + 1)) :=
  Finset.sum_range_succ _ k

/-- The distance of a sum from the exact one, where `a` are the exact terms. -/
theorem Gets.abs_sum_sub_le {a : ℕ → ℝ} (error size : ℕ → ℝ) (hfirst : (first.toRat : ℝ) = a 0)
    (hterm : ∀ k state sum term state', Gets p next start first k state sum → next state = some (term, state') →
      |(term.toRat : ℝ) - a (k + 1)| ≤ error (k + 1))
    (hsize : ∀ k state sum term state', Gets p next start first k state sum → next state = some (term, state') →
      negligible term sum p = false →
      |(sum.toRat : ℝ) - ∑ i ∈ Finset.range (k + 1), a i| ≤ drift (2 * roundoff p.digits) error size k →
      |(sum.toRat + term.toRat : ℝ)| ≤ size (k + 1))
    (h : Gets p next start first k state sum) :
    |(sum.toRat : ℝ) - ∑ i ∈ Finset.range (k + 1), a i| ≤ drift (2 * roundoff p.digits) error size k := by
  induction h with
  | start => simp [drift, hfirst]
  | @add k state state' sum term h hnext hmore ih =>
    have hroundoff := roundoff_pos p.digits
    have hadd := abs_add_sub_le sum term p
    have hnear := hterm k state sum term state' h hnext
    have hscale := mul_le_mul_of_nonneg_left (hsize k state sum term state' h hnext hmore ih)
      (by positivity : 0 ≤ 2 * roundoff p.digits)
    rw [Finset.sum_range_succ a (k + 1), drift_succ]
    have hsplit : ((sum.add term p).toRat : ℝ) - (∑ i ∈ Finset.range (k + 1), a i + a (k + 1)) =
        ((sum.add term p).toRat - (sum.toRat + term.toRat)) + (sum.toRat - ∑ i ∈ Finset.range (k + 1), a i) +
          (term.toRat - a (k + 1)) := by ring
    rw [hsplit]
    linarith [abs_add_three ((sum.add term p).toRat - (sum.toRat + term.toRat) : ℝ)
      (sum.toRat - ∑ i ∈ Finset.range (k + 1), a i) (term.toRat - a (k + 1))]

end Series
end Calculator.Decimal
