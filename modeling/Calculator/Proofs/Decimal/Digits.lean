import Calculator.Decimal
import Mathlib.Data.Nat.Log
import Mathlib.Tactic.Ring
/-!
How many digits a number has, and which ones. The count is one more than the logarithm and the length of the written
digits, and these read back as the number.
-/
namespace Calculator

theorem pow10_eq (n : ℕ) : pow10 n = 10 ^ n := rfl

namespace Digits

/-! ### The count -/

theorem lt_pow_countFrom (n d : ℕ) : n < 10 ^ countFrom n d := by
  fun_induction countFrom n d with
  | case1 d h => exact h
  | case2 d h ih => exact ih

theorem countFrom_le {n d k : ℕ} (hd : d ≤ k) (hn : n < 10 ^ k) : countFrom n d ≤ k := by
  fun_induction countFrom n d with
  | case1 d h => exact hd
  | case2 d h ih =>
    refine ih (Nat.lt_of_le_of_ne hd ?_)
    rintro rfl
    exact h hn

/-- A power of two that is at least a power of ten stays so for all fractions of its exponent. -/
theorem pow_le_of_ratio {a b : ℕ} (hb : b ≠ 0) (h : 10 ^ a ≤ 2 ^ b) {n m : ℕ} (hm : m * b ≤ a * n) :
    10 ^ m ≤ 2 ^ n := by
  have hpower : (10 ^ m) ^ b ≤ (2 ^ n) ^ b := by
    calc (10 ^ m) ^ b
        = 10 ^ (m * b) := (pow_mul ..).symm
      _ ≤ 10 ^ (a * n) := Nat.pow_le_pow_right (by decide) hm
      _ = (10 ^ a) ^ n := pow_mul ..
      _ ≤ (2 ^ b) ^ n := Nat.pow_le_pow_left h n
      _ = (2 ^ n) ^ b := by rw [← pow_mul, ← pow_mul, mul_comm]
  exact (Nat.pow_le_pow_iff_left hb).mp hpower

/-- The start of the search is below the number of digits. -/
theorem pow_start_le (n : ℕ) : 10 ^ (n * 30102 / 100000) ≤ 2 ^ n :=
  pow_le_of_ratio (by decide) (by decide +kernel : 10 ^ 15051 ≤ 2 ^ 50000) (by omega)

theorem count_eq (n : ℕ) : count n = Nat.log 10 n + 1 := by
  have hlt := Nat.lt_pow_succ_log_self (by decide : 1 < 10) n
  unfold count
  rcases Nat.eq_zero_or_pos n with rfl | hn
  · decide +kernel
  have hstart : 10 ^ (n.log2 * 30102 / 100000) ≤ n :=
    (pow_start_le _).trans (Nat.log2_self_le (Nat.ne_of_gt hn))
  have hbegin : n.log2 * 30102 / 100000 ≤ Nat.log 10 n := Nat.le_log_of_pow_le (by decide) hstart
  have hle := countFrom_le (Nat.le_succ_of_le hbegin) hlt
  have hge : Nat.log 10 n < countFrom n (n.log2 * 30102 / 100000) :=
    Nat.log_lt_of_lt_pow (Nat.ne_of_gt hn) (lt_pow_countFrom n _)
  omega

theorem count_pos (n : ℕ) : 0 < count n := by
  rw [count_eq]
  exact Nat.succ_pos _

theorem lt_pow_count (n : ℕ) : n < 10 ^ count n := by
  rw [count_eq]
  exact Nat.lt_pow_succ_log_self (by decide) n

theorem pow_count_le {n : ℕ} (hn : n ≠ 0) : 10 ^ (count n - 1) ≤ n := by
  rw [count_eq]
  exact Nat.pow_log_le_self 10 hn

theorem count_le_iff {n k : ℕ} (hk : 0 < k) : count n ≤ k ↔ n < 10 ^ k := by
  constructor
  · exact fun h => (lt_pow_count n).trans_le (Nat.pow_le_pow_right (by decide) h)
  · intro h
    rw [count_eq]
    exact Nat.log_lt_of_lt_pow' (Nat.ne_of_gt hk) h

theorem count_mono {m n : ℕ} (h : m ≤ n) : count m ≤ count n := by
  rw [count_eq, count_eq]
  exact Nat.succ_le_succ (Nat.log_mono_right h)

theorem count_mul_le (m n : ℕ) : count (m * n) ≤ count m + count n := by
  rw [count_le_iff (Nat.add_pos_left (count_pos m) _), pow_add]
  exact Nat.mul_lt_mul'' (lt_pow_count m) (lt_pow_count n)

theorem count_mul_pow10_le (n k : ℕ) : count (n * pow10 k) ≤ count n + k := by
  rw [count_le_iff (Nat.add_pos_left (count_pos n) _), pow_add, pow10_eq]
  exact Nat.mul_lt_mul_of_pos_right (lt_pow_count n) (Nat.pow_pos (by decide))

theorem count_add_le (m n : ℕ) : count (m + n) ≤ max (count m) (count n) + 1 := by
  have hm := (lt_pow_count m).trans_le (Nat.pow_le_pow_right (by decide : 0 < 10) (le_max_left (count m) (count n)))
  have hn := (lt_pow_count n).trans_le (Nat.pow_le_pow_right (by decide : 0 < 10) (le_max_right (count m) (count n)))
  rw [count_le_iff (Nat.succ_pos _), pow_succ]
  omega

/-- Without its last digit a number has one digit less, if it has more than one. -/
theorem count_div_ten {n : ℕ} (hn : 10 ≤ n) : count (n / 10) + 1 = count n := by
  have hlog : 0 < Nat.log 10 n := Nat.log_pos (by decide) hn
  rw [count_eq, count_eq, Nat.log_div_base]
  omega

/-! ### Written digits -/

theorem toNat_eq (cs : List Char) : toNat cs = Nat.ofDigitChars 10 cs 0 := rfl

theorem toNat_append (cs ds : List Char) : toNat (cs ++ ds) = 10 ^ ds.length * toNat cs + toNat ds := by
  rw [toNat_eq, Nat.ofDigitChars_append, Nat.ofDigitChars_eq_ofDigitChars_zero]
  rfl

theorem toNat_zeros (k : ℕ) : toNat (List.replicate k '0') = 0 := by
  rw [toNat_eq, Nat.ofDigitChars_replicate_zero, mul_zero]

theorem toNat_ofNat (n : ℕ) : toNat (ofNat n) = n := Nat.ofDigitChars_ten_toDigits

theorem ofNat_ne_nil (n : ℕ) : ofNat n ≠ [] := Nat.toDigits_ne_nil

theorem isDigit_of_mem_ofNat {n : ℕ} {c : Char} (h : c ∈ ofNat n) : c.isDigit = true :=
  Nat.isDigit_of_mem_toDigits (by decide) (by decide) h

theorem length_ofNat (n : ℕ) : (ofNat n).length = count n := by
  have hwritten := Nat.length_toDigits_pos (b := 10) (n := n)
  have hle {k : ℕ} (hk : 0 < k) : (ofNat n).length ≤ k ↔ count n ≤ k :=
    (Nat.length_toDigits_le_iff (by decide) hk).trans (count_le_iff hk).symm
  exact Nat.le_antisymm ((hle (count_pos n)).mpr (Nat.le_refl _)) ((hle hwritten).mp (Nat.le_refl _))

/-- The digits of a number that does not end in zero do not either. -/
theorem dropZeros_ofNat {n : ℕ} (hn : ¬10 ∣ n) : dropZeros (ofNat n) = ofNat n := by
  have hlast : ((n % 10).digitChar == '0') = false := by
    have hchar : ∀ k < 10, k ≠ 0 → (k.digitChar == '0') = false := by decide
    exact hchar (n % 10) (Nat.mod_lt n (by decide)) (mt Nat.dvd_of_mod_eq_zero hn)
  obtain ⟨front, hsplit⟩ : ∃ front, ofNat n = front ++ [(n % 10).digitChar] := by
    rw [ofNat, Nat.toDigits_eq_if (by decide)]
    split
    · rename_i hlt
      exact ⟨[], by rw [Nat.mod_eq_of_lt hlt, List.nil_append]⟩
    · exact ⟨_, rfl⟩
  rw [hsplit, dropZeros, List.reverse_concat, List.dropWhile_cons, hlast, if_neg Bool.false_ne_true,
    List.reverse_cons, List.reverse_reverse]

end Digits
end Calculator
