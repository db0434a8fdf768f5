import Calculator.Notation
import Calculator.Proofs.Decimal.Value
import Calculator.Proofs.Token.Numeral
/-!
Written numbers in parts. The three notations are all digits around a point, with an exponent behind them or without;
each has the value of the digits that it writes, and the scanner takes it as one numeral.
-/
namespace Calculator.Notation

theorem digits_zeros (k : ℕ) : Token.Digits (List.replicate k '0') := by
  intro d hd
  rw [List.eq_of_mem_replicate hd]
  decide

theorem digits_append {cs ds : List Char} (hcs : Token.Digits cs) (hds : Token.Digits ds) :
    Token.Digits (cs ++ ds) :=
  fun d hd => (List.mem_append.mp hd).elim (hcs d) (hds d)

/-- An unsigned number in parts: digits, those behind a point if there are any, and an exponent if it is written. -/
structure Literal where
  whole : List Char
  fraction : List Char
  exponent? : Option ℤ
  whole_ne : whole ≠ []
  digits_whole : Token.Digits whole
  digits_fraction : Token.Digits fraction

namespace Literal

/-- The exponent; one that is not written is zero. -/
def exponent (l : Literal) : ℤ := l.exponent?.getD 0

/-- The point and the digits behind it. -/
def point (l : Literal) : List Char := if l.fraction.isEmpty then [] else '.' :: l.fraction

def mark (l : Literal) : List Char := l.exponent?.elim [] exponentMark

def chars (l : Literal) : List Char := l.whole ++ (l.point ++ l.mark)

/-- All digits as one number. -/
def mantissa (l : Literal) : ℕ := Digits.toNat (l.whole ++ l.fraction)

/-- The power of ten of the last digit. -/
def lowest (l : Literal) : ℤ := l.exponent - l.fraction.length

def value (l : Literal) : ℚ := l.mantissa * 10 ^ l.lowest

theorem chars_eq (l : Literal) : l.chars = withPoint l.whole l.fraction ++ l.mark := by
  rw [chars, point, withPoint]
  split
  · rfl
  · exact (List.append_assoc ..).symm

theorem fraction_point (l : Literal) : Token.Fraction l.point := by
  rw [point]
  split
  · exact .none
  · exact .point l.digits_fraction

theorem exponent_exponentMark (e : ℤ) : Token.Exponent (exponentMark e) := by
  have hdigits : Token.Digits (Digits.ofNat e.natAbs) := fun d hd => Digits.isDigit_of_mem_ofNat hd
  rw [exponentMark]
  cases hwritten : Digits.ofNat e.natAbs with
  | nil => exact absurd hwritten (Digits.ofNat_ne_nil _)
  | cons d ds => exact .signed (.inl rfl) (by split <;> simp) (hwritten ▸ hdigits)

theorem writtenExponent_exponentMark (e : ℤ) : Token.writtenExponent (exponentMark e) = e := by
  rw [exponentMark]
  split
  · change (Digits.toNat (Digits.ofNat e.natAbs) : ℤ) = e
    rw [Digits.toNat_ofNat]
    omega
  · change -(Digits.toNat (Digits.ofNat e.natAbs) : ℤ) = e
    rw [Digits.toNat_ofNat]
    omega

theorem exponent_mark (l : Literal) : Token.Exponent l.mark := by
  rw [mark]
  cases l.exponent? with
  | none => exact .none
  | some e => exact exponent_exponentMark e

theorem writtenExponent_mark (l : Literal) : Token.writtenExponent l.mark = l.exponent := by
  rw [mark, exponent]
  cases l.exponent? with
  | none => rfl
  | some e => exact writtenExponent_exponentMark e

/-- What the number says as a numeral. -/
def reading (l : Literal) : Token.Reading := ⟨l.mantissa, l.fraction.length, l.exponent⟩

/-- The scanner takes the number as one numeral. -/
theorem denotes (l : Literal) : Token.Denotes l.chars l.reading := by
  have hfraction : l.point.tail = l.fraction := by
    rw [point]
    split
    · rename_i h
      exact (List.isEmpty_iff.mp h).symm
    · rfl
  have h := Token.Denotes.intro l.digits_whole l.fraction_point l.exponent_mark (.inl l.whole_ne)
  rwa [hfraction, l.writtenExponent_mark] at h

theorem numeral (l : Literal) : Token.Numeral l.chars := l.denotes.numeral

/-- The literal of zero. -/
def zero : Literal where
  whole := ['0']
  fraction := []
  exponent? := none
  whole_ne := by decide
  digits_whole := digits_zeros 1
  digits_fraction := digits_zeros 0

end Literal

/-- The literal is what is written for the digits `d₁.d₂d₃… · 10 ^ leading`, and has their value. -/
structure Writes (digits : List Char) (leading : ℤ) (l : Literal) : Prop where
  chars : l.chars = magnitude digits leading
  value : l.value = Digits.toNat digits * 10 ^ (leading - digits.length + 1)
  exponent : l.exponent = 0 ∨ l.exponent = leading
  lowest : l.lowest = 0 ∨ l.lowest = leading - digits.length + 1

section
variable {digits : List Char} {leading : ℤ}

/-- One digit before the point, and an exponent. -/
theorem exists_exponential (hne : digits ≠ []) (hdigits : Token.Digits digits)
    (h : leading < leastPositional ∨ greatestPositional < leading) : ∃ l, Writes digits leading l := by
  have hlength : 0 < digits.length := List.length_pos_iff.mpr hne
  let l : Literal := {
    whole := digits.take 1
    fraction := digits.drop 1
    exponent? := some leading
    whole_ne := by simp [hne]
    digits_whole := fun d hd => hdigits d (List.mem_of_mem_take hd)
    digits_fraction := fun d hd => hdigits d (List.mem_of_mem_drop hd) }
  have hmantissa : l.mantissa = Digits.toNat digits := congrArg Digits.toNat (List.take_append_drop 1 digits)
  have hlowest : l.lowest = leading - digits.length + 1 := by
    change leading - (digits.drop 1).length = _
    rw [List.length_drop]
    omega
  refine ⟨l, ?_, by rw [Literal.value, hmantissa, hlowest], .inr rfl, .inr hlowest⟩
  rw [l.chars_eq, magnitude, if_pos h]
  rfl

/-- A zero before the point, and zeros behind it. -/
theorem exists_small (hne : digits ≠ []) (hdigits : Token.Digits digits)
    (h : ¬(leading < leastPositional ∨ greatestPositional < leading)) (hsmall : leading < 0) :
    ∃ l, Writes digits leading l := by
  let zeros := List.replicate (-leading - 1).toNat '0'
  let l : Literal := {
    whole := ['0']
    fraction := zeros ++ digits
    exponent? := none
    whole_ne := by decide
    digits_whole := digits_zeros 1
    digits_fraction := digits_append (digits_zeros _) hdigits }
  have hmantissa : l.mantissa = Digits.toNat digits := by
    change Digits.toNat (List.replicate 1 '0' ++ (zeros ++ digits)) = _
    rw [Digits.toNat_append, Digits.toNat_append, Digits.toNat_zeros, Digits.toNat_zeros, mul_zero, mul_zero, zero_add,
      zero_add]
  have hlowest : l.lowest = leading - digits.length + 1 := by
    change 0 - ((zeros ++ digits).length : ℤ) = _
    rw [List.length_append, List.length_replicate]
    omega
  refine ⟨l, ?_, by rw [Literal.value, hmantissa, hlowest], .inl rfl, .inr hlowest⟩
  have hfraction : ¬(zeros ++ digits).isEmpty := by simp [hne]
  rw [l.chars_eq, magnitude, if_neg h, if_pos hsmall, withPoint, if_neg hfraction]
  exact List.append_nil _

/-- All digits up to the ones, with zeros if there are too few. -/
theorem exists_plain (hne : digits ≠ []) (hdigits : Token.Digits digits)
    (h : ¬(leading < leastPositional ∨ greatestPositional < leading)) (hplain : 0 ≤ leading) :
    ∃ l, Writes digits leading l := by
  let width := leading.toNat + 1
  let zeros := List.replicate (width - digits.length) '0'
  let l : Literal := {
    whole := digits.take width ++ zeros
    fraction := digits.drop width
    exponent? := none
    whole_ne := by simp [hne, width]
    digits_whole := digits_append (fun d hd => hdigits d (List.mem_of_mem_take hd)) (digits_zeros _)
    digits_fraction := fun d hd => hdigits d (List.mem_of_mem_drop hd) }
  have hchars : l.chars = magnitude digits leading := by
    rw [l.chars_eq, magnitude, if_neg h, if_neg (by omega)]
    exact List.append_nil _
  rcases Nat.le_total digits.length width with hshort | hlong
  · have hfraction : l.fraction = [] := List.drop_eq_nil_of_le hshort
    have hlowest : l.lowest = 0 := by rw [Literal.lowest, hfraction]; rfl
    have hmantissa : l.mantissa = Digits.toNat digits * 10 ^ (width - digits.length) := by
      rw [Literal.mantissa, hfraction, List.append_nil]
      change Digits.toNat (digits.take width ++ zeros) = _
      rw [List.take_of_length_le hshort, Digits.toNat_append, Digits.toNat_zeros, List.length_replicate, add_zero,
        mul_comm]
    refine ⟨l, hchars, ?_, .inl rfl, .inl hlowest⟩
    have hpadding : leading - digits.length + 1 = (width - digits.length : ℕ) := by omega
    rw [Literal.value, hmantissa, hlowest, hpadding, zpow_zero, mul_one, zpow_natCast, Nat.cast_mul, Nat.cast_pow,
      Nat.cast_ofNat]
  · have hzeros : zeros = [] := by rw [List.replicate_eq_nil_iff]; omega
    have hmantissa : l.mantissa = Digits.toNat digits := by
      change Digits.toNat (digits.take width ++ zeros ++ digits.drop width) = _
      rw [hzeros, List.append_nil, List.take_append_drop]
    have hlowest : l.lowest = leading - digits.length + 1 := by
      change 0 - ((digits.drop width).length : ℤ) = _
      rw [List.length_drop]
      omega
    exact ⟨l, hchars, by rw [Literal.value, hmantissa, hlowest], .inl rfl, .inr hlowest⟩

/-- In each notation the written number has the value of its digits. -/
theorem exists_literal (hne : digits ≠ []) (hdigits : Token.Digits digits) (leading : ℤ) :
    ∃ l, Writes digits leading l := by
  by_cases h : leading < leastPositional ∨ greatestPositional < leading
  · exact exists_exponential hne hdigits h
  · rcases lt_or_ge leading 0 with hsmall | hplain
    · exact exists_small hne hdigits h hsmall
    · exact exists_plain hne hdigits h hplain

end

end Calculator.Notation
