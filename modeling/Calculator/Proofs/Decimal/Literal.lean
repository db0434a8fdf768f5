import Calculator.Decimal.Literal
import Calculator.Proofs.Binary64.Literal
import Calculator.Proofs.Decimal.Arithmetic
import Calculator.Proofs.Notation
import Calculator.Proofs.Token.Words
import Mathlib.Data.List.TakeWhile
/-!
Numerals read as decimal numbers. A numeral has the value that it says, unless its exponents are too much for 64 bits or
the value is out of range. A printed number reads back: in whichever notation it is printed, the text is a sign and a
literal of its absolute value.
-/
namespace Calculator

namespace Token.Reading

/-- The value that a numeral says. -/
def value (r : Reading) : ℚ := r.digits * 10 ^ r.scale

theorem value_nonneg (r : Reading) : 0 ≤ r.value := mul_nonneg (Nat.cast_nonneg _) (Decimal.ten_zpow_pos _).le

theorem value_eq_zero_iff {r : Reading} : r.value = 0 ↔ r.digits = 0 := by
  rw [value, mul_eq_zero, or_iff_left (Decimal.ten_zpow_pos _).ne', Nat.cast_eq_zero]

/-- The value and both exponents, the written one and the one of the last digit, are in range. For zero no more counts
than the written one. -/
def Readable (r : Reading) : Prop :=
  Decimal.fitsWord r.exponent = true ∧
    (r.digits = 0 ∨ Decimal.fitsWord r.scale = true ∧ Decimal.Representable r.value)

instance (r : Reading) : Decidable r.Readable := inferInstanceAs (Decidable (_ ∧ _))

end Token.Reading

namespace Decimal
open Notation

/-! ### Cutting a text -/

section
variable {p : Char → Bool} {cs : List Char}

theorem splitAtFirst_of_none (h : ∀ c ∈ cs, p c = false) : splitAtFirst p cs = (cs, none) := by
  have hrest : cs.dropWhile (!p ·) = [] := List.dropWhile_eq_nil_iff.mpr fun c hc => by rw [h c hc]; rfl
  rw [splitAtFirst, hrest]

theorem splitAtFirst_append (h : ∀ c ∈ cs, p c = false) {c : Char} (hc : p c = true) (rest : List Char) :
    splitAtFirst p (cs ++ c :: rest) = (cs, some rest) := by
  have hkeep : ∀ d ∈ cs, (!p d) = true := fun d hd => by rw [h d hd]; rfl
  have hrest : (cs ++ c :: rest).dropWhile (!p ·) = c :: rest := by
    rw [List.dropWhile_append_of_pos hkeep, List.dropWhile_cons, hc]
    rfl
  have hfront : (cs ++ c :: rest).takeWhile (!p ·) = cs := by
    rw [List.takeWhile_append_of_pos hkeep, List.takeWhile_cons, hc]
    exact List.append_nil cs
  rw [splitAtFirst, hrest, hfront]

theorem trim_eq_self (h : ∀ c ∈ cs, Text.isBlank c = false) : Text.trim cs = cs := by
  have hkeep : ∀ {ds : List Char}, (∀ d ∈ ds, Text.isBlank d = false) → ds.dropWhile Text.isBlank = ds := by
    intro ds hds
    cases ds with
    | nil => rfl
    | cons d ds => rw [List.dropWhile_cons, hds d (.head _), if_neg Bool.false_ne_true]
  rw [Text.trim, hkeep h, hkeep fun c hc => h c (List.mem_reverse.mp hc), List.reverse_reverse]

end

/-! ### Reading an exponent -/

/-- The greatest absolute value of an integer of 64 bits with this sign. -/
def wordLimit (negative : Bool) : ℕ := if negative then 9223372036854775808 else 9223372036854775807

/-- Digits are read as their number, if that is not too much for 64 bits. -/
theorem readDigits_eq (negative : Bool) {n : ℕ} {cs : List Char} (hcs : Token.Digits cs) (hn : n ≤ wordLimit negative) :
    readDigits negative n cs =
      if Nat.ofDigitChars 10 cs n ≤ wordLimit negative then
        .value (if negative then -Nat.ofDigitChars 10 cs n else Nat.ofDigitChars 10 cs n)
      else .overflow := by
  induction cs generalizing n with
  | nil => exact (if_pos hn).symm
  | cons c cs ih =>
    have hc : c.isDigit = true := hcs c (.head _)
    have hnext : 10 * n + Digits.valueOf c ≤ Nat.ofDigitChars 10 (c :: cs) n := by
      rw [Nat.ofDigitChars_cons, Nat.ofDigitChars_eq_ofDigitChars_zero]
      exact Nat.le_add_right_of_le (Nat.le_mul_of_pos_left _ (Nat.pow_pos (by decide)))
    have hstep : readDigits negative n (c :: cs) = if 10 * n + Digits.valueOf c ≤ wordLimit negative then
        readDigits negative (10 * n + Digits.valueOf c) cs else .overflow := by
      rw [readDigits, if_pos hc]
      rfl
    rw [hstep]
    by_cases hle : 10 * n + Digits.valueOf c ≤ wordLimit negative
    · rw [if_pos hle]
      exact ih (fun d hd => hcs d (.tail _ hd)) hle
    · rw [if_neg hle, if_neg fun h => hle (hnext.trans h)]

/-- Digits alone are read as their number with its sign, if that fits in 64 bits. -/
theorem readDigits_zero (negative : Bool) {cs : List Char} (hcs : Token.Digits cs) :
    readDigits negative 0 cs = if fitsWord (if negative then -Digits.toNat cs else Digits.toNat cs) = true then
      .value (if negative then -Digits.toNat cs else Digits.toNat cs) else .overflow := by
  rw [readDigits_eq negative hcs (Nat.zero_le _), ← Digits.toNat_eq]
  refine if_congr ?_ rfl rfl
  rw [fitsWord, decide_eq_true_iff, wordLimit]
  cases negative with
  | false =>
    simp only [Bool.false_eq_true, if_false]
    omega
  | true =>
    simp only [if_true]
    omega

theorem readWord_of_digit {d : Char} (hd : d.isDigit = true) (cs : List Char) :
    readWord (d :: cs) = readDigits false 0 (d :: cs) := by
  obtain ⟨hminus, hplus⟩ := Token.not_sign_of_isDigit hd
  unfold readWord
  split
  · rename_i hcs; cases hcs
  · rename_i hcs; exact absurd (List.head_eq_of_cons_eq hcs) hminus
  · rename_i hcs; exact absurd (List.head_eq_of_cons_eq hcs) hplus
  · rfl

/-- The number behind an exponent mark is read, if it fits in 64 bits. -/
theorem readWord_eq {mark : Char} {cs : List Char} (h : Token.Exponent (mark :: cs)) :
    readWord cs = if fitsWord (Token.writtenExponent (mark :: cs)) = true then
      .value (Token.writtenExponent (mark :: cs)) else .overflow := by
  cases h with
  | @unsigned _ d ds hmark hds =>
    have hd : d.isDigit = true := hds d (.head _)
    rw [readWord_of_digit hd, Token.writtenExponent_unsigned hd]
    exact readDigits_zero false hds
  | @signed _ sign d ds hmark hsign hds =>
    rcases hsign with rfl | rfl
    · exact readDigits_zero false hds
    · exact readDigits_zero true hds

/-! ### Reading a numeral -/

/-- The text behind its sign; a plus is not written. -/
def signed (negative : Bool) (cs : List Char) : List Char := if negative then '-' :: cs else cs

section
variable {cs : List Char}

theorem trim_signed (negative : Bool) (h : Token.Numeral cs) : Text.trim (signed negative cs) = signed negative cs := by
  have hnumeral : ∀ c ∈ cs, Text.isBlank c = false := by
    intro c hc
    rcases Token.mem_numeral h hc with hdigit | hmem
    · have := Token.toNat_of_isDigit hdigit
      exact Token.isBlank_of_printable (by omega) (by omega)
    · have hall : ∀ d ∈ ['.', 'e', 'E', '+', '-'], Text.isBlank d = false := by
        simp [Text.isBlank, Text.blankCodes]
      exact hall c hmem
  refine trim_eq_self ?_
  cases negative with
  | false => exact hnumeral
  | true => exact List.forall_mem_cons.mpr ⟨by decide, hnumeral⟩

theorem takeSign_signed (negative : Bool) (h : Token.Numeral cs) : takeSign (signed negative cs) = (negative, cs) := by
  cases negative with
  | true => rfl
  | false =>
    have hsame : takeSign cs = Binary64.splitSign cs := rfl
    exact hsame.trans (Binary64.splitSign_numeral h)

/-- A numeral is cut at its exponent mark, if it has one. -/
theorem splitAtFirst_exponent {front exponent : List Char} (hfront : ∀ c ∈ front, c.isDigit = true ∨ c = '.')
    (h : Token.Exponent exponent) :
    ∃ exponentText?, splitAtFirst (fun c => c == 'e' || c == 'E') (front ++ exponent) = (front, exponentText?) ∧
      exponentText?.elim (.value 0) readWord =
        if fitsWord (Token.writtenExponent exponent) = true then .value (Token.writtenExponent exponent)
        else .overflow := by
  have hkeep : ∀ c ∈ front, (c == 'e' || c == 'E') = false := by
    intro c hc
    rw [Bool.or_eq_false_iff, beq_eq_false_iff_ne, beq_eq_false_iff_ne]
    rcases hfront c hc with hdigit | rfl
    · constructor <;> rintro rfl <;> exact absurd hdigit (by decide)
    · decide
  cases exponent with
  | nil =>
    refine ⟨none, ?_, rfl⟩
    rw [List.append_nil, splitAtFirst_of_none hkeep]
  | cons mark cs =>
    have hmark : (mark == 'e' || mark == 'E') = true := by
      cases h with
      | unsigned hmark hds | signed hmark hsign hds => rcases hmark with rfl | rfl <;> rfl
    exact ⟨some cs, splitAtFirst_append hkeep hmark cs, readWord_eq h⟩

theorem splitAtFirst_point {whole fraction : List Char} (hwhole : Token.Digits whole) (h : Token.Fraction fraction) :
    ∃ fraction?, splitAtFirst (· == '.') (whole ++ fraction) = (whole, fraction?) ∧
      fraction?.getD [] = fraction.tail := by
  have hkeep : ∀ c ∈ whole, (c == '.') = false := by
    intro c hc
    rw [beq_eq_false_iff_ne]
    rintro rfl
    exact absurd (hwhole '.' hc) (by decide)
  cases h with
  | none =>
    refine ⟨none, ?_, rfl⟩
    rw [List.append_nil, splitAtFirst_of_none hkeep]
  | @point ds hds => exact ⟨some ds, splitAtFirst_append hkeep rfl ds, rfl⟩

end

/-- Digits with an exponent are a number, if that and the exponent are in range. -/
theorem ofDigits?_eq (negative : Bool) {digits : ℕ} (hdigits : digits ≠ 0) (e : ℤ) :
    ofDigits? negative digits e =
      if fitsWord e = true ∧ Representable (digits * 10 ^ e) then
        some (ofParts (if negative then -digits else digits) e)
      else none := by
  have hleading : ∀ n : ℤ, n.natAbs ≤ maxExponent.natAbs → fitsWord n = true := by
    intro n hn
    have hbound : maxExponent.natAbs = 1000000000000000 := rfl
    exact decide_eq_true (by omega)
  have hrange : Representable (digits * 10 ^ e) ↔ (e + Digits.count digits - 1).natAbs ≤ maxExponent.natAbs := by
    have hinRange := inRange_iff (d := ⟨digits, e⟩)
    rw [toRat, Int.cast_natCast] at hinRange
    rw [← hinRange, inRange, Bool.or_eq_true, decide_eq_true_iff]
    exact or_iff_right fun hzero => hdigits (Int.natCast_eq_zero.mp (beq_iff_eq.mp hzero))
  rw [ofDigits?]
  refine if_congr ?_ rfl rfl
  rw [hrange, Bool.and_eq_true, Bool.and_eq_true, decide_eq_true_iff]
  exact ⟨fun h => ⟨h.1.1, h.2⟩, fun h => ⟨⟨h.1, hleading _ h.2⟩, h.2⟩⟩

theorem areDigits_numeral {whole fraction : List Char} (hwhole : Token.Digits whole)
    (hfraction : Token.Fraction fraction) (hstart : whole ≠ [] ∨ ∃ d ds, fraction = '.' :: d :: ds) :
    Digits.areDigits (whole ++ fraction.tail) = true := by
  have hne : (whole ++ fraction.tail).isEmpty = false := by
    rw [List.isEmpty_eq_false_iff]
    rcases hstart with hne | ⟨d, ds, rfl⟩
    · exact List.append_ne_nil_of_left_ne_nil hne _
    · exact List.append_ne_nil_of_right_ne_nil _ (List.cons_ne_nil d ds)
  have hall : ∀ d ∈ whole ++ fraction.tail, d.isDigit = true := by
    refine List.forall_mem_append.mpr ⟨hwhole, ?_⟩
    cases hfraction with
    | none => exact List.forall_mem_nil _
    | point hds => exact hds
  rw [Digits.areDigits, hne]
  exact List.all_eq_true.mpr hall

/-- Once a text is cut and has digits, what stands behind its exponent mark decides. -/
theorem parse_of_cut {text : String} {negative : Bool} {body whole fraction : List Char}
    {exponentText? : Option (List Char)} (hsign : takeSign (Text.trim text.toList) = (negative, body))
    (hcut : splitAtFirst (fun c => c == 'e' || c == 'E') body = (whole ++ fraction, exponentText?))
    (hwhole : Token.Digits whole) (hfraction : Token.Fraction fraction)
    (hstart : whole ≠ [] ∨ ∃ d ds, fraction = '.' :: d :: ds) :
    (exponentText?.elim (.value 0) readWord = .malformed → parse text = .error (.invalid text)) ∧
      (exponentText?.elim (.value 0) readWord = .overflow → parse text = .error (.outOfRange text)) ∧
      ∀ e, exponentText?.elim (.value 0) readWord = .value e →
        parse text = if Digits.toNat (whole ++ fraction.tail) = 0 then .ok zero
          else (ofDigits? negative (Digits.toNat (whole ++ fraction.tail)) (e - fraction.tail.length)).elim
            (.error (.outOfRange text)) .ok := by
  obtain ⟨fraction?, hpoint, hplaces⟩ := splitAtFirst_point hwhole hfraction
  unfold parse
  rw [hsign]
  dsimp only
  rw [hcut]
  dsimp only
  rw [hpoint]
  dsimp only
  rw [hplaces, areDigits_numeral hwhole hfraction hstart, if_neg (by decide)]
  refine ⟨fun hread => by rw [hread], fun hread => by rw [hread], fun e hread => ?_⟩
  rw [hread]
  dsimp only
  split
  · rfl
  · cases ofDigits? negative (Digits.toNat (whole ++ fraction.tail)) (e - fraction.tail.length) <;> rfl

/-- A text between whose blanks a sign stands before a numeral, or none, is read as the number that it says. -/
theorem parse_of_denotes {text : String} {negative : Bool} {cs : List Char} {r : Token.Reading}
    (hsign : takeSign (Text.trim text.toList) = (negative, cs)) (h : Token.Denotes cs r) :
    parse text =
      if r.Readable then .ok (ofParts (if negative then -r.digits else r.digits) r.scale)
      else .error (.outOfRange text) := by
  obtain @⟨whole, fraction, exponent, hwhole, hfraction, hexponent, hstart⟩ := h
  have hfront : ∀ c ∈ whole ++ fraction, c.isDigit = true ∨ c = '.' := fun c hc =>
    (List.mem_append.mp hc).elim (fun hc => .inl (hwhole c hc)) (Token.mem_fraction hfraction)
  obtain ⟨exponentText?, hcut, hword⟩ := splitAtFirst_exponent hfront hexponent
  rw [List.append_assoc] at hcut
  obtain ⟨-, hoverflow, hvalue⟩ := parse_of_cut hsign hcut hwhole hfraction hstart
  by_cases hfits : fitsWord (Token.writtenExponent exponent) = true
  · rw [hvalue _ (hword.trans (if_pos hfits))]
    by_cases hzero : Digits.toNat (whole ++ fraction.tail) = 0
    · rw [if_pos hzero, if_pos ⟨hfits, .inl hzero⟩, hzero]
      cases negative <;> rfl
    · rw [if_neg hzero, ofDigits?_eq negative hzero]
      by_cases hvalue : fitsWord (Token.writtenExponent exponent - fraction.tail.length) = true ∧
          Representable (Digits.toNat (whole ++ fraction.tail) *
            10 ^ (Token.writtenExponent exponent - fraction.tail.length))
      · have hreadable : Token.Reading.Readable ⟨Digits.toNat (whole ++ fraction.tail), fraction.tail.length,
            Token.writtenExponent exponent⟩ := ⟨hfits, .inr hvalue⟩
        rw [if_pos hvalue, if_pos hreadable]
        rfl
      · rw [if_neg hvalue, if_neg fun h => hvalue (h.2.resolve_left hzero)]
        rfl
  · rw [hoverflow (hword.trans (if_neg hfits)), if_neg fun h => hfits h.1]

/-- A numeral behind a minus sign or none. -/
theorem parse_signed (negative : Bool) {cs : List Char} {r : Token.Reading} (h : Token.Denotes cs r) :
    parse (String.ofList (signed negative cs)) =
      if r.Readable then .ok (ofParts (if negative then -r.digits else r.digits) r.scale)
      else .error (.outOfRange (String.ofList (signed negative cs))) := by
  refine parse_of_denotes ?_ h
  rw [String.toList_ofList, trim_signed negative h.numeral, takeSign_signed negative h.numeral]

/-! ### The literal of a number -/

/-- The literal has the absolute value of the number, and its exponents are the number's or zero. -/
structure WrittenBy (l : Literal) (d : Decimal) : Prop where
  value : l.value = |d.toRat|
  exponent : l.exponent = 0 ∨ l.exponent = d.leading
  lowest : l.lowest = 0 ∨ l.lowest = d.exponent

section
variable {d : Decimal} {l : Literal}

theorem WrittenBy.abs (h : WrittenBy l d) : WrittenBy l d.abs where
  value := by rw [h.value, toRat_abs, abs_abs]
  exponent := h.exponent
  lowest := h.lowest

theorem writtenBy_zero : WrittenBy Literal.zero zero where
  value := by rw [toRat_zero, abs_zero]; exact zero_mul _
  exponent := .inl rfl
  lowest := .inl rfl

/-- A number is printed as its sign and a literal. -/
theorem Normal.exists_literal (hd : d.Normal) :
    ∃ l, WrittenBy l d ∧ d.print = String.ofList (signed d.isNegative l.chars) := by
  by_cases hzero : d.mantissa = 0
  · rw [hd.eq_zero hzero]
    exact ⟨Literal.zero, writtenBy_zero, rfl⟩
  · have hdvd : ¬10 ∣ d.mantissa.natAbs := fun h => hd.not_dvd hzero (Int.natCast_dvd.mpr h)
    have hne := Digits.ofNat_ne_nil d.mantissa.natAbs
    obtain ⟨l, hl⟩ := Notation.exists_literal hne (fun _ hc => Digits.isDigit_of_mem_ofNat hc) d.leading
    have hlowest : d.leading - (Digits.ofNat d.mantissa.natAbs).length + 1 = d.exponent := by
      rw [Digits.length_ofNat, leading, digits]
      ring
    refine ⟨l, ⟨?_, hl.exponent, hlowest ▸ hl.lowest⟩, ?_⟩
    · rw [hl.value, hlowest, Digits.toNat_ofNat, abs_toRat]
    · have hprinted : d.isZero = false := beq_eq_false_iff_ne.mpr hzero
      rw [print, hprinted, if_neg Bool.false_ne_true, Notation.write, Digits.dropZeros_ofNat hdvd,
        List.isEmpty_eq_false_iff.mpr hne, if_neg Bool.false_ne_true, ← hl.chars]
      rfl

theorem Normal.leading_le (hd : d.Normal) (hrange : d.inRange = true) : d.leading.natAbs ≤ maxExponent.natAbs := by
  rw [inRange, Bool.or_eq_true, decide_eq_true_iff] at hrange
  refine hrange.elim (fun hzero => ?_) id
  rw [hd.eq_zero (beq_iff_eq.mp hzero)]
  decide +kernel

/-- The digits of a literal with their exponent are the number, with its sign. -/
theorem WrittenBy.toRat_ofParts (h : WrittenBy l d) :
    (ofParts (if d.isNegative then -l.mantissa else l.mantissa) l.lowest).toRat = d.toRat := by
  have hvalue : l.mantissa * 10 ^ l.lowest = |d.toRat| := h.value
  rw [Decimal.toRat_ofParts]
  split
  · rename_i hneg
    rw [Int.cast_neg, Int.cast_natCast, neg_mul, hvalue, abs_of_neg (isNegative_iff.mp hneg), neg_neg]
  · rename_i hneg
    rw [Int.cast_natCast, hvalue, abs_of_nonneg (not_lt.mp (mt isNegative_iff.mpr hneg))]

/-- A literal of a number in the exponent range reads back. -/
theorem WrittenBy.parse_eq (h : WrittenBy l d) (hd : d.Normal) (hrange : d.inRange = true)
    (hword : fitsWord d.exponent = true) : parse (String.ofList (signed d.isNegative l.chars)) = .ok d := by
  have hzeroFits : fitsWord 0 = true := by decide
  have hleading := hd.leading_le hrange
  have hbound : maxExponent.natAbs = 1000000000000000 := rfl
  have hexponent : fitsWord l.exponent = true := by
    rcases h.exponent with hzero | heq
    · rwa [hzero]
    · rw [heq]
      exact decide_eq_true (by omega)
  have hlowest : fitsWord l.lowest = true := by
    rcases h.lowest with hzero | heq
    · rwa [hzero]
    · rwa [heq]
  have hvalue : Representable l.reading.value := by
    have habs : l.reading.value = d.abs.toRat := by
      rw [toRat_abs]
      exact h.value
    rw [habs, ← inRange_iff, inRange_abs]
    exact hrange
  rw [parse_signed d.isNegative l.denotes, if_pos ⟨hexponent, .inr ⟨hlowest, hvalue⟩⟩]
  exact congrArg Except.ok ((normal_ofParts _ _).eq_of_toRat hd h.toRat_ofParts)

/-- A printed number reads back, whatever its notation, if its exponent fits in 64 bits. -/
theorem Normal.parse_printed (hd : d.Normal) (hrange : d.inRange = true) (hword : fitsWord d.exponent = true) :
    parse d.print = .ok d := by
  obtain ⟨l, hl, hprint⟩ := hd.exists_literal
  rw [hprint]
  exact hl.parse_eq hd hrange hword

/-- The exponent of a number with not too many digits fits in 64 bits. -/
theorem fitsWord_exponent (hd : d.Normal) (hrange : d.inRange = true) (hdigits : d.digits ≤ Precision.maxDigits) :
    fitsWord d.exponent = true := by
  have hleading := hd.leading_le hrange
  have hbound : maxExponent.natAbs = 1000000000000000 := rfl
  have hmax : Precision.maxDigits = 1000 := rfl
  have hdef : d.leading = d.exponent + d.digits - 1 := rfl
  exact decide_eq_true (by omega)

end

end Decimal
end Calculator
