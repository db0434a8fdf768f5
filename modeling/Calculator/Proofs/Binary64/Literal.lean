import Calculator.Binary64.Literal
import Calculator.Proofs.Token.Numeral
/-! Every numeral that the scanner cuts out is the text of a double. -/
namespace Calculator.Binary64
open Token

theorem splitSign_of_head {cs : List Char} (h : ∀ c ∈ cs.head?, c ≠ '-' ∧ c ≠ '+') : splitSign cs = (false, cs) := by
  unfold splitSign
  split
  · exact absurd rfl (h '-' rfl).1
  · exact absurd rfl (h '+' rfl).2
  · rfl

theorem exponent?_eq {sign : Bool} {cs : List Char} {d : Char} {ds : List Char} (hds : Token.Digits (d :: ds))
    (hsign : splitSign cs = (sign, d :: ds)) :
    exponent? cs = some (if sign then -(Digits.toNat (d :: ds) : Int) else Digits.toNat (d :: ds)) := by
  have hdigits : Digits.areDigits (d :: ds) = true := List.all_eq_true.mpr hds
  rw [exponent?, hsign]
  exact if_pos hdigits

/-- The exponent of a numeral is read as the number that it writes. -/
theorem exponentOfRest?_eq {cs : List Char} (h : Exponent cs) : exponentOfRest? cs = some (writtenExponent cs) := by
  cases h with
  | none => rfl
  | @unsigned mark d ds hmark hds =>
    have hmark' : (mark == 'e' || mark == 'E') = true := by rcases hmark with rfl | rfl <;> rfl
    have hd : d.isDigit = true := hds d (.head _)
    have hsign : splitSign (d :: ds) = (false, d :: ds) := by
      refine splitSign_of_head fun c hc => ?_
      exact not_sign_of_isDigit (hds c (List.mem_of_mem_head? hc))
    rw [exponentOfRest?, if_pos hmark', exponent?_eq hds hsign, writtenExponent_unsigned hd, if_neg Bool.false_ne_true]
  | @signed mark sign d ds hmark hsign hds =>
    have hmark' : (mark == 'e' || mark == 'E') = true := by rcases hmark with rfl | rfl <;> rfl
    rw [exponentOfRest?, if_pos hmark']
    rcases hsign with rfl | rfl
    · have hplus : splitSign ('+' :: d :: ds) = (false, d :: ds) := rfl
      exact exponent?_eq hds hplus
    · have hminus : splitSign ('-' :: d :: ds) = (true, d :: ds) := rfl
      exact exponent?_eq hds hminus

theorem decimal?_eq {cs : List Char} {r : Reading} (h : Denotes cs r) : decimal? cs = some (r.digits, r.scale) := by
  obtain @⟨whole, fraction, exponent, hwhole, hfraction, hexponent, hstart⟩ := h
  have hexp := exponent_head hexponent delimited_nil
  have hfrac := fraction_head hfraction hexp
  rw [List.append_nil] at hexp hfrac
  unfold decimal?
  dsimp only
  rw [takeWhile_append_stop hwhole hfrac, List.drop_left]
  cases hfraction with
  | none =>
    have hne : whole.isEmpty = false := by simpa using hstart
    rw [List.nil_append]
    split
    · exact absurd rfl (hexp '.' rfl).2
    · dsimp only
      rw [hne, Bool.false_and, if_neg Bool.false_ne_true, exponentOfRest?_eq hexponent]
      rfl
  | @point ds hds =>
    have hne : (whole.isEmpty && ds.isEmpty) = false := by
      rw [Bool.and_eq_false_iff, List.isEmpty_eq_false_iff, List.isEmpty_eq_false_iff]
      rcases hstart with hwhole | ⟨d, rest, hpoint⟩
      · exact .inl hwhole
      · rw [(List.cons.inj hpoint).2]
        exact .inr (List.cons_ne_nil d rest)
    have hstop : ∀ c ∈ exponent.head?, c.isDigit = false := fun c hc => (hexp c hc).1
    have hrest : (ds ++ exponent).dropWhile Char.isDigit = exponent := by
      have hall := List.takeWhile_append_dropWhile (p := Char.isDigit) (l := ds ++ exponent)
      rw [takeWhile_append_stop hds hstop] at hall
      exact List.append_cancel_left hall
    change (if (whole.isEmpty && ((ds ++ exponent).takeWhile Char.isDigit).isEmpty) = true then none else
      (exponentOfRest? ((ds ++ exponent).dropWhile Char.isDigit)).map fun e =>
        (Digits.toNat (whole ++ (ds ++ exponent).takeWhile Char.isDigit),
          e - (((ds ++ exponent).takeWhile Char.isDigit).length : Int))) = _
    rw [takeWhile_append_stop hds hstop, hrest, hne, if_neg Bool.false_ne_true, exponentOfRest?_eq hexponent]
    rfl

theorem toLower_of_isDigit {c : Char} (h : c.isDigit = true) : c.toLower = c := by
  have hbounds := toNat_of_isDigit h
  refine dif_neg fun hupper => ?_
  have hlow : 65 ≤ c.toNat := UInt32.le_iff_toNat_le.mp hupper.1
  omega

/-- A numeral is no word for a value that is not finite. -/
theorem word_ne {cs : List Char} (h : Numeral cs) {first : Char} (rest : List Char)
    (hfirst : first.isDigit = false ∧ first ≠ '.') :
    String.ofList (cs.map Char.toLower) ≠ String.ofList (first :: rest) := by
  intro hword
  obtain ⟨c, t, rfl, hstarts⟩ := numeral_starts h
  have hc := hstarts []
  rw [startsNumeral, Bool.or_eq_true, Bool.and_eq_true, beq_iff_eq] at hc
  have hhead : c.toLower = first := List.head_eq_of_cons_eq (String.ofList_injective hword)
  rcases hc with hdigit | ⟨rfl, -⟩
  · rw [toLower_of_isDigit hdigit] at hhead
    rw [← hhead, hdigit] at hfirst
    cases hfirst.1
  · exact hfirst.2 hhead.symm

theorem splitSign_numeral {cs : List Char} (h : Numeral cs) : splitSign cs = (false, cs) := by
  obtain ⟨c, t, rfl, hstarts⟩ := numeral_starts h
  refine splitSign_of_head fun d hd => ?_
  cases hd
  have hc := hstarts []
  constructor <;> rintro rfl <;> simp [startsNumeral] at hc

/-- A numeral is read as the double nearest to what it says. -/
theorem read?_of_denotes {cs : List Char} {r : Reading} (h : Denotes cs r) :
    read? (String.ofList cs) = some (ofDecimal false r.digits r.scale) := by
  have hinf : String.ofList (cs.map Char.toLower) ≠ "inf" := word_ne h.numeral _ (by decide)
  have hinfinity : String.ofList (cs.map Char.toLower) ≠ "infinity" := word_ne h.numeral _ (by decide)
  have hnan : String.ofList (cs.map Char.toLower) ≠ "nan" := word_ne h.numeral _ (by decide)
  rw [read?, String.toList_ofList, splitSign_numeral h.numeral]
  dsimp only
  rw [if_neg (not_or.mpr ⟨hinf, hinfinity⟩), if_neg hnan, decimal?_eq h]
  rfl

theorem read?_of_numeral {cs : List Char} (h : Numeral cs) : ∃ x, read? (String.ofList cs) = some x := by
  obtain ⟨r, hr⟩ := h.exists_denotes
  exact ⟨_, read?_of_denotes hr⟩

end Calculator.Binary64
