import Calculator.Digits
import Calculator.Token.Lexer
/-!
The numerals that the scanner cuts out of a text, as a set of texts: digits with at most one point and an optional
exponent. A numeral is cut out again from in front of any text that cannot continue it. What it says, whoever reads it,
is a number of digits and a power of ten.
-/
namespace Calculator.Token

/-- Digits, and nothing else; possibly none. -/
def Digits (ds : List Char) : Prop := ∀ d ∈ ds, d.isDigit = true

/-- Nothing, or a point and the digits after it. -/
inductive Fraction : List Char → Prop
  | none : Fraction []
  | point {ds : List Char} (hds : Digits ds) : Fraction ('.' :: ds)

/-- Nothing, or an exponent mark, an optional sign and digits. -/
inductive Exponent : List Char → Prop
  | none : Exponent []
  | unsigned {mark d : Char} {ds : List Char} (hmark : mark = 'e' ∨ mark = 'E') (hds : Digits (d :: ds)) :
      Exponent (mark :: d :: ds)
  | signed {mark sign d : Char} {ds : List Char} (hmark : mark = 'e' ∨ mark = 'E') (hsign : sign = '+' ∨ sign = '-')
      (hds : Digits (d :: ds)) : Exponent (mark :: sign :: d :: ds)

/-- A numeral. It starts with a digit, or with a point and a digit. -/
inductive Numeral : List Char → Prop
  | intro {whole fraction exponent : List Char} (hwhole : Digits whole) (hfraction : Fraction fraction)
      (hexponent : Exponent exponent) (hstart : whole ≠ [] ∨ ∃ d ds, fraction = '.' :: d :: ds) :
      Numeral (whole ++ (fraction ++ exponent))

/-- What a numeral says: its digits as one number, how many of them stand behind the point, and the exponent. -/
structure Reading where
  digits : Nat
  places : Nat
  exponent : Int

/-- The power of ten of the last digit. -/
def Reading.scale (r : Reading) : Int := r.exponent - r.places

/-- The number behind an exponent mark; where none is written it is zero. -/
def writtenExponent : List Char → Int
  | [] => 0
  | _ :: '-' :: ds => -Digits.toNat ds
  | _ :: '+' :: ds => Digits.toNat ds
  | _ :: ds => Digits.toNat ds

/-- The numeral says this. The digits behind a point are those of its fraction but the point. -/
inductive Denotes : List Char → Reading → Prop
  | intro {whole fraction exponent : List Char} (hwhole : Digits whole) (hfraction : Fraction fraction)
      (hexponent : Exponent exponent) (hstart : whole ≠ [] ∨ ∃ d ds, fraction = '.' :: d :: ds) :
      Denotes (whole ++ (fraction ++ exponent))
        ⟨Digits.toNat (whole ++ fraction.tail), fraction.tail.length, writtenExponent exponent⟩

theorem Numeral.exists_denotes {cs : List Char} (h : Numeral cs) : ∃ r, Denotes cs r := by
  obtain ⟨hwhole, hfraction, hexponent, hstart⟩ := h
  exact ⟨_, .intro hwhole hfraction hexponent hstart⟩

theorem Denotes.numeral {cs : List Char} {r : Reading} (h : Denotes cs r) : Numeral cs := by
  obtain ⟨hwhole, hfraction, hexponent, hstart⟩ := h
  exact .intro hwhole hfraction hexponent hstart

theorem mem_fraction {fraction : List Char} {c : Char} (h : Fraction fraction) (hc : c ∈ fraction) :
    c.isDigit = true ∨ c = '.' := by
  cases h with
  | none => cases hc
  | point hds => exact (List.mem_cons.mp hc).symm.imp_left (hds c)

theorem mem_exponent {exponent : List Char} {c : Char} (h : Exponent exponent) (hc : c ∈ exponent) :
    c.isDigit = true ∨ c ∈ ['e', 'E', '+', '-'] := by
  cases h with
  | none => cases hc
  | unsigned hmark hds =>
    rcases List.mem_cons.mp hc with rfl | hc
    · exact .inr (by rcases hmark with rfl | rfl <;> decide)
    · exact .inl (hds c hc)
  | signed hmark hsign hds =>
    rcases List.mem_cons.mp hc with rfl | hc
    · exact .inr (by rcases hmark with rfl | rfl <;> decide)
    rcases List.mem_cons.mp hc with rfl | hc
    · exact .inr (by rcases hsign with rfl | rfl <;> decide)
    · exact .inl (hds c hc)

/-- The characters of numerals. -/
theorem mem_numeral {cs : List Char} {c : Char} (h : Numeral cs) (hc : c ∈ cs) :
    c.isDigit = true ∨ c ∈ ['.', 'e', 'E', '+', '-'] := by
  obtain ⟨hwhole, hfraction, hexponent, -⟩ := h
  rw [List.mem_append, List.mem_append] at hc
  rcases hc with hc | hc | hc
  · exact .inl (hwhole c hc)
  · exact (mem_fraction hfraction hc).imp_right fun hpoint => by simp [hpoint]
  · exact (mem_exponent hexponent hc).imp_right (List.mem_cons_of_mem '.')

/-- Neither a numeral nor a name goes on with the text. -/
def Delimited (rest : List Char) : Prop :=
  ∀ c ∈ rest.head?, continuesName c = false ∧ c ≠ '.'

theorem delimited_nil : Delimited [] := fun _ hc => nomatch hc

theorem delimited_cons {c : Char} (rest : List Char) (h : continuesName c = false ∧ c ≠ '.') :
    Delimited (c :: rest) := by
  intro d hd
  cases hd
  exact h

theorem takeWhile_append_stop {P : Char → Bool} {xs ys : List Char} (hxs : ∀ x ∈ xs, P x = true)
    (hstop : ∀ y ∈ ys.head?, P y = false) : (xs ++ ys).takeWhile P = xs := by
  rw [List.takeWhile_append_of_pos hxs]
  cases ys with
  | nil => rw [List.takeWhile_nil, List.append_nil]
  | cons y ys => rw [List.takeWhile_cons, hstop y rfl, if_neg Bool.false_ne_true, List.append_nil]

theorem takeWhile_digits (cs : List Char) : Digits (cs.takeWhile Char.isDigit) :=
  fun _ hd => List.all_eq_true.mp List.all_takeWhile _ hd

theorem toNat_of_isDigit {c : Char} (h : c.isDigit = true) : 48 ≤ c.toNat ∧ c.toNat ≤ 57 := by
  simp only [Char.isDigit, Bool.and_eq_true, decide_eq_true_eq, ge_iff_le, UInt32.le_iff_toNat_le] at h
  exact h

theorem not_sign_of_isDigit {c : Char} (h : c.isDigit = true) : c ≠ '-' ∧ c ≠ '+' := by
  constructor <;> rintro rfl <;> exact absurd h (by decide)

theorem isDigit_of_continuesName {c : Char} (h : continuesName c = false) : c.isDigit = false := by
  simp only [continuesName, Char.isAlphanum, Bool.or_eq_false_iff] at h
  exact h.1.2

theorem writtenExponent_unsigned {mark d : Char} {ds : List Char} (hd : d.isDigit = true) :
    writtenExponent (mark :: d :: ds) = Digits.toNat (d :: ds) := by
  obtain ⟨hminus, hplus⟩ := not_sign_of_isDigit hd
  unfold writtenExponent
  split
  · rename_i h
    cases h
  · rename_i h
    cases h
    exact absurd rfl hminus
  · rename_i h
    cases h
    exact absurd rfl hplus
  · rename_i h
    cases h
    rfl

theorem Delimited.not_digit {rest : List Char} (h : Delimited rest) : ∀ c ∈ rest.head?, c.isDigit = false :=
  fun c hc => isDigit_of_continuesName (h c hc).1

theorem Delimited.not_mark {rest : List Char} (h : Delimited rest) :
    ∀ c ∈ rest.head?, (c == 'e' || c == 'E') = false := by
  intro c hc
  have hname := (h c hc).1
  rw [Bool.eq_false_iff]
  intro hmark
  rcases Bool.or_eq_true_iff.mp hmark with he | he <;> rw [beq_iff_eq.mp he] at hname <;> exact absurd hname (by decide)

theorem exponentPart_of_not_mark {cs : List Char} (h : ∀ c ∈ cs.head?, (c == 'e' || c == 'E') = false) :
    exponentPart cs = [] := by
  cases cs with
  | nil => rfl
  | cons c cs => simp only [exponentPart, h c rfl, Bool.false_eq_true, if_false]

theorem exponentPart_append {exponent rest : List Char} (h : Exponent exponent) (hrest : Delimited rest) :
    exponentPart (exponent ++ rest) = exponent := by
  cases h with
  | none => exact exponentPart_of_not_mark hrest.not_mark
  | @unsigned mark d ds hmark hds =>
    have hcut := takeWhile_append_stop hds hrest.not_digit
    have hd : d.isDigit = true := hds d List.mem_cons_self
    have hsign : (d == '+' || d == '-') = false := by
      rw [Bool.eq_false_iff]
      intro h
      rcases Bool.or_eq_true_iff.mp h with h | h <;> rw [beq_iff_eq.mp h] at hd <;> exact absurd hd (by decide)
    have hmark' : (mark == 'e' || mark == 'E') = true := by
      rcases hmark with rfl | rfl <;> rfl
    simp only [exponentPart, List.cons_append, hmark', hsign, hd, Bool.false_and, Bool.false_eq_true, if_true, if_false]
    rw [← List.cons_append, hcut]
  | @signed mark sign d ds hmark hsign hds =>
    have hcut := takeWhile_append_stop hds hrest.not_digit
    have hd : d.isDigit = true := hds d List.mem_cons_self
    have hmark' : (mark == 'e' || mark == 'E') = true := by
      rcases hmark with rfl | rfl <;> rfl
    have hsign' : (sign == '+' || sign == '-') = true := by
      rcases hsign with rfl | rfl <;> rfl
    simp only [exponentPart, List.cons_append, hmark', hsign', List.head?_cons, Option.any_some, hd, Bool.and_self,
      if_true]
    rw [← List.cons_append, hcut]

theorem exponent_head {exponent rest : List Char} (h : Exponent exponent) (hrest : Delimited rest) :
    ∀ c ∈ (exponent ++ rest).head?, c.isDigit = false ∧ c ≠ '.' := by
  cases h with
  | none => exact fun c hc => ⟨hrest.not_digit c hc, (hrest c hc).2⟩
  | unsigned hmark _ | signed hmark _ _ =>
    intro c hc
    cases hc
    rcases hmark with rfl | rfl <;> decide

theorem fractionPart_append {fraction rest : List Char} (h : Fraction fraction)
    (hrest : ∀ c ∈ rest.head?, c.isDigit = false ∧ c ≠ '.') : fractionPart (fraction ++ rest) = fraction := by
  cases h with
  | point hds =>
    rw [List.cons_append, fractionPart, takeWhile_append_stop hds fun c hc => (hrest c hc).1]
  | none =>
    cases rest with
    | nil => rfl
    | cons c rest =>
      unfold fractionPart
      split
      · rename_i heq
        exact absurd (List.head_eq_of_cons_eq heq) (hrest c rfl).2
      · rfl

theorem fraction_head {fraction rest : List Char} (h : Fraction fraction)
    (hrest : ∀ c ∈ rest.head?, c.isDigit = false ∧ c ≠ '.') : ∀ c ∈ (fraction ++ rest).head?, c.isDigit = false := by
  cases h with
  | none => exact fun c hc => (hrest c hc).1
  | point _ =>
    intro c hc
    cases hc
    decide

/-- A numeral is cut out again. -/
theorem numeral_append {cs rest : List Char} (h : Numeral cs) (hrest : Delimited rest) : numeral (cs ++ rest) = cs := by
  obtain @⟨whole, fraction, exponent, hwhole, hfraction, hexponent, -⟩ := h
  have hexp := exponent_head hexponent hrest
  have hfrac := fraction_head hfraction hexp
  have hcs : whole ++ (fraction ++ exponent) ++ rest = whole ++ (fraction ++ (exponent ++ rest)) := by
    rw [List.append_assoc, List.append_assoc]
  unfold numeral
  dsimp only
  rw [hcs, takeWhile_append_stop hwhole hfrac, List.drop_left, fractionPart_append hfraction hexp, ← List.drop_drop,
    List.drop_left, List.drop_left, exponentPart_append hexponent hrest, List.append_assoc]

theorem numeral_starts {cs : List Char} (h : Numeral cs) :
    ∃ c t, cs = c :: t ∧ ∀ rest, startsNumeral c (t ++ rest) = true := by
  obtain @⟨whole, fraction, exponent, hwhole, hfraction, hexponent, hstart⟩ := h
  cases whole with
  | cons d ds =>
    refine ⟨d, _, rfl, fun rest => ?_⟩
    rw [startsNumeral, hwhole d List.mem_cons_self, Bool.true_or]
  | nil =>
    rcases hstart with h | ⟨d, ds, rfl⟩
    · exact absurd rfl h
    cases hfraction with
    | point hds =>
      refine ⟨'.', _, rfl, fun rest => ?_⟩
      have hd : d.isDigit = true := hds d List.mem_cons_self
      simp [startsNumeral, hd]

theorem fraction_fractionPart (cs : List Char) : Fraction (fractionPart cs) := by
  unfold fractionPart
  split
  · exact .point (takeWhile_digits _)
  · exact .none

theorem exponent_exponentPart (cs : List Char) : Exponent (exponentPart cs) := by
  unfold exponentPart
  split
  · rename_i mark cs
    split
    · rename_i hmark
      have hmark : mark = 'e' ∨ mark = 'E' := by simpa using hmark
      split
      · rename_i sign ds
        split
        · rename_i h
          obtain ⟨hsign, hhead⟩ := Bool.and_eq_true_iff.mp h
          have hsign : sign = '+' ∨ sign = '-' := by simpa using hsign
          cases ds with
          | nil => cases hhead
          | cons d ds =>
            have hd : d.isDigit = true := hhead
            have hds := takeWhile_digits (d :: ds)
            rw [List.takeWhile_cons, hd, if_pos rfl] at hds ⊢
            exact .signed hmark hsign hds
        · split
          · rename_i hd
            have hds := takeWhile_digits (sign :: ds)
            rw [List.takeWhile_cons, hd, if_pos rfl] at hds ⊢
            exact .unsigned hmark hds
          · exact .none
      · exact .none
    · exact .none
  · exact .none

/-- What is cut out is a numeral, where one starts. -/
theorem numeral_numeral {c : Char} {cs : List Char} (h : startsNumeral c cs = true) : Numeral (numeral (c :: cs)) := by
  unfold numeral
  dsimp only
  rw [List.append_assoc]
  refine .intro (takeWhile_digits _) (fraction_fractionPart _) (exponent_exponentPart _) ?_
  rw [startsNumeral, Bool.or_eq_true_iff] at h
  cases hc : c.isDigit with
  | true =>
    left
    rw [List.takeWhile_cons, hc, if_pos rfl]
    exact List.cons_ne_nil _ _
  | false =>
    right
    rw [hc] at h
    simp only [Bool.false_eq_true, false_or, Bool.and_eq_true, beq_iff_eq] at h
    obtain ⟨rfl, hhead⟩ := h
    cases cs with
    | nil => cases hhead
    | cons d ds =>
      have hd : d.isDigit = true := hhead
      refine ⟨d, ds.takeWhile Char.isDigit, ?_⟩
      rw [List.takeWhile_cons, hc, if_neg Bool.false_ne_true, List.length_nil, List.drop_zero, fractionPart,
        List.takeWhile_cons, hd, if_pos rfl]

/-- The first character that the scanner takes is that of the text. -/
theorem numeral_cons {c : Char} {cs : List Char} (h : startsNumeral c cs = true) :
    c :: (numeral (c :: cs)).tail = numeral (c :: cs) := by
  unfold numeral
  dsimp only
  rw [startsNumeral, Bool.or_eq_true_iff] at h
  cases hc : c.isDigit with
  | true => rw [List.takeWhile_cons, hc, if_pos rfl]; rfl
  | false =>
    rw [hc] at h
    simp only [Bool.false_eq_true, false_or, Bool.and_eq_true, beq_iff_eq] at h
    obtain ⟨rfl, -⟩ := h
    rw [List.takeWhile_cons, hc, if_neg Bool.false_ne_true, List.length_nil, List.drop_zero, fractionPart]
    rfl

end Calculator.Token
