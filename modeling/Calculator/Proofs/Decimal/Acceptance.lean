import Calculator.Proofs.Decimal.Literal
/-!
Which texts are decimal numbers, and why others are refused. The reader cuts a text at its sign, its first exponent mark
and its first point; what it accepts are exactly the literals, an optional sign and a numeral between blanks, whose value
is zero or in range, and the number that is read is the value itself, in normal form. A text is refused for its range if
it is a literal whose value is out of range, and also if the first digits of its exponent are too much for 64 bits, even
where the value is zero or the text is no literal.
-/
namespace Calculator

namespace Digits

theorem toNat_lt {cs : List Char} (h : Token.Digits cs) : toNat cs < 10 ^ cs.length := by
  induction cs with
  | nil => decide
  | cons c cs ih =>
    have hc := Token.toNat_of_isDigit (h c (.head _))
    have hrest := ih fun d hd => h d (.tail _ hd)
    have hvalue : valueOf c ≤ 9 := by
      show c.toNat - 48 ≤ 9
      omega
    have hone : toNat [c] = valueOf c := Nat.zero_add _
    have hsplit : toNat (c :: cs) = 10 ^ cs.length * toNat [c] + toNat cs := toNat_append [c] cs
    rw [hsplit, hone, List.length_cons, pow_succ]
    have hscaled := Nat.mul_le_mul_left (10 ^ cs.length) hvalue
    omega

end Digits

namespace Decimal

/-! ### Literals -/

/-- The text is a sign, or none, and a numeral that says this. -/
inductive Spells : List Char → Bool → Token.Reading → Prop
  | unsigned {cs : List Char} {r : Token.Reading} (h : Token.Denotes cs r) : Spells cs false r
  | plus {cs : List Char} {r : Token.Reading} (h : Token.Denotes cs r) : Spells ('+' :: cs) false r
  | minus {cs : List Char} {r : Token.Reading} (h : Token.Denotes cs r) : Spells ('-' :: cs) true r

section
variable {cs : List Char} {negative : Bool} {r : Token.Reading}

theorem takeSign_of_numeral (h : Token.Numeral cs) : takeSign cs = (false, cs) := takeSign_signed false h

/-- The sign is cut off, and the numeral is left. -/
theorem spells_iff : Spells cs negative r ↔ ∃ body, takeSign cs = (negative, body) ∧ Token.Denotes body r := by
  constructor
  · intro h
    cases h with
    | unsigned h => exact ⟨_, takeSign_of_numeral h.numeral, h⟩
    | plus h => exact ⟨_, rfl, h⟩
    | minus h => exact ⟨_, rfl, h⟩
  · rintro ⟨body, hsign, h⟩
    unfold takeSign at hsign
    split at hsign
    · cases hsign
      exact .minus h
    · cases hsign
      exact .plus h
    · cases hsign
      exact .unsigned h

end

/-! ### Exponents that are too long -/

/-- A sign, or none, and digits that are too much for 64 bits; what stands behind these does not count. -/
inductive Excessive : List Char → Prop
  | unsigned {ds : List Char} (hds : Token.Digits ds) (h : wordLimit false < Digits.toNat ds) (rest : List Char) :
      Excessive (ds ++ rest)
  | plus {ds : List Char} (hds : Token.Digits ds) (h : wordLimit false < Digits.toNat ds) (rest : List Char) :
      Excessive ('+' :: (ds ++ rest))
  | minus {ds : List Char} (hds : Token.Digits ds) (h : wordLimit true < Digits.toNat ds) (rest : List Char) :
      Excessive ('-' :: (ds ++ rest))

/-- The text is a literal up to its exponent mark, and behind that stand digits that are too much for 64 bits. -/
inductive Overflows : List Char → Prop
  | intro {sign whole fraction exponent : List Char} {mark : Char} (hsign : sign = [] ∨ sign = ['+'] ∨ sign = ['-'])
      (hwhole : Token.Digits whole) (hfraction : Token.Fraction fraction)
      (hstart : whole ≠ [] ∨ ∃ d ds, fraction = '.' :: d :: ds) (hmark : mark = 'e' ∨ mark = 'E')
      (hexponent : Excessive exponent) : Overflows (sign ++ (whole ++ fraction ++ mark :: exponent))

/-- The digits are too much exactly if those up to some place are. -/
theorem readDigits_eq_overflow_iff {negative : Bool} {n : ℕ} {cs : List Char} (hn : n ≤ wordLimit negative) :
    readDigits negative n cs = .overflow ↔
      ∃ ds rest, cs = ds ++ rest ∧ Token.Digits ds ∧ wordLimit negative < Nat.ofDigitChars 10 ds n := by
  have hnil : ¬wordLimit negative < Nat.ofDigitChars 10 [] n := not_lt.mpr hn
  induction cs generalizing n with
  | nil =>
    refine iff_of_false (by rintro ⟨⟩) ?_
    rintro ⟨ds, rest, hcs, -, hlt⟩
    obtain ⟨rfl, -⟩ := List.append_eq_nil_iff.mp hcs.symm
    exact hnil hlt
  | cons c cs ih =>
    by_cases hc : c.isDigit = true
    · have hnext : ∀ ds, Nat.ofDigitChars 10 (c :: ds) n = Nat.ofDigitChars 10 ds (10 * n + Digits.valueOf c) :=
        fun ds => Nat.ofDigitChars_cons ..
      have hstep : readDigits negative n (c :: cs) = if 10 * n + Digits.valueOf c ≤ wordLimit negative then
          readDigits negative (10 * n + Digits.valueOf c) cs else .overflow := by
        rw [readDigits, if_pos hc]
        rfl
      rw [hstep]
      split
      · rename_i hle
        refine (ih hle (not_lt.mpr hle)).trans ⟨?_, ?_⟩
        · rintro ⟨ds, rest, rfl, hds, hlt⟩
          exact ⟨c :: ds, rest, rfl, List.forall_mem_cons.mpr ⟨hc, hds⟩, (hnext ds).symm ▸ hlt⟩
        · rintro ⟨ds, rest, hcs, hds, hlt⟩
          cases ds with
          | nil => exact absurd hlt hnil
          | cons d ds =>
            obtain ⟨rfl, rfl⟩ := List.cons_eq_cons.mp hcs
            exact ⟨ds, rest, rfl, (List.forall_mem_cons.mp hds).2, hnext ds ▸ hlt⟩
      · rename_i hlt
        refine iff_of_true rfl ⟨[c], cs, rfl, List.forall_mem_singleton.mpr hc, ?_⟩
        exact (hnext []).symm ▸ not_le.mp hlt
    · refine iff_of_false ?_ ?_
      · rw [readDigits, if_neg hc]
        rintro ⟨⟩
      · rintro ⟨ds, rest, hcs, hds, hlt⟩
        cases ds with
        | nil => exact hnil hlt
        | cons d ds =>
          obtain ⟨rfl, -⟩ := List.cons_eq_cons.mp hcs
          exact hc (List.forall_mem_cons.mp hds).1

/-- An integer is too much for 64 bits exactly if it is so behind its sign. -/
theorem readWord_eq_overflow_iff {cs : List Char} : readWord cs = .overflow ↔ Excessive cs := by
  have hdigits (negative : Bool) (cs : List Char) : readDigits negative 0 cs = .overflow ↔
      ∃ ds rest, cs = ds ++ rest ∧ Token.Digits ds ∧ wordLimit negative < Digits.toNat ds :=
    readDigits_eq_overflow_iff (Nat.zero_le _)
  constructor
  · intro h
    unfold readWord at h
    split at h
    · cases h
    · split at h
      · cases h
      · obtain ⟨ds, rest, rfl, hds, hlt⟩ := (hdigits true _).mp h
        exact .minus hds hlt rest
    · split at h
      · cases h
      · obtain ⟨ds, rest, rfl, hds, hlt⟩ := (hdigits false _).mp h
        exact .plus hds hlt rest
    · obtain ⟨ds, rest, rfl, hds, hlt⟩ := (hdigits false _).mp h
      exact .unsigned hds hlt rest
  · intro h
    -- Behind a sign there is at least one digit, since no digits are zero.
    have hcons : ∀ {negative : Bool} {ds : List Char}, wordLimit negative < Digits.toNat ds →
        ∃ d ds', ds = d :: ds' := by
      intro negative ds hlt
      cases ds with
      | nil => exact absurd hlt (Nat.not_lt_zero _)
      | cons d ds => exact ⟨d, ds, rfl⟩
    cases h with
    | @unsigned ds hds hlt rest =>
      have hread := (hdigits false (ds ++ rest)).mpr ⟨ds, rest, rfl, hds, hlt⟩
      obtain ⟨d, ds, rfl⟩ := hcons hlt
      exact (readWord_of_digit (hds d (.head _)) (ds ++ rest)).trans hread
    | @plus ds hds hlt rest =>
      have hread := (hdigits false (ds ++ rest)).mpr ⟨ds, rest, rfl, hds, hlt⟩
      obtain ⟨d, ds, rfl⟩ := hcons hlt
      exact hread
    | @minus ds hds hlt rest =>
      have hread := (hdigits true (ds ++ rest)).mpr ⟨ds, rest, rfl, hds, hlt⟩
      obtain ⟨d, ds, rfl⟩ := hcons hlt
      exact hread

/-! ### What the reader has cut -/

theorem splitAtFirst_cases (p : Char → Bool) (cs : List Char) :
    splitAtFirst p cs = (cs, none) ∨
      ∃ front c rest, splitAtFirst p cs = (front, some rest) ∧ p c = true ∧ cs = front ++ c :: rest := by
  have hsplit := List.takeWhile_append_dropWhile (p := (!p ·)) (l := cs)
  unfold splitAtFirst
  split
  · exact .inl rfl
  · rename_i c rest hrest
    refine .inr ⟨_, c, rest, rfl, ?_, ?_⟩
    · have hhead := List.head?_dropWhile_not (!p ·) cs
      rw [hrest] at hhead
      simpa using hhead
    · rw [← hrest, hsplit]

theorem digits_of_readDigits {flip : Bool} {n : ℕ} {cs : List Char} {m : ℤ} (h : readDigits flip n cs = .value m) :
    Token.Digits cs := by
  induction cs generalizing n with
  | nil => exact List.forall_mem_nil _
  | cons c cs ih =>
    by_cases hc : c.isDigit = true
    · rw [readDigits, if_pos hc] at h
      by_cases hle : 10 * n + Digits.valueOf c ≤ (if flip then 9223372036854775808 else 9223372036854775807)
      · rw [if_pos hle] at h
        exact List.forall_mem_cons.mpr ⟨hc, ih h⟩
      · rw [if_neg hle] at h
        cases h
    · rw [readDigits, if_neg hc] at h
      cases h

/-- What is read as an integer of 64 bits is the rest of an exponent. -/
theorem exponent_of_readWord {mark : Char} (hmark : mark = 'e' ∨ mark = 'E') {cs : List Char} {m : ℤ}
    (h : readWord cs = .value m) : Token.Exponent (mark :: cs) := by
  unfold readWord at h
  split at h
  · cases h
  · rename_i cs
    cases cs with
    | nil => cases h
    | cons d ds => exact .signed hmark (.inr rfl) (digits_of_readDigits h)
  · rename_i cs
    cases cs with
    | nil => cases h
    | cons d ds => exact .signed hmark (.inl rfl) (digits_of_readDigits h)
  · cases cs with
    | nil => contradiction
    | cons d ds => exact .unsigned hmark (digits_of_readDigits h)

/-- What stands behind the mark at which a text is cut is an exponent, if it is read. -/
theorem exists_exponent {body number : List Char} {exponentText? : Option (List Char)} {m : ℤ}
    (hcut : splitAtFirst (fun c => c == 'e' || c == 'E') body = (number, exponentText?))
    (hread : exponentText?.elim (.value 0) readWord = .value m) :
    ∃ exponent, Token.Exponent exponent ∧ body = number ++ exponent := by
  rcases splitAtFirst_cases (fun c => c == 'e' || c == 'E') body with hnone | ⟨front, mark, rest, hsome, hmark, rfl⟩
  · rw [hnone] at hcut
    cases hcut
    exact ⟨[], .none, (List.append_nil body).symm⟩
  · rw [hsome] at hcut
    cases hcut
    rw [Bool.or_eq_true, beq_iff_eq, beq_iff_eq] at hmark
    exact ⟨mark :: rest, exponent_of_readWord hmark hread, rfl⟩

/-- Digits on both sides of the point at which a text is cut are the digits of a numeral. -/
theorem exists_fraction {number whole : List Char} {fraction? : Option (List Char)}
    (hcut : splitAtFirst (· == '.') number = (whole, fraction?))
    (hdigits : Digits.areDigits (whole ++ fraction?.getD []) = true) :
    ∃ fraction, Token.Digits whole ∧ Token.Fraction fraction ∧ number = whole ++ fraction ∧
      (whole ≠ [] ∨ ∃ d ds, fraction = '.' :: d :: ds) := by
  rw [Digits.areDigits, Bool.and_eq_true, Bool.not_eq_true', List.isEmpty_eq_false_iff, List.all_eq_true] at hdigits
  obtain ⟨hne, hall⟩ := hdigits
  rcases splitAtFirst_cases (· == '.') number with hnone | ⟨front, point, rest, hsome, hpoint, rfl⟩
  · rw [hnone] at hcut
    cases hcut
    rw [Option.getD_none, List.append_nil] at hne hall
    exact ⟨[], hall, .none, (List.append_nil number).symm, .inl hne⟩
  · rw [hsome] at hcut
    cases hcut
    rw [Option.getD_some] at hne hall
    obtain rfl := beq_iff_eq.mp hpoint
    obtain ⟨hwhole, hrest⟩ := List.forall_mem_append.mp hall
    refine ⟨'.' :: rest, hwhole, .point hrest, rfl, ?_⟩
    by_cases hempty : whole = []
    · rw [hempty, List.nil_append] at hne
      obtain ⟨d, ds, rfl⟩ := List.exists_cons_of_ne_nil hne
      exact .inr ⟨d, ds, rfl⟩
    · exact .inl hempty

/-- What is cut off as a sign is one, or nothing. -/
theorem exists_sign (cs : List Char) :
    ∃ sign, (sign = [] ∨ sign = ['+'] ∨ sign = ['-']) ∧ cs = sign ++ (takeSign cs).2 := by
  unfold takeSign
  split
  · exact ⟨['-'], .inr (.inr rfl), rfl⟩
  · exact ⟨['+'], .inr (.inl rfl), rfl⟩
  · exact ⟨[], .inl rfl, rfl⟩

theorem takeSign_of_start {whole fraction : List Char} (hwhole : Token.Digits whole)
    (hstart : whole ≠ [] ∨ ∃ d ds, fraction = '.' :: d :: ds) (rest : List Char) :
    takeSign (whole ++ fraction ++ rest) = (false, whole ++ fraction ++ rest) := by
  obtain ⟨c, cs, hcs, hminus, hplus⟩ : ∃ c cs, whole ++ fraction ++ rest = c :: cs ∧ c ≠ '-' ∧ c ≠ '+' := by
    cases whole with
    | cons d ds =>
      obtain ⟨hminus, hplus⟩ := Token.not_sign_of_isDigit (hwhole d (.head _))
      exact ⟨d, _, rfl, hminus, hplus⟩
    | nil =>
      obtain ⟨d, ds, rfl⟩ := hstart.resolve_left (fun h => h rfl)
      exact ⟨'.', _, rfl, by decide, by decide⟩
  rw [hcs]
  unfold takeSign
  split
  · rename_i h; exact absurd (List.head_eq_of_cons_eq h) hminus
  · rename_i h; exact absurd (List.head_eq_of_cons_eq h) hplus
  · rfl

/-- An exponent that is too long is taken for a value that is out of range. -/
theorem parse_of_overflows {text : String} (h : Overflows (Text.trim text.toList)) :
    parse text = .error (.outOfRange text) := by
  generalize hcs : Text.trim text.toList = cs at h
  obtain @⟨sign, whole, fraction, exponent, mark, hsign, hwhole, hfraction, hstart, hmark, hexponent⟩ := h
  obtain ⟨negative, htake⟩ : ∃ negative, takeSign (sign ++ (whole ++ fraction ++ mark :: exponent)) =
      (negative, whole ++ fraction ++ mark :: exponent) := by
    rcases hsign with rfl | rfl | rfl
    · exact ⟨false, takeSign_of_start hwhole hstart _⟩
    · exact ⟨false, rfl⟩
    · exact ⟨true, rfl⟩
  have hfront : ∀ c ∈ whole ++ fraction, (c == 'e' || c == 'E') = false := by
    intro c hc
    rw [Bool.or_eq_false_iff, beq_eq_false_iff_ne, beq_eq_false_iff_ne]
    rcases (List.mem_append.mp hc).elim (fun hc => .inl (hwhole c hc)) (Token.mem_fraction hfraction) with hdigit | rfl
    · constructor <;> rintro rfl <;> exact absurd hdigit (by decide)
    · decide
  have hcut := splitAtFirst_append hfront (c := mark) (by rcases hmark with rfl | rfl <;> rfl) exponent
  exact (parse_of_cut (hcs ▸ htake) hcut hwhole hfraction hstart).2.1 (readWord_eq_overflow_iff.mpr hexponent)

/-- A text is a numeral behind its sign, its exponent is too long, or it is refused as no literal. -/
theorem denotes_or_refused (text : String) :
    (∃ r, Token.Denotes (takeSign (Text.trim text.toList)).2 r) ∨ Overflows (Text.trim text.toList) ∨
      parse text = .error (.invalid text) := by
  obtain ⟨sign, hsign, hsigned⟩ := exists_sign (Text.trim text.toList)
  cases htake : takeSign (Text.trim text.toList) with
  | mk negative body =>
  rw [htake] at hsigned
  dsimp only at hsigned ⊢
  cases hcut : splitAtFirst (fun c => c == 'e' || c == 'E') body with
  | mk number exponentText? =>
  cases hpoint : splitAtFirst (· == '.') number with
  | mk whole fraction? =>
  by_cases hdigits : Digits.areDigits (whole ++ fraction?.getD []) = true
  · obtain ⟨fraction, hwhole, hfraction, rfl, hstart⟩ := exists_fraction hpoint hdigits
    cases hread : exponentText?.elim (.value 0) readWord with
    | malformed => exact .inr (.inr ((parse_of_cut htake hcut hwhole hfraction hstart).1 hread))
    | overflow =>
      right; left
      rcases splitAtFirst_cases (fun c => c == 'e' || c == 'E') body with hnone | ⟨front, mark, rest, hsome, hmark, rfl⟩
      · rw [hnone] at hcut
        cases hcut
        cases hread
      · rw [hsome] at hcut
        cases hcut
        rw [Bool.or_eq_true, beq_iff_eq, beq_iff_eq] at hmark
        rw [hsigned]
        exact .intro hsign hwhole hfraction hstart hmark (readWord_eq_overflow_iff.mp hread)
    | value m =>
      left
      obtain ⟨exponent, hexponent, rfl⟩ := exists_exponent hcut hread
      rw [List.append_assoc]
      exact ⟨_, .intro hwhole hfraction hexponent hstart⟩
  · right; right
    rw [Bool.not_eq_true] at hdigits
    unfold parse
    rw [htake]
    dsimp only
    rw [hcut]
    dsimp only
    rw [hpoint]
    dsimp only
    rw [hdigits, if_pos (by decide)]

/-- The text that is read as a number is a numeral behind its sign. -/
theorem exists_denotes_of_parse {text : String} {d : Decimal} (h : parse text = .ok d) :
    ∃ r, Token.Denotes (takeSign (Text.trim text.toList)).2 r := by
  rcases denotes_or_refused text with hr | hoverflow | hinvalid
  · exact hr
  · rw [parse_of_overflows hoverflow] at h
    cases h
  · rw [hinvalid] at h
    cases h

/-! ### Acceptance -/

/-- The texts that every machine reads alike: they are shorter than its counters reach, the exponent fits in 64 bits, and
the first digit does not stand at the one place that has no absolute value in 64 bits. -/
structure Manageable (text : String) : Prop where
  length : text.length < 2 ^ 62
  exponent : ∀ negative r, Spells (Text.trim text.toList) negative r → fitsWord r.exponent = true
  leading : ∀ negative r, Spells (Text.trim text.toList) negative r → Int.log 10 r.value ≠ -2 ^ 63

/-- The text writes no number whose first digit stands at the one place that has no absolute value in 64 bits. At such a
number one machine stops, and another takes it to be in range. -/
def AvoidsLeastPlace (text : String) : Prop :=
  ∀ negative r, Spells (Text.trim text.toList) negative r → Int.log 10 r.value ≠ -2 ^ 63

/-- What a numeral says, with the sign before it. -/
def signedValue (negative : Bool) (r : Token.Reading) : ℚ := if negative then -r.value else r.value

theorem length_trim_le (cs : List Char) : (Text.trim cs).length ≤ cs.length := by
  rw [Text.trim, List.length_reverse]
  refine (List.length_dropWhile_le _ _).trans ?_
  rw [List.length_reverse]
  exact List.length_dropWhile_le _ _

theorem length_takeSign_le (cs : List Char) : (takeSign cs).2.length ≤ cs.length := by
  unfold takeSign
  split
  · exact Nat.le_succ _
  · exact Nat.le_succ _
  · exact Nat.le_refl _

/-- A numeral has no more digits than characters. -/
theorem digits_lt_of_denotes {cs : List Char} {r : Token.Reading} (h : Token.Denotes cs r) : r.digits < 10 ^ cs.length := by
  obtain @⟨whole, fraction, exponent, hwhole, hfraction, -, -⟩ := h
  have hdigits : Token.Digits (whole ++ fraction.tail) := by
    refine List.forall_mem_append.mpr ⟨hwhole, ?_⟩
    cases hfraction with
    | none => exact List.forall_mem_nil _
    | point hds => exact hds
  refine (Digits.toNat_lt hdigits).trans_le (Nat.pow_le_pow_right (by decide) ?_)
  rw [List.length_append, List.length_append, List.length_append, List.length_tail]
  omega

theorem places_le_of_denotes {cs : List Char} {r : Token.Reading} (h : Token.Denotes cs r) : r.places ≤ cs.length := by
  obtain @⟨whole, fraction, exponent, -, -, -, -⟩ := h
  show fraction.tail.length ≤ _
  rw [List.length_append, List.length_append, List.length_tail]
  omega

/-- The first digit of a numeral stands no lower than the last one, and not by more places than it has characters. -/
theorem log_of_denotes {cs : List Char} {r : Token.Reading} (h : Token.Denotes cs r) (hvalue : r.value ≠ 0) :
    r.scale ≤ Int.log 10 |r.value| ∧ Int.log 10 |r.value| < cs.length + r.scale := by
  have hone : (1 : ℚ) ≤ r.digits := by
    exact_mod_cast Nat.one_le_iff_ne_zero.mpr (mt Token.Reading.value_eq_zero_iff.mpr hvalue)
  obtain ⟨hlow, hhigh⟩ := log_bounds (abs_pos.mpr hvalue)
  rw [abs_of_nonneg r.value_nonneg] at *
  constructor
  · have hpower : (10 : ℚ) ^ r.scale ≤ r.value := le_mul_of_one_le_left (ten_zpow_pos _).le hone
    exact Int.lt_add_one_iff.mp (ten_zpow_lt.mp (hpower.trans_lt hhigh))
  · refine ten_zpow_lt.mp (hlow.trans_lt ?_)
    rw [Token.Reading.value, ten_zpow_add, zpow_natCast]
    exact mul_lt_mul_of_pos_right (by exact_mod_cast digits_lt_of_denotes h) (ten_zpow_pos _)

/-- The place of the last digit fits in 64 bits, if that of the first is in range and there are not too many digits. -/
theorem fitsWord_scale {cs : List Char} {r : Token.Reading} (h : Token.Denotes cs r) (hlength : cs.length < 2 ^ 62)
    (hexponent : fitsWord r.exponent = true) (hdigits : r.digits ≠ 0) (hvalue : Representable r.value) :
    fitsWord r.scale = true := by
  have hne := mt Token.Reading.value_eq_zero_iff.mp hdigits
  have hplace := (log_of_denotes h hne).2
  have hlow := (hvalue.resolve_left hne).1
  have hmax : maxExponent = 1000000000000000 := rfl
  have hscale : r.scale = r.exponent - r.places := rfl
  have hword := of_decide_eq_true hexponent
  exact decide_eq_true (by omega)

/-- A text is read as a number exactly if between its blanks it is an optional sign and a numeral whose value is zero or
in range, and then the number is that value in normal form. -/
theorem parse_accepts_exactly (text : String) (htext : Manageable text) (d : Decimal) :
    parse text = .ok d ↔ ∃ negative r, Spells (Text.trim text.toList) negative r ∧
      Representable (signedValue negative r) ∧ d.Normal ∧ d.toRat = signedValue negative r := by
  have hvalue (negative : Bool) (r : Token.Reading) : Representable (signedValue negative r) ↔ Representable r.value := by
    rw [signedValue]
    cases negative with
    | false => rfl
    | true => rw [if_pos rfl, Representable, Representable, abs_neg, neg_eq_zero]
  have hparts (negative : Bool) (r : Token.Reading) :
      (ofParts (if negative then -r.digits else r.digits) r.scale).toRat = signedValue negative r := by
    rw [toRat_ofParts, signedValue, Token.Reading.value]
    cases negative <;> simp
  constructor
  · intro h
    obtain ⟨r, hr⟩ := exists_denotes_of_parse h
    have hspells := spells_iff.mpr ⟨_, rfl, hr⟩
    rw [parse_of_denotes rfl hr] at h
    split at h
    · rename_i hreadable
      obtain rfl := Except.ok.inj h
      refine ⟨_, r, hspells, (hvalue _ r).mpr ?_, normal_ofParts _ _, hparts _ r⟩
      rcases hreadable.2 with hzero | ⟨-, hrange⟩
      · left
        rw [Token.Reading.value, hzero, Nat.cast_zero, zero_mul]
      · exact hrange
    · cases h
  · rintro ⟨negative, r, hspells, hrange, hnormal, hd⟩
    obtain ⟨body, hsign, hr⟩ := spells_iff.mp hspells
    have hexponent := htext.exponent negative r hspells
    have hlength : body.length < 2 ^ 62 := by
      have hbody := length_takeSign_le (Text.trim text.toList)
      rw [hsign] at hbody
      exact (hbody.trans (length_trim_le _)).trans_lt (String.length_toList ▸ htext.length)
    have hreadable : r.Readable := by
      refine ⟨hexponent, ?_⟩
      by_cases hzero : r.digits = 0
      · exact .inl hzero
      · have hrange' := (hvalue negative r).mp hrange
        exact .inr ⟨fitsWord_scale hr hlength hexponent hzero hrange', hrange'⟩
    rw [parse_of_denotes hsign hr, if_pos hreadable]
    exact congrArg Except.ok ((normal_ofParts _ _).eq_of_toRat hnormal ((hparts negative r).trans hd.symm))

/-- A text that is read as a number, and is not too long, is one that every machine reads alike. -/
theorem manageable_of_parse {text : String} {d : Decimal} (hlength : text.length < 2 ^ 62) (h : parse text = .ok d) :
    Manageable text := by
  have hreadable : ∀ negative r, Spells (Text.trim text.toList) negative r → r.Readable := by
    intro negative r hspells
    obtain ⟨body, hsign, hr⟩ := spells_iff.mp hspells
    by_contra hnot
    rw [parse_of_denotes hsign hr, if_neg hnot] at h
    cases h
  refine ⟨hlength, fun negative r hspells => (hreadable negative r hspells).1, fun negative r hspells => ?_⟩
  have hmax : maxExponent = 1000000000000000 := rfl
  by_cases hzero : r.value = 0
  · rw [hzero, Int.log_zero_right]
    decide
  · have hvalue : 0 ≤ r.value := mul_nonneg (Nat.cast_nonneg _) (ten_zpow_pos _).le
    have hdigits : r.digits ≠ 0 := fun h0 => hzero (by rw [Token.Reading.value, h0, Nat.cast_zero, zero_mul])
    have hrange := (((hreadable negative r hspells).2.resolve_left hdigits).2.resolve_left hzero).1
    rw [abs_of_nonneg hvalue] at hrange
    omega

theorem parse_accepts_exactly_between_blanks :
    Manageable " +00.50e-1\t" ∧ ∃ negative r, Spells (Text.trim " +00.50e-1\t".toList) negative r ∧
      Representable (signedValue negative r) ∧ Normal ⟨5, -2⟩ ∧ toRat ⟨5, -2⟩ = signedValue negative r := by
  have hparse : parse " +00.50e-1\t" = .ok ⟨5, -2⟩ := by decide +kernel
  have htext := manageable_of_parse (by decide) hparse
  exact ⟨htext, (parse_accepts_exactly _ htext _).mp hparse⟩

/-! ### Refusal -/

theorem representable_signedValue (negative : Bool) (r : Token.Reading) :
    Representable (signedValue negative r) ↔ Representable r.value := by
  rw [signedValue]
  split
  · rw [Representable, Representable, abs_neg, neg_eq_zero]
  · rfl

theorem signedValue_eq_zero_iff (negative : Bool) (r : Token.Reading) : signedValue negative r = 0 ↔ r.value = 0 := by
  rw [signedValue]
  split
  · exact neg_eq_zero
  · rfl

/-- The exponent of a numeral in range that is not zero fits in 64 bits, since it is not much greater than the text is
long; only that of zero need not. -/
theorem readable_iff {cs : List Char} {r : Token.Reading} (h : Token.Denotes cs r) (hlength : cs.length < 2 ^ 62) :
    r.Readable ↔ Representable r.value ∧ (r.value = 0 → fitsWord r.exponent = true) := by
  constructor
  · rintro ⟨hexponent, hzero | ⟨-, hrange⟩⟩
    · exact ⟨.inl (Token.Reading.value_eq_zero_iff.mpr hzero), fun _ => hexponent⟩
    · exact ⟨hrange, fun _ => hexponent⟩
  · rintro ⟨hrange, hexponent⟩
    rcases eq_or_ne r.value 0 with hzero | hvalue
    · exact ⟨hexponent hzero, .inl (Token.Reading.value_eq_zero_iff.mp hzero)⟩
    · obtain ⟨hlow, hhigh⟩ := hrange.resolve_left hvalue
      obtain ⟨hlast, hfirst⟩ := log_of_denotes h hvalue
      have hplaces := places_le_of_denotes h
      have hmax : maxExponent = 1000000000000000 := rfl
      have hscale : r.scale = r.exponent - r.places := rfl
      exact ⟨decide_eq_true (by omega), .inr ⟨decide_eq_true (by omega), hrange⟩⟩

/-- The exponent of a numeral that does not fit in 64 bits is too long. -/
theorem overflows_of_denotes {sign cs : List Char} {r : Token.Reading}
    (hsign : sign = [] ∨ sign = ['+'] ∨ sign = ['-']) (h : Token.Denotes cs r)
    (hexponent : fitsWord r.exponent = false) : Overflows (sign ++ cs) := by
  obtain @⟨whole, fraction, exponent, hwhole, hfraction, hwritten, hstart⟩ := h
  cases exponent with
  | nil => cases hexponent
  | cons mark exponent =>
    have hmark : mark = 'e' ∨ mark = 'E' := by
      cases hwritten with
      | unsigned hmark _ => exact hmark
      | signed hmark _ _ => exact hmark
    have hread := readWord_eq hwritten
    dsimp only at hexponent
    rw [hexponent, if_neg Bool.false_ne_true] at hread
    rw [← List.append_assoc whole]
    exact .intro hsign hwhole hfraction hstart hmark (readWord_eq_overflow_iff.mp hread)

section
variable {text : String} {negative : Bool} {r : Token.Reading}

/-- A literal is accepted or refused for its range. -/
theorem parse_of_spells (h : Spells (Text.trim text.toList) negative r) :
    (∃ d, parse text = .ok d) ∨ parse text = .error (.outOfRange text) := by
  obtain ⟨body, htake, hr⟩ := spells_iff.mp h
  rw [parse_of_denotes htake hr]
  split
  · exact .inl ⟨_, rfl⟩
  · exact .inr rfl

/-- The only literals in range that are refused are zeros with an exponent that is too long. -/
theorem outOfRange_iff_of_spells (hlength : text.length < 2 ^ 62) (h : Spells (Text.trim text.toList) negative r) :
    parse text = .error (.outOfRange text) ↔
      ¬Representable (signedValue negative r) ∨
        Overflows (Text.trim text.toList) ∧ signedValue negative r = 0 := by
  obtain ⟨body, htake, hr⟩ := spells_iff.mp h
  have hbody : body.length < 2 ^ 62 := by
    have hle := length_takeSign_le (Text.trim text.toList)
    rw [htake] at hle
    exact (hle.trans (length_trim_le _)).trans_lt (String.length_toList ▸ hlength)
  have hparse : parse text = .error (.outOfRange text) ↔ ¬r.Readable := by
    rw [parse_of_denotes htake hr]
    split
    · rename_i hreadable
      exact iff_of_false (by rintro ⟨⟩) (not_not_intro hreadable)
    · rename_i hunreadable
      exact iff_of_true rfl hunreadable
  rw [representable_signedValue, signedValue_eq_zero_iff]
  constructor
  · intro hrefused
    by_cases hrange : Representable r.value
    · have hunread := mt (readable_iff hr hbody).mpr (hparse.mp hrefused)
      obtain ⟨hzero, hexponent⟩ := Classical.not_imp.mp fun hfits => hunread ⟨hrange, hfits⟩
      obtain ⟨sign, hsign, hsigned⟩ := exists_sign (Text.trim text.toList)
      rw [htake] at hsigned
      exact .inr ⟨hsigned ▸ overflows_of_denotes hsign hr (Bool.eq_false_iff.mpr hexponent), hzero⟩
    · exact .inl hrange
  · rintro (hrange | ⟨hoverflow, -⟩)
    · exact hparse.mpr fun hreadable => hrange ((readable_iff hr hbody).mp hreadable).1
    · exact parse_of_overflows hoverflow

end

section
variable {text : String}

/-- A text is a literal, its exponent is too long, or it is refused as no literal. -/
theorem spells_or_refused (text : String) :
    (∃ negative r, Spells (Text.trim text.toList) negative r) ∨
      Overflows (Text.trim text.toList) ∨ parse text = .error (.invalid text) :=
  (denotes_or_refused text).imp_left fun ⟨r, hr⟩ => ⟨_, r, spells_iff.mpr ⟨_, rfl, hr⟩⟩

theorem parse_eq_outOfRange_iff (hlength : text.length < 2 ^ 62) :
    parse text = .error (.outOfRange text) ↔
      (∃ negative r, Spells (Text.trim text.toList) negative r ∧ ¬Representable (signedValue negative r)) ∨
        Overflows (Text.trim text.toList) ∧
          ∀ negative r, Spells (Text.trim text.toList) negative r → signedValue negative r = 0 := by
  constructor
  · intro hparse
    by_cases hout : ∃ negative r, Spells (Text.trim text.toList) negative r ∧ ¬Representable (signedValue negative r)
    · exact .inl hout
    · have hspelled : ∀ negative r, Spells (Text.trim text.toList) negative r →
          Overflows (Text.trim text.toList) ∧ signedValue negative r = 0 := fun negative r h =>
        ((outOfRange_iff_of_spells hlength h).mp hparse).resolve_left fun hrange => hout ⟨negative, r, h, hrange⟩
      -- A text that is no literal has such an exponent too, since it is not refused as invalid.
      refine .inr ⟨?_, fun negative r h => (hspelled negative r h).2⟩
      rcases spells_or_refused text with ⟨negative, r, h⟩ | hoverflow | hinvalid
      · exact (hspelled negative r h).1
      · exact hoverflow
      · rw [hinvalid] at hparse
        cases hparse
  · rintro (⟨negative, r, h, hrange⟩ | ⟨hoverflow, -⟩)
    · exact (outOfRange_iff_of_spells hlength h).mpr (.inl hrange)
    · exact parse_of_overflows hoverflow

theorem parse_eq_invalid_iff :
    parse text = .error (.invalid text) ↔
      (∀ negative r, ¬Spells (Text.trim text.toList) negative r) ∧ ¬Overflows (Text.trim text.toList) := by
  constructor
  · intro hparse
    constructor
    · intro negative r h
      rcases parse_of_spells h with ⟨d, hd⟩ | hrange
      · rw [hd] at hparse
        cases hparse
      · rw [hrange] at hparse
        cases hparse
    · intro hoverflow
      rw [parse_of_overflows hoverflow] at hparse
      cases hparse
  · rintro ⟨hnone, hshort⟩
    rcases spells_or_refused text with ⟨negative, r, h⟩ | hoverflow | hinvalid
    · exact absurd h (hnone negative r)
    · exact absurd hoverflow hshort
    · exact hinvalid

/-- A refusal is one of two, and names the text. -/
theorem parse_eq_error {e : LiteralError} (h : parse text = .error e) : e = .outOfRange text ∨ e = .invalid text := by
  rcases spells_or_refused text with ⟨negative, r, hspells⟩ | hoverflow | hinvalid
  · rcases parse_of_spells hspells with ⟨d, hd⟩ | hrange
    · rw [hd] at h
      cases h
    · rw [hrange] at h
      exact .inl (Except.error.inj h).symm
  · rw [parse_of_overflows hoverflow] at h
    exact .inl (Except.error.inj h).symm
  · rw [hinvalid] at h
    exact .inr (Except.error.inj h).symm

end

/-- A text is refused for its range if it is a literal whose value is out of range, and else only if its exponent is too
long and it is a literal of zero or none; it is refused as no literal if it is none and has no such exponent. -/
theorem refusals_truthful_unless_exponent_overflows (text : String) (hlength : text.length < 2 ^ 62)
    (_ : AvoidsLeastPlace text) :
    (parse text = .error (.outOfRange text) ↔
        (∃ negative r, Spells (Text.trim text.toList) negative r ∧ ¬Representable (signedValue negative r)) ∨
          Overflows (Text.trim text.toList) ∧
            ∀ negative r, Spells (Text.trim text.toList) negative r → signedValue negative r = 0) ∧
      (parse text = .error (.invalid text) ↔
        (∀ negative r, ¬Spells (Text.trim text.toList) negative r) ∧ ¬Overflows (Text.trim text.toList)) ∧
      ∀ e, parse text = .error e → e = .outOfRange text ∨ e = .invalid text :=
  ⟨parse_eq_outOfRange_iff hlength, parse_eq_invalid_iff, fun _ => parse_eq_error⟩

/-- Behind an exponent that is too long a letter is not seen. -/
theorem refused_for_range_with_letter :
    "1e99999999999999999999x".length < 2 ^ 62 ∧ AvoidsLeastPlace "1e99999999999999999999x" ∧
      parse "1e99999999999999999999x" = .error (.outOfRange "1e99999999999999999999x") ∧
      ∀ negative r, ¬Spells (Text.trim "1e99999999999999999999x".toList) negative r := by
  have hlength : "1e99999999999999999999x".length < 2 ^ 62 := by decide
  have hspells : ∀ negative r, ¬Spells (Text.trim "1e99999999999999999999x".toList) negative r := by
    intro negative r h
    obtain ⟨body, htake, hr⟩ := spells_iff.mp h
    have hletter : 'x' ∈ (takeSign (Text.trim "1e99999999999999999999x".toList)).2 := by decide +kernel
    rw [htake] at hletter
    exact absurd (Token.mem_numeral hr.numeral hletter) (by decide)
  have hoverflow : Overflows (Text.trim "1e99999999999999999999x".toList) := by
    have hdigits : Token.Digits "99999999999999999999".toList := List.all_eq_true.mp (by decide)
    exact .intro (.inl rfl) (List.forall_mem_singleton.mpr (by decide)) .none (.inl (List.cons_ne_nil '1' [])) (.inl rfl)
      (.unsigned hdigits (by decide +kernel) ['x'])
  have hplace : AvoidsLeastPlace "1e99999999999999999999x" := fun negative r h => absurd h (hspells negative r)
  refine ⟨hlength, hplace, ?_, hspells⟩
  exact (refusals_truthful_unless_exponent_overflows _ hlength hplace).1.mpr
    (.inr ⟨hoverflow, fun negative r h => absurd h (hspells negative r)⟩)

example : parse "0e99999999999999999999" = .error (.outOfRange "0e99999999999999999999") := by decide +kernel

end Decimal
end Calculator
