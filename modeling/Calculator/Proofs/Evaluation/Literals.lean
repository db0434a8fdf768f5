import Calculator.Proofs.Evaluation.RoundedOnce
import Calculator.Proofs.Decimal.Literal
import Calculator.Proofs.Grammar.Readable
import Calculator.Proofs.Grammar.Spans
/-!
Literals of expressions. Every number that the scanner finds is a numeral, which both readers take as what it says: as
the double nearest to it, and as the decimal number itself if that is in range. So no text fails to parse by a number
that cannot be read, and a number evaluates in decimal numbers to what it says, rounded once.
-/
namespace Calculator

/-! ### From the text to its numbers -/

namespace Token

theorem Scanned.exists_denotes {functions : List String} {text : String}
    (h : Scanned functions (.number, text)) : ∃ r, Denotes text.toList r := by
  cases h with
  | @number cs hnumeral =>
    rw [String.toList_ofList]
    exact hnumeral.exists_denotes
  | name hname hreads => cases hreads
  | symbol hsymbol => exact absurd (kindOfChar?_eq_some hsymbol) (by decide)

theorem Scanned.exists_constant {functions : List String} {text : String}
    (h : Scanned functions (.constant, text)) : ∃ c, Constant.ofName? text = some c := by
  cases h with
  | @name cs _ hname hreads =>
    cases hreads with
    | @constant c hb hf hc => exact ⟨c, (ofName?_constant c).2⟩
  | symbol hsymbol => exact absurd (kindOfChar?_eq_some hsymbol) (by decide)

end Token

/-- Both readers take the text of a numeral as what it says. -/
structure Token.BothRead (raw : String) (r : Reading) : Prop where
  denotes : Denotes raw.toList r
  double : Binary64.read? raw = some (Binary64.ofDecimal false r.digits r.scale)
  decimal : Decimal.parse raw = if r.Readable then .ok (.ofParts r.digits r.scale) else .error (.outOfRange raw)
  valid : ∀ text, Decimal.parse raw ≠ .error (.invalid text)

namespace Token

theorem bothRead_of_denotes {raw : String} {r : Reading} (h : Denotes raw.toList r) : BothRead raw r := by
  have hdouble := Binary64.read?_of_denotes h
  have hdecimal := Decimal.parse_signed false h
  rw [Decimal.signed, if_neg Bool.false_ne_true, if_neg Bool.false_ne_true, String.ofList_toList] at hdecimal
  rw [String.ofList_toList] at hdouble
  refine ⟨h, hdouble, hdecimal, fun text hinvalid => ?_⟩
  rw [hdecimal] at hinvalid
  split at hinvalid <;> cases hinvalid

theorem bothRead_of_mem_tokenize {functions : List String} {text : String} {t : Token}
    (h : t ∈ tokenize functions text) (hkind : t.kind = .number) : ∃ r, BothRead t.text r := by
  have hscanned := scanned_of_mem_tokenize h
  rw [word, hkind] at hscanned
  obtain ⟨r, hr⟩ := hscanned.exists_denotes
  exact ⟨r, bothRead_of_denotes hr⟩

theorem readable_of_mem_tokenize {functions : List String} {text : String} {t : Token}
    (h : t ∈ tokenize functions text) : t.Readable where
  number hkind := by
    obtain ⟨r, hr⟩ := bothRead_of_mem_tokenize h hkind
    exact ⟨_, hr.double⟩
  constant hkind := by
    have hscanned := scanned_of_mem_tokenize h
    rw [word, hkind] at hscanned
    exact hscanned.exists_constant

end Token

/-! ### From the tokens to the tree -/

namespace Expr

/-- Each number of a tree that the grammar derives is one of the tokens. -/
theorem Grammar.Derives.exists_token {p : Grammar.Phrase} {n : Nat} {ts : List Token} {e : Expr}
    (h : Grammar.Derives p n ts e) {value : Float} {raw : String} {span : Span}
    (hnode : e.HasNode (.number value raw span)) :
    ∃ t ∈ ts, t.kind = .number ∧ t.text = raw ∧ Binary64.read? raw = some value := by
  induction h with
  | @number t value hkind hread =>
    cases hnode with
    | root => exact ⟨t, .head _, hkind, rfl, hread⟩
    | child hc _ => cases hc
  | constant | free =>
    cases hnode with
    | child hc _ => cases hc
  | @call name opening closing args ts hname _ _ hsep _ ih =>
    cases hnode with
    | child hc hnode =>
      obtain ⟨a, ha, rfl⟩ := List.mem_map.mp hc
      obtain ⟨t, ht, hread⟩ := ih a ha hnode
      have hmem := hsep.mem ha ht
      exact ⟨t, by simp [hmem], hread⟩
  | parenthesized _ _ _ ih =>
    obtain ⟨t, ht, hread⟩ := ih hnode
    exact ⟨t, by simp [ht], hread⟩
  | ofPrimary _ ih | ofPostfixed _ ih | ofUnary _ ih | ofFactor _ ih | ofTerm _ ih => exact ih hnode
  | factorial _ _ ih =>
    cases hnode with
    | child hc hnode =>
      obtain rfl := List.mem_singleton.mp hc
      obtain ⟨t, ht, hread⟩ := ih hnode
      exact ⟨t, by simp [ht], hread⟩
  | sign _ _ _ ih =>
    cases hnode with
    | child hc hnode =>
      obtain rfl := List.mem_singleton.mp hc
      obtain ⟨t, ht, hread⟩ := ih hnode
      exact ⟨t, by simp [ht], hread⟩
  | power _ _ _ ihl ihr | product _ _ _ _ ihl ihr | sum _ _ _ _ ihl ihr =>
    cases hnode with
    | child hc hnode =>
      rcases List.mem_pair.mp hc with rfl | rfl
      · obtain ⟨t, ht, hread⟩ := ihl hnode
        exact ⟨t, by simp [ht], hread⟩
      · obtain ⟨t, ht, hread⟩ := ihr hnode
        exact ⟨t, by simp [ht], hread⟩

end Expr

/-! ### From the tree to the value -/

namespace Evaluation.Precise
open Decimal Token

/-- A numeral evaluates to what it says, rounded once. -/
theorem seen_number {raw : String} {r : Reading} (h : BothRead raw r) (ctx : Context Decimal) (scope : Scope Decimal)
    (value : Float) (span : Span) :
    seen (valueIn ctx scope (.number value raw span)) =
      if r.Readable then roundedOutcome (precisionOf ctx).digits span (some r.value) else .error (.overflow, span) := by
  have hvalue : valueIn ctx scope (.number value raw span) =
      locate span (number (precisionOf ctx) value raw >>= (arithmeticOf ctx).accept) := by
    have hnumber : (arithmeticOf ctx).number = number (precisionOf ctx) := number_arithmetic ctx.angle _
    rw [valueIn, Scope.evaluate_eq, walk, hnumber]
  rw [hvalue, number, h.decimal]
  by_cases hreadable : r.Readable
  · rw [if_pos hreadable, if_pos hreadable]
    have hrounded : ((ofParts r.digits r.scale).roundTo (precisionOf ctx)).toRat =
        rounded (precisionOf ctx).digits r.value := by
      rw [toRat_roundTo, toRat_ofParts, Int.cast_natCast]
      rfl
    exact seen_of_checked hrounded span
  · rw [if_neg hreadable, if_neg hreadable]
    rfl

/-- The numbers of a text are numerals that both readers take, parsing does not fail by one of them, nor by a constant,
and those of the tree have the values that they say: the double nearest to it, and the decimal number rounded once. -/
theorem literals_read (functions : List String) (text : String) :
    (∀ t ∈ tokenize functions text, t.kind = .number → ∃ r, BothRead t.text r) ∧
    (∀ error, Expr.parse functions text = .error error → error.unreadable = false) ∧
    ∀ e, Expr.parse functions text = .ok e → ∀ value raw span, e.HasNode (.number value raw span) →
      ∃ r, BothRead raw r ∧ value = Binary64.ofDecimal false r.digits r.scale ∧
        ∀ ctx scope, seen (valueIn ctx scope (.number value raw span)) =
          if r.Readable then roundedOutcome (precisionOf ctx).digits span (some r.value)
          else .error (.overflow, span) := by
  refine ⟨fun t ht hkind => bothRead_of_mem_tokenize ht hkind, fun error herror => ?_, ?_⟩
  · exact Expr.readable_of_ofTokens (fun t ht => readable_of_mem_tokenize ht) herror
  · intro e he value raw span hnode
    obtain ⟨n, hderives⟩ := Expr.derives_of_ofTokens he
    obtain ⟨t, ht, hkind, rfl, hread⟩ := hderives.exists_token hnode
    obtain ⟨r, hr⟩ := bothRead_of_mem_tokenize ht hkind
    have hvalue : value = Binary64.ofDecimal false r.digits r.scale := Option.some.inj (hread.symm.trans hr.double)
    exact ⟨r, hr, hvalue, fun ctx scope => seen_number hr ctx scope value span⟩

/-- A numeral that starts with a point, and a text that fails to parse otherwise than by its number. -/
theorem literals_read_point :
    (∃ error, Expr.parse [] "1. +" = .error error ∧ error.unreadable = false) ∧
      ∃ value, Expr.parse [] ".5e1" = .ok (.number value ".5e1" ⟨0, 4⟩) ∧
        ∃ r, BothRead ".5e1" r ∧ value = Binary64.ofDecimal false r.digits r.scale := by
  constructor
  · have hfails : (Expr.parse [] "1. +").toOption.map Expr.span = none := by
      rw [Expr.parse, tokenize]
      simp only [String.reduceToList]
      decide +kernel
    cases hread : Expr.parse [] "1. +" with
    | error error => exact ⟨error, rfl, (literals_read [] "1. +").2.1 error hread⟩
    | ok e =>
      rw [hread] at hfails
      cases hfails
  · have htokens : tokenize [] ".5e1" = [⟨.number, ".5e1", 0, false⟩] := by decide +kernel
    obtain ⟨s, hs⟩ := (literals_read [] ".5e1").1 ⟨.number, ".5e1", 0, false⟩ (by simp [htokens]) rfl
    have hnumber := Expr.Grammar.Derives.number (t := ⟨.number, ".5e1", 0, false⟩) rfl hs.double
    have hderives := hnumber.ofPrimary.ofPostfixed.ofUnary.ofFactor.ofTerm
    have hparse : Expr.parse [] ".5e1" =
        .ok (.number (Binary64.ofDecimal false s.digits s.scale) ".5e1" ⟨0, 4⟩) := by
      rw [Expr.parse, htokens, Expr.ofTokens_of_derives hderives]
      exact if_pos ⟨Nat.zero_le _, by rw [Expr.height]; decide⟩
    obtain ⟨r, hr, hvalue, -⟩ := (literals_read [] ".5e1").2.2 _ hparse _ _ _ (.root _)
    exact ⟨_, hparse, r, hr, hvalue⟩

end Evaluation.Precise
end Calculator
