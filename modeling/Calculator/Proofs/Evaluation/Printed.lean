import Calculator.Evaluation.Precise
import Calculator.Proofs.Binary64.Literal
import Calculator.Proofs.Decimal.Literal
import Calculator.Proofs.Evaluation.Nodes
import Calculator.Proofs.Grammar.Correctness
/-!
A printed decimal number is an expression. It is one numeral, behind a sign if the number is negative, and the value of
the expression is the number, at every precision that has room for its digits.
-/
namespace Calculator.Evaluation.Precise
open Notation Token Decimal
open Expr.Grammar (Derives)

/-! ### From the text to the tree -/

section
variable (functions : List String) (l : Literal)

variable {functions} in
/-- Where every product is written, the tokens are the words of the text. -/
theorem map_word_tokenize {cs : List Char} {words : List Word} (hwords : scanWords functions cs = words)
    (hapart : words.IsChain Apart) : (tokenize functions (String.ofList cs)).map word = words := by
  subst hwords
  rw [tokenize, String.toList_ofList, withProducts_of_apart hapart]
  rfl

theorem scanWords_literal : scanWords functions l.chars = [(.number, String.ofList l.chars)] := by
  have hscan := scanWords_numeral functions l.numeral delimited_nil
  rwa [List.append_nil, scanWords_nil] at hscan

theorem derives_literal {value : Float} (hvalue : Binary64.read? (String.ofList l.chars) = some value) {t : Token}
    (ht : t.word = (.number, String.ofList l.chars)) :
    Derives .unary 0 [t] (.number value (String.ofList l.chars) t.span) := by
  obtain ⟨hkind, htext⟩ := Prod.mk.inj ht
  rw [← htext] at hvalue ⊢
  exact .ofPostfixed (.ofPrimary (.number hkind hvalue))

theorem parse_of_unary {n : ℕ} {text : String} {e : Expr} (h : Derives .unary n (tokenize functions text) e)
    (hn : n ≤ Expr.maxDepth) (hheight : e.height ≤ Expr.maxDepth) :
    Expr.parse functions text = .ok e := by
  have hexpression : Derives .expression n (tokenize functions text) e := .ofTerm (.ofFactor (.ofUnary h))
  rw [Expr.parse, Expr.ofTokens_of_derives hexpression]
  exact if_pos ⟨hn, hheight⟩

/-- A literal is read as a number. -/
theorem parse_literal : ∃ value span, Expr.parse functions (String.ofList l.chars) =
    .ok (.number value (String.ofList l.chars) span) := by
  obtain ⟨value, hvalue⟩ := Binary64.read?_of_numeral l.numeral
  have hwords := scanWords_literal functions l
  obtain ⟨t, ht, hword⟩ := List.map_eq_singleton_iff.mp (map_word_tokenize hwords (.singleton _))
  have hderives := derives_literal l hvalue hword
  rw [← ht] at hderives
  exact ⟨value, t.span, parse_of_unary functions hderives (by decide) (by rw [Expr.height]; decide)⟩

/-- A literal behind a minus is read as a sign before a number. -/
theorem parse_negative : ∃ value inner outer, Expr.parse functions (String.ofList ('-' :: l.chars)) =
    .ok (.unary .minus (.number value (String.ofList l.chars) inner) outer) := by
  obtain ⟨value, hvalue⟩ := Binary64.read?_of_numeral l.numeral
  have hwords : scanWords functions ('-' :: l.chars) = [(.operator, "-"), (.number, String.ofList l.chars)] := by
    have hsymbol : kindOfChar? '-' = some .operator := rfl
    rw [scanWords_symbol functions hsymbol, scanWords_literal]
    rfl
  have hapart : Apart (.operator, "-") (.number, String.ofList l.chars) := .inl (by decide)
  have htokens := map_word_tokenize hwords (.cons_cons hapart (.singleton _))
  obtain ⟨s, rest, hsplit, hs, hrest⟩ := List.map_eq_cons_iff.mp htokens
  obtain ⟨t, rfl, hword⟩ := List.map_eq_singleton_iff.mp hrest
  obtain ⟨hkind, htext⟩ := Prod.mk.inj hs
  have hsign : s.isOperator UnaryOp.minus.symbol = true := by
    rw [isOperator, hkind, htext]
    decide
  have hderives : Derives .unary 1 (s :: [t]) _ := .sign (.inr rfl) hsign (derives_literal l hvalue hword)
  rw [← hsplit] at hderives
  exact ⟨value, t.span, _, parse_of_unary functions hderives (by decide) (by rw [Expr.height, Expr.height]; decide)⟩

end

/-! ### From the tree to the value -/

section
variable {d : Decimal} {p : Precision}

theorem number_of_parse (angle : AngleUnit) (value : Float) {raw : String} (h : parse raw = .ok d)
    (hdigits : d.digits ≤ p.digits) : (arithmetic angle p).number value raw = .ok d := by
  rw [number_arithmetic, number, h]
  dsimp only
  rw [roundTo, if_pos hdigits]

theorem accept_of_inRange (angle : AngleUnit) (h : d.inRange = true) : (arithmetic angle p).accept d = .ok d := by
  change orElse .resultTooLarge d.checked = .ok d
  rw [checked, if_pos h]
  rfl

theorem evaluateIn_eq_walk {α : Type} (ctx : Context α) (A : Arithmetic α) (e : Expr) :
    ctx.evaluateIn A e = walk A ctx.values ((⟨maxCalls, ctx.values⟩ : Scope α).invoke A ctx.functions) e :=
  (⟨maxCalls, ctx.values⟩ : Scope α).evaluate_eq e

variable (ctx : Context Decimal)

/-- A number has its value, if that is in range and has no more digits than are asked for. -/
theorem evaluate_number {raw : String} (value : Float) (span : Span) (hparse : parse raw = .ok d)
    (hrange : d.inRange = true) (hdigits : d.digits ≤ (Precision.ofRequest ctx.precision).digits) :
    evaluate ctx (.number value raw span) = .ok d := by
  have hnumber : (arithmeticOf ctx).number value raw = .ok d := number_of_parse ctx.angle value hparse hdigits
  have haccept : (arithmeticOf ctx).accept d = .ok d := accept_of_inRange ctx.angle hrange
  rw [evaluate, evaluateIn_eq_walk, walk, hnumber]
  change locate span ((arithmeticOf ctx).accept d) = _
  rw [haccept]
  rfl

theorem evaluate_minus {e : Expr} (span : Span) (he : evaluate ctx e = .ok d) (hrange : d.neg.inRange = true) :
    evaluate ctx (.unary .minus e span) = .ok d.neg := by
  have haccept : (arithmeticOf ctx).accept d.neg = .ok d.neg := accept_of_inRange ctx.angle hrange
  rw [evaluate, evaluateIn_eq_walk] at he ⊢
  rw [walk, he]
  change locate span ((arithmeticOf ctx).accept d.neg) = _
  rw [haccept]
  rfl

theorem evaluateText_eq {text : String} {e : Expr} (hparse : Expr.parse ctx.functions.names text = .ok e)
    (he : evaluate ctx e = .ok d) : evaluateText ctx text = .ok d := by
  rw [evaluate] at he
  rw [evaluateText, Context.evaluateTextIn, hparse]
  dsimp only
  rw [he]

/-- The text of a number is an expression with its value. -/
theorem evaluateText_print (hd : d.Normal) (hrange : d.inRange = true)
    (hdigits : d.digits ≤ (Precision.ofRequest ctx.precision).digits) : evaluateText ctx d.print = .ok d := by
  have hword := fitsWord_exponent hd hrange (hdigits.trans (digits_ofRequest_le ctx.precision))
  obtain ⟨l, hl, hprint⟩ := hd.exists_literal
  rw [hprint]
  cases hsign : d.isNegative with
  | false =>
    have hread := hl.parse_eq hd hrange hword
    rw [hsign] at hread
    obtain ⟨value, span, hparse⟩ := parse_literal ctx.functions.names l
    exact evaluateText_eq ctx hparse (evaluate_number ctx value span hread hrange hdigits)
  | true =>
    have hrange' : d.abs.inRange = true := d.inRange_abs.trans hrange
    have hdigits' : d.abs.digits ≤ (Precision.ofRequest ctx.precision).digits := d.digits_abs.trans_le hdigits
    have hread := hl.abs.parse_eq hd.abs hrange' hword
    rw [d.isNegative_abs] at hread
    obtain ⟨value, inner, outer, hparse⟩ := parse_negative ctx.functions.names l
    have hvalue := evaluate_number ctx value inner hread hrange' hdigits'
    have hneg : d.abs.neg.inRange = true := by
      rw [neg_abs hsign]
      exact hrange
    have hminus := evaluate_minus ctx outer hvalue hneg
    rw [neg_abs hsign] at hminus
    exact evaluateText_eq ctx hparse hminus

end

/-- A printed number reads back: with all digits as itself (the exponent of a number is kept in 64 bits), with fewer as
what it is rounded to, if that stays in range. As an expression it is its own value, wherever its digits are not too many. -/
theorem printed_decimal_reads_back {v : Decimal} (hv : v.Normal) (hrange : v.inRange = true) :
    (fitsWord v.exponent = true → parse v.print = .ok v) ∧
      (∀ n, (v.roundTo (.ofRequest n)).toRat = rounded (max 1 (min n 1000)) v.toRat ∧
        ((v.roundTo (.ofRequest n)).inRange = true → parse (v.printSignificant n) = .ok (v.roundTo (.ofRequest n)))) ∧
      ∀ ctx : Context Decimal, v.digits ≤ max 1 (min ctx.precision 1000) → evaluateText ctx v.print = .ok v := by
  refine ⟨fun hword => hv.parse_printed hrange hword, fun n => ⟨toRat_roundTo v (.ofRequest n), fun hrounded => ?_⟩, ?_⟩
  · obtain ⟨hnormal, hdigits⟩ := hv.roundTo (.ofRequest n)
    exact hnormal.parse_printed hrounded (fitsWord_exponent hnormal hrounded (hdigits.trans (digits_ofRequest_le n)))
  · exact fun ctx hdigits => evaluateText_print ctx hv hrange hdigits

theorem printed_decimal_reads_back_greatest :
    parse "-1.2345e+1000000000000000" = .ok ⟨-12345, 999999999999996⟩ ∧
      parse "-1.23e+1000000000000000" = .ok ⟨-123, 999999999999998⟩ ∧
      evaluateText .empty "-1.2345e+1000000000000000" = .ok ⟨-12345, 999999999999996⟩ := by
  let v : Decimal := ⟨-12345, 999999999999996⟩
  have hprint : v.print = "-1.2345e+1000000000000000" := by decide +kernel
  have hrounded : v.roundTo (.ofRequest 3) = ⟨-123, 999999999999998⟩ := by decide +kernel
  have hprinted : v.printSignificant 3 = "-1.23e+1000000000000000" := by decide +kernel
  obtain ⟨hread, hsignificant, hevaluated⟩ :=
    printed_decimal_reads_back (v := v) (by decide +kernel) (by decide +kernel)
  have hthree := (hsignificant 3).2 (by decide +kernel)
  have hvalue := hevaluated .empty (by decide +kernel)
  rw [hprint] at hread hvalue
  rw [hprinted, hrounded] at hthree
  exact ⟨hread (by decide +kernel), hthree, hvalue⟩

end Calculator.Evaluation.Precise
