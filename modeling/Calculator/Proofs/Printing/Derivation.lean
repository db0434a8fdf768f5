import Calculator.Proofs.Grammar.Correctness
import Calculator.Proofs.Printing.Words
/-!
The words of a printed tree derive the tree again, with no more levels than the tokens that it came from. A printed
tree stands in parentheses only where a phrase of its own class may not stand, and there the tokens had parentheses
too.
-/
namespace Calculator.Expr
open Grammar Token

namespace Grammar.Phrase

/-- The place of the class in the order of the grammar, the loosest class first. -/
def rank : Phrase → Nat
  | expression => 0
  | term => 1
  | factor => 2
  | unary => 3
  | postfixed => 4
  | primary => 5

/-- The next looser class; there is none beyond expressions. -/
def looser : Phrase → Phrase
  | expression | term => expression
  | factor => term
  | unary => factor
  | postfixed => unary
  | primary => postfixed

/-- The tightest class that a tree belongs to without parentheses. -/
def ofExpr : Expr → Phrase
  | .binary .add _ _ _ | .binary .sub _ _ _ => expression
  | .binary .mul _ _ _ | .binary .div _ _ _ | .binary .mod _ _ _ => term
  | .binary .pow _ _ _ => factor
  | .unary .plus _ _ | .unary .minus _ _ => unary
  | .unary .factorial _ _ => postfixed
  | _ => primary

/-- The class of an operand. -/
def ofOperand (onRight : Bool) : BinaryOp → Phrase
  | .add | .sub => if onRight then term else expression
  | .mul | .div | .mod => if onRight then factor else term
  | .pow => if onRight then factor else unary

/-- The class of the operand of a unary operator. -/
def ofUnaryOperand (op : UnaryOp) : Phrase :=
  if op.standsBehind then postfixed else unary

end Grammar.Phrase

theorem needsParens_eq (op : BinaryOp) (onRight : Bool) (e : Expr) :
    needsParens op onRight e = decide ((Phrase.ofExpr e).rank < (Phrase.ofOperand onRight op).rank) := by
  cases e with
  | binary op' l r span => cases op <;> cases onRight <;> cases op' <;> rfl
  | unary op' e span => cases op <;> cases onRight <;> cases op' <;> rfl
  | number | constant | free | call | matrix | complex => cases op <;> cases onRight <;> rfl

theorem needsUnaryParens_eq (op : UnaryOp) (e : Expr) :
    needsUnaryParens op e = decide ((Phrase.ofExpr e).rank < (Phrase.ofUnaryOperand op).rank) := by
  cases e with
  | binary op' l r span => cases op <;> cases op' <;> rfl
  | unary op' e span => cases op <;> cases op' <;> rfl
  | number | constant | free | call | matrix | complex => cases op <;> rfl

theorem Grammar.Derives.looser {p : Phrase} {n : Nat} {ts : List Token} {e : Expr} (h : Derives p n ts e) :
    Derives p.looser n ts e := by
  cases p with
  | expression => exact h
  | term => exact .ofTerm h
  | factor => exact .ofFactor h
  | unary => exact .ofUnary h
  | postfixed => exact .ofPostfixed h
  | primary => exact .ofPrimary h

/-- A phrase of a tighter class is one of a looser class. -/
theorem Grammar.Derives.loosen {p q : Phrase} {n : Nat} {ts : List Token} {e : Expr} (h : Derives p n ts e)
    (hrank : q.rank ≤ p.rank) : Derives q n ts e := by
  induction hsteps : p.rank - q.rank generalizing p with
  | zero =>
    have hsame : p = q := by
      have heq : p.rank = q.rank := by omega
      revert heq
      cases p <;> cases q <;> decide
    exact hsame ▸ h
  | succ k ih =>
    have hlooser : p.looser.rank = p.rank - 1 := by cases p <;> rfl
    exact ih h.looser (by omega) (by omega)

/-! ### Trees from printed words -/

section
variable {p : Phrase} {n m : Nat} {e l r : Expr} {span : Span}

/-- Whatever tokens have the words of the tree derive it, apart from places, with at most `n` levels; and with fewer
than `n` where the tree stands in parentheses as a phrase of the class. -/
def Rewrites (p : Phrase) (n : Nat) (e : Expr) : Prop :=
  ∀ ts : List Token, ts.map word = e.words →
    ∃ n' e', Derives (Phrase.ofExpr e) n' ts e' ∧ e'.unplaced = e.unplaced ∧ n' ≤ n ∧
      ((Phrase.ofExpr e).rank < p.rank → n' + 1 ≤ n)

theorem word_eq {t : Token} {kind : Kind} {text : String} (h : t.word = (kind, text)) :
    t.kind = kind ∧ t.text = text :=
  Prod.mk.inj h

theorem isOperator_of_word {t : Token} {c : Char} (h : t.word = operatorWord c) : t.isOperator c = true :=
  Parser.isOperator_iff.mpr (word_eq h)

/-- Tokens whose words stand in parentheses. -/
theorem tokens_of_wordsInParens {ts : List Token} {ws : List Word} (hts : ts.map word = wordsInParens true ws) :
    ∃ opening inner closing, ts = opening :: (inner ++ [closing]) ∧ opening.kind = .lparen ∧ inner.map word = ws ∧
      closing.kind = .rparen := by
  rw [wordsInParens, if_pos rfl] at hts
  obtain ⟨opening, us, rfl, hopening, hus⟩ := List.map_eq_cons_iff.mp hts
  obtain ⟨inner, rest, rfl, hinner, hrest⟩ := List.map_eq_append_iff.mp hus
  obtain ⟨closing, rfl, hclosing⟩ := List.map_eq_singleton_iff.mp hrest
  exact ⟨opening, inner, closing, rfl, (word_eq hopening).1, hinner, (word_eq hclosing).1⟩

/-- In parentheses where they are needed, a tree is a phrase of the class. -/
theorem Rewrites.inParens (h : Rewrites p n e) {ts : List Token}
    (hts : ts.map word = wordsInParens (decide ((Phrase.ofExpr e).rank < p.rank)) e.words) :
    ∃ n' e', Derives p n' ts e' ∧ e'.unplaced = e.unplaced ∧ n' ≤ n := by
  by_cases hrank : (Phrase.ofExpr e).rank < p.rank
  · rw [decide_eq_true hrank] at hts
    obtain ⟨opening, inner, closing, rfl, hopening, hinner, hclosing⟩ := tokens_of_wordsInParens hts
    obtain ⟨n', e', hderives, hunplaced, -, hlevels⟩ := h inner hinner
    have hexpression : Derives .expression n' inner e' := hderives.loosen (Nat.zero_le _)
    have hprimary := Derives.parenthesized hopening hclosing hexpression
    refine ⟨n' + 1, e', hprimary.loosen ?_, hunplaced, hlevels hrank⟩
    cases p <;> decide
  · rw [decide_eq_false hrank, wordsInParens, if_neg Bool.false_ne_true] at hts
    obtain ⟨n', e', hderives, hunplaced, hle, -⟩ := h ts hts
    exact ⟨n', e', hderives.loosen (Nat.not_lt.mp hrank), hunplaced, hle⟩

theorem Rewrites.loosen {q : Phrase} (h : Rewrites p n e) (hrank : q.rank ≤ p.rank) : Rewrites q n e := by
  intro ts hts
  obtain ⟨n', e', hderives, hunplaced, hle, hlevels⟩ := h ts hts
  exact ⟨n', e', hderives, hunplaced, hle, fun hlt => hlevels (Nat.lt_of_lt_of_le hlt hrank)⟩

/-- A phrase of just the class that the tree has needs no parentheses. -/
theorem rewrites_of_exact (h : ∀ ts : List Token, ts.map word = e.words →
    ∃ n' e', Derives (Phrase.ofExpr e) n' ts e' ∧ e'.unplaced = e.unplaced ∧ n' ≤ n)
    (hp : p.rank ≤ (Phrase.ofExpr e).rank) : Rewrites p n e := by
  intro ts hts
  obtain ⟨n', e', hderives, hunplaced, hle⟩ := h ts hts
  exact ⟨n', e', hderives, hunplaced, hle, fun hlt => absurd hlt (Nat.not_lt.mpr hp)⟩

/-- Two operands and what joins them, from tokens with their words. -/
theorem binary_operands {op : BinaryOp} (hl : Rewrites (Phrase.ofOperand false op) n l)
    (hr : Rewrites (Phrase.ofOperand true op) m r) {ts : List Token}
    (hts : ts.map word = (Expr.binary op l r span).words) :
    ∃ us t vs n' m' l' r', ts = us ++ t :: vs ∧ t.isOperator op.symbol = true ∧
      Derives (Phrase.ofOperand false op) n' us l' ∧ Derives (Phrase.ofOperand true op) m' vs r' ∧
      (joined op l' r').unplaced = (Expr.binary op l r span).unplaced ∧ n' ≤ n ∧ m' ≤ m := by
  rw [words, needsParens_eq, needsParens_eq] at hts
  obtain ⟨us, rest, rfl, hus, hrest⟩ := List.map_eq_append_iff.mp hts
  obtain ⟨t, vs, rfl, ht, hvs⟩ := List.map_eq_cons_iff.mp hrest
  obtain ⟨n', l', hl', hlsame, hn⟩ := hl.inParens hus
  obtain ⟨m', r', hr', hrsame, hm⟩ := hr.inParens hvs
  refine ⟨us, t, vs, n', m', l', r', rfl, isOperator_of_word ht, hl', hr', ?_, hn, hm⟩
  rw [joined, unplaced, unplaced, hlsame, hrsame]

end

/-- The arguments of a call, from tokens with their words. -/
theorem separated_of_words {args : List Argument}
    (h : ∀ a ∈ args, Rewrites .expression a.nesting a.tree) {ts : List Token}
    (hts : ts.map word = wordsSeparated (wordsList (args.map Argument.tree))) :
    ∃ args', Separated args' ts ∧ (∀ a ∈ args', Derives .expression a.nesting a.tokens a.tree) ∧
      unplacedList (args'.map Argument.tree) = unplacedList (args.map Argument.tree) ∧
      nestingOf args' ≤ nestingOf args := by
  induction args generalizing ts with
  | nil =>
    obtain rfl := List.map_eq_nil_iff.mp hts
    exact ⟨[], .nil, fun a ha => (nomatch ha), rfl, Nat.le_refl _⟩
  | cons a args ih =>
    obtain ⟨ha, hargs⟩ := List.forall_mem_cons.mp h
    cases args with
    | nil =>
      have hwords : ts.map word = a.tree.words := by
        simpa [wordsSeparated, wordsList, List.intercalate] using hts
      obtain ⟨n, e, hderives, hsame, hle, -⟩ := ha ts hwords
      refine ⟨[⟨n, ts, e⟩], .single ⟨n, ts, e⟩, ?_, ?_, ?_⟩
      · exact List.forall_mem_singleton.mpr (hderives.loosen (Nat.zero_le _))
      · simp only [List.map_cons, List.map_nil, unplacedList, hsame]
      · simp only [nestingOf]
        omega
    | cons b args =>
      have hsplit : wordsSeparated (wordsList ((a :: b :: args).map Argument.tree)) =
          a.tree.words ++ (.comma, ",") :: wordsSeparated (wordsList ((b :: args).map Argument.tree)) := by
        simp [wordsSeparated, wordsList, List.intercalate]
      rw [hsplit] at hts
      obtain ⟨us, rest, rfl, hus, hrest⟩ := List.map_eq_append_iff.mp hts
      obtain ⟨comma, vs, rfl, hcomma, hvs⟩ := List.map_eq_cons_iff.mp hrest
      obtain ⟨n, e, hderives, hsame, hle, -⟩ := ha us hus
      obtain ⟨args', hsep, hderives', hsame', hle'⟩ := ih hargs hvs
      cases args' with
      | nil => exact absurd (congrArg List.length hsame') (by simp [unplacedList])
      | cons b' args' =>
        refine ⟨⟨n, us, e⟩ :: b' :: args', .cons (word_eq hcomma).1 hsep, ?_, ?_, ?_⟩
        · exact List.forall_mem_cons.mpr ⟨hderives.loosen (Nat.zero_le _), hderives'⟩
        · change e.unplaced :: unplacedList ((b' :: args').map Argument.tree) =
            a.tree.unplaced :: unplacedList ((b :: args).map Argument.tree)
          rw [hsame, hsame']
        · have hnew := nestingOf_cons ⟨n, us, e⟩ (b' :: args')
          have hold := nestingOf_cons a (b :: args)
          dsimp only at hnew
          omega

/-- What is derived is derived again from the words that print it, with no more levels. -/
theorem Grammar.Derives.rewrites {p : Phrase} {n : Nat} {ts : List Token} {e : Expr} (h : Derives p n ts e) :
    Rewrites p n e := by
  induction h with
  | @number t value _ hread =>
    refine rewrites_of_exact (fun us hus => ?_) (Nat.le_refl _)
    rw [words] at hus
    obtain ⟨u, rfl, hu⟩ := List.map_eq_singleton_iff.mp hus
    obtain ⟨hkind, htext⟩ := word_eq hu
    refine ⟨0, _, .number hkind (htext ▸ hread), ?_, Nat.le_refl _⟩
    rw [unplaced, unplaced, htext]
  | @constant t c _ hname =>
    refine rewrites_of_exact (fun us hus => ?_) (Nat.le_refl _)
    rw [words] at hus
    obtain ⟨u, rfl, hu⟩ := List.map_eq_singleton_iff.mp hus
    obtain ⟨hkind, htext⟩ := word_eq hu
    refine ⟨0, _, .constant hkind (htext ▸ (ofName?_constant c).2), ?_, Nat.le_refl _⟩
    rw [unplaced, unplaced]
  | @free t _ =>
    refine rewrites_of_exact (fun us hus => ?_) (Nat.le_refl _)
    rw [words] at hus
    obtain ⟨u, rfl, hu⟩ := List.map_eq_singleton_iff.mp hus
    obtain ⟨hkind, htext⟩ := word_eq hu
    refine ⟨0, _, .free hkind, ?_, Nat.le_refl _⟩
    rw [unplaced, unplaced, htext]
  | @call name _ _ args ts _ _ _ _ _ ih =>
    refine rewrites_of_exact (fun us hus => ?_) (Nat.le_refl _)
    rw [words] at hus
    obtain ⟨name', us, rfl, hname, hus⟩ := List.map_eq_cons_iff.mp hus
    obtain ⟨opening, inner, closing, rfl, hopening, hinner, hclosing⟩ := tokens_of_wordsInParens hus
    obtain ⟨args', hsep, hargs, hsame, hle⟩ := separated_of_words ih hinner
    obtain ⟨hkind, htext⟩ := word_eq hname
    refine ⟨nestingOf args', _, .call hkind hopening hclosing hsep hargs, ?_, hle⟩
    rw [unplaced, unplaced, htext, hsame]
  | parenthesized _ _ _ ih =>
    intro us hus
    obtain ⟨n', e', hderives, hsame, hle, -⟩ := ih us hus
    exact ⟨n', e', hderives, hsame, Nat.le_succ_of_le hle, fun _ => Nat.succ_le_succ hle⟩
  | ofPrimary _ ih | ofPostfixed _ ih | ofUnary _ ih | ofFactor _ ih | ofTerm _ ih => exact ih.loosen (by decide)
  | @factorial bang n ts e _ _ ih =>
    refine rewrites_of_exact (fun us hus => ?_) (Nat.le_refl _)
    rw [words, needsUnaryParens_eq] at hus
    obtain ⟨inner, closing, rfl, hinner, hclosing⟩ := List.map_eq_append_iff.mp hus
    obtain ⟨bang', rfl, hbang⟩ := List.map_eq_singleton_iff.mp hclosing
    obtain ⟨n', e', hderives, hsame, hle⟩ := ih.inParens hinner
    refine ⟨n', _, .factorial hderives (isOperator_of_word hbang), ?_, hle⟩
    rw [unplaced, unplaced, hsame]
  | @sign t op n ts e hop _ _ ih =>
    have hphrase : Phrase.unary.rank ≤ (Phrase.ofExpr (.unary op e ⟨t.position, e.span.stop⟩)).rank := by
      rcases hop with rfl | rfl <;> exact Nat.le_refl _
    refine rewrites_of_exact (fun us hus => ?_) hphrase
    have hfront : op.standsBehind = false := by rcases hop with rfl | rfl <;> rfl
    rw [words, needsUnaryParens_eq, Phrase.ofUnaryOperand, hfront] at hus
    simp only [Bool.false_eq_true, if_false] at hus
    obtain ⟨sign', inner, rfl, hsign, hinner⟩ := List.map_eq_cons_iff.mp hus
    obtain ⟨n', e', hderives, hsame, hle⟩ := ih.inParens hinner
    refine ⟨n' + 1, .unary op e' ⟨sign'.position, e'.span.stop⟩, ?_, ?_, Nat.succ_le_succ hle⟩
    · have hsigned := Derives.sign hop (isOperator_of_word hsign) hderives
      rcases hop with rfl | rfl <;> exact hsigned
    · rw [unplaced, unplaced, hsame]
  | @power t n m ts us l r _ _ _ ihl ihr =>
    refine rewrites_of_exact (fun vs hvs => ?_) (Nat.le_refl _)
    have hleft : Rewrites (Phrase.ofOperand false .pow) n l := ihl
    have hright : Rewrites (Phrase.ofOperand true .pow) m r := ihr
    obtain ⟨us, t, vs, n', m', l', r', rfl, ht, hl', hr', hsame, hn, hm⟩ := binary_operands hleft hright hvs
    exact ⟨max n' (m' + 1), _, .power hl' ht hr', hsame, by omega⟩
  | @product t op n m ts us l r _ hop _ _ ihl ihr =>
    have hclass : Phrase.ofExpr (joined op l r) = .term ∧ Phrase.ofOperand false op = .term ∧
        Phrase.ofOperand true op = .factor := by
      simp only [List.mem_cons, List.not_mem_nil, or_false] at hop
      rcases hop with rfl | rfl | rfl <;> exact ⟨rfl, rfl, rfl⟩
    obtain ⟨hterm, hleft, hright⟩ := hclass
    refine rewrites_of_exact (fun vs hvs => ?_) (hterm ▸ Nat.le_refl _)
    rw [hterm]
    obtain ⟨us, t, vs, n', m', l', r', rfl, ht, hl', hr', hsame, hn, hm⟩ :=
      binary_operands (hleft ▸ ihl) (hright ▸ ihr) hvs
    rw [hleft] at hl'
    rw [hright] at hr'
    exact ⟨_, _, .product hl' hop ht hr', hsame, by omega⟩
  | @sum t op n m ts us l r _ hop _ _ ihl ihr =>
    have hclass : Phrase.ofExpr (joined op l r) = .expression ∧ Phrase.ofOperand false op = .expression ∧
        Phrase.ofOperand true op = .term := by
      simp only [List.mem_cons, List.not_mem_nil, or_false] at hop
      rcases hop with rfl | rfl <;> exact ⟨rfl, rfl, rfl⟩
    obtain ⟨hexpression, hleft, hright⟩ := hclass
    refine rewrites_of_exact (fun vs hvs => ?_) (Nat.zero_le _)
    rw [hexpression]
    obtain ⟨us, t, vs, n', m', l', r', rfl, ht, hl', hr', hsame, hn, hm⟩ :=
      binary_operands (hleft ▸ ihl) (hright ▸ ihr) hvs
    rw [hleft] at hl'
    rw [hright] at hr'
    exact ⟨_, _, .sum hl' hop ht hr', hsame, by omega⟩

end Calculator.Expr
