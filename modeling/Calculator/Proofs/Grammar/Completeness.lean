import Calculator.Proofs.Grammar.Soundness
import Mathlib.Tactic.SplitIfs
/-!
Whatever the grammar derives, the parser reads, unless the derivation has too many levels or the tree is too high.
The limits on levels and heights are arbitrary here, so that no tokens are left out.
-/
namespace Calculator.Expr.Grammar
open Calculator.Expr.Parser

/-- The rules that the rules with `levels` more levels use for what stands one level deeper. -/
def deeper (limit : Nat) : Nat → Rules
  | 0 => Rules.exhausted
  | levels + 1 => rules limit levels

namespace Phrase

/-- The parser's rule for the class. -/
def rule (limit levels : Nat) : Phrase → Rule
  | expression => (rules limit levels).expression
  | term => joinedBy limit [.mul, .div, .mod] (rules limit levels).factor
  | factor => (rules limit levels).factor
  | unary => (rules limit levels).unary
  | postfixed => Parser.postfixed limit (deeper limit levels).expression
  | primary => Parser.primary limit (deeper limit levels).expression

/-- What the rule does behind a phrase of the class that it has read, where it may loop. -/
def goOn (limit levels : Nat) : Phrase → Expr → List Token → Except ParseError (Expr × List Token)
  | expression, e, ts => outcome (chain limit [.add, .sub] (term.rule limit levels) e ts)
  | term, e, ts => outcome (chain limit [.mul, .div, .mod] (factor.rule limit levels) e ts)
  | postfixed, e, ts => outcome (factorials limit e ts)
  | _, e, ts => .ok (e, ts)

/-- The operators by which a phrase of the class may go on. -/
def extenders : Phrase → List Char
  | expression => ['!', '^', '*', '/', '%', '+', '-']
  | term => ['!', '^', '*', '/', '%']
  | factor => ['!', '^']
  | unary | postfixed => ['!']
  | primary => []

/-- The class of what the rule loops over, or the class itself. -/
def link : Phrase → Phrase
  | expression => term
  | term => factor
  | postfixed => primary
  | p => p

end Phrase

/-- No phrase of the class goes on with these tokens. -/
def Ends (p : Phrase) (ts : List Token) : Prop :=
  ∀ t ∈ ts.head?, ∀ c ∈ p.extenders, t.isOperator c = false

theorem Ends.mono {p q : Phrase} {ts : List Token} (h : Ends p ts) (hsub : q.extenders ⊆ p.extenders) : Ends q ts :=
  fun t ht c hc => h t ht c (hsub hc)

theorem Ends.link {p : Phrase} {ts : List Token} (h : Ends p ts) : Ends p.link ts :=
  h.mono (by cases p <;> decide)

theorem ends_cons {p : Phrase} {t : Token} (ts : List Token) (h : ∀ c ∈ p.extenders, t.isOperator c = false) :
    Ends p (t :: ts) := by
  intro u hu
  cases hu
  exact h

theorem ends_of_kind {p : Phrase} {t : Token} (ts : List Token) (h : t.kind ≠ .operator) : Ends p (t :: ts) := by
  refine ends_cons ts fun c _ => ?_
  rw [Bool.eq_false_iff]
  exact fun hc => h (isOperator_iff.mp hc).1

theorem ends_primary (ts : List Token) : Ends .primary ts := fun _ _ _ hc => absurd hc List.not_mem_nil

/-- An operator ends every phrase that does not go on by it. -/
theorem ends_of_operator {p : Phrase} {t : Token} {c : Char} (ts : List Token) (ht : t.isOperator c = true)
    (hc : c ∉ p.extenders) : Ends p (t :: ts) := by
  refine ends_cons ts fun d hd => ?_
  rw [Bool.eq_false_iff]
  intro htd
  rw [isOperator_unique ht htd] at hc
  exact hc hd

theorem binaryOp?_of_ends {p : Phrase} {ops : List BinaryOp} {ts : List Token} (h : Ends p ts)
    (hops : ∀ op ∈ ops, op.symbol ∈ p.extenders) : ∀ t ∈ ts.head?, binaryOp? ops t = none :=
  fun t ht => binaryOp?_eq_none.mpr fun op hop => h t ht _ (hops op hop)

theorem goOn_of_ends (limit levels : Nat) {p : Phrase} (e : Expr) {ts : List Token} (h : Ends p ts) :
    p.goOn limit levels e ts = .ok (e, ts) := by
  cases p with
  | expression => exact outcome_chain_done _ _ _ e (binaryOp?_of_ends h (by decide))
  | term => exact outcome_chain_done _ _ _ e (binaryOp?_of_ends h (by decide))
  | postfixed => exact outcome_factorials_done _ e fun t ht => h t ht '!' (List.mem_singleton.mpr rfl)
  | factor | unary | primary => rfl

/-- Where a derivation with `n` levels around its deepest point writes a tree, that tree is read and `next` is what
the reader does then, unless there are too many levels or the tree is too high. -/
def within {α : Type} (limit levels n : Nat) (e : Expr) (next : Except ParseError α) : Except ParseError α :=
  if n ≤ levels ∧ e.height ≤ limit then next else .error .tooDeep

theorem bind_within {α β : Type} (limit levels n : Nat) (e : Expr) (next : Except ParseError α)
    (f : α → Except ParseError β) : within limit levels n e next >>= f = within limit levels n e (next >>= f) := by
  unfold within
  split <;> rfl

theorem bind_bounded {α : Type} (limit : Nat) (e : Expr) (f : Expr → Except ParseError α) :
    bounded limit e >>= f = within limit 0 0 e (f e) := by
  unfold within bounded
  by_cases h : e.height ≤ limit
  · rw [if_pos h, if_pos ⟨Nat.le_refl 0, h⟩]
    rfl
  · rw [if_neg h, if_neg fun hw => h hw.2]
    rfl

/-! ### Where phrases start -/

/-- A phrase has a first token, which closes nothing; only signs are operators there. -/
theorem Derives.first {p : Phrase} {n : Nat} {ts : List Token} {e : Expr} (h : Derives p n ts e) :
    ∃ t us, ts = t :: us ∧ t.kind ≠ .rparen ∧
      (p = .primary ∨ p = .postfixed → t.kind ≠ .operator) := by
  induction h with
  | number hkind _ | constant hkind _ | free hkind | call hkind _ _ _ _ _ | parenthesized hkind _ _ _ =>
    exact ⟨_, _, rfl, by rw [hkind]; decide, fun _ => by rw [hkind]; decide⟩
  | sign hop ht _ _ =>
    refine ⟨_, _, rfl, by rw [(isOperator_iff.mp ht).1]; decide, ?_⟩
    rintro (h | h) <;> cases h
  | ofPrimary _ ih =>
    obtain ⟨t, us, rfl, hkind, hop⟩ := ih
    exact ⟨t, us, rfl, hkind, fun _ => hop (.inl rfl)⟩
  | factorial _ _ ih =>
    obtain ⟨t, us, rfl, hkind, hop⟩ := ih
    exact ⟨t, _, rfl, hkind, fun _ => hop (.inr rfl)⟩
  | ofPostfixed _ ih | ofUnary _ ih | ofFactor _ ih | ofTerm _ ih =>
    obtain ⟨t, us, rfl, hkind, -⟩ := ih
    refine ⟨t, us, rfl, hkind, ?_⟩
    rintro (h | h) <;> cases h
  | power _ _ _ ih _ | product _ _ _ _ ih _ | sum _ _ _ _ ih _ =>
    obtain ⟨t, us, rfl, hkind, -⟩ := ih
    refine ⟨t, _, rfl, hkind, ?_⟩
    rintro (h | h) <;> cases h

theorem Derives.sign?_head {n : Nat} {ts : List Token} {e : Expr} (h : Derives .postfixed n ts e)
    (rest : List Token) : ∀ t ∈ (ts ++ rest).head?, sign? t = none := by
  obtain ⟨t, us, rfl, -, hop⟩ := h.first
  intro u hu
  cases hu
  rw [Option.eq_none_iff_forall_ne_some]
  intro op hsign
  exact hop (.inr rfl) (isOperator_iff.mp (sign?_eq_some.mp hsign).2).1

/-! ### Phrases -/

theorem height_joined (op : BinaryOp) (l r : Expr) : (joined op l r).height = max l.height r.height + 1 := by
  simp only [joined, height]

theorem height_unary (op : UnaryOp) (e : Expr) (span : Span) : (unary op e span).height = e.height + 1 := by
  simp only [height]

theorem height_leaf {e : Expr} (h : e.height = 1) {α : Type} {limit : Nat} (hlimit : 1 ≤ limit) (levels : Nat)
    (next : Except ParseError α) : within limit levels 0 e next = next := by
  unfold within
  rw [if_pos ⟨Nat.zero_le levels, by omega⟩]

section
variable {limit levels n m : Nat} {p : Phrase} {ts rest : List Token} {e l r : Expr} {α : Type}

/-- The rule for the class reads the phrase, whatever follows, and then goes on behind it. -/
def Complete (limit : Nat) (p : Phrase) (n : Nat) (ts : List Token) (e : Expr) : Prop :=
  ∀ levels rest, Ends p.link rest →
    outcome (p.rule limit levels (ts ++ rest)) = within limit levels n e (p.goOn limit levels e rest)

theorem Complete.ends (h : Complete limit p n ts e) (levels : Nat) (hends : Ends p rest) :
    outcome (p.rule limit levels (ts ++ rest)) = within limit levels n e (.ok (e, rest)) := by
  rw [h levels rest hends.link, goOn_of_ends limit levels e hends]

/-- One level deeper, a phrase has one level more around it. -/
theorem Complete.deeper (h : Complete limit p n ts e) (sel : Rules → Rule) (levels : Nat) (hends : Ends p rest)
    (hrule : ∀ levels, sel (rules limit levels) = p.rule limit levels)
    (hexhausted : ∀ ts, sel Rules.exhausted ts = .error .tooDeep) :
    outcome (sel (Grammar.deeper limit levels) (ts ++ rest)) = within limit levels (n + 1) e (.ok (e, rest)) := by
  cases levels with
  | zero =>
    rw [Grammar.deeper, hexhausted, within, if_neg (by omega)]
    rfl
  | succ levels =>
    rw [Grammar.deeper, hrule, h.ends levels hends]
    simp only [within, Nat.add_le_add_iff_right]

theorem within_joined (op : BinaryOp) (next : Except ParseError α) :
    within limit levels n l (within limit levels m r (within limit 0 0 (joined op l r) next)) =
      within limit levels (max n m) (joined op l r) next := by
  have hheight := height_joined op l r
  unfold within
  split_ifs <;> first | rfl | omega

theorem within_unary (op : UnaryOp) (span : Span) (next : Except ParseError α) :
    within limit levels n e (within limit 0 0 (.unary op e span) next) =
      within limit levels n (.unary op e span) next := by
  have hheight := height_unary op e span
  unfold within
  split_ifs <;> first | rfl | omega

/-! ### Arguments -/

/-- As `within`, for the arguments of a call. -/
def withinAll (limit levels : Nat) (args : List Argument) (next : Except ParseError α) : Except ParseError α :=
  if nestingOf args ≤ levels ∧ heightList (args.map Argument.tree) ≤ limit then next else .error .tooDeep

theorem withinAll_cons (a : Argument) (args : List Argument) (next : Except ParseError α) :
    within limit levels (a.nesting + 1) a.tree (withinAll limit levels args next) =
      withinAll limit levels (a :: args) next := by
  have hnesting := nestingOf_cons a args
  have hheight : heightList ((a :: args).map Argument.tree) =
      max a.tree.height (heightList (args.map Argument.tree)) := by
    rw [List.map_cons, heightList]
  unfold within withinAll
  split_ifs <;> first | rfl | omega

theorem bind_withinAll {β : Type} (args : List Argument) (next : Except ParseError α) (f : α → Except ParseError β) :
    withinAll limit levels args next >>= f = withinAll limit levels args (next >>= f) := by
  unfold withinAll
  split <;> rfl

theorem withinAll_call (args : List Argument) (name : String) (span : Span) (next : Except ParseError α) :
    withinAll limit levels args (within limit 0 0 (.call name (args.map Argument.tree) span) next) =
      within limit levels (nestingOf args) (.call name (args.map Argument.tree) span) next := by
  have hheight : (Expr.call name (args.map Argument.tree) span).height =
      heightList (args.map Argument.tree) + 1 := by
    rw [height]
  unfold within withinAll
  split_ifs <;> first | rfl | omega

/-- The rule for expressions one level deeper reads the argument, whatever follows that ends it. -/
def Complete.Inner (limit levels : Nat) (inner : Rule) (a : Argument) : Prop :=
  ∀ rest, Ends .expression rest →
    outcome (inner (a.tokens ++ rest)) = within limit levels (a.nesting + 1) a.tree (.ok (a.tree, rest))

theorem moreArguments_complete {inner : Rule} {a : Argument} {args : List Argument} {closing : Token}
    (hsep : Separated (a :: args) ts) (hclose : closing.kind = .rparen)
    (hinner : ∀ b ∈ args, Complete.Inner limit levels inner b) (rest : List Token) :
    ∃ v, ts = a.tokens ++ v ∧ Ends .expression (v ++ closing :: rest) ∧
      outcome (moreArguments inner (v ++ closing :: rest)) =
        withinAll limit levels args (.ok (args.map Argument.tree, closing :: rest)) := by
  induction args generalizing a ts with
  | nil =>
    cases hsep
    refine ⟨[], by simp, ends_of_kind rest (by rw [hclose]; decide), ?_⟩
    rw [List.nil_append, outcome_moreArguments_done, withinAll, if_pos ⟨Nat.zero_le _, Nat.zero_le _⟩]
    · rfl
    · intro t ht
      cases ht
      rw [hclose]
      decide
  | cons b args ih =>
    obtain ⟨hb, hargs⟩ := List.forall_mem_cons.mp hinner
    cases hsep with
    | @cons _ _ _ comma us hcomma hrest =>
      obtain ⟨v, rfl, hends, hmore⟩ := ih hrest hargs
      refine ⟨comma :: (b.tokens ++ v), rfl, ends_of_kind _ (by rw [hcomma]; decide), ?_⟩
      rw [List.cons_append, outcome_moreArguments _ _ hcomma, List.append_assoc, hb _ hends, bind_within]
      change within limit levels (b.nesting + 1) b.tree
        (outcome (moreArguments inner (v ++ closing :: rest)) >>= fun others => .ok (b.tree :: others.1, others.2)) = _
      rw [hmore, bind_withinAll, withinAll_cons]
      rfl

theorem arguments_complete {inner : Rule} {args : List Argument} {closing : Token} (hsep : Separated args ts)
    (hclose : closing.kind = .rparen) (hargs : ∀ a ∈ args, Derives .expression a.nesting a.tokens a.tree)
    (hinner : ∀ a ∈ args, Complete.Inner limit levels inner a) (rest : List Token) :
    outcome (arguments inner (ts ++ closing :: rest)) =
      withinAll limit levels args (.ok (args.map Argument.tree, closing :: rest)) := by
  cases args with
  | nil =>
    cases hsep
    rw [List.nil_append, outcome_arguments_none _ _ hclose, withinAll, if_pos ⟨Nat.zero_le _, Nat.zero_le _⟩]
    rfl
  | cons a args =>
    obtain ⟨ha, hinner⟩ := List.forall_mem_cons.mp hinner
    obtain ⟨v, rfl, hends, hmore⟩ := moreArguments_complete hsep hclose hinner rest
    obtain ⟨t, us, htokens, hkind, -⟩ := (hargs a List.mem_cons_self).first
    have hread := ha _ hends
    rw [List.append_assoc]
    rw [htokens] at hread ⊢
    rw [List.cons_append, outcome_arguments _ _ hkind, ← List.cons_append, hread, bind_within]
    change within limit levels (a.nesting + 1) a.tree
      (outcome (moreArguments inner (v ++ closing :: rest)) >>= fun others => .ok (a.tree :: others.1, others.2)) = _
    rw [hmore, bind_withinAll, withinAll_cons]
    rfl

end

/-! ### All phrases -/

theorem expression_rule (limit levels : Nat) :
    Phrase.expression.rule limit levels = joinedBy limit [.add, .sub] (Phrase.term.rule limit levels) := by
  cases levels <;> rfl

theorem factor_rule (limit levels : Nat) :
    Phrase.factor.rule limit levels =
      Parser.factor limit (Phrase.unary.rule limit levels) (deeper limit levels).factor := by
  cases levels <;> rfl

theorem unary_rule (limit levels : Nat) :
    Phrase.unary.rule limit levels =
      Parser.unary limit (deeper limit levels).expression (deeper limit levels).unary := by
  cases levels <;> rfl

/-- Every phrase that the grammar derives is read by the rule for its class. -/
theorem Derives.complete {limit : Nat} (hlimit : 1 ≤ limit) {p : Phrase} {n : Nat} {ts : List Token} {e : Expr}
    (h : Derives p n ts e) : Complete limit p n ts e := by
  induction h with
  | @number t value hkind hread =>
    intro levels rest _
    rw [height_leaf (by rw [height]) hlimit]
    simp only [Phrase.rule, List.cons_append, List.nil_append, primary, hkind, hread, Phrase.goOn, outcome_ok]
  | @constant t c hkind hname =>
    intro levels rest _
    rw [height_leaf (by rw [height]) hlimit]
    simp only [Phrase.rule, List.cons_append, List.nil_append, primary, hkind, hname, Phrase.goOn, outcome_ok]
  | @free t hkind =>
    intro levels rest _
    rw [height_leaf (by rw [height]) hlimit]
    simp only [Phrase.rule, List.cons_append, List.nil_append, primary, hkind, Phrase.goOn, outcome_ok]
  | @call name opening closing args ts hname hopen hclose hsep hargs ih =>
    intro levels rest _
    have hinner : ∀ a ∈ args, Complete.Inner limit levels (deeper limit levels).expression a := fun a ha rest hends =>
      (ih a ha).deeper Rules.expression levels hends (fun _ => rfl) fun _ => rfl
    rw [List.cons_append, List.cons_append, List.append_assoc]
    change outcome (primary limit (deeper limit levels).expression _) = _
    rw [outcome_primary_call _ _ _ hname, outcome_call _ _ _ hopen]
    change outcome (arguments _ (ts ++ closing :: rest)) >>= _ = _
    rw [arguments_complete hsep hclose hargs hinner, bind_withinAll]
    change withinAll limit levels args (outcome (Parser.closing (closing :: rest)) >>= _) = _
    rw [outcome_closing _ hclose]
    change withinAll limit levels args (bounded limit _ >>= _) = _
    rw [bind_bounded, withinAll_call]
    rfl
  | @parenthesized opening closing n ts e hopen hclose _ ih =>
    intro levels rest _
    have hends : Ends .expression (closing :: rest) := ends_of_kind rest (by rw [hclose]; decide)
    have hread := ih.deeper Rules.expression levels hends (fun _ => rfl) fun _ => rfl
    rw [List.cons_append, List.append_assoc]
    change outcome (primary limit (deeper limit levels).expression _) = _
    rw [outcome_primary_parenthesized _ _ _ hopen]
    change outcome ((deeper limit levels).expression (ts ++ closing :: rest)) >>= _ = _
    rw [hread, bind_within]
    change within limit levels (n + 1) e (outcome (Parser.closing (closing :: rest)) >>= _) = _
    rw [outcome_closing _ hclose]
    rfl
  | @ofPrimary n ts e _ ih =>
    intro levels rest hends
    change outcome (postfixed limit (deeper limit levels).expression _) = _
    rw [outcome_postfixed]
    change outcome (Phrase.primary.rule limit levels (ts ++ rest)) >>= _ = _
    rw [ih.ends levels hends, bind_within]
    rfl
  | @factorial bang n ts e _ hbang ih =>
    intro levels rest hends
    rw [List.append_assoc, ih levels _ (ends_primary _)]
    change within limit levels n e (outcome (factorials limit e (bang :: rest))) = _
    rw [outcome_factorials_bang _ _ _ hbang, bind_bounded, within_unary]
    rfl
  | @ofPostfixed n ts e he ih =>
    intro levels rest hends
    rw [unary_rule, outcome_unary_postfixed _ _ _ (he.sign?_head rest)]
    exact ih.ends levels (hends.mono (by decide))
  | @sign t op n ts e hop ht _ ih =>
    intro levels rest hends
    have hread := ih.deeper Rules.unary levels hends (fun _ => rfl) fun _ => rfl
    rw [unary_rule, List.cons_append, outcome_unary_sign _ _ _ _ (sign?_eq_some.mpr ⟨hop, ht⟩), hread, bind_within]
    change within limit levels (n + 1) e (bounded limit _ >>= _) = _
    rw [bind_bounded, within_unary]
    rfl
  | @ofUnary n ts e _ ih =>
    intro levels rest hends
    rw [factor_rule, outcome_factor, ih.ends levels (hends.mono (by decide)), bind_within]
    change within limit levels n e (outcome (exponent limit _ e rest)) = _
    rw [outcome_exponent_done _ _ _ (binaryOp?_of_ends hends (by decide))]
    rfl
  | @power t n m ts us l r _ ht _ ihl ihr =>
    intro levels rest hends
    have hread := ihr.deeper Rules.factor levels hends (fun _ => rfl) fun _ => rfl
    have hop : binaryOp? [.pow] t = some .pow := binaryOp?_eq_some.mpr ⟨List.mem_singleton.mpr rfl, ht⟩
    rw [List.append_assoc, List.cons_append, factor_rule, outcome_factor, ihl.ends levels (ends_of_operator _ ht (by decide)), bind_within]
    change within limit levels n l (outcome (exponent limit _ l (t :: (us ++ rest)))) = _
    rw [outcome_exponent_power _ _ _ _ hop, hread, bind_within]
    change within limit levels n l (within limit levels (m + 1) r (bounded limit _ >>= _)) = _
    rw [bind_bounded, within_joined]
    rfl
  | @ofFactor n ts e _ ih =>
    intro levels rest hends
    change outcome (joinedBy limit _ (Phrase.factor.rule limit levels) _) = _
    rw [outcome_joinedBy, ih.ends levels hends, bind_within]
    rfl
  | @product t op n m ts us l r _ hop ht _ ihl ihr =>
    intro levels rest hends
    have hgo : binaryOp? [.mul, .div, .mod] t = some op := binaryOp?_eq_some.mpr ⟨hop, ht⟩
    have hsymbol : ∀ op ∈ [BinaryOp.mul, .div, .mod], op.symbol ∉ Phrase.factor.extenders := by decide
    rw [List.append_assoc, List.cons_append, ihl levels _ (ends_of_operator _ ht (hsymbol op hop))]
    change within limit levels n l (outcome (chain limit _ _ l (t :: (us ++ rest)))) = _
    rw [outcome_chain_operator _ _ _ _ _ hgo, ihr.ends levels hends, bind_within]
    change within limit levels n l (within limit levels m r (bounded limit _ >>= _)) = _
    rw [bind_bounded, within_joined]
    rfl
  | @ofTerm n ts e _ ih =>
    intro levels rest hends
    rw [expression_rule, outcome_joinedBy, ih.ends levels hends, bind_within]
    rfl
  | @sum t op n m ts us l r _ hop ht _ ihl ihr =>
    intro levels rest hends
    have hgo : binaryOp? [.add, .sub] t = some op := binaryOp?_eq_some.mpr ⟨hop, ht⟩
    have hsymbol : ∀ op ∈ [BinaryOp.add, .sub], op.symbol ∉ Phrase.term.extenders := by decide
    rw [List.append_assoc, List.cons_append, ihl levels _ (ends_of_operator _ ht (hsymbol op hop))]
    change within limit levels n l (outcome (chain limit _ _ l (t :: (us ++ rest)))) = _
    rw [outcome_chain_operator _ _ _ _ _ hgo, ihr.ends levels hends, bind_within]
    change within limit levels n l (within limit levels m r (bounded limit _ >>= _)) = _
    rw [bind_bounded, within_joined]
    rfl

end Calculator.Expr.Grammar
