import Calculator.Proofs.Grammar
import Calculator.Proofs.Grammar.Outcome
/-! Whatever the parser reads, the grammar derives. -/
namespace Calculator.Expr.Grammar
open Calculator.Expr.Parser

/-- What the rule takes from the head of the tokens, the grammar derives as a phrase of the class. -/
def Sound (p : Phrase) (rule : Rule) : Prop :=
  ∀ ts e rest, outcome (rule ts) = .ok (e, rest) → ∃ n w, ts = w ++ rest ∧ Derives p n w e

/-- A loop goes on or stops at the first token. -/
theorem goes_on_or_stops (P : Token → Prop) (ts : List Token) :
    (∃ t us, ts = t :: us ∧ P t) ∨ ∀ t ∈ ts.head?, ¬P t := by
  cases ts with
  | nil => exact .inr fun t ht => (nomatch ht)
  | cons t us =>
    by_cases ht : P t
    · exact .inl ⟨t, us, rfl, ht⟩
    · refine .inr fun u hu => ?_
      cases hu
      exact ht

section
variable {limit : Nat} {inner innerUnary innerFactor operand : Rule}

/-- The arguments behind a first one, whatever the first one is. -/
theorem moreArguments_sound (hinner : Sound .expression inner) {ts rest : List Token} {es : List Expr}
    (h : outcome (moreArguments inner ts) = .ok (es, rest)) :
    ∃ args w, ts = w ++ rest ∧ args.map Argument.tree = es ∧
      (∀ a ∈ args, Derives .expression a.nesting a.tokens a.tree) ∧
      ∀ a : Argument, Separated (a :: args) (a.tokens ++ w) := by
  induction hlen : ts.length using Nat.strongRecOn generalizing ts es with
  | ind k ih =>
    subst hlen
    rcases goes_on_or_stops (·.kind = .comma) ts with ⟨t, us, rfl, ht⟩ | hstop
    · rw [outcome_moreArguments inner us ht, bind_eq_ok] at h
      obtain ⟨⟨e, us'⟩, hfirst, h⟩ := h
      obtain ⟨⟨es', rest'⟩, hothers, h⟩ := bind_eq_ok.mp h
      obtain ⟨rfl, rfl⟩ := Prod.mk.inj (Except.ok.inj h)
      obtain ⟨n, w, rfl, he⟩ := hinner _ _ _ hfirst
      have hlt : us'.length < (t :: (w ++ us')).length := by
        rw [List.length_cons, List.length_append]
        omega
      obtain ⟨args, v, rfl, rfl, hargs, hsep⟩ := ih _ hlt hothers rfl
      refine ⟨⟨n, w, e⟩ :: args, t :: (w ++ v), by simp, rfl, ?_, fun a => ?_⟩
      · exact List.forall_mem_cons.mpr ⟨he, hargs⟩
      · exact .cons ht (hsep ⟨n, w, e⟩)
    · rw [outcome_moreArguments_done inner hstop] at h
      obtain ⟨rfl, rfl⟩ := Prod.mk.inj (Except.ok.inj h)
      refine ⟨[], [], rfl, rfl, fun a ha => (nomatch ha), fun a => ?_⟩
      rw [List.append_nil]
      exact .single a

theorem arguments_sound (hinner : Sound .expression inner) {ts rest : List Token} {es : List Expr}
    (h : outcome (arguments inner ts) = .ok (es, rest)) :
    ∃ args w, ts = w ++ rest ∧ args.map Argument.tree = es ∧ Separated args w ∧
      ∀ a ∈ args, Derives .expression a.nesting a.tokens a.tree := by
  rcases ts with _ | ⟨t, us⟩
  · rw [outcome_arguments_nil, bind_eq_ok] at h
    obtain ⟨⟨e, us⟩, hfirst, h⟩ := h
    obtain ⟨rfl, rfl⟩ := Prod.mk.inj (Except.ok.inj h)
    obtain ⟨n, w, hw, he⟩ := hinner _ _ _ hfirst
    exact ⟨[⟨n, w, e⟩], w, hw, rfl, .single ⟨n, w, e⟩, List.forall_mem_singleton.mpr he⟩
  · by_cases ht : t.kind = .rparen
    · rw [outcome_arguments_none inner us ht] at h
      obtain ⟨rfl, rfl⟩ := Prod.mk.inj (Except.ok.inj h)
      exact ⟨[], [], rfl, rfl, .nil, fun a ha => (nomatch ha)⟩
    · rw [outcome_arguments inner us ht, bind_eq_ok] at h
      obtain ⟨⟨e, us'⟩, hfirst, h⟩ := h
      obtain ⟨⟨es', rest'⟩, hothers, h⟩ := bind_eq_ok.mp h
      obtain ⟨rfl, rfl⟩ := Prod.mk.inj (Except.ok.inj h)
      obtain ⟨n, w, hw, he⟩ := hinner _ _ _ hfirst
      obtain ⟨args, v, rfl, rfl, hargs, hsep⟩ := moreArguments_sound hinner hothers
      refine ⟨⟨n, w, e⟩ :: args, w ++ v, by simp [hw], rfl, hsep ⟨n, w, e⟩, ?_⟩
      exact List.forall_mem_cons.mpr ⟨he, hargs⟩

theorem call_sound (hinner : Sound .expression inner) {name : Token} (hname : name.kind = .function)
    {ts rest : List Token} {e : Expr} (h : outcome (Parser.call limit inner name ts) = .ok (e, rest)) :
    ∃ n w, ts = w ++ rest ∧ Derives .primary n (name :: w) e := by
  obtain ⟨opening, us, hopen, rfl⟩ := outcome_call_eq_ok limit inner h
  rw [outcome_call limit inner us hopen, bind_eq_ok] at h
  obtain ⟨⟨es, us'⟩, hargs, h⟩ := h
  obtain ⟨⟨closing, rest'⟩, hclosing, h⟩ := bind_eq_ok.mp h
  obtain ⟨tree, htree, h⟩ := bind_eq_ok.mp h
  obtain ⟨rfl, rfl⟩ := Prod.mk.inj (Except.ok.inj h)
  obtain ⟨args, w, rfl, rfl, hsep, hderives⟩ := arguments_sound hinner hargs
  obtain ⟨hclose, rfl⟩ := closing_eq_ok hclosing
  rw [bounded_eq_ok htree]
  exact ⟨nestingOf args, opening :: (w ++ [closing]), by simp, .call hname hopen hclose hsep hderives⟩

theorem primary_sound (hinner : Sound .expression inner) : Sound .primary (primary limit inner) := by
  intro ts e rest h
  rcases ts with _ | ⟨t, us⟩
  · cases h
  cases hkind : t.kind with
  | number =>
    cases hread : Binary64.read? t.text with
    | none => simp [primary, hkind, hread] at h
    | some value =>
      simp only [primary, hkind, hread] at h
      obtain ⟨rfl, rfl⟩ := Prod.mk.inj (Except.ok.inj h)
      exact ⟨0, [t], rfl, .number hkind hread⟩
  | constant =>
    cases hname : Constant.ofName? t.text with
    | none => simp [primary, hkind, hname] at h
    | some c =>
      simp only [primary, hkind, hname] at h
      obtain ⟨rfl, rfl⟩ := Prod.mk.inj (Except.ok.inj h)
      exact ⟨0, [t], rfl, .constant hkind hname⟩
  | variableName =>
    simp only [primary, hkind] at h
    obtain ⟨rfl, rfl⟩ := Prod.mk.inj (Except.ok.inj h)
    exact ⟨0, [t], rfl, .free hkind⟩
  | function =>
    rw [outcome_primary_call limit inner us hkind] at h
    obtain ⟨n, w, rfl, he⟩ := call_sound hinner hkind h
    exact ⟨n, t :: w, rfl, he⟩
  | lparen =>
    rw [outcome_primary_parenthesized limit inner us hkind, bind_eq_ok] at h
    obtain ⟨⟨tree, us'⟩, htree, h⟩ := h
    obtain ⟨⟨closing, rest'⟩, hclosing, h⟩ := bind_eq_ok.mp h
    obtain ⟨rfl, rfl⟩ := Prod.mk.inj (Except.ok.inj h)
    obtain ⟨n, w, rfl, he⟩ := hinner _ _ _ htree
    obtain ⟨hclose, rfl⟩ := closing_eq_ok hclosing
    exact ⟨n + 1, t :: (w ++ [closing]), by simp, .parenthesized hkind hclose he⟩
  | operator | rparen | comma => simp [primary, hkind] at h

theorem factorials_sound {n : Nat} {w ts rest : List Token} {operand e : Expr}
    (hoperand : Derives .postfixed n w operand) (h : outcome (factorials limit operand ts) = .ok (e, rest)) :
    ∃ m v, ts = v ++ rest ∧ Derives .postfixed m (w ++ v) e := by
  induction ts generalizing w operand with
  | nil =>
    obtain ⟨rfl, rfl⟩ := Prod.mk.inj (Except.ok.inj h)
    exact ⟨n, [], rfl, by rwa [List.append_nil]⟩
  | cons t us ih =>
    cases ht : t.isOperator '!' with
    | false =>
      rw [outcome_factorials_done limit operand (by simpa using ht)] at h
      obtain ⟨rfl, rfl⟩ := Prod.mk.inj (Except.ok.inj h)
      exact ⟨n, [], rfl, by rwa [List.append_nil]⟩
    | true =>
      rw [outcome_factorials_bang limit operand us ht, bind_eq_ok] at h
      obtain ⟨tree, htree, h⟩ := h
      rw [bounded_eq_ok htree] at h
      obtain ⟨m, v, rfl, he⟩ := ih (.factorial hoperand ht) h
      exact ⟨m, t :: v, rfl, by simpa using he⟩

theorem postfixed_sound (hinner : Sound .expression inner) : Sound .postfixed (postfixed limit inner) := by
  intro ts e rest h
  rw [outcome_postfixed, bind_eq_ok] at h
  obtain ⟨⟨operand, us⟩, hoperand, h⟩ := h
  obtain ⟨n, w, rfl, hw⟩ := primary_sound hinner _ _ _ hoperand
  obtain ⟨m, v, rfl, he⟩ := factorials_sound (.ofPrimary hw) h
  exact ⟨m, w ++ v, by simp, he⟩

theorem unary_sound (hinner : Sound .expression inner) (hunary : Sound .unary innerUnary) :
    Sound .unary (Parser.unary limit inner innerUnary) := by
  intro ts e rest h
  rcases goes_on_or_stops (sign? · ≠ none) ts with ⟨t, us, rfl, ht⟩ | hstop
  · obtain ⟨op, hop⟩ := Option.ne_none_iff_exists'.mp ht
    rw [outcome_unary_sign limit inner innerUnary us hop, bind_eq_ok] at h
    obtain ⟨⟨operand, us'⟩, hoperand, h⟩ := h
    obtain ⟨tree, htree, h⟩ := bind_eq_ok.mp h
    obtain ⟨rfl, rfl⟩ := Prod.mk.inj (Except.ok.inj h)
    obtain ⟨n, w, rfl, hw⟩ := hunary _ _ _ hoperand
    obtain ⟨hsign, hsymbol⟩ := sign?_eq_some.mp hop
    rw [bounded_eq_ok htree]
    exact ⟨n + 1, t :: w, rfl, .sign hsign hsymbol hw⟩
  · rw [outcome_unary_postfixed limit inner innerUnary (fun t ht => Classical.not_not.mp (hstop t ht))] at h
    obtain ⟨n, w, rfl, he⟩ := postfixed_sound hinner _ _ _ h
    exact ⟨n, w, rfl, .ofPostfixed he⟩

theorem factor_sound (hoperand : Sound .unary operand) (hfactor : Sound .factor innerFactor) :
    Sound .factor (factor limit operand innerFactor) := by
  intro ts e rest h
  rw [outcome_factor, bind_eq_ok] at h
  obtain ⟨⟨base, us⟩, hbase, h⟩ := h
  obtain ⟨n, w, rfl, hw⟩ := hoperand _ _ _ hbase
  rcases goes_on_or_stops (binaryOp? [.pow] · ≠ none) us with ⟨t, us', rfl, ht⟩ | hstop
  · obtain ⟨op, hop⟩ := Option.ne_none_iff_exists'.mp ht
    rw [outcome_exponent_power limit innerFactor base us' hop, bind_eq_ok] at h
    obtain ⟨⟨power, rest'⟩, hpower, h⟩ := h
    obtain ⟨tree, htree, h⟩ := bind_eq_ok.mp h
    obtain ⟨rfl, rfl⟩ := Prod.mk.inj (Except.ok.inj h)
    obtain ⟨m, v, rfl, hv⟩ := hfactor _ _ _ hpower
    obtain ⟨hmem, hsymbol⟩ := binaryOp?_eq_some.mp hop
    obtain rfl := List.mem_singleton.mp hmem
    rw [bounded_eq_ok htree]
    exact ⟨max n (m + 1), w ++ t :: v, by simp, .power hw hsymbol hv⟩
  · rw [outcome_exponent_done limit innerFactor base (fun t ht => Classical.not_not.mp (hstop t ht))] at h
    obtain ⟨rfl, rfl⟩ := Prod.mk.inj (Except.ok.inj h)
    exact ⟨n, w, rfl, .ofUnary hw⟩

/-- A chain of operands of class `q` is a phrase of class `p`, if `p` grows by an operator and a `q`. -/
theorem chain_sound {p q : Phrase} {ops : List BinaryOp} (hoperand : Sound q operand)
    (hgrow : ∀ {t op n m ws us l r}, Derives p n ws l → op ∈ ops → t.isOperator op.symbol = true →
      Derives q m us r → Derives p (max n m) (ws ++ t :: us) (joined op l r))
    {n : Nat} {w ts rest : List Token} {left e : Expr} (hleft : Derives p n w left)
    (h : outcome (chain limit ops operand left ts) = .ok (e, rest)) :
    ∃ m v, ts = v ++ rest ∧ Derives p m (w ++ v) e := by
  induction hlen : ts.length using Nat.strongRecOn generalizing n w ts left with
  | ind k ih =>
    subst hlen
    rcases goes_on_or_stops (binaryOp? ops · ≠ none) ts with ⟨t, us, rfl, ht⟩ | hstop
    · obtain ⟨op, hop⟩ := Option.ne_none_iff_exists'.mp ht
      rw [outcome_chain_operator limit operand ops left us hop, bind_eq_ok] at h
      obtain ⟨⟨right, us'⟩, hright, h⟩ := h
      obtain ⟨tree, htree, h⟩ := bind_eq_ok.mp h
      obtain ⟨m, u, rfl, hu⟩ := hoperand _ _ _ hright
      obtain ⟨hmem, hsymbol⟩ := binaryOp?_eq_some.mp hop
      rw [bounded_eq_ok htree] at h
      have hlt : us'.length < (t :: (u ++ us')).length := by
        rw [List.length_cons, List.length_append]
        omega
      obtain ⟨m', v, rfl, he⟩ := ih _ hlt (hgrow hleft hmem hsymbol hu) h rfl
      exact ⟨m', t :: (u ++ v), by simp, by simpa using he⟩
    · rw [outcome_chain_done limit operand ops left (fun t ht => Classical.not_not.mp (hstop t ht))] at h
      obtain ⟨rfl, rfl⟩ := Prod.mk.inj (Except.ok.inj h)
      exact ⟨n, [], rfl, by rwa [List.append_nil]⟩

theorem joinedBy_sound {p q : Phrase} {ops : List BinaryOp} (hoperand : Sound q operand)
    (hfirst : ∀ {n ws e}, Derives q n ws e → Derives p n ws e)
    (hgrow : ∀ {t op n m ws us l r}, Derives p n ws l → op ∈ ops → t.isOperator op.symbol = true →
      Derives q m us r → Derives p (max n m) (ws ++ t :: us) (joined op l r)) :
    Sound p (joinedBy limit ops operand) := by
  intro ts e rest h
  rw [outcome_joinedBy, bind_eq_ok] at h
  obtain ⟨⟨left, us⟩, hleft, h⟩ := h
  obtain ⟨n, w, rfl, hw⟩ := hoperand _ _ _ hleft
  obtain ⟨m, v, rfl, he⟩ := chain_sound hoperand hgrow (hfirst hw) h
  exact ⟨m, w ++ v, by simp, he⟩

end

/-- Every rule reads what the grammar derives. -/
structure SoundRules (r : Rules) : Prop where
  expression : Sound .expression r.expression
  factor : Sound .factor r.factor
  unary : Sound .unary r.unary

theorem exhausted_sound : SoundRules Rules.exhausted where
  expression _ _ _ h := nomatch h
  factor _ _ _ h := nomatch h
  unary _ _ _ h := nomatch h

theorem around_sound (limit : Nat) {deeper : Rules} (h : SoundRules deeper) : SoundRules (deeper.around limit) := by
  have hunary : Sound .unary (deeper.around limit).unary := unary_sound h.expression h.unary
  have hfactor : Sound .factor (deeper.around limit).factor := factor_sound hunary h.factor
  have hterm : Sound .term (joinedBy limit [.mul, .div, .mod] (deeper.around limit).factor) :=
    joinedBy_sound hfactor .ofFactor .product
  exact ⟨joinedBy_sound hterm .ofTerm .sum, hfactor, hunary⟩

theorem rules_sound (limit levels : Nat) : SoundRules (rules limit levels) := by
  induction levels with
  | zero => exact around_sound limit exhausted_sound
  | succ levels ih => exact around_sound limit ih

end Calculator.Expr.Grammar
