import Calculator.Expr.Parser
import Calculator.Proofs.Except
/-!
What the rules of the parser give, without the proof that reading goes forward: one equation for each rule and
each way it can go on.
-/
namespace Calculator.Expr.Parser

section
variable {α : Type} {n : Nat}

/-- What was read and what is left. -/
def outcome (r : Except ParseError (Parsed α n)) : Except ParseError (α × List Token) :=
  r.map fun p => (p.value, p.rest)

@[simp]
theorem outcome_ok (p : Parsed α n) : outcome (.ok p) = .ok (p.value, p.rest) := rfl

@[simp]
theorem outcome_error (error : ParseError) : outcome (.error error : Except ParseError (Parsed α n)) = .error error :=
  rfl

theorem outcome_bind {β : Type} {m : Nat} (r : Except ParseError (Parsed α n))
    (f : Parsed α n → Except ParseError (Parsed β m)) (g : α × List Token → Except ParseError (β × List Token))
    (h : ∀ p, outcome (f p) = g (p.value, p.rest)) : outcome (r >>= f) = outcome r >>= g := by
  cases r with
  | error e => rfl
  | ok p => exact h p

theorem outcome_weaken {m : Nat} (r : Except ParseError (Parsed α n)) (h : n ≤ m) :
    outcome (do let p ← r; .ok (p.weaken h) : Except ParseError (Parsed α m)) = outcome r := by
  cases r <;> rfl

theorem outcome_bind_tree {β : Type} {m : Nat} (r : Except ParseError β)
    (f : β → Except ParseError (Parsed α m)) : outcome (r >>= f) = r >>= fun e => outcome (f e) := by
  cases r <;> rfl

end

theorem bounded_eq_ok {limit : Nat} {e tree : Expr} (h : bounded limit e = .ok tree) : tree = e := by
  unfold bounded at h
  split at h
  · exact (Except.ok.inj h).symm
  · cases h

/-! ### Single tokens -/

theorem ofSymbol?_eq_some {text : String} {op : BinaryOp} :
    BinaryOp.ofSymbol? text = some op ↔ text = String.singleton op.symbol := by
  constructor
  · intro h
    unfold BinaryOp.ofSymbol? at h
    have hbeq := List.find?_some h
    exact (beq_iff_eq.mp hbeq).symm
  · rintro rfl
    cases op <;> decide

theorem isOperator_iff {t : Token} {c : Char} :
    t.isOperator c = true ↔ t.kind = .operator ∧ t.text = String.singleton c := by
  simp only [Token.isOperator, Bool.and_eq_true, beq_iff_eq]

theorem isOperator_unique {t : Token} {c d : Char} (hc : t.isOperator c = true) (hd : t.isOperator d = true) :
    c = d := by
  have h := (isOperator_iff.mp hc).2.symm.trans (isOperator_iff.mp hd).2
  have hlist := congrArg String.toList h
  rw [String.toList_singleton, String.toList_singleton] at hlist
  exact List.head_eq_of_cons_eq hlist

theorem binaryOp?_eq_some {ops : List BinaryOp} {t : Token} {op : BinaryOp} :
    binaryOp? ops t = some op ↔ op ∈ ops ∧ t.isOperator op.symbol = true := by
  unfold binaryOp?
  rw [isOperator_iff]
  split
  · rename_i hkind
    rw [Option.filter_eq_some_iff, ofSymbol?_eq_some, List.contains_iff_mem]
    exact ⟨fun h => ⟨h.2, hkind, h.1⟩, fun h => ⟨h.2.2, h.1⟩⟩
  · rename_i hkind
    exact ⟨fun h => (nomatch h), fun h => absurd h.2.1 hkind⟩

theorem binaryOp?_eq_none {ops : List BinaryOp} {t : Token} :
    binaryOp? ops t = none ↔ ∀ op ∈ ops, t.isOperator op.symbol = false := by
  rw [Option.eq_none_iff_forall_ne_some]
  simp only [ne_eq, binaryOp?_eq_some, not_and, Bool.not_eq_true]

theorem sign?_eq_some {t : Token} {op : UnaryOp} :
    sign? t = some op ↔ (op = .plus ∨ op = .minus) ∧ t.isOperator op.symbol = true := by
  unfold sign?
  split
  · rename_i hminus
    constructor
    · rintro ⟨⟩
      exact ⟨.inr rfl, hminus⟩
    · rintro ⟨rfl | rfl, ht⟩
      · exact absurd (isOperator_unique hminus ht) (by decide)
      · rfl
  · rename_i hminus
    split
    · rename_i hplus
      constructor
      · rintro ⟨⟩
        exact ⟨.inl rfl, hplus⟩
      · rintro ⟨rfl | rfl, ht⟩
        · rfl
        · exact absurd ht hminus
    · rename_i hplus
      constructor
      · rintro ⟨⟩
      · rintro ⟨rfl | rfl, ht⟩
        · exact absurd ht hplus
        · exact absurd ht hminus

/-! ### Rules -/

variable (limit : Nat) (inner innerUnary innerFactor operand : Rule) (ops : List BinaryOp)

theorem outcome_closing {t : Token} (rest : List Token) (ht : t.kind = .rparen) :
    outcome (closing (t :: rest)) = .ok (t, rest) := by
  simp [closing, ht]

theorem closing_eq_ok {ts rest : List Token} {t : Token} (h : outcome (closing ts) = .ok (t, rest)) :
    t.kind = .rparen ∧ ts = t :: rest := by
  cases ts with
  | nil => cases h
  | cons u us =>
    by_cases hu : u.kind = .rparen
    · rw [outcome_closing us hu] at h
      obtain ⟨rfl, rfl⟩ := Prod.mk.inj (Except.ok.inj h)
      exact ⟨hu, rfl⟩
    · simp [closing, hu] at h

theorem outcome_moreArguments {t : Token} (rest : List Token) (ht : t.kind = .comma) :
    outcome (moreArguments inner (t :: rest)) =
      (do let first ← outcome (inner rest)
          let others ← outcome (moreArguments inner first.2)
          .ok (first.1 :: others.1, others.2)) := by
  rw [moreArguments, if_pos ht]
  refine outcome_bind _ _ _ fun first => ?_
  exact outcome_bind _ _ (fun others => .ok (first.value :: others.1, others.2)) fun _ => rfl

theorem outcome_moreArguments_done {ts : List Token} (h : ∀ t ∈ ts.head?, t.kind ≠ .comma) :
    outcome (moreArguments inner ts) = .ok ([], ts) := by
  cases ts with
  | nil => rw [moreArguments]; rfl
  | cons t rest => rw [moreArguments, if_neg (h t rfl)]; rfl

theorem outcome_arguments_none {t : Token} (rest : List Token) (ht : t.kind = .rparen) :
    outcome (arguments inner (t :: rest)) = .ok ([], t :: rest) := by
  simp [arguments, ht]

theorem outcome_arguments_nil :
    outcome (arguments inner []) =
      (do let first ← outcome (inner [])
          .ok ([first.1], first.2)) :=
  outcome_bind _ _ (fun first => .ok ([first.1], first.2)) fun _ => rfl

theorem outcome_arguments {t : Token} (rest : List Token) (ht : t.kind ≠ .rparen) :
    outcome (arguments inner (t :: rest)) =
      (do let first ← outcome (inner (t :: rest))
          let others ← outcome (moreArguments inner first.2)
          .ok (first.1 :: others.1, others.2)) := by
  rw [arguments, if_neg ht]
  refine outcome_bind _ _ _ fun first => ?_
  exact outcome_bind _ _ (fun others => .ok (first.value :: others.1, others.2)) fun _ => rfl

theorem outcome_call {name t : Token} (rest : List Token) (ht : t.kind = .lparen) :
    outcome (call limit inner name (t :: rest)) =
      (do let args ← outcome (arguments inner rest)
          let close ← outcome (closing args.2)
          let tree ← bounded limit (.call name.text args.1 ⟨name.position, close.1.stop⟩)
          .ok (tree, close.2)) := by
  rw [call, if_pos ht]
  refine outcome_bind _ _ _ fun args => ?_
  exact outcome_bind _ _ (fun close : Token × List Token => do
    let tree ← bounded limit (.call name.text args.value ⟨name.position, close.1.stop⟩)
    .ok (tree, close.2)) fun close => outcome_bind_tree _ _

theorem outcome_call_eq_ok {name : Token} {ts rest : List Token} {e : Expr}
    (h : outcome (call limit inner name ts) = .ok (e, rest)) : ∃ t us, t.kind = .lparen ∧ ts = t :: us := by
  cases ts with
  | nil => cases h
  | cons t us =>
    by_cases ht : t.kind = .lparen
    · exact ⟨t, us, ht, rfl⟩
    · simp [call, ht] at h

theorem outcome_primary_parenthesized {t : Token} (rest : List Token) (ht : t.kind = .lparen) :
    outcome (primary limit inner (t :: rest)) =
      (do let tree ← outcome (inner rest)
          let close ← outcome (closing tree.2)
          .ok (tree.1, close.2)) := by
  simp only [primary, ht]
  refine outcome_bind _ _ _ fun tree => ?_
  exact outcome_bind _ _ (fun close => .ok (tree.value, close.2)) fun _ => rfl

theorem outcome_primary_call {t : Token} (rest : List Token) (ht : t.kind = .function) :
    outcome (primary limit inner (t :: rest)) = outcome (call limit inner t rest) := by
  simp only [primary, ht]
  exact outcome_weaken _ _

theorem outcome_factorials_bang (e : Expr) {t : Token} (rest : List Token) (ht : t.isOperator '!' = true) :
    outcome (factorials limit e (t :: rest)) =
      (do let tree ← bounded limit (.unary .factorial e ⟨e.span.start, t.stop⟩)
          outcome (factorials limit tree rest)) := by
  rw [factorials, if_pos ht, outcome_bind_tree]
  exact congrArg _ (funext fun tree => outcome_weaken _ _)

theorem outcome_factorials_done (e : Expr) {ts : List Token} (h : ∀ t ∈ ts.head?, t.isOperator '!' = false) :
    outcome (factorials limit e ts) = .ok (e, ts) := by
  cases ts with
  | nil => rfl
  | cons t rest => rw [factorials, if_neg (by rw [h t rfl]; decide)]; rfl

theorem outcome_postfixed (ts : List Token) :
    outcome (postfixed limit inner ts) =
      (do let e ← outcome (primary limit inner ts)
          outcome (factorials limit e.1 e.2)) := by
  exact outcome_bind _ _ (fun e => outcome (factorials limit e.1 e.2)) fun e => outcome_weaken _ _

theorem outcome_unary_sign {t : Token} {op : UnaryOp} (rest : List Token) (h : sign? t = some op) :
    outcome (unary limit inner innerUnary (t :: rest)) =
      (do let e ← outcome (innerUnary rest)
          let tree ← bounded limit (.unary op e.1 ⟨t.position, e.1.span.stop⟩)
          .ok (tree, e.2)) := by
  simp only [unary, h]
  exact outcome_bind _ _ (fun e => do
    let tree ← bounded limit (.unary op e.1 ⟨t.position, e.1.span.stop⟩)
    .ok (tree, e.2)) fun e => outcome_bind_tree _ _

theorem outcome_unary_postfixed {ts : List Token} (h : ∀ t ∈ ts.head?, sign? t = none) :
    outcome (unary limit inner innerUnary ts) = outcome (postfixed limit inner ts) := by
  cases ts with
  | nil => rfl
  | cons t rest => simp only [unary, h t rfl]

theorem outcome_exponent_power (base : Expr) {t : Token} {op : BinaryOp} (rest : List Token)
    (h : binaryOp? [.pow] t = some op) :
    outcome (exponent limit innerFactor base (t :: rest)) =
      (do let e ← outcome (innerFactor rest)
          let tree ← bounded limit (joined op base e.1)
          .ok (tree, e.2)) := by
  simp only [exponent, h]
  exact outcome_bind _ _ (fun e => do
    let tree ← bounded limit (joined op base e.1)
    .ok (tree, e.2)) fun e => outcome_bind_tree _ _

theorem outcome_exponent_done (base : Expr) {ts : List Token} (h : ∀ t ∈ ts.head?, binaryOp? [.pow] t = none) :
    outcome (exponent limit innerFactor base ts) = .ok (base, ts) := by
  cases ts with
  | nil => rfl
  | cons t rest => simp only [exponent, h t rfl, outcome_ok]

theorem outcome_factor (ts : List Token) :
    outcome (factor limit operand innerFactor ts) =
      (do let e ← outcome (operand ts)
          outcome (exponent limit innerFactor e.1 e.2)) := by
  exact outcome_bind _ _ (fun e => outcome (exponent limit innerFactor e.1 e.2)) fun e => outcome_weaken _ _

theorem outcome_chain_operator (left : Expr) {t : Token} {op : BinaryOp} (rest : List Token)
    (h : binaryOp? ops t = some op) :
    outcome (chain limit ops operand left (t :: rest)) =
      (do let e ← outcome (operand rest)
          let tree ← bounded limit (joined op left e.1)
          outcome (chain limit ops operand tree e.2)) := by
  rw [chain]
  simp only [h]
  refine outcome_bind _ _ (fun e => do
    let tree ← bounded limit (joined op left e.1)
    outcome (chain limit ops operand tree e.2)) fun e => ?_
  rw [outcome_bind_tree]
  exact congrArg _ (funext fun tree => outcome_weaken _ _)

theorem outcome_chain_done (left : Expr) {ts : List Token} (h : ∀ t ∈ ts.head?, binaryOp? ops t = none) :
    outcome (chain limit ops operand left ts) = .ok (left, ts) := by
  cases ts with
  | nil => rw [chain]; rfl
  | cons t rest =>
    rw [chain]
    simp only [h t rfl, outcome_ok]

theorem outcome_joinedBy (ts : List Token) :
    outcome (joinedBy limit ops operand ts) =
      (do let e ← outcome (operand ts)
          outcome (chain limit ops operand e.1 e.2)) := by
  exact outcome_bind _ _ (fun e => outcome (chain limit ops operand e.1 e.2)) fun e => outcome_weaken _ _

end Calculator.Expr.Parser
