import Calculator.Proofs.Grammar.Completeness
/-!
The parser accepts exactly the grammar. Tokens have at most one derivation; those that have one are read as its tree,
or refused for the depth of the derivation or the height of the tree and for nothing else.
-/
namespace Calculator.Expr
open Grammar Calculator.Expr.Parser

theorem ofTokens_eq (ts : List Token) :
    ofTokens ts =
      if ts.isEmpty then .error .emptyExpression
      else outcome (Phrase.expression.rule maxDepth maxDepth ts) >>= fun read =>
        match read.2 with
        | [] => .ok read.1
        | t :: _ => .error (.unexpectedToken t.text t.position) := by
  unfold ofTokens
  split
  · rfl
  · change (rules maxDepth maxDepth).expression ts >>= _ = outcome ((rules maxDepth maxDepth).expression ts) >>= _
    cases (rules maxDepth maxDepth).expression ts with
    | error e => rfl
    | ok read =>
      obtain ⟨e, rest, h⟩ := read
      cases rest <;> rfl

theorem derives_of_ofTokens {ts : List Token} {e : Expr} (h : ofTokens ts = .ok e) :
    ∃ n, Derives .expression n ts e := by
  rw [ofTokens_eq] at h
  split at h
  · cases h
  obtain ⟨⟨tree, rest⟩, hread, h⟩ := bind_eq_ok.mp h
  cases rest with
  | cons t rest => cases h
  | nil =>
    obtain rfl := Except.ok.inj h
    obtain ⟨n, w, rfl, he⟩ := (rules_sound maxDepth maxDepth).expression _ _ _ hread
    exact ⟨n, by rwa [List.append_nil]⟩

/-- A derivation of all tokens determines what the rule for expressions gives. -/
theorem Grammar.Derives.outcome_rule {n : Nat} {ts : List Token} {e : Expr} (h : Derives .expression n ts e)
    {limit : Nat} (hlimit : 1 ≤ limit) (levels : Nat) :
    outcome (Phrase.expression.rule limit levels ts) = within limit levels n e (.ok (e, [])) := by
  have hends : Ends .expression [] := fun t ht => nomatch ht
  have hread := (h.complete hlimit).ends levels hends
  rwa [List.append_nil] at hread

theorem ofTokens_of_derives {n : Nat} {ts : List Token} {e : Expr} (h : Derives .expression n ts e) :
    ofTokens ts = if n ≤ maxDepth ∧ e.height ≤ maxDepth then .ok e else .error .tooDeep := by
  obtain ⟨t, us, rfl, -, -⟩ := h.first
  rw [ofTokens_eq, if_neg (by simp), h.outcome_rule (by decide), bind_within]
  rfl

theorem ofTokens_eq_ok_iff {ts : List Token} {e : Expr} :
    ofTokens ts = .ok e ↔ ∃ n, Derives .expression n ts e ∧ n ≤ maxDepth ∧ e.height ≤ maxDepth := by
  constructor
  · intro h
    obtain ⟨n, he⟩ := derives_of_ofTokens h
    refine ⟨n, he, ?_⟩
    rw [ofTokens_of_derives he] at h
    split at h
    · assumption
    · cases h
  · rintro ⟨n, he, hdepth⟩
    rw [ofTokens_of_derives he, if_pos hdepth]

/-- With as many levels as one derivation needs, and room for both trees, the rule for expressions gives both. -/
theorem Grammar.Derives.agree {n m : Nat} {ts : List Token} {e f : Expr} (he : Derives .expression n ts e)
    (hf : Derives .expression m ts f) : m ≤ n ∧ f = e := by
  have hlimit : 1 ≤ e.height + f.height + 1 := Nat.le_add_left _ _
  have hread := (hf.outcome_rule hlimit n).symm.trans (he.outcome_rule hlimit n)
  unfold within at hread
  rw [if_pos (⟨Nat.le_refl n, by omega⟩ : n ≤ n ∧ e.height ≤ e.height + f.height + 1)] at hread
  split at hread
  · rename_i hfits
    exact ⟨hfits.1, (Prod.mk.inj (Except.ok.inj hread)).1⟩
  · cases hread

/-- No tokens have two derivations. -/
theorem Grammar.Derives.unique {n m : Nat} {ts : List Token} {e f : Expr} (he : Derives .expression n ts e)
    (hf : Derives .expression m ts f) : n = m ∧ e = f :=
  ⟨Nat.le_antisymm (hf.agree he).1 (he.agree hf).1, (hf.agree he).2⟩

/-- Reading tokens is deciding the grammar, up to the two limits. -/
theorem ofTokens_decides_grammar (ts : List Token) :
    (∀ e, ofTokens ts = .ok e → ∃ n, Derives .expression n ts e) ∧
      (∀ n e, Derives .expression n ts e →
        ofTokens ts = if n ≤ 500 ∧ e.height ≤ 500 then .ok e else .error .tooDeep) ∧
      (∀ n m e f, Derives .expression n ts e → Derives .expression m ts f → n = m ∧ e = f) ∧
      ParseError.tooDeep.message = "Expression nested too deeply" :=
  ⟨fun _ h => derives_of_ofTokens h, fun _ _ h => ofTokens_of_derives h, fun _ _ _ _ he hf => he.unique hf, rfl⟩

/-- A sign stands before a factorial, and is one level. -/
theorem ofTokens_minus_factorial :
    let ts : List Token :=
      [⟨.operator, "-", 0, false⟩, ⟨.variableName, "x", 1, false⟩, ⟨.operator, "!", 2, false⟩]
    let e : Expr := .unary .minus (.unary .factorial (.free "x" ⟨1, 2⟩) ⟨1, 3⟩) ⟨0, 3⟩
    Derives .expression 1 ts e ∧ ofTokens ts = .ok e := by
  intro ts e
  have hfactorial : Derives .postfixed 0 [⟨.variableName, "x", 1, false⟩, ⟨.operator, "!", 2, false⟩]
      (.unary .factorial (.free "x" ⟨1, 2⟩) ⟨1, 3⟩) :=
    .factorial (.ofPrimary (.free rfl)) (by decide)
  have hsign : Derives .unary 1 ts e := .sign (.inr rfl) (by decide) (.ofPostfixed hfactorial)
  have hderives : Derives .expression 1 ts e := .ofTerm (.ofFactor (.ofUnary hsign))
  have hlimits : 1 ≤ 500 ∧ e.height ≤ 500 := by decide
  refine ⟨hderives, ?_⟩
  rw [(ofTokens_decides_grammar ts).2.1 1 e hderives, if_pos hlimits]

end Calculator.Expr
