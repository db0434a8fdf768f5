import Calculator.Expr.Arena.Reader
import Calculator.Proofs.Arena.Layout
import Calculator.Proofs.Grammar.Correctness
/-!
Reading into a store is reading a tree and storing it. Each rule leaves what it has read behind what was there, so that
the store that is filled in the end holds the tree in post-order, and no place without node is ever looked at.
-/
namespace Calculator

/-- The same tokens read, with another value. -/
def Expr.Parser.Parsed.map {α β : Type} {n : ℕ} (f : α → β) (p : Parsed α n) : Parsed β n :=
  ⟨f p.value, p.rest, p.rest_lt⟩

namespace Arena

/-- The store with a tree behind it, and the place of its root. -/
def stored (a : Arena) (e : Expr) : Stored := ⟨a.add e, (a.add e).last⟩

/-- Steps that agree on what was read before agree. -/
theorem Outcome.bind_eq {α β γ δ : Type} {read : Outcome β} {r : Except ParseError α} {g : α → β} {f : β → Outcome δ}
    {f' : α → Except ParseError γ} {g' : γ → δ} (hread : read = Outcome.of (r.map g))
    (h : ∀ x, f (g x) = Outcome.of ((f' x).map g')) : (read >>= f) = Outcome.of ((r >>= f').map g') := by
  rw [hread]
  cases r with
  | error error => rfl
  | ok x => exact h x

theorem Outcome.of_eq {α : Type} (r : Except ParseError α) : Outcome.of r = Outcome.of (r.map id) := by
  cases r <;> rfl

/-- What is there is looked at and used. -/
theorem Outcome.some_bind {α β : Type} {found : Option α} {x : α} (h : found = some x) (f : α → Outcome β) :
    ((liftM found : Outcome α) >>= f) = f x := by
  rw [h]
  rfl

theorem push?_eq_of_behind {a b : Arena} {es : List Expr} (content : Content) (h : Behind a b es content.children)
    (span : Span) : b.push? content span = some (b.push content span) :=
  if_pos (List.all_eq_true.mpr fun c hc => decide_eq_true (h.places_lt c hc))

namespace Reader
open Expr.Parser (Parsed closing)

variable {a : Arena} {limit : ℕ} {rule deeper : Expr.Parser.Rule} {reader below : Rule}

/-- The reader stores what the rule reads. -/
def Stores (rule : Expr.Parser.Rule) (reader : Rule) : Prop :=
  ∀ {a : Arena}, a.Built → ∀ ts, reader a ts = Outcome.of ((rule ts).map (Parsed.map (stored a)))

theorem bounded_eq (ha : a.Built) (limit : ℕ) (e : Expr) :
    bounded limit (a.add e) = Outcome.of ((Expr.Parser.bounded limit e).map (stored a)) := by
  have h := behind_add e ha
  unfold bounded Expr.Parser.bounded
  rw [h.built.height_eq h.shows.2]
  split <;> rfl

theorem moreArguments_eq (h : Stores rule reader) {a : Arena} (ha : a.Built) (ts : List Token) :
    moreArguments reader a ts = Outcome.of ((Expr.Parser.moreArguments rule ts).map (Parsed.map a.addList)) := by
  match ts with
  | [] =>
    rw [moreArguments, Expr.Parser.moreArguments]
    rfl
  | t :: rest =>
    rw [moreArguments, Expr.Parser.moreArguments]
    split
    · refine Outcome.bind_eq (h ha rest) fun first => ?_
      have hlt : first.rest.length < (t :: rest).length := Nat.lt_succ_of_lt first.rest_lt
      exact Outcome.bind_eq (moreArguments_eq h (behind_add first.value ha).built first.rest) fun others => rfl
    · rfl
termination_by ts.length
decreasing_by exact hlt

theorem arguments_eq (h : Stores rule reader) (ha : a.Built) (ts : List Token) : arguments reader a ts =
    Outcome.of ((Expr.Parser.arguments rule ts).map (Parsed.map a.addList)) := by
  cases ts with
  | nil =>
    rw [arguments, Expr.Parser.arguments]
    exact Outcome.bind_eq (h ha []) fun first => rfl
  | cons t rest =>
    rw [arguments, Expr.Parser.arguments]
    split
    · rfl
    · refine Outcome.bind_eq (h ha (t :: rest)) fun first => ?_
      exact Outcome.bind_eq (moreArguments_eq h (behind_add first.value ha).built first.rest) fun others => rfl

theorem call_eq (h : Stores rule reader) (ha : a.Built) (name : Token) (ts : List Token) :
    call limit reader a name ts = Outcome.of ((Expr.Parser.call limit rule name ts).map (Parsed.map (stored a))) := by
  cases ts with
  | nil => rfl
  | cons t rest =>
    rw [call, Expr.Parser.call]
    split
    · refine Outcome.bind_eq (arguments_eq h ha rest) fun args => ?_
      refine Outcome.bind_eq (Outcome.of_eq (closing args.rest)) fun close => ?_
      have hpush := push?_eq_of_behind (.call name.text _) (behind_addList args.value ha)
        ⟨name.position, close.value.stop⟩
      refine (Outcome.some_bind hpush _).trans ?_
      exact Outcome.bind_eq (bounded_eq ha limit (.call name.text args.value _)) fun tree => rfl
    · rfl

theorem primary_stores (h : Stores rule reader) :
    Stores (Expr.Parser.primary limit rule) (primary limit reader) := by
  intro a ha ts
  cases ts with
  | nil => rfl
  | cons t rest =>
    have hleaf (e : Expr) (content : Content) (span : Span) (he : a.add e = a.push content span)
        (hcontent : content.children = []) : (do
          let a ← a.push? content span
          return leaving ⟨a, a.last⟩ rest : Outcome (Parsed Stored (t :: rest).length)) =
        Outcome.of (Except.map (Parsed.map (stored a)) (.ok ⟨e, rest, Nat.lt_succ_self _⟩)) := by
      have hchildren : Behind a a [] content.children := hcontent ▸ .nil ha
      refine (Outcome.some_bind (push?_eq_of_behind content hchildren span) _).trans ?_
      rw [← he]
      rfl
    unfold primary Expr.Parser.primary
    dsimp only
    cases hkind : t.kind with
    | number =>
      dsimp only
      cases hvalue : Binary64.read? t.text with
      | some value => exact hleaf (.number value t.text t.span) _ _ rfl rfl
      | none => rfl
    | constant =>
      dsimp only
      cases hname : Constant.ofName? t.text with
      | some c => exact hleaf (.constant c t.span) _ _ rfl rfl
      | none => rfl
    | variableName => exact hleaf (.free t.text t.span) _ _ rfl rfl
    | function => exact Outcome.bind_eq (call_eq h ha t rest) fun read => rfl
    | lparen =>
      refine Outcome.bind_eq (h ha rest) fun tree => ?_
      exact Outcome.bind_eq (Outcome.of_eq (closing tree.rest)) fun close => rfl
    | operator | rparen | comma => rfl

theorem factorials_eq (ha : a.Built) (e : Expr) (ts : List Token) : factorials limit (stored a e) ts =
    Outcome.of ((Expr.Parser.factorials limit e ts).map (Parsed.map (stored a))) := by
  induction ts generalizing e with
  | nil => rfl
  | cons t rest ih =>
    rw [factorials, Expr.Parser.factorials]
    split
    · have h := behind_add e ha
      have hpush := push?_eq_of_behind (.unary .factorial _) h ⟨e.span.start, t.stop⟩
      refine (Outcome.some_bind (span?_of_tree? h.shows.2) _).trans ?_
      refine (Outcome.some_bind hpush _).trans ?_
      refine Outcome.bind_eq (bounded_eq ha limit (.unary .factorial e _)) fun tree => ?_
      exact Outcome.bind_eq (ih tree) fun read => rfl
    · rfl

theorem postfixed_stores (h : Stores rule reader) :
    Stores (Expr.Parser.postfixed limit rule) (postfixed limit reader) := by
  intro a ha ts
  refine Outcome.bind_eq (primary_stores h ha ts) fun operand => ?_
  exact Outcome.bind_eq (factorials_eq ha operand.value operand.rest) fun read => rfl

theorem unary_stores (h : Stores rule reader) (hunary : Stores deeper below) :
    Stores (Expr.Parser.unary limit rule deeper) (unary limit reader below) := by
  intro a ha ts
  cases ts with
  | nil => exact postfixed_stores h ha []
  | cons t rest =>
    unfold unary Expr.Parser.unary
    dsimp only
    cases hsign : Expr.Parser.sign? t with
    | some op =>
      refine Outcome.bind_eq (hunary ha rest) fun operand => ?_
      have hadd := behind_add operand.value ha
      have hpush := push?_eq_of_behind (.unary op _) hadd ⟨t.position, operand.value.span.stop⟩
      refine (Outcome.some_bind (span?_of_tree? hadd.shows.2) _).trans ?_
      refine (Outcome.some_bind hpush _).trans ?_
      exact Outcome.bind_eq (bounded_eq ha limit (.unary op operand.value _)) fun tree => rfl
    | none => exact postfixed_stores h ha (t :: rest)

theorem pushJoined_eq (ha : a.Built) (op : BinaryOp) (l r : Expr) :
    ((a.add l).add r).pushJoined op (a.add l).last ((a.add l).add r).last = some (a.add (Expr.joined op l r)) := by
  have hl := behind_add l ha
  have h := hl.append (behind_add r hl.built)
  rw [pushJoined, span?_of_tree? h.shows_both.1.2, span?_of_tree? h.shows_both.2.2]
  rfl

theorem exponent_eq (h : Stores deeper below) (ha : a.Built) (base : Expr) (ts : List Token) :
    exponent limit below (stored a base) ts =
      Outcome.of ((Expr.Parser.exponent limit deeper base ts).map (Parsed.map (stored a))) := by
  cases ts with
  | nil => rfl
  | cons t rest =>
    rw [exponent, Expr.Parser.exponent]
    cases hop : Expr.Parser.binaryOp? [.pow] t with
    | some op =>
      refine Outcome.bind_eq (h (behind_add base ha).built rest) fun power => ?_
      refine (Outcome.some_bind (pushJoined_eq ha op base power.value) _).trans ?_
      exact Outcome.bind_eq (bounded_eq ha limit (Expr.joined op base power.value)) fun tree => rfl
    | none => rfl

theorem factor_stores (h : Stores rule reader) (hdeeper : Stores deeper below) :
    Stores (Expr.Parser.factor limit rule deeper) (factor limit reader below) := by
  intro a ha ts
  refine Outcome.bind_eq (h ha ts) fun base => ?_
  exact Outcome.bind_eq (exponent_eq hdeeper ha base.value base.rest) fun read => rfl

theorem chain_eq (ops : List BinaryOp) (h : Stores rule reader) (ha : a.Built) (left : Expr) (ts : List Token) :
    chain limit ops reader (stored a left) ts =
      Outcome.of ((Expr.Parser.chain limit ops rule left ts).map (Parsed.map (stored a))) := by
  match ts with
  | [] =>
    rw [chain, Expr.Parser.chain]
    rfl
  | t :: rest =>
    rw [chain, Expr.Parser.chain]
    cases hop : Expr.Parser.binaryOp? ops t with
    | some op =>
      refine Outcome.bind_eq (h (behind_add left ha).built rest) fun right => ?_
      have hlt : right.rest.length < (t :: rest).length := Nat.lt_succ_of_lt right.rest_lt
      refine (Outcome.some_bind (pushJoined_eq ha op left right.value) _).trans ?_
      refine Outcome.bind_eq (bounded_eq ha limit (Expr.joined op left right.value)) fun tree => ?_
      exact Outcome.bind_eq (chain_eq ops h ha tree right.rest) fun read => rfl
    | none => rfl
termination_by ts.length
decreasing_by exact hlt

theorem joinedBy_stores (ops : List BinaryOp) (h : Stores rule reader) :
    Stores (Expr.Parser.joinedBy limit ops rule) (joinedBy limit ops reader) := by
  intro a ha ts
  refine Outcome.bind_eq (h ha ts) fun left => ?_
  exact Outcome.bind_eq (chain_eq ops h ha left.value left.rest) fun read => rfl

/-- All rules of a level store what they read. -/
structure RulesStore (rules : Expr.Parser.Rules) (readers : Rules) : Prop where
  expression : Stores rules.expression readers.expression
  factor : Stores rules.factor readers.factor
  unary : Stores rules.unary readers.unary

theorem rulesStore_exhausted : RulesStore Expr.Parser.Rules.exhausted Rules.exhausted :=
  ⟨fun _ _ => rfl, fun _ _ => rfl, fun _ _ => rfl⟩

theorem RulesStore.around {rules : Expr.Parser.Rules} {readers : Rules} (h : RulesStore rules readers) (limit : ℕ) :
    RulesStore (rules.around limit) (readers.around limit) := by
  have hunary : Stores (rules.around limit).unary (readers.around limit).unary := unary_stores h.expression h.unary
  have hfactor : Stores (rules.around limit).factor (readers.around limit).factor := factor_stores hunary h.factor
  exact ⟨joinedBy_stores _ (joinedBy_stores _ hfactor), hfactor, hunary⟩

theorem rulesStore_rules (limit levels : ℕ) : RulesStore (Expr.Parser.rules limit levels) (rules limit levels) := by
  induction levels with
  | zero => exact rulesStore_exhausted.around limit
  | succ levels ih => exact ih.around limit

end Reader

/-- The store holds just the tree that the tokens write, and where there is none the error is the same. -/
theorem ofTokens_eq (ts : List Token) : ofTokens ts = Outcome.of ((Expr.ofTokens ts).map (stored empty)) := by
  unfold ofTokens Expr.ofTokens
  split
  · rfl
  · refine Outcome.bind_eq ((Reader.rulesStore_rules _ _).expression .empty ts) fun read => ?_
    obtain ⟨e, rest, hrest⟩ := read
    cases rest <;> rfl

end Arena

/-! ### As many nodes as tokens -/

namespace Expr.Grammar

theorem Separated.countList_le {args : List Argument} {ts : List Token} (h : Separated args ts)
    (hargs : ∀ a ∈ args, a.tree.count ≤ a.tokens.length) : countList (args.map Argument.tree) ≤ ts.length := by
  induction h with
  | nil => exact Nat.le_refl _
  | single a => exact hargs a (.head _)
  | @cons a b rest comma ts hcomma hrest ih =>
    have hfirst := hargs a (.head _)
    have hothers := ih fun x hx => hargs x (.tail _ hx)
    rw [List.map_cons, countList, List.length_append, List.length_cons]
    omega

/-- Each node of a tree has a token of its own. -/
theorem Derives.count_le {p : Phrase} {n : ℕ} {ts : List Token} {e : Expr} (h : Derives p n ts e) :
    e.count ≤ ts.length := by
  induction h with
  | number | constant | free => exact Nat.le_refl _
  | call hname hopen hclose hts hargs ih =>
    have hle := hts.countList_le ih
    simp only [count, List.length_cons, List.length_append]
    omega
  | parenthesized hopen hclose he ih =>
    simp only [List.length_cons, List.length_append]
    omega
  | ofPrimary _ ih | ofPostfixed _ ih | ofUnary _ ih | ofFactor _ ih | ofTerm _ ih => exact ih
  | factorial he hbang ih =>
    simp only [count, List.length_cons, List.length_append]
    omega
  | sign hop ht he ih =>
    simp only [count, List.length_cons]
    omega
  | power hl ht hr ihl ihr | product hl hop ht hr ihl ihr | sum hl hop ht hr ihl ihr =>
    simp only [joined, count, List.length_cons, List.length_append]
    omega

end Expr.Grammar

namespace Arena
open Expr.Grammar (Derives)

/-- Reading tokens never looks at a place without node. It fails as reading a tree does. Where it does not, the store
holds the tree in post-order: the root is the last node, every other node is named once, by a node behind it, and no way
down is longer than 500 nodes. There are not more nodes than tokens. -/
theorem ofTokens_postOrder (ts : List Token) : ∃ result, (ofTokens ts).run = some result ∧
    (∀ error, result = .error error ↔ Expr.ofTokens ts = .error error) ∧
      ∀ s, result = .ok s → PostOrder s.arena s.place 500 ∧
        (∃ e, Expr.ofTokens ts = .ok e ∧ s.arena.tree? s.place = some e) ∧ s.arena.size ≤ ts.length := by
  refine ⟨_, ofTokens_eq ts, ?_⟩
  cases htree : Expr.ofTokens ts with
  | error error =>
    exact ⟨fun _ => ⟨fun h => Except.error.inj h ▸ rfl, fun h => Except.error.inj h ▸ rfl⟩, nofun⟩
  | ok e =>
    refine ⟨fun _ => ⟨nofun, nofun⟩, ?_⟩
    rintro s hs
    obtain rfl := Except.ok.inj hs
    obtain ⟨n, he, -, hheight⟩ := Expr.ofTokens_eq_ok_iff.mp htree
    have h := behind_add e .empty
    have hsize : (ofExpr e).size = e.count := by
      rw [ofExpr, h.size]
      exact Nat.zero_add _
    exact ⟨postOrder_ofExpr hheight, ⟨e, rfl, h.shows.2⟩, hsize.trans_le he.count_le⟩

/-- The sum of a variable with itself is stored as three nodes. -/
theorem ofTokens_sum_postOrder :
    let ts : List Token := [⟨.variableName, "x", 0, false⟩, ⟨.operator, "+", 1, false⟩, ⟨.variableName, "x", 2, false⟩]
    ∃ s, (ofTokens ts).run = some (.ok s) ∧ s.place = 2 ∧ PostOrder s.arena s.place 500 := by
  intro ts
  have hx : Derives .term 0 [⟨.variableName, "x", 0, false⟩] (.free "x" ⟨0, 1⟩) :=
    .ofFactor (.ofUnary (.ofPostfixed (.ofPrimary (.free rfl))))
  have hy : Derives .term 0 [⟨.variableName, "x", 2, false⟩] (.free "x" ⟨2, 3⟩) :=
    .ofFactor (.ofUnary (.ofPostfixed (.ofPrimary (.free rfl))))
  have hsum : Derives .expression 0 ts (Expr.joined .add (.free "x" ⟨0, 1⟩) (.free "x" ⟨2, 3⟩)) :=
    .sum (.ofTerm hx) (by decide) (by decide) hy
  have htree := Expr.ofTokens_eq_ok_iff.mpr ⟨0, hsum, by decide, by decide⟩
  obtain ⟨result, hresult, herror, hok⟩ := ofTokens_postOrder ts
  cases result with
  | error error => cases htree.symm.trans ((herror error).mp rfl)
  | ok s =>
    have hstored : s = stored empty (Expr.joined .add (.free "x" ⟨0, 1⟩) (.free "x" ⟨2, 3⟩)) := by
      have hread := ofTokens_eq ts
      rw [htree] at hread
      exact Except.ok.inj (Option.some.inj (hresult.symm.trans hread))
    exact ⟨s, hresult, hstored ▸ rfl, (hok s rfl).1⟩

end Arena
end Calculator
