import Calculator.Expr.Equivalent
import Calculator.Proofs.Printing.Derivation
import Calculator.Proofs.Token.Parentheses
/-!
Printing writes the fewest parentheses. Wherever it writes a pair, the tree stands as a phrase of a class that it does
not belong to by itself, and every derivation of it there has a pair of its own.
-/
namespace Calculator.Expr
open Grammar Token

mutual
/-- How many pairs of parentheses the tree is printed with. -/
def parentheses : Expr → Nat
  | number .. | constant .. | free .. => 0
  | unary op e _ => e.parentheses + (needsUnaryParens op e).toNat
  | binary op l r _ =>
    l.parentheses + (needsParens op false l).toNat + (r.parentheses + (needsParens op true r).toNat)
  | call _ args _ => parenthesesList args + 1
  | matrix rows _ => parenthesesRows rows
  | complex re im _ => re.parentheses + im.parentheses + 1
def parenthesesList : List Expr → Nat
  | [] => 0
  | e :: es => e.parentheses + parenthesesList es
def parenthesesRows : List (List Expr) → Nat
  | [] => 0
  | row :: rows => parenthesesList row + parenthesesRows rows
end

/-- How many parentheses open among tokens. -/
def openings (ts : List Token) : Nat := ts.countP fun t => t.kind = .lparen

theorem openings_append (ts us : List Token) : openings (ts ++ us) = openings ts + openings us := List.countP_append

theorem openings_cons_of_lparen {t : Token} (h : t.kind = .lparen) (ts : List Token) :
    openings (t :: ts) = openings ts + 1 :=
  List.countP_cons_of_pos (by simpa using h)

theorem openings_cons_of_ne {t : Token} (h : t.kind ≠ .lparen) (ts : List Token) : openings (t :: ts) = openings ts :=
  List.countP_cons_of_neg (by simpa using h)

theorem openings_operator {t : Token} {c : Char} (h : t.isOperator c = true) (ts : List Token) :
    openings (t :: ts) = openings ts :=
  openings_cons_of_ne (by rw [(Parser.isOperator_iff.mp h).1]; decide) ts

/-! ### Every pair is forced -/

section
variable {p q : Phrase} {k : Nat} {e : Expr}

/-- The tree is printed with at most `k` pairs where a phrase of the class is to stand. -/
def PrintsWithin (p : Phrase) (k : Nat) (e : Expr) : Prop :=
  e.parentheses + (decide ((Phrase.ofExpr e).rank < p.rank)).toNat ≤ k

theorem PrintsWithin.loosen (h : PrintsWithin p k e) (hrank : q.rank ≤ p.rank) : PrintsWithin q k e := by
  unfold PrintsWithin at h ⊢
  by_cases hq : (Phrase.ofExpr e).rank < q.rank
  · rw [decide_eq_true (hq.trans_le hrank)] at h
    rwa [decide_eq_true hq]
  · rw [decide_eq_false hq]
    exact (Nat.le_add_right _ _).trans h

/-- In parentheses a tree stands for any class. -/
theorem PrintsWithin.parenthesized (h : PrintsWithin p k e) : PrintsWithin q (k + 1) e := by
  have hle : e.parentheses ≤ k := (Nat.le_add_right _ _).trans h
  exact Nat.add_le_add hle (Bool.toNat_le _)

/-- A phrase of just the class that the tree has. -/
theorem printsWithin_of_exact (h : e.parentheses ≤ k) (hp : p.rank ≤ (Phrase.ofExpr e).rank) : PrintsWithin p k e := by
  unfold PrintsWithin
  rw [decide_eq_false (Nat.not_lt.mpr hp)]
  exact h

/-- Two operands and the operator between them. -/
theorem parentheses_joined_le {op : BinaryOp} {l r : Expr} {m : Nat} (hl : PrintsWithin (Phrase.ofOperand false op) k l)
    (hr : PrintsWithin (Phrase.ofOperand true op) m r) : (joined op l r).parentheses ≤ k + m := by
  rw [joined, parentheses, needsParens_eq, needsParens_eq]
  exact Nat.add_le_add hl hr

theorem parentheses_unary_le {op : UnaryOp} {span : Span} (h : PrintsWithin (Phrase.ofUnaryOperand op) k e) :
    (Expr.unary op e span).parentheses ≤ k := by
  rw [parentheses, needsUnaryParens_eq]
  exact h

theorem parenthesesList_le {args : List Argument} {ts : List Token} (hts : Separated args ts)
    (hargs : ∀ a ∈ args, PrintsWithin .expression (openings a.tokens) a.tree) :
    parenthesesList (args.map Argument.tree) ≤ openings ts := by
  have hle : ∀ {a : Argument}, PrintsWithin .expression (openings a.tokens) a.tree →
      a.tree.parentheses ≤ openings a.tokens := fun h => (Nat.le_add_right _ _).trans h
  induction hts with
  | nil => exact Nat.zero_le _
  | single a =>
    rw [List.map_singleton, parenthesesList, parenthesesList]
    exact hle (hargs a (List.mem_singleton_self a))
  | @cons a b rest comma us hcomma hrest ih =>
    obtain ⟨ha, hargs⟩ := List.forall_mem_cons.mp hargs
    have hne : comma.kind ≠ .lparen := by
      rw [hcomma]
      decide
    rw [List.map_cons, parenthesesList, openings_append, openings_cons_of_ne hne]
    exact Nat.add_le_add (hle ha) (ih hargs)

/-- A derivation has at least as many pairs of parentheses as its tree is printed with. -/
theorem Grammar.Derives.printsWithin {n : Nat} {ts : List Token} (h : Derives p n ts e) :
    PrintsWithin p (openings ts) e := by
  induction h with
  | number | constant | free => exact printsWithin_of_exact (Nat.zero_le _) (Nat.le_refl _)
  | @call name opening closing args ts hname hopen hclose hts _ ih =>
    refine printsWithin_of_exact ?_ (Nat.le_refl _)
    have hne : name.kind ≠ .lparen := by
      rw [hname]
      decide
    rw [parentheses, openings_cons_of_ne hne, openings_cons_of_lparen hopen, openings_append]
    exact Nat.succ_le_succ ((parenthesesList_le hts ih).trans (Nat.le_add_right _ _))
  | @parenthesized opening closing n ts e hopen hclose _ ih =>
    have hpair : openings ts + 1 ≤ openings (opening :: (ts ++ [closing])) := by
      rw [openings_cons_of_lparen hopen, openings_append]
      exact Nat.succ_le_succ (Nat.le_add_right _ _)
    have hwithin : PrintsWithin .primary (openings ts + 1) e := ih.parenthesized
    exact hwithin.trans hpair
  | ofPrimary _ ih | ofPostfixed _ ih | ofUnary _ ih | ofFactor _ ih | ofTerm _ ih => exact ih.loosen (by decide)
  | @factorial bang n ts e _ hbang ih =>
    refine printsWithin_of_exact ?_ (Nat.le_refl _)
    rw [openings_append, openings_operator hbang]
    exact parentheses_unary_le ih
  | @sign t op n ts e hop ht _ ih =>
    rw [openings_operator ht]
    rcases hop with rfl | rfl
    · exact printsWithin_of_exact (parentheses_unary_le ih) (Nat.le_refl _)
    · exact printsWithin_of_exact (parentheses_unary_le ih) (Nat.le_refl _)
  | @power t n m ts us l r _ ht _ ihl ihr =>
    rw [openings_append, openings_operator ht]
    exact printsWithin_of_exact (parentheses_joined_le ihl ihr) (Nat.le_refl _)
  | @product t op n m ts us l r _ hop ht _ ihl ihr =>
    rw [openings_append, openings_operator ht]
    simp only [List.mem_cons, List.not_mem_nil, or_false] at hop
    rcases hop with rfl | rfl | rfl <;> exact printsWithin_of_exact (parentheses_joined_le ihl ihr) (Nat.le_refl _)
  | @sum t op n m ts us l r _ hop ht _ ihl ihr =>
    rw [openings_append, openings_operator ht]
    simp only [List.mem_cons, List.not_mem_nil, or_false] at hop
    rcases hop with rfl | rfl <;> exact printsWithin_of_exact (parentheses_joined_le ihl ihr) (Nat.le_refl _)

end

/-! ### What is printed -/

/-- No parenthesis opens in the text of the token, if it is a numeral or a name. -/
def Clear (t : Token) : Prop := t.kind ∈ [Kind.number, .function, .constant, .variableName] → '(' ∉ t.text.toList

theorem not_mem_of_ofChar? {cs : List Char} (h : ∀ c ∈ cs, Parenthesis.ofChar? c = none) : '(' ∉ cs :=
  fun hmem => nomatch h '(' hmem

theorem not_mem_name {cs : List Char} (h : Name cs) : '(' ∉ cs := by
  obtain ⟨hstart, hrest⟩ := h
  rw [List.mem_cons]
  rintro (rfl | hmem)
  · cases hstart
  · exact nomatch hrest '(' hmem

theorem clear_of_mem_tokenize {functions : List String} {text : String} {t : Token}
    (h : t ∈ tokenize functions text) : Clear t := by
  have hscanned := scanned_of_mem_tokenize h
  obtain ⟨kind, text, position, implicit⟩ := t
  change Scanned functions (kind, text) at hscanned
  intro hkind
  change kind ∈ [Kind.number, .function, .constant, .variableName] at hkind
  cases hscanned with
  | @number cs hnumeral =>
    rw [String.toList_ofList]
    exact not_mem_of_ofChar? (Parenthesis.ofChar?_of_numeral hnumeral)
  | @name cs _ hname hreads => exact not_mem_name (hreads.name (by rwa [String.toList_ofList]))
  | symbol hsymbol =>
    rcases kindOfChar?_eq_some hsymbol with rfl | rfl | rfl | rfl <;> exact absurd hkind (by decide)

theorem count_inParens (needed : Bool) (text : List Char) :
    (inParens needed text).count '(' = text.count '(' + needed.toNat := by
  cases needed with
  | false => rfl
  | true => simp [inParens, List.count_append]

theorem count_commaSeparated {es : List Expr} (h : ∀ e ∈ es, e.chars.count '(' = e.parentheses) :
    (commaSeparated (charsList es)).count '(' = parenthesesList es := by
  induction es with
  | nil => rfl
  | cons e es ih =>
    obtain ⟨he, hes⟩ := List.forall_mem_cons.mp h
    cases es with
    | nil => simpa [commaSeparated, charsList, parenthesesList, List.intercalate] using he
    | cons f es =>
      have hsplit : commaSeparated (charsList (e :: f :: es)) =
          e.chars ++ ',' :: ' ' :: commaSeparated (charsList (f :: es)) := by
        simp [commaSeparated, charsList, List.intercalate]
      rw [hsplit, List.count_append, List.count_cons_of_ne (by decide), List.count_cons_of_ne (by decide), he, ih hes]
      rfl

theorem count_chars_joined (op : BinaryOp) {l r : Expr} (hl : l.chars.count '(' = l.parentheses)
    (hr : r.chars.count '(' = r.parentheses) : (joined op l r).chars.count '(' = (joined op l r).parentheses := by
  have hsymbol : op.symbol ≠ '(' := by cases op <;> decide
  rw [joined, chars, parentheses, List.count_append, List.count_cons_of_ne (by decide), List.count_cons_of_ne hsymbol,
    List.count_cons_of_ne (by decide), count_inParens, count_inParens, hl, hr]

/-- A tree from tokens without parentheses in their texts is printed with its pairs and no other. -/
theorem Grammar.Derives.count_chars {p : Phrase} {n : Nat} {ts : List Token} {e : Expr} (h : Derives p n ts e)
    (hts : ∀ t ∈ ts, Clear t) : e.chars.count '(' = e.parentheses := by
  induction h with
  | @number t value hkind hread =>
    rw [chars, parentheses, List.count_eq_zero]
    exact hts t List.mem_cons_self (by rw [hkind]; decide)
  | @constant t c _ _ =>
    rw [chars, parentheses, List.count_eq_zero]
    exact not_mem_name (name_constant c)
  | @free t hkind =>
    rw [chars, parentheses, List.count_eq_zero]
    exact hts t List.mem_cons_self (by rw [hkind]; decide)
  | @call name opening closing args ts hname _ _ hsep _ ih =>
    have htext : name.text.toList.count '(' = 0 := by
      rw [List.count_eq_zero]
      exact hts name List.mem_cons_self (by rw [hname]; decide)
    have hargs : ∀ e ∈ args.map Argument.tree, e.chars.count '(' = e.parentheses := by
      intro e he
      obtain ⟨a, ha, rfl⟩ := List.mem_map.mp he
      refine ih a ha fun t ht => hts t ?_
      simp only [List.mem_cons, List.mem_append]
      exact .inr (.inr (.inl (hsep.mem ha ht)))
    rw [chars, parentheses, List.count_append, htext, Nat.zero_add, count_inParens, count_commaSeparated hargs]
    rfl
  | parenthesized _ _ _ ih => exact ih fun t ht => hts t (by simp [ht])
  | ofPrimary _ ih | ofPostfixed _ ih | ofUnary _ ih | ofFactor _ ih | ofTerm _ ih => exact ih hts
  | @factorial bang n ts e _ _ ih =>
    have he := ih fun t ht => hts t (by simp [ht])
    rw [chars, parentheses, ← he, ← count_inParens]
    simp [UnaryOp.standsBehind, UnaryOp.symbol, List.count_append]
  | @sign t op n ts e hop _ _ ih =>
    have he := ih fun t ht => hts t (by simp [ht])
    rw [chars, parentheses, ← he, ← count_inParens]
    rcases hop with rfl | rfl <;> simp [UnaryOp.standsBehind, UnaryOp.symbol]
  | power _ _ _ ihl ihr | product _ _ _ _ ihl ihr | sum _ _ _ _ ihl ihr =>
    exact count_chars_joined _ (ihl fun t ht => hts t (by simp [ht])) (ihr fun t ht => hts t (by simp [ht]))

/-! ### Texts of one tree -/

section
variable {tolerance : Float}

theorem ofExpr_of_equivalent {e f : Expr} (h : equivalent tolerance e f = true) :
    Phrase.ofExpr e = Phrase.ofExpr f := by
  cases e with
  | unary op e span =>
    cases f with
    | unary op' f span' =>
      rw [equivalent, Bool.and_eq_true, beq_iff_eq] at h
      rw [h.1]
      cases op' <;> rfl
    | _ => simp [equivalent] at h
  | binary op l r span =>
    cases f with
    | binary op' l' r' span' =>
      rw [equivalent, Bool.and_eq_true, Bool.and_eq_true, beq_iff_eq] at h
      rw [h.1.1]
      cases op' <;> rfl
    | _ => simp [equivalent] at h
  | _ =>
    cases f with
    | unary | binary => simp [equivalent] at h
    | _ => rfl

mutual
/-- Trees of the same structure are printed with equally many pairs. -/
theorem parentheses_of_equivalent :
    (e f : Expr) → equivalent tolerance e f = true → e.parentheses = f.parentheses
  | .number .., f, h => by
    cases f with
    | number => rfl
    | _ => simp [equivalent] at h
  | .constant .., f, h => by
    cases f with
    | constant => rfl
    | _ => simp [equivalent] at h
  | .free .., f, h => by
    cases f with
    | free => rfl
    | _ => simp [equivalent] at h
  | .unary op e _, f, h => by
    cases f with
    | unary op' f span =>
      rw [equivalent, Bool.and_eq_true, beq_iff_eq] at h
      rw [parentheses, parentheses, needsUnaryParens_eq, needsUnaryParens_eq, h.1, ofExpr_of_equivalent h.2,
        parentheses_of_equivalent e f h.2]
    | _ => simp [equivalent] at h
  | .binary op l r _, f, h => by
    cases f with
    | binary op' l' r' span =>
      rw [equivalent, Bool.and_eq_true, Bool.and_eq_true, beq_iff_eq] at h
      obtain ⟨⟨rfl, hl⟩, hr⟩ := h
      rw [parentheses, parentheses, needsParens_eq, needsParens_eq, needsParens_eq, needsParens_eq,
        ofExpr_of_equivalent hl, ofExpr_of_equivalent hr, parentheses_of_equivalent l l' hl,
        parentheses_of_equivalent r r' hr]
    | _ => simp [equivalent] at h
  | .call _ args _, f, h => by
    cases f with
    | call name args' span =>
      rw [equivalent, Bool.and_eq_true] at h
      rw [parentheses, parentheses, parenthesesList_of_equivalent args args' h.2]
    | _ => simp [equivalent] at h
  | .matrix rows _, f, h => by
    cases f with
    | matrix rows' span =>
      rw [equivalent] at h
      rw [parentheses, parentheses, parenthesesRows_of_equivalent rows rows' h]
    | _ => simp [equivalent] at h
  | .complex re im _, f, h => by
    cases f with
    | complex re' im' span =>
      rw [equivalent, Bool.and_eq_true] at h
      rw [parentheses, parentheses, parentheses_of_equivalent re re' h.1, parentheses_of_equivalent im im' h.2]
    | _ => simp [equivalent] at h
theorem parenthesesList_of_equivalent :
    (es fs : List Expr) → equivalentList tolerance es fs = true → parenthesesList es = parenthesesList fs
  | [], [], _ => rfl
  | e :: es, f :: fs, h => by
    rw [equivalentList, Bool.and_eq_true] at h
    rw [parenthesesList, parenthesesList, parentheses_of_equivalent e f h.1, parenthesesList_of_equivalent es fs h.2]
theorem parenthesesRows_of_equivalent :
    (rows others : List (List Expr)) → equivalentRows tolerance rows others = true →
      parenthesesRows rows = parenthesesRows others
  | [], [], _ => rfl
  | row :: rows, other :: others, h => by
    rw [equivalentRows, Bool.and_eq_true] at h
    rw [parenthesesRows, parenthesesRows, parenthesesList_of_equivalent row other h.1,
      parenthesesRows_of_equivalent rows others h.2]
end

end

/-! ### Texts and their tokens -/

theorem count_ofTokens (ts : List Token) : (Parenthesis.ofTokens ts).count .opening = openings ts := by
  rw [Parenthesis.ofTokens, List.count_filterMap]
  refine List.countP_congr fun t _ => ?_
  cases t.kind <;> decide

theorem count_ofChars (cs : List Char) : (Parenthesis.ofChars cs).count .opening = cs.count '(' := by
  rw [Parenthesis.ofChars, List.count_filterMap]
  refine List.countP_congr fun c _ => ?_
  by_cases hopen : c = '('
  · rw [hopen]
    decide
  · by_cases hclose : c = ')'
    · rw [hclose]
      decide
    · rw [Parenthesis.ofChar?, if_neg hopen, if_neg hclose]
      simp [hopen]

/-- The tokens of a text open the parentheses of the text. -/
theorem openings_tokenize (functions : List String) (text : String) :
    openings (tokenize functions text) = text.toList.count '(' := by
  rw [← count_ofTokens, ← count_ofChars, tokenize, Parenthesis.ofTokens_withProducts, Parenthesis.ofTokens_scan]

theorem parentheses_le_of_parse {functions : List String} {text : String} {e : Expr}
    (h : parse functions text = .ok e) : e.parentheses ≤ text.toList.count '(' := by
  obtain ⟨n, hderives⟩ := derives_of_ofTokens h
  rw [← openings_tokenize functions]
  exact (Nat.le_add_right _ _).trans hderives.printsWithin

theorem count_print_of_parse {functions : List String} {text : String} {e : Expr}
    (h : parse functions text = .ok e) : e.print.toList.count '(' = e.parentheses := by
  obtain ⟨n, hderives⟩ := derives_of_ofTokens h
  rw [print, String.toList_ofList]
  exact hderives.count_chars fun t ht => clear_of_mem_tokenize ht

/-- A text is printed with no more pairs of parentheses than it has, and no other text of a tree of the same structure
has fewer. -/
theorem print_fewest_parentheses {functions : List String} {text : String} {e : Expr}
    (h : parse functions text = .ok e) :
    e.print.toList.count '(' ≤ text.toList.count '(' ∧
      ∀ (functions : List String) (text : String) (f : Expr) (tolerance : Float), parse functions text = .ok f →
        e.equivalent tolerance f = true → e.print.toList.count '(' ≤ text.toList.count '(' := by
  rw [count_print_of_parse h]
  refine ⟨parentheses_le_of_parse h, fun functions text f tolerance hf hsame => ?_⟩
  rw [parentheses_of_equivalent e f hsame]
  exact parentheses_le_of_parse hf

theorem print_fewest_parentheses_difference :
    ∃ e, parse [] "((x))-((y-(2!)))" = .ok e ∧ e.print = "x - (y - 2!)" ∧
      e.print.toList.count '(' ≤ "((x))-((y-(2!)))".toList.count '(' ∧
      ∀ (functions : List String) (text : String) (f : Expr) (tolerance : Float), parse functions text = .ok f →
        e.equivalent tolerance f = true → e.print.toList.count '(' ≤ text.toList.count '(' := by
  have hprint : (parse [] "((x))-((y-(2!)))").toOption.map print = some "x - (y - 2!)" := by decide +kernel
  cases hread : parse [] "((x))-((y-(2!)))" with
  | error err =>
    rw [hread] at hprint
    cases hprint
  | ok e =>
    rw [hread] at hprint
    exact ⟨e, rfl, Option.some.inj hprint, print_fewest_parentheses hread⟩

end Calculator.Expr
