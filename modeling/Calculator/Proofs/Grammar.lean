import Calculator.Binary64.Literal
import Calculator.Expr
import Calculator.Token.Lexer
/-!
The grammar of expressions as a relation between tokens and trees, without a reader. A derivation carries the
greatest number of levels around any point of it: parentheses, arguments of calls, operands of signs and right
operands of `^` each add one.
-/
namespace Calculator.Expr.Grammar

/-- A class of the grammar. -/
inductive Phrase
  | expression | term | factor | unary | postfixed | primary
deriving DecidableEq, Repr

/-- An argument of a call: its tokens, the tree they write, and the levels inside it. -/
structure Argument where
  /-- The levels around its deepest point. -/
  nesting : Nat
  /-- Its tokens. -/
  tokens : List Token
  /-- The tree. -/
  tree : Expr

/-- The levels that the arguments of a call add to what surrounds it. -/
def nestingOf : List Argument → Nat
  | [] => 0
  | a :: rest => max (a.nesting + 1) (nestingOf rest)

theorem nestingOf_cons (a : Argument) (args : List Argument) :
    nestingOf (a :: args) = max (a.nesting + 1) (nestingOf args) := rfl

/-- The tokens of arguments, with a comma between each two. -/
inductive Separated : List Argument → List Token → Prop
  | nil : Separated [] []
  | single (a : Argument) : Separated [a] a.tokens
  | cons {a b : Argument} {rest : List Argument} {comma : Token} {ts : List Token}
      (hcomma : comma.kind = .comma) (hrest : Separated (b :: rest) ts) :
      Separated (a :: b :: rest) (a.tokens ++ comma :: ts)

theorem Separated.mem {args : List Argument} {ts : List Token} (h : Separated args ts) {a : Argument} (ha : a ∈ args)
    {t : Token} (ht : t ∈ a.tokens) : t ∈ ts := by
  induction h with
  | nil => cases ha
  | single b =>
    obtain rfl := List.mem_singleton.mp ha
    exact ht
  | cons _ _ ih =>
    rcases List.mem_cons.mp ha with rfl | ha
    · exact List.mem_append_left _ ht
    · exact List.mem_append_right _ (List.mem_cons_of_mem _ (ih ha))

/-- The tokens write the tree as a phrase of the class, with this many levels around the deepest point. -/
inductive Derives : Phrase → Nat → List Token → Expr → Prop
  | number {t : Token} {value : Float} (hkind : t.kind = .number) (hread : Binary64.read? t.text = some value) :
      Derives .primary 0 [t] (.number value t.text t.span)
  | constant {t : Token} {c : Constant} (hkind : t.kind = .constant) (hname : Constant.ofName? t.text = some c) :
      Derives .primary 0 [t] (.constant c t.span)
  | free {t : Token} (hkind : t.kind = .variableName) : Derives .primary 0 [t] (.free t.text t.span)
  | call {name opening closing : Token} {args : List Argument} {ts : List Token} (hname : name.kind = .function)
      (hopen : opening.kind = .lparen) (hclose : closing.kind = .rparen) (hts : Separated args ts)
      (hargs : ∀ a ∈ args, Derives .expression a.nesting a.tokens a.tree) :
      Derives .primary (nestingOf args) (name :: opening :: (ts ++ [closing]))
        (.call name.text (args.map Argument.tree) ⟨name.position, closing.stop⟩)
  | parenthesized {opening closing : Token} {n : Nat} {ts : List Token} {e : Expr} (hopen : opening.kind = .lparen)
      (hclose : closing.kind = .rparen) (he : Derives .expression n ts e) :
      Derives .primary (n + 1) (opening :: (ts ++ [closing])) e
  | ofPrimary {n : Nat} {ts : List Token} {e : Expr} (he : Derives .primary n ts e) : Derives .postfixed n ts e
  | factorial {bang : Token} {n : Nat} {ts : List Token} {e : Expr} (he : Derives .postfixed n ts e)
      (hbang : bang.isOperator '!' = true) :
      Derives .postfixed n (ts ++ [bang]) (.unary .factorial e ⟨e.span.start, bang.stop⟩)
  | ofPostfixed {n : Nat} {ts : List Token} {e : Expr} (he : Derives .postfixed n ts e) : Derives .unary n ts e
  | sign {t : Token} {op : UnaryOp} {n : Nat} {ts : List Token} {e : Expr} (hop : op = .plus ∨ op = .minus)
      (ht : t.isOperator op.symbol = true) (he : Derives .unary n ts e) :
      Derives .unary (n + 1) (t :: ts) (.unary op e ⟨t.position, e.span.stop⟩)
  | ofUnary {n : Nat} {ts : List Token} {e : Expr} (he : Derives .unary n ts e) : Derives .factor n ts e
  | power {t : Token} {n m : Nat} {ts us : List Token} {l r : Expr} (hl : Derives .unary n ts l)
      (ht : t.isOperator '^' = true) (hr : Derives .factor m us r) :
      Derives .factor (max n (m + 1)) (ts ++ t :: us) (joined .pow l r)
  | ofFactor {n : Nat} {ts : List Token} {e : Expr} (he : Derives .factor n ts e) : Derives .term n ts e
  | product {t : Token} {op : BinaryOp} {n m : Nat} {ts us : List Token} {l r : Expr} (hl : Derives .term n ts l)
      (hop : op ∈ [.mul, .div, .mod]) (ht : t.isOperator op.symbol = true) (hr : Derives .factor m us r) :
      Derives .term (max n m) (ts ++ t :: us) (joined op l r)
  | ofTerm {n : Nat} {ts : List Token} {e : Expr} (he : Derives .term n ts e) : Derives .expression n ts e
  | sum {t : Token} {op : BinaryOp} {n m : Nat} {ts us : List Token} {l r : Expr} (hl : Derives .expression n ts l)
      (hop : op ∈ [.add, .sub]) (ht : t.isOperator op.symbol = true) (hr : Derives .term m us r) :
      Derives .expression (max n m) (ts ++ t :: us) (joined op l r)

end Calculator.Expr.Grammar
