import Calculator.Expr
/-!
Equality of expressions up to a tolerance between numbers. Spans and the spelling of literals do not count.
-/
namespace Calculator.Expr

/-- Whether two numbers are equal or at most `tolerance` apart. -/
def near (tolerance x y : Float) : Bool :=
  x == y || decide ((x - y).abs ≤ tolerance)

mutual
/-- Whether the trees have the same shape, operators and names, and numbers that are near. -/
def equivalent (tolerance : Float) : Expr → Expr → Bool
  | number x _ _, number y _ _ => near tolerance x y
  | constant c _, constant d _ => c == d
  | free x _, free y _ => x == y
  | unary op e _, unary op' e' _ => op == op' && equivalent tolerance e e'
  | binary op l r _, binary op' l' r' _ => op == op' && equivalent tolerance l l' && equivalent tolerance r r'
  | call f args _, call f' args' _ => f == f' && equivalentList tolerance args args'
  | matrix rows _, matrix rows' _ => equivalentRows tolerance rows rows'
  | complex re im _, complex re' im' _ => equivalent tolerance re re' && equivalent tolerance im im'
  | _, _ => false
/-- Whether the lists are equally long and their members pairwise equivalent. -/
def equivalentList (tolerance : Float) : List Expr → List Expr → Bool
  | [], [] => true
  | e :: es, e' :: es' => equivalent tolerance e e' && equivalentList tolerance es es'
  | _, _ => false
/-- Whether the rows are equally many and pairwise equivalent. -/
def equivalentRows (tolerance : Float) : List (List Expr) → List (List Expr) → Bool
  | [], [] => true
  | row :: rows, row' :: rows' => equivalentList tolerance row row' && equivalentRows tolerance rows rows'
  | _, _ => false
end

end Calculator.Expr
