import Calculator.Expr.Arena
import Calculator.Expr.Equivalent
/-!
Equality of what stands below two places of two stores, up to a tolerance between numbers. Nodes are compared in all but
their children first, and then the children, from left to right in pairs, up to the first pair that differs.
-/
namespace Calculator.Arena

/-- Whether two nodes with children are of one kind, with the same operator or name and as many children. -/
def Content.sameShape : Content → Content → Bool
  | unary op _, unary op' _ => op == op'
  | binary op _ _, binary op' _ _ => op == op'
  | call f args, call f' args' => f == f' && args.length == args'.length
  | matrix rows, matrix rows' =>
    rows.length == rows'.length && (rows.zip rows').all fun (row, row') => row.length == row'.length
  | complex .., complex .. => true
  | _, _ => false

/-- Whether the same stands below a place of one store and a place of another. There is no answer where a place without
node is looked at, or a node that names a child that does not come before it. -/
def equivalentAt (tolerance : Float) (a : Arena) (i : Nat) (b : Arena) (j : Nat) : Option Bool := do
  let node ← a.nodes[i]?
  let other ← b.nodes[j]?
  match node.content, other.content with
  | .number x _, .number y _ => return Expr.near tolerance x y
  | .constant c, .constant d => return c == d
  | .free x, .free y => return x == y
  | content, content' =>
    if content.sameShape content' then
      (content.children.zip content'.children).allM fun (c, d) =>
        if _h : c < i then a.equivalentAt tolerance c b d else none
    else return false
termination_by i

end Calculator.Arena
