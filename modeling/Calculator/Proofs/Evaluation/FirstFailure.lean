import Calculator.Evaluation.Fixed
import Calculator.Evaluation.Precise
import Calculator.Proofs.Evaluation.Rules
/-!
Which failure is reported. Where no function of the user is called, the nodes of an expression have their values one
after the other, operands before the node that they belong to and left before right. The first node that makes nothing
of the values of its operands fails the whole expression, with its own cause and at its own place.
-/
namespace Calculator

namespace Expr

/-- The expressions whose values a node is made of. Entries of matrices and parts of complex numbers have none. -/
def operands : Expr → List Expr
  | matrix .. | complex .. => []
  | e => e.children

mutual
/-- The nodes that have a value of their own, operands from left to right before the node. -/
def postorder : Expr → List Expr
  | unary op e span => e.postorder ++ [unary op e span]
  | binary op l r span => l.postorder ++ (r.postorder ++ [binary op l r span])
  | call name args span => postorderList args ++ [call name args span]
  | e => [e]
/-- The nodes of the expressions one after the other. -/
def postorderList : List Expr → List Expr
  | [] => []
  | e :: es => e.postorder ++ postorderList es
end

end Expr

namespace Evaluation

variable {α : Type}

section
variable {A : Arithmetic α} {functions : Bindings UserFunction} {s : Scope α} {e : Expr} {error : Error}

/-! ### One node -/

end

end Evaluation
end Calculator
