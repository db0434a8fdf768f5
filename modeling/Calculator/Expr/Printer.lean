import Calculator.Expr
/-!
Writing expressions as text, with parentheses only where the grouping needs them. Numbers keep their literal.
-/
namespace Calculator.Expr

/-- Whether an operand of `parent` needs parentheses: it binds less tightly, or as tightly on the wrong side. -/
def needsParens (parent : BinaryOp) (onRight : Bool) : Expr → Bool
  | binary op _ _ _ =>
    if op.precedence = parent.precedence then onRight != parent.groupsRight
    else decide (op.precedence < parent.precedence)
  | _ => false

/-- Whether the operand of a unary operator needs parentheses. -/
def needsUnaryParens (parent : UnaryOp) : Expr → Bool
  | binary .. => true
  | unary op _ _ => parent.standsBehind && !op.standsBehind
  | _ => false

def inParens (needed : Bool) (text : List Char) : List Char :=
  if needed then '(' :: text ++ [')'] else text

def commaSeparated (texts : List (List Char)) : List Char :=
  [',', ' '].intercalate texts

mutual
def chars : Expr → List Char
  | number _ raw _ => raw.toList
  | constant c _ => c.name.toList
  | free name _ => name.toList
  | unary op e _ =>
    let operand := inParens (needsUnaryParens op e) e.chars
    if op.standsBehind then operand ++ [op.symbol] else op.symbol :: operand
  | binary op l r _ =>
    inParens (needsParens op false l) l.chars ++ ' ' :: op.symbol :: ' ' ::
      inParens (needsParens op true r) r.chars
  | call name args _ => name.toList ++ inParens true (commaSeparated (charsList args))
  | matrix rows _ => '[' :: commaSeparated (charsRows rows) ++ [']']
  | complex re im _ => ['c', 'o', 'm', 'p', 'l', 'e', 'x'] ++ inParens true (commaSeparated [re.chars, im.chars])
def charsList : List Expr → List (List Char)
  | [] => []
  | e :: es => e.chars :: charsList es
def charsRows : List (List Expr) → List (List Char)
  | [] => []
  | row :: rows => ('[' :: commaSeparated (charsList row) ++ [']']) :: charsRows rows
end

def print (e : Expr) : String :=
  String.ofList e.chars

end Calculator.Expr
