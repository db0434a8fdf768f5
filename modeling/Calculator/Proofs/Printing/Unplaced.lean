import Calculator.Expr.Printer
/-! Expressions without places: what is left of a tree when it is forgotten where it was read from. -/
namespace Calculator.Expr

mutual
/-- The tree with the empty span everywhere. -/
def unplaced : Expr → Expr
  | number value raw _ => number value raw ⟨0, 0⟩
  | constant c _ => constant c ⟨0, 0⟩
  | free name _ => free name ⟨0, 0⟩
  | unary op e _ => unary op e.unplaced ⟨0, 0⟩
  | binary op l r _ => binary op l.unplaced r.unplaced ⟨0, 0⟩
  | call name args _ => call name (unplacedList args) ⟨0, 0⟩
  | matrix rows _ => matrix (unplacedRows rows) ⟨0, 0⟩
  | complex re im _ => complex re.unplaced im.unplaced ⟨0, 0⟩
/-- Each tree with the empty span everywhere. -/
def unplacedList : List Expr → List Expr
  | [] => []
  | e :: es => e.unplaced :: unplacedList es
/-- Each row with the empty span everywhere. -/
def unplacedRows : List (List Expr) → List (List Expr)
  | [] => []
  | row :: rows => unplacedList row :: unplacedRows rows
end

mutual
theorem height_unplaced : (e : Expr) → e.unplaced.height = e.height
  | number .. | constant .. | free .. => by simp only [unplaced, height]
  | unary _ e _ => by simp only [unplaced, height, height_unplaced e]
  | binary _ l r _ => by simp only [unplaced, height, height_unplaced l, height_unplaced r]
  | call _ args _ => by simp only [unplaced, height, heightList_unplaced args]
  | matrix rows _ => by simp only [unplaced, height, heightRows_unplaced rows]
  | complex re im _ => by simp only [unplaced, height, height_unplaced re, height_unplaced im]
theorem heightList_unplaced : (es : List Expr) → heightList (unplacedList es) = heightList es
  | [] => rfl
  | e :: es => by simp only [unplacedList, heightList, height_unplaced e, heightList_unplaced es]
theorem heightRows_unplaced : (rows : List (List Expr)) → heightRows (unplacedRows rows) = heightRows rows
  | [] => rfl
  | row :: rows => by simp only [unplacedRows, heightRows, heightList_unplaced row, heightRows_unplaced rows]
end

theorem needsParens_unplaced (parent : BinaryOp) (onRight : Bool) (e : Expr) :
    needsParens parent onRight e.unplaced = needsParens parent onRight e := by
  cases e <;> simp only [unplaced, needsParens]

theorem needsUnaryParens_unplaced (parent : UnaryOp) (e : Expr) :
    needsUnaryParens parent e.unplaced = needsUnaryParens parent e := by
  cases e <;> simp only [unplaced, needsUnaryParens]

mutual
theorem chars_unplaced : (e : Expr) → e.unplaced.chars = e.chars
  | number .. | constant .. | free .. => by rw [unplaced, chars, chars]
  | unary op e _ => by simp only [unplaced, chars, needsUnaryParens_unplaced, chars_unplaced e]
  | binary op l r _ => by simp only [unplaced, chars, needsParens_unplaced, chars_unplaced l, chars_unplaced r]
  | call _ args _ => by simp only [unplaced, chars, charsList_unplaced args]
  | matrix rows _ => by simp only [unplaced, chars, charsRows_unplaced rows]
  | complex re im _ => by simp only [unplaced, chars, chars_unplaced re, chars_unplaced im]
theorem charsList_unplaced : (es : List Expr) → charsList (unplacedList es) = charsList es
  | [] => rfl
  | e :: es => by simp only [unplacedList, charsList, chars_unplaced e, charsList_unplaced es]
theorem charsRows_unplaced : (rows : List (List Expr)) → charsRows (unplacedRows rows) = charsRows rows
  | [] => rfl
  | row :: rows => by simp only [unplacedRows, charsRows, charsList_unplaced row, charsRows_unplaced rows]
end

/-- The text does not tell where a tree was read from. -/
theorem print_eq_of_unplaced_eq {e f : Expr} (h : e.unplaced = f.unplaced) : e.print = f.print := by
  rw [print, print, ← chars_unplaced e, ← chars_unplaced f, h]

end Calculator.Expr
