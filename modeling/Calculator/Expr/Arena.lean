import Calculator.Expr
/-!
Expressions as a flat store of nodes that name their children by place. Children come before their parents,
and a node may be the child of several. A tree is laid out in post-order: children from left to right, then
the node, so that the root is the last.
-/
namespace Calculator

/-- What a node holds, with places for children. -/
inductive Arena.Content
  | number (value : Float) (raw : String)
  | constant (c : Constant)
  | free (name : String)
  | unary (op : UnaryOp) (operand : Nat)
  | binary (op : BinaryOp) (left right : Nat)
  | call (name : String) (args : List Nat)
  | matrix (rows : List (List Nat))
  | complex (re im : Nat)

def Arena.Content.children : Arena.Content → List Nat
  | number .. | constant .. | free .. => []
  | unary _ e => [e]
  | binary _ l r => [l, r]
  | call _ args => args
  | matrix rows => rows.flatten
  | complex re im => [re, im]

/-- A stored node. -/
structure Arena.Node where
  content : Arena.Content
  span : Span
  /-- The number of nodes on the longest way down from it. -/
  height : Nat

/-- A store of nodes. -/
structure Arena where
  nodes : Array Arena.Node

namespace Arena

def empty : Arena := ⟨#[]⟩

def size (a : Arena) : Nat := a.nodes.size

def isEmpty (a : Arena) : Bool := a.nodes.isEmpty

def last (a : Arena) : Nat := a.size - 1

/-- The height recorded for a place; a place without node counts nothing. -/
def height (a : Arena) (place : Nat) : Nat :=
  (a.nodes[place]?.map Node.height).getD 0

def span? (a : Arena) (place : Nat) : Option Span :=
  a.nodes[place]?.map Node.span

/-- Stores a node, one higher than the highest of its children. -/
def push (a : Arena) (content : Content) (span : Span) : Arena :=
  ⟨a.nodes.push ⟨content, span, (content.children.map a.height).foldl max 0 + 1⟩⟩

/-- Stores a binary node over all that its operands were read from. -/
def pushJoined (a : Arena) (op : BinaryOp) (left right : Nat) : Option Arena := do
  let l ← a.span? left
  let r ← a.span? right
  some (a.push (.binary op left right) (l.hull r))

mutual
/-- Stores a tree in post-order, behind the nodes that are there. -/
def add (a : Arena) : Expr → Arena
  | .number value raw span => a.push (.number value raw) span
  | .constant c span => a.push (.constant c) span
  | .free name span => a.push (.free name) span
  | .unary op e span =>
    let a := a.add e
    a.push (.unary op a.last) span
  | .binary op l r span =>
    let al := a.add l
    let ar := al.add r
    ar.push (.binary op al.last ar.last) span
  | .call name args span =>
    let (a, places) := a.addList args
    a.push (.call name places) span
  | .matrix rows span =>
    let (a, places) := a.addRows rows
    a.push (.matrix places) span
  | .complex re im span =>
    let al := a.add re
    let ar := al.add im
    ar.push (.complex al.last ar.last) span
/-- Stores trees one after the other, and gives the places of their roots. -/
def addList (a : Arena) : List Expr → Arena × List Nat
  | [] => (a, [])
  | e :: es =>
    let first := a.add e
    let (a, places) := first.addList es
    (a, first.last :: places)
/-- Stores rows of trees one after the other, and gives the places of their roots. -/
def addRows (a : Arena) : List (List Expr) → Arena × List (List Nat)
  | [] => (a, [])
  | row :: rows =>
    let (a, places) := a.addList row
    let (a, others) := a.addRows rows
    (a, places :: others)
end

def ofExpr (e : Expr) : Arena := empty.add e

/-- The tree below a place; there is none if a node names a child that does not come before it. -/
def tree? (a : Arena) (place : Nat) : Option Expr := do
  let node ← a.nodes[place]?
  let child (c : Nat) : Option Expr := if _h : c < place then a.tree? c else none
  match node.content with
  | .number value raw => some (.number value raw node.span)
  | .constant c => some (.constant c node.span)
  | .free name => some (.free name node.span)
  | .unary op e => return .unary op (← child e) node.span
  | .binary op l r => return .binary op (← child l) (← child r) node.span
  | .call name args => return .call name (← args.mapM child) node.span
  | .matrix rows => return .matrix (← rows.mapM fun row => row.mapM child) node.span
  | .complex re im => return .complex (← child re) (← child im) node.span
termination_by place

end Arena
end Calculator
