import Calculator.Expr.Parser
/-!
Checking an expression's text without evaluating it: first that it is not blank, then that its parentheses
pair up, and only then whether it parses.
-/
namespace Calculator

/-- A problem in a text. -/
inductive Problem
  | blank
  | unmatchedClose
  | unmatchedOpen
  | malformed (error : ParseError)
deriving DecidableEq, Repr

def Problem.message : Problem → String
  | blank => "Expression is empty"
  | unmatchedClose => "Unmatched closing parenthesis"
  | unmatchedOpen => "Unmatched opening parenthesis"
  | malformed error => error.message

/-- A problem and the characters where it lies. -/
structure Finding where
  problem : Problem
  span : Span
deriving DecidableEq, Repr

/-- The outcome of a check. -/
structure ValidationResult where
  valid : Bool
  errors : List Finding
deriving DecidableEq, Repr

namespace ValidationResult

def ok : ValidationResult := ⟨true, []⟩

def fail (errors : List Finding) : ValidationResult := ⟨false, errors⟩

end ValidationResult

namespace Validation

/-- The parentheses that do not pair up: positions of those that close none, and of those left open, last first. -/
structure Unpaired where
  /-- Positions of parentheses that close none, in the order of the text. -/
  closing : List Nat
  /-- Positions of parentheses that are not closed, last first. -/
  opening : List Nat
deriving DecidableEq, Repr

/-- Pairs each parenthesis that closes with the nearest one that is still open, of those in `opened`. -/
def unpaired (position : Nat) (opened : List Nat) : List Char → Unpaired
  | [] => ⟨[], opened⟩
  | '(' :: cs => unpaired (position + 1) (position :: opened) cs
  | ')' :: cs =>
    match opened with
    | _ :: others => unpaired (position + 1) others cs
    | [] =>
      let later := unpaired (position + 1) [] cs
      ⟨position :: later.closing, later.opening⟩
  | _ :: cs => unpaired (position + 1) opened cs

/-- The first parenthesis that closes none and the last that is not closed. -/
def parenthesisFindings (cs : List Char) : List Finding :=
  let found := unpaired 0 [] cs
  (found.closing.head?.map fun i => ⟨.unmatchedClose, ⟨i, i + 1⟩⟩).toList ++
    (found.opening.head?.map fun i => ⟨.unmatchedOpen, ⟨i, i + 1⟩⟩).toList

/-- Whether the text is an expression, and what is wrong with it. -/
def validate (text : String) : ValidationResult :=
  let cs := text.toList
  if (Text.trim cs).isEmpty then .fail [⟨.blank, ⟨0, 0⟩⟩]
  else
    match parenthesisFindings cs with
    | [] =>
      match Expr.parse [] text with
      | .ok _ => .ok
      | .error error => .fail [⟨.malformed error, ⟨0, cs.length⟩⟩]
    | found => .fail found

def findings (text : String) : List Finding := (validate text).errors

end Validation
end Calculator
