import Calculator.Token

/-!
Faults: the reasons why an expression has no value, and the messages that explain them. Places are
byte offsets into the expression.
-/

namespace Calculator

inductive Fault
  /-- A character that belongs to no token. -/
  | lexical (character : Bytes) (offset : Nat)
  /-- A token where an operand has to start. -/
  | unexpected (found : Category) (offset : Nat)
  /-- A token where another one has to stand. -/
  | mismatch (expected found : Category) (offset : Nat)
  | divisionByZero
  /-- A tree that is no expression. -/
  | unknownNode
  /-- Nesting or height beyond the limit. -/
  | tooDeep (offset : Nat)
  /-- A cause outside the calculator's own. -/
  | other
deriving DecidableEq, Repr

namespace Fault

def message : Fault → Bytes
  | lexical character offset =>
    ascii "Lexical Error: Invalid character '" ++ character ++ ascii "' at position " ++ digits offset
  | unexpected found _ => ascii "Syntax Error: Unexpected token of category " ++ found.name
  | mismatch expected found _ =>
    ascii "Syntax Error: Expected " ++ expected.name ++ ascii ", but found " ++ found.name
  | divisionByZero => ascii "Semantic Error: Division by zero"
  | unknownNode => ascii "Evaluation Error: Unknown node type"
  | tooDeep offset =>
    ascii "Syntax Error: Expression nested too deeply at position " ++ digits offset
  | other => ascii "Unknown error"

/-- The place of a fault, 0 for one that has none. -/
def offset : Fault → Nat
  | lexical _ offset | unexpected _ offset | mismatch _ _ offset | tooDeep offset => offset
  | divisionByZero | unknownNode | other => 0

def json (fault : Fault) : Bytes :=
  ascii "\x7b\"error\":" ++ Quoted.encode fault.message ++ ascii "\x7d"

end Fault

end Calculator
