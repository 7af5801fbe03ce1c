import Calculator.Tree.Rule

/-!
The tree of a text: an expression with nothing behind it.
-/

namespace Calculator

def Script.parse (script : Script) : Except Fault Tree.Measured := do
  let expression := Rule.expression limit script.ending (Rule.factor limit script.ending limit)
  let (tree, rest) ← expression.read script.lexemes
  let next ← front script.ending rest
  if next.token.category = .mark .endOfInput then .ok tree
  else .error (.mismatch (.mark .endOfInput) next.token.category next.offset)

/-- The tree of a text. A lexical fault counts only if reading comes that far. -/
def parse (text : Bytes) : Except Fault Tree.Measured := (Script.ofText text).parse

end Calculator
