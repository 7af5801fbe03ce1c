import Calculator.Tree.Evaluate
import Calculator.Tree.Parse
import Calculator.Tree.Show

/-!
A whole calculation: the tokens of a text, their tree and its value, and the ways to show them.
The tokens come first, so a lexical fault anywhere wins over a fault of the grammar.
-/

namespace Calculator

structure Calculation where
  tokens : List Token
  tree : Tree.Measured
  value : Number

def calculate (text : Bytes) : Except Fault Calculation := do
  let tokens ← tokenize text
  let tree ← parse text
  let value ← tree.tree.evaluate
  .ok { tokens, tree, value }

namespace Calculation

/-- JSON values with commas between them. -/
def commaSeparated : List Bytes → Bytes
  | [] => []
  | first :: others => first ++ others.flatMap fun value => asciiByte ',' :: value

def json (c : Calculation) : Bytes :=
  ascii "\x7b\"tokens\":[" ++ commaSeparated (c.tokens.map Token.json) ++ ascii "],\"ast\":" ++
    c.tree.tree.jsonBefore (ascii ",\"result\":" ++ c.value.json ++ ascii "\x7d")

/-- A calculation in three titled sections. -/
def report (c : Calculation) : Bytes :=
  ascii "\n[1] LEXICAL ANALYSIS: TOKENS\n" ++
    c.tokens.flatMap (fun token => ascii "  " ++ token.describe ++ newline) ++
    ascii "\n[2] SYNTAX ANALYSIS: PARSE TREE (AST)\n" ++
    c.tree.tree.dumpBefore (ascii "\n[3] SEMANTIC EVALUATION: RESULT\n  Final Result: " ++
      c.value.text ++ newline) 0

end Calculation

end Calculator
