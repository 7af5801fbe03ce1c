import Calculator.Token.Cursor

/-!
A text read from its start to its end, or to the first fault. The script of a text keeps each token
with the place where it starts, and how reading came to an end.
-/

namespace Calculator

/-- A token and the offset where it starts. -/
structure Lexeme where
  token : Token
  offset : Nat
deriving DecidableEq

/-- The lexemes of a text in order, and the offset of its end or the fault that stopped reading. -/
structure Script where
  lexemes : List Lexeme
  ending : Except Fault Nat

namespace Script

/-- Reads on behind the lexemes in `read`, which come last first. -/
def readFrom (read : List Lexeme) (c : Cursor) : Script :=
  let step := c.next
  match _ : step.result with
  | .error fault => ⟨read.reverse, .error fault⟩
  | .ok token =>
    if _ : token = .endOfInput then ⟨read.reverse, .ok step.start⟩
    else readFrom (⟨token, step.start⟩ :: read) step.after
termination_by c.rest.length
decreasing_by exact Cursor.next_shorter ‹_› ‹_›

def ofText (text : Bytes) : Script := readFrom [] (.ofText text)

/-- All tokens of a script, or the fault that stopped reading. -/
def tokens (script : Script) : Except Fault (List Token) :=
  script.ending.map fun _ => script.lexemes.map Lexeme.token

end Script

/-- All tokens of a text, or its first lexical fault. -/
def tokenize (text : Bytes) : Except Fault (List Token) := (Script.ofText text).tokens

end Calculator
