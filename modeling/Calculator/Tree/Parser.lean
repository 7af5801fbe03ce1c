import Calculator.Tree.Rule

/-!
A parser that keeps its place in a text: it reads tokens only as it needs them, counts the levels
that are open, and can be asked for the tree of its text any number of times, whatever became of
the earlier calls. The four phrases of the grammar call one another with a budget of nested calls,
four for each level and four for the outermost one.
-/

namespace Calculator

/-- A parser between two steps: its text, where reading goes on, the token in front with its
offset, and the number of open levels. -/
structure Parser where
  text : Bytes
  cursor : Cursor
  token : Token := .endOfInput
  offset : Nat := 0
  nesting : Nat := 0

/-- A step of a parser; a fault leaves the parser where it was found. -/
abbrev Parsing (α : Type) := ExceptT Fault (StateM Parser) α

inductive Phrase
  | expression
  | term
  | factor
  | primary
deriving DecidableEq, Repr

namespace Parser

/-- The nested calls that the limit on nesting allows for. -/
def budget : Nat := 4 * (limit + 1)

def ofText (text : Bytes) : Parser := { text, cursor := .ofText text }

/-- Puts the next token in front. -/
def advance : Parsing Unit := do
  let p ← get
  let step := p.cursor.next
  set { p with cursor := step.after }
  let token ← step.result
  modify fun p => { p with token, offset := step.start }

/-- Opens a level, a fault at the token in front if that is one too many. -/
def openLevel : Parsing Unit := do
  modify fun p => { p with nesting := p.nesting + 1 }
  let p ← get
  if limit < p.nesting then throw (.tooDeep p.offset)

def closeLevel : Parsing Unit := modify fun p => { p with nesting := p.nesting - 1 }

/-- Goes on behind the token in front if it is of the expected category. -/
def expect (expected : Category) : Parsing Unit := do
  let p ← get
  if p.token.category = expected then advance
  else throw (.mismatch expected p.token.category p.offset)

/-- Joins two trees; a node above the limit is a fault at the token in front. -/
def combine (op : Operator) (left right : Tree.Measured) : Parsing Tree.Measured := do
  let node := Tree.Measured.binary op.symbol left right
  if node.height ≤ limit then return node
  else throw (.tooDeep (← get).offset)

/-- Joins operands from the left for as long as tokens link them. Every join makes the tree higher,
so `count` joins are enough if the height of `left` and `count` together exceed the limit. -/
def chain (link : Token → Option Link) (operand : Parsing Tree.Measured) :
    (count : Nat) → Tree.Measured → Parsing Tree.Measured
  | 0, _ => throw .other
  | count + 1, left => do
    match link (← get).token with
    | none => return left
    | some found =>
      if found.written then advance
      let right ← operand
      let node ← combine found.operator left right
      chain link operand count node

/-- Reads a phrase with a budget of nested calls. -/
def phrase : (calls : Nat) → Phrase → Parsing Tree.Measured
  | 0, _ => throw .other
  | calls + 1, .expression => do
    let first ← phrase calls .term
    chain sumLink (phrase calls .term) limit first
  | calls + 1, .term => do
    let first ← phrase calls .factor
    chain productLink (phrase calls .factor) limit first
  | calls + 1, .factor => do
    let base ← phrase calls .primary
    if (← get).token.category = .mark .caret then
      openLevel
      advance
      let exponent ← phrase calls .factor
      closeLevel
      combine .pow base exponent
    else return base
  | calls + 1, .primary => do
    let p ← get
    match p.token with
    | .number value =>
      advance
      return .literal value
    | .mark .opening _ =>
      openLevel
      advance
      let inner ← phrase calls .expression
      expect (.mark .closing)
      closeLevel
      return inner
    | token => throw (.unexpected token.category p.offset)

/-- Reads the whole text from its start. -/
def whole : Parsing Tree.Measured := do
  modify fun p => { p with cursor := .ofText p.text, nesting := 0 }
  advance
  let tree ← phrase budget .expression
  let p ← get
  if p.token.category = .mark .endOfInput then return tree
  else throw (.mismatch (.mark .endOfInput) p.token.category p.offset)

/-- The tree of the parser's text, and the parser afterwards. -/
def parse (p : Parser) : Except Fault Tree.Measured × Parser := whole.run.run p

/-- The answers of `count` calls one after the other. -/
def parseTimes (p : Parser) : (count : Nat) → List (Except Fault Tree.Measured)
  | 0 => []
  | count + 1 => p.parse.1 :: p.parse.2.parseTimes count

end Parser

end Calculator
