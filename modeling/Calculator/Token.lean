import Calculator.Number
import Calculator.Text.Quoted

/-!
Tokens: the numbers and marks an expression is made of. A mark keeps the byte it was written with;
its category decides what the grammar does with it, and is what messages name.
-/

namespace Calculator

/-- The categories of tokens other than numbers. `other` stands for a category code outside the
calculator's own. -/
inductive Mark
  | plus
  | minus
  | star
  | slash
  | caret
  | opening
  | closing
  | endOfInput
  | other (code : Int)
deriving DecidableEq, Repr

inductive Category
  | number
  | mark (mark : Mark)
deriving DecidableEq, Repr

inductive Token
  | number (value : Number)
  | mark (mark : Mark) (byte : UInt8)
deriving DecidableEq

namespace Mark

/-- The name of a category in messages and documents. -/
def name : Mark → Bytes
  | plus => ascii "Plus"
  | minus => ascii "Minus"
  | star => ascii "Mul"
  | slash => ascii "Div"
  | caret => ascii "Pow"
  | opening => ascii "LParen"
  | closing => ascii "RParen"
  | endOfInput => ascii "EndOfInput"
  | other _ => ascii "?"

def ofByte? (byte : UInt8) : Option Mark :=
  if byte = asciiByte '+' then some plus
  else if byte = asciiByte '-' then some minus
  else if byte = asciiByte '*' then some star
  else if byte = asciiByte '/' then some slash
  else if byte = asciiByte '^' then some caret
  else if byte = asciiByte '(' then some opening
  else if byte = asciiByte ')' then some closing
  else none

end Mark

def Category.name : Category → Bytes
  | number => ascii "Number"
  | mark m => m.name

namespace Token

/-- The token beyond the last one. -/
def endOfInput : Token := .mark .endOfInput 0

instance : Inhabited Token := ⟨endOfInput⟩

def category : Token → Category
  | number _ => .number
  | mark m _ => .mark m

/-- Numbers are compared by value, marks by category and byte. -/
def agrees : Token → Token → Bool
  | number a, number b => a.agrees b
  | mark m a, mark n b => m == n && a == b
  | _, _ => false

/-- A token as reports show it. -/
def describe : Token → Bytes
  | number value => ascii "Token(Number, " ++ value.text ++ ascii ")"
  | mark .endOfInput _ => ascii "Token(EndOfInput)"
  | mark m byte => ascii "Token(" ++ m.name ++ ascii ", '" ++ [byte] ++ ascii "')"

def jsonValue : Token → Bytes
  | number value => value.json
  | mark .endOfInput _ => ascii "null"
  | mark _ byte => Quoted.encode [byte]

def json (token : Token) : Bytes :=
  ascii "\x7b\"category\":" ++ Quoted.encode token.category.name ++ ascii ",\"value\":" ++
    token.jsonValue ++ ascii "\x7d"

end Token

end Calculator
