import Calculator.Decimal

/-!
The grammar of JSON. A text stands for a value, whose numbers are kept as the numerals that write
them and whose strings as UTF-8. Blanks may stand around every value and every key.
-/

namespace Calculator

inductive Json
  | null
  | boolean (value : Bool)
  | number (numeral : Bytes)
  | string (content : Bytes)
  | array (values : List Json)
  | object (members : List (Bytes × Json))

namespace Json

open String (utf8EncodeChar)

structure IsDigits (text : Bytes) : Prop where
  ne_nil : text ≠ []
  digit : ∀ byte ∈ text, isDigit byte

/-- Whole numbers without a sign, which start with a zero only if it is their one digit. -/
structure IsWhole (text : Bytes) : Prop extends IsDigits text where
  lead : text.head? = some zeroDigit → text = [zeroDigit]

/-- A point with digits behind it, or nothing. -/
inductive IsFraction : Bytes → Prop
  | absent : IsFraction []
  | present {figures : Bytes} (h : IsDigits figures) : IsFraction (point :: figures)

/-- A power of ten, with a sign or without, or nothing. -/
inductive IsExponent : Bytes → Prop
  | absent : IsExponent []
  | present {letter : UInt8} {sign figures : Bytes}
      (hletter : letter = asciiByte 'e' ∨ letter = asciiByte 'E')
      (hsign : sign = [] ∨ sign = [asciiByte '+'] ∨ sign = [minusSign]) (h : IsDigits figures) :
      IsExponent (letter :: sign ++ figures)

inductive IsNumeral : Bytes → Prop
  | mk {sign whole fraction exponent : Bytes} (hsign : sign = [] ∨ sign = [minusSign])
      (hwhole : IsWhole whole) (hfraction : IsFraction fraction)
      (hexponent : IsExponent exponent) : IsNumeral (sign ++ whole ++ fraction ++ exponent)

/-- The quote, the backslash, the slash and five control characters, with the letters that stand for
them behind a backslash. -/
def escapes : List (UInt8 × UInt8) :=
  [(0x22, 0x22), (0x5C, 0x5C), (0x2F, 0x2F), (0x08, asciiByte 'b'), (0x0C, asciiByte 'f'),
    (0x0A, asciiByte 'n'), (0x0D, asciiByte 'r'), (0x09, asciiByte 't')]

def hexValue (byte : UInt8) : Option Nat :=
  if isDigit byte then some (digitValue byte)
  else if asciiByte 'A' ≤ byte ∧ byte ≤ asciiByte 'F' then some (byte.toNat - 0x37)
  else if asciiByte 'a' ≤ byte ∧ byte ≤ asciiByte 'f' then some (byte.toNat - 0x57)
  else none

/-- The number that four hexadecimal digits write. -/
def codeUnit (a b c d : UInt8) : Option Nat := do
  let a ← hexValue a
  let b ← hexValue b
  let c ← hexValue c
  let d ← hexValue d
  some (0x1000 * a + 0x100 * b + 0x10 * c + d)

/-- What stands between quotes, by the content that it stands for. Characters that need more than
four hexadecimal digits are numbered by a pair of surrogates. -/
inductive Inside : Bytes → Bytes → Prop
  | nil : Inside [] []
  | plain {content text : Bytes} {c : Char} (hcontrol : 0x20 ≤ c.toNat) (hquote : c.toNat ≠ 0x22)
      (hbackslash : c.toNat ≠ 0x5C) (h : Inside content text) :
      Inside (utf8EncodeChar c ++ content) (utf8EncodeChar c ++ text)
  | letter {content text : Bytes} {byte letter : UInt8} (hletter : (byte, letter) ∈ escapes)
      (h : Inside content text) : Inside (byte :: content) (0x5C :: letter :: text)
  | unit {content text : Bytes} {c : Char} {d₁ d₂ d₃ d₄ : UInt8}
      (hunit : codeUnit d₁ d₂ d₃ d₄ = some c.toNat) (h : Inside content text) :
      Inside (utf8EncodeChar c ++ content) (ascii "\\u" ++ d₁ :: d₂ :: d₃ :: d₄ :: text)
  | pair {content text : Bytes} {c : Char} {high low : Nat} {d₁ d₂ d₃ d₄ e₁ e₂ e₃ e₄ : UInt8}
      (hhigh : codeUnit d₁ d₂ d₃ d₄ = some (0xD800 + high)) (hhigh' : high < 0x400)
      (hlow : codeUnit e₁ e₂ e₃ e₄ = some (0xDC00 + low)) (hlow' : low < 0x400)
      (hc : c.toNat = 0x10000 + 0x400 * high + low) (h : Inside content text) :
      Inside (utf8EncodeChar c ++ content)
        (ascii "\\u" ++ d₁ :: d₂ :: d₃ :: d₄ :: ascii "\\u" ++ e₁ :: e₂ :: e₃ :: e₄ :: text)

/-- Strings in their quotes, by their content. -/
inductive IsQuoted : Bytes → Bytes → Prop
  | mk {content text : Bytes} (h : Inside content text) :
      IsQuoted content (0x22 :: text ++ [0x22])

/-- The parts of the grammar: values, one value or more with commas between them, and members of
objects likewise. -/
inductive Part
  | value (v : Json)
  | values (vs : List Json)
  | members (ms : List (Bytes × Json))

/-- Space, tab, line feed and carriage return. -/
def Blanks (text : Bytes) : Prop := ∀ byte ∈ text, byte ∈ [0x20, 0x09, 0x0A, 0x0D]

inductive IsText : Part → Bytes → Prop
  | null : IsText (.value .null) (ascii "null")
  | boolean (value : Bool) :
      IsText (.value (.boolean value)) (ascii (if value then "true" else "false"))
  | number {numeral : Bytes} (h : IsNumeral numeral) : IsText (.value (.number numeral)) numeral
  | string {content text : Bytes} (h : IsQuoted content text) :
      IsText (.value (.string content)) text
  | emptyArray {blanks : Bytes} (h : Blanks blanks) :
      IsText (.value (.array [])) (ascii "[" ++ blanks ++ ascii "]")
  | array {vs : List Json} {text : Bytes} (h : IsText (.values vs) text) :
      IsText (.value (.array vs)) (ascii "[" ++ text ++ ascii "]")
  | emptyObject {blanks : Bytes} (h : Blanks blanks) :
      IsText (.value (.object [])) (ascii "\x7b" ++ blanks ++ ascii "\x7d")
  | object {ms : List (Bytes × Json)} {text : Bytes} (h : IsText (.members ms) text) :
      IsText (.value (.object ms)) (ascii "\x7b" ++ text ++ ascii "\x7d")
  | padded {v : Json} {before text after : Bytes} (hbefore : Blanks before)
      (h : IsText (.value v) text) (hafter : Blanks after) :
      IsText (.value v) (before ++ text ++ after)
  | lastValue {v : Json} {text : Bytes} (h : IsText (.value v) text) : IsText (.values [v]) text
  | moreValues {v : Json} {vs : List Json} {text rest : Bytes} (h : IsText (.value v) text)
      (hrest : IsText (.values vs) rest) : IsText (.values (v :: vs)) (text ++ ascii "," ++ rest)
  | lastMember {key name text : Bytes} {v : Json} (hkey : IsText (.value (.string key)) name)
      (h : IsText (.value v) text) : IsText (.members [(key, v)]) (name ++ ascii ":" ++ text)
  | moreMembers {key name text rest : Bytes} {v : Json} {ms : List (Bytes × Json)}
      (hkey : IsText (.value (.string key)) name) (h : IsText (.value v) text)
      (hrest : IsText (.members ms) rest) :
      IsText (.members ((key, v) :: ms)) (name ++ ascii ":" ++ text ++ ascii "," ++ rest)

end Json

end Calculator
