import Calculator.Text.Utf8

/-!
Quoted strings as JSON writes them. Quotes, backslashes and control characters are escaped, whole
characters beyond ASCII stay as they are, and a byte that belongs to no character is written as
U+FFFD, the replacement character.
-/

namespace Calculator.Quoted

/-- The double quote that opens and closes a string. -/
def quote : UInt8 := 0x22

/-- An upper-case hexadecimal digit. -/
def hexDigit (value : UInt8) : UInt8 := if value < 10 then 0x30 + value else 0x37 + value

/-- One ASCII byte between the quotes. -/
def escapeAscii (byte : UInt8) : Bytes :=
  if byte = quote then ascii "\\\""
  else if byte = 0x5C then ascii "\\\\"
  else if byte = 0x0A then ascii "\\n"
  else if byte = 0x0D then ascii "\\r"
  else if byte = 0x09 then ascii "\\t"
  else if byte < 0x20 then ascii "\\u00" ++ [hexDigit (byte / 16), hexDigit (byte % 16)]
  else [byte]

/-- One character between the quotes. A piece of a single byte that is not ASCII is a byte that
belongs to no character. -/
def escape : Bytes → Bytes
  | [byte] => if byte < 0x80 then escapeAscii byte else ascii "\\uFFFD"
  | character => character

def encode (text : Bytes) : Bytes := quote :: (Utf8.characters text).flatMap escape ++ [quote]

end Calculator.Quoted
