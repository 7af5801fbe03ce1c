/-!
Text as the calculator reads and writes it: a list of bytes. Offsets and lengths count bytes, and
the fixed words of messages and documents are ASCII.
-/

namespace Calculator

/-- A text, byte by byte. -/
abbrev Bytes := List UInt8

def asciiByte (c : Char) : UInt8 := c.toNat.toUInt8

def ascii (text : String) : Bytes := text.toList.map asciiByte

/-- The line feed that ends every line written. -/
def newline : Bytes := [0x0A]

end Calculator
