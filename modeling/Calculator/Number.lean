import Calculator.Binary64
import Calculator.Number.Checked

/-!
Numbers, as literals and as results: whole numbers are kept as words of 64 bits for as long as
they fit, everything else is a double. The two kinds never agree with each other, and their texts
differ too, since the text of a double always shows a point, an exponent or a letter.
-/

namespace Calculator

inductive Number
  | whole (value : Int64)
  | real (value : Float)
deriving DecidableEq

namespace Number

instance : Inhabited Number := ⟨.whole 0⟩

def isWhole : Number → Bool
  | .whole _ => true
  | .real _ => false

/-- A number as a double, rounded to the nearest one if it has to be. -/
def toFloat : Number → Float
  | .whole n => Binary64.ofInt n.toInt
  | .real x => x

/-- Zeros of either kind and sign. -/
def isZero : Number → Bool
  | .whole n => n == 0
  | .real x => Binary64.isZero x

def isFinite : Number → Bool
  | .whole _ => true
  | .real x => Binary64.isFinite x

/-- Equality of values within one kind. -/
def agrees : Number → Number → Bool
  | .whole m, .whole n => m == n
  | .real x, .real y => Binary64.agrees x y
  | _, _ => false

def wholeText (n : Int) : Bytes :=
  if n < 0 then minusSign :: digits n.natAbs else digits n.natAbs

def text : Number → Bytes
  | .whole n => wholeText n.toInt
  | .real x => Binary64.text x

/-- A number in a JSON document, which has no infinities and no nan. -/
def json (n : Number) : Bytes := if n.isFinite then n.text else ascii "null"

def greatestWord : Nat := 0x7FFFFFFFFFFFFFFF

/-- The whole number a numeral without a point stands for, as a double when it is no word. -/
def ofNat (n : Nat) : Number :=
  if n ≤ greatestWord then .whole (Int64.ofNat n)
  else .real (Binary64.ofMagnitude false (Binary64.nearest n 1))

/-- The double a numeral with a point stands for. -/
def ofDecimal (d : Decimal) : Number :=
  .real (Binary64.ofMagnitude false (Binary64.ofDecimal d))

end Number

end Calculator
