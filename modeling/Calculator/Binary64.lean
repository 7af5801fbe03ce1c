import Calculator.Decimal

/-!
Doubles taken apart exactly. Below its sign bit a double is a natural number, its magnitude, and
every finite magnitude stands for a whole number of units of `2 ^ -1074`; larger magnitudes stand
for more units. Rationals are rounded to the nearest magnitude, a tie going to the even one, and a
double is written with the fewest digits, at most seventeen, whose rounding gives it back.
-/

namespace Calculator.Binary64

def signBit : Nat := 0x8000000000000000

/-- The number of magnitudes from one power of two to the next. -/
def binade : Nat := 0x10000000000000

/-- The magnitude of the infinities; those of finite doubles lie below it, those of nan above. -/
def infinity : Nat := 0x7FF0000000000000

/-- The units in one, which are the parts that the least positive double counts. -/
def unitsInOne : Nat := Nat.pow 2 1074

/-- The bits of a double below the sign. -/
def magnitude (x : Float) : Nat := x.toBits.toNat % signBit

/-- The sign bit, which zeros carry too. -/
def isNegative (x : Float) : Bool := signBit ≤ x.toBits.toNat

def ofMagnitude (negative : Bool) (magnitude : Nat) : Float :=
  Float.ofBits (UInt64.ofNat (if negative then signBit + magnitude else magnitude))

def isZero (x : Float) : Bool := magnitude x = 0

def isFinite (x : Float) : Bool := magnitude x < infinity

def isNan (x : Float) : Bool := infinity < magnitude x

/-- Equality of values: nan equals nothing, not even itself, and the two zeros are equal. -/
def agrees (x y : Float) : Bool :=
  !isNan x && !isNan y && (x.toBits == y.toBits || (isZero x && isZero y))

/-- The value of a finite magnitude, in units. -/
def units (magnitude : Nat) : Nat :=
  if magnitude < binade then magnitude
  else (magnitude % binade + binade) * Nat.pow 2 (magnitude / binade - 1)

/-- The magnitude nearest to `num / den`, a tie going to the even one. Neighbours around the
quotient are `2 ^ scale` units apart, where its fifty-three first binary digits end. -/
def nearest (num den : Nat) : Nat :=
  let scale := (num * unitsInOne / den).log2 - 52
  min infinity (scale * binade + roundDiv (num * unitsInOne) (den * Nat.pow 2 scale))

/-- The magnitude nearest to a decimal. -/
def ofDecimal (d : Decimal) : Nat := nearest d.numerator d.denominator

/-- The double nearest to a whole number. -/
def ofInt (n : Int) : Float := ofMagnitude (n < 0) (nearest n.natAbs 1)

/-- The power of ten of the first significant digit of a positive finite magnitude. Scaled by
`10 ^ 324` even the least magnitude is above one. -/
def order (magnitude : Nat) : Int :=
  ((digits (units magnitude * Nat.pow 10 324 / unitsInOne)).length : Int) - 325

/-- A magnitude of the given order rounded to `precision` significant digits, a tie going to the
even decimal. -/
def round (magnitude : Nat) (order : Int) (precision : Nat) : Decimal :=
  let shift : Int := precision - 1 - order
  let coefficient :=
    roundDiv (units magnitude * Nat.pow 10 shift.toNat) (unitsInOne * Nat.pow 10 (-shift).toNat)
  if coefficient = Nat.pow 10 precision then ⟨Nat.pow 10 (precision - 1), 1 - shift⟩
  else ⟨coefficient, -shift⟩

/-- The fewest significant digits that are read back as the magnitude. -/
def precision (magnitude : Nat) (order : Int) : Nat :=
  ((List.range' 1 16).find? fun p => ofDecimal (round magnitude order p) == magnitude).getD 17

/-- General notation of a finite magnitude with the fewest digits that are read back as it. -/
def general (magnitude : Nat) : Bytes :=
  if magnitude = 0 then [zeroDigit]
  else
    let order := order magnitude
    let precision := precision magnitude order
    (round magnitude order precision).general precision

/-- Adds a fraction to a text that would otherwise read as a whole number. -/
def markFraction (text : Bytes) : Bytes :=
  if text.contains point || text.contains (asciiByte 'e') then text else text ++ ascii ".0"

def text (x : Float) : Bytes :=
  let sign := if isNegative x then [minusSign] else []
  if isNan x then ascii "nan"
  else if isFinite x then sign ++ markFraction (general (magnitude x))
  else sign ++ ascii "inf"

theorem magnitude_lt (x : Float) : magnitude x < signBit := Nat.mod_lt _ (by decide)

theorem nearest_le (num den : Nat) : nearest num den ≤ infinity := Nat.min_le_left _ _

theorem agrees_comm (x y : Float) : agrees x y = agrees y x := by
  rw [Bool.eq_iff_iff]
  simp only [agrees, Bool.and_eq_true, Bool.or_eq_true, Bool.not_eq_true', beq_iff_eq]
  grind

theorem agrees_self (x : Float) : agrees x x = !isNan x := by
  simp [agrees]

end Calculator.Binary64
