import Calculator.Text.Bytes

/-!
Decimal numerals: the digits of a natural number, quotients rounded to a whole number, and
decimals `coefficient · 10 ^ exponent` written in general notation, which is positional for exponents
of moderate size and scientific beyond them. Digits that are read back give the number they were
written for (`ofDigits_digits`).
-/

namespace Calculator

/-- The decimal digits of `n`, without leading zeros. -/
def digits (n : Nat) : Bytes := (Nat.toDigits 10 n).map asciiByte

def zeroDigit : UInt8 := 0x30

def point : UInt8 := 0x2E

def minusSign : UInt8 := 0x2D

def isDigit (byte : UInt8) : Bool := 0x30 ≤ byte && byte ≤ 0x39

def digitValue (byte : UInt8) : Nat := byte.toNat - 48

/-- Digits on the way to their number: the latest ones are gathered in `recent`, a number of
moderate size, and `kept` holds those before them, in multiples of `scale`. -/
structure Tally where
  kept : Nat := 0
  recent : Nat := 0
  scale : Nat := 1

namespace Tally

/-- The number that the digits counted so far stand for. -/
def value (t : Tally) : Nat := t.kept * t.scale + t.recent

/-- The scale at which recent digits are put away. -/
def full : Nat := Nat.pow 10 400

/-- Counts one more digit. -/
def add (t : Tally) (byte : UInt8) : Tally :=
  if t.scale < full then
    ⟨t.kept, 10 * t.recent + digitValue byte, 10 * t.scale⟩
  else ⟨t.value, digitValue byte, 10⟩

theorem value_add (t : Tally) (byte : UInt8) :
    (t.add byte).value = 10 * t.value + digitValue byte := by
  unfold add
  split
  · rw [value, value, Nat.mul_add, Nat.mul_left_comm, Nat.add_assoc]
  · rw [value, Nat.mul_comm]

theorem value_foldl (t : Tally) (text : Bytes) :
    (text.foldl add t).value = text.foldl (fun n byte => 10 * n + digitValue byte) t.value := by
  induction text generalizing t with
  | nil => rfl
  | cons byte rest ih => rw [List.foldl_cons, ih, value_add, List.foldl_cons]

end Tally

/-- The number that a text of digits stands for. -/
def ofDigits (text : Bytes) : Nat := (text.foldl Tally.add {}).value

/-- The quotient `num / den` rounded to the nearest whole number, a half to the even one. -/
def roundDiv (num den : Nat) : Nat :=
  let floor := num / den
  let twice := 2 * (num % den)
  if twice < den ∨ (twice = den ∧ floor % 2 = 0) then floor else floor + 1

/-- The number `coefficient · 10 ^ exponent`. -/
structure Decimal where
  coefficient : Nat
  exponent : Int
deriving DecidableEq, Repr

namespace Decimal

def numerator (d : Decimal) : Nat := d.coefficient * Nat.pow 10 d.exponent.toNat

/-- The power of ten below a decimal. -/
def denominator (d : Decimal) : Nat := Nat.pow 10 (-d.exponent).toNat

/-- Digits without the zeros at their end. -/
def trim (digits : Bytes) : Bytes := (digits.reverse.dropWhile (· == zeroDigit)).reverse

/-- A fraction with its point; nothing when no digit is left of it. -/
def fraction (digits : Bytes) : Bytes :=
  match trim digits with
  | [] => []
  | kept => point :: kept

/-- An exponent with its sign and at least two digits. -/
def exponentPart (order : Int) : Bytes :=
  let size := digits order.natAbs
  ascii (if order < 0 then "e-" else "e+") ++ List.replicate (2 - size.length) zeroDigit ++ size

/-- General notation of a decimal with `precision` digits. Its first digit stands for
`10 ^ order`; the notation is scientific when `order < -4` or `precision ≤ order`. -/
def general (precision : Nat) (d : Decimal) : Bytes :=
  let order := d.exponent + precision - 1
  let figures := digits d.coefficient
  if order < -4 ∨ (precision : Int) ≤ order then
    figures.take 1 ++ fraction (figures.drop 1) ++ exponentPart order
  else if 0 ≤ order then
    figures.take (order.toNat + 1) ++ fraction (figures.drop (order.toNat + 1))
  else
    zeroDigit :: fraction (List.replicate (-order - 1).toNat zeroDigit ++ figures)

end Decimal

theorem toNat_asciiByte_of_isDigit {c : Char} (h : c.isDigit) :
    (asciiByte c).toNat = c.toNat := by
  have bounds : 48 ≤ c.toNat ∧ c.toNat ≤ 57 := by
    simp only [Char.isDigit, Bool.and_eq_true, decide_eq_true_eq] at h
    exact ⟨h.1, h.2⟩
  exact Nat.mod_eq_of_lt (by omega)

/-- Each digit is worth ten times the one behind it. -/
theorem ofDigits_eq_foldl (text : Bytes) :
    ofDigits text = text.foldl (fun n byte => 10 * n + digitValue byte) 0 :=
  Tally.value_foldl {} text

theorem ofDigits_map_asciiByte {cs : List Char} (h : ∀ c ∈ cs, c.isDigit) :
    ofDigits (cs.map asciiByte) = Nat.ofDigitChars 10 cs 0 := by
  rw [ofDigits_eq_foldl, List.foldl_map, Nat.ofDigitChars_eq_foldl]
  generalize (0 : Nat) = start
  induction cs generalizing start with
  | nil => rfl
  | cons c cs ih =>
    simp only [List.foldl_cons, digitValue]
    rw [toNat_asciiByte_of_isDigit (h c (by simp))]
    exact ih (fun c hc => h c (by simp [hc])) _

/-- Digits are read back as the number they were written for. -/
theorem ofDigits_digits (n : Nat) : ofDigits (digits n) = n := by
  rw [digits, ofDigits_map_asciiByte fun c hc => Nat.isDigit_of_mem_toDigits (by decide) (by decide) hc]
  exact Nat.ofDigitChars_ten_toDigits

end Calculator
