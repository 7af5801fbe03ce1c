/-!
Sums, differences and products of words that are given only when they fit into a word. Whether
they fit is decided on words alone, before the operation is carried out.
-/

namespace Calculator.Checked

/-- The sum of two words, if it is a word. -/
def add? (a b : Int64) : Option Int64 :=
  if (0 < b ∧ Int64.maxValue - b < a) ∨ (b < 0 ∧ a < Int64.minValue - b) then none
  else some (a + b)

/-- The difference of two words, if it is a word. -/
def sub? (a b : Int64) : Option Int64 :=
  if (b < 0 ∧ Int64.maxValue + b < a) ∨ (0 < b ∧ a < Int64.minValue + b) then none
  else some (a - b)

/-- Whether a product leaves the words: the bound on the side of its sign is divided by one
factor and compared with the other. -/
def mulOverflows (a b : Int64) : Bool :=
  if 0 < a then
    if 0 < b then Int64.maxValue / b < a else b < Int64.minValue / a
  else
    if 0 < b then a < Int64.minValue / b else a != 0 && b < Int64.maxValue / a

/-- The product of two words, if it is a word. -/
def mul? (a b : Int64) : Option Int64 :=
  if mulOverflows a b then none else some (a * b)

end Calculator.Checked
