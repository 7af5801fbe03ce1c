import Calculator.Fault
import Calculator.Tree

/-!
The value of a tree. Sums, differences and products of whole numbers stay whole while they fit into
a word; everything else is worked out on doubles. Operands come before their operator, the left
one first, and the first fault met in this order is the fault of the tree.
-/

namespace Calculator

namespace Operator

/-- The exact operation on words, for the operators that have one and results that fit. -/
def onWords : Operator → Int64 → Int64 → Option Int64
  | add, a, b => Checked.add? a b
  | sub, a, b => Checked.sub? a b
  | mul, a, b => Checked.mul? a b
  | div, _, _ | pow, _, _ => none

def onFloats : Operator → Float → Float → Float
  | add, x, y => x + y
  | sub, x, y => x - y
  | mul, x, y => x * y
  | div, x, y => x / y
  | pow, x, y => x ^ y

/-- The operation on numbers: on words when both operands are words and the result is one too, on
doubles otherwise. -/
def onNumbers (op : Operator) (a b : Number) : Number :=
  let rounded := Number.real (op.onFloats a.toFloat b.toFloat)
  match a, b with
  | .whole m, .whole n => (op.onWords m n).elim rounded .whole
  | _, _ => rounded

/-- Applies an operator; a quotient by zero has no value. -/
def apply (op : Operator) (a b : Number) : Except Fault Number :=
  if op = div ∧ b.isZero then .error .divisionByZero else .ok (op.onNumbers a b)

end Operator

namespace Tree

def isMissing : Tree → Bool
  | missing => true
  | _ => false

/-- The value of a tree, or its first fault. A missing child is found before either child is worked
out, an unknown operator after both. -/
def evaluate : Tree → Except Fault Number
  | missing | unknown => .error .unknownNode
  | literal value => .ok value
  | binary symbol left right =>
    if left.isMissing || right.isMissing then .error .unknownNode
    else do
      let a ← left.evaluate
      let b ← right.evaluate
      match Operator.ofSymbol? symbol with
      | none => .error .unknownNode
      | some op => op.apply a b

end Tree

end Calculator
