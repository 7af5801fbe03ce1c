import Calculator.Number

/-!
Expression trees. A parsed expression is made of literals and binary nodes with one of five
operators; trees built by hand may also lack a child, hold a node of no known kind, or carry any
byte as an operator. Equality of trees compares shapes, operators and the values of literals.
-/

namespace Calculator

inductive Operator
  | add
  | sub
  | mul
  | div
  | pow
deriving DecidableEq, Repr

namespace Operator

/-- The byte that stands for an operator in trees and texts. -/
def symbol : Operator → UInt8
  | add => asciiByte '+'
  | sub => asciiByte '-'
  | mul => asciiByte '*'
  | div => asciiByte '/'
  | pow => asciiByte '^'

def ofSymbol? (symbol : UInt8) : Option Operator :=
  [add, sub, mul, div, pow].find? fun op => op.symbol == symbol

end Operator

/-- `missing` is the absence of a child, `unknown` a node of no known kind. -/
inductive Tree
  | missing
  | unknown
  | literal (value : Number)
  | binary (symbol : UInt8) (left right : Tree)
deriving DecidableEq

namespace Tree

instance : Inhabited Tree := ⟨missing⟩

/-- The number of nodes on the longest path to a leaf. -/
def height : Tree → Nat
  | missing => 0
  | unknown | literal _ => 1
  | binary _ left right => max left.height right.height + 1

/-- Equality of trees, which tells whole numbers from doubles and finds no nan equal to itself. -/
def agrees : Tree → Tree → Bool
  | missing, missing | unknown, unknown => true
  | literal a, literal b => a.agrees b
  | binary s a b, binary t c d => s == t && a.agrees c && b.agrees d
  | _, _ => false

/-- A tree together with its height, so that no height is counted twice while a tree grows. -/
structure Measured where
  tree : Tree
  height : Nat
  height_eq : height = tree.height

namespace Measured

def missing : Measured := ⟨.missing, 0, rfl⟩

/-- A node of no known kind has no value. It is taken to keep the documented height of a node on its
own, which is 1. -/
def unknown : Measured := ⟨.unknown, 1, rfl⟩

def literal (value : Number) : Measured := ⟨.literal value, 1, rfl⟩

def binary (symbol : UInt8) (left right : Measured) : Measured where
  tree := .binary symbol left.tree right.tree
  height := max left.height right.height + 1
  height_eq := by rw [left.height_eq, right.height_eq, Tree.height]

theorem ext_tree {a b : Measured} (h : a.tree = b.tree) : a = b := by
  obtain ⟨tree, height, height_eq⟩ := a
  obtain ⟨_, _, height_eq'⟩ := b
  cases h
  cases height_eq
  cases height_eq'
  rfl

instance : DecidableEq Measured := fun a b =>
  decidable_of_iff (a.tree = b.tree) ⟨ext_tree, fun h => h ▸ rfl⟩

end Measured

end Tree

end Calculator
