import Calculator.Proofs.EvaluateExact
import Calculator.Proofs.Parenthesised
import Calculator.Proofs.StageFaults
import Mathlib.Order.Bounds.Basic

/-!
The trees that parsing can give. Each of their nodes is a literal or joins two trees by one of the
five operators, and the height that it was given is the length of a longest path from it down to a
leaf. Working out such a tree can only fail at a division by zero.
-/

namespace Calculator

namespace Tree

/-- The nodes on a path from the root of a tree down to a leaf. -/
inductive LeadsDown : Tree → List Tree → Prop
  | unknown : LeadsDown .unknown [.unknown]
  | literal (value : Number) : LeadsDown (.literal value) [.literal value]
  | childless (symbol : UInt8) :
      LeadsDown (.binary symbol .missing .missing) [.binary symbol .missing .missing]
  | left {symbol : UInt8} {left right : Tree} {path : List Tree} (h : LeadsDown left path) :
      LeadsDown (.binary symbol left right) (.binary symbol left right :: path)
  | right {symbol : UInt8} {left right : Tree} {path : List Tree} (h : LeadsDown right path) :
      LeadsDown (.binary symbol left right) (.binary symbol left right :: path)

theorem LeadsDown.length_le {tree : Tree} {path : List Tree} (h : tree.LeadsDown path) :
    path.length ≤ tree.height := by
  induction h with
  | unknown | literal | childless => exact Nat.le_refl 1
  | left h ih => exact Nat.succ_le_succ (ih.trans (Nat.le_max_left _ _))
  | right h ih => exact Nat.succ_le_succ (ih.trans (Nat.le_max_right _ _))

/-- Every tree has a path of its height, which goes on in the higher one of two children. -/
theorem exists_leadsDown {tree : Tree} (h : tree ≠ .missing) :
    ∃ path, tree.LeadsDown path ∧ path.length = tree.height := by
  induction tree with
  | missing => exact absurd rfl h
  | unknown => exact ⟨_, .unknown, rfl⟩
  | literal value => exact ⟨_, .literal value, rfl⟩
  | binary symbol left right ihleft ihright =>
      by_cases hnone : left = .missing ∧ right = .missing
      · obtain ⟨rfl, rfl⟩ := hnone
        exact ⟨_, .childless symbol, rfl⟩
      · rcases Nat.le_total right.height left.height with hle | hle
        · have hleft : left ≠ .missing := by
            rintro rfl
            refine hnone ⟨rfl, ?_⟩
            cases right with
            | missing => rfl
            | unknown | literal | binary => simp [height] at hle
          obtain ⟨path, hpath, hlength⟩ := ihleft hleft
          refine ⟨_, .left hpath, ?_⟩
          rw [List.length_cons, height, hlength, Nat.max_eq_left hle]
        · have hright : right ≠ .missing := by
            rintro rfl
            refine hnone ⟨?_, rfl⟩
            cases left with
            | missing => rfl
            | unknown | literal | binary => simp [height] at hle
          obtain ⟨path, hpath, hlength⟩ := ihright hright
          refine ⟨_, .right hpath, ?_⟩
          rw [List.length_cons, height, hlength, Nat.max_eq_right hle]

/-- The height of a tree is the length of its longest paths. -/
theorem isGreatest_height {tree : Tree} (h : tree ≠ .missing) :
    IsGreatest {n | ∃ path, tree.LeadsDown path ∧ path.length = n} tree.height := by
  refine ⟨exists_leadsDown h, ?_⟩
  rintro _ ⟨path, hpath, rfl⟩
  exact hpath.length_le

end Tree

/-- An operator between two numbers gives a value, unless it divides by zero. -/
theorem Operator.apply_cases (op : Operator) (a b : Number) :
    (∃ value, op.apply a b = .ok value) ∨ op.apply a b = .error .divisionByZero := by
  rw [apply]
  split
  · exact Or.inr rfl
  · exact Or.inl ⟨_, rfl⟩

namespace Tree

variable {tree left right : Tree} {symbol : UInt8}

theorem IsWritable.ne_missing (h : tree.IsWritable) : tree ≠ .missing := by
  rintro rfl
  cases h

/-- What a node answers once its operands have values. -/
def operate (symbol : UInt8) (a b : Number) : Except Fault Number :=
  match Operator.ofSymbol? symbol with
  | none => .error .unknownNode
  | some op => op.apply a b

theorem evaluate_of_children (hleft : left ≠ .missing) (hright : right ≠ .missing) :
    (binary symbol left right).evaluate = (do
      let a ← left.evaluate
      let b ← right.evaluate
      operate symbol a b) := by
  rw [evaluate, if_neg]
  · rfl
  · cases left <;> cases right <;> simp_all [isMissing]

theorem evaluate_binary (op : Operator) (hleft : left ≠ .missing) (hright : right ≠ .missing) :
    (binary op.symbol left right).evaluate = (do
      let a ← left.evaluate
      let b ← right.evaluate
      op.apply a b) := by
  rw [evaluate_of_children hleft hright]
  simp only [operate, Operator.ofSymbol?_symbol]

/-- The first fault of an operand is the fault of the tree, so the induction carries over that there
is none but a division by zero. -/
theorem IsWritable.evaluate_cases (h : tree.IsWritable) :
    (∃ value, tree.evaluate = .ok value) ∨ tree.evaluate = .error .divisionByZero := by
  induction h with
  | literal => exact Or.inl ⟨_, rfl⟩
  | binary op hleft hright ihleft ihright =>
      rw [evaluate_binary op hleft.ne_missing hright.ne_missing]
      rcases ihleft with ⟨a, ha⟩ | ha
      · rw [ha, ok_bind]
        rcases ihright with ⟨b, hb⟩ | hb
        · rw [hb, ok_bind]
          exact op.apply_cases a b
        · exact Or.inr (by rw [hb, error_bind])
      · exact Or.inr (by rw [ha, error_bind])

namespace Measured

/-- The nodes of a measured tree, each with the height it was given. -/
inductive IsNodeOf (node : Measured) : Measured → Prop
  | here : IsNodeOf node node
  | left {symbol : UInt8} {left right : Measured} (h : IsNodeOf node left) :
      IsNodeOf node (.binary symbol left right)
  | right {symbol : UInt8} {left right : Measured} (h : IsNodeOf node right) :
      IsNodeOf node (.binary symbol left right)

theorem IsNodeOf.height_le {node tree : Measured} (h : node.IsNodeOf tree) :
    node.height ≤ tree.height := by
  induction h with
  | here => exact Nat.le_refl _
  | left h ih => exact ih.trans (Nat.le_succ_of_le (Nat.le_max_left _ _))
  | right h ih => exact ih.trans (Nat.le_succ_of_le (Nat.le_max_right _ _))

theorem IsNodeOf.isWritable {node tree : Measured} (h : node.IsNodeOf tree)
    (htree : tree.tree.IsWritable) : node.tree.IsWritable := by
  induction h with
  | here => exact htree
  | left h ih =>
      cases htree with
      | binary op hleft hright => exact ih hleft
  | right h ih =>
      cases htree with
      | binary op hleft hright => exact ih hright

/-- What holds of the nodes of parsed trees: no child is missing, no node or operator is unknown,
and the height that a node was given is that of its longest paths and within the limit. -/
structure WellFormed (node : Measured) : Prop where
  complete : (∃ value, node = .literal value) ∨ ∃ op left right,
    node = .binary (Operator.symbol op) left right ∧ left ≠ .missing ∧ right ≠ .missing
  longest : IsGreatest {n | ∃ path, node.tree.LeadsDown path ∧ path.length = n} node.height
  bounded : node.height ≤ limit

theorem wellFormed_of_isWritable {node : Measured} (h : node.tree.IsWritable)
    (hheight : node.height ≤ limit) : node.WellFormed where
  complete := by
    obtain ⟨tree, height, height_eq⟩ := node
    cases h with
    | @literal value => exact Or.inl ⟨value, ext_tree rfl⟩
    | @binary op a b hleft hright =>
        refine Or.inr ⟨op, a.measured, b.measured, ext_tree rfl, ?_, ?_⟩
        · exact fun hmissing => hleft.ne_missing (congrArg Measured.tree hmissing)
        · exact fun hmissing => hright.ne_missing (congrArg Measured.tree hmissing)
  longest := by
    rw [node.height_eq]
    exact Tree.isGreatest_height h.ne_missing
  bounded := hheight

end Measured

end Tree

/-- The tree of a text has a value unless it divides by zero. -/
theorem fault_cases_of_calculate {text : Bytes} {fault : Fault}
    (h : calculate text = .error fault) :
    tokenize text = .error fault ∨ fault.OfGrammar ∨ fault = .divisionByZero := by
  rcases fault_of_calculate h with hlexical | hgrammar | ⟨tree, hparse, hvalue⟩
  · exact Or.inl hlexical
  · exact Or.inr (Or.inl hgrammar)
  · rcases (isWritable_of_parse hparse).evaluate_cases with ⟨value, hcases⟩ | hcases
    · rw [hvalue] at hcases
      cases hcases
    · rw [hvalue] at hcases
      exact Or.inr (Or.inr (Except.error.inj hcases))

/-- All nodes of a parsed tree are well formed. Its value can only fail at a division by zero, so no
calculation ends at an unknown node. -/
theorem parsed_nodes_wellFormed (text : Bytes) :
    (∀ tree, (Parser.ofText text).parse.1 = .ok tree →
      (∀ node : Tree.Measured, node.IsNodeOf tree → node.WellFormed) ∧
      ((∃ value, tree.tree.evaluate = .ok value) ∨
        tree.tree.evaluate = .error .divisionByZero)) ∧
    calculate text ≠ .error .unknownNode := by
  constructor
  · intro tree htree
    have hparse : parse text = .ok tree := (Parser.ofText text).parse_eq.symm.trans htree
    have hwritable := isWritable_of_parse hparse
    refine ⟨?_, hwritable.evaluate_cases⟩
    intro node hnode
    have hheight := (Script.parse_eq_ok (fun _ => Script.isSpelled_of_mem_ofText) hparse).2.1
    exact Tree.Measured.wellFormed_of_isWritable (hnode.isWritable hwritable)
      (hnode.height_le.trans hheight)
  · intro h
    rcases fault_cases_of_calculate h with hlexical | hgrammar | hzero
    · obtain ⟨i, -, hfault⟩ := lexical_of_tokenize hlexical
      cases hfault
    · cases hgrammar
    · cases hzero

/-- The product is implicit, and its right operand has no value. -/
theorem parsed_nodes_zeroQuotient :
    ∃ tree, (Parser.ofText (ascii "2(1/0)")).parse.1 = .ok tree ∧
      (∀ node : Tree.Measured, node.IsNodeOf tree → node.WellFormed) ∧
      ((∃ value, tree.tree.evaluate = .ok value) ∨
        tree.tree.evaluate = .error .divisionByZero) := by
  have hparse : (Parser.ofText (ascii "2(1/0)")).parse.1 =
      .ok (Tree.binary Operator.mul.symbol (.literal (.whole 2))
        (.binary Operator.div.symbol (.literal (.whole 1)) (.literal (.whole 0)))).measured :=
    eq_ok_of_toOption (by decide +kernel)
  exact ⟨_, hparse, (parsed_nodes_wellFormed _).1 _ hparse⟩

end Calculator
