import Calculator.Proofs.FloatBits
import Calculator.Proofs.ParsedTrees

/-!
The faults of trees, those built by hand among them. What can be wrong with a tree is listed in the
order in which it is met: a node of no known kind or one that lacks a child before anything below
it, an unknown operator or a divisor that is zero behind both children. The answer of a tree is the
first fault of this list, and a value if the list is empty. No fault is lost on the way up, so that
nothing beside it can hide it.
-/

namespace Calculator

namespace Number

/-- The zeros: the whole number and the doubles of either sign. -/
def IsZero (n : Number) : Prop := n = .whole 0 ∨ n = .real 0.0 ∨ n = .real (-0.0)

theorem isZero_real_iff {x : Float} : Binary64.isZero x ↔ x = 0.0 ∨ x = -0.0 := by
  have hpositive : Binary64.isNegative 0.0 = false ∧ Binary64.magnitude 0.0 = 0 := by
    decide +kernel
  have hnegative : Binary64.isNegative (-0.0) = true ∧ Binary64.magnitude (-0.0) = 0 := by
    decide +kernel
  rw [Binary64.isZero, decide_eq_true_iff]
  constructor
  · intro hzero
    cases hsign : Binary64.isNegative x with
    | false =>
        exact Or.inl (Binary64.eq_of_magnitude (hsign.trans hpositive.1.symm)
          (hzero.trans hpositive.2.symm))
    | true =>
        exact Or.inr (Binary64.eq_of_magnitude (hsign.trans hnegative.1.symm)
          (hzero.trans hnegative.2.symm))
  · rintro (rfl | rfl)
    · exact hpositive.2
    · exact hnegative.2

theorem isZero_iff {n : Number} : n.isZero ↔ n.IsZero := by
  cases n with
  | whole n => simp [isZero, IsZero]
  | real x => simp [isZero, IsZero, isZero_real_iff]

instance : DecidablePred IsZero := fun _ => decidable_of_iff _ isZero_iff

end Number

namespace Tree

variable {tree node left right : Tree} {symbol : UInt8}

/-- The nodes that stand for a number or for one of the five operations on two operands. -/
inductive IsComplete : Tree → Prop
  | literal (value : Number) : IsComplete (.literal value)
  | binary (op : Operator) {left right : Tree} (hleft : left ≠ .missing)
      (hright : right ≠ .missing) : IsComplete (.binary op.symbol left right)

/-- A tree that can be worked out, with the value zero. -/
def EvaluatesToZero (tree : Tree) : Prop := ∃ value, tree.evaluate = .ok value ∧ value.IsZero

/-- The quotients whose divisor has the value zero. -/
inductive DividesByZero : Tree → Prop
  | intro (left : Tree) {right : Tree} (h : right.EvaluatesToZero) :
      DividesByZero (.binary Operator.div.symbol left right)

theorem evaluatesToZero_iff {b : Number} (h : right.evaluate = .ok b) :
    right.EvaluatesToZero ↔ b.isZero := by
  rw [Number.isZero_iff, EvaluatesToZero, h]
  simp

instance : DecidablePred EvaluatesToZero := fun tree =>
  match h : tree.evaluate with
  | .ok _ => decidable_of_iff _ (evaluatesToZero_iff h).symm
  | .error _ => .isFalse fun ⟨_, hvalue, _⟩ => nomatch h.symm.trans hvalue

theorem isComplete_binary_iff : (binary symbol left right).IsComplete ↔
    (left ≠ .missing ∧ right ≠ .missing) ∧ ∃ op : Operator, symbol = op.symbol := by
  constructor
  · intro h
    cases h with
    | binary op hleft hright => exact ⟨⟨hleft, hright⟩, op, rfl⟩
  · rintro ⟨⟨hleft, hright⟩, op, rfl⟩
    exact .binary op hleft hright

theorem dividesByZero_binary_iff : (binary symbol left right).DividesByZero ↔
    symbol = Operator.div.symbol ∧ right.EvaluatesToZero := by
  constructor
  · intro h
    cases h with
    | intro _ hzero => exact ⟨rfl, hzero⟩
  · rintro ⟨rfl, hzero⟩
    exact .intro left hzero

/-- What is wrong with a node in front of everything below it. -/
def gapFaults (left right : Tree) : List Fault :=
  if left = .missing ∨ right = .missing then [.unknownNode] else []

/-- What is wrong with a node behind everything below it. -/
def ownFaults (symbol : UInt8) (right : Tree) : List Fault :=
  match Operator.ofSymbol? symbol with
  | none => [.unknownNode]
  | some op => if op = .div ∧ right.EvaluatesToZero then [.divisionByZero] else []

/-- All that is wrong with a tree, in the order in which it is met. -/
def faults : Tree → List Fault
  | missing | literal _ => []
  | unknown => [.unknownNode]
  | binary symbol left right =>
    gapFaults left right ++ left.faults ++ right.faults ++ ownFaults symbol right

theorem gapFaults_eq_nil_iff :
    gapFaults left right = [] ↔ left ≠ .missing ∧ right ≠ .missing := by
  rw [gapFaults, ite_eq_right_iff, ← not_or]
  simp

theorem ownFaults_eq_nil_iff (left : Tree) : ownFaults symbol right = [] ↔
    (∃ op : Operator, symbol = op.symbol) ∧ ¬(binary symbol left right).DividesByZero := by
  rw [dividesByZero_binary_iff, ownFaults]
  cases hop : Operator.ofSymbol? symbol with
  | none =>
      refine ⟨fun h => by simp at h, ?_⟩
      rintro ⟨⟨op, rfl⟩, -⟩
      simp at hop
  | some op =>
      have hsymbol : op.symbol = Operator.div.symbol ↔ op = .div := by
        refine ⟨fun h => ?_, fun h => congrArg _ h⟩
        have hfound := congrArg Operator.ofSymbol? h
        simpa using hfound
      rw [Operator.symbol_of_ofSymbol? hop, hsymbol]
      simp

/-- Nothing is wrong with a tree exactly when nothing is wrong with any of its nodes. -/
theorem faults_eq_nil_iff {tree : Tree} :
    tree.faults = [] ↔ ∀ node ∈ tree.subtrees, node.IsComplete ∧ ¬node.DividesByZero := by
  induction tree with
  | missing => exact ⟨fun _ _ h => absurd h List.not_mem_nil, fun _ => rfl⟩
  | unknown =>
      refine ⟨(nomatch ·), fun h => ?_⟩
      cases (h unknown List.mem_cons_self).1
  | literal value =>
      refine ⟨fun _ node hnode => ?_, fun _ => rfl⟩
      rw [List.mem_singleton.mp hnode]
      exact ⟨.literal value, (nomatch ·)⟩
  | binary symbol left right ihleft ihright =>
      rw [subtrees, List.forall_mem_cons, List.forall_mem_append, ← ihleft, ← ihright, faults,
        List.append_eq_nil_iff, List.append_eq_nil_iff, List.append_eq_nil_iff,
        gapFaults_eq_nil_iff, ownFaults_eq_nil_iff left, isComplete_binary_iff]
      tauto

theorem evaluate_of_gap (h : left = .missing ∨ right = .missing) :
    (binary symbol left right).evaluate = .error .unknownNode := by
  rw [evaluate, if_pos]
  rcases h with rfl | rfl
  · rfl
  · exact Bool.or_true _

/-- Whether a node whose operands have values has one as well does not depend on the left one. -/
theorem operate_cases {b : Number} (hb : right.evaluate = .ok b) (a : Number) :
    (∃ value, operate symbol a b = .ok value ∧ ownFaults symbol right = []) ∨
      ∃ fault, operate symbol a b = .error fault ∧ ownFaults symbol right = [fault] := by
  rw [operate, ownFaults]
  cases Operator.ofSymbol? symbol with
  | none => exact Or.inr ⟨_, rfl, rfl⟩
  | some op =>
      simp only [evaluatesToZero_iff hb, Operator.apply]
      split
      · exact Or.inr ⟨_, rfl, rfl⟩
      · exact Or.inl ⟨_, rfl, rfl⟩

/-- A tree has a value if nothing is wrong with it, and its answer is the first fault otherwise. The
induction carries both, as whether a divisor is zero only counts where it has a value. -/
theorem evaluate_cases {tree : Tree} (h : tree ≠ .missing) :
    (∃ value, tree.evaluate = .ok value ∧ tree.faults = []) ∨
      ∃ fault rest, tree.evaluate = .error fault ∧ tree.faults = fault :: rest := by
  induction tree with
  | missing => exact absurd rfl h
  | unknown => exact Or.inr ⟨_, _, rfl, rfl⟩
  | literal value => exact Or.inl ⟨value, rfl, rfl⟩
  | binary symbol left right ihleft ihright =>
      by_cases hgap : left = .missing ∨ right = .missing
      · right
        rw [evaluate_of_gap hgap, faults, gapFaults, if_pos hgap]
        exact ⟨_, _, rfl, rfl⟩
      · obtain ⟨hleft, hright⟩ := not_or.mp hgap
        rw [evaluate_of_children hleft hright, faults, gapFaults, if_neg hgap, List.nil_append]
        rcases ihleft hleft with ⟨a, ha, hnone⟩ | ⟨fault, rest, ha, hfaults⟩
        · rw [ha, hnone, ok_bind, List.nil_append]
          rcases ihright hright with ⟨b, hb, hnone⟩ | ⟨fault, rest, hb, hfaults⟩
          · rw [hb, hnone, ok_bind, List.nil_append]
            rcases operate_cases hb a with hvalue | ⟨fault, hfault, hfaults⟩
            · exact Or.inl hvalue
            · exact Or.inr ⟨fault, [], hfault, hfaults⟩
          · rw [hb, hfaults]
            exact Or.inr ⟨fault, _, rfl, rfl⟩
        · rw [ha, hfaults]
          exact Or.inr ⟨fault, _, rfl, rfl⟩

theorem evaluate_eq_ok_iff (h : tree ≠ .missing) :
    (∃ value, tree.evaluate = .ok value) ↔ tree.faults = [] := by
  rcases evaluate_cases h with ⟨value, hvalue, hnone⟩ | ⟨fault, rest, hfault, hfaults⟩
  · rw [hvalue, hnone]
    simp
  · rw [hfault, hfaults]
    simp

theorem evaluate_eq_error_iff (h : tree ≠ .missing) {fault : Fault} :
    tree.evaluate = .error fault ↔ tree.faults.head? = some fault := by
  rcases evaluate_cases h with ⟨value, hvalue, hnone⟩ | ⟨found, rest, hfound, hfaults⟩
  · rw [hvalue, hnone]
    simp
  · rw [hfound, hfaults]
    simp

/-- What is wrong with a part of a tree is wrong with the tree. -/
theorem faults_sublist (h : node ∈ tree.subtrees) : node.faults.Sublist tree.faults := by
  induction tree with
  | missing => cases h
  | unknown | literal => rw [List.mem_singleton.mp h]
  | binary symbol left right ihleft ihright =>
      rw [subtrees, List.mem_cons, List.mem_append] at h
      rcases h with rfl | hleft | hright
      · exact List.Sublist.refl _
      · rw [faults, List.append_assoc, List.append_assoc]
        exact (ihleft hleft).trans
          ((List.sublist_append_left _ _).trans (List.sublist_append_right _ _))
      · rw [faults, List.append_assoc]
        exact (ihright hright).trans
          ((List.sublist_append_left _ _).trans (List.sublist_append_right _ _))

theorem ne_missing_of_mem_subtrees (h : node ∈ tree.subtrees) : node ≠ .missing := by
  rintro rfl
  induction tree with
  | missing | unknown | literal => simp [subtrees] at h
  | binary symbol left right ihleft ihright =>
      rw [subtrees, List.mem_cons, List.mem_append] at h
      rcases h with h | h | h
      · cases h
      · exact ihleft h
      · exact ihright h

/-- A part that fails has a fault, which is among those of the tree. -/
theorem exists_fault_of_mem_subtrees {fault : Fault} (h : tree ≠ .missing)
    (hnode : node ∈ tree.subtrees) (hfault : node.evaluate = .error fault) :
    ∃ found, tree.evaluate = .error found := by
  have hhead := (evaluate_eq_error_iff (ne_missing_of_mem_subtrees hnode)).mp hfault
  have hsublist := faults_sublist hnode
  cases hfaults : tree.faults with
  | nil =>
      rw [hfaults, List.sublist_nil] at hsublist
      rw [hsublist] at hhead
      cases hhead
  | cons found rest => exact ⟨found, (evaluate_eq_error_iff h).mpr (by rw [hfaults]; rfl)⟩

/-- A tree has a value if and only if each of its nodes is a literal or one of the five operations
on two operands and no divisor has the value zero. Its answer is otherwise the first fault of all
that is wrong with it, and no part of it that fails can be hidden by what stands beside it. -/
theorem evaluate_faults (h : tree ≠ .missing) :
    ((∃ value, tree.evaluate = .ok value) ↔
      ∀ node ∈ tree.subtrees, node.IsComplete ∧ ¬node.DividesByZero) ∧
    (∀ fault, tree.evaluate = .error fault ↔ tree.faults.head? = some fault) ∧
    ∀ node ∈ tree.subtrees, ∀ fault, node.evaluate = .error fault →
      ∃ found, tree.evaluate = .error found :=
  ⟨(evaluate_eq_ok_iff h).trans faults_eq_nil_iff, fun _ => evaluate_eq_error_iff h,
    fun _ hnode _ hfault => exists_fault_of_mem_subtrees h hnode hfault⟩

/-- A factor that is zero hides neither the quotient by a negative zero nor the unknown operator
behind it. -/
theorem evaluate_faults_zeroFactor :
    let quotient := binary Operator.div.symbol (.literal (.whole 1)) (.literal (.real (-0.0)))
    let product := binary Operator.mul.symbol (.literal (.whole 0)) (binary 0 quotient .unknown)
    product ≠ .missing ∧ product.faults = [.divisionByZero, .unknownNode, .unknownNode] ∧
      product.evaluate = .error .divisionByZero := by
  intro quotient product
  have hfaults : product.faults = [.divisionByZero, .unknownNode, .unknownNode] := by
    decide +kernel
  have hproduct : product ≠ .missing := nofun
  exact ⟨hproduct, hfaults, ((evaluate_faults hproduct).2.1 _).mpr (by rw [hfaults]; rfl)⟩

end Tree

end Calculator
