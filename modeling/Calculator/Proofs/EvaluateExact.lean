import Calculator.Proofs.Answer
import Calculator.Proofs.CheckedExact
import Calculator.Tree.Evaluate

/-!
Whole results are exact. A tree has a whole value if and only if it is made of words, sums,
differences and products alone and each of its subtrees, worked out over the unbounded whole
numbers, stays among the words; the value is then the unbounded one. One subtree beyond the words
makes the value a double, also where the unbounded value of the whole tree is a word again.
-/

namespace Calculator

namespace Operator

/-- The operation over the whole numbers, for the operators that do not leave them. -/
def onIntegers : Operator → Option (Int → Int → Int)
  | add => some (· + ·)
  | sub => some (· - ·)
  | mul => some (· * ·)
  | div | pow => none

@[simp]
theorem ofSymbol?_symbol (op : Operator) : ofSymbol? op.symbol = some op := by
  cases op <;> rfl

theorem symbol_of_ofSymbol? {symbol : UInt8} {op : Operator} (h : ofSymbol? symbol = some op) :
    symbol = op.symbol := by
  have hfound := List.find?_some h
  exact (eq_of_beq hfound).symm

theorem onWords_eq_some_iff {op : Operator} {a b n : Int64} :
    op.onWords a b = some n ↔ ∃ f, op.onIntegers = some f ∧ n.toInt = f a.toInt b.toInt := by
  cases op with
  | add => simp [onWords, onIntegers, Checked.add?_eq_some_iff]
  | sub => simp [onWords, onIntegers, Checked.sub?_eq_some_iff]
  | mul => simp [onWords, onIntegers, Checked.mul?_eq_some_iff]
  | div | pow => simp [onWords, onIntegers]

/-- A result is whole only where both operands are and the operation does not leave the words. -/
theorem apply_eq_whole_iff {op : Operator} {a b : Number} {n : Int64} :
    op.apply a b = .ok (.whole n) ↔
      ∃ x y, a = .whole x ∧ b = .whole y ∧ op.onWords x y = some n := by
  have hdiv : ∀ x y, div.onWords x y = none := fun _ _ => rfl
  unfold apply
  split
  · rename_i hzero
    refine ⟨fun h => by simp at h, ?_⟩
    rintro ⟨x, y, -, -, hwords⟩
    rw [hzero.1, hdiv] at hwords
    simp at hwords
  · cases a with
    | real => simp [onNumbers]
    | whole x =>
        cases b with
        | real => simp [onNumbers]
        | whole y => cases hwords : op.onWords x y <;> simp [onNumbers, hwords]

end Operator

namespace Tree

/-- The nodes of a tree, each with everything below it. -/
def subtrees : Tree → List Tree
  | missing => []
  | unknown => [unknown]
  | literal value => [literal value]
  | binary symbol left right => binary symbol left right :: (left.subtrees ++ right.subtrees)

/-- Trees of words joined by sums, differences and products, with no child missing. -/
inductive Integral : Tree → Prop
  | literal (n : Int64) : Integral (.literal (.whole n))
  | binary (op : Operator) {left right : Tree} (hop : op ∈ [Operator.add, .sub, .mul])
      (hleft : Integral left) (hright : Integral right) : Integral (.binary op.symbol left right)

/-- The value of an integral tree over the unbounded whole numbers. -/
def exactValue : Tree → Int
  | literal (.whole n) => n.toInt
  | binary symbol left right =>
    match (Operator.ofSymbol? symbol).bind Operator.onIntegers with
    | some f => f left.exactValue right.exactValue
    | none => 0
  | _ => 0

/-- A tree whose exact value and those of all trees below it are words. -/
def StaysAmongWords (tree : Tree) : Prop := ∀ subtree ∈ tree.subtrees, IsWord subtree.exactValue

theorem onIntegers_of_mem {op : Operator} (hop : op ∈ [Operator.add, .sub, .mul]) :
    ∃ f, op.onIntegers = some f := by
  simp only [List.mem_cons, List.not_mem_nil, or_false] at hop
  rcases hop with rfl | rfl | rfl <;> exact ⟨_, rfl⟩

theorem mem_of_onIntegers {op : Operator} {f : Int → Int → Int} (h : op.onIntegers = some f) :
    op ∈ [Operator.add, .sub, .mul] := by
  cases op <;> simp [Operator.onIntegers] at h ⊢

theorem exactValue_binary {op : Operator} {f : Int → Int → Int} (h : op.onIntegers = some f)
    (left right : Tree) :
    (binary op.symbol left right).exactValue = f left.exactValue right.exactValue := by
  simp [exactValue, h]

theorem staysAmongWords_binary {symbol : UInt8} {left right : Tree} :
    (binary symbol left right).StaysAmongWords ↔ IsWord (binary symbol left right).exactValue ∧
      left.StaysAmongWords ∧ right.StaysAmongWords := by
  simp only [StaysAmongWords, subtrees, List.forall_mem_cons, List.forall_mem_append]

theorem isWord_exactValue {tree : Tree} (h : tree.StaysAmongWords) : IsWord tree.exactValue := by
  cases tree with
  | missing => decide
  | unknown | literal | binary => exact h _ (by simp [subtrees])

/-- That no child is missing needs no mention, as a missing one has no value. -/
theorem evaluate_binary_eq_whole_iff {symbol : UInt8} {left right : Tree} {n : Int64} :
    (binary symbol left right).evaluate = .ok (.whole n) ↔
      ∃ (op : Operator) (x y : Int64), symbol = op.symbol ∧ left.evaluate = .ok (.whole x) ∧
        right.evaluate = .ok (.whole y) ∧ op.onWords x y = some n := by
  rw [evaluate]
  split
  · rename_i hmissing
    refine ⟨fun h => by simp at h, ?_⟩
    rintro ⟨op, x, y, -, hleft, hright, -⟩
    cases left <;> cases right <;> simp [isMissing, evaluate] at hmissing hleft hright
  · simp only [bind_eq_ok_iff]
    constructor
    · rintro ⟨a, hleft, b, hright, happly⟩
      cases hop : Operator.ofSymbol? symbol with
      | none => simp [hop] at happly
      | some op =>
          rw [hop] at happly
          obtain ⟨x, y, rfl, rfl, hwords⟩ := Operator.apply_eq_whole_iff.mp happly
          exact ⟨op, x, y, Operator.symbol_of_ofSymbol? hop, hleft, hright, hwords⟩
    · rintro ⟨op, x, y, rfl, hleft, hright, hwords⟩
      refine ⟨.whole x, hleft, .whole y, hright, ?_⟩
      rw [Operator.ofSymbol?_symbol]
      exact Operator.apply_eq_whole_iff.mpr ⟨x, y, rfl, rfl, hwords⟩

/-- The children of a whole tree have whole values, and these are exact by induction. -/
theorem evaluate_eq_whole_iff (tree : Tree) (n : Int64) :
    tree.evaluate = .ok (.whole n) ↔
      tree.Integral ∧ tree.StaysAmongWords ∧ n.toInt = tree.exactValue := by
  induction tree generalizing n with
  | missing | unknown =>
      refine ⟨fun h => by simp [evaluate] at h, ?_⟩
      rintro ⟨hintegral, -⟩
      cases hintegral
  | literal value =>
      cases value with
      | real x =>
          refine ⟨fun h => by simp [evaluate] at h, ?_⟩
          rintro ⟨hintegral, -⟩
          cases hintegral
      | whole m =>
          have hword : (literal (.whole m)).StaysAmongWords := by
            simp only [StaysAmongWords, subtrees, List.forall_mem_singleton]
            exact isWord_toInt m
          simp only [evaluate, Except.ok.injEq, Number.whole.injEq, exactValue, hword, true_and,
            Integral.literal m, Int64.toInt_inj, eq_comm]
  | binary symbol left right ihl ihr =>
      rw [evaluate_binary_eq_whole_iff]
      constructor
      · rintro ⟨op, x, y, rfl, hleft, hright, hwords⟩
        obtain ⟨f, hf, hn⟩ := Operator.onWords_eq_some_iff.mp hwords
        obtain ⟨hintegralLeft, hstaysLeft, hx⟩ := (ihl x).mp hleft
        obtain ⟨hintegralRight, hstaysRight, hy⟩ := (ihr y).mp hright
        have hexact : n.toInt = (binary op.symbol left right).exactValue := by
          rw [exactValue_binary hf, hn, hx, hy]
        refine ⟨.binary op (mem_of_onIntegers hf) hintegralLeft hintegralRight, ?_, hexact⟩
        exact staysAmongWords_binary.mpr ⟨hexact ▸ isWord_toInt n, hstaysLeft, hstaysRight⟩
      · rintro ⟨hintegral, hstays, hn⟩
        obtain ⟨-, hstaysLeft, hstaysRight⟩ := staysAmongWords_binary.mp hstays
        cases hintegral with
        | binary op hop hintegralLeft hintegralRight =>
            obtain ⟨f, hf⟩ := onIntegers_of_mem hop
            obtain ⟨x, hx⟩ := exists_toInt_eq_iff.mpr (isWord_exactValue hstaysLeft)
            obtain ⟨y, hy⟩ := exists_toInt_eq_iff.mpr (isWord_exactValue hstaysRight)
            refine ⟨op, x, y, rfl, (ihl x).mpr ⟨hintegralLeft, hstaysLeft, hx⟩,
              (ihr y).mpr ⟨hintegralRight, hstaysRight, hy⟩, ?_⟩
            refine Operator.onWords_eq_some_iff.mpr ⟨f, hf, ?_⟩
            rw [hn, exactValue_binary hf, hx, hy]

theorem Integral.exists_evaluate {tree : Tree} (h : tree.Integral) :
    ∃ value, tree.evaluate = .ok value := by
  induction h with
  | literal n => exact ⟨_, rfl⟩
  | binary op hop hleft hright ihl ihr =>
      obtain ⟨a, ha⟩ := ihl
      obtain ⟨b, hb⟩ := ihr
      have hdiv : op ≠ .div := by
        rintro rfl
        simp at hop
      refine ⟨op.onNumbers a b, ?_⟩
      rw [evaluate, if_neg (by cases hleft <;> cases hright <;> simp [isMissing]), ha, hb]
      simp [Operator.apply, hdiv]

/-- Whole values are exact, and integral trees lose them only to a subtree beyond the words. -/
theorem evaluate_whole_iff_exact (tree : Tree) :
    (∀ n, tree.evaluate = .ok (.whole n) ↔
      tree.Integral ∧ tree.StaysAmongWords ∧ n.toInt = tree.exactValue) ∧
    ((∃ n, tree.evaluate = .ok (.whole n)) ↔ tree.Integral ∧ tree.StaysAmongWords) ∧
    (tree.Integral → ¬tree.StaysAmongWords → ∃ x, tree.evaluate = .ok (.real x)) := by
  refine ⟨evaluate_eq_whole_iff tree, ?_, ?_⟩
  · constructor
    · rintro ⟨n, hn⟩
      obtain ⟨hintegral, hstays, -⟩ := (evaluate_eq_whole_iff tree n).mp hn
      exact ⟨hintegral, hstays⟩
    · rintro ⟨hintegral, hstays⟩
      obtain ⟨n, hn⟩ := exists_toInt_eq_iff.mpr (isWord_exactValue hstays)
      exact ⟨n, (evaluate_eq_whole_iff tree n).mpr ⟨hintegral, hstays, hn⟩⟩
  · intro hintegral hbeyond
    obtain ⟨value, hvalue⟩ := hintegral.exists_evaluate
    cases value with
    | real x => exact ⟨x, hvalue⟩
    | whole n => exact absurd ((evaluate_eq_whole_iff tree n).mp hvalue).2.1 hbeyond

/-- The greatest word and one, less one. -/
def beyondAndBack : Tree :=
  binary 0x2D (binary 0x2B (literal (.whole 0x7FFFFFFFFFFFFFFF)) (literal (.whole 1)))
    (literal (.whole 1))

/-- The exact value is a word, yet the sum on the way to it is none. -/
theorem evaluate_beyondAndBack :
    beyondAndBack.Integral ∧ ¬beyondAndBack.StaysAmongWords ∧ IsWord beyondAndBack.exactValue ∧
      ∃ x, beyondAndBack.evaluate = .ok (.real x) := by
  have hsum : (binary 0x2B (literal (.whole 0x7FFFFFFFFFFFFFFF)) (literal (.whole 1))).Integral :=
    .binary .add (by decide) (.literal _) (.literal _)
  have hintegral : beyondAndBack.Integral :=
    .binary .sub (by decide) hsum (.literal _)
  have hbeyond : ¬beyondAndBack.StaysAmongWords := by
    intro hstays
    have hword := hstays _ (List.mem_cons_of_mem _ (List.mem_cons_self ..))
    exact absurd hword (by decide)
  exact ⟨hintegral, hbeyond, by decide, (evaluate_whole_iff_exact _).2.2 hintegral hbeyond⟩

end Tree

end Calculator
