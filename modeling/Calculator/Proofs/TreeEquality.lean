import Calculator.Proofs.DocumentDecoding
import Calculator.Proofs.FloatEquality
import Calculator.Proofs.ParserAgreement
import Calculator.Proofs.PrintedNumbers
import Calculator.Proofs.TreePlaces

/-!
Equality of trees is equality of what stands at each place. It is symmetric and transitive on all
trees, but a nan, which is not equal to itself, makes a tree unequal to itself wherever it stands.
No text is parsed to such a tree, so two parses of a text give equal trees.
-/

namespace Calculator

/-- Numbers of one kind with equal values. -/
inductive Number.Equal : Number → Number → Prop
  | whole (n : Int64) : Equal (.whole n) (.whole n)
  | real {x y : Float} (h : x == y) : Equal (.real x) (.real y)

namespace Number

variable {a b c : Number}

theorem agrees_iff_equal : a.agrees b ↔ a.Equal b := by
  constructor
  · intro h
    cases a with
    | whole m =>
        cases b with
        | whole n =>
            obtain rfl := beq_iff_eq.mp h
            exact .whole m
        | real y => cases h
    | real x =>
        cases b with
        | whole n => cases h
        | real y => exact .real (Binary64.agrees_iff_beq.mp h)
  · intro h
    cases h with
    | whole n => exact beq_self_eq_true n
    | real h => exact Binary64.agrees_iff_beq.mpr h

theorem Equal.symm (h : a.Equal b) : b.Equal a := by
  cases h with
  | whole n => exact .whole n
  | real h =>
      apply Equal.real
      rwa [← Binary64.agrees_iff_beq, Binary64.agrees_comm, Binary64.agrees_iff_beq]

theorem Equal.trans (h : a.Equal b) (h' : b.Equal c) : a.Equal c := by
  cases h with
  | whole n => exact h'
  | real h =>
      cases h' with
      | real h' =>
          rw [← Binary64.agrees_iff_beq] at h h'
          exact .real (Binary64.agrees_iff_beq.mp (Binary64.agrees_trans h h'))

theorem equal_self_iff : a.Equal a ↔ ¬a.IsNan := by
  cases a with
  | whole n => exact iff_of_true (.whole n) id
  | real x =>
      rw [← agrees_iff_equal, agrees, Binary64.agrees_self, IsNan, Bool.not_eq_true',
        Bool.not_eq_true]

end Number

namespace Tree

/-- Trees with the same node at their roots, whatever stands below it. -/
inductive SameRoot : Tree → Tree → Prop
  | missing : SameRoot .missing .missing
  | unknown : SameRoot .unknown .unknown
  | literal {value value' : Number} (h : value.Equal value') :
      SameRoot (.literal value) (.literal value')
  | binary (symbol : UInt8) (left right left' right' : Tree) :
      SameRoot (.binary symbol left right) (.binary symbol left' right')

variable {a b c : Tree}

theorem SameRoot.symm (h : SameRoot a b) : SameRoot b a := by
  cases h with
  | missing => exact .missing
  | unknown => exact .unknown
  | literal h => exact .literal h.symm
  | binary symbol => exact .binary symbol _ _ _ _

theorem SameRoot.trans (h : SameRoot a b) (h' : SameRoot b c) : SameRoot a c := by
  cases h with
  | missing => exact h'
  | unknown => exact h'
  | literal h =>
      cases h' with
      | literal h' => exact .literal (h.trans h')
  | binary symbol =>
      cases h' with
      | binary => exact .binary symbol _ _ _ _

/-- Trees with the same nodes at the same places. -/
def SamePlaces (a b : Tree) : Prop :=
  ∀ path, Option.Rel SameRoot (a.subtree? path) (b.subtree? path)

theorem SamePlaces.root (h : a.SamePlaces b) : SameRoot a b := by
  have hroot := h []
  rw [subtree?_nil, subtree?_nil] at hroot
  cases hroot with
  | some hroot => exact hroot

theorem SamePlaces.symm (h : a.SamePlaces b) : b.SamePlaces a := fun path =>
  match a.subtree? path, b.subtree? path, h path with
  | _, _, .some h => .some h.symm
  | _, _, .none => .none

theorem SamePlaces.trans (h : a.SamePlaces b) (h' : b.SamePlaces c) : a.SamePlaces c := fun path =>
  match a.subtree? path, b.subtree? path, c.subtree? path, h path, h' path with
  | _, _, _, .some h, .some h' => .some (h.trans h')
  | _, _, _, .none, .none => .none

/-- A tree that is no binary node is a single place. -/
theorem samePlaces_iff_sameRoot (ha : ∀ symbol left right, a ≠ binary symbol left right) :
    a.SamePlaces b ↔ SameRoot a b := by
  refine ⟨SamePlaces.root, fun h path => ?_⟩
  cases path with
  | nil =>
      rw [subtree?_nil, subtree?_nil]
      exact .some h
  | cons side path =>
      cases h with
      | binary => exact absurd rfl (ha _ _ _)
      | _ => cases side <;> exact .none

theorem samePlaces_binary {symbol symbol' : UInt8} {left right left' right' : Tree} :
    (binary symbol left right).SamePlaces (binary symbol' left' right') ↔
      symbol = symbol' ∧ left.SamePlaces left' ∧ right.SamePlaces right' := by
  constructor
  · intro h
    refine ⟨?_, fun path => h (.left :: path), fun path => h (.right :: path)⟩
    cases h.root
    rfl
  · rintro ⟨rfl, hleft, hright⟩ path
    cases path with
    | nil => exact .some (.binary symbol left right left' right')
    | cons side path =>
        cases side with
        | left => exact hleft path
        | right => exact hright path

theorem agrees_iff_sameRoot (ha : ∀ symbol left right, a ≠ binary symbol left right) :
    a.agrees b ↔ SameRoot a b := by
  constructor
  · intro h
    cases a with
    | missing =>
        cases b with
        | missing => exact .missing
        | _ => cases h
    | unknown =>
        cases b with
        | unknown => exact .unknown
        | _ => cases h
    | literal value =>
        cases b with
        | literal value' => exact .literal (Number.agrees_iff_equal.mp h)
        | _ => cases h
    | binary => exact absurd rfl (ha _ _ _)
  · intro h
    cases h with
    | missing | unknown => rfl
    | literal h => exact Number.agrees_iff_equal.mpr h
    | binary => exact absurd rfl (ha _ _ _)

theorem agrees_iff_samePlaces : a.agrees b ↔ a.SamePlaces b := by
  induction a generalizing b with
  | missing | unknown | literal =>
      rw [agrees_iff_sameRoot, samePlaces_iff_sameRoot]
      all_goals
        rintro symbol left right ⟨⟩
  | binary symbol left right ihleft ihright =>
      cases b with
      | binary symbol' left' right' =>
          rw [agrees, Bool.and_eq_true, Bool.and_eq_true, beq_iff_eq, ihleft, ihright,
            samePlaces_binary, and_assoc]
      | missing | unknown | literal =>
          refine iff_of_false Bool.false_ne_true fun h => ?_
          cases h.root

theorem SamePlaces.height_eq (h : a.SamePlaces b) : a.height = b.height := by
  induction a generalizing b with
  | missing | unknown | literal =>
      cases h.root
      rfl
  | binary symbol left right ihleft ihright =>
      cases b with
      | binary symbol' left' right' =>
          obtain ⟨-, hleft, hright⟩ := samePlaces_binary.mp h
          rw [height, height, ihleft hleft, ihright hright]
      | missing | unknown | literal => cases h.root

theorem sameRoot_self_iff : SameRoot a a ↔ ∀ value, a = literal value → ¬value.IsNan := by
  cases a with
  | missing => exact iff_of_true .missing nofun
  | unknown => exact iff_of_true .unknown nofun
  | literal value =>
      simp only [literal.injEq, forall_eq', ← Number.equal_self_iff]
      exact ⟨fun h => by cases h; assumption, .literal⟩
  | binary symbol left right => exact iff_of_true (.binary symbol left right left right) nofun

theorem samePlaces_self_iff :
    a.SamePlaces a ↔ ∀ path value, a.subtree? path = some (literal value) → ¬value.IsNan := by
  refine forall_congr' fun path => ?_
  cases a.subtree? path with
  | none => exact iff_of_true .none nofun
  | some node =>
      simp only [Option.some.injEq, ← sameRoot_self_iff]
      exact ⟨fun h => by cases h; assumption, .some⟩

/-- Trees are equal just if the same nodes stand at the same places. Equality is symmetric and
transitive, it is reflexive on the trees without a nan and on no others, and trees that are equal
have the same height. Whatever became of earlier parses, all parses of a text give equal trees. -/
theorem agrees_isStructural :
    (∀ a b : Tree, a.agrees b ↔
      ∀ path, Option.Rel SameRoot (a.subtree? path) (b.subtree? path)) ∧
    (∀ a b : Tree, a.agrees b → b.agrees a) ∧
    (∀ a b c : Tree, a.agrees b → b.agrees c → a.agrees c) ∧
    (∀ a : Tree, a.agrees a ↔
      ∀ path value, a.subtree? path = some (literal value) → ¬value.IsNan) ∧
    (∀ a b : Measured, a.tree.agrees b.tree → a.height = b.height) ∧
    ∀ p q : Parser, p.text = q.text → ∀ tree, p.parse.1 = .ok tree →
      ∃ other, q.parse.1 = .ok other ∧ tree.tree.agrees other.tree := by
  refine ⟨fun a b => agrees_iff_samePlaces, ?_, ?_, ?_, ?_, ?_⟩
  · intro a b h
    exact agrees_iff_samePlaces.mpr (agrees_iff_samePlaces.mp h).symm
  · intro a b c h h'
    exact agrees_iff_samePlaces.mpr
      ((agrees_iff_samePlaces.mp h).trans (agrees_iff_samePlaces.mp h'))
  · intro a
    rw [agrees_iff_samePlaces, samePlaces_self_iff]
  · intro a b h
    rw [a.height_eq, b.height_eq, (agrees_iff_samePlaces.mp h).height_eq]
  · intro p q htext tree htree
    rw [Parser.parse_eq, htext] at htree
    refine ⟨tree, (Parser.parse_eq q).trans htree, ?_⟩
    have hwritable := isWritable_of_parse htree
    exact (agrees_iff hwritable hwritable).mpr rfl

/-- Two parsers of a text, one of which comes from the middle of it, and two trees put together by
hand that hold the two zeros. -/
theorem agrees_isStructural_again :
    (∃ tree other, (Parser.ofText (ascii "(1+2)3")).parse.1 = .ok tree ∧
      (Parser.parse { Parser.ofText (ascii "(1+2)3") with offset := 5, nesting := 1 }).1 =
        .ok other ∧ tree.tree.agrees other.tree ∧ tree.height = other.height) ∧
    ∃ a b : Tree, a ≠ b ∧ a.agrees b ∧ b.agrees a ∧ a.agrees a := by
  obtain ⟨-, hsymm, htrans, -, hheight, hparse⟩ := agrees_isStructural
  constructor
  · have hfirst : ((Parser.ofText (ascii "(1+2)3")).parse.1).toOption.isSome := by decide +kernel
    obtain ⟨tree, htree⟩ := Option.isSome_iff_exists.mp hfirst
    have htree := eq_ok_of_toOption htree
    obtain ⟨other, hother, hagrees⟩ := hparse (Parser.ofText (ascii "(1+2)3"))
      { Parser.ofText (ascii "(1+2)3") with offset := 5, nesting := 1 } rfl tree htree
    exact ⟨tree, other, htree, hother, hagrees, hheight tree other hagrees⟩
  · have hzeros : agrees (binary 0 (literal (.real (Binary64.ofMagnitude true 0))) missing)
        (binary 0 (literal (.real (Binary64.ofMagnitude false 0))) missing) := by
      decide +kernel
    have hback := hsymm _ _ hzeros
    exact ⟨_, _, by decide +kernel, hzeros, hback, htrans _ _ _ hzeros hback⟩

end Tree

end Calculator
