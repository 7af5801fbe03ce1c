import Calculator.Tree
import Mathlib.Data.List.Pairwise

/-!
Places in trees. A path says at each node on its way down which child to go on to, so a path and the
tree that starts where it ends speak of one node however deep it stands. In pre-order a node comes
before everything below it, and what is below its left child before what is below its right one.
-/

namespace Calculator

inductive Side
  | left
  | right
deriving DecidableEq

/-- The way down from the root of a tree. -/
abbrev Path := List Side

/-- One place comes before another in pre-order. -/
inductive Path.Before : Path → Path → Prop
  | ancestor (side : Side) (path : Path) : Before [] (side :: path)
  | across (path path' : Path) : Before (.left :: path) (.right :: path')
  | inside (side : Side) {path path' : Path} (h : Before path path') :
      Before (side :: path) (side :: path')

namespace Tree

/-- What stands at a place, where `missing` stands for a child that is not there. -/
def subtree? : Tree → Path → Option Tree
  | tree, [] => some tree
  | binary _ left _, .left :: path => left.subtree? path
  | binary _ _ right, .right :: path => right.subtree? path
  | _, _ :: _ => none

@[simp]
theorem subtree?_nil (tree : Tree) : tree.subtree? [] = some tree := by cases tree <;> rfl

/-- The places of the nodes of a tree, in pre-order. -/
def places : Tree → List Path
  | missing => []
  | unknown | literal _ => [[]]
  | binary _ left right =>
    [] :: (left.places.map (.left :: ·) ++ right.places.map (.right :: ·))

theorem mem_places {tree : Tree} {path : Path} :
    path ∈ tree.places ↔ ∃ node, tree.subtree? path = some node ∧ node ≠ missing := by
  induction tree generalizing path with
  | missing => cases path <;> simp [places, subtree?]
  | unknown => cases path <;> simp [places, subtree?]
  | literal value => cases path <;> simp [places, subtree?]
  | binary symbol left right ihleft ihright =>
      cases path with
      | nil => simp [places, subtree?]
      | cons side path =>
          cases side with
          | left => simp [places, subtree?, ihleft]
          | right => simp [places, subtree?, ihright]

theorem pairwise_places (tree : Tree) : tree.places.Pairwise Path.Before := by
  induction tree with
  | missing => exact .nil
  | unknown | literal => exact List.pairwise_singleton _ _
  | binary symbol left right ihleft ihright =>
      have hinside (side : Side) {paths : List Path} (h : paths.Pairwise Path.Before) :
          (paths.map (side :: ·)).Pairwise Path.Before :=
        List.pairwise_map.mpr (h.imp (.inside side))
      rw [places, List.pairwise_cons, List.pairwise_append]
      refine ⟨?_, hinside .left ihleft, hinside .right ihright, ?_⟩
      · simp only [List.mem_append, List.mem_map]
        rintro _ (⟨path, -, rfl⟩ | ⟨path, -, rfl⟩) <;> exact .ancestor _ _
      · simp only [List.mem_map]
        rintro _ ⟨path, -, rfl⟩ _ ⟨path', -, rfl⟩
        exact .across _ _

end Tree

end Calculator
