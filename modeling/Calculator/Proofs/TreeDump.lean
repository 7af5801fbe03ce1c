import Calculator.Proofs.DocumentDecoding
import Calculator.Proofs.PrintedNumbers
import Calculator.Proofs.TreePlaces

/-!
The dump of a tree. It has a line for each node, and what a line says ends at the only closing
parenthesis in it that belongs to no number: texts of numbers hold none. A node says whether it has
children, so the dump of a left child ends where that of the right one begins, and whatever stands
behind a dump can be told from it.
-/

namespace Calculator

def Number.textBytes : Bytes := numeralBytes ++ ascii "naif"

theorem Number.mem_textBytes (n : Number) : ∀ byte ∈ n.text, byte ∈ textBytes := by
  intro byte hbyte
  by_cases hn : n.isFinite
  · obtain ⟨hjson, hbytes⟩ := json_of_isFinite hn
    exact List.mem_append_left _ (hbytes byte (hjson ▸ hbyte))
  cases n with
  | whole => exact absurd rfl hn
  | real x =>
      have hword : ∀ word ∈ [ascii "nan", ascii "inf", ascii "-inf"],
          ∀ byte ∈ word, byte ∈ textBytes := by decide +kernel
      refine hword (Binary64.text x) ?_ byte hbyte
      by_cases hnan : Binary64.isNan x
      · rw [Binary64.text, if_pos hnan]
        exact List.mem_cons_self
      · rw [(Binary64.text_of_not_isFinite hn hnan).1]
        cases Binary64.isNegative x <;> decide

namespace Tree

/-- Trees of literals that are numbers and of operators between two trees. -/
inductive IsProper : Tree → Prop
  | literal {value : Number} (h : ¬value.IsNan) : IsProper (.literal value)
  | binary (op : Operator) {left right : Tree} (hleft : left.IsProper) (hright : right.IsProper) :
      IsProper (.binary op.symbol left right)

/-- What the line of a node says. -/
def heading : Tree → Bytes
  | missing | unknown => []
  | literal value => ascii "Number(" ++ value.text ++ ascii ")"
  | binary symbol _ _ => ascii "Op(" ++ [symbol] ++ ascii ")"

variable {a b tree : Tree} {level : Nat} {r s : Bytes}

theorem dumpBefore_literal (value : Number) (rest : Bytes) (level : Nat) :
    (literal value).dumpBefore rest level = List.replicate (2 * level) 0x20 ++
      (ascii "Number(" ++ (value.text ++ asciiByte ')' :: (newline ++ rest))) := by
  simp only [dumpBefore, dumpLine, List.append_assoc]
  rfl

theorem dumpBefore_binary (symbol : UInt8) (left right : Tree) (rest : Bytes) (level : Nat) :
    (binary symbol left right).dumpBefore rest level = List.replicate (2 * level) 0x20 ++
      (ascii "Op(" ++ symbol :: (ascii ")" ++ newline ++
        left.dumpBefore (right.dumpBefore rest (level + 1)) (level + 1))) := by
  simp only [dumpBefore, dumpLine, List.append_assoc, List.cons_append, List.nil_append]

theorem dumpBefore_literal_ne (value : Number) (symbol : UInt8) (left right : Tree) :
    (literal value).dumpBefore r level ≠ (binary symbol left right).dumpBefore s level := by
  rw [dumpBefore_literal, dumpBefore_binary, Ne, List.append_cancel_left_eq]
  exact fun h => absurd (List.cons.inj h).1 (by decide)

/-- Dumps tell proper trees, node by node. -/
theorem dumpBefore_inj (ha : a.IsProper) (hb : b.IsProper)
    (h : a.dumpBefore r level = b.dumpBefore s level) : a = b ∧ r = s := by
  induction ha generalizing b r s level with
  | literal hvalue =>
      cases hb with
      | literal hvalue' =>
          rw [dumpBefore_literal, dumpBefore_literal, List.append_cancel_left_eq,
            List.append_cancel_left_eq] at h
          have hclose (n : Number) : asciiByte ')' ∉ n.text :=
            fun hmem => absurd (n.mem_textBytes _ hmem) (by decide +kernel)
          obtain ⟨htext, hrest⟩ := append_cons_inj (hclose _) (hclose _) h
          exact ⟨congrArg literal (Number.eq_of_text_eq hvalue hvalue' htext),
            List.append_cancel_left hrest⟩
      | binary => exact absurd h (dumpBefore_literal_ne _ _ _ _)
  | binary op hleft hright ihleft ihright =>
      cases hb with
      | literal => exact absurd h.symm (dumpBefore_literal_ne _ _ _ _)
      | binary op' hleft' hright' =>
          rw [dumpBefore_binary, dumpBefore_binary, List.append_cancel_left_eq,
            List.append_cancel_left_eq] at h
          obtain ⟨hsymbol, hbehind⟩ := List.cons.inj h
          obtain ⟨rfl, hright⟩ := ihleft hleft' (List.append_cancel_left hbehind)
          obtain ⟨rfl, hrest⟩ := ihright hright' hright
          exact ⟨by rw [hsymbol], hrest⟩

/-! ### Lines -/

theorem IsProper.subtree? (h : tree.IsProper) {path : Path} {node : Tree}
    (hnode : tree.subtree? path = some node) : node.IsProper := by
  induction h generalizing path with
  | literal hvalue =>
      cases path with
      | nil =>
          obtain rfl := Option.some.inj hnode
          exact .literal hvalue
      | cons side path => exact absurd hnode (by simp [Tree.subtree?])
  | binary op hleft hright ihleft ihright =>
      cases path with
      | nil =>
          obtain rfl := Option.some.inj hnode
          exact .binary op hleft hright
      | cons side path =>
          cases side with
          | left => exact ihleft hnode
          | right => exact ihright hnode

theorem IsProper.mem_places (h : tree.IsProper) {path : Path} :
    path ∈ tree.places ↔ ∃ node, tree.subtree? path = some node := by
  rw [Tree.mem_places]
  refine exists_congr fun node => and_iff_left_of_imp fun hnode => ?_
  rintro rfl
  cases h.subtree? hnode

/-- A heading is on one line, and starts with no space. -/
theorem IsProper.heading (h : tree.IsProper) :
    0x0A ∉ tree.heading ∧ tree.heading.head? ≠ some 0x20 := by
  cases h with
  | literal =>
      refine ⟨fun hmem => ?_, fun hhead => absurd (Option.some.inj hhead) (by decide)⟩
      rw [Tree.heading, List.mem_append, List.mem_append] at hmem
      rcases hmem with (hmem | hmem) | hmem
      · exact absurd hmem (by decide)
      · exact absurd (Number.mem_textBytes _ _ hmem) (by decide +kernel)
      · exact absurd hmem (by decide)
  | binary op =>
      rw [Tree.heading]
      cases op <;> decide

def line (tree : Tree) (level : Nat) (path : Path) : Bytes :=
  List.replicate (2 * (level + path.length)) 0x20 ++ (tree.subtree? path).elim [] heading

theorem line_root (tree : Tree) (level : Nat) :
    tree.line level [] ++ newline = dumpLine level tree.heading := by
  rw [line, subtree?_nil]
  rfl

section
variable (symbol : UInt8) (left right : Tree) (level : Nat) (path : Path)

theorem line_left :
    (binary symbol left right).line level (.left :: path) = left.line (level + 1) path := by
  rw [line, line, List.length_cons, ← Nat.add_assoc, Nat.add_right_comm, Tree.subtree?]

theorem line_right :
    (binary symbol left right).line level (.right :: path) = right.line (level + 1) path := by
  rw [line, line, List.length_cons, ← Nat.add_assoc, Nat.add_right_comm, Tree.subtree?]

end

theorem dumpBefore_eq_lines (h : tree.IsProper) (rest : Bytes) (level : Nat) :
    tree.dumpBefore rest level =
      tree.places.flatMap (fun path => tree.line level path ++ newline) ++ rest := by
  induction h generalizing rest level with
  | literal =>
      rw [dumpBefore, places, List.flatMap_cons, List.flatMap_nil, line_root, List.append_nil,
        Tree.heading]
  | binary op hleft hright ihleft ihright =>
      rw [dumpBefore, ihleft, ihright, places, List.flatMap_cons, List.flatMap_append,
        List.flatMap_map, List.flatMap_map, line_root, Tree.heading]
      simp only [line_left, line_right, List.append_assoc]

theorem splitOn_lines {lines : List Bytes} (h : ∀ line ∈ lines, 0x0A ∉ line) :
    (lines.flatMap (· ++ newline)).splitOn 0x0A = lines ++ [[]] := by
  induction lines with
  | nil => rfl
  | cons line lines ih =>
      obtain ⟨hline, hlines⟩ := List.forall_mem_cons.mp h
      rw [List.flatMap_cons, List.append_assoc]
      exact (List.splitOn_append_cons_self_of_not_mem hline _).trans
        (congrArg (line :: ·) (ih hlines))

theorem IsProper.exists_line (h : tree.IsProper) (level : Nat) {path : Path}
    (hpath : path ∈ tree.places) :
    ∃ node, tree.subtree? path = some node ∧ node.IsProper ∧
      tree.line level path = List.replicate (2 * (level + path.length)) 0x20 ++ node.heading := by
  obtain ⟨node, hnode⟩ := h.mem_places.mp hpath
  exact ⟨node, hnode, h.subtree? hnode, by rw [line, hnode, Option.elim_some]⟩

theorem IsProper.splitOn_dump (h : tree.IsProper) (level : Nat) :
    (tree.dump level).splitOn 0x0A = tree.places.map (tree.line level) ++ [[]] := by
  have hlines : ∀ line ∈ tree.places.map (tree.line level), 0x0A ∉ line := by
    refine List.forall_mem_map.mpr fun path hpath hmem => ?_
    obtain ⟨node, -, hproper, hline⟩ := h.exists_line level hpath
    rw [hline, List.mem_append, List.mem_replicate] at hmem
    rcases hmem with ⟨-, hspace⟩ | hmem
    · exact absurd hspace (by decide)
    · exact hproper.heading.1 hmem
  rw [dump, dumpBefore_eq_lines h, List.append_nil, ← splitOn_lines hlines, List.flatMap_map]

/-- Dumps at one level tell proper trees apart, numbers bit by bit. The lines of a dump are those of
the nodes of the tree in pre-order, each two spaces further in for every level. -/
theorem dump_determines (level : Nat) :
    (∀ a b : Tree, a.IsProper → b.IsProper → (a.dump level = b.dump level ↔ a = b)) ∧
    ∀ tree : Tree, tree.IsProper → ∃ (places : List Path) (lines : List Bytes),
      places.Pairwise Path.Before ∧
      (∀ path, path ∈ places ↔ ∃ node, tree.subtree? path = some node) ∧
      (tree.dump level).splitOn 0x0A = lines ++ [[]] ∧
      List.Forall₂ (fun path line => ∃ node, tree.subtree? path = some node ∧
        line = List.replicate (2 * (level + path.length)) 0x20 ++ node.heading ∧
        node.heading.head? ≠ some 0x20) places lines := by
  constructor
  · intro a b ha hb
    exact ⟨fun h => (dumpBefore_inj ha hb h).1, congrArg (dump level)⟩
  · intro tree h
    refine ⟨tree.places, tree.places.map (tree.line level), tree.pairwise_places,
      fun path => h.mem_places, h.splitOn_dump level, ?_⟩
    rw [List.forall₂_map_right_iff, List.forall₂_same]
    intro path hpath
    obtain ⟨node, hnode, hproper, hline⟩ := h.exists_line level hpath
    exact ⟨node, hnode, hline, hproper.heading.2⟩

/-- The two zeros, which compare equal, have different texts. -/
theorem dump_determines_zeros :
    ∃ a b : Tree, a.agrees b ∧ a.dump 1 ≠ b.dump 1 ∧
      ∃ (places : List Path) (lines : List Bytes), places.Pairwise Path.Before ∧
        (∀ path, path ∈ places ↔ ∃ node, a.subtree? path = some node) ∧
        (a.dump 1).splitOn 0x0A = lines ++ [[]] ∧ places.length = lines.length := by
  have hproper (negative : Bool) : IsProper (.binary Operator.mul.symbol
      (.literal (.real (Binary64.ofMagnitude negative 0))) (.literal (.whole 3))) := by
    refine .binary .mul (.literal ?_) (.literal nofun)
    rw [Number.IsNan, Binary64.isNan, Binary64.magnitude_ofMagnitude (by decide)]
    decide
  obtain ⟨hdumps, hlines⟩ := dump_determines 1
  refine ⟨_, _, by decide +kernel, (hdumps _ _ (hproper true) (hproper false)).not.mpr ?_, ?_⟩
  · decide +kernel
  · obtain ⟨places, lines, hordered, hplaces, hdump, hsame⟩ := hlines _ (hproper true)
    exact ⟨places, lines, hordered, hplaces, hdump, hsame.length_eq⟩

end Tree

end Calculator
