import Calculator.Text.Quoted
import Calculator.Tree

/-!
Trees as text: a JSON document, and a dump with one line for each node, children below their
parent and two spaces further in. Both are written in front of a given text, so that each byte is
written once.
-/

namespace Calculator.Tree

/-- The JSON document of a tree, in front of `rest`. -/
def jsonBefore (rest : Bytes) : Tree → Bytes
  | missing | unknown => ascii "null" ++ rest
  | literal value => ascii "\x7b\"type\":\"Literal\",\"value\":" ++ value.json ++ ascii "\x7d" ++ rest
  | binary symbol left right =>
    ascii "\x7b\"type\":\"BinaryOp\",\"op\":" ++ Quoted.encode [symbol] ++ ascii ",\"left\":" ++
      left.jsonBefore (ascii ",\"right\":" ++ right.jsonBefore (ascii "\x7d" ++ rest))

def json (tree : Tree) : Bytes := tree.jsonBefore []

/-- One line of a dump, `level` levels in. -/
def dumpLine (level : Nat) (content : Bytes) : Bytes :=
  List.replicate (2 * level) 0x20 ++ content ++ newline

/-- The dump of a tree `level` levels in, in front of `rest`. -/
def dumpBefore (rest : Bytes) (level : Nat) : Tree → Bytes
  | missing | unknown => rest
  | literal value => dumpLine level (ascii "Number(" ++ value.text ++ ascii ")") ++ rest
  | binary symbol left right =>
    dumpLine level (ascii "Op(" ++ [symbol] ++ ascii ")") ++
      left.dumpBefore (right.dumpBefore rest (level + 1)) (level + 1)

def dump (level : Nat) (tree : Tree) : Bytes := tree.dumpBefore [] level

theorem jsonBefore_eq (rest : Bytes) (tree : Tree) : tree.jsonBefore rest = tree.json ++ rest := by
  induction tree generalizing rest with
  | missing | unknown | literal => simp [json, jsonBefore]
  | binary symbol left right ihl ihr =>
    rw [json, jsonBefore, jsonBefore, ihl, ihr, ihl (_ ++ _), ihr (_ ++ _)]
    simp

end Calculator.Tree
