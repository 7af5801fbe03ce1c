import Calculator.Proofs.JsonNumerals
import Calculator.Proofs.JsonStrings

/-!
The documents of calculations. Tokens, trees and values are written as values of JSON that keep
their parts in order, and in plain text. This holds of any calculation that can be put together,
with marks of no known category, trees that are no expressions and values that are no numbers.
-/

namespace Calculator

open Calculation (commaSeparated)

namespace Json

/-- A plain text of a value. -/
structure Writes (v : Json) (text : Bytes) : Prop where
  isText : IsText (.value v) text
  plain : IsPlain text

theorem writes_null : Writes .null (ascii "null") := ⟨.null, by decide⟩

theorem writes_plain {content : Bytes} (h : IsPlain content) :
    Writes (.string content) (Quoted.encode content) :=
  ⟨.string (Quoted.isQuoted_of_plain h), Quoted.isPlain_encode_of_plain h⟩

theorem writes_singleton (byte : UInt8) :
    Writes (.string (Utf8.repair [byte])) (Quoted.encode [byte]) :=
  ⟨.string (Quoted.isQuoted_singleton byte), Quoted.isPlain_encode_singleton byte⟩

theorem isPlain_commaSeparated {texts : List Bytes} (h : ∀ text ∈ texts, IsPlain text) :
    IsPlain (commaSeparated texts) := by
  cases texts with
  | nil => exact isPlain_nil
  | cons first others =>
      obtain ⟨hfirst, hothers⟩ := List.forall_mem_cons.mp h
      refine isPlain_append.mpr ⟨hfirst, isPlain_flatMap ?_⟩
      intro text htext
      exact isPlain_cons.mpr ⟨by decide, hothers text htext⟩

section

variable {α : Type} {value : α → Json} {text : α → Bytes} {first : α} {xs : List α}

theorem commaSeparated_map (first second : α) (xs : List α) :
    commaSeparated ((first :: second :: xs).map text) =
      text first ++ ascii "," ++ commaSeparated ((second :: xs).map text) := by
  rw [List.map_cons, List.map_cons, commaSeparated, List.flatMap_cons, commaSeparated,
    List.append_assoc]
  rfl

theorem isText_values (h : ∀ x ∈ first :: xs, Writes (value x) (text x)) :
    IsText (.values ((first :: xs).map value)) (commaSeparated ((first :: xs).map text)) := by
  induction xs generalizing first with
  | nil =>
      have hfirst := (h first List.mem_cons_self).isText
      rw [← (text first).append_nil] at hfirst
      exact .lastValue hfirst
  | cons second xs ih =>
      obtain ⟨hfirst, hothers⟩ := List.forall_mem_cons.mp h
      rw [commaSeparated_map]
      exact .moreValues hfirst.isText (ih hothers)

theorem writes_array (h : ∀ x ∈ xs, Writes (value x) (text x)) :
    Writes (.array (xs.map value)) (ascii "[" ++ commaSeparated (xs.map text) ++ ascii "]") where
  isText := by
    cases xs with
    | nil => exact .emptyArray (List.forall_mem_nil _)
    | cons first xs => exact .array (isText_values h)
  plain := by
    rw [isPlain_append, isPlain_append]
    refine ⟨⟨by decide, isPlain_commaSeparated ?_⟩, by decide⟩
    exact List.forall_mem_map.mpr fun x hx => (h x hx).plain

end

/-- A member of an object: its key, its value and the text of the value. -/
structure Member where
  key : Bytes
  value : Json
  text : Bytes

def Member.written (m : Member) : Bytes := Quoted.encode m.key ++ ascii ":" ++ m.text

/-- Members whose keys are plain and whose values have plain texts. -/
structure Member.IsPlain (m : Member) : Prop where
  key : Calculator.IsPlain m.key
  value : Writes m.value m.text

def ofMembers (ms : List Member) : Json := .object (ms.map fun m => (m.key, m.value))

def objectText (ms : List Member) : Bytes :=
  ascii "\x7b" ++ commaSeparated (ms.map Member.written) ++ ascii "\x7d"

theorem isText_members {first : Member} {ms : List Member}
    (h : ∀ m ∈ first :: ms, m.IsPlain) :
    IsText (.members ((first :: ms).map fun m => (m.key, m.value)))
      (commaSeparated ((first :: ms).map Member.written)) := by
  induction ms generalizing first with
  | nil =>
      have hfirst := h first List.mem_cons_self
      rw [List.map_singleton, List.map_singleton, commaSeparated, List.flatMap_nil,
        List.append_nil]
      exact .lastMember (writes_plain hfirst.key).isText hfirst.value.isText
  | cons second ms ih =>
      obtain ⟨hfirst, hothers⟩ := List.forall_mem_cons.mp h
      rw [commaSeparated_map]
      exact .moreMembers (writes_plain hfirst.key).isText hfirst.value.isText (ih hothers)

theorem writes_object (ms : List Member) (h : ∀ m ∈ ms, m.IsPlain) :
    Writes (ofMembers ms) (objectText ms) where
  isText := by
    cases ms with
    | nil => exact .emptyObject (List.forall_mem_nil _)
    | cons first ms => exact .object (isText_members h)
  plain := by
    rw [objectText, isPlain_append, isPlain_append]
    refine ⟨⟨by decide, isPlain_commaSeparated ?_⟩, by decide⟩
    refine List.forall_mem_map.mpr fun m hm => ?_
    rw [Member.written, isPlain_append, isPlain_append]
    exact ⟨⟨(writes_plain (h m hm).key).plain, by decide⟩, (h m hm).value.plain⟩

end Json

open Json

/-- A number as a value of JSON, which has no infinities and no nan. -/
def Number.document (n : Number) : Json := if n.isFinite then .number n.text else .null

theorem Number.writes_json (n : Number) : Writes n.document n.json := by
  rw [document, json]
  split
  · rename_i h
    exact ⟨.number (isNumeral_text h), (isNumeral_text h).isPlain⟩
  · exact writes_null

namespace Token

/-- The value of a token, which is a number, nothing or the mark that was written. -/
def valueDocument : Token → Json
  | number value => value.document
  | mark .endOfInput _ => .null
  | mark _ byte => .string (Utf8.repair [byte])

/-- A token as an object of JSON. -/
def document (token : Token) : Json :=
  .object [(ascii "category", .string token.category.name), (ascii "value", token.valueDocument)]

theorem writes_jsonValue (token : Token) : Writes token.valueDocument token.jsonValue := by
  cases token with
  | number value => exact value.writes_json
  | mark m byte =>
      cases m with
      | endOfInput => exact writes_null
      | _ => exact writes_singleton byte

def members (token : Token) : List Member :=
  [⟨ascii "category", .string token.category.name, Quoted.encode token.category.name⟩,
    ⟨ascii "value", token.valueDocument, token.jsonValue⟩]

theorem json_eq (token : Token) : token.json = objectText token.members := by
  have hcategory : ascii "\x7b\"category\":" =
      ascii "\x7b" ++ (Quoted.encode (ascii "category") ++ ascii ":") := by decide +kernel
  have hvalue : ascii ",\"value\":" =
      ascii "," ++ (Quoted.encode (ascii "value") ++ ascii ":") := by decide +kernel
  rw [json, hcategory, hvalue, objectText, members, commaSeparated_map, List.map_singleton]
  simp only [commaSeparated, Member.written, List.append_assoc, List.flatMap_nil,
    List.append_nil]

theorem writes_json (token : Token) : Writes token.document token.json := by
  have hcategory : IsPlain (ascii "category") := by decide
  have hvalue : IsPlain (ascii "value") := by decide
  rw [json_eq]
  apply writes_object token.members
  refine List.forall_mem_cons.mpr ⟨?_, List.forall_mem_singleton.mpr ?_⟩
  · exact ⟨hcategory, writes_plain token.category.isPlain_name⟩
  · exact ⟨hvalue, token.writes_jsonValue⟩

end Token

namespace Tree

/-- A tree as a value of JSON: nothing for a tree that is missing or of no known kind. -/
def document : Tree → Json
  | missing | unknown => .null
  | literal value =>
    .object [(ascii "type", .string (ascii "Literal")), (ascii "value", value.document)]
  | binary symbol left right =>
    .object [(ascii "type", .string (ascii "BinaryOp")),
      (ascii "op", .string (Utf8.repair [symbol])), (ascii "left", left.document),
      (ascii "right", right.document)]

def literalMembers (value : Number) : List Member :=
  [⟨ascii "type", .string (ascii "Literal"), Quoted.encode (ascii "Literal")⟩,
    ⟨ascii "value", value.document, value.json⟩]

def binaryMembers (symbol : UInt8) (left right : Tree) : List Member :=
  [⟨ascii "type", .string (ascii "BinaryOp"), Quoted.encode (ascii "BinaryOp")⟩,
    ⟨ascii "op", .string (Utf8.repair [symbol]), Quoted.encode [symbol]⟩,
    ⟨ascii "left", left.document, left.json⟩, ⟨ascii "right", right.document, right.json⟩]

theorem json_literal (value : Number) :
    (literal value).json = objectText (literalMembers value) := by
  have htype : ascii "\x7b\"type\":\"Literal\",\"value\":" =
      ascii "\x7b" ++ (Quoted.encode (ascii "type") ++ (ascii ":" ++
        (Quoted.encode (ascii "Literal") ++ (ascii "," ++
          (Quoted.encode (ascii "value") ++ ascii ":"))))) := by decide +kernel
  rw [json, jsonBefore, htype, objectText, literalMembers, commaSeparated_map, List.map_singleton]
  simp only [commaSeparated, Member.written, List.append_assoc, List.flatMap_nil,
    List.append_nil]

theorem json_binary (symbol : UInt8) (left right : Tree) :
    (binary symbol left right).json = objectText (binaryMembers symbol left right) := by
  have htype : ascii "\x7b\"type\":\"BinaryOp\",\"op\":" =
      ascii "\x7b" ++ (Quoted.encode (ascii "type") ++ (ascii ":" ++
        (Quoted.encode (ascii "BinaryOp") ++ (ascii "," ++
          (Quoted.encode (ascii "op") ++ ascii ":"))))) := by decide +kernel
  have hleft : ascii ",\"left\":" =
      ascii "," ++ (Quoted.encode (ascii "left") ++ ascii ":") := by decide +kernel
  have hright : ascii ",\"right\":" =
      ascii "," ++ (Quoted.encode (ascii "right") ++ ascii ":") := by decide +kernel
  rw [json, jsonBefore, jsonBefore_eq, jsonBefore_eq, htype, hleft, hright, objectText,
    binaryMembers, commaSeparated_map, commaSeparated_map, commaSeparated_map, List.map_singleton]
  simp only [commaSeparated, Member.written, List.append_assoc, List.flatMap_nil,
    List.append_nil]

theorem writes_json (tree : Tree) : Writes tree.document tree.json := by
  have htype : IsPlain (ascii "type") := by decide
  induction tree with
  | missing | unknown => exact writes_null
  | literal value =>
      have hvalue : IsPlain (ascii "value") := by decide
      rw [json_literal]
      apply writes_object (literalMembers value)
      refine List.forall_mem_cons.mpr ⟨?_, List.forall_mem_singleton.mpr ?_⟩
      · exact ⟨htype, writes_plain (by decide)⟩
      · exact ⟨hvalue, value.writes_json⟩
  | binary symbol left right ihleft ihright =>
      have hop : IsPlain (ascii "op") := by decide
      have hleft : IsPlain (ascii "left") := by decide
      have hright : IsPlain (ascii "right") := by decide
      rw [json_binary]
      apply writes_object (binaryMembers symbol left right)
      refine List.forall_mem_cons.mpr ⟨?_, List.forall_mem_cons.mpr ⟨?_,
        List.forall_mem_cons.mpr ⟨?_, List.forall_mem_singleton.mpr ?_⟩⟩⟩
      · exact ⟨htype, writes_plain (by decide)⟩
      · exact ⟨hop, writes_singleton symbol⟩
      · exact ⟨hleft, ihleft⟩
      · exact ⟨hright, ihright⟩

end Tree

namespace Calculation

/-- A calculation as an object of JSON: its tokens in order, its tree and its value. -/
def document (c : Calculation) : Json :=
  .object [(ascii "tokens", .array (c.tokens.map Token.document)),
    (ascii "ast", c.tree.tree.document), (ascii "result", c.value.document)]

def members (c : Calculation) : List Member :=
  [⟨ascii "tokens", .array (c.tokens.map Token.document),
      ascii "[" ++ commaSeparated (c.tokens.map Token.json) ++ ascii "]"⟩,
    ⟨ascii "ast", c.tree.tree.document, c.tree.tree.json⟩,
    ⟨ascii "result", c.value.document, c.value.json⟩]

theorem json_eq (c : Calculation) : c.json = objectText c.members := by
  have htokens : ascii "\x7b\"tokens\":[" =
      ascii "\x7b" ++ (Quoted.encode (ascii "tokens") ++ (ascii ":" ++ ascii "[")) := by
    decide +kernel
  have hast : ascii "],\"ast\":" =
      ascii "]" ++ (ascii "," ++ (Quoted.encode (ascii "ast") ++ ascii ":")) := by decide +kernel
  have hresult : ascii ",\"result\":" =
      ascii "," ++ (Quoted.encode (ascii "result") ++ ascii ":") := by decide +kernel
  rw [json, Tree.jsonBefore_eq, htokens, hast, hresult, objectText, members, commaSeparated_map,
    commaSeparated_map, List.map_singleton]
  generalize commaSeparated (c.tokens.map Token.json) = tokens
  simp only [commaSeparated, Member.written, List.append_assoc, List.flatMap_nil,
    List.append_nil]

/-- The JSON of any calculation is one document, the object of its tokens, its tree and its value,
and it is plain text. -/
theorem json_isDocument (c : Calculation) :
    IsText (.value c.document) c.json ∧ IsPlain c.json := by
  have htokens : IsPlain (ascii "tokens") := by decide
  have hast : IsPlain (ascii "ast") := by decide
  have hresult : IsPlain (ascii "result") := by decide
  have hwrites : Writes c.document c.json := by
    rw [json_eq]
    apply writes_object c.members
    refine List.forall_mem_cons.mpr ⟨?_, List.forall_mem_cons.mpr ⟨?_,
      List.forall_mem_singleton.mpr ?_⟩⟩
    · exact ⟨htokens, writes_array fun token _ => token.writes_json⟩
    · exact ⟨hast, c.tree.tree.writes_json⟩
    · exact ⟨hresult, c.value.writes_json⟩
  exact ⟨hwrites.isText, hwrites.plain⟩

end Calculation

end Calculator
