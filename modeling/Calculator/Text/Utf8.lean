import Calculator.Text.Bytes

/-!
Characters in a text that need not be UTF-8. A lead byte announces the length of its sequence and
the bytes after it only have to be continuation bytes, so a few sequences pass that strict UTF-8
refuses: overlong three- and four-byte forms, surrogates, and code points above U+10FFFF.
Cutting a text into characters loses nothing (`flatten_characters`).
-/

namespace Calculator.Utf8

/-- The length of the sequence that a lead byte announces, 0 for a byte that leads none. -/
def announced (lead : UInt8) : Nat :=
  if lead < 0x80 then 1
  else if lead < 0xC2 then 0
  else if lead < 0xE0 then 2
  else if lead < 0xF0 then 3
  else if lead < 0xF5 then 4
  else 0

/-- Continuation bytes are the ones of the form 10xxxxxx. -/
def isContinuation (byte : UInt8) : Bool := 0x80 ≤ byte && byte < 0xC0

/-- The length of the sequence a text starts with, 0 when its first bytes form none. -/
def sequenceLength : Bytes → Nat
  | [] => 0
  | lead :: rest =>
    let tail := rest.take (announced lead - 1)
    if tail.length = announced lead - 1 ∧ tail.all isContinuation then announced lead else 0

/-- The length of the first character, where a byte that starts no sequence counts on its own. -/
def characterLength (text : Bytes) : Nat := max 1 (sequenceLength text)

/-- Cuts `text` into characters behind those in `cut`, which come last first. -/
def charactersFrom (cut : List Bytes) : Bytes → List Bytes
  | [] => cut.reverse
  | byte :: rest =>
    charactersFrom ((byte :: rest).take (characterLength (byte :: rest)) :: cut)
      ((byte :: rest).drop (characterLength (byte :: rest)))
termination_by text => text.length
decreasing_by simp only [List.length_drop, List.length_cons, characterLength]; omega

/-- The characters of a text in order, a byte that belongs to none being a piece of its own. -/
def characters (text : Bytes) : List Bytes := charactersFrom [] text

theorem announced_le (lead : UInt8) : announced lead ≤ 4 := by
  unfold announced
  grind

theorem flatten_charactersFrom (cut : List Bytes) (text : Bytes) :
    (charactersFrom cut text).flatten = cut.reverse.flatten ++ text := by
  fun_induction charactersFrom cut text with
  | case1 cut => simp
  | case2 cut byte rest ih => rw [ih]; simp

/-- Cutting into characters loses nothing. -/
theorem flatten_characters (text : Bytes) : (characters text).flatten = text := by
  simp [characters, flatten_charactersFrom]

end Calculator.Utf8
