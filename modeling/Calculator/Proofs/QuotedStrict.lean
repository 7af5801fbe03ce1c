import Calculator.Proofs.CharacterCut
import Calculator.Proofs.ParsedTrees
import Calculator.Proofs.PlainText

/-!
When quoted text is strict UTF-8. Escapes are ASCII, and so is what a byte of no sequence is
replaced with; sequences stay as they are, the spurious ones too, and only these keep quoted text
from being strict (`isStrict_encode_iff`). Without them it is the text with its characters escaped
and its other bytes replaced (`escapes_of_isStrict`). Of the faults, the lexical ones carry a
character of the expression into their message, and the rest of every message is plain.
-/

namespace Calculator

open Utf8
open String (utf8EncodeChar)

variable {piece rest text : Bytes} {pieces : List Bytes}

namespace Quoted

theorem isStrict_escape_append_iff (h : IsPiece piece) :
    IsStrict (escape piece ++ rest) ↔ ¬IsSpurious piece ∧ IsStrict rest := by
  have hone (byte : UInt8) :
      IsStrict (escape [byte] ++ rest) ↔ ¬IsSpurious [byte] ∧ IsStrict rest := by
    rw [isStrict_append_iff_of_ascii (isPlain_escape_singleton byte).lt,
      and_iff_right (not_isSpurious_singleton byte)]
  cases h with
  | stray => exact hone _
  | sequence h =>
      have hlong := isStrict_append_iff (b := rest) h
      cases h with
      | one => exact hone _
      | two | three | four => exact hlong

theorem isStrict_flatMap_append_iff (h : ∀ piece ∈ pieces, IsPiece piece) :
    IsStrict (pieces.flatMap escape ++ rest) ↔
      (∀ piece ∈ pieces, ¬IsSpurious piece) ∧ IsStrict rest := by
  induction pieces with
  | nil => rw [List.flatMap_nil, List.nil_append, and_iff_right (List.forall_mem_nil _)]
  | cons piece pieces ih =>
      obtain ⟨hpiece, hpieces⟩ := List.forall_mem_cons.mp h
      rw [List.flatMap_cons, List.append_assoc, isStrict_escape_append_iff hpiece, ih hpieces,
        List.forall_mem_cons, and_assoc]

/-- Quoted text in front of a rest is strict if the rest is and no sequence of it is spurious. -/
theorem isStrict_encode_append_iff :
    IsStrict (encode text ++ rest) ↔
      (∀ piece ∈ characters text, ¬IsSpurious piece) ∧ IsStrict rest := by
  have hquote : quote < 0x80 := by decide
  rw [encode, ← List.singleton_append, List.append_assoc, List.append_assoc,
    isStrict_append_iff_of_ascii (by simpa using hquote),
    isStrict_flatMap_append_iff fun _ => isPiece_of_mem_characters,
    isStrict_append_iff_of_ascii (by simpa using hquote)]

theorem isStrict_encode_iff :
    IsStrict (encode text) ↔ ∀ piece, IsSequence piece → IsSpurious piece → ¬piece <:+: text := by
  rw [← (encode text).append_nil, isStrict_encode_append_iff, and_iff_left isStrict_nil]
  constructor
  · intro h piece hpiece hspurious hinfix
    exact h piece ((mem_characters_iff hpiece).mpr hinfix) hspurious
  · intro h piece hmem hspurious
    cases isPiece_of_mem_characters hmem with
    | sequence hpiece => exact h piece hpiece hspurious ((mem_characters_iff hpiece).mp hmem)
    | stray => exact not_isSpurious_singleton _ hspurious

/-- What is to stand between the quotes for a text: its characters, escaped, and U+FFFD for each
byte that starts no character. -/
inductive Escapes : Bytes → Bytes → Prop
  | nil : Escapes [] []
  | character {text quoted : Bytes} (c : Char) (h : Escapes text quoted) :
      Escapes (utf8EncodeChar c ++ text) (escape (utf8EncodeChar c) ++ quoted)
  | stray {byte : UInt8} {text quoted : Bytes}
      (hbyte : ∀ c rest, byte :: text ≠ utf8EncodeChar c ++ rest) (h : Escapes text quoted) :
      Escapes (byte :: text) (ascii "\\uFFFD" ++ quoted)

/-- Where no sequence is spurious the sequences are the characters. -/
theorem escapes_characters (h : ∀ piece ∈ characters text, ¬IsSpurious piece) :
    Escapes text ((characters text).flatMap escape) := by
  induction text using pieces_induction with
  | nil =>
      rw [characters_nil]
      exact .nil
  | sequence piece rest hpiece ih =>
      rw [characters_sequence hpiece] at h ⊢
      obtain ⟨hspurious, hrest⟩ := List.forall_mem_cons.mp h
      obtain ⟨c, rfl⟩ := exists_utf8EncodeChar_eq hpiece hspurious
      exact .character c (ih hrest)
  | stray byte rest hbyte ih =>
      rw [characters_stray hbyte] at h ⊢
      have hreplaced : escape [byte] = ascii "\\uFFFD" :=
        if_neg (UInt8.not_lt.mpr (le_of_sequenceLength hbyte))
      rw [List.flatMap_cons, hreplaced]
      refine .stray ?_ (ih (List.forall_mem_cons.mp h).2)
      intro c rest' htext
      have hlength := sequenceLength_append (isSequence_utf8EncodeChar c) rest'
      rw [← htext, hbyte] at hlength
      exact (isSequence_utf8EncodeChar c).ne_nil (List.length_eq_zero_iff.mp hlength.symm)

theorem escapes_of_isStrict (h : IsStrict (encode text)) :
    ∃ quoted, Escapes text quoted ∧ encode text = quote :: quoted ++ [quote] := by
  rw [← (encode text).append_nil, isStrict_encode_append_iff] at h
  exact ⟨_, escapes_characters h.1, rfl⟩

/-- A surrogate is quoted as it is. -/
theorem not_isStrict_encode_surrogate : ¬IsStrict (encode [0xED, 0xA0, 0x80]) := by
  have hpiece : IsSequence [0xED, 0xA0, 0x80] :=
    .three (by decide) (by decide) (by decide) (by decide)
  rw [isStrict_encode_iff]
  intro h
  exact h _ hpiece (.surrogate (by decide)) List.infix_rfl

end Quoted

/-! ### Faults -/

theorem isStrict_fault_iff {fault : Fault} :
    IsStrict fault.json ↔ ∀ piece ∈ characters fault.message, ¬IsSpurious piece := by
  have hopen : IsPlain (ascii "\x7b\"error\":") := by decide
  have hclose : IsPlain (ascii "\x7d") := by decide
  rw [Fault.json, List.append_assoc, isStrict_append_iff_of_ascii hopen.lt,
    Quoted.isStrict_encode_append_iff, ← (ascii "\x7d").append_nil,
    isStrict_append_iff_of_ascii hclose.lt, and_iff_left isStrict_nil]

/-- Plain bytes are cut off one by one. -/
theorem not_isSpurious_of_mem_map (h : piece ∈ text.map ([·])) : ¬IsSpurious piece := by
  obtain ⟨byte, -, rfl⟩ := List.mem_map.mp h
  exact not_isSpurious_singleton byte

/-- The message of a fault that carries no character is plain. -/
theorem Fault.isPlain_message {fault : Fault}
    (h : ∀ character offset, fault ≠ .lexical character offset) : IsPlain fault.message := by
  cases fault with
  | lexical character offset => exact absurd rfl (h character offset)
  | unexpected found offset =>
      rw [message, isPlain_append]
      exact ⟨by decide, found.isPlain_name⟩
  | mismatch expected found offset =>
      rw [message, isPlain_append, isPlain_append, isPlain_append]
      exact ⟨⟨⟨by decide, expected.isPlain_name⟩, by decide⟩, found.isPlain_name⟩
  | tooDeep offset =>
      rw [message, isPlain_append]
      exact ⟨by decide, isPlain_digits offset⟩
  | divisionByZero | unknownNode | other => decide

/-- The apostrophe behind the character of a lexical fault continues nothing, so the character is
found in the message as it was found in the expression. -/
theorem characters_lexical {character : Bytes} (h : IsPiece character) (offset : Nat) :
    characters (Fault.lexical character offset).message =
      (ascii "Lexical Error: Invalid character '").map ([·]) ++
        character :: (ascii "' at position " ++ digits offset).map ([·]) := by
  have hbefore : IsPlain (ascii "Lexical Error: Invalid character '") := by decide
  have hafter : IsPlain (ascii "' at position " ++ digits offset) :=
    isPlain_append.mpr ⟨by decide, isPlain_digits offset⟩
  have hapostrophe : ∀ x ∈ (ascii "' at position " ++ digits offset).head?,
      ¬isContinuation x := by
    intro x hx
    cases hx
    decide
  rw [Fault.message, List.append_assoc, List.append_assoc,
    characters_append_of_ascii hbefore.lt, characters_append character hapostrophe,
    h.characters_eq, characters_of_ascii hafter.lt, List.singleton_append]

theorem isStrict_lexical_iff {character : Bytes} (h : IsPiece character) (offset : Nat) :
    IsStrict (Fault.lexical character offset).json ↔ ¬IsSpurious character := by
  rw [isStrict_fault_iff, characters_lexical h offset, List.forall_mem_append,
    List.forall_mem_cons, and_iff_right fun _ => not_isSpurious_of_mem_map,
    and_iff_left fun _ => not_isSpurious_of_mem_map]

theorem isStrict_of_isPlain_message {fault : Fault} (h : IsPlain fault.message) :
    IsStrict fault.json := by
  rw [isStrict_fault_iff, characters_of_ascii h.lt]
  exact fun _ => not_isSpurious_of_mem_map

theorem isPiece_of_calculate {character : Bytes} {offset : Nat}
    (h : calculate text = .error (.lexical character offset)) : IsPiece character := by
  rcases fault_cases_of_calculate h with hlexical | hgrammar | hzero
  · obtain ⟨i, hrest, hfault⟩ := lexical_of_tokenize hlexical
    cases hfault
    exact isPiece_firstCharacter hrest
  · cases hgrammar
  · cases hzero

/-- A quoted text is strict UTF-8 except where it holds a spurious sequence, and it is then the text
with each byte of no character replaced. The document of the fault that a calculation answers is
strict except where the fault is in a spurious sequence. -/
theorem quoted_isStrict_iff (text : Bytes) :
    (IsStrict (Quoted.encode text) ↔
      ∀ piece, IsSequence piece → IsSpurious piece → ¬piece <:+: text) ∧
    (IsStrict (Quoted.encode text) → ∃ quoted, Quoted.Escapes text quoted ∧
      Quoted.encode text = Quoted.quote :: quoted ++ [Quoted.quote]) ∧
    ∀ fault, calculate text = .error fault →
      (IsStrict fault.json ↔
        ∀ character offset, fault = .lexical character offset → ¬IsSpurious character) := by
  refine ⟨Quoted.isStrict_encode_iff, Quoted.escapes_of_isStrict, ?_⟩
  intro fault hfault
  by_cases hlexical : ∃ character offset, fault = .lexical character offset
  · obtain ⟨character, offset, rfl⟩ := hlexical
    rw [isStrict_lexical_iff (isPiece_of_calculate hfault) offset]
    constructor
    · intro h _ _ heq
      cases heq
      exact h
    · intro h
      exact h character offset rfl
  · have hplain : IsPlain fault.message :=
      Fault.isPlain_message fun character offset heq => hlexical ⟨character, offset, heq⟩
    refine iff_of_true (isStrict_of_isPlain_message hplain) ?_
    intro character offset heq
    exact absurd ⟨character, offset, heq⟩ hlexical

/-- A sequence above U+10FFFF gets into the document of its fault as it is. -/
theorem quoted_isStrict_beyond :
    calculate (ascii "2" ++ [0xF4, 0x90, 0x80, 0x80]) =
        .error (.lexical [0xF4, 0x90, 0x80, 0x80] 1) ∧
      ¬IsStrict (Fault.lexical [0xF4, 0x90, 0x80, 0x80] 1).json := by
  have htokens : tokenize (ascii "2" ++ [0xF4, 0x90, 0x80, 0x80]) =
      .error (.lexical [0xF4, 0x90, 0x80, 0x80] 1) := by decide +kernel
  have hfault : calculate (ascii "2" ++ [0xF4, 0x90, 0x80, 0x80]) =
      .error (.lexical [0xF4, 0x90, 0x80, 0x80] 1) := by
    rw [calculate, htokens, error_bind]
  refine ⟨hfault, ?_⟩
  intro hstrict
  exact ((quoted_isStrict_iff _).2.2 _ hfault).mp hstrict _ _ rfl (.beyond (by decide))

end Calculator
