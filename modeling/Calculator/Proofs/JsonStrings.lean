import Calculator.Proofs.JsonGrammar
import Calculator.Proofs.QuotedStrict

/-!
Quoted text as JSON strings. A text without spurious sequences is quoted as a string that stands for
it, with U+FFFD for each byte of no sequence.
-/

namespace Calculator

open Json Utf8
open String (utf8EncodeChar)

variable {piece content text : Bytes} {pieces : List Bytes} {byte : UInt8}

namespace Utf8

/-- The character that takes the place of a byte of no sequence. -/
def replacement : Bytes := [0xEF, 0xBF, 0xBD]

/-- A piece of a text, replaced if it is a byte of no sequence. -/
def repairPiece : Bytes → Bytes
  | [byte] => if byte < 0x80 then [byte] else replacement
  | piece => piece

/-- A text with its bytes of no sequence replaced. -/
def repair (text : Bytes) : Bytes := (characters text).flatMap repairPiece

theorem repairPiece_of_isSequence (h : IsSequence piece) : repairPiece piece = piece := by
  cases h with
  | one hbyte => exact if_pos hbyte
  | two | three | four => rfl

/-- A strict text holds nothing to replace. -/
theorem repair_of_isStrict (h : IsStrict text) : repair text = text := by
  obtain ⟨cs, rfl⟩ := h
  rw [repair, characters_flatMap, List.flatMap_map]
  exact List.flatMap_congr fun c _ => repairPiece_of_isSequence (isSequence_utf8EncodeChar c)

theorem isPiece_singleton (byte : UInt8) : IsPiece [byte] := by
  by_cases h : byte < 0x80
  · exact .sequence (.one h)
  · exact .stray (UInt8.not_lt.mp h)

/-- Characters of more than one byte have numbers beyond ASCII. -/
theorem le_of_length_utf8EncodeChar {c : Char} (h : 2 ≤ (utf8EncodeChar c).length) :
    0x80 ≤ c.toNat := by
  refine Decidable.of_not_not fun hc => ?_
  rw [utf8EncodeChar_eq rfl, if_pos (by change ¬0x80 ≤ c.val.toNat at hc; omega)] at h
  exact absurd h (Nat.not_succ_le_self 1)

end Utf8

namespace Quoted

theorem hexValue_hexDigit {value : UInt8} (h : value < 0x10) :
    hexValue (hexDigit value) = some value.toNat :=
  of_lt_sixteen (P := fun v => hexValue (hexDigit v) = some v.toNat) (by decide) h

theorem codeUnit_control (byte : UInt8) :
    codeUnit 0x30 0x30 (hexDigit (byte / 16)) (hexDigit (byte % 16)) = some byte.toNat := by
  have hzero : hexValue 0x30 = some 0 := by decide
  have hsplit : 0x10 * (byte.toNat / 16) + byte.toNat % 16 = byte.toNat := Nat.div_add_mod _ _
  simp only [codeUnit, hzero, hexValue_hexDigit (div_lt byte), hexValue_hexDigit (mod_lt byte),
    Option.bind_eq_bind, Option.bind_some, UInt8.toNat_div, UInt8.toNat_mod, UInt8.reduceToNat,
    Nat.mul_zero, Nat.zero_add, hsplit]

theorem inside_escapeAscii (hbyte : byte < 0x80) (h : Inside content text) :
    Inside (byte :: content) (escapeAscii byte ++ text) := by
  obtain ⟨c, hc, hencode⟩ := exists_asciiCharacter hbyte
  rcases escapeAscii_cases byte with
    ⟨letter, hletter, heq⟩ | ⟨hcontrol, heq⟩ | ⟨hle, hquote, hbackslash, heq⟩
  · have hsubset : letters ⊆ escapes := by decide
    rw [heq]
    exact .letter (hsubset hletter) h
  · rw [heq, ← List.singleton_append, ← hencode]
    exact .unit ((codeUnit_control byte).trans (congrArg some hc.symm)) h
  · rw [heq, ← List.singleton_append, ← hencode]
    refine .plain ?_ ?_ ?_ h
    · rw [hc]
      exact UInt8.le_iff_toNat_le.mp hle
    · rw [hc]
      exact fun heq => hquote (UInt8.toNat_inj.mp heq)
    · rw [hc]
      exact fun heq => hbackslash (UInt8.toNat_inj.mp heq)

/-- Sequences of more than one byte stay as they are, which a string allows beyond ASCII. -/
theorem inside_escape (hpiece : IsPiece piece) (hspurious : ¬IsSpurious piece)
    (h : Inside content text) : Inside (repairPiece piece ++ content) (escape piece ++ text) := by
  cases hpiece with
  | stray hbyte =>
      rw [repairPiece, escape, if_neg (UInt8.not_lt.mpr hbyte), if_neg (UInt8.not_lt.mpr hbyte)]
      have hunit : codeUnit 0x46 0x46 0x46 0x44 = some (Char.ofNat 0xFFFD).toNat := by decide
      exact .unit hunit h
  | sequence hsequence =>
      obtain ⟨c, hc⟩ := exists_utf8EncodeChar_eq hsequence hspurious
      have hlong (hlength : 2 ≤ piece.length) : Inside (piece ++ content) (piece ++ text) := by
        rw [← hc] at hlength ⊢
        have hle := le_of_length_utf8EncodeChar hlength
        exact .plain (by omega) (by omega) (by omega) h
      cases hsequence with
      | one ha =>
          rw [repairPiece, escape, if_pos ha, if_pos ha]
          exact inside_escapeAscii ha h
      | two | three | four => exact hlong (by simp)

theorem inside_flatMap (hpieces : ∀ piece ∈ pieces, IsPiece piece)
    (hspurious : ∀ piece ∈ pieces, ¬IsSpurious piece) :
    Inside (pieces.flatMap repairPiece) (pieces.flatMap escape) := by
  induction pieces with
  | nil => exact .nil
  | cons piece pieces ih =>
      obtain ⟨hpiece, hpieces⟩ := List.forall_mem_cons.mp hpieces
      obtain ⟨hnot, hspurious⟩ := List.forall_mem_cons.mp hspurious
      exact inside_escape hpiece hnot (ih hpieces hspurious)

/-- Text without spurious sequences is quoted as a string of JSON. -/
theorem isQuoted_encode (h : ∀ piece ∈ characters text, ¬IsSpurious piece) :
    IsQuoted (repair text) (encode text) :=
  .mk (inside_flatMap (fun _ => isPiece_of_mem_characters) h)

/-- Strict text stands for itself behind its quotes. -/
theorem isQuoted_of_isStrict (h : IsStrict text) : IsQuoted text (encode text) := by
  have hquoted : IsQuoted (repair text) (encode text) := by
    apply isQuoted_encode
    obtain ⟨cs, rfl⟩ := h
    rw [characters_flatMap]
    exact List.forall_mem_map.mpr fun c _ => not_isSpurious_utf8EncodeChar c
  rwa [repair_of_isStrict h] at hquoted

theorem isQuoted_of_plain (h : IsPlain text) : IsQuoted text (encode text) :=
  isQuoted_of_isStrict (isStrict_of_ascii h.lt)

theorem isQuoted_singleton (byte : UInt8) : IsQuoted (repair [byte]) (encode [byte]) := by
  apply isQuoted_encode
  rw [(isPiece_singleton byte).characters_eq, List.forall_mem_singleton]
  exact not_isSpurious_singleton byte

theorem isPlain_encode (h : ∀ piece ∈ characters text, IsPlain (escape piece)) :
    IsPlain (encode text) := by
  rw [encode, isPlain_append, isPlain_cons]
  exact ⟨⟨by decide, isPlain_flatMap h⟩, by decide⟩

theorem isPlain_encode_of_plain (h : IsPlain text) : IsPlain (encode text) := by
  apply isPlain_encode
  rw [characters_of_ascii h.lt, List.forall_mem_map]
  exact fun byte _ => isPlain_escape_singleton byte

theorem isPlain_encode_singleton (byte : UInt8) : IsPlain (encode [byte]) := by
  apply isPlain_encode
  rw [(isPiece_singleton byte).characters_eq, List.forall_mem_singleton]
  exact isPlain_escape_singleton byte

end Quoted

end Calculator
