import Calculator.Proofs.StringDecoding

/-!
Quoted text decoded. Every piece of a text is decoded to itself, or to U+FFFD where it is a byte of
no sequence, so quoting loses nothing of a strict text. The quote that ends the string is the one
that was put there, as every quote and every backslash of the text is escaped. Quoting goes through
a text by places, and comes to its end without looking or reaching beyond it (`escapesFrom?_eq`).
-/

namespace Calculator

open Json Utf8

variable {text piece rest : Bytes} {pieces : List Bytes} {byte : UInt8}

namespace Utf8

/-- A text and what is left of it when the bytes of no sequence are replaced one by one, from the
left to the right. -/
inductive Repairs : Bytes → Bytes → Prop
  | nil : Repairs [] []
  | sequence {piece text content : Bytes} (hpiece : piece ≠ [])
      (hlength : sequenceLength (piece ++ text) = piece.length) (h : Repairs text content) :
      Repairs (piece ++ text) (piece ++ content)
  | stray {byte : UInt8} {text content : Bytes} (hlength : sequenceLength (byte :: text) = 0)
      (h : Repairs text content) : Repairs (byte :: text) (replacement ++ content)

theorem IsPiece.ne_nil (h : IsPiece piece) : piece ≠ [] := by
  cases h with
  | sequence h => exact h.ne_nil
  | stray => exact List.cons_ne_nil _ _

theorem isSequence_of_length (hpiece : piece ≠ [])
    (h : sequenceLength (piece ++ rest) = piece.length) : IsSequence piece := by
  have hpos := List.length_pos_iff.mpr hpiece
  obtain ⟨byte, tail, rfl⟩ := List.exists_cons_of_ne_nil hpiece
  have hsome : sequenceLength (byte :: (tail ++ rest)) ≠ 0 := Nat.ne_of_gt (h ▸ hpos)
  obtain ⟨sequence, behind, hsequence, htext⟩ := exists_sequence hsome
  rw [List.cons_append, htext, sequenceLength_append hsequence] at h
  rw [← List.cons_append] at htext
  exact (List.append_inj htext h.symm).1 ▸ hsequence

theorem repair_sequence (h : IsSequence piece) (rest : Bytes) :
    repair (piece ++ rest) = piece ++ repair rest := by
  rw [repair, characters_sequence h, List.flatMap_cons, repairPiece_of_isSequence h, repair]

theorem repair_stray (h : sequenceLength (byte :: rest) = 0) :
    repair (byte :: rest) = replacement ++ repair rest := by
  rw [repair, characters_stray h, List.flatMap_cons, repairPiece,
    if_neg (UInt8.not_lt.mpr (le_of_sequenceLength h)), repair]

theorem repairs_iff {content : Bytes} : Repairs text content ↔ content = repair text := by
  constructor
  · intro h
    induction h with
    | nil => rw [repair, characters_nil, List.flatMap_nil]
    | sequence hpiece hlength h ih =>
        rw [repair_sequence (isSequence_of_length hpiece hlength), ih]
    | stray hlength h ih => rw [repair_stray hlength, ih]
  · rintro rfl
    induction text using pieces_induction with
    | nil =>
        rw [repair, characters_nil, List.flatMap_nil]
        exact .nil
    | sequence piece rest hpiece ih =>
        rw [repair_sequence hpiece]
        exact .sequence hpiece.ne_nil (sequenceLength_append hpiece rest) ih
    | stray byte rest hbyte ih =>
        rw [repair_stray hbyte]
        exact .stray hbyte ih

end Utf8

namespace Quoted

theorem content?_escapeAscii (hbyte : byte < 0x80) (rest : Bytes) :
    content? (escapeAscii byte ++ rest) = (content? rest).map (Prod.map ([byte] ++ ·) id) := by
  obtain ⟨c, hc, hencode⟩ := exists_asciiCharacter hbyte
  rcases escapeAscii_cases byte with
    ⟨letter, hletter, heq⟩ | ⟨hcontrol, heq⟩ | ⟨hle, hquote, hbackslash, heq⟩
  · have hsubset : letters ⊆ escapes := by decide
    rw [heq]
    exact content?_escape (unescape?_letter (hsubset hletter) rest)
  · have hunit := (codeUnit_control byte).trans (congrArg some hc.symm)
    rw [heq, ← hencode]
    exact content?_escape (unescape?_unit hunit rest)
  · rw [heq]
    exact content?_append (List.forall_mem_singleton.mpr ⟨hle, hquote, hbackslash⟩) rest

/-- A piece of a text is decoded to what is left of it. -/
theorem content?_escapePiece (h : IsPiece piece) (rest : Bytes) :
    content? (escape piece ++ rest) =
      (content? rest).map (Prod.map (repairPiece piece ++ ·) id) := by
  have hlong (h : IsSequence piece) (hlength : 2 ≤ piece.length) :
      content? (piece ++ rest) = (content? rest).map (Prod.map (piece ++ ·) id) :=
    content?_append (forall_mem_long h hlength) rest
  cases h with
  | @stray byte hbyte =>
      have hunit : codeUnit 0x46 0x46 0x46 0x44 = some (Char.ofNat 0xFFFD).toNat := by decide
      rw [escape, repairPiece, if_neg (UInt8.not_lt.mpr hbyte), if_neg (UInt8.not_lt.mpr hbyte)]
      exact content?_escape (unescape?_unit hunit rest)
  | sequence h =>
      cases h with
      | one hbyte =>
          rw [escape, repairPiece, if_pos hbyte, if_pos hbyte]
          exact content?_escapeAscii hbyte rest
      | two ha ha' hb => exact hlong (.two ha ha' hb) (by simp)
      | three ha ha' hb hc => exact hlong (.three ha ha' hb hc) (by simp)
      | four ha ha' hb hc hd => exact hlong (.four ha ha' hb hc hd) (by simp)

theorem content?_flatMap (h : ∀ piece ∈ pieces, IsPiece piece) (rest : Bytes) :
    content? (pieces.flatMap escape ++ quote :: rest) =
      some (pieces.flatMap repairPiece, rest) := by
  induction pieces with
  | nil => exact content?_quote rest
  | cons piece pieces ih =>
      obtain ⟨hpiece, hpieces⟩ := List.forall_mem_cons.mp h
      rw [List.flatMap_cons, List.append_assoc, content?_escapePiece hpiece, ih hpieces]
      rfl

theorem string?_encode (text rest : Bytes) :
    string? (encode text ++ rest) = some (repair text, rest) := by
  rw [encode, List.append_assoc, List.cons_append, List.singleton_append, string?_cons]
  exact content?_flatMap (fun _ => isPiece_of_mem_characters) rest

/-- The `n` bytes at a place, which all have to be there. -/
def slice? (text : Bytes) (i n : Nat) : Option Bytes :=
  if i + n ≤ text.length then some ((text.drop i).take n) else none

/-- The length of the sequence at a place, where each byte that is looked at has to be there. -/
def lengthAt? (text : Bytes) (i : Nat) : Option Nat := do
  let lead ← text[i]?
  if announced lead = 0 ∨ text.length < i + announced lead then some 0
  else
    let tail ← (List.range' (i + 1) (announced lead - 1)).mapM (text[·]?)
    some (if tail.all isContinuation then announced lead else 0)

/-- What stands between the quotes for a text from a place on. -/
def escapesFrom? (text : Bytes) (i : Nat) : Option Bytes :=
  if i < text.length then do
    let n ← lengthAt? text i
    let piece ← slice? text i (max 1 n)
    let behind ← escapesFrom? text (i + max 1 n)
    some (escape piece ++ behind)
  else some []
termination_by text.length - i
decreasing_by omega

theorem mapM_getElem? {i n : Nat} (h : i + n ≤ text.length) :
    (List.range' i n).mapM (text[·]?) = some ((text.drop i).take n) := by
  induction n generalizing i with
  | zero => rfl
  | succ n ih =>
      have hi : i < text.length := by omega
      rw [List.range'_succ, List.mapM_cons, List.getElem?_eq_getElem hi, ih (by omega),
        List.drop_eq_getElem_cons hi]
      rfl

theorem lengthAt?_eq {i : Nat} (hi : i < text.length) :
    lengthAt? text i = some (sequenceLength (text.drop i)) := by
  rw [lengthAt?, List.getElem?_eq_getElem hi, List.drop_eq_getElem_cons hi, sequenceLength]
  generalize text[i] = lead
  change (if announced lead = 0 ∨ text.length < i + announced lead then _ else _) = _
  have hlength := List.length_drop (i := i + 1) (l := text)
  by_cases hnone : announced lead = 0
  · rw [if_pos (Or.inl hnone), hnone]
    simp
  by_cases hend : text.length < i + announced lead
  · rw [if_pos (Or.inr hend), if_neg]
    rintro ⟨htail, -⟩
    rw [List.length_take] at htail
    omega
  · rw [if_neg (not_or.mpr ⟨hnone, hend⟩), mapM_getElem? (by omega)]
    simp only [List.length_take]
    rw [Nat.min_eq_left (by omega)]
    simp

theorem sequenceLength_le (text : Bytes) : sequenceLength text ≤ text.length := by
  cases text with
  | nil => exact Nat.le_refl 0
  | cons byte rest =>
      by_cases h : sequenceLength (byte :: rest) = 0
      · omega
      · obtain ⟨piece, tail, hpiece, htext⟩ := exists_sequence h
        rw [htext, sequenceLength_append hpiece, List.length_append]
        exact Nat.le_add_right _ _

theorem characters_of_ne_nil (h : text ≠ []) : characters text =
    firstCharacter text :: characters (text.drop (characterLength text)) := by
  have hsplit : firstCharacter text ++ text.drop (characterLength text) = text :=
    List.take_append_drop _ _
  have hcut := characters_of_firstCharacter (isPiece_firstCharacter h).ne_nil
    (congrArg firstCharacter hsplit)
  rwa [hsplit] at hcut

/-- Every byte that is looked at and every piece that is taken lies within the text. -/
theorem escapesFrom?_eq {i : Nat} (hi : i ≤ text.length) :
    escapesFrom? text i = some ((characters (text.drop i)).flatMap escape) := by
  induction hleft : text.length - i using Nat.strongRecOn generalizing i with
  | ind left ih =>
    rw [escapesFrom?]
    by_cases hend : i < text.length
    · have hlength := sequenceLength_le (text.drop i)
      rw [List.length_drop] at hlength
      have hslice : slice? text i (characterLength (text.drop i)) =
          some (firstCharacter (text.drop i)) :=
        if_pos (by rw [characterLength]; omega)
      have hbehind := ih (text.length - (i + characterLength (text.drop i)))
        (by rw [characterLength]; omega) (i := i + characterLength (text.drop i))
        (by rw [characterLength]; omega) rfl
      rw [characterLength] at hslice hbehind
      rw [if_pos hend, lengthAt?_eq hend]
      change (do
        let piece ← slice? text i (max 1 (sequenceLength (text.drop i)))
        let behind ← escapesFrom? text (i + max 1 (sequenceLength (text.drop i)))
        some (escape piece ++ behind)) = _
      have hne : text.drop i ≠ [] := by simpa using hend
      rw [hslice, hbehind, characters_of_ne_nil hne, List.flatMap_cons, List.drop_drop]
      rfl
    · rw [if_neg hend, List.drop_of_length_le (Nat.le_of_not_lt hend), characters_nil]
      rfl

/-- Decoding undoes quoting. What decodes every string of the grammar stops on quoted text at the
quote that was put behind it and finds the text, with U+FFFD in place of each byte of no sequence;
of a strict text it finds the text itself, which is therefore told by its string. No place beyond
the end of a text is looked at when it is quoted. -/
theorem decoding_undoes_encode :
    (∀ content quoted, IsQuoted content quoted →
      ∀ rest, string? (quoted ++ rest) = some (content, rest)) ∧
    (∀ text, ∃ content, (∀ other, Repairs text other ↔ other = content) ∧
      ∀ rest, string? (encode text ++ rest) = some (content, rest)) ∧
    (∀ text, IsStrict text → ∀ rest, string? (encode text ++ rest) = some (text, rest)) ∧
    (∀ text text', IsStrict text → IsStrict text' → encode text = encode text' → text = text') ∧
    ∀ text, ∃ inside,
      escapesFrom? text 0 = some inside ∧ encode text = quote :: inside ++ [quote] := by
  have hstrict (text : Bytes) (h : IsStrict text) (rest : Bytes) :
      string? (encode text ++ rest) = some (text, rest) := by
    rw [string?_encode, repair_of_isStrict h]
  refine ⟨fun content quoted => string?_of_isQuoted, ?_, hstrict, ?_, ?_⟩
  · exact fun text => ⟨repair text, fun other => repairs_iff, string?_encode text⟩
  · intro text text' h h' heq
    have hread := hstrict text h []
    rw [heq, hstrict text' h' []] at hread
    exact (Prod.mk.inj (Option.some.inj hread)).1.symm
  · intro text
    refine ⟨_, escapesFrom?_eq (Nat.zero_le _), ?_⟩
    rw [List.drop_zero, encode]

/-- Quotes, backslashes, control characters and the euro sign, in front of a quote. -/
theorem decoding_undoes_encode_escapes :
    ∃ text, text = [quote, 0x5C, 0x00, 0x7F, 0xE2, 0x82, 0xAC, 0x0A] ∧ IsStrict text ∧
      IsQuoted text (encode text) ∧ string? (encode text) = some (text, []) ∧
      string? (encode text ++ [quote]) = some (text, [quote]) ∧ encode text ≠ encode [] := by
  have hstrict : IsStrict [quote, 0x5C, 0x00, 0x7F, 0xE2, 0x82, 0xAC, 0x0A] :=
    ⟨['"', '\\', '\x00', '\x7F', '€', '\n'], by decide⟩
  have hquoted := isQuoted_of_isStrict hstrict
  obtain ⟨hstring, -, hdecoded, htold, -⟩ := decoding_undoes_encode
  have hread := hstring _ _ hquoted []
  rw [List.append_nil] at hread
  refine ⟨_, rfl, hstrict, hquoted, hread, hdecoded _ hstrict [quote], fun h => ?_⟩
  exact List.cons_ne_nil _ _ (htold _ _ hstrict isStrict_nil h)

end Quoted

end Calculator
