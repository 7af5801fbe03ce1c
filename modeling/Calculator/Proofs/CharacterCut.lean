import Calculator.Proofs.StrictUtf8

/-!
How a text falls into characters. In front of a text stands a sequence, which is cut off whole, or a
byte that leads none, which is a piece of its own. A byte that is no continuation byte starts a
piece wherever it stands (`characters_append`).
-/

namespace Calculator.Utf8

open String (utf8EncodeChar)

variable {piece rest a b text : Bytes} {byte : UInt8}

/-- What a text is cut into: sequences, and bytes beyond ASCII that belong to none. -/
inductive IsPiece : Bytes → Prop
  | sequence {piece : Bytes} (h : IsSequence piece) : IsPiece piece
  | stray {byte : UInt8} (h : 0x80 ≤ byte) : IsPiece [byte]

theorem IsSequence.ne_nil (h : IsSequence piece) : piece ≠ [] := by
  obtain ⟨lead, tail, rfl, -⟩ := h.exists_lead
  exact List.cons_ne_nil _ _

/-- Lead bytes are no continuation bytes. -/
theorem IsSequence.not_isContinuation (h : IsSequence piece) :
    ∀ x ∈ (piece ++ rest).head?, ¬isContinuation x := by
  have hlead : ∀ lead : UInt8, lead < 0x80 ∨ 0xC0 ≤ lead → ¬isContinuation lead := by
    intro lead hlead
    rw [isContinuation_iff]
    rw [UInt8.lt_iff_toNat_lt, UInt8.le_iff_toNat_le] at hlead
    exact fun h => hlead.elim (Nat.not_lt.mpr h.1) (Nat.not_le.mpr h.2)
  intro x hx
  cases h with
  | one ha =>
      cases hx
      exact hlead _ (Or.inl ha)
  | two ha | three ha | four ha =>
      cases hx
      exact hlead _ (Or.inr (UInt8.le_trans (by decide) ha))

/-- The bytes of a longer sequence lie beyond ASCII. -/
theorem IsSequence.le_of_mem (h : IsSequence piece) (hlong : 2 ≤ piece.length) :
    ∀ byte ∈ piece, 0x80 ≤ byte := by
  have hcontinuation {byte : UInt8} (hbyte : isContinuation byte) : 0x80 ≤ byte :=
    UInt8.le_iff_toNat_le.mpr (isContinuation_iff.mp hbyte).1
  cases h with
  | one => exact absurd hlong (Nat.not_succ_le_self 1)
  | two ha _ hb =>
      simp only [List.forall_mem_cons]
      exact ⟨UInt8.le_trans (by decide) ha, hcontinuation hb, List.forall_mem_nil _⟩
  | three ha _ hb hc =>
      simp only [List.forall_mem_cons]
      exact ⟨UInt8.le_trans (by decide) ha, hcontinuation hb, hcontinuation hc,
        List.forall_mem_nil _⟩
  | four ha _ hb hc hd =>
      simp only [List.forall_mem_cons]
      exact ⟨UInt8.le_trans (by decide) ha, hcontinuation hb, hcontinuation hc, hcontinuation hd,
        List.forall_mem_nil _⟩

theorem sequenceLength_append (h : IsSequence piece) (rest : Bytes) :
    sequenceLength (piece ++ rest) = piece.length := by
  obtain ⟨lead, tail, rfl, hlead, htail⟩ := h.exists_lead
  have htake : (tail ++ rest).take (announced lead - 1) = tail := by
    rw [hlead, Nat.add_sub_cancel, List.take_left]
  simp only [List.cons_append, sequenceLength, htake]
  rw [if_pos ⟨by omega, List.all_eq_true.mpr htail⟩, hlead, List.length_cons]

/-- A text starts with a sequence unless its first byte leads none. -/
theorem exists_sequence (h : sequenceLength (byte :: rest) ≠ 0) :
    ∃ piece tail, IsSequence piece ∧ byte :: rest = piece ++ tail := by
  simp only [sequenceLength] at h
  split at h
  · rename_i hsequence
    obtain ⟨hlength, htail⟩ := hsequence
    refine ⟨byte :: rest.take (announced byte - 1), rest.drop (announced byte - 1), ?_, ?_⟩
    · exact isSequence_cons (by omega) (List.all_eq_true.mp htail)
    · rw [List.cons_append, List.take_append_drop]
  · exact absurd rfl h

/-- A sequence across two texts would be one of the first text, or the first byte of the second one
would continue it. -/
theorem sequenceLength_append_eq_zero (h : sequenceLength (byte :: a) = 0)
    (hb : ∀ x ∈ b.head?, ¬isContinuation x) : sequenceLength (byte :: (a ++ b)) = 0 := by
  refine Decidable.of_not_not fun hne => ?_
  obtain ⟨piece, tail, hpiece, htext⟩ := exists_sequence hne
  rw [← List.cons_append] at htext
  rcases List.append_eq_append_iff.mp htext with ⟨behind, rfl, rfl⟩ | ⟨behind, hfront, -⟩
  · cases behind with
    | nil =>
        have hlength := sequenceLength_append hpiece []
        rw [List.append_nil, List.append_nil, h] at hlength
        cases hlength
    | cons x behind =>
        obtain ⟨lead, continuation, heq, -, hcontinuation⟩ := hpiece.exists_lead
        obtain ⟨rfl, rfl⟩ := List.cons.inj heq
        exact hb x rfl (hcontinuation x (List.mem_append_right a List.mem_cons_self))
  · have hlength := sequenceLength_append hpiece behind
    rw [← hfront, h] at hlength
    exact hpiece.ne_nil (List.length_eq_zero_iff.mp hlength.symm)

/-- A byte beyond ASCII by itself leads no sequence. -/
theorem sequenceLength_singleton (h : 0x80 ≤ byte) : sequenceLength [byte] = 0 := by
  refine Decidable.of_not_not fun hne => ?_
  obtain ⟨piece, tail, hpiece, htext⟩ := exists_sequence hne
  cases hpiece with
  | one ha =>
      obtain rfl := (List.cons.inj htext).1
      exact UInt8.not_lt.mpr h ha
  | two | three | four => cases htext

theorem le_of_sequenceLength (h : sequenceLength (byte :: rest) = 0) : 0x80 ≤ byte := by
  apply UInt8.not_lt.mp
  intro hbyte
  have hlength := sequenceLength_append (.one hbyte) rest
  rw [List.singleton_append, h] at hlength
  cases hlength

theorem characterLength_append (h : IsSequence piece) (rest : Bytes) :
    characterLength (piece ++ rest) = piece.length := by
  rw [characterLength, sequenceLength_append h,
    Nat.max_eq_right (List.length_pos_iff.mpr h.ne_nil)]

theorem firstCharacter_append (h : IsSequence piece) (rest : Bytes) :
    firstCharacter (piece ++ rest) = piece := by
  rw [firstCharacter, characterLength_append h, List.take_left]

theorem firstCharacter_stray (h : sequenceLength (byte :: rest) = 0) :
    firstCharacter (byte :: rest) = [byte] := by
  rw [firstCharacter, characterLength, h]
  rfl

/-- Every text with something in it starts with a piece. -/
theorem isPiece_firstCharacter (h : text ≠ []) : IsPiece (firstCharacter text) := by
  obtain ⟨byte, rest, rfl⟩ := List.exists_cons_of_ne_nil h
  by_cases h : sequenceLength (byte :: rest) = 0
  · rw [firstCharacter_stray h]
    exact .stray (le_of_sequenceLength h)
  · obtain ⟨piece, tail, hpiece, htext⟩ := exists_sequence h
    rw [htext, firstCharacter_append hpiece]
    exact .sequence hpiece

theorem characters_nil : characters [] = [] := by
  rw [characters, charactersFrom, List.reverse_nil]

theorem charactersFrom_append (cut behind : List Bytes) (text : Bytes) :
    charactersFrom (cut ++ behind) text = behind.reverse ++ charactersFrom cut text := by
  fun_induction charactersFrom cut text with
  | case1 cut => rw [charactersFrom, List.reverse_append]
  | case2 cut byte rest ih =>
    rw [charactersFrom]
    exact ih

theorem characters_of_firstCharacter (hpiece : piece ≠ [])
    (h : firstCharacter (piece ++ rest) = piece) :
    characters (piece ++ rest) = piece :: characters rest := by
  obtain ⟨byte, tail, rfl⟩ := List.exists_cons_of_ne_nil hpiece
  have hdrop : (byte :: tail ++ rest).drop (characterLength (byte :: tail ++ rest)) = rest := by
    have hboth :=
      List.take_append_drop (characterLength (byte :: tail ++ rest)) (byte :: tail ++ rest)
    rw [← firstCharacter, h] at hboth
    exact List.append_cancel_left hboth
  rw [characters, List.cons_append, charactersFrom, ← List.cons_append, ← firstCharacter, h, hdrop]
  exact charactersFrom_append [] [byte :: tail] rest

theorem characters_sequence (h : IsSequence piece) (rest : Bytes) :
    characters (piece ++ rest) = piece :: characters rest :=
  characters_of_firstCharacter h.ne_nil (firstCharacter_append h rest)

theorem characters_stray (h : sequenceLength (byte :: rest) = 0) :
    characters (byte :: rest) = [byte] :: characters rest :=
  characters_of_firstCharacter (List.cons_ne_nil byte []) (firstCharacter_stray h)

/-- Texts are nothing, or start with a sequence or with a byte that leads none. -/
theorem pieces_induction {motive : Bytes → Prop} (nil : motive [])
    (sequence : ∀ piece rest, IsSequence piece → motive rest → motive (piece ++ rest))
    (stray : ∀ byte rest, sequenceLength (byte :: rest) = 0 → motive rest → motive (byte :: rest))
    (text : Bytes) : motive text := by
  induction hlength : text.length using Nat.strongRecOn generalizing text with
  | ind n ih =>
    cases text with
    | nil => exact nil
    | cons byte rest =>
        rw [List.length_cons] at hlength
        by_cases h : sequenceLength (byte :: rest) = 0
        · exact stray byte rest h (ih rest.length (by omega) rest rfl)
        · obtain ⟨piece, tail, hpiece, htext⟩ := exists_sequence h
          have hboth := congrArg List.length htext
          have hpos := List.length_pos_iff.mpr hpiece.ne_nil
          rw [List.length_cons, List.length_append] at hboth
          rw [htext]
          exact sequence piece tail hpiece (ih tail.length (by omega) tail rfl)

/-- Two texts are cut one after the other if the second starts with no continuation byte. -/
theorem characters_append (a : Bytes) (hb : ∀ x ∈ b.head?, ¬isContinuation x) :
    characters (a ++ b) = characters a ++ characters b := by
  induction a using pieces_induction with
  | nil => rw [characters_nil, List.nil_append, List.nil_append]
  | sequence piece rest hpiece ih =>
      rw [List.append_assoc, characters_sequence hpiece, characters_sequence hpiece, ih,
        List.cons_append]
  | stray byte rest h ih =>
      rw [characters_stray h, List.cons_append,
        characters_stray (sequenceLength_append_eq_zero h hb), ih, List.cons_append]

theorem IsPiece.characters_eq (h : IsPiece piece) : characters piece = [piece] := by
  cases h with
  | sequence h =>
      have hcut := characters_sequence h []
      rwa [List.append_nil, characters_nil] at hcut
  | stray h => rw [characters_stray (sequenceLength_singleton h), characters_nil]

/-- ASCII bytes are characters, each by itself. -/
theorem characters_append_of_ascii (h : ∀ byte ∈ a, byte < 0x80) (b : Bytes) :
    characters (a ++ b) = a.map ([·]) ++ characters b := by
  induction a with
  | nil => rfl
  | cons byte a ih =>
      obtain ⟨hbyte, ha⟩ := List.forall_mem_cons.mp h
      have hcut := characters_sequence (.one hbyte) (a ++ b)
      rw [List.singleton_append] at hcut
      rw [List.cons_append, hcut, ih ha, List.map_cons, List.cons_append]

theorem characters_of_ascii (h : ∀ byte ∈ a, byte < 0x80) : characters a = a.map ([·]) := by
  rw [← a.append_nil, characters_append_of_ascii h, characters_nil, List.append_nil,
    List.append_nil]

/-- A strict text is cut into its characters. -/
theorem characters_flatMap (cs : List Char) :
    characters (cs.flatMap utf8EncodeChar) = cs.map utf8EncodeChar := by
  induction cs with
  | nil => exact characters_nil
  | cons c cs ih =>
      rw [List.flatMap_cons, characters_sequence (isSequence_utf8EncodeChar c), ih, List.map_cons]

/-- Texts are cut into pieces. -/
theorem isPiece_of_mem_characters (h : piece ∈ characters text) : IsPiece piece := by
  induction text using pieces_induction with
  | nil => cases characters_nil ▸ h
  | sequence first rest hfirst ih =>
      rw [characters_sequence hfirst] at h
      cases h with
      | head => exact .sequence hfirst
      | tail _ h => exact ih h
  | stray byte rest hbyte ih =>
      rw [characters_stray hbyte] at h
      cases h with
      | head => exact .stray (le_of_sequenceLength hbyte)
      | tail _ h => exact ih h

/-- A sequence is cut off wherever it stands, since its lead byte continues nothing. -/
theorem mem_characters_iff (h : IsSequence piece) : piece ∈ characters text ↔ piece <:+: text := by
  constructor
  · intro hmem
    rw [← flatten_characters text]
    exact List.infix_of_mem_flatten hmem
  · rintro ⟨a, b, rfl⟩
    rw [List.append_assoc, characters_append a h.not_isContinuation, characters_sequence h]
    exact List.mem_append_right _ List.mem_cons_self

end Calculator.Utf8
