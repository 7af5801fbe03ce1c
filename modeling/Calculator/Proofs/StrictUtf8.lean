import Calculator.Proofs.CursorStep

/-!
UTF-8 in the strict sense: texts that are the characters of Unicode one after the other, each in the
only form it has. The sequences that a text is cut into are judged by their lead and continuation
bytes alone, and this is not the whole of it: `isStrict_append_iff` says that a sequence is a
character exactly if it is not one of four spurious kinds.
-/

namespace Calculator.Utf8

open String (utf8EncodeChar)

/-- The texts that are characters one after the other. -/
def IsStrict (text : Bytes) : Prop := ∃ characters : List Char,
  text = characters.flatMap utf8EncodeChar

/-- A lead byte with the continuation bytes that it announces. -/
inductive IsSequence : Bytes → Prop
  | one {a : UInt8} (ha : a < 0x80) : IsSequence [a]
  | two {a b : UInt8} (ha : 0xC2 ≤ a) (ha' : a < 0xE0) (hb : isContinuation b) : IsSequence [a, b]
  | three {a b c : UInt8} (ha : 0xE0 ≤ a) (ha' : a < 0xF0) (hb : isContinuation b)
      (hc : isContinuation c) : IsSequence [a, b, c]
  | four {a b c d : UInt8} (ha : 0xF0 ≤ a) (ha' : a < 0xF5) (hb : isContinuation b)
      (hc : isContinuation c) (hd : isContinuation d) : IsSequence [a, b, c, d]

/-- The sequences that stand for no character: forms longer than they have to be, surrogates, and
what lies above U+10FFFF. -/
inductive IsSpurious : Bytes → Prop
  | overlongThree {b c : UInt8} (hb : b < 0xA0) : IsSpurious [0xE0, b, c]
  | surrogate {b c : UInt8} (hb : 0xA0 ≤ b) : IsSpurious [0xED, b, c]
  | overlongFour {b c d : UInt8} (hb : b < 0x90) : IsSpurious [0xF0, b, c, d]
  | beyond {b c d : UInt8} (hb : 0x90 ≤ b) : IsSpurious [0xF4, b, c, d]

theorem toNat_ofNat_of_lt {n : Nat} (h : n < 256) : (UInt8.ofNat n).toNat = n :=
  UInt8.toNat_ofNat'.trans (Nat.mod_eq_of_lt h)

theorem ofNat_eq_iff {n : Nat} {byte : UInt8} : UInt8.ofNat n = byte ↔ n % 256 = byte.toNat := by
  rw [← UInt8.toNat_inj, UInt8.toNat_ofNat']

theorem ofNat_le_ofNat {m n : Nat} (h : m ≤ n) (hn : n < 256) :
    UInt8.ofNat m ≤ UInt8.ofNat n := by
  rw [UInt8.le_iff_toNat_le, toNat_ofNat_of_lt hn, toNat_ofNat_of_lt (by omega)]
  exact h

theorem ofNat_lt_ofNat {m n : Nat} (h : m < n) (hn : n < 256) :
    UInt8.ofNat m < UInt8.ofNat n := by
  rw [UInt8.lt_iff_toNat_lt, toNat_ofNat_of_lt hn, toNat_ofNat_of_lt (by omega)]
  exact h

theorem isContinuation_iff {byte : UInt8} :
    isContinuation byte ↔ 0x80 ≤ byte.toNat ∧ byte.toNat < 0xC0 := by
  simp [isContinuation, UInt8.le_iff_toNat_le, UInt8.lt_iff_toNat_lt]

/-- Continuation bytes carry six bits each. -/
theorem isContinuation_ofNat (n : Nat) : isContinuation (UInt8.ofNat (n % 64 + 0x80)) := by
  rw [isContinuation_iff, toNat_ofNat_of_lt (by omega)]
  omega

/-- Surrogates are not among the characters. -/
theorem character_cases (c : Char) :
    c.val.toNat < 0xD800 ∨ 0xDFFF < c.val.toNat ∧ c.val.toNat < 0x110000 :=
  c.valid

theorem exists_character {n : Nat} (h : n < 0xD800 ∨ 0xDFFF < n ∧ n < 0x110000) :
    ∃ c : Char, c.val.toNat = n :=
  ⟨Char.ofNatAux n h, rfl⟩

/-- The four forms of characters, by the number of a character. -/
theorem utf8EncodeChar_eq {c : Char} {n : Nat} (h : c.val.toNat = n) :
    utf8EncodeChar c =
      if n ≤ 0x7F then [UInt8.ofNat n]
      else if n ≤ 0x7FF then [UInt8.ofNat (n / 64 % 32 + 0xC0), UInt8.ofNat (n % 64 + 0x80)]
      else if n ≤ 0xFFFF then
        [UInt8.ofNat (n / 4096 % 16 + 0xE0), UInt8.ofNat (n / 64 % 64 + 0x80),
          UInt8.ofNat (n % 64 + 0x80)]
      else
        [UInt8.ofNat (n / 262144 % 8 + 0xF0), UInt8.ofNat (n / 4096 % 64 + 0x80),
          UInt8.ofNat (n / 64 % 64 + 0x80), UInt8.ofNat (n % 64 + 0x80)] := by
  rw [← h]
  rfl

theorem isSequence_utf8EncodeChar (c : Char) : IsSequence (utf8EncodeChar c) := by
  have hvalid := character_cases c
  rw [utf8EncodeChar_eq rfl]
  generalize c.val.toNat = n at hvalid ⊢
  split
  · exact .one (ofNat_lt_ofNat (n := 0x80) (by omega) (by decide))
  split
  · exact .two (ofNat_le_ofNat (m := 0xC2) (by omega) (by omega))
      (ofNat_lt_ofNat (n := 0xE0) (by omega) (by decide)) (isContinuation_ofNat _)
  split
  · exact .three (ofNat_le_ofNat (m := 0xE0) (by omega) (by omega))
      (ofNat_lt_ofNat (n := 0xF0) (by omega) (by decide)) (isContinuation_ofNat _)
      (isContinuation_ofNat _)
  · exact .four (ofNat_le_ofNat (m := 0xF0) (by omega) (by omega))
      (ofNat_lt_ofNat (n := 0xF5) (by omega) (by decide)) (isContinuation_ofNat _)
      (isContinuation_ofNat _) (isContinuation_ofNat _)

theorem exists_number_of_three {x : Char} {a b c : UInt8} (h : utf8EncodeChar x = [a, b, c]) :
    ∃ n, 0x800 ≤ n ∧ n < 0x10000 ∧ (n < 0xD800 ∨ 0xDFFF < n) ∧
      a.toNat = n / 4096 + 0xE0 ∧ b.toNat = n / 64 % 64 + 0x80 := by
  have hvalid := character_cases x
  rw [utf8EncodeChar_eq rfl] at h
  generalize x.val.toNat = n at hvalid h
  split at h
  · cases h
  split at h
  · cases h
  split at h
  · cases h
    refine ⟨n, by omega, by omega, by omega, ?_, ?_⟩
    · rw [toNat_ofNat_of_lt (by omega)]
      omega
    · exact toNat_ofNat_of_lt (by omega)
  · cases h

theorem exists_number_of_four {x : Char} {a b c d : UInt8}
    (h : utf8EncodeChar x = [a, b, c, d]) :
    ∃ n, 0x10000 ≤ n ∧ n < 0x110000 ∧ a.toNat = n / 262144 + 0xF0 ∧
      b.toNat = n / 4096 % 64 + 0x80 := by
  have hvalid := character_cases x
  rw [utf8EncodeChar_eq rfl] at h
  generalize x.val.toNat = n at hvalid h
  split at h
  · cases h
  split at h
  · cases h
  split at h
  · cases h
  · cases h
    refine ⟨n, by omega, by omega, ?_, ?_⟩
    · rw [toNat_ofNat_of_lt (by omega)]
      omega
    · exact toNat_ofNat_of_lt (by omega)

/-- The numbers of characters keep the byte behind the lead byte in its range. -/
theorem not_isSpurious_utf8EncodeChar (c : Char) : ¬IsSpurious (utf8EncodeChar c) := by
  intro h
  generalize hpiece : utf8EncodeChar c = piece at h
  cases h with
  | overlongThree hb =>
      obtain ⟨n, hlow, -, -, hlead, hsecond⟩ := exists_number_of_three hpiece
      rw [UInt8.lt_iff_toNat_lt, hsecond] at hb
      change 0xE0 = _ at hlead
      change _ < 0xA0 at hb
      omega
  | surrogate hb =>
      obtain ⟨n, -, -, hvalid, hlead, hsecond⟩ := exists_number_of_three hpiece
      rw [UInt8.le_iff_toNat_le, hsecond] at hb
      change 0xED = _ at hlead
      change 0xA0 ≤ _ at hb
      omega
  | overlongFour hb =>
      obtain ⟨n, hlow, -, hlead, hsecond⟩ := exists_number_of_four hpiece
      rw [UInt8.lt_iff_toNat_lt, hsecond] at hb
      change 0xF0 = _ at hlead
      change _ < 0x90 at hb
      omega
  | beyond hb =>
      obtain ⟨n, -, hhigh, hlead, hsecond⟩ := exists_number_of_four hpiece
      rw [UInt8.le_iff_toNat_le, hsecond] at hb
      change 0xF4 = _ at hlead
      change 0x90 ≤ _ at hb
      omega

theorem exists_asciiCharacter {byte : UInt8} (h : byte < 0x80) :
    ∃ c : Char, c.toNat = byte.toNat ∧ utf8EncodeChar c = [byte] := by
  have hlt : byte.toNat < 0x80 := UInt8.lt_iff_toNat_lt.mp h
  obtain ⟨c, hc⟩ := exists_character (n := byte.toNat) (by omega)
  refine ⟨c, hc, ?_⟩
  rw [utf8EncodeChar_eq hc, if_pos (by omega), UInt8.ofNat_toNat]

/-- A sequence that is not spurious is the form of a character, whose number is put together from
the bits that its bytes carry. -/
theorem exists_utf8EncodeChar_eq {piece : Bytes} (h : IsSequence piece)
    (hspurious : ¬IsSpurious piece) : ∃ c, utf8EncodeChar c = piece := by
  cases h with
  | one ha =>
      obtain ⟨c, -, hc⟩ := exists_asciiCharacter ha
      exact ⟨c, hc⟩
  | @two a b ha ha' hb =>
      rw [isContinuation_iff] at hb
      simp only [UInt8.le_iff_toNat_le, UInt8.lt_iff_toNat_lt, UInt8.reduceToNat] at ha ha'
      obtain ⟨x, hx⟩ := exists_character (n := (a.toNat - 0xC0) * 64 + (b.toNat - 0x80)) (by omega)
      refine ⟨x, ?_⟩
      rw [utf8EncodeChar_eq hx, if_neg (by omega), if_pos (by omega)]
      simp only [List.cons.injEq, ofNat_eq_iff, and_true]
      omega
  | @three a b c ha ha' hb hc =>
      have hoverlong : a = 0xE0 → 0xA0 ≤ b := by
        rintro rfl
        exact UInt8.not_lt.mp fun h => hspurious (.overlongThree h)
      have hsurrogate : a = 0xED → b < 0xA0 := by
        rintro rfl
        exact UInt8.not_le.mp fun h => hspurious (.surrogate h)
      rw [isContinuation_iff] at hb hc
      simp only [UInt8.le_iff_toNat_le, UInt8.lt_iff_toNat_lt, ← UInt8.toNat_inj,
        UInt8.reduceToNat] at ha ha' hoverlong hsurrogate
      obtain ⟨x, hx⟩ := exists_character
        (n := (a.toNat - 0xE0) * 4096 + (b.toNat - 0x80) * 64 + (c.toNat - 0x80)) (by omega)
      refine ⟨x, ?_⟩
      rw [utf8EncodeChar_eq hx, if_neg (by omega), if_neg (by omega), if_pos (by omega)]
      simp only [List.cons.injEq, ofNat_eq_iff, and_true]
      omega
  | @four a b c d ha ha' hb hc hd =>
      have hoverlong : a = 0xF0 → 0x90 ≤ b := by
        rintro rfl
        exact UInt8.not_lt.mp fun h => hspurious (.overlongFour h)
      have hbeyond : a = 0xF4 → b < 0x90 := by
        rintro rfl
        exact UInt8.not_le.mp fun h => hspurious (.beyond h)
      rw [isContinuation_iff] at hb hc hd
      simp only [UInt8.le_iff_toNat_le, UInt8.lt_iff_toNat_lt, ← UInt8.toNat_inj,
        UInt8.reduceToNat] at ha ha' hoverlong hbeyond
      obtain ⟨x, hx⟩ := exists_character
        (n := (a.toNat - 0xF0) * 262144 + (b.toNat - 0x80) * 4096 + (c.toNat - 0x80) * 64 +
          (d.toNat - 0x80)) (by omega)
      refine ⟨x, ?_⟩
      rw [utf8EncodeChar_eq hx, if_neg (by omega), if_neg (by omega), if_neg (by omega)]
      simp only [List.cons.injEq, ofNat_eq_iff, and_true]
      omega

/-! ### Strict texts -/

variable {piece a b : Bytes}

/-- The lead byte of a sequence tells its length. -/
theorem IsSequence.exists_lead (h : IsSequence piece) : ∃ lead tail, piece = lead :: tail ∧
    announced lead = tail.length + 1 ∧ ∀ byte ∈ tail, isContinuation byte := by
  cases h with
  | @one a ha =>
      refine ⟨a, [], rfl, ?_, by simp⟩
      rw [announced, if_pos ha]
      rfl
  | @two a b ha ha' hb =>
      refine ⟨a, [b], rfl, ?_, by simpa using hb⟩
      unfold announced
      grind
  | @three a b c ha ha' hb hc =>
      refine ⟨a, [b, c], rfl, ?_, by simpa using ⟨hb, hc⟩⟩
      unfold announced
      grind
  | @four a b c d ha ha' hb hc hd =>
      refine ⟨a, [b, c, d], rfl, ?_, by simpa using ⟨hb, hc, hd⟩⟩
      unfold announced
      grind

/-- Lead bytes fall into one range for each length. -/
theorem isSequence_cons {lead : UInt8} {tail : Bytes} (hlead : announced lead = tail.length + 1)
    (htail : ∀ byte ∈ tail, isContinuation byte) : IsSequence (lead :: tail) := by
  have hle := announced_le lead
  unfold announced at hlead
  match tail with
  | [] => exact .one (by grind)
  | [b] =>
      have hb := htail b (by simp)
      exact .two (by grind) (by grind) hb
  | [b, c] =>
      have hb := htail b (by simp)
      have hc := htail c (by simp)
      exact .three (by grind) (by grind) hb hc
  | [b, c, d] =>
      have hb := htail b (by simp)
      have hc := htail c (by simp)
      have hd := htail d (by simp)
      exact .four (by grind) (by grind) hb hc hd
  | _ :: _ :: _ :: _ :: _ => grind

theorem IsSequence.append_inj {piece' : Bytes} (h : IsSequence piece) (h' : IsSequence piece')
    (heq : piece ++ a = piece' ++ b) : piece = piece' ∧ a = b := by
  obtain ⟨lead, tail, rfl, hlead, -⟩ := h.exists_lead
  obtain ⟨lead', tail', rfl, hlead', -⟩ := h'.exists_lead
  obtain rfl : lead = lead' := (List.cons.inj heq).1
  exact List.append_inj heq (by rw [List.length_cons, List.length_cons, ← hlead, ← hlead'])

theorem isStrict_nil : IsStrict [] := ⟨[], rfl⟩

/-- A text that starts with a sequence is strict if the sequence is a character and the rest is
strict. The first character of a strict text is as long as its lead byte says, which is where the
sequence ends too. -/
theorem isStrict_append_iff (h : IsSequence piece) :
    IsStrict (piece ++ b) ↔ ¬IsSpurious piece ∧ IsStrict b := by
  constructor
  · rintro ⟨characters, htext⟩
    cases characters with
    | nil =>
        obtain ⟨lead, tail, rfl, -⟩ := h.exists_lead
        cases htext
    | cons c characters =>
        rw [List.flatMap_cons] at htext
        obtain ⟨rfl, rfl⟩ := h.append_inj (isSequence_utf8EncodeChar c) htext
        exact ⟨not_isSpurious_utf8EncodeChar c, characters, rfl⟩
  · rintro ⟨hspurious, characters, rfl⟩
    obtain ⟨c, rfl⟩ := exists_utf8EncodeChar_eq h hspurious
    exact ⟨c :: characters, (List.flatMap_cons).symm⟩

theorem not_isSpurious_singleton (byte : UInt8) : ¬IsSpurious [byte] := nofun

/-- ASCII in front of a text does not matter. -/
theorem isStrict_append_iff_of_ascii (h : ∀ byte ∈ a, byte < 0x80) :
    IsStrict (a ++ b) ↔ IsStrict b := by
  induction a with
  | nil => rfl
  | cons byte a ih =>
      obtain ⟨hbyte, ha⟩ := List.forall_mem_cons.mp h
      rw [← List.singleton_append, List.append_assoc, isStrict_append_iff (.one hbyte),
        and_iff_right (not_isSpurious_singleton byte), ih ha]

theorem isStrict_of_ascii (h : ∀ byte ∈ a, byte < 0x80) : IsStrict a := by
  rw [← a.append_nil]
  exact (isStrict_append_iff_of_ascii h).mpr isStrict_nil

end Calculator.Utf8
