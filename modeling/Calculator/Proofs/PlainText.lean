import Calculator.Calculation

/-!
Plain texts: no control characters but DEL, and nothing beyond ASCII. Whatever is quoted comes out
plain apart from the characters beyond ASCII themselves, and so do the fixed words and the digits of
messages and documents.
-/

namespace Calculator

variable {a b text : Bytes} {byte : UInt8}

/-- Texts whose bytes all lie between the space and DEL. -/
def IsPlain (text : Bytes) : Prop := ∀ byte ∈ text, 0x20 ≤ byte ∧ byte ≤ 0x7F

instance (text : Bytes) : Decidable (IsPlain text) :=
  List.decidableBAll (fun byte => 0x20 ≤ byte ∧ byte ≤ 0x7F) text

@[simp]
theorem isPlain_nil : IsPlain [] := List.forall_mem_nil _

@[simp]
theorem isPlain_cons : IsPlain (byte :: text) ↔ (0x20 ≤ byte ∧ byte ≤ 0x7F) ∧ IsPlain text :=
  List.forall_mem_cons

@[simp]
theorem isPlain_append : IsPlain (a ++ b) ↔ IsPlain a ∧ IsPlain b := List.forall_mem_append

theorem isPlain_flatMap {α : Type} {values : List α} {f : α → Bytes}
    (h : ∀ value ∈ values, IsPlain (f value)) : IsPlain (values.flatMap f) := by
  intro byte hbyte
  obtain ⟨value, hvalue, hbyte⟩ := List.mem_flatMap.mp hbyte
  exact h value hvalue byte hbyte

/-- Plain texts are ASCII. -/
theorem IsPlain.lt (h : IsPlain text) : ∀ byte ∈ text, byte < 0x80 := by
  intro byte hbyte
  have hle := (h byte hbyte).2
  rw [UInt8.le_iff_toNat_le] at hle
  rw [UInt8.lt_iff_toNat_lt]
  exact Nat.lt_succ_of_le hle

theorem isDigit_of_mem_digits {n : Nat} (h : byte ∈ digits n) : isDigit byte := by
  obtain ⟨c, hc, rfl⟩ := List.mem_map.mp h
  have hdigit := Nat.isDigit_of_mem_toDigits (by decide) (by decide) hc
  have hbyte := toNat_asciiByte_of_isDigit hdigit
  simp only [Char.isDigit, Bool.and_eq_true, decide_eq_true_eq, ge_iff_le,
    UInt32.le_iff_toNat_le] at hdigit
  simp only [isDigit, Bool.and_eq_true, decide_eq_true_eq, UInt8.le_iff_toNat_le, hbyte]
  exact hdigit

theorem isPlain_of_isDigit (h : ∀ byte ∈ text, isDigit byte) : IsPlain text := by
  intro byte hbyte
  have hdigit := h byte hbyte
  simp only [isDigit, Bool.and_eq_true, decide_eq_true_eq, UInt8.le_iff_toNat_le,
    UInt8.reduceToNat] at hdigit ⊢
  omega

theorem isPlain_digits (n : Nat) : IsPlain (digits n) :=
  isPlain_of_isDigit fun _ => isDigit_of_mem_digits

theorem Category.isPlain_name (category : Category) : IsPlain category.name := by
  cases category with
  | number => decide
  | mark m =>
      cases m with
      | other code => exact (by decide : IsPlain (ascii "?"))
      | _ => decide

namespace Quoted

/-- The bytes that are quoted with a letter of their own. -/
def letters : List (UInt8 × UInt8) :=
  [(quote, quote), (0x5C, 0x5C), (0x0A, asciiByte 'n'), (0x0D, asciiByte 'r'),
    (0x09, asciiByte 't')]

/-- An ASCII byte is quoted with its letter, by its number, or as it is. -/
theorem escapeAscii_cases (byte : UInt8) :
    (∃ letter, (byte, letter) ∈ letters ∧ escapeAscii byte = [0x5C, letter]) ∨
      (byte < 0x20 ∧
        escapeAscii byte = ascii "\\u00" ++ [hexDigit (byte / 16), hexDigit (byte % 16)]) ∨
      (0x20 ≤ byte ∧ byte ≠ quote ∧ byte ≠ 0x5C ∧ escapeAscii byte = [byte]) := by
  unfold escapeAscii
  split
  · rename_i h
    subst h
    exact Or.inl ⟨quote, by decide, rfl⟩
  split
  · rename_i h
    subst h
    exact Or.inl ⟨0x5C, by decide, rfl⟩
  split
  · rename_i h
    subst h
    exact Or.inl ⟨asciiByte 'n', by decide, rfl⟩
  split
  · rename_i h
    subst h
    exact Or.inl ⟨asciiByte 'r', by decide, rfl⟩
  split
  · rename_i h
    subst h
    exact Or.inl ⟨asciiByte 't', by decide, rfl⟩
  split
  · rename_i h
    exact Or.inr (Or.inl ⟨h, rfl⟩)
  · rename_i hquote hbackslash _ _ _ h
    exact Or.inr (Or.inr ⟨UInt8.not_lt.mp h, hquote, hbackslash, rfl⟩)

theorem div_lt (byte : UInt8) : byte / 16 < 0x10 := by
  rw [UInt8.lt_iff_toNat_lt, UInt8.toNat_div]
  exact Nat.div_lt_of_lt_mul byte.toNat_lt

theorem mod_lt (byte : UInt8) : byte % 16 < 0x10 := by
  rw [UInt8.lt_iff_toNat_lt, UInt8.toNat_mod]
  exact Nat.mod_lt _ (by decide)

/-- What the sixteen values of hexadecimal digits have in common. -/
theorem of_lt_sixteen {P : UInt8 → Prop} (h : ∀ n < 16, P (UInt8.ofNat n)) {value : UInt8}
    (hvalue : value < 0x10) : P value := by
  have hP := h value.toNat (UInt8.lt_iff_toNat_lt.mp hvalue)
  rwa [UInt8.ofNat_toNat] at hP

theorem hexDigit_mem_range {value : UInt8} (h : value < 0x10) :
    0x20 ≤ hexDigit value ∧ hexDigit value ≤ 0x7F :=
  of_lt_sixteen (P := fun v => 0x20 ≤ hexDigit v ∧ hexDigit v ≤ 0x7F) (by decide) h

theorem isPlain_escapeAscii (h : byte < 0x80) : IsPlain (escapeAscii byte) := by
  rcases escapeAscii_cases byte with ⟨letter, hletter, heq⟩ | ⟨hcontrol, heq⟩ | ⟨hle, -, -, heq⟩
  · rw [heq]
    have hall : letters.all fun entry => IsPlain [0x5C, entry.2] := by decide
    exact of_decide_eq_true (List.all_eq_true.mp hall _ hletter)
  · rw [heq, isPlain_append, isPlain_cons, isPlain_cons]
    exact ⟨by decide, hexDigit_mem_range (div_lt byte), hexDigit_mem_range (mod_lt byte),
      isPlain_nil⟩
  · rw [heq, isPlain_cons]
    refine ⟨⟨hle, ?_⟩, isPlain_nil⟩
    rw [UInt8.lt_iff_toNat_lt] at h
    exact UInt8.le_iff_toNat_le.mpr (Nat.le_of_lt_succ h)

/-- A single byte is quoted in plain text, whichever it is. -/
theorem isPlain_escape_singleton (byte : UInt8) : IsPlain (escape [byte]) := by
  rw [escape]
  split
  · rename_i h
    exact isPlain_escapeAscii h
  · decide

end Quoted

end Calculator
