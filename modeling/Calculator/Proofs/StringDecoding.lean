import Calculator.Proofs.JsonReading

/-!
A decoder for strings of JSON. It goes on byte by byte and knows nothing of the characters beyond
ASCII, whose bytes it copies; control characters have to be escaped, and a surrogate that is written
by number has to be one of a pair. Every string of the grammar is decoded to its content, whatever
stands behind its closing quote (`string?_of_isQuoted`).
-/

namespace Calculator

open Utf8
open String (utf8EncodeChar)

namespace Json

variable {content text piece rest : Bytes} {byte : UInt8}

/-- The character of a code unit, or of a high surrogate with the low one that is written behind it,
and what is behind the character. -/
def character? (text : Bytes) : Option (Bytes × Bytes) := do
  let (n, rest) ← number? text
  if n < 0xD800 ∨ 0xE000 ≤ n then some (utf8EncodeChar (Char.ofNat n), rest)
  else if n < 0xDC00 ∧ rest.take 2 = ascii "\\u" then
    let (m, rest) ← number? (rest.drop 2)
    if 0xDC00 ≤ m ∧ m < 0xE000 then
      some (utf8EncodeChar (Char.ofNat (0x10000 + 0x400 * (n - 0xD800) + (m - 0xDC00))), rest)
    else none
  else none

/-- What stands behind a backslash. -/
def unescape? : Bytes → Option (Bytes × Bytes)
  | [] => none
  | letter :: rest =>
    if letter = asciiByte 'u' then character? rest
    else (escapes.find? fun entry => entry.2 == letter).map fun entry => ([entry.1], rest)

/-- What the first bytes of a string stand for, and what is behind them. -/
def unit? : Bytes → Option (Bytes × Bytes)
  | [] => none
  | byte :: rest =>
    if byte = 0x5C then unescape? rest
    else if byte < 0x20 then none
    else some ([byte], rest)

theorem number?_shorter {n : Nat} (h : number? text = some (n, rest)) :
    rest.length < text.length := by
  unfold number? at h
  split at h
  · obtain ⟨_, -, heq⟩ := Option.map_eq_some_iff.mp h
    cases heq
    simp only [List.length_cons]
    omega
  · cases h

theorem character?_shorter (h : character? text = some (piece, rest)) :
    rest.length < text.length := by
  obtain ⟨⟨n, behind⟩, hnumber, h⟩ := Option.bind_eq_some_iff.mp h
  have hfirst := number?_shorter hnumber
  dsimp only at h
  split at h
  · cases h
    exact hfirst
  split at h
  · obtain ⟨⟨m, last⟩, hlow, h⟩ := Option.bind_eq_some_iff.mp h
    have hsecond := number?_shorter hlow
    rw [List.length_drop] at hsecond
    dsimp only at h
    split at h
    · obtain ⟨-, rfl⟩ := Prod.mk.inj (Option.some.inj h)
      omega
    · cases h
  · cases h

theorem unit?_shorter (h : unit? text = some (piece, rest)) : rest.length < text.length := by
  cases text with
  | nil => cases h
  | cons byte text =>
      rw [List.length_cons]
      refine Nat.lt_succ_of_le ?_
      rw [unit?] at h
      split at h
      · cases text with
        | nil => cases h
        | cons letter text =>
            rw [unescape?] at h
            rw [List.length_cons]
            split at h
            · exact Nat.le_succ_of_le (Nat.le_of_lt (character?_shorter h))
            · obtain ⟨_, -, heq⟩ := Option.map_eq_some_iff.mp h
              cases heq
              exact Nat.le_succ _
      · split at h
        · cases h
        · cases h
          exact Nat.le_refl _

/-- What stands in front of the closing quote, decoded, and what is behind the quote. -/
def content? (text : Bytes) : Option (Bytes × Bytes) :=
  if text.head? = some Quoted.quote then some ([], text.tail)
  else
    match _ : unit? text with
    | none => none
    | some (piece, rest) =>
      (content? rest).map (Prod.map (piece ++ ·) id)
termination_by text.length
decreasing_by exact unit?_shorter ‹_›

/-- The content of the string that a text starts with, and what is behind its closing quote. -/
def string? (text : Bytes) : Option (Bytes × Bytes) :=
  if text.head? = some Quoted.quote then content? text.tail else none

theorem string?_cons (text : Bytes) : string? (Quoted.quote :: text) = content? text := if_pos rfl

theorem content?_quote (rest : Bytes) : content? (Quoted.quote :: rest) = some ([], rest) := by
  rw [content?, List.head?_cons, if_pos rfl, List.tail_cons]

theorem content?_of_unit (hquote : text.head? ≠ some Quoted.quote)
    (h : unit? text = some (piece, rest)) :
    content? text = (content? rest).map (Prod.map (piece ++ ·) id) := by
  rw [content?, if_neg hquote]
  split
  · rename_i hnone
    rw [h] at hnone
    cases hnone
  · rename_i hsome
    rw [h] at hsome
    cases hsome
    rfl

/-- Bytes of characters beyond ASCII, and all others that need no escape, are copied. -/
theorem content?_append (h : ∀ byte ∈ piece, 0x20 ≤ byte ∧ byte ≠ Quoted.quote ∧ byte ≠ 0x5C)
    (rest : Bytes) :
    content? (piece ++ rest) =
      (content? rest).map (Prod.map (piece ++ ·) id) := by
  induction piece with
  | nil => exact (congrFun Option.map_id (content? rest)).symm
  | cons byte piece ih =>
      obtain ⟨⟨hcontrol, hquote, hbackslash⟩, hpiece⟩ := List.forall_mem_cons.mp h
      have hunit : unit? (byte :: (piece ++ rest)) = some ([byte], piece ++ rest) := by
        rw [unit?, if_neg hbackslash, if_neg (UInt8.not_lt.mpr hcontrol)]
      have hhead : (byte :: (piece ++ rest)).head? ≠ some Quoted.quote :=
        fun heq => hquote (Option.some.inj heq)
      rw [List.cons_append, content?_of_unit hhead hunit, ih hpiece, Option.map_map]
      rfl

/-- An escape is decoded to what it stands for, and decoding goes on behind it. -/
theorem content?_escape (h : unescape? text = some (piece, rest)) :
    content? (0x5C :: text) =
      (content? rest).map (Prod.map (piece ++ ·) id) := by
  refine content?_of_unit (fun heq => ?_) (by rw [unit?, if_pos rfl, h])
  exact absurd (Option.some.inj heq) (by decide)

theorem unescape?_letter {letter : UInt8} (h : (byte, letter) ∈ escapes) (rest : Bytes) :
    unescape? (letter :: rest) = some ([byte], rest) := by
  have hall : escapes.all fun entry => entry.2 ≠ asciiByte 'u' ∧
      escapes.find? (fun other => other.2 == entry.2) = some entry := by
    decide
  obtain ⟨hletter, hfind⟩ := of_decide_eq_true (List.all_eq_true.mp hall _ h)
  rw [unescape?, if_neg hletter, hfind]
  rfl

section
variable {c : Char} {d₁ d₂ d₃ d₄ : UInt8}

/-- No character is numbered like a surrogate. -/
theorem unescape?_unit (h : codeUnit d₁ d₂ d₃ d₄ = some c.toNat) (rest : Bytes) :
    unescape? (asciiByte 'u' :: d₁ :: d₂ :: d₃ :: d₄ :: rest) = some (utf8EncodeChar c, rest) := by
  have hvalid : c.toNat < 0xD800 ∨ 0xE000 ≤ c.toNat := by
    have hcases := character_cases c
    change c.val.toNat < 0xD800 ∨ 0xE000 ≤ c.val.toNat
    omega
  rw [unescape?, if_pos rfl, character?, number?_of_codeUnit h]
  change (if c.toNat < 0xD800 ∨ 0xE000 ≤ c.toNat then _ else _) = _
  rw [if_pos hvalid, Char.ofNat_toNat]

theorem unescape?_pair {high low : Nat} {e₁ e₂ e₃ e₄ : UInt8}
    (hhigh : codeUnit d₁ d₂ d₃ d₄ = some (0xD800 + high)) (hhigh' : high < 0x400)
    (hlow : codeUnit e₁ e₂ e₃ e₄ = some (0xDC00 + low)) (hlow' : low < 0x400)
    (hc : c.toNat = 0x10000 + 0x400 * high + low) (rest : Bytes) :
    unescape? (asciiByte 'u' :: d₁ :: d₂ :: d₃ :: d₄ ::
      (ascii "\\u" ++ e₁ :: e₂ :: e₃ :: e₄ :: rest)) = some (utf8EncodeChar c, rest) := by
  have htake : (ascii "\\u" ++ e₁ :: e₂ :: e₃ :: e₄ :: rest).take 2 = ascii "\\u" := rfl
  have hdrop : (ascii "\\u" ++ e₁ :: e₂ :: e₃ :: e₄ :: rest).drop 2 =
    e₁ :: e₂ :: e₃ :: e₄ :: rest := rfl
  rw [unescape?, if_pos rfl, character?, number?_of_codeUnit hhigh]
  change (if 0xD800 + high < 0xD800 ∨ 0xE000 ≤ 0xD800 + high then _ else
    if 0xD800 + high < 0xDC00 ∧ _ then _ else _) = _
  rw [if_neg (by omega), if_pos ⟨by omega, htake⟩, hdrop, number?_of_codeUnit hlow]
  change (if 0xDC00 ≤ 0xDC00 + low ∧ 0xDC00 + low < 0xE000 then
    some (utf8EncodeChar (Char.ofNat _), rest) else none) = _
  rw [if_pos (by omega), Nat.add_sub_cancel_left, Nat.add_sub_cancel_left, ← hc, Char.ofNat_toNat]

end

/-- The bytes of a longer sequence are neither quotes nor backslashes, nor control characters. -/
theorem forall_mem_long (h : IsSequence piece) (hlong : 2 ≤ piece.length) :
    ∀ byte ∈ piece, 0x20 ≤ byte ∧ byte ≠ Quoted.quote ∧ byte ≠ 0x5C := by
  intro byte hbyte
  have hle := h.le_of_mem hlong byte hbyte
  refine ⟨UInt8.le_trans (by decide) hle, ?_, ?_⟩ <;>
  · rintro rfl
    exact absurd hle (by decide)

/-- A character that may stand in a string as it is consists of bytes that may. -/
theorem forall_mem_utf8EncodeChar {c : Char} (hcontrol : 0x20 ≤ c.toNat) (hquote : c.toNat ≠ 0x22)
    (hbackslash : c.toNat ≠ 0x5C) :
    ∀ byte ∈ utf8EncodeChar c, 0x20 ≤ byte ∧ byte ≠ Quoted.quote ∧ byte ≠ 0x5C := by
  have hsequence := isSequence_utf8EncodeChar c
  by_cases hlong : 2 ≤ (utf8EncodeChar c).length
  · exact forall_mem_long hsequence hlong
  · generalize hpiece : utf8EncodeChar c = piece at hsequence hlong
    cases hsequence with
    | one ha =>
        have hnumber := toNat_of_utf8EncodeChar hpiece ha
        rw [List.forall_mem_singleton]
        refine ⟨UInt8.le_iff_toNat_le.mpr (hnumber ▸ hcontrol), ?_, ?_⟩
        · rintro rfl
          exact hquote hnumber
        · rintro rfl
          exact hbackslash hnumber
    | two | three | four => exact absurd (by simp) hlong

theorem content?_of_inside (h : Inside content text) (rest : Bytes) :
    content? (text ++ Quoted.quote :: rest) = some (content, rest) := by
  induction h with
  | nil => exact content?_quote rest
  | plain hcontrol hquote hbackslash h ih =>
      rw [List.append_assoc, content?_append (forall_mem_utf8EncodeChar hcontrol hquote hbackslash),
        ih]
      rfl
  | letter hletter h ih =>
      rw [List.cons_append, List.cons_append, content?_escape (unescape?_letter hletter _), ih]
      rfl
  | unit hunit h ih =>
      refine (content?_escape (unescape?_unit hunit _)).trans ?_
      exact congrArg (Option.map _) ih
  | pair hhigh hhigh' hlow hlow' hc h ih =>
      refine (content?_escape (unescape?_pair hhigh hhigh' hlow hlow' hc _)).trans ?_
      exact congrArg (Option.map _) ih

/-- Strings are decoded to their content. -/
theorem string?_of_isQuoted (h : IsQuoted content text) (rest : Bytes) :
    string? (text ++ rest) = some (content, rest) := by
  obtain ⟨hinside⟩ := h
  rw [List.append_assoc, List.cons_append]
  exact (string?_cons _).trans (content?_of_inside hinside rest)

end Json

end Calculator
