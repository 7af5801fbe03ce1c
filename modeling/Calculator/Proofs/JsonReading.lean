import Calculator.Proofs.JsonStrings

/-!
Reading strings of JSON back. What stands between two quotes is read one element at a time, a
character that is written as it is, by a letter or by number. The elements that a string is made of
are read as what they stand for, so the text in front of the closing quote has only one content
(`Inside.unique`), and an object whose one member is a string has only one reading
(`isText_member_iff`).
-/

namespace Calculator

open Utf8
open String (utf8EncodeChar)

namespace Json

variable {content content' text text' piece rest rest' tail : Bytes} {byte : UInt8}

/-- The number that four hexadecimal digits in front of a text write, and what is behind them. -/
def number? : Bytes → Option (Nat × Bytes)
  | a :: b :: c :: d :: rest => (codeUnit a b c d).map fun n => (n, rest)
  | _ => none

/-- A character that is written by number; a high surrogate goes with the number behind it. -/
def numbered? (text : Bytes) : Option (Bytes × Bytes) := do
  let (n, rest) ← number? text
  if 0xD800 ≤ n ∧ n < 0xDC00 then
    let (m, rest) ← number? (rest.drop 2)
    some (utf8EncodeChar (Char.ofNat (0x10000 + 0x400 * (n - 0xD800) + (m - 0xDC00))), rest)
  else some (utf8EncodeChar (Char.ofNat n), rest)

/-- What stands behind a backslash. -/
def escaped? : Bytes → Option (Bytes × Bytes)
  | [] => none
  | letter :: rest =>
    if letter = asciiByte 'u' then numbered? rest
    else (escapes.find? fun entry => entry.2 == letter).map fun entry => ([entry.1], rest)

/-- The first element of a text and what is behind it; none in front of a quote. -/
def element? : Bytes → Option (Bytes × Bytes)
  | [] => none
  | byte :: rest =>
    if byte = Quoted.quote then none
    else if byte = 0x5C then escaped? rest
    else some ((byte :: rest).splitAt (characterLength (byte :: rest)))

/-- ASCII bytes are the characters with their numbers, and start no others. -/
theorem toNat_of_utf8EncodeChar {c : Char} (h : utf8EncodeChar c = byte :: tail)
    (hbyte : byte < 0x80) : c.toNat = byte.toNat := by
  have hone : utf8EncodeChar c = [byte] := by
    have hfront : utf8EncodeChar c ++ [] = [byte] ++ tail := by rw [List.append_nil, h]; rfl
    exact ((isSequence_utf8EncodeChar c).append_inj (.one hbyte) hfront).1
  rw [utf8EncodeChar_eq rfl] at hone
  split at hone
  · rename_i hle
    cases hone
    exact (toNat_ofNat_of_lt (n := c.val.toNat) (by omega)).symm
  split at hone
  · cases hone
  split at hone
  · cases hone
  · cases hone

theorem element?_plain {c : Char} (hquote : c.toNat ≠ 0x22) (hbackslash : c.toNat ≠ 0x5C)
    (rest : Bytes) :
    element? (utf8EncodeChar c ++ rest) = some (utf8EncodeChar c, rest) := by
  have hsequence := isSequence_utf8EncodeChar c
  obtain ⟨lead, tail, hlead, -⟩ := hsequence.exists_lead
  have hsplit : (utf8EncodeChar c ++ rest).splitAt (characterLength (utf8EncodeChar c ++ rest)) =
      (utf8EncodeChar c, rest) := by
    rw [characterLength_append hsequence, List.splitAt_eq, List.take_left, List.drop_left]
  rw [hlead, List.cons_append] at hsplit ⊢
  rw [element?, if_neg, if_neg, hsplit]
  · rintro rfl
    exact hbackslash (toNat_of_utf8EncodeChar hlead (by decide))
  · rintro rfl
    exact hquote (toNat_of_utf8EncodeChar hlead (by decide))

theorem element?_letter {letter : UInt8} (h : (byte, letter) ∈ escapes) (rest : Bytes) :
    element? (0x5C :: letter :: rest) = some ([byte], rest) := by
  have hall : escapes.all fun entry => entry.2 ≠ asciiByte 'u' ∧
      escapes.find? (fun other => other.2 == entry.2) = some entry := by
    decide
  obtain ⟨hletter, hfind⟩ := of_decide_eq_true (List.all_eq_true.mp hall _ h)
  rw [element?, if_neg (by decide), if_pos rfl, escaped?, if_neg hletter, hfind]
  rfl

theorem number?_of_codeUnit {a b c d : UInt8} {n : Nat} (h : codeUnit a b c d = some n)
    (rest : Bytes) : number? (a :: b :: c :: d :: rest) = some (n, rest) := by
  rw [number?, h]
  rfl

/-- Characters are no surrogates. -/
theorem element?_unit {c : Char} {d₁ d₂ d₃ d₄ : UInt8}
    (h : codeUnit d₁ d₂ d₃ d₄ = some c.toNat) (rest : Bytes) :
    element? (ascii "\\u" ++ d₁ :: d₂ :: d₃ :: d₄ :: rest) = some (utf8EncodeChar c, rest) := by
  have hvalid := character_cases c
  have hsurrogate : ¬(0xD800 ≤ c.toNat ∧ c.toNat < 0xDC00) := by
    change ¬(0xD800 ≤ c.val.toNat ∧ c.val.toNat < 0xDC00)
    omega
  change numbered? (d₁ :: d₂ :: d₃ :: d₄ :: rest) = _
  rw [numbered?, number?_of_codeUnit h]
  change (if 0xD800 ≤ c.toNat ∧ c.toNat < 0xDC00 then _ else _) = _
  rw [if_neg hsurrogate, Char.ofNat_toNat]

theorem element?_pair {c : Char} {high low : Nat} {d₁ d₂ d₃ d₄ e₁ e₂ e₃ e₄ : UInt8}
    (hhigh : codeUnit d₁ d₂ d₃ d₄ = some (0xD800 + high)) (hhigh' : high < 0x400)
    (hlow : codeUnit e₁ e₂ e₃ e₄ = some (0xDC00 + low))
    (hc : c.toNat = 0x10000 + 0x400 * high + low) (rest : Bytes) :
    element? (ascii "\\u" ++ d₁ :: d₂ :: d₃ :: d₄ :: ascii "\\u" ++ e₁ :: e₂ :: e₃ :: e₄ :: rest) =
      some (utf8EncodeChar c, rest) := by
  have hsurrogate : 0xD800 ≤ 0xD800 + high ∧ 0xD800 + high < 0xDC00 := by omega
  change numbered? (d₁ :: d₂ :: d₃ :: d₄ :: (ascii "\\u" ++ e₁ :: e₂ :: e₃ :: e₄ :: rest)) = _
  have hrest : (ascii "\\u" ++ e₁ :: e₂ :: e₃ :: e₄ :: rest).drop 2 =
    e₁ :: e₂ :: e₃ :: e₄ :: rest := rfl
  rw [numbered?, number?_of_codeUnit hhigh]
  change (if 0xD800 ≤ 0xD800 + high ∧ 0xD800 + high < 0xDC00 then _ else _) = _
  rw [if_pos hsurrogate, hrest, number?_of_codeUnit hlow]
  change some (utf8EncodeChar (Char.ofNat _), rest) = _
  rw [Nat.add_sub_cancel_left, Nat.add_sub_cancel_left, ← hc, Char.ofNat_toNat]

/-- The text between two quotes is nothing, or starts with an element. -/
theorem Inside.cases_element (h : Inside content text) :
    (content = [] ∧ text = []) ∨ ∃ piece content' text', content = piece ++ content' ∧
      Inside content' text' ∧ text'.length < text.length ∧
      ∀ rest, element? (text ++ rest) = some (piece, text' ++ rest) := by
  cases h with
  | nil => exact Or.inl ⟨rfl, rfl⟩
  | @plain content text c hcontrol hquote hbackslash h =>
      refine Or.inr ⟨_, content, text, rfl, h, ?_, fun rest => ?_⟩
      · have hpos := List.length_pos_iff.mpr (isSequence_utf8EncodeChar c).ne_nil
        rw [List.length_append]
        omega
      · rw [List.append_assoc]
        exact element?_plain hquote hbackslash _
  | @letter content text byte letter hletter h =>
      refine Or.inr ⟨[byte], content, text, rfl, h, ?_, fun rest => element?_letter hletter _⟩
      simp only [List.length_cons]
      omega
  | @unit content text c _ _ _ _ hunit h =>
      refine Or.inr ⟨_, content, text, rfl, h, ?_, fun rest => element?_unit hunit _⟩
      simp only [List.length_append, List.length_cons]
      omega
  | @pair content text c _ _ _ _ _ _ _ _ _ _ hhigh hhigh' hlow hlow' hc h =>
      refine Or.inr ⟨_, content, text, rfl, h, ?_, fun rest => element?_pair hhigh hhigh' hlow hc _⟩
      simp only [List.length_append, List.length_cons]
      omega

/-- A string ends at the first quote that no backslash stands in front of, so the text behind its
opening quote has only one content. -/
theorem Inside.unique (h : Inside content text) (h' : Inside content' text')
    (heq : text ++ Quoted.quote :: rest = text' ++ Quoted.quote :: rest') :
    content = content' ∧ rest = rest' := by
  induction hlength : text.length using Nat.strongRecOn
    generalizing content content' text text' with
  | ind n ih =>
    rcases h.cases_element with ⟨rfl, rfl⟩ | ⟨piece, inner, left, rfl, hinner, hlt, hread⟩
    · rcases h'.cases_element with ⟨rfl, rfl⟩ | ⟨piece', inner', left', -, -, -, hread'⟩
      · exact ⟨rfl, (List.cons.inj heq).2⟩
      · have hnone := hread' (Quoted.quote :: rest')
        rw [← heq] at hnone
        cases hnone
    · have hfirst := hread (Quoted.quote :: rest)
      rw [heq] at hfirst
      rcases h'.cases_element with ⟨rfl, rfl⟩ | ⟨piece', inner', left', rfl, hinner', -, hread'⟩
      · cases hfirst
      · rw [hread'] at hfirst
        obtain ⟨rfl, hleft⟩ := Prod.mk.inj (Option.some.inj hfirst)
        obtain ⟨rfl, hrest⟩ := ih left.length (hlength ▸ hlt) hinner hinner' hleft.symm rfl
        exact ⟨rfl, hrest⟩

def openingBrace : UInt8 := asciiByte '\x7b'

def closingBrace : UInt8 := asciiByte '\x7d'

/-- Texts of a value without blanks around them, by their first byte: strings, objects, and what
starts with neither a quote nor a brace. -/
inductive IsBare (v : Json) : Bytes → Prop
  | string {content text : Bytes} (hv : v = .string content) (h : IsQuoted content text) :
      IsBare v text
  | object {ms : List (Bytes × Json)} {inner : Bytes} (hv : v = .object ms)
      (h : (ms = [] ∧ Blanks inner) ∨ IsText (.members ms) inner) :
      IsBare v (openingBrace :: inner ++ [closingBrace])
  | other {byte : UInt8} (hquote : byte ≠ Quoted.quote) (hbrace : byte ≠ openingBrace)
      (rest : Bytes) : IsBare v (byte :: rest)

theorem IsNumeral.isBare (h : IsNumeral text) (v : Json) : IsBare v text := by
  obtain ⟨hsign, hwhole, -, -⟩ := h
  rename_i sign whole fraction exponent
  rcases hsign with rfl | rfl
  · obtain ⟨byte, whole, rfl⟩ := List.exists_cons_of_ne_nil hwhole.ne_nil
    have hdigit := hwhole.digit byte List.mem_cons_self
    refine .other ?_ ?_ _
    · rintro rfl
      exact absurd hdigit (by decide)
    · rintro rfl
      exact absurd hdigit (by decide)
  · exact .other (by decide) (by decide) _

theorem IsText.exists_bare {v : Json} (h : IsText (.value v) text) :
    ∃ before bare after, text = before ++ bare ++ after ∧ Blanks before ∧ Blanks after ∧
      IsBare v bare := by
  have hnone : Blanks [] := List.forall_mem_nil _
  have hbare : ∀ {text : Bytes}, IsBare v text → ∃ before bare after,
      text = before ++ bare ++ after ∧ Blanks before ∧ Blanks after ∧ IsBare v bare :=
    fun {text} h => ⟨[], text, [], (List.append_nil _).symm, hnone, hnone, h⟩
  generalize hpart : Part.value v = part at h
  induction h with
  | null => exact hbare (.other (by decide) (by decide) _)
  | boolean value =>
      apply hbare
      cases value with
      | true => exact .other (by decide) (by decide) _
      | false => exact .other (by decide) (by decide) _
  | number h => exact hbare (h.isBare v)
  | string h =>
      cases hpart
      exact hbare (.string rfl h)
  | emptyArray => exact hbare (.other (by decide) (by decide) _)
  | array => exact hbare (.other (by decide) (by decide) _)
  | emptyObject hblanks =>
      cases hpart
      exact hbare (.object rfl (Or.inl ⟨rfl, hblanks⟩))
  | object h =>
      cases hpart
      exact hbare (.object rfl (Or.inr h))
  | @padded v' before text after hbefore h hafter ih =>
      cases hpart
      obtain ⟨front, bare, back, rfl, hfront, hback, hbare⟩ := ih rfl
      refine ⟨before ++ front, bare, back ++ after, ?_, ?_, ?_, hbare⟩
      · simp only [List.append_assoc]
      · exact List.forall_mem_append.mpr ⟨hbefore, hfront⟩
      · exact List.forall_mem_append.mpr ⟨hback, hafter⟩
  | lastValue | moreValues | lastMember | moreMembers => cases hpart

/-- No blanks stand in front of a byte that is none. -/
theorem Blanks.eq_nil {blanks : Bytes} (h : Blanks blanks)
    (hbyte : byte ∉ [0x20, 0x09, 0x0A, 0x0D]) (heq : blanks ++ rest = byte :: rest') :
    blanks = [] := by
  cases blanks with
  | nil => rfl
  | cons other blanks =>
      obtain ⟨rfl, -⟩ := List.cons.inj heq
      exact absurd (h _ List.mem_cons_self) hbyte

/-- Where a string stands in front of a text, a value that reads the text from its start is that
string and leaves the rest, but for blanks. -/
theorem IsText.string_unique {v : Json} {inner : Bytes} (h : IsText (.value v) text)
    (hinside : Inside content inner)
    (heq : text ++ rest = Quoted.quote :: (inner ++ Quoted.quote :: rest')) :
    v = .string content ∧ ∃ after, Blanks after ∧ after ++ rest = rest' := by
  obtain ⟨before, bare, after, rfl, hbefore, hafter, hbare⟩ := h.exists_bare
  rw [List.append_assoc, List.append_assoc] at heq
  obtain rfl := hbefore.eq_nil (by decide) heq
  cases hbare with
  | object =>
      obtain ⟨hhead, -⟩ := List.cons.inj heq
      exact absurd hhead (by decide)
  | other hquote =>
      obtain ⟨hhead, -⟩ := List.cons.inj heq
      exact absurd hhead hquote
  | @string content' _ hv hquoted =>
      obtain ⟨hinside'⟩ := hquoted
      rename_i inner'
      simp only [List.nil_append, List.append_assoc, List.cons_append] at heq
      obtain ⟨rfl, hrest⟩ := hinside'.unique hinside (List.cons.inj heq).2
      exact ⟨hv, after, hafter, hrest⟩

theorem IsText.object_of_brace {v : Json}
    (h : IsText (.value v) (openingBrace :: rest ++ [closingBrace])) :
    ∃ ms, v = .object ms ∧ ((ms = [] ∧ Blanks rest) ∨ IsText (.members ms) rest) := by
  obtain ⟨before, bare, after, heq, hbefore, hafter, hbare⟩ := h.exists_bare
  rw [List.append_assoc] at heq
  obtain rfl := hbefore.eq_nil (by decide) heq.symm
  cases hbare with
  | string _ hquoted =>
      obtain ⟨-⟩ := hquoted
      obtain ⟨hhead, -⟩ := List.cons.inj heq
      exact absurd hhead (by decide)
  | other _ hbrace =>
      obtain ⟨hhead, -⟩ := List.cons.inj heq
      exact absurd hhead.symm hbrace
  | @object ms inner hv hinner =>
      rcases List.eq_nil_or_concat after with rfl | ⟨front, last, rfl⟩
      · simp only [List.nil_append, List.append_nil, List.cons_append] at heq
        obtain ⟨rfl, -⟩ := List.append_inj' (List.cons.inj heq).2 rfl
        exact ⟨ms, hv, hinner⟩
      · simp only [List.nil_append, List.cons_append, List.concat_eq_append] at heq hafter
        rw [← List.append_assoc] at heq
        obtain ⟨-, hlast⟩ := List.append_inj' (List.cons.inj heq).2 rfl
        obtain rfl := List.singleton_inj.mp hlast
        have hlast := hafter closingBrace (List.mem_append_right _ List.mem_cons_self)
        exact absurd hlast (by decide)

/-- A key in front of a colon, which is no blank, is read up to this colon. -/
theorem IsText.key_unique {key key' inner : Bytes} (h : IsText (.value (.string key')) text)
    (hinside : Inside key inner) (heq : text ++ (ascii ":" ++ rest) =
      Quoted.quote :: (inner ++ Quoted.quote :: (ascii ":" ++ rest'))) :
    key' = key ∧ rest = rest' := by
  obtain ⟨hkey, after, hafter, hrest⟩ := h.string_unique hinside heq
  obtain rfl := hafter.eq_nil (by decide) hrest
  exact ⟨by injection hkey, List.append_cancel_left hrest⟩

/-- Members that are written as one key and one string are one member: no comma stands behind the
string. -/
theorem IsText.member_unique {ms : List (Bytes × Json)} {key inner inner' : Bytes}
    (h : IsText (.members ms) text) (hkey : Inside key inner) (hcontent : Inside content inner')
    (heq : text = Quoted.quote :: (inner ++ Quoted.quote ::
      (ascii ":" ++ Quoted.quote :: (inner' ++ [Quoted.quote])))) :
    ms = [(key, .string content)] := by
  cases h with
  | @lastMember key' name text v hname hvalue =>
      rw [List.append_assoc] at heq
      obtain ⟨rfl, htext⟩ := hname.key_unique hkey heq
      rw [← text.append_nil] at htext
      obtain ⟨rfl, -⟩ := hvalue.string_unique hcontent htext
      rfl
  | @moreMembers key' name text others v ms hname hvalue hothers =>
      simp only [List.append_assoc] at heq
      obtain ⟨-, htext⟩ := hname.key_unique hkey heq
      obtain ⟨-, after, -, hbehind⟩ := hvalue.string_unique hcontent htext
      cases (List.append_eq_nil_iff.mp hbehind).2

/-- An object whose one member is a string has only one reading. -/
theorem isText_member_iff {key name : Bytes} {v : Json} (hkey : IsQuoted key name)
    (hcontent : IsQuoted content text) :
    IsText (.value v) (openingBrace :: (name ++ ascii ":" ++ text) ++ [closingBrace]) ↔
      v = .object [(key, .string content)] := by
  constructor
  · intro h
    obtain ⟨ms, rfl, hms⟩ := h.object_of_brace
    obtain ⟨hinner⟩ := hkey
    obtain ⟨hinner'⟩ := hcontent
    rcases hms with ⟨-, hblanks⟩ | hmembers
    · exact absurd (hblanks Quoted.quote List.mem_cons_self) (by decide)
    · rw [hmembers.member_unique hinner hinner' (by simp [Quoted.quote])]
  · rintro rfl
    exact .object (.lastMember (.string hkey) (.string hcontent))

end Json

end Calculator
