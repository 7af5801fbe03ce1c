import Calculator.Proofs.CursorCalls
import Calculator.Proofs.JsonReading

/-!
The documents of lexical faults. A cursor only ever passes bytes of the alphabet, which are ASCII,
so in a text that is strict UTF-8 it always stands between two characters: a lexical fault is at the
start of a character and carries it whole. Its message is strict UTF-8 again, and its document is an
object that stands for this message and nothing else.
-/

namespace Calculator

open Json Utf8
open String (utf8EncodeChar)

variable {text a : Bytes} {fault : Fault}

/-- The document of a fault whose message is strict stands for this message and nothing else. -/
theorem isText_fault_iff (h : IsStrict fault.message) {value : Json} :
    IsText (.value value) fault.json ↔
      value = .object [(ascii "error", .string fault.message)] := by
  have hplain : IsPlain (ascii "error") := by decide
  have hstart : ascii "\x7b\"error\":" =
      openingBrace :: (Quoted.encode (ascii "error") ++ ascii ":") := by decide +kernel
  have hkey := Quoted.isQuoted_of_plain hplain
  have hmessage := Quoted.isQuoted_of_isStrict h
  rw [← isText_member_iff hkey hmessage, Fault.json, hstart]
  rfl

theorem isStrict_lexical {character : Bytes} (h : IsSequence character)
    (hspurious : ¬IsSpurious character) (offset : Nat) :
    IsStrict (Fault.lexical character offset).message := by
  have hbefore : IsPlain (ascii "Lexical Error: Invalid character '") := by decide
  have hafter : IsPlain (ascii "' at position " ++ digits offset) :=
    isPlain_append.mpr ⟨by decide, isPlain_digits offset⟩
  rw [Fault.message, List.append_assoc, List.append_assoc,
    isStrict_append_iff_of_ascii hbefore.lt, isStrict_append_iff h]
  exact ⟨hspurious, isStrict_of_ascii hafter.lt⟩

/-- The alphabet is ASCII. -/
theorem lt_of_inAlphabet {byte : UInt8} (h : InAlphabet byte) : byte < 0x80 := by
  have hmarks : markTable.all fun entry => entry.1 < 0x80 := rfl
  have hseparators : separators.all fun byte => byte < 0x80 := rfl
  rcases h with h | h | h
  · exact of_decide_eq_true (List.all_eq_true.mp hseparators _ h)
  · obtain ⟨m, hm⟩ := Option.isSome_iff_exists.mp h
    rw [← ofByte?_eq_lookup] at hm
    exact of_decide_eq_true (List.all_eq_true.mp hmarks _ (mem_markTable hm))
  · rcases isNumeral_iff.mp h with hdigit | rfl
    · have hplain : IsPlain [byte] := isPlain_of_isDigit (List.forall_mem_singleton.mpr hdigit)
      exact hplain.lt byte List.mem_cons_self
    · decide

namespace Cursor

/-- Bytes of the alphabet. -/
def IsPassable (passed : Bytes) : Prop := ∀ byte ∈ passed, InAlphabet byte

theorem isPassable_of_blanks (h : ∀ byte ∈ a, isBlank byte) : IsPassable a :=
  fun byte hbyte => inAlphabet_of_isBlank (h byte hbyte)

theorem isPassable_of_run (h : ∀ byte ∈ a, isNumeral byte) : IsPassable a :=
  fun byte hbyte => inAlphabet_of_isNumeral (h byte hbyte)

theorem IsPassable.append {b : Bytes} (ha : IsPassable a) (hb : IsPassable b) :
    IsPassable (a ++ b) :=
  List.forall_mem_append.mpr ⟨ha, hb⟩

/-- A cursor passes bytes of the alphabet only. -/
theorem Finds.exists_passed {c : Cursor} {step : Step} (h : Finds c step) :
    ∃ passed, IsPassable passed ∧ c.rest = passed ++ step.after.rest ∧
      step.after.offset = c.offset + passed.length := by
  have hbody {blanks body : Bytes} (hblanks : ∀ byte ∈ blanks, isBlank byte)
      (hpassable : IsPassable body) (rest : Bytes) (offset : Nat) : ∃ passed, IsPassable passed ∧
        blanks ++ (body ++ rest) = passed ++ rest ∧
        offset + blanks.length + body.length = offset + passed.length := by
    refine ⟨blanks ++ body, (isPassable_of_blanks hblanks).append hpassable, ?_, ?_⟩
    · rw [List.append_assoc]
    · rw [List.length_append, Nat.add_assoc]
  have hnil : IsPassable [] := List.forall_mem_nil _
  cases h with
  | @ending blanks offset hblanks =>
      have hpassed := hbody hblanks hnil [] offset
      rwa [List.append_nil, List.append_nil] at hpassed
  | mark hblanks hmark =>
      exact hbody hblanks (List.forall_mem_singleton.mpr (inAlphabet_of_ofByte? hmark)) _ _
  | numeral hblanks hrun => exact hbody hblanks (isPassable_of_run hrun) _ _
  | secondPoint hblanks hrun => exact hbody hblanks (isPassable_of_run hrun) _ _
  | lonePoint hblanks => exact hbody hblanks (List.forall_mem_singleton.mpr (by decide)) _ _
  | stranger hblanks => exact hbody hblanks hnil _ _

/-- In front of a fault stand bytes of the alphabet, and at the fault the character it carries. -/
theorem Finds.exists_character {c : Cursor} {step : Step} (h : Finds c step)
    (hfault : step.result = .error fault) :
    ∃ passed left, IsPassable passed ∧ c.rest = passed ++ left ∧ left ≠ [] ∧
      fault = .lexical (firstCharacter left) (c.offset + passed.length) := by
  have hpoint (rest : Bytes) : firstCharacter (point :: rest) = [point] :=
    firstCharacter_append (.one (by decide)) rest
  cases h with
  | ending | mark | numeral => cases hfault
  | @secondPoint blanks run rest offset hblanks hrun =>
      cases hfault
      refine ⟨blanks ++ run, point :: rest, ?_, ?_, List.cons_ne_nil _ _, ?_⟩
      · exact (isPassable_of_blanks hblanks).append (isPassable_of_run hrun)
      · rw [List.append_assoc]
      · rw [hpoint, List.length_append, Nat.add_assoc]
  | @lonePoint blanks rest offset hblanks =>
      cases hfault
      refine ⟨blanks, point :: rest, isPassable_of_blanks hblanks, rfl, List.cons_ne_nil _ _, ?_⟩
      rw [hpoint]
  | @stranger blanks rest byte offset hblanks =>
      cases hfault
      exact ⟨blanks, byte :: rest, isPassable_of_blanks hblanks, rfl, List.cons_ne_nil _ _, rfl⟩

/-- Whatever the calls answered, the cursor stands behind bytes of the alphabet. -/
theorem exists_passed_afterCalls (text : Bytes) (count : Nat) :
    ∃ passed, IsPassable passed ∧ text = passed ++ (afterCalls text count).rest ∧
      (afterCalls text count).offset = passed.length := by
  induction count with
  | zero => exact ⟨[], List.forall_mem_nil _, rfl, rfl⟩
  | succ count ih =>
      obtain ⟨front, hfront, htext, hoffset⟩ := ih
      obtain ⟨passed, hpassed, hrest, hafter⟩ := (finds_next (afterCalls text count)).exists_passed
      refine ⟨front ++ passed, hfront.append hpassed, ?_, ?_⟩
      · rw [List.append_assoc, afterCalls, ← hrest, ← htext]
      · rw [List.length_append, ← hoffset, ← hafter, afterCalls]

theorem exists_character_of_call {n : Nat} (h : (call text n).result = .error fault) :
    ∃ passed left, IsPassable passed ∧ text = passed ++ left ∧ left ≠ [] ∧
      fault = .lexical (firstCharacter left) passed.length := by
  obtain ⟨front, hfront, htext, hoffset⟩ := exists_passed_afterCalls text n
  obtain ⟨passed, left, hpassed, hrest, hleft, rfl⟩ :=
    (finds_next (afterCalls text n)).exists_character h
  refine ⟨front ++ passed, left, hfront.append hpassed, ?_, hleft, ?_⟩
  · rw [List.append_assoc, ← hrest, ← htext]
  · rw [List.length_append, ← hoffset]

/-- Reading all tokens asks a cursor again and again, so its fault is the answer of a call. -/
theorem exists_call_of_tokenize (h : tokenize text = .error fault) :
    ∃ n, (call text n).result = .error fault := by
  have hcalls : ∀ n, (Script.behind (afterCalls text n)).ending = .error fault →
      ∃ m, (call text m).result = .error fault := by
    intro n
    generalize hc : afterCalls text n = c
    induction c using Script.behind_induction generalizing n with
    | fault c found hfound =>
        rintro ⟨⟩
        exact ⟨n, by rw [call, hc, hfound]⟩
    | ending c hend => exact nofun
    | token c token htoken hspelled ih => exact ih (n + 1) (by rw [afterCalls, hc])
  exact hcalls 0 (tokenize_eq_error_iff.mp h)

end Cursor

/-- The answers that a text can get a fault from: its tokens, a parser for it, its calculation, and
the calls of one cursor. -/
inductive Fault.Answers (fault : Fault) (text : Bytes) : Prop
  | tokens (h : tokenize text = .error fault)
  | tree {p : Parser} (hp : p.text = text) (h : p.parse.1 = .error fault)
  | calculation (h : calculate text = .error fault)
  | call {n : Nat} (h : (Cursor.call text n).result = .error fault)

/-- Lexical faults come from a call, whatever answers them. -/
theorem Fault.Answers.exists_call {character : Bytes} {offset : Nat}
    (h : (Fault.lexical character offset).Answers text) :
    ∃ n, (Cursor.call text n).result = .error (.lexical character offset) := by
  cases h with
  | tokens h => exact Cursor.exists_call_of_tokenize h
  | @tree p hp h =>
      rw [p.parse_eq, hp] at h
      rcases fault_of_parse h with htokens | ⟨hgrammar, -⟩
      · exact Cursor.exists_call_of_tokenize htokens
      · cases hgrammar
  | calculation h =>
      rcases fault_cases_of_calculate h with htokens | hgrammar | hzero
      · exact Cursor.exists_call_of_tokenize htokens
      · cases hgrammar
      · cases hzero
  | call h => exact ⟨_, h⟩

/-- In a strict text a lexical fault is at the start of a character and carries it whole. Its
message is strict too, and its document stands for an object that holds this message and nothing
else. -/
theorem lexicalFault_isStrict {character : Bytes} {offset : Nat} (htext : IsStrict text)
    (h : (Fault.lexical character offset).Answers text) :
    (∃ (before : List Char) (c : Char) (after : List Char),
      text = (before ++ c :: after).flatMap utf8EncodeChar ∧
        offset = (before.flatMap utf8EncodeChar).length ∧ character = utf8EncodeChar c) ∧
    IsStrict (Fault.lexical character offset).message ∧
    ∀ value, IsText (.value value) (Fault.lexical character offset).json ↔
      value = .object [(ascii "error", .string (Fault.lexical character offset).message)] := by
  obtain ⟨n, hcall⟩ := h.exists_call
  obtain ⟨passed, left, hpassed, rfl, hleft, hfault⟩ := Cursor.exists_character_of_call hcall
  have hascii : ∀ byte ∈ passed, byte < 0x80 :=
    fun byte hbyte => lt_of_inAlphabet (hpassed byte hbyte)
  obtain ⟨before, rfl⟩ := isStrict_of_ascii hascii
  obtain ⟨cs, rfl⟩ := (isStrict_append_iff_of_ascii hascii).mp htext
  obtain ⟨c, after, rfl⟩ : ∃ c after, cs = c :: after :=
    List.exists_cons_of_ne_nil fun hnil => hleft (by rw [hnil, List.flatMap_nil])
  rw [List.flatMap_cons, firstCharacter_append (isSequence_utf8EncodeChar c)] at hfault
  cases hfault
  have hstrict := isStrict_lexical (isSequence_utf8EncodeChar c) (not_isSpurious_utf8EncodeChar c)
    (before.flatMap utf8EncodeChar).length
  refine ⟨⟨before, c, after, ?_, rfl, rfl⟩, hstrict, fun value => isText_fault_iff hstrict⟩
  rw [List.flatMap_append]

/-- A character of four bytes at the very end. -/
theorem lexicalFault_isStrict_atEnd :
    IsStrict (ascii "1 " ++ [0xF0, 0x9D, 0x9F, 0x99]) ∧
      (Fault.lexical [0xF0, 0x9D, 0x9F, 0x99] 2).Answers (ascii "1 " ++ [0xF0, 0x9D, 0x9F, 0x99]) ∧
      IsStrict (Fault.lexical [0xF0, 0x9D, 0x9F, 0x99] 2).message ∧
      ∀ value, IsText (.value value) (Fault.lexical [0xF0, 0x9D, 0x9F, 0x99] 2).json ↔
        value = .object [(ascii "error",
          .string (Fault.lexical [0xF0, 0x9D, 0x9F, 0x99] 2).message)] := by
  have htext : IsStrict (ascii "1 " ++ [0xF0, 0x9D, 0x9F, 0x99]) :=
    ⟨['1', ' ', Char.ofNat 0x1D7D9], by decide⟩
  have hanswers : (Fault.lexical [0xF0, 0x9D, 0x9F, 0x99] 2).Answers
      (ascii "1 " ++ [0xF0, 0x9D, 0x9F, 0x99]) := .tokens (by decide +kernel)
  exact ⟨htext, hanswers, (lexicalFault_isStrict htext hanswers).2⟩

end Calculator
