import Calculator.Proofs.GrammarAcceptance
import Calculator.Proofs.GrammarLocality
import Calculator.Proofs.ScriptAppend

/-!
Faults of the grammar. They are found at the earliest token that cannot be right: the tokens in
front of it begin an expression, and no text that goes on differently behind it is any better.
-/

namespace Calculator

/-- The category that a fault of the grammar is about. -/
def Fault.found? : Fault → Option Category
  | .unexpected found _ | .mismatch _ found _ => some found
  | .lexical .. | .divisionByZero | .unknownNode | .tooDeep _ | .other => none

/-- The tokens of a text that start before an offset. -/
def tokensBefore (text : Bytes) (offset : Nat) : List Token :=
  ((Script.ofText text).lexemes.filter fun lexeme => lexeme.offset < offset).map Lexeme.token

theorem front_eq_error_iff {ending : Except Fault Nat} {lexemes : List Lexeme} {fault : Fault} :
    front ending lexemes = .error fault ↔ lexemes = [] ∧ ending = .error fault := by
  cases lexemes with
  | cons lexeme lexemes => simp [front]
  | nil => cases ending <;> simp [front, Except.map]

namespace Script

/-- The fault that stops reading a text is no fault of the grammar. -/
theorem found?_eq_none {c : Cursor} {fault : Fault} (h : (behind c).ending = .error fault) :
    fault.found? = none := by
  obtain ⟨i, -, rfl⟩ := (reads_behind c).2 fault h
  rfl

/-- Where a fault of the grammar stands a token was read, or the end of the input. -/
theorem exists_next {c : Cursor} {fault : Fault} {rest : List Lexeme} {found : Category}
    (h : fault.StandsAt (front (behind c).ending rest)) (hfound : fault.found? = some found) :
    ∃ next, front (behind c).ending rest = .ok next ∧ found = next.token.category ∧
      fault.offset = next.offset ∧ ¬next.token.Starts := by
  generalize hplace : front (behind c).ending rest = place at h
  cases h with
  | ahead =>
      rw [found?_eq_none (front_eq_error_iff.mp hplace).2] at hfound
      cases hfound
  | @unexpected next hstarts =>
      cases hfound
      exact ⟨next, rfl, rfl, rfl, hstarts⟩
  | @mismatch expected next hstarts =>
      cases hfound
      exact ⟨next, rfl, rfl, rfl, hstarts⟩
  | tooDeep => cases hfound

/-- The lexemes in front of a place are those with smaller offsets. -/
theorem filter_offset_eq {c : Cursor} {used rest : List Lexeme} {next : Lexeme}
    (h : (behind c).lexemes = used ++ rest) (hnext : front (behind c).ending rest = .ok next) :
    (behind c).lexemes.filter (fun lexeme => lexeme.offset < next.offset) = used := by
  have hsorted := pairwise_behind c
  rw [h, List.pairwise_append] at hsorted
  obtain ⟨-, hrest, hbetween⟩ := hsorted
  have hused : used.filter (fun lexeme => lexeme.offset < next.offset) = used := by
    rw [List.filter_eq_self]
    intro lexeme hlexeme
    rcases front_eq_ok_iff.mp hnext with ⟨behind, rfl⟩ | ⟨rfl, stop, hstop, rfl⟩
    · exact decide_eq_true (hbetween lexeme hlexeme next List.mem_cons_self)
    · have hmem : lexeme ∈ (behind c).lexemes := by
        rw [h]
        exact List.mem_append_left [] hlexeme
      rw [stop_eq hstop]
      exact decide_eq_true (offset_mem_behind c lexeme hmem).2
  have hnone : rest.filter (fun lexeme => lexeme.offset < next.offset) = [] := by
    rcases front_eq_ok_iff.mp hnext with ⟨behind, rfl⟩ | ⟨rfl, -⟩
    · rw [List.filter_eq_nil_iff]
      intro lexeme hlexeme
      rcases List.mem_cons.mp hlexeme with rfl | hlexeme
      · simp
      · have := List.rel_of_pairwise_cons hrest hlexeme
        simp only [decide_eq_true_eq]
        omega
    · rfl
  rw [h, List.filter_append, hused, hnone, List.append_nil]

end Script

namespace Script

variable {text : Bytes} {used others : List Lexeme} {m : Mark} {byte : UInt8} {offset : Nat}

/-- A mark is one byte of its text, and what is read up to there is read in every text that is the
same up to there. -/
theorem ofText_cut (h : (ofText text).lexemes = used ++ ⟨.mark m byte, offset⟩ :: others) :
    text[offset]? = some byte ∧ Mark.ofByte? byte = some m ∧
      ∀ suffix, ∃ others', (ofText (text.take (offset + 1) ++ suffix)).lexemes =
        used ++ ⟨.mark m byte, offset⟩ :: others' := by
  obtain ⟨a, body, rest, htext, hoffset, hbody, -, -, ha⟩ := exists_lexeme h
  dsimp only [Cursor.ofText] at htext hoffset ha
  rw [Nat.zero_add] at hoffset
  cases hbody with
  | mark hmark =>
      refine ⟨?_, hmark, ?_⟩
      · rw [htext, hoffset, List.getElem?_append_right (Nat.le_refl _), Nat.sub_self]
        rfl
      · intro suffix
        have htake : text.take (offset + 1) ++ suffix = a ++ ([byte] ++ suffix) := by
          rw [htext, hoffset, List.take_length_add_append]
          simp
        have hseam : Seam a ([byte] ++ suffix) := seam_of_mark_right hmark a suffix
        have hbehind := behind_append_body ⟨a, 0⟩ (congrArg ending ha) (.mark hmark) hseam
          (seam_of_mark_left hmark suffix)
        refine ⟨(behind ⟨suffix, 0 + a.length + 1⟩).lexemes, ?_⟩
        rw [htake, ofText, ← behind, Cursor.ofText, hbehind, ha, hoffset, Nat.zero_add]
        exact List.append_assoc _ _ _

end Script

/-- The place of a fault, and the texts that have the same fault. -/
theorem exists_place {text : Bytes} {fault : Fault} (h : parse text = .error fault) :
    ∃ used rest, (Script.ofText text).lexemes = used ++ rest ∧
      Begins .expression (used.map Lexeme.token) ∧
      fault.StandsAt (front (Script.ofText text).ending rest) ∧
      ∀ text' rest', (Script.ofText text').lexemes = used ++ rest' →
        front (Script.ofText text').ending rest' = front (Script.ofText text).ending rest →
        parse text' = .error fault := by
  obtain ⟨used, rest, hlexemes, hbegins, hplace, hlocal⟩ := Script.parse_eq_error h
  refine ⟨used, rest, hlexemes, hbegins, hplace, ?_⟩
  intro text' rest' hlexemes' hfront
  have hparse := hlocal (Script.ofText text').ending rest' hfront
  rw [← hlexemes'] at hparse
  exact hparse

/-- Tokens with a fault of the grammar derive no tree. -/
theorem not_derives_of_found {text : Bytes} {fault : Fault} {found : Category} {stop : Nat}
    (h : parse text = .error fault) (hfound : fault.found? = some found)
    (hending : (Script.ofText text).ending = .ok stop) (tree : Tree) (n : Nat) :
    ¬Derives .expression ((Script.ofText text).lexemes.map Lexeme.token) tree n := by
  intro hderives
  have hlimited := Script.limited_parse hending hderives
  have hparse : (Script.ofText text).parse = .error fault := h
  by_cases hwithin : n ≤ limit ∧ tree.height ≤ limit
  · rw [hlimited.inside hwithin] at hparse
    cases hparse
  · obtain ⟨offset, hdeep⟩ := hlimited.outside hwithin
    rw [hdeep] at hparse
    cases hparse
    cases hfound

/-- A fault of the grammar stands at the first token that cannot be right. In front of it the tokens
begin an expression. Behind it nothing matters, unless it is the end of the input; then the tokens
are no expression but the beginning of one. -/
theorem syntaxFault_is_earliest {text : Bytes} {fault : Fault} {found : Category}
    (h : (Parser.ofText text).parse.1 = .error fault) (hfound : fault.found? = some found) :
    (∃ more tree n, (∀ token ∈ more, token.IsSpelled) ∧
      Derives .expression (tokensBefore text fault.offset ++ more) tree n) ∧
    (found ≠ .mark .endOfInput →
      (∃ byte mark, text[fault.offset]? = some byte ∧ Mark.ofByte? byte = some mark ∧
        found = .mark mark) ∧
      ∀ suffix, (Parser.ofText (text.take (fault.offset + 1) ++ suffix)).parse.1 =
        .error fault) ∧
    (found = .mark .endOfInput →
      ∃ tokens, tokenize text = .ok tokens ∧ (∀ tree n, ¬Derives .expression tokens tree n) ∧
        ∃ more tree n, more ≠ [] ∧ Derives .expression (tokens ++ more) tree n) := by
  have hparse : parse text = .error fault := (Parser.ofText text).parse_eq.symm.trans h
  obtain ⟨used, rest, hlexemes, hbegins, hplace, hlocal⟩ := exists_place hparse
  obtain ⟨next, hnext, rfl, hoffset, hstarts⟩ := Script.exists_next hplace hfound
  have hbefore : tokensBefore text fault.offset = used.map Lexeme.token := by
    rw [tokensBefore, hoffset]
    exact congrArg _ (Script.filter_offset_eq hlexemes hnext)
  rw [hbefore]
  refine ⟨hbegins, ?_, ?_⟩
  · intro hmark
    rcases front_eq_ok_iff.mp hnext with ⟨others, rfl⟩ | ⟨-, stop, -, rfl⟩
    · obtain ⟨token, offset⟩ := next
      cases token with
      | number value => exact absurd (Or.inl rfl) hstarts
      | mark m byte =>
          obtain ⟨hbyte, hofByte, hcut⟩ := Script.ofText_cut hlexemes
          rw [hoffset]
          refine ⟨⟨byte, m, hbyte, hofByte, rfl⟩, ?_⟩
          intro suffix
          obtain ⟨others', hothers⟩ := hcut suffix
          have hfront : front (Script.ofText (text.take (offset + 1) ++ suffix)).ending
              (⟨.mark m byte, offset⟩ :: others') = .ok ⟨.mark m byte, offset⟩ := rfl
          exact (Parser.ofText _).parse_eq.trans (hlocal _ _ hothers (hfront.trans hnext.symm))
    · exact absurd rfl hmark
  · intro hend
    rcases front_eq_ok_iff.mp hnext with ⟨others, rfl⟩ | ⟨rfl, stop, hstop, -⟩
    · have hmem : next ∈ (Script.ofText text).lexemes := by
        rw [hlexemes]
        exact List.mem_append_right used List.mem_cons_self
      exact absurd hend (Script.isSpelled_of_mem_ofText hmem).category_ne
    · have hnot := not_derives_of_found hparse hfound hstop
      rw [hlexemes, List.append_nil] at hnot
      rw [List.append_nil] at hlexemes
      refine ⟨_, tokenize_eq_ok_iff.mpr ⟨⟨stop, hstop⟩, congrArg _ hlexemes⟩, hnot, ?_⟩
      obtain ⟨more, tree, n, -, hderives⟩ := hbegins
      refine ⟨more, tree, n, ?_, hderives⟩
      rintro rfl
      rw [List.append_nil] at hderives
      exact hnot tree n hderives

theorem syntaxFault_misplacedStar :
    (Parser.ofText (ascii "2(3+*4@")).parse.1 = .error (.unexpected (.mark .star) 4) ∧
      (∃ more tree n, (∀ token ∈ more, token.IsSpelled) ∧
        Derives .expression (tokensBefore (ascii "2(3+*4@") 4 ++ more) tree n) ∧
      ∀ suffix, (Parser.ofText (ascii "2(3+*" ++ suffix)).parse.1 =
        .error (.unexpected (.mark .star) 4) := by
  have h : (Parser.ofText (ascii "2(3+*4@")).parse.1 = .error (.unexpected (.mark .star) 4) := by
    decide +kernel
  obtain ⟨hbegins, hearliest, -⟩ := syntaxFault_is_earliest h rfl
  exact ⟨h, hbegins, (hearliest (by decide)).2⟩

end Calculator
