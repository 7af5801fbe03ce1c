import Calculator.Calculation
import Calculator.Proofs.GrammarFaults

/-!
Which fault a calculation answers. The tokens of a text are read to its end before its tree is asked
for, and the parser reads them once more, only as far as it needs them. So the two readers meet the
same lexical fault, unless the parser stops at a fault of the grammar in front of it; a calculation
answers the lexical one, then the one of the grammar, then the one of the value.
-/

namespace Calculator

/-- Faults of the grammar: a token that is out of place, or one that goes too deep. -/
inductive Fault.OfGrammar : Fault → Prop
  | unexpected (found : Category) (offset : Nat) : OfGrammar (.unexpected found offset)
  | mismatch (expected found : Category) (offset : Nat) :
      OfGrammar (.mismatch expected found offset)
  | tooDeep (offset : Nat) : OfGrammar (.tooDeep offset)

/-- A fault at a lexeme that was read is one of the grammar, and stands where the lexeme starts. -/
theorem Fault.StandsAt.ofGrammar {fault : Fault} {next : Lexeme} (h : fault.StandsAt (.ok next)) :
    fault.OfGrammar ∧ fault.offset = next.offset := by
  cases h with
  | unexpected => exact ⟨.unexpected _ _, rfl⟩
  | mismatch => exact ⟨.mismatch _ _ _, rfl⟩
  | tooDeep => exact ⟨.tooDeep _, rfl⟩

theorem Fault.StandsAt.eq_of_error {fault found : Fault} (h : fault.StandsAt (.error found)) :
    fault = found := by
  cases h with
  | ahead => rfl

/-- A text without tokens is at fault in a character. -/
theorem lexical_of_tokenize {text : Bytes} {fault : Fault} (h : tokenize text = .error fault) :
    ∃ i, text.drop i ≠ [] ∧ fault = .lexical (Utf8.firstCharacter (text.drop i)) i := by
  obtain ⟨i, hfirst, hfault⟩ :=
    (Script.reads_behind (.ofText text)).2 fault (tokenize_eq_error_iff.mp h)
  refine ⟨i, ?_, hfault.trans (by rw [Cursor.ofText, Nat.zero_add])⟩
  obtain ⟨before, byte, behind, htext, rfl, -⟩ := hfirst.least.1
  change text = before ++ byte :: behind at htext
  rw [htext, List.drop_left]
  exact List.cons_ne_nil _ _

namespace Script

theorem offset_le_of_fault {c : Cursor} {fault : Fault} (h : (behind c).ending = .error fault) :
    c.offset ≤ fault.offset := by
  obtain ⟨i, -, rfl⟩ := (reads_behind c).2 fault h
  exact Nat.le_add_right _ i

/-- The lexemes of a text start in front of the fault that stops reading it. -/
theorem offset_lt_of_fault {c : Cursor} {fault : Fault} (h : (behind c).ending = .error fault) :
    ∀ lexeme ∈ (behind c).lexemes, lexeme.offset < fault.offset := by
  induction c using parts_induction with
  | fault | ending => exact List.forall_mem_nil _
  | token blanks body rest offset token hblanks hbody hseam ih =>
      refine List.forall_mem_cons.mpr ⟨?_, ih h⟩
      have hbehind := offset_le_of_fault h
      have hlength := List.length_pos_iff.mpr hbody.ne_nil
      dsimp only at hbehind ⊢
      omega

end Script

/-- The parser stops at the fault that stops reading its text, or at a lexeme in front of it. -/
theorem fault_of_parse {text : Bytes} {fault : Fault} (h : parse text = .error fault) :
    tokenize text = .error fault ∨
      fault.OfGrammar ∧ ∀ found, tokenize text = .error found → fault.offset < found.offset := by
  obtain ⟨used, rest, hlexemes, -, hplace, -⟩ := exists_place h
  cases hfront : front (Script.ofText text).ending rest with
  | error found =>
      left
      rw [hfront] at hplace
      obtain rfl := hplace.eq_of_error
      exact tokenize_eq_error_iff.mpr (front_eq_error_iff.mp hfront).2
  | ok next =>
      right
      rw [hfront] at hplace
      obtain ⟨hgrammar, hoffset⟩ := hplace.ofGrammar
      refine ⟨hgrammar, ?_⟩
      intro found htokens
      rw [tokenize_eq_error_iff] at htokens
      rw [hoffset]
      rcases front_eq_ok_iff.mp hfront with ⟨others, rfl⟩ | ⟨-, stop, hstop, -⟩
      · apply Script.offset_lt_of_fault htokens
        change next ∈ (Script.ofText text).lexemes
        rw [hlexemes]
        exact List.mem_append_right used List.mem_cons_self
      · rw [htokens] at hstop
        cases hstop

/-- A text with a tree is read to its end. -/
theorem exists_tokens_of_parse {text : Bytes} {tree : Tree.Measured} (h : parse text = .ok tree) :
    ∃ tokens, tokenize text = .ok tokens :=
  have hending := (Script.parse_eq_ok (fun _ => Script.isSpelled_of_mem_ofText) h).1
  ⟨_, tokenize_eq_ok_iff.mpr ⟨hending, rfl⟩⟩

theorem calculate_eq_ok_iff {text : Bytes} {c : Calculation} :
    calculate text = .ok c ↔ tokenize text = .ok c.tokens ∧ parse text = .ok c.tree ∧
      c.tree.tree.evaluate = .ok c.value := by
  constructor
  · intro h
    obtain ⟨tokens, htokens, h⟩ := bind_eq_ok_iff.mp h
    obtain ⟨tree, htree, h⟩ := bind_eq_ok_iff.mp h
    obtain ⟨value, hvalue, h⟩ := bind_eq_ok_iff.mp h
    cases h
    exact ⟨htokens, htree, hvalue⟩
  · rintro ⟨htokens, htree, hvalue⟩
    rw [calculate, htokens, ok_bind, htree, ok_bind, hvalue, ok_bind]

/-- A calculation that fails has the fault of one of its three stages. -/
theorem fault_of_calculate {text : Bytes} {fault : Fault} (h : calculate text = .error fault) :
    tokenize text = .error fault ∨ fault.OfGrammar ∨
      ∃ tree, parse text = .ok tree ∧ tree.tree.evaluate = .error fault := by
  rcases bind_eq_error_iff.mp h with htokens | ⟨tokens, htokens, h⟩
  · exact Or.inl htokens
  · right
    rcases bind_eq_error_iff.mp h with hparse | ⟨tree, hparse, h⟩
    · rcases fault_of_parse hparse with hlexical | ⟨hgrammar, -⟩
      · rw [htokens] at hlexical
        cases hlexical
      · exact Or.inl hgrammar
    · rcases bind_eq_error_iff.mp h with hvalue | ⟨value, -, h⟩
      · exact Or.inr ⟨tree, hparse, hvalue⟩
      · cases h

/-- The parser, which reads tokens as it needs them, and the reading of all tokens agree. Where all
tokens can be read the parser finds no lexical fault; where they cannot it finds the same fault, or
one of the grammar strictly in front of it. So a calculation answers the fault of the tokens, else
that of the tree, else the value of the tree, and it succeeds only if all three stages do. -/
theorem calculate_answers_firstFault (text : Bytes) :
    (∀ tokens, tokenize text = .ok tokens →
      (∀ fault, (Parser.ofText text).parse.1 = .error fault → fault.OfGrammar) ∧
      calculate text = do
        let tree ← (Parser.ofText text).parse.1
        let value ← tree.tree.evaluate
        .ok { tokens, tree, value }) ∧
    (∀ fault, tokenize text = .error fault →
      (∃ found, (Parser.ofText text).parse.1 = .error found ∧
        (found = fault ∨ found.OfGrammar ∧ found.offset < fault.offset)) ∧
      calculate text = .error fault) ∧
    ∀ c, calculate text = .ok c ↔ tokenize text = .ok c.tokens ∧
      (Parser.ofText text).parse.1 = .ok c.tree ∧ c.tree.tree.evaluate = .ok c.value := by
  rw [Parser.parse_eq, Parser.ofText]
  refine ⟨?_, ?_, fun c => calculate_eq_ok_iff⟩
  · intro tokens htokens
    refine ⟨?_, by rw [calculate, htokens, ok_bind]⟩
    intro fault hfault
    rcases fault_of_parse hfault with hlexical | ⟨hgrammar, -⟩
    · rw [htokens] at hlexical
      cases hlexical
    · exact hgrammar
  · intro fault hfault
    refine ⟨?_, by rw [calculate, hfault, error_bind]⟩
    cases hparse : parse text with
    | ok tree =>
        obtain ⟨tokens, htokens⟩ := exists_tokens_of_parse hparse
        rw [hfault] at htokens
        cases htokens
    | error found =>
        refine ⟨found, rfl, ?_⟩
        rcases fault_of_parse hparse with hlexical | ⟨hgrammar, hbefore⟩
        · rw [hfault] at hlexical
          exact Or.inl (Except.error.inj hlexical).symm
        · exact Or.inr ⟨hgrammar, hbefore fault hfault⟩

/-- The parser stops at the closing parenthesis, the calculation at the character behind it. -/
theorem calculate_strayCharacter :
    tokenize (ascii "1+)@") = .error (.lexical (ascii "@") 3) ∧
      (∃ found, (Parser.ofText (ascii "1+)@")).parse.1 = .error found ∧
        (found = .lexical (ascii "@") 3 ∨ found.OfGrammar ∧ found.offset < 3)) ∧
      calculate (ascii "1+)@") = .error (.lexical (ascii "@") 3) := by
  have htokens : tokenize (ascii "1+)@") = .error (.lexical (ascii "@") 3) := by decide +kernel
  exact ⟨htokens, (calculate_answers_firstFault _).2.1 _ htokens⟩

end Calculator
