import Calculator.Proofs.DocumentOutput
import Calculator.Proofs.ScriptAppend

/-!
Blank answers. An answer of blanks stands for the first sample, and a text of blanks is one without
tokens, but the prompt and the reading of tokens do not mean the same blanks: a vertical tab and a
form feed stand between tokens like every other blank, while an answer with one of them is taken for
an expression. So an answer that has no tokens stands for the first sample unless it has one of
these two bytes, and is at fault at its end if it has.
-/

namespace Calculator

/-- The expression that a blank answer stands for. -/
def firstSample : Bytes := samples.headD []

/-- The blanks between tokens that no blank answer has: the vertical tab and the form feed. -/
def pageBlanks : Bytes := [0x0B, 0x0C]

/-- The choice of the expression agrees with the reading of tokens on whether the answer is blank:
the first sample is chosen just for an answer without tokens, or for itself, and every other answer
is the expression. -/
structure ChoosesAsRead (answer : Bytes) : Prop where
  eq_firstSample_iff :
    chooseExpression answer = firstSample ↔ tokenize answer = .ok [] ∨ answer = firstSample
  eq_self : chooseExpression answer ≠ firstSample → chooseExpression answer = answer

section
variable {byte : UInt8} {text answer : Bytes}

theorem isAnswerBlank_iff : isAnswerBlank byte ↔ isBlank byte ∧ byte ∉ pageBlanks := by
  simp only [isBlank_iff, isAnswerBlank, separators, pageBlanks, Bool.or_eq_true, beq_iff_eq,
    List.mem_cons, List.not_mem_nil, or_false, ← UInt8.toNat_inj, UInt8.reduceToNat]
  omega

/-- A text has no tokens if and only if it is blank where tokens are read. -/
theorem tokenize_eq_nil_iff : tokenize text = .ok [] ↔ ∀ byte ∈ text, isBlank byte := by
  refine ⟨fun h => ?_, tokenize_blanks⟩
  change (Script.behind (.ofText text)).tokens = .ok [] at h
  cases hnext : (Cursor.ofText text).next.result with
  | error fault =>
      rw [Script.behind_of_fault hnext] at h
      cases h
  | ok token =>
      rcases Cursor.isSpelled_of_next hnext with rfl | hspelled
      · exact (Cursor.next_of_end hnext).1
      · obtain ⟨-, hlexemes⟩ := tokenize_eq_ok_iff.mp h
        change (Script.behind (.ofText text)).lexemes.map Lexeme.token = [] at hlexemes
        rw [Script.behind_of_token hnext hspelled.ne_endOfInput] at hlexemes
        cases hlexemes

/-- An answer is blank if it has no tokens, and none of the two blanks that only tokens have
between them. -/
theorem all_isAnswerBlank_iff : answer.all isAnswerBlank ↔
    tokenize answer = .ok [] ∧ ∀ byte ∈ answer, byte ∉ pageBlanks := by
  simp only [List.all_eq_true, isAnswerBlank_iff, tokenize_eq_nil_iff]
  exact forall₂_and

theorem chooseExpression_of_blank (h : answer.all isAnswerBlank) :
    chooseExpression answer = firstSample :=
  if_pos h

theorem chooseExpression_of_not_blank (h : ¬answer.all isAnswerBlank) :
    chooseExpression answer = answer :=
  if_neg h

theorem chooseExpression_eq_firstSample_iff : chooseExpression answer = firstSample ↔
    (tokenize answer = .ok [] ∧ ∀ byte ∈ answer, byte ∉ pageBlanks) ∨ answer = firstSample := by
  rw [← all_isAnswerBlank_iff]
  by_cases h : answer.all isAnswerBlank
  · exact iff_of_true (chooseExpression_of_blank h) (Or.inl h)
  · rw [chooseExpression_of_not_blank h, or_iff_right h]

theorem chooseExpression_eq_self (h : chooseExpression answer ≠ firstSample) :
    chooseExpression answer = answer :=
  chooseExpression_of_not_blank fun hblank => h (chooseExpression_of_blank hblank)

/-- The sample itself has tokens. -/
theorem tokenize_firstSample_ne : tokenize firstSample ≠ .ok [] := by
  rw [Ne, tokenize_eq_nil_iff]
  decide

theorem choosesAsRead_iff : ChoosesAsRead answer ↔
    ¬(tokenize answer = .ok [] ∧ ∃ byte ∈ answer, byte ∈ pageBlanks) := by
  constructor
  · rintro ⟨hagrees, -⟩ ⟨htokens, byte, hbyte, hpage⟩
    have hchosen : chooseExpression answer = firstSample := hagrees.mpr (Or.inl htokens)
    rcases chooseExpression_eq_firstSample_iff.mp hchosen with ⟨-, hplain⟩ | rfl
    · exact hplain byte hbyte hpage
    · exact tokenize_firstSample_ne htokens
  · intro hplain
    have htokens : (tokenize answer = .ok [] ∧ ∀ byte ∈ answer, byte ∉ pageBlanks) ↔
        tokenize answer = .ok [] :=
      and_iff_left_of_imp fun htokens byte hbyte hpage => hplain ⟨htokens, byte, hbyte, hpage⟩
    exact ⟨chooseExpression_eq_firstSample_iff.trans (or_congr_left htokens),
      chooseExpression_eq_self⟩

/-- A vertical tab stands between tokens, and is yet taken for an expression. -/
theorem not_choosesAsRead_verticalTab : ¬ChoosesAsRead [0x0B] := by
  intro h
  have hchosen : chooseExpression [0x0B] = firstSample :=
    h.eq_firstSample_iff.mpr (Or.inl (tokenize_blanks (by decide +kernel)))
  revert hchosen
  decide

end

/-- Blanks are an expression that ends where it has to start. -/
theorem parse_blanks {blanks : Bytes} (h : ∀ byte ∈ blanks, isBlank byte) :
    parse blanks = .error (.unexpected (.mark .endOfInput) blanks.length) := by
  have hscript : Script.ofText blanks = ⟨[], .ok blanks.length⟩ := by
    have hbehind := Script.behind_blanks h [] 0
    rwa [List.append_nil, Script.behind_nil, Nat.zero_add] at hbehind
  rw [parse, hscript]
  rfl

theorem calculate_blanks {blanks : Bytes} (h : ∀ byte ∈ blanks, isBlank byte) :
    calculate blanks = .error (.unexpected (.mark .endOfInput) blanks.length) := by
  rw [calculate, tokenize_blanks h, ok_bind, parse_blanks h, error_bind]

/-- The first sample is `3 + 5 * (10 / 2)`. -/
theorem exists_calculate_firstSample : ∃ c, calculate firstSample = .ok c ∧ c.value = .real 28 := by
  have hvalue : (calculate firstSample).toOption.map Calculation.value = some (.real 28) := by
    decide +kernel
  obtain ⟨c, hc, hc28⟩ := Option.map_eq_some_iff.mp hvalue
  exact ⟨c, eq_ok_of_toOption hc, hc28⟩

/-! ### Sessions -/

namespace Session

/-- What a session that waits for its answer ends in, if this is what comes of the answer. -/
def ShowsAnswer (o : Options) (outcome : Outcome) : Except Fault Calculation → Prop
  | .ok c =>
    outcome.code = 0 ∧ outcome.out =
      (if o.json then [] else banner) ++ if o.json then c.json ++ newline else c.report
  | .error fault =>
    outcome.code = 1 ∧ outcome.out =
      (if o.json then [] else banner) ++
        if o.json then fault.json ++ newline else ascii "\nERROR: " ++ fault.message ++ newline

variable {environment : Option Bytes} {argv others : List Bytes} {o : Options} {answer : Bytes}

theorem showsAnswer_run (h : ({} : Options).read environment argv = (o, .proceed))
    (hask : o.interactive) : ShowsAnswer o (run environment argv (answer :: others)).1
      (calculate (chooseExpression answer)) := by
  rw [run_of_answer h hask, List.head?_cons]
  simp only [answered, Options.evaluate]
  cases calculate (chooseExpression answer) with
  | error fault => exact ⟨rfl, rfl⟩
  | ok c => exact ⟨rfl, rfl⟩

/-- The prompt agrees with the reading of tokens on whether an answer is blank unless the answer has
no tokens, but a vertical tab or a form feed. The first sample is chosen for the answers that have
neither tokens nor these, and for itself; every other answer stays as it is. So a session ends in
the value of the sample if its answer is all blanks but these, and otherwise, if it is all blanks,
in the fault that it has at its end. -/
theorem blank_answers_agree_unless_page_blanks (environment : Option Bytes) (argv : List Bytes)
    (answer : Bytes) (others : List Bytes) :
    (ChoosesAsRead answer ↔
      ¬(tokenize answer = .ok [] ∧ ∃ byte ∈ answer, byte ∈ pageBlanks)) ∧
    (chooseExpression answer = firstSample ↔
      (tokenize answer = .ok [] ∧ ∀ byte ∈ answer, byte ∉ pageBlanks) ∨ answer = firstSample) ∧
    (chooseExpression answer ≠ firstSample → chooseExpression answer = answer) ∧
    ∀ o : Options, ({} : Options).read environment argv = (o, .proceed) → o.interactive →
      (∀ byte ∈ answer, isBlank byte) →
      ((∀ byte ∈ answer, byte ∉ pageBlanks) → ∃ c, calculate firstSample = .ok c ∧
        c.value = .real 28 ∧ ShowsAnswer o (run environment argv (answer :: others)).1 (.ok c)) ∧
      ((∃ byte ∈ answer, byte ∈ pageBlanks) →
        ShowsAnswer o (run environment argv (answer :: others)).1
          (.error (.unexpected (.mark .endOfInput) answer.length))) := by
  refine ⟨choosesAsRead_iff, chooseExpression_eq_firstSample_iff, chooseExpression_eq_self, ?_⟩
  intro o hread hask hblanks
  have hshows : ShowsAnswer o (run environment argv (answer :: others)).1
      (calculate (chooseExpression answer)) := showsAnswer_run hread hask
  refine ⟨fun hplain => ?_, fun hpage => ?_⟩
  · have hblank := all_isAnswerBlank_iff.mpr ⟨tokenize_blanks hblanks, hplain⟩
    obtain ⟨c, hc, hvalue⟩ := exists_calculate_firstSample
    rw [chooseExpression_of_blank hblank, hc] at hshows
    exact ⟨c, hc, hvalue, hshows⟩
  · have hnot : ¬answer.all isAnswerBlank := by
      obtain ⟨byte, hbyte, hpage⟩ := hpage
      exact fun hblank => (all_isAnswerBlank_iff.mp hblank).2 byte hbyte hpage
    rwa [chooseExpression_of_not_blank hnot, calculate_blanks hblanks] at hshows

/-- The prompt of a session without arguments: a tab stands for the sample, and a space in front of
a form feed is at fault behind both. -/
theorem blank_answers_without_arguments :
    ({} : Options).read none [ascii "mathc"] = ({ interactive := true }, .proceed) ∧
    (∃ c, calculate firstSample = .ok c ∧ c.value = .real 28 ∧
      ShowsAnswer { interactive := true } (run none [ascii "mathc"] [[0x09]]).1 (.ok c)) ∧
    ShowsAnswer { interactive := true } (run none [ascii "mathc"] [[0x20, 0x0C]]).1
      (.error (.unexpected (.mark .endOfInput) 2)) := by
  have hread : ({} : Options).read none [ascii "mathc"] =
      ({ interactive := true }, .proceed) := by decide
  have hplain := (blank_answers_agree_unless_page_blanks none [ascii "mathc"] [0x09] []).2.2.2
  have hpage := (blank_answers_agree_unless_page_blanks none [ascii "mathc"] [0x20, 0x0C] []).2.2.2
  exact ⟨hread, (hplain _ hread rfl (by decide +kernel)).1 (by decide +kernel),
    (hpage _ hread rfl (by decide +kernel)).2 (by decide +kernel)⟩

end Session

end Calculator
