import Calculator.Proofs.CursorStep
import Calculator.Token.Script

/-!
Scripts step by step. The script behind a cursor is a first lexeme and the script behind the next
cursor, or it ends at once. Its lexemes are numbers and marks with the bytes that spell them, never
the end of the input.
-/

namespace Calculator

/-- A number, or a mark with the byte that spells it. -/
def Token.IsSpelled : Token → Prop
  | .number _ => True
  | .mark m byte => Mark.ofByte? byte = some m

theorem Mark.ofByte?_ne_endOfInput (byte : UInt8) : ofByte? byte ≠ some .endOfInput := by
  unfold ofByte?
  repeat' split
  all_goals simp

theorem Token.IsSpelled.category_ne {token : Token} (h : token.IsSpelled) :
    token.category ≠ .mark .endOfInput := by
  cases token with
  | number => simp [category]
  | mark m byte =>
      intro hcategory
      cases hcategory
      exact Mark.ofByte?_ne_endOfInput byte h

theorem Token.IsSpelled.ne_endOfInput {token : Token} (h : token.IsSpelled) :
    token ≠ .endOfInput := by
  rintro rfl
  exact h.category_ne rfl

/-- A step finds the end of the input or a token that is spelled. -/
theorem Cursor.isSpelled_of_next {c : Cursor} {token : Token} (h : c.next.result = .ok token) :
    token = .endOfInput ∨ token.IsSpelled := by
  have hfinds := finds_next c
  generalize c.next = step at hfinds h
  cases hfinds with
  | ending =>
      cases h
      exact Or.inl rfl
  | mark hblanks hmark =>
      cases h
      exact Or.inr hmark
  | numeral =>
      cases h
      exact Or.inr trivial
  | secondPoint | lonePoint | stranger => cases h

/-- A step finds the end of the input behind blanks, and leaves nothing. -/
theorem Cursor.next_of_end {c : Cursor} (h : c.next.result = .ok .endOfInput) :
    (∀ byte ∈ c.rest, isBlank byte) ∧ c.next.after = ⟨[], c.next.start⟩ := by
  have hfinds := finds_next c
  generalize c.next = step at hfinds h ⊢
  cases hfinds with
  | ending hblanks => exact ⟨hblanks, rfl⟩
  | mark hblanks hmark =>
      have hspelled : Token.endOfInput.IsSpelled := Except.ok.inj h ▸ hmark
      exact absurd rfl hspelled.ne_endOfInput
  | numeral | secondPoint | lonePoint | stranger => cases h

namespace Script

theorem readFrom_of_fault {read : List Lexeme} {c : Cursor} {fault : Fault}
    (h : c.next.result = .error fault) : readFrom read c = ⟨read.reverse, .error fault⟩ := by
  rw [readFrom]
  split
  · rename_i found hfound
    rw [h] at hfound
    cases hfound
    rfl
  · rename_i token htoken
    rw [h] at htoken
    cases htoken

theorem readFrom_of_end {read : List Lexeme} {c : Cursor}
    (h : c.next.result = .ok .endOfInput) : readFrom read c = ⟨read.reverse, .ok c.next.start⟩ := by
  rw [readFrom]
  split
  · rename_i fault hfault
    rw [h] at hfault
    cases hfault
  · rename_i token htoken
    rw [h] at htoken
    cases htoken
    rw [dif_pos rfl]

theorem readFrom_of_token {read : List Lexeme} {c : Cursor} {token : Token}
    (h : c.next.result = .ok token) (htoken : token ≠ .endOfInput) :
    readFrom read c = readFrom (⟨token, c.next.start⟩ :: read) c.next.after := by
  rw [readFrom]
  split
  · rename_i fault hfault
    rw [h] at hfault
    cases hfault
  · rename_i found hfound
    rw [h] at hfound
    cases hfound
    rw [dif_neg htoken]

/-- What was read before does not matter for what is read next. -/
theorem readFrom_append (newer older : List Lexeme) (c : Cursor) :
    readFrom (newer ++ older) c =
      ⟨older.reverse ++ (readFrom newer c).lexemes, (readFrom newer c).ending⟩ := by
  fun_induction readFrom newer c with
  | case1 newer c step fault h =>
      rw [readFrom_of_fault h, List.reverse_append]
  | case2 newer c step h =>
      rw [readFrom_of_end h, List.reverse_append]
  | case3 newer c step token h htoken ih =>
      rw [readFrom_of_token h htoken, ← ih, List.cons_append]

/-- What is read from a cursor on. -/
def behind (c : Cursor) : Script := readFrom [] c

theorem behind_of_fault {c : Cursor} {fault : Fault} (h : c.next.result = .error fault) :
    behind c = ⟨[], .error fault⟩ :=
  readFrom_of_fault h

theorem behind_of_end {c : Cursor} (h : c.next.result = .ok .endOfInput) :
    behind c = ⟨[], .ok c.next.start⟩ :=
  readFrom_of_end h

theorem behind_of_token {c : Cursor} {token : Token} (h : c.next.result = .ok token)
    (htoken : token ≠ .endOfInput) :
    behind c =
      ⟨⟨token, c.next.start⟩ :: (behind c.next.after).lexemes, (behind c.next.after).ending⟩ := by
  rw [behind, readFrom_of_token h htoken]
  exact readFrom_append [] [⟨token, c.next.start⟩] c.next.after

/-- Behind the end of the input nothing but the end of the input is read. -/
theorem behind_after_end {c : Cursor} (h : c.next.result = .ok .endOfInput) :
    behind c.next.after = ⟨[], .ok c.next.start⟩ := by
  rw [(Cursor.next_of_end h).2]
  exact behind_of_end rfl

/-- Reading step by step: a property of the empty script at a fault or at the end of the input that
a first lexeme keeps holds of the script behind every cursor. -/
theorem behind_induction {motive : Cursor → Script → Prop}
    (fault : ∀ (c : Cursor) (fault : Fault), c.next.result = .error fault →
      motive c ⟨[], .error fault⟩)
    (ending : ∀ c : Cursor, c.next.result = .ok .endOfInput → motive c ⟨[], .ok c.next.start⟩)
    (token : ∀ (c : Cursor) (token : Token), c.next.result = .ok token → token.IsSpelled →
      motive c.next.after (behind c.next.after) → motive c
        ⟨⟨token, c.next.start⟩ :: (behind c.next.after).lexemes, (behind c.next.after).ending⟩)
    (c : Cursor) : motive c (behind c) := by
  induction hlength : c.rest.length using Nat.strongRecOn generalizing c with
  | ind length ih =>
      cases hresult : c.next.result with
      | error found =>
          rw [behind_of_fault hresult]
          exact fault c found hresult
      | ok found =>
          rcases Cursor.isSpelled_of_next hresult with rfl | hspelled
          · rw [behind_of_end hresult]
            exact ending c hresult
          · have hshorter := Cursor.next_shorter hresult hspelled.ne_endOfInput
            rw [behind_of_token hresult hspelled.ne_endOfInput]
            exact token c found hresult hspelled (ih _ (hlength ▸ hshorter) _ rfl)

theorem isSpelled_of_mem_behind (c : Cursor) :
    ∀ lexeme ∈ (behind c).lexemes, lexeme.token.IsSpelled := by
  induction c using behind_induction with
  | fault c fault h => simp
  | ending c h => simp
  | token c token h hspelled ih => exact List.forall_mem_cons.mpr ⟨hspelled, ih⟩

theorem isSpelled_of_mem_ofText {text : Bytes} {lexeme : Lexeme}
    (h : lexeme ∈ (ofText text).lexemes) : lexeme.token.IsSpelled :=
  isSpelled_of_mem_behind (.ofText text) lexeme h

end Script

/-- A text has tokens when reading it comes to its end. -/
theorem tokenize_eq_ok_iff {text : Bytes} {tokens : List Token} :
    tokenize text = .ok tokens ↔ (∃ stop, (Script.ofText text).ending = .ok stop) ∧
      (Script.ofText text).lexemes.map Lexeme.token = tokens := by
  rw [tokenize, Script.tokens]
  cases (Script.ofText text).ending with
  | error fault => simp [Except.map]
  | ok stop => simp [Except.map]

/-- A text without tokens has the fault that stops reading it. -/
theorem tokenize_eq_error_iff {text : Bytes} {fault : Fault} :
    tokenize text = .error fault ↔ (Script.ofText text).ending = .error fault := by
  rw [tokenize, Script.tokens]
  cases (Script.ofText text).ending with
  | error found => simp [Except.map]
  | ok stop => simp [Except.map]

end Calculator
