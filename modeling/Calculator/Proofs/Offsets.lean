import Calculator.Proofs.TokenBytes

/-!
Offsets are all that tells apart what is read at different places: a text that starts some bytes
later has the same script, its lexemes and its end or fault moved by as many bytes.
-/

namespace Calculator

variable {f : Nat → Nat}

def Fault.move (f : Nat → Nat) : Fault → Fault
  | .lexical character offset => .lexical character (f offset)
  | .unexpected found offset => .unexpected found (f offset)
  | .mismatch expected found offset => .mismatch expected found (f offset)
  | .tooDeep offset => .tooDeep (f offset)
  | .divisionByZero => .divisionByZero
  | .unknownNode => .unknownNode
  | .other => .other

def Lexeme.move (f : Nat → Nat) (lexeme : Lexeme) : Lexeme := ⟨lexeme.token, f lexeme.offset⟩

def Script.move (f : Nat → Nat) (script : Script) : Script :=
  ⟨script.lexemes.map (Lexeme.move f), (script.ending.map f).mapError (Fault.move f)⟩

/-- A step at a text that starts `n` bytes later. -/
def Step.shift (n : Nat) (step : Step) : Step where
  start := step.start + n
  result := step.result.mapError (Fault.move (· + n))
  after := ⟨step.after.rest, step.after.offset + n⟩

theorem Cursor.Finds.shift {c : Cursor} {step : Step} (h : Finds c step) (n : Nat) :
    Finds ⟨c.rest, c.offset + n⟩ (step.shift n) := by
  have hcomm (o k : Nat) : o + k + n = o + n + k := Nat.add_right_comm o k n
  cases h with
  | ending hblanks =>
      simp only [Step.shift, hcomm, Except.mapError]
      exact .ending hblanks
  | mark hblanks hmark =>
      simp only [Step.shift, hcomm, Except.mapError]
      exact .mark hblanks hmark
  | numeral hblanks hrun hrest hdigit hpoint =>
      simp only [Step.shift, hcomm, Except.mapError]
      exact .numeral hblanks hrun hrest hdigit hpoint
  | secondPoint hblanks hrun hpoint =>
      simp only [Step.shift, hcomm, Except.mapError, Fault.move]
      exact .secondPoint hblanks hrun hpoint
  | lonePoint hblanks hrest =>
      simp only [Step.shift, hcomm, Except.mapError, Fault.move]
      exact .lonePoint hblanks hrest
  | stranger hblanks hblank hmark hnumeral =>
      simp only [Step.shift, hcomm, Except.mapError, Fault.move]
      exact .stranger hblanks hblank hmark hnumeral

theorem Cursor.next_shift (c : Cursor) (n : Nat) :
    (⟨c.rest, c.offset + n⟩ : Cursor).next = c.next.shift n :=
  (c.finds_next.shift n).next_eq

theorem Script.behind_shift (c : Cursor) (n : Nat) :
    behind ⟨c.rest, c.offset + n⟩ = (behind c).move (· + n) := by
  induction c using behind_induction with
  | fault c fault h =>
      apply behind_of_fault
      rw [Cursor.next_shift, Step.shift, h]
      rfl
  | ending c h =>
      have hnext := c.next_shift n
      rw [Step.shift, h] at hnext
      rw [behind_of_end (congrArg Step.result hnext), hnext]
      rfl
  | token c token h hspelled ih =>
      have hnext := c.next_shift n
      rw [Step.shift, h] at hnext
      rw [behind_of_token (congrArg Step.result hnext) hspelled.ne_endOfInput, hnext, ih]
      rfl

theorem Script.map_token_move (script : Script) :
    (script.move f).lexemes.map Lexeme.token = script.lexemes.map Lexeme.token := by
  rw [move, List.map_map]
  rfl

end Calculator
