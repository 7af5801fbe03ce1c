import Calculator.Fault

/-!
Reading tokens off a text one by one. A cursor holds what is left of the text and how much came
before; `next` skips blanks and reads one token, or finds a fault. Whatever it finds it leaves a
cursor behind from which reading can go on, and every token but the end of the input makes what is
left shorter (`next_shorter`).
-/

namespace Calculator

/-- Blanks separate tokens: tab, line feed, vertical tab, form feed, carriage return, space. -/
def isBlank (byte : UInt8) : Bool := byte == 0x20 || (0x09 ≤ byte && byte ≤ 0x0D)

def isNumeral (byte : UInt8) : Bool := isDigit byte || byte == point

structure Cursor where
  rest : Bytes
  offset : Nat
deriving DecidableEq, Repr

/-- What is found at a cursor: where it starts, the token or fault, and where reading goes on. -/
structure Step where
  start : Nat
  result : Except Fault Token
  after : Cursor

namespace Cursor

def ofText (text : Bytes) : Cursor := ⟨text, 0⟩

def skip (c : Cursor) (n : Nat) : Cursor := ⟨c.rest.drop n, c.offset + n⟩

def skipBlanks (c : Cursor) : Cursor := c.skip (c.rest.takeWhile isBlank).length

/-- The fault of a character that belongs to no token. -/
def badCharacter (c : Cursor) : Fault :=
  .lexical (c.rest.take (Utf8.characterLength c.rest)) c.offset

def digitRun (c : Cursor) : Bytes := c.rest.takeWhile isDigit

def skipDigits (c : Cursor) : Cursor := c.skip c.digitRun.length

/-- Reads a numeral whose digits have a point behind them. A second point is a fault at that point,
where reading goes on; a point without any digit is a fault at the point. -/
def pointedNumeral (c : Cursor) : Step :=
  let fraction := c.skipDigits.skip 1
  let after := fraction.skipDigits
  let figures := c.digitRun ++ fraction.digitRun
  { start := c.offset
    result :=
      if after.rest.head? = some point then .error (.lexical [point] after.offset)
      else if figures = [] then .error (.lexical [point] c.offset)
      else .ok (.number (.ofDecimal ⟨ofDigits figures, -fraction.digitRun.length⟩))
    after }

/-- Reads a numeral: digits with at most one point among them. -/
def numeral (c : Cursor) : Step :=
  if c.skipDigits.rest.head? = some point then c.pointedNumeral
  else ⟨c.offset, .ok (.number (.ofNat (ofDigits c.digitRun))), c.skipDigits⟩

/-- Reads the token behind the blanks. A character that belongs to no token is not consumed. -/
def next (c : Cursor) : Step :=
  let here := c.skipBlanks
  match here.rest with
  | [] => ⟨here.offset, .ok .endOfInput, here⟩
  | byte :: _ =>
    match Mark.ofByte? byte with
    | some mark => ⟨here.offset, .ok (.mark mark byte), here.skip 1⟩
    | none =>
      if isNumeral byte then here.numeral
      else ⟨here.offset, .error here.badCharacter, here⟩

theorem length_skip (c : Cursor) (n : Nat) : (c.skip n).rest.length = c.rest.length - n := by
  simp [skip]

theorem length_numeral {c : Cursor} {byte : UInt8} {rest : Bytes} (hrest : c.rest = byte :: rest)
    (hbyte : isNumeral byte) : c.numeral.after.rest.length < c.rest.length := by
  have hlength : c.rest.length = rest.length + 1 := by rw [hrest, List.length_cons]
  by_cases hpoint : c.skipDigits.rest.head? = some point
  · rw [numeral, if_pos hpoint]
    have hsome : 0 < c.skipDigits.rest.length := by
      cases h : c.skipDigits.rest <;> simp_all
    simp only [pointedNumeral, skipDigits, length_skip] at hsome ⊢
    omega
  · rw [numeral, if_neg hpoint]
    have hdigit : isDigit byte := by
      by_cases h : isDigit byte
      · exact h
      · have hbyte : byte = point := by simpa [isNumeral, h] using hbyte
        subst hbyte
        have hrun : c.digitRun = [] := by
          rw [digitRun, hrest, List.takeWhile_cons_of_neg h]
        exact absurd (by simp [skipDigits, skip, hrun, hrest]) hpoint
    have hrun : 0 < c.digitRun.length := by simp [digitRun, hrest, hdigit]
    simp only [skipDigits, length_skip]
    omega

/-- Every token but the end of the input makes what is left shorter. -/
theorem next_shorter {c : Cursor} {token : Token} (h : c.next.result = .ok token)
    (htoken : token ≠ .endOfInput) : c.next.after.rest.length < c.rest.length := by
  have blanks : c.skipBlanks.rest.length ≤ c.rest.length := by simp [skipBlanks, length_skip]
  refine Nat.lt_of_lt_of_le ?_ blanks
  cases hrest : c.skipBlanks.rest with
  | nil =>
    simp only [next, hrest, Except.ok.injEq] at h
    exact absurd h.symm htoken
  | cons byte rest =>
    cases hmark : Mark.ofByte? byte with
    | some mark => simp [next, hrest, hmark, length_skip]
    | none =>
      by_cases hnumeral : isNumeral byte
      · simpa [next, hrest, hmark, hnumeral] using length_numeral hrest hnumeral
      · simp [next, hrest, hmark, hnumeral] at h

end Cursor

end Calculator
