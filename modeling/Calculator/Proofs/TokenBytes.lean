import Calculator.Proofs.LexicalReading

/-!
Tokens and the bytes they are written as. `Finds` leaves no choice, so a step can be computed from
any of its cases. A step that finds a token passes blanks and the bytes of the token, and wherever
these bytes stand in front of a seam, the same token is found in them.
-/

namespace Calculator

theorem not_isBlank_of_isNumeral {byte : UInt8} (h : isNumeral byte) : ¬isBlank byte :=
  fun hblank => not_isNumeral_of_isBlank hblank h

theorem not_isBlank_of_ofByte? {byte : UInt8} {m : Mark} (h : Mark.ofByte? byte = some m) :
    ¬isBlank byte := by
  intro hblank
  rw [ofByte?_eq_lookup, lookup_eq_none_of_isBlank hblank] at h
  cases h

theorem ofByte?_of_isNumeral {byte : UInt8} (h : isNumeral byte) : Mark.ofByte? byte = none := by
  cases hmark : Mark.ofByte? byte with
  | none => rfl
  | some m => exact absurd h (not_isNumeral_of_ofByte? hmark)

/-- No run crosses a place beside a mark. -/
theorem seam_of_mark_left {byte : UInt8} {m : Mark} (h : Mark.ofByte? byte = some m) (b : Bytes) :
    Seam [byte] b := by
  apply seam_of_left
  rintro _ ⟨⟩
  exact not_isNumeral_of_ofByte? h

theorem seam_of_mark_right {byte : UInt8} {m : Mark} (h : Mark.ofByte? byte = some m)
    (a rest : Bytes) : Seam a (byte :: rest) := by
  apply seam_of_right
  rintro _ ⟨⟩
  exact not_isNumeral_of_ofByte? h

namespace Cursor

variable {blanks run rest : Bytes} {byte : UInt8}

/-- Blanks in front of what is found do not matter. -/
theorem next_blanks (hblanks : ∀ byte ∈ blanks, isBlank byte) (rest : Bytes) (offset : Nat) :
    (⟨blanks ++ rest, offset⟩ : Cursor).next =
      (⟨rest, offset + blanks.length⟩ : Cursor).next := by
  obtain ⟨more, rest, rfl, hmore, hrest⟩ := exists_run isBlank rest
  rw [next, next, ← List.append_assoc,
    skipBlanks_run (List.forall_mem_append.mpr ⟨hblanks, hmore⟩) hrest,
    skipBlanks_run hmore hrest, List.length_append, Nat.add_assoc]

theorem skipBlanks_cons (h : ¬isBlank byte) (rest : Bytes) (offset : Nat) :
    (⟨byte :: rest, offset⟩ : Cursor).skipBlanks = ⟨byte :: rest, offset⟩ := by
  apply skipBlanks_run (List.forall_mem_nil _)
  rintro _ ⟨⟩
  exact h

theorem next_numeral {text : Bytes} (hhead : text.head? = some byte) (hnumeral : isNumeral byte)
    (offset : Nat) : (⟨text, offset⟩ : Cursor).next = numeral ⟨text, offset⟩ := by
  obtain ⟨rest, rfl⟩ := List.head?_eq_some_iff.mp hhead
  simp only [next, skipBlanks_cons (not_isBlank_of_isNumeral hnumeral),
    ofByte?_of_isNumeral hnumeral, if_pos hnumeral]

theorem digits_of_count (hrun : ∀ byte ∈ run, isNumeral byte) (hpoint : run.count point = 0) :
    ∀ byte ∈ run, isDigit byte := by
  intro byte hbyte
  rcases isNumeral_iff.mp (hrun byte hbyte) with h | rfl
  · exact h
  · exact absurd hbyte (List.count_eq_zero.mp hpoint)

/-- A run with one point has digits on either side of it. -/
theorem exists_fraction (hrun : ∀ byte ∈ run, isNumeral byte) (hpoint : run.count point = 1) :
    ∃ whole fraction, run = whole ++ point :: fraction ∧ (∀ byte ∈ whole, isDigit byte) ∧
      ∀ byte ∈ fraction, isDigit byte := by
  have hmem : point ∈ run := List.count_pos_iff.mp (by omega)
  obtain ⟨whole, fraction, rfl⟩ := List.append_of_mem hmem
  rw [List.count_append, List.count_cons_self] at hpoint
  rw [List.forall_mem_append, List.forall_mem_cons] at hrun
  exact ⟨whole, fraction, rfl, digits_of_count hrun.1 (by omega),
    digits_of_count hrun.2.2 (by omega)⟩

theorem numeral_run (hrun : ∀ byte ∈ run, isNumeral byte)
    (hrest : ∀ byte ∈ rest.head?, ¬isNumeral byte) (hdigit : ∃ byte ∈ run, isDigit byte)
    (hpoint : run.count point ≤ 1) (offset : Nat) :
    numeral ⟨run ++ rest, offset⟩ =
      ⟨offset, .ok (.number (.ofNumeral run)), ⟨rest, offset + run.length⟩⟩ := by
  rcases Nat.le_one_iff_eq_zero_or_eq_one.mp hpoint with hpoint | hpoint
  · exact numeral_whole (digits_of_count hrun hpoint) hrest offset
  · obtain ⟨whole, fraction, rfl, hwhole, hfraction⟩ := exists_fraction hrun hpoint
    have hsecond : rest.head? ≠ some point := fun hsecond => hrest point hsecond (by decide)
    have hsome : whole ++ fraction ≠ [] := by
      intro hnone
      obtain ⟨rfl, rfl⟩ := List.append_eq_nil_iff.mp hnone
      obtain ⟨byte, hbyte, hdigit⟩ := hdigit
      rw [List.nil_append, List.mem_singleton] at hbyte
      exact not_isDigit_point (hbyte ▸ hdigit)
    rw [List.append_assoc, List.cons_append, numeral_pointed hwhole,
      pointedNumeral_run hwhole hfraction fun byte hbyte hdigit =>
        hrest byte hbyte (isNumeral_of_isDigit hdigit),
      if_neg hsecond, if_neg hsome]

theorem numeral_secondPoint (hrun : ∀ byte ∈ run, isNumeral byte) (hpoint : run.count point = 1)
    (rest : Bytes) (offset : Nat) :
    numeral ⟨run ++ point :: rest, offset⟩ =
      ⟨offset, .error (.lexical [point] (offset + run.length)),
        ⟨point :: rest, offset + run.length⟩⟩ := by
  obtain ⟨whole, fraction, rfl, hwhole, hfraction⟩ := exists_fraction hrun hpoint
  have hrest : ∀ byte ∈ (point :: rest).head?, ¬isDigit byte := by
    rintro byte ⟨⟩
    exact not_isDigit_point
  rw [List.append_assoc, List.cons_append, numeral_pointed hwhole,
    pointedNumeral_run hwhole hfraction hrest, if_pos (List.head?_cons)]

theorem numeral_lonePoint (hrest : ∀ byte ∈ rest.head?, ¬isNumeral byte) (offset : Nat) :
    numeral ⟨point :: rest, offset⟩ =
      ⟨offset, .error (.lexical [point] offset), ⟨rest, offset + 1⟩⟩ := by
  have hsecond : rest.head? ≠ some point := fun hsecond => hrest point hsecond (by decide)
  have hpointed := pointedNumeral_run (List.forall_mem_nil _) (List.forall_mem_nil _)
    (fun byte hbyte hdigit => hrest byte hbyte (isNumeral_of_isDigit hdigit)) offset
  rw [if_neg hsecond, if_pos (List.append_nil [])] at hpointed
  exact (numeral_pointed (List.forall_mem_nil _) rest offset).trans hpointed

/-- What is found at a cursor is what the step there answers. -/
theorem Finds.next_eq {c : Cursor} {step : Step} (h : Finds c step) : c.next = step := by
  cases h with
  | @ending blanks offset hblanks =>
      rw [← List.append_nil blanks, next_blanks hblanks, List.append_nil]
      rfl
  | @mark blanks rest byte m offset hblanks hmark =>
      rw [next_blanks hblanks]
      simp only [next, skipBlanks_cons (not_isBlank_of_ofByte? hmark), hmark, skip, List.drop_one,
        List.tail_cons]
  | @numeral blanks run rest offset hblanks hrun hrest hdigit hpoint =>
      obtain ⟨byte, tail, rfl⟩ : ∃ byte tail, run = byte :: tail := by
        obtain ⟨byte, hbyte, -⟩ := hdigit
        exact List.exists_cons_of_ne_nil (List.ne_nil_of_mem hbyte)
      rw [next_blanks hblanks, next_numeral rfl (hrun byte List.mem_cons_self),
        numeral_run hrun hrest hdigit hpoint]
  | @secondPoint blanks run rest offset hblanks hrun hpoint =>
      obtain ⟨byte, tail, rfl⟩ : ∃ byte tail, run = byte :: tail := by
        apply List.exists_cons_of_ne_nil
        rintro rfl
        cases hpoint
      rw [next_blanks hblanks, next_numeral rfl (hrun byte List.mem_cons_self),
        numeral_secondPoint hrun hpoint]
  | @lonePoint blanks rest offset hblanks hrest =>
      rw [next_blanks hblanks, next_numeral rfl (by decide), numeral_lonePoint hrest]
  | @stranger blanks rest byte offset hblanks hblank hmark hnumeral =>
      rw [next_blanks hblanks]
      simp only [next, skipBlanks_cons hblank, hmark, if_neg hnumeral]
      rfl

end Cursor

/-! ### Tokens and the bytes they are written with -/

/-- A mark is written as its byte, a number as a run of digits with at most one point. -/
inductive Token.IsWrittenAs : Token → Bytes → Prop
  | mark {m : Mark} {byte : UInt8} (hmark : Mark.ofByte? byte = some m) :
      IsWrittenAs (.mark m byte) [byte]
  | number {run : Bytes} (hrun : ∀ byte ∈ run, isNumeral byte) (hnumeral : IsNumeralRun run) :
      IsWrittenAs (.number (.ofNumeral run)) run

section
variable {token : Token} {body rest : Bytes}

theorem Token.IsWrittenAs.isSpelled (h : token.IsWrittenAs body) : token.IsSpelled := by
  cases h with
  | mark hmark => exact hmark
  | number => trivial

theorem Token.IsWrittenAs.ne_nil (h : token.IsWrittenAs body) : body ≠ [] := by
  cases h with
  | mark => exact List.cons_ne_nil _ _
  | number hrun hnumeral =>
      obtain ⟨byte, hbyte, -⟩ := hnumeral.1
      exact List.ne_nil_of_mem hbyte

/-- A token is found at the start of its bytes, whatever stands behind a seam. -/
theorem Token.IsWrittenAs.next_eq (h : token.IsWrittenAs body) (hseam : Seam body rest)
    (offset : Nat) :
    (⟨body ++ rest, offset⟩ : Cursor).next =
      ⟨offset, .ok token, ⟨rest, offset + body.length⟩⟩ := by
  have hne := h.ne_nil
  have hblanks : ∀ byte ∈ ([] : Bytes), isBlank byte := List.forall_mem_nil _
  cases h with
  | mark hmark => exact (Cursor.Finds.mark hblanks hmark).next_eq
  | number hrun hnumeral =>
      have hrest : ∀ byte ∈ rest.head?, ¬isNumeral byte := by
        intro byte hbyte hbehind
        have hboth := hseam _ (List.getLast?_eq_getLast_of_ne_nil hne) byte hbyte
        rw [hrun _ (List.getLast_mem hne), hbehind] at hboth
        cases hboth
      exact (Cursor.Finds.numeral hblanks hrun hrest hnumeral.1 hnumeral.2).next_eq

end

/-- A step that finds a token passes blanks and the bytes that the token is written as. -/
theorem Cursor.exists_body {c : Cursor} {token : Token} (h : c.next.result = .ok token)
    (htoken : token ≠ .endOfInput) :
    ∃ blanks body rest, c.rest = blanks ++ (body ++ rest) ∧ (∀ byte ∈ blanks, isBlank byte) ∧
      token.IsWrittenAs body ∧ Seam body rest := by
  have hfinds := finds_next c
  generalize c.next = step at hfinds h
  cases hfinds with
  | ending => exact absurd (Except.ok.inj h).symm htoken
  | @mark blanks rest byte m offset hblanks hmark =>
      obtain rfl := Except.ok.inj h
      exact ⟨blanks, [byte], rest, rfl, hblanks, .mark hmark, seam_of_mark_left hmark rest⟩
  | @numeral blanks run rest offset hblanks hrun hrest hdigit hpoint =>
      obtain rfl := Except.ok.inj h
      exact ⟨blanks, run, rest, rfl, hblanks, .number hrun ⟨hdigit, hpoint⟩, seam_of_right hrest⟩
  | secondPoint | lonePoint | stranger => cases h

end Calculator
