import Calculator.Token.Cursor

/-!
What one step of reading finds. Behind the blanks a text ends, goes on with a mark or with a run of
digits and points, or goes on with a byte that starts no token; `Finds` has one case for each of
these, with what the step answers and where it leaves the cursor, and `finds_next` says that a step
always is one of them. A run with a second point is left at that point, a run that is a point alone
is passed, and a byte that starts no token is left where it is.
-/

namespace Calculator

/-- The number that a run of digits with at most one point stands for. -/
def Number.ofNumeral (run : Bytes) : Number :=
  if point ∈ run then
    .ofDecimal ⟨ofDigits (run.filter isDigit), -(run.dropWhile (· != point)).tail.length⟩
  else .ofNat (ofDigits run)

def Utf8.firstCharacter (text : Bytes) : Bytes := text.take (characterLength text)

theorem isNumeral_iff {byte : UInt8} : isNumeral byte ↔ isDigit byte ∨ byte = point := by
  simp [isNumeral]

theorem isNumeral_of_isDigit {byte : UInt8} (h : isDigit byte) : isNumeral byte :=
  isNumeral_iff.mpr (Or.inl h)

theorem not_isDigit_point : ¬isDigit point := by decide

namespace Cursor

/-- What a step finds at a cursor, and what it makes of it. -/
inductive Finds : Cursor → Step → Prop
  | ending {blanks : Bytes} {offset : Nat} (hblanks : ∀ byte ∈ blanks, isBlank byte) :
      Finds ⟨blanks, offset⟩
        ⟨offset + blanks.length, .ok .endOfInput, ⟨[], offset + blanks.length⟩⟩
  | mark {blanks rest : Bytes} {byte : UInt8} {mark : Mark} {offset : Nat}
      (hblanks : ∀ byte ∈ blanks, isBlank byte) (hmark : Mark.ofByte? byte = some mark) :
      Finds ⟨blanks ++ byte :: rest, offset⟩
        ⟨offset + blanks.length, .ok (.mark mark byte), ⟨rest, offset + blanks.length + 1⟩⟩
  | numeral {blanks run rest : Bytes} {offset : Nat} (hblanks : ∀ byte ∈ blanks, isBlank byte)
      (hrun : ∀ byte ∈ run, isNumeral byte) (hrest : ∀ byte ∈ rest.head?, ¬isNumeral byte)
      (hdigit : ∃ byte ∈ run, isDigit byte) (hpoint : run.count point ≤ 1) :
      Finds ⟨blanks ++ (run ++ rest), offset⟩
        ⟨offset + blanks.length, .ok (.number (.ofNumeral run)),
          ⟨rest, offset + blanks.length + run.length⟩⟩
  | secondPoint {blanks run rest : Bytes} {offset : Nat} (hblanks : ∀ byte ∈ blanks, isBlank byte)
      (hrun : ∀ byte ∈ run, isNumeral byte) (hpoint : run.count point = 1) :
      Finds ⟨blanks ++ (run ++ point :: rest), offset⟩
        ⟨offset + blanks.length, .error (.lexical [point] (offset + blanks.length + run.length)),
          ⟨point :: rest, offset + blanks.length + run.length⟩⟩
  | lonePoint {blanks rest : Bytes} {offset : Nat} (hblanks : ∀ byte ∈ blanks, isBlank byte)
      (hrest : ∀ byte ∈ rest.head?, ¬isNumeral byte) :
      Finds ⟨blanks ++ point :: rest, offset⟩
        ⟨offset + blanks.length, .error (.lexical [point] (offset + blanks.length)),
          ⟨rest, offset + blanks.length + 1⟩⟩
  | stranger {blanks rest : Bytes} {byte : UInt8} {offset : Nat}
      (hblanks : ∀ byte ∈ blanks, isBlank byte) (hblank : ¬isBlank byte)
      (hmark : Mark.ofByte? byte = none) (hnumeral : ¬isNumeral byte) :
      Finds ⟨blanks ++ byte :: rest, offset⟩
        ⟨offset + blanks.length,
          .error (.lexical (Utf8.firstCharacter (byte :: rest)) (offset + blanks.length)),
          ⟨byte :: rest, offset + blanks.length⟩⟩

variable {p : UInt8 → Bool} {run rest : Bytes}

theorem exists_run (p : UInt8 → Bool) (text : Bytes) :
    ∃ run rest, text = run ++ rest ∧ (∀ byte ∈ run, p byte) ∧ ∀ byte ∈ rest.head?, ¬p byte := by
  refine ⟨text.takeWhile p, text.dropWhile p, List.takeWhile_append_dropWhile.symm,
    List.all_eq_true.mp List.all_takeWhile, ?_⟩
  intro byte hbyte
  have hhead := List.head?_dropWhile_not p text
  rw [hbyte] at hhead
  simpa using hhead

theorem takeWhile_run (hrun : ∀ byte ∈ run, p byte) (hrest : ∀ byte ∈ rest.head?, ¬p byte) :
    (run ++ rest).takeWhile p = run := by
  rw [List.takeWhile_append_of_pos hrun]
  cases rest with
  | nil => simp
  | cons byte rest => simp [hrest byte rfl]

theorem skip_run (run rest : Bytes) (offset : Nat) :
    (⟨run ++ rest, offset⟩ : Cursor).skip run.length = ⟨rest, offset + run.length⟩ := by
  rw [skip, List.drop_left]

theorem digitRun_run {offset : Nat} (hrun : ∀ byte ∈ run, isDigit byte)
    (hrest : ∀ byte ∈ rest.head?, ¬isDigit byte) :
    (⟨run ++ rest, offset⟩ : Cursor).digitRun = run :=
  takeWhile_run hrun hrest

theorem skipDigits_run {offset : Nat} (hrun : ∀ byte ∈ run, isDigit byte)
    (hrest : ∀ byte ∈ rest.head?, ¬isDigit byte) :
    (⟨run ++ rest, offset⟩ : Cursor).skipDigits = ⟨rest, offset + run.length⟩ := by
  rw [skipDigits, digitRun_run hrun hrest, skip_run]

theorem skipBlanks_run {offset : Nat} (hrun : ∀ byte ∈ run, isBlank byte)
    (hrest : ∀ byte ∈ rest.head?, ¬isBlank byte) :
    (⟨run ++ rest, offset⟩ : Cursor).skipBlanks = ⟨rest, offset + run.length⟩ := by
  rw [skipBlanks, takeWhile_run hrun hrest, skip_run]

section
variable {whole fraction : Bytes}

theorem not_mem_point_of_digits (h : ∀ byte ∈ run, isDigit byte) : point ∉ run :=
  fun hpoint => not_isDigit_point (h point hpoint)

theorem isNumeral_of_mem_pointed (hwhole : ∀ byte ∈ whole, isDigit byte)
    (hfraction : ∀ byte ∈ fraction, isDigit byte) :
    ∀ byte ∈ whole ++ point :: fraction, isNumeral byte := by
  intro byte hbyte
  rw [List.mem_append, List.mem_cons] at hbyte
  rw [isNumeral_iff]
  rcases hbyte with hbyte | rfl | hbyte
  · exact Or.inl (hwhole byte hbyte)
  · exact Or.inr rfl
  · exact Or.inl (hfraction byte hbyte)

theorem count_point_pointed (hwhole : ∀ byte ∈ whole, isDigit byte)
    (hfraction : ∀ byte ∈ fraction, isDigit byte) :
    (whole ++ point :: fraction).count point = 1 := by
  rw [List.count_append, List.count_cons_self,
    List.count_eq_zero.mpr (not_mem_point_of_digits hwhole),
    List.count_eq_zero.mpr (not_mem_point_of_digits hfraction)]

theorem exists_digit_pointed (hwhole : ∀ byte ∈ whole, isDigit byte)
    (hfraction : ∀ byte ∈ fraction, isDigit byte) (hsome : whole ++ fraction ≠ []) :
    ∃ byte ∈ whole ++ point :: fraction, isDigit byte := by
  obtain ⟨digit, hdigit⟩ := List.exists_mem_of_ne_nil _ hsome
  refine ⟨digit, ?_, List.forall_mem_append.mpr ⟨hwhole, hfraction⟩ digit hdigit⟩
  rw [List.mem_append, List.mem_cons]
  exact (List.mem_append.mp hdigit).imp_right Or.inr

theorem ofNumeral_pointed (hwhole : ∀ byte ∈ whole, isDigit byte)
    (hfraction : ∀ byte ∈ fraction, isDigit byte) :
    Number.ofNumeral (whole ++ point :: fraction) =
      .ofDecimal ⟨ofDigits (whole ++ fraction), -fraction.length⟩ := by
  have hdrop : (whole ++ point :: fraction).dropWhile (· != point) = point :: fraction := by
    rw [List.dropWhile_append_of_pos]
    · simp
    · intro byte hbyte
      rw [bne_iff_ne]
      rintro rfl
      exact not_mem_point_of_digits hwhole hbyte
  have hfilter : (whole ++ point :: fraction).filter isDigit = whole ++ fraction := by
    rw [List.filter_append, List.filter_cons_of_neg not_isDigit_point,
      List.filter_eq_self.mpr hwhole, List.filter_eq_self.mpr hfraction]
  rw [Number.ofNumeral, if_pos (by simp), hdrop, hfilter, List.tail_cons]

end

theorem not_isNumeral_head {rest : Bytes} (hdigit : ∀ byte ∈ rest.head?, ¬isDigit byte)
    (hpoint : rest.head? ≠ some point) : ∀ byte ∈ rest.head?, ¬isNumeral byte := by
  intro byte hbyte hnumeral
  rcases isNumeral_iff.mp hnumeral with h | rfl
  · exact hdigit byte hbyte h
  · exact hpoint hbyte

/-- Behind the whole part and the point come the digits of the fraction. Only what follows them
tells a second point, and only digits on either side tell a point that stands alone. -/
theorem pointedNumeral_run {whole fraction rest : Bytes} (hwhole : ∀ byte ∈ whole, isDigit byte)
    (hfraction : ∀ byte ∈ fraction, isDigit byte) (hrest : ∀ byte ∈ rest.head?, ¬isDigit byte)
    (offset : Nat) :
    pointedNumeral ⟨whole ++ point :: (fraction ++ rest), offset⟩ =
      { start := offset
        result :=
          if rest.head? = some point then
            .error (.lexical [point] (offset + (whole ++ point :: fraction).length))
          else if whole ++ fraction = [] then .error (.lexical [point] offset)
          else .ok (.number (.ofNumeral (whole ++ point :: fraction)))
        after := ⟨rest, offset + (whole ++ point :: fraction).length⟩ } := by
  have hpoint : ∀ byte ∈ (point :: (fraction ++ rest)).head?, ¬isDigit byte := by
    rintro byte ⟨⟩
    exact not_isDigit_point
  have hend : offset + (whole ++ point :: fraction).length =
      offset + whole.length + 1 + fraction.length := by
    rw [List.length_append, List.length_cons]
    omega
  simp only [pointedNumeral, digitRun_run hwhole hpoint, skipDigits_run hwhole hpoint, skip,
    List.drop_one, List.tail_cons, digitRun_run hfraction hrest, skipDigits_run hfraction hrest,
    ofNumeral_pointed hwhole hfraction, hend]

theorem numeral_pointed {whole : Bytes} (hwhole : ∀ byte ∈ whole, isDigit byte) (rest : Bytes)
    (offset : Nat) :
    numeral ⟨whole ++ point :: rest, offset⟩ = pointedNumeral ⟨whole ++ point :: rest, offset⟩ := by
  have hpoint : ∀ byte ∈ (point :: rest).head?, ¬isDigit byte := by
    rintro byte ⟨⟩
    exact not_isDigit_point
  rw [numeral, skipDigits_run hwhole hpoint]
  exact if_pos rfl

theorem numeral_whole {whole rest : Bytes} (hwhole : ∀ byte ∈ whole, isDigit byte)
    (hrest : ∀ byte ∈ rest.head?, ¬isNumeral byte) (offset : Nat) :
    numeral ⟨whole ++ rest, offset⟩ =
      ⟨offset, .ok (.number (.ofNumeral whole)), ⟨rest, offset + whole.length⟩⟩ := by
  have hdigit : ∀ byte ∈ rest.head?, ¬isDigit byte := fun byte hbyte hdigit =>
    hrest byte hbyte (isNumeral_of_isDigit hdigit)
  have hpoint : rest.head? ≠ some point := fun hpoint => hrest point hpoint (by decide)
  rw [numeral, skipDigits_run hwhole hdigit, digitRun_run hwhole hdigit, if_neg hpoint,
    Number.ofNumeral, if_neg (not_mem_point_of_digits hwhole)]

theorem finds_pointedNumeral {blanks whole fraction rest : Bytes} (offset : Nat)
    (hblanks : ∀ byte ∈ blanks, isBlank byte) (hwhole : ∀ byte ∈ whole, isDigit byte)
    (hfraction : ∀ byte ∈ fraction, isDigit byte) (hrest : ∀ byte ∈ rest.head?, ¬isDigit byte) :
    Finds ⟨blanks ++ (whole ++ point :: (fraction ++ rest)), offset⟩
      (pointedNumeral ⟨whole ++ point :: (fraction ++ rest), offset + blanks.length⟩) := by
  have hrun := isNumeral_of_mem_pointed hwhole hfraction
  have hcount := count_point_pointed hwhole hfraction
  have htext : whole ++ point :: (fraction ++ rest) = whole ++ point :: fraction ++ rest := by simp
  rw [pointedNumeral_run hwhole hfraction hrest, htext]
  by_cases hsecond : rest.head? = some point
  · obtain ⟨behind, rfl⟩ : ∃ behind, rest = point :: behind := List.head?_eq_some_iff.mp hsecond
    rw [if_pos hsecond]
    exact .secondPoint hblanks hrun hcount
  · rw [if_neg hsecond]
    by_cases hnone : whole ++ fraction = []
    · obtain ⟨rfl, rfl⟩ := List.append_eq_nil_iff.mp hnone
      exact .lonePoint hblanks (not_isNumeral_head hrest hsecond)
    · rw [if_neg hnone]
      exact .numeral hblanks hrun (not_isNumeral_head hrest hsecond)
        (exists_digit_pointed hwhole hfraction hnone) (Nat.le_of_eq hcount)

theorem finds_numeral {blanks text : Bytes} {byte : UInt8} (offset : Nat)
    (hblanks : ∀ byte ∈ blanks, isBlank byte) (hhead : text.head? = some byte)
    (hnumeral : isNumeral byte) :
    Finds ⟨blanks ++ text, offset⟩ (numeral ⟨text, offset + blanks.length⟩) := by
  obtain ⟨whole, rest, rfl, hwhole, hrest⟩ := exists_run isDigit text
  by_cases hpoint : rest.head? = some point
  · obtain ⟨behind, rfl⟩ : ∃ behind, rest = point :: behind := List.head?_eq_some_iff.mp hpoint
    obtain ⟨fraction, rest, rfl, hfraction, hrest'⟩ := exists_run isDigit behind
    rw [numeral_pointed hwhole]
    exact finds_pointedNumeral offset hblanks hwhole hfraction hrest'
  · have hsome : whole ≠ [] := by
      rintro rfl
      exact not_isNumeral_head hrest hpoint byte hhead hnumeral
    obtain ⟨digit, hdigit⟩ := List.exists_mem_of_ne_nil _ hsome
    have hcount : whole.count point = 0 := List.count_eq_zero.mpr (not_mem_point_of_digits hwhole)
    rw [numeral_whole hwhole (not_isNumeral_head hrest hpoint)]
    exact .numeral hblanks (fun byte hbyte => isNumeral_of_isDigit (hwhole byte hbyte))
      (not_isNumeral_head hrest hpoint) ⟨digit, hdigit, hwhole digit hdigit⟩ (by omega)

/-- A step is one of the cases of `Finds`. -/
theorem finds_next (c : Cursor) : Finds c c.next := by
  obtain ⟨text, offset⟩ := c
  obtain ⟨blanks, rest, rfl, hblanks, hrest⟩ := exists_run isBlank text
  rw [next, skipBlanks_run hblanks hrest]
  cases rest with
  | nil =>
      rw [List.append_nil]
      exact .ending hblanks
  | cons byte rest =>
      cases hmark : Mark.ofByte? byte with
      | some mark =>
          simp only [hmark, skip, List.drop_one, List.tail_cons]
          exact .mark hblanks hmark
      | none =>
          by_cases hnumeral : isNumeral byte
          · simp only [hmark, if_pos hnumeral]
            exact finds_numeral offset hblanks rfl hnumeral
          · simp only [hmark, if_neg hnumeral]
            exact .stranger hblanks (hrest byte rfl) hmark hnumeral

end Cursor

end Calculator
