import Calculator.Proofs.LexicalLanguage

/-!
Reading against the lexical language. A step that finds a token passes a part of the text that
spells just this token and ends in a seam, so what is read from a cursor on spells the rest of the
text, or comes to its first fault. `tokenize_reads_lexicalLanguage` is this for whole texts.
-/

namespace Calculator

/-- A text without faults that spells some tokens. -/
structure Spells (text : Bytes) (tokens : List Token) : Prop where
  lexical : IsLexical text
  faultless : faults text = ∅
  tokens_eq : tokensOf text = tokens

/-- A text that is not made of tokens, with its first fault. -/
structure FirstFault (text : Bytes) (i : Nat) : Prop where
  not_lexical : ¬IsLexical text
  least : IsLeast (faults text) i

section
variable {a b run : Bytes} {s t : List Token} {i : Nat} {byte : UInt8}

theorem Spells.append (hseam : Seam a b) (ha : Spells a s) (hb : Spells b t) :
    Spells (a ++ b) (s ++ t) where
  lexical := (isLexical_append hseam).mpr ⟨ha.lexical, hb.lexical⟩
  faultless := faults_append_eq_empty hseam ha.faultless hb.faultless
  tokens_eq := by rw [tokensOf_append hseam, ha.tokens_eq, hb.tokens_eq]

theorem FirstFault.append (hseam : Seam a b) (ha : faults a = ∅) (hb : FirstFault b i) :
    FirstFault (a ++ b) (a.length + i) where
  not_lexical := fun hab => hb.not_lexical ((isLexical_append hseam).mp hab).2
  least := isLeast_faults_append hseam ha hb.least

theorem mem_of_mem_pieces {piece : Bytes} (hpiece : piece ∈ pieces a) (hbyte : byte ∈ piece) :
    byte ∈ a := by
  rw [← List.flatten_splitBy (fun x y => isNumeral x && isNumeral y) a]
  exact List.mem_flatten.mpr ⟨piece, hpiece, hbyte⟩

theorem numeralRuns_eq_nil (h : ∀ byte ∈ a, ¬isNumeral byte) : numeralRuns a = [] := by
  rw [numeralRuns, List.filter_eq_nil_iff]
  intro piece hpiece hany
  obtain ⟨byte, hbyte, hnumeral⟩ := List.any_eq_true.mp hany
  exact h byte (mem_of_mem_pieces hpiece hbyte) hnumeral

theorem faults_eq_empty (halphabet : ∀ byte ∈ a, InAlphabet byte)
    (hnumeral : ∀ byte ∈ a, ¬isNumeral byte) : faults a = ∅ := by
  rw [Set.eq_empty_iff_forall_notMem]
  rintro i ⟨before, byte, behind, rfl, -, hfault | ⟨rfl, -⟩⟩
  · exact hfault (halphabet byte (by simp))
  · exact hnumeral point (by simp) (isNumeral_iff.mpr (Or.inr rfl))

theorem isLexical_of_not_isNumeral (halphabet : ∀ byte ∈ a, InAlphabet byte)
    (hnumeral : ∀ byte ∈ a, ¬isNumeral byte) : IsLexical a where
  alphabet := halphabet
  runs := by
    rw [numeralRuns_eq_nil hnumeral]
    exact List.forall_mem_nil _

theorem spells_blanks (h : ∀ byte ∈ a, isBlank byte) : Spells a [] := by
  have halphabet : ∀ byte ∈ a, InAlphabet byte := fun byte hbyte =>
    inAlphabet_of_isBlank (h byte hbyte)
  have hnumeral : ∀ byte ∈ a, ¬isNumeral byte := fun byte hbyte =>
    not_isNumeral_of_isBlank (h byte hbyte)
  refine ⟨isLexical_of_not_isNumeral halphabet hnumeral, faults_eq_empty halphabet hnumeral, ?_⟩
  rw [tokensOf, List.filterMap_eq_nil_iff]
  intro piece hpiece
  cases piece with
  | nil => rfl
  | cons byte piece =>
      have hmem := mem_of_mem_pieces hpiece List.mem_cons_self
      rw [Token.ofPiece?, if_neg (hnumeral byte hmem), lookup_eq_none_of_isBlank (h byte hmem),
        Option.map_none]

theorem spells_mark {m : Mark} (h : Mark.ofByte? byte = some m) :
    Spells [byte] [.mark m byte] := by
  have halphabet : ∀ x ∈ [byte], InAlphabet x :=
    List.forall_mem_singleton.mpr (inAlphabet_of_ofByte? h)
  have hnumeral : ∀ x ∈ [byte], ¬isNumeral x :=
    List.forall_mem_singleton.mpr (not_isNumeral_of_ofByte? h)
  have hpiece : Token.ofPiece? [byte] = some (.mark m byte) := by
    rw [Token.ofPiece?, if_neg (not_isNumeral_of_ofByte? h), ← ofByte?_eq_lookup, h,
      Option.map_some]
  refine ⟨isLexical_of_not_isNumeral halphabet hnumeral, faults_eq_empty halphabet hnumeral, ?_⟩
  rw [tokensOf, show pieces [byte] = [[byte]] from rfl, List.filterMap_cons_some hpiece,
    List.filterMap_nil]

theorem pieces_run (hrun : ∀ byte ∈ run, isNumeral byte) (hne : run ≠ []) :
    pieces run = [run] := by
  apply List.splitBy_of_isChain hne
  apply List.Pairwise.isChain
  apply List.pairwise_of_forall_mem_list
  intro x hx y hy
  rw [hrun x hx, hrun y hy, Bool.and_self]

theorem numeralRuns_run (hrun : ∀ byte ∈ run, isNumeral byte) (hne : run ≠ []) :
    numeralRuns run = [run] := by
  obtain ⟨byte, hbyte⟩ := List.exists_mem_of_ne_nil run hne
  rw [numeralRuns, pieces_run hrun hne, List.filter_cons_of_pos, List.filter_nil]
  exact List.any_eq_true.mpr ⟨byte, hbyte, hrun byte hbyte⟩

theorem tokensOf_run (hrun : ∀ byte ∈ run, isNumeral byte) (hne : run ≠ []) :
    tokensOf run = [.number (.ofNumeral run)] := by
  have hpiece : Token.ofPiece? run = some (.number (.ofNumeral run)) := by
    cases run with
    | nil => exact absurd rfl hne
    | cons byte run => exact if_pos (hrun byte List.mem_cons_self)
  rw [tokensOf, pieces_run hrun hne, List.filterMap_cons_some hpiece, List.filterMap_nil]

/-- In a run with a digit and at most one point there is no point in front of the point, and the
point is not alone. -/
theorem faults_run (hrun : ∀ byte ∈ run, isNumeral byte) (hnumeral : IsNumeralRun run) :
    faults run = ∅ := by
  obtain ⟨hdigit, hpoint⟩ := hnumeral
  rw [Set.eq_empty_iff_forall_notMem]
  rintro i ⟨before, byte, behind, rfl, -, hfault | ⟨rfl, hsecond | ⟨hbefore, hbehind⟩⟩⟩
  · exact hfault (inAlphabet_of_isNumeral (hrun byte (by simp)))
  · rw [List.count_append, List.count_cons_self] at hpoint
    have hle := (List.rtakeWhile_suffix isNumeral (l := before)).sublist.count_le point
    omega
  · rw [List.forall_mem_append, List.forall_mem_cons] at hrun
    rw [List.rtakeWhile_eq_self_iff.mpr hrun.1] at hbefore
    rw [List.takeWhile_eq_self_iff.mpr hrun.2.2] at hbehind
    subst hbefore hbehind
    obtain ⟨byte, hbyte, hdigit⟩ := hdigit
    rw [List.nil_append, List.mem_singleton] at hbyte
    subst hbyte
    exact not_isDigit_point hdigit

theorem spells_run (hrun : ∀ byte ∈ run, isNumeral byte) (hnumeral : IsNumeralRun run) :
    Spells run [.number (.ofNumeral run)] := by
  have hne : run ≠ [] := by
    obtain ⟨byte, hbyte, -⟩ := hnumeral.1
    exact List.ne_nil_of_mem hbyte
  refine ⟨⟨fun byte hbyte => inAlphabet_of_isNumeral (hrun byte hbyte), ?_⟩,
    faults_run hrun hnumeral, tokensOf_run hrun hne⟩
  rw [numeralRuns_run hrun hne]
  exact List.forall_mem_singleton.mpr hnumeral

theorem firstFault_of_head {rest : Bytes} (hlexical : ¬IsLexical (byte :: rest))
    (hfault : FaultBetween [] byte rest) : FirstFault (byte :: rest) 0 where
  not_lexical := hlexical
  least := ⟨⟨[], byte, rest, rfl, rfl, hfault⟩, fun _ _ => Nat.zero_le _⟩

theorem firstFault_stranger {rest : Bytes} (h : ¬InAlphabet byte) :
    FirstFault (byte :: rest) 0 :=
  firstFault_of_head (fun hlexical => h (hlexical.alphabet byte List.mem_cons_self)) (Or.inl h)

theorem firstFault_lonePoint {rest : Bytes} (hrest : ∀ byte ∈ rest.head?, ¬isNumeral byte) :
    FirstFault (point :: rest) 0 := by
  have hnumeral : ∀ byte ∈ [point], isNumeral byte := List.forall_mem_singleton.mpr (by decide)
  apply firstFault_of_head
  · intro hlexical
    have hruns := ((isLexical_append (a := [point]) (seam_of_right hrest)).mp hlexical).1.runs
    rw [numeralRuns_run hnumeral (List.cons_ne_nil _ _), List.forall_mem_singleton] at hruns
    obtain ⟨byte, hbyte, hdigit⟩ := hruns.1
    rw [List.mem_singleton] at hbyte
    subst hbyte
    exact not_isDigit_point hdigit
  · exact Or.inr ⟨rfl, Or.inr ⟨rfl, takeWhile_eq_nil hrest⟩⟩

/-- A run that goes on with a second point is the start of a run that is no numeral. -/
theorem not_isLexical_secondPoint {rest : Bytes} (hrun : ∀ byte ∈ run, isNumeral byte)
    (hpoint : run.count point = 1) : ¬IsLexical (run ++ point :: rest) := by
  obtain ⟨tail, rest, rfl, htail, hrest⟩ := Cursor.exists_run isNumeral rest
  have hall : ∀ byte ∈ run ++ point :: tail, isNumeral byte :=
    List.forall_mem_append.mpr ⟨hrun, List.forall_mem_cons.mpr ⟨by decide, htail⟩⟩
  have hne : run ++ point :: tail ≠ [] := by simp
  have htext : run ++ point :: (tail ++ rest) = run ++ point :: tail ++ rest := by simp
  intro hlexical
  rw [htext, isLexical_append (seam_of_right hrest)] at hlexical
  have hruns := hlexical.1.runs
  rw [numeralRuns_run hall hne, List.forall_mem_singleton] at hruns
  have hcount := hruns.2
  rw [List.count_append, List.count_cons_self] at hcount
  omega

/-- Up to the second point of a run there is no fault: the point in front of it is the first one,
and it is not alone. -/
theorem firstFault_secondPoint {rest : Bytes} (hrun : ∀ byte ∈ run, isNumeral byte)
    (hpoint : run.count point = 1) : FirstFault (run ++ point :: rest) run.length := by
  refine ⟨not_isLexical_secondPoint hrun hpoint, ⟨run, point, rest, rfl, rfl, ?_⟩, ?_⟩
  · rw [FaultBetween, List.rtakeWhile_eq_self_iff.mpr hrun]
    exact Or.inr ⟨rfl, Or.inl hpoint⟩
  · rintro i ⟨before, byte, behind, htext, rfl, hfault⟩
    by_contra hlt
    obtain ⟨tail, rfl, rfl⟩ := exists_behind_of_length_lt htext (Nat.lt_of_not_le hlt)
    rw [List.forall_mem_append, List.forall_mem_cons] at hrun
    rcases hfault with hfault | ⟨rfl, hsecond | ⟨-, halone⟩⟩
    · exact hfault (inAlphabet_of_isNumeral hrun.2.1)
    · rw [List.count_append, List.count_cons_self] at hpoint
      have hle := (List.rtakeWhile_suffix isNumeral (l := before)).sublist.count_le point
      omega
    · rw [List.takeWhile_append_of_pos hrun.2.2] at halone
      simp [isNumeral] at halone

end

/-! ### Steps and scripts -/

/-- A step that finds a token passes a part of the text that spells it, up to a seam. -/
theorem Cursor.exists_part {c : Cursor} {token : Token} (h : c.next.result = .ok token)
    (htoken : token ≠ .endOfInput) :
    ∃ part rest, c.rest = part ++ rest ∧ c.next.after = ⟨rest, c.offset + part.length⟩ ∧
      Seam part rest ∧ Spells part [token] := by
  have hfinds := finds_next c
  generalize c.next = step at hfinds h
  cases hfinds with
  | ending => exact absurd (Except.ok.inj h).symm htoken
  | @mark blanks rest byte m offset hblanks hmark =>
      obtain rfl := Except.ok.inj h
      have hpart := (spells_blanks hblanks).append (seam_of_blanks hblanks) (spells_mark hmark)
      refine ⟨blanks ++ [byte], rest, by simp, ?_, ?_, hpart⟩
      · rw [List.length_append, List.length_singleton, Nat.add_assoc]
      · apply seam_of_left
        intro x hx
        rw [List.getLast?_concat, Option.mem_some_iff] at hx
        exact hx ▸ not_isNumeral_of_ofByte? hmark
  | @numeral blanks run rest offset hblanks hrun hrest hdigit hpoint =>
      obtain rfl := Except.ok.inj h
      have hpart := (spells_blanks hblanks).append (seam_of_blanks hblanks)
        (spells_run hrun ⟨hdigit, hpoint⟩)
      refine ⟨blanks ++ run, rest, by simp, ?_, seam_of_right hrest, hpart⟩
      rw [List.length_append, Nat.add_assoc]
  | secondPoint | lonePoint | stranger => cases h

/-- The fault of a character, at the first place of a text that is at fault. -/
theorem Cursor.firstFault_of_fault {c : Cursor} {fault : Fault} (h : c.next.result = .error fault) :
    ∃ i, FirstFault c.rest i ∧
      fault = .lexical (Utf8.firstCharacter (c.rest.drop i)) (c.offset + i) := by
  have hpoint (rest : Bytes) : Utf8.firstCharacter (point :: rest) = [point] := by
    simp [Utf8.firstCharacter, Utf8.characterLength, Utf8.sequenceLength, Utf8.announced, point]
  have hfinds := finds_next c
  generalize c.next = step at hfinds h
  cases hfinds with
  | ending | mark | numeral => cases h
  | @secondPoint blanks run rest offset hblanks hrun hcount =>
      obtain rfl := Except.error.inj h
      refine ⟨blanks.length + run.length, (firstFault_secondPoint hrun hcount).append
        (seam_of_blanks hblanks) (spells_blanks hblanks).faultless, ?_⟩
      rw [← List.append_assoc, ← List.length_append, List.drop_left, hpoint, List.length_append,
        Nat.add_assoc]
  | @lonePoint blanks rest offset hblanks hrest =>
      obtain rfl := Except.error.inj h
      refine ⟨blanks.length, (firstFault_lonePoint hrest).append (seam_of_blanks hblanks)
        (spells_blanks hblanks).faultless, ?_⟩
      rw [List.drop_left, hpoint]
  | @stranger blanks rest byte offset hblanks hblank hmark hnumeral =>
      obtain rfl := Except.error.inj h
      refine ⟨blanks.length, (firstFault_stranger (not_inAlphabet hblank hmark hnumeral)).append
        (seam_of_blanks hblanks) (spells_blanks hblanks).faultless, ?_⟩
      rw [List.drop_left]

/-- What the script behind a cursor says about the rest of the text. -/
def Script.Reads (c : Cursor) (script : Script) : Prop :=
  (∀ stop, script.ending = .ok stop → Spells c.rest (script.lexemes.map Lexeme.token)) ∧
    ∀ fault, script.ending = .error fault → ∃ i, FirstFault c.rest i ∧
      fault = .lexical (Utf8.firstCharacter (c.rest.drop i)) (c.offset + i)

theorem Script.reads_behind (c : Cursor) : Reads c (behind c) := by
  induction c using behind_induction with
  | fault c fault h =>
      refine ⟨?_, ?_⟩
      · rintro stop ⟨⟩
      · rintro _ ⟨⟩
        exact c.firstFault_of_fault h
  | ending c h =>
      refine ⟨?_, ?_⟩
      · rintro _ ⟨⟩
        exact spells_blanks (Cursor.next_of_end h).1
      · rintro fault ⟨⟩
  | token c token h hspelled ih =>
      obtain ⟨part, rest, htext, hafter, hseam, hpart⟩ := c.exists_part h hspelled.ne_endOfInput
      rw [hafter] at ih ⊢
      rw [Reads, htext]
      refine ⟨?_, ?_⟩
      · intro stop hending
        exact hpart.append hseam (ih.1 stop hending)
      · intro fault hending
        obtain ⟨i, hfirst, rfl⟩ := ih.2 fault hending
        refine ⟨part.length + i, hfirst.append hseam hpart.faultless, ?_⟩
        rw [List.drop_length_add_append, Nat.add_assoc]

theorem Token.category_ne_of_ofPiece? {piece : Bytes} {token : Token}
    (h : ofPiece? piece = some token) : token.category ≠ .mark .endOfInput := by
  cases piece with
  | nil => cases h
  | cons byte rest =>
      rw [ofPiece?] at h
      split at h
      · cases h
        simp [category]
      · obtain ⟨m, hm, rfl⟩ := Option.map_eq_some_iff.mp h
        rw [← ofByte?_eq_lookup] at hm
        exact IsSpelled.category_ne hm

theorem FirstFault.exists_character {text : Bytes} {i : Nat} (h : FirstFault text i) :
    Utf8.firstCharacter (text.drop i) ≠ [] ∧
      Utf8.firstCharacter (text.drop i) <+: text.drop i := by
  refine ⟨?_, List.take_prefix _ _⟩
  obtain ⟨before, byte, behind, rfl, rfl, -⟩ := h.least.1
  rw [List.drop_left, Utf8.firstCharacter, Utf8.characterLength]
  simp

theorem tokenize_of_ok {text : Bytes} {stop : Nat} (h : (Script.ofText text).ending = .ok stop) :
    tokenize text = .ok (tokensOf text) := by
  have hspells := (Script.reads_behind (.ofText text)).1 stop h
  exact tokenize_eq_ok_iff.mpr ⟨⟨stop, h⟩, hspells.tokens_eq.symm⟩

/-- `tokenize` reads exactly the lexical language, into the tokens of its pieces, and otherwise
answers the first fault with the character that stands there. -/
theorem tokenize_reads_lexicalLanguage (text : Bytes) :
    (∀ tokens, tokenize text = .ok tokens ↔ IsLexical text ∧ tokens = tokensOf text) ∧
      (∀ token ∈ tokensOf text, token.category ≠ .mark .endOfInput) ∧
      (¬IsLexical text → ∃ offset, IsLeast (faults text) offset ∧
        ∃ character, tokenize text = .error (.lexical character offset) ∧
          character ≠ [] ∧ character <+: text.drop offset) := by
  obtain ⟨hok, herror⟩ := Script.reads_behind (.ofText text)
  refine ⟨?_, ?_, ?_⟩
  · intro tokens
    cases hending : (Script.ofText text).ending with
    | ok stop =>
        rw [tokenize_of_ok hending, Except.ok.injEq, eq_comm]
        exact (and_iff_right (hok stop hending).lexical).symm
    | error fault =>
        obtain ⟨i, hfirst, -⟩ := herror fault hending
        have hnot : tokenize text ≠ .ok tokens := by
          intro htokens
          obtain ⟨⟨stop, hstop⟩, -⟩ := tokenize_eq_ok_iff.mp htokens
          rw [hending] at hstop
          cases hstop
        exact iff_of_false hnot fun h => hfirst.not_lexical h.1
  · intro token htoken
    obtain ⟨piece, -, hpiece⟩ := List.mem_filterMap.mp htoken
    exact Token.category_ne_of_ofPiece? hpiece
  · intro hnot
    cases hending : (Script.ofText text).ending with
    | ok stop => exact absurd (hok stop hending).lexical hnot
    | error fault =>
        obtain ⟨i, hfirst, rfl⟩ := herror fault hending
        refine ⟨i, hfirst.least, _, ?_, hfirst.exists_character⟩
        rw [tokenize, Script.tokens, hending, Cursor.ofText, Nat.zero_add]
        rfl

theorem tokenize_secondPoint : ¬IsLexical (ascii "1.2.3") ∧
    ∃ offset, IsLeast (faults (ascii "1.2.3")) offset ∧
      ∃ character, tokenize (ascii "1.2.3") = .error (.lexical character offset) ∧
        character ≠ [] ∧ character <+: (ascii "1.2.3").drop offset := by
  have hnot : ¬IsLexical (ascii "1.2.3") := by decide +kernel
  exact ⟨hnot, (tokenize_reads_lexicalLanguage _).2.2 hnot⟩

end Calculator
