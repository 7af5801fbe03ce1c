import Calculator.Proofs.Offsets

/-!
Scripts of texts that are put together. What is read behind a seam is what is read there on its
own, so the script of a text is the lexemes of its first part in front of the script of the other
one (`behind_append`), and a script cut between two lexemes belongs to a text cut at a seam
(`behind_split`). The lexemes of a script stand in the order of their offsets. Behind the tokens of
a text without faults stands what the text behind it answers (`tokenize_append_eq`).
-/

namespace Calculator

variable {a b c blanks body rest : Bytes} {token : Token}

theorem seam_nil_left (b : Bytes) : Seam [] b := by
  rintro x ⟨⟩

theorem Seam.append_left (h : Seam a b) (ha : a ≠ []) (front : Bytes) : Seam (front ++ a) b := by
  intro x hx
  rw [List.getLast?_append_of_ne_nil _ ha] at hx
  exact h x hx

theorem Seam.of_append_left {front : Bytes} (h : Seam (front ++ a) b) : Seam a b := by
  by_cases ha : a = []
  · subst ha
    exact seam_nil_left b
  · intro x hx
    apply h x
    rw [List.getLast?_append_of_ne_nil _ ha]
    exact hx

/-- A seam in front of two texts is a seam in front of the first of them that is not empty. -/
theorem Seam.append_right (h : Seam a b) (hnil : b = [] → Seam a c) : Seam a (b ++ c) := by
  cases b with
  | nil => exact hnil rfl
  | cons byte b => exact h

theorem Seam.of_append_right {rest : Bytes} (h : Seam a (b ++ rest)) : Seam a b := by
  intro x hx y hy
  apply h x hx y
  rw [List.head?_append, hy]
  rfl

namespace Script

def prepend (lexemes : List Lexeme) (script : Script) : Script :=
  ⟨lexemes ++ script.lexemes, script.ending⟩

theorem prepend_prepend (s t : List Lexeme) (script : Script) :
    (script.prepend t).prepend s = script.prepend (s ++ t) := by
  rw [prepend, prepend, prepend, List.append_assoc]

theorem behind_of_next {c d : Cursor} (h : c.next = d.next) : behind c = behind d := by
  cases hresult : c.next.result with
  | error fault => rw [behind_of_fault hresult, behind_of_fault (h ▸ hresult)]
  | ok token =>
      rcases Cursor.isSpelled_of_next hresult with rfl | hspelled
      · rw [behind_of_end hresult, behind_of_end (h ▸ hresult), h]
      · have hresult' : d.next.result = .ok token := h ▸ hresult
        rw [behind_of_token hresult hspelled.ne_endOfInput,
          behind_of_token hresult' hspelled.ne_endOfInput, h]

theorem behind_blanks (hblanks : ∀ byte ∈ blanks, isBlank byte) (rest : Bytes) (offset : Nat) :
    behind ⟨blanks ++ rest, offset⟩ = behind ⟨rest, offset + blanks.length⟩ :=
  behind_of_next (Cursor.next_blanks hblanks rest offset)

theorem behind_nil (offset : Nat) : behind ⟨[], offset⟩ = ⟨[], .ok offset⟩ :=
  behind_of_end rfl

theorem behind_body (h : token.IsWrittenAs body) (hseam : Seam body rest) (offset : Nat) :
    behind ⟨body ++ rest, offset⟩ =
      (behind ⟨rest, offset + body.length⟩).prepend [⟨token, offset⟩] := by
  have hnext := h.next_eq hseam offset
  rw [behind_of_token (congrArg Step.result hnext) h.isSpelled.ne_endOfInput, hnext]
  rfl

theorem behind_token (hblanks : ∀ byte ∈ blanks, isBlank byte) (h : token.IsWrittenAs body)
    (hseam : Seam body rest) (offset : Nat) :
    behind ⟨blanks ++ (body ++ rest), offset⟩ =
      (behind ⟨rest, offset + blanks.length + body.length⟩).prepend
        [⟨token, offset + blanks.length⟩] := by
  rw [behind_blanks hblanks, behind_body h hseam]

/-- Reading part by part: the parts of a text are the blanks and the bytes of a first token, the
blanks at its end, or what a fault leaves unread. -/
theorem parts_induction {motive : Cursor → Script → Prop}
    (fault : ∀ (c : Cursor) (fault : Fault), c.next.result = .error fault →
      motive c ⟨[], .error fault⟩)
    (ending : ∀ (blanks : Bytes) (offset : Nat), (∀ byte ∈ blanks, isBlank byte) →
      motive ⟨blanks, offset⟩ ⟨[], .ok (offset + blanks.length)⟩)
    (token : ∀ (blanks body rest : Bytes) (offset : Nat) (token : Token),
      (∀ byte ∈ blanks, isBlank byte) → token.IsWrittenAs body → Seam body rest →
      motive ⟨rest, offset + blanks.length + body.length⟩
        (behind ⟨rest, offset + blanks.length + body.length⟩) →
      motive ⟨blanks ++ (body ++ rest), offset⟩
        ((behind ⟨rest, offset + blanks.length + body.length⟩).prepend
          [⟨token, offset + blanks.length⟩]))
    (c : Cursor) : motive c (behind c) := by
  induction c using behind_induction with
  | fault c found h => exact fault c found h
  | ending c h =>
      obtain ⟨blanks, offset⟩ := c
      have hblanks := (Cursor.next_of_end h).1
      rw [(Cursor.Finds.ending hblanks).next_eq]
      exact ending blanks offset hblanks
  | token c found h hspelled ih =>
      obtain ⟨text, offset⟩ := c
      obtain ⟨blanks, body, rest, rfl, hblanks, hbody, hseam⟩ :=
        Cursor.exists_body h hspelled.ne_endOfInput
      have hnext : (⟨blanks ++ (body ++ rest), offset⟩ : Cursor).next =
          ⟨offset + blanks.length, .ok found, ⟨rest, offset + blanks.length + body.length⟩⟩ := by
        rw [Cursor.next_blanks hblanks, hbody.next_eq hseam]
      rw [hnext] at ih ⊢
      exact token blanks body rest offset found hblanks hbody hseam ih

/-- What stands behind a seam is read as if it stood alone. -/
theorem behind_append {stop : Nat} (c : Cursor) (hending : (behind c).ending = .ok stop)
    (hseam : Seam c.rest b) :
    behind ⟨c.rest ++ b, c.offset⟩ =
      (behind ⟨b, c.offset + c.rest.length⟩).prepend (behind c).lexemes := by
  induction c using parts_induction with
  | fault c fault h => cases hending
  | ending blanks offset hblanks => exact behind_blanks hblanks b offset
  | token blanks body rest offset token hblanks hbody hseam' ih =>
      have hrest : Seam rest b := by
        rw [← List.append_assoc] at hseam
        exact hseam.of_append_left
      have hbehind : Seam body (rest ++ b) := by
        apply hseam'.append_right
        rintro rfl
        rw [List.append_nil] at hseam
        exact hseam.of_append_left
      have hlength : offset + (blanks ++ (body ++ rest)).length =
          offset + blanks.length + body.length + rest.length := by
        rw [List.length_append, List.length_append]
        omega
      rw [List.append_assoc, List.append_assoc, behind_token hblanks hbody hbehind,
        ih hending hrest, prepend_prepend, hlength]
      rfl

/-- A token is read where its bytes stand between two seams. -/
theorem behind_append_body {stop : Nat} (c : Cursor) (hending : (behind c).ending = .ok stop)
    (h : token.IsWrittenAs body) (hcut : Seam c.rest (body ++ rest)) (hseam : Seam body rest) :
    behind ⟨c.rest ++ (body ++ rest), c.offset⟩ =
      (behind ⟨rest, c.offset + c.rest.length + body.length⟩).prepend
        ((behind c).lexemes ++ [⟨token, c.offset + c.rest.length⟩]) := by
  rw [behind_append c hending hcut, behind_body h hseam, prepend_prepend]

/-- The first lexeme of a script and the part of the text that it ends. -/
theorem exists_first {c : Cursor} {lexeme : Lexeme} {others : List Lexeme}
    (h : (behind c).lexemes = lexeme :: others) :
    ∃ blanks body rest, c.rest = blanks ++ (body ++ rest) ∧ (∀ byte ∈ blanks, isBlank byte) ∧
      lexeme.offset = c.offset + blanks.length ∧ lexeme.token.IsWrittenAs body ∧ Seam body rest ∧
      behind ⟨rest, lexeme.offset + body.length⟩ = ⟨others, (behind c).ending⟩ := by
  induction c using parts_induction with
  | fault => cases h
  | ending => cases h
  | token blanks body rest offset token hblanks hbody hseam ih =>
      rw [prepend, List.singleton_append, List.cons.injEq] at h
      obtain ⟨rfl, rfl⟩ := h
      exact ⟨blanks, body, rest, rfl, hblanks, rfl, hbody, hseam, rfl⟩

/-- A script cut in front of a lexeme belongs to a text cut at a seam. -/
theorem behind_split {used others : List Lexeme} {c : Cursor}
    (h : (behind c).lexemes = used ++ others) :
    ∃ a b, c.rest = a ++ b ∧ Seam a b ∧ behind ⟨a, c.offset⟩ = ⟨used, .ok (c.offset + a.length)⟩ ∧
      behind ⟨b, c.offset + a.length⟩ = ⟨others, (behind c).ending⟩ := by
  induction used generalizing c with
  | nil =>
      refine ⟨[], c.rest, rfl, seam_nil_left _, behind_nil _, ?_⟩
      rw [List.nil_append] at h
      rw [← h]
      rfl
  | cons lexeme used ih =>
      obtain ⟨blanks, body, rest, htext, hblanks, hoffset, hbody, hseam, hbehind⟩ := exists_first h
      have hlexemes := congrArg Script.lexemes hbehind
      obtain ⟨a, b, hrest, hab, ha, hb⟩ := ih hlexemes
      dsimp only at hrest ha hb
      rw [hbehind] at hb
      subst hrest
      have hlength : c.offset + (blanks ++ (body ++ a)).length =
          lexeme.offset + body.length + a.length := by
        rw [List.length_append, List.length_append, hoffset]
        omega
      refine ⟨blanks ++ (body ++ a), b, ?_, ?_, ?_, ?_⟩
      · rw [htext, List.append_assoc, List.append_assoc]
      · cases a with
        | nil =>
            rw [List.append_nil]
            exact hseam.append_left hbody.ne_nil blanks
        | cons byte a =>
            rw [← List.append_assoc]
            exact hab.append_left (List.cons_ne_nil _ _) _
      · rw [behind_token hblanks hbody hseam.of_append_right, ← hoffset, ha, hlength]
        rfl
      · rw [hlength]
        exact hb

/-- A lexeme stands behind a text of the lexemes in front of it. -/
theorem exists_lexeme {used others : List Lexeme} {lexeme : Lexeme} {c : Cursor}
    (h : (behind c).lexemes = used ++ lexeme :: others) :
    ∃ a body rest, c.rest = a ++ (body ++ rest) ∧ lexeme.offset = c.offset + a.length ∧
      lexeme.token.IsWrittenAs body ∧ Seam a (body ++ rest) ∧ Seam body rest ∧
      behind ⟨a, c.offset⟩ = ⟨used, .ok lexeme.offset⟩ := by
  obtain ⟨a, b, htext, hab, ha, hb⟩ := behind_split h
  obtain ⟨blanks, body, rest, hrest, hblanks, hoffset, hbody, hseam, -⟩ :=
    exists_first (congrArg lexemes hb)
  dsimp only at hrest hoffset
  subst hrest
  refine ⟨a ++ blanks, body, rest, ?_, ?_, hbody, ?_, hseam, ?_⟩
  · rw [htext, List.append_assoc]
  · rw [hoffset, List.length_append, Nat.add_assoc]
  · by_cases hnone : blanks = []
    · subst hnone
      rw [List.append_nil]
      exact hab
    · exact (seam_of_blanks hblanks).append_left hnone a
  · have hbehind := behind_blanks hblanks [] (c.offset + a.length)
    rw [List.append_nil, behind_nil] at hbehind
    rw [behind_append ⟨a, c.offset⟩ (congrArg ending ha) hab.of_append_right, ha, hbehind, hoffset,
      prepend, List.append_nil]

/-- The lexemes of a text start inside it. -/
theorem offset_mem_behind (c : Cursor) : ∀ lexeme ∈ (behind c).lexemes,
    c.offset ≤ lexeme.offset ∧ lexeme.offset < c.offset + c.rest.length := by
  induction c using parts_induction with
  | fault => exact List.forall_mem_nil _
  | ending => exact List.forall_mem_nil _
  | token blanks body rest offset token hblanks hbody hseam ih =>
      have hlength := List.length_pos_iff.mpr hbody.ne_nil
      simp only [prepend, List.singleton_append, List.forall_mem_cons, List.length_append] at ih ⊢
      refine ⟨⟨by omega, by omega⟩, ?_⟩
      intro lexeme hlexeme
      have := ih lexeme hlexeme
      omega

theorem pairwise_behind (c : Cursor) :
    (behind c).lexemes.Pairwise fun first second => first.offset < second.offset := by
  induction c using parts_induction with
  | fault => exact .nil
  | ending => exact .nil
  | token blanks body rest offset token hblanks hbody hseam ih =>
      refine .cons ?_ ih
      intro lexeme hlexeme
      have hlength := List.length_pos_iff.mpr hbody.ne_nil
      have := (offset_mem_behind _ lexeme hlexeme).1
      dsimp only at this ⊢
      omega

/-- A text without faults is read to its end. -/
theorem stop_eq {c : Cursor} {stop : Nat} (h : (behind c).ending = .ok stop) :
    stop = c.offset + c.rest.length := by
  induction c using parts_induction with
  | fault => cases h
  | ending => exact (Except.ok.inj h).symm
  | token blanks body rest offset token hblanks hbody hseam ih =>
      rw [ih h]
      simp only [List.length_append]
      omega

end Script

/-! ### Tokens -/

/-- What two texts answer one behind the other, the second of which stands at the offset `start`. A
fault in the first one comes before all that the second one holds. -/
def joined (start : Nat) (first second : Except Fault (List Token)) :
    Except Fault (List Token) := do
  let s ← first
  let t ← second.mapError (Fault.move (· + start))
  .ok (s ++ t)

/-- What a text answers at any place, by its script there. -/
theorem tokens_behind (text : Bytes) (start : Nat) :
    (Script.behind ⟨text, start⟩).tokens = (tokenize text).mapError (Fault.move (· + start)) := by
  have hshift := Script.behind_shift (.ofText text) start
  rw [Cursor.ofText, Nat.zero_add] at hshift
  rw [hshift, tokenize, Script.tokens, Script.tokens, Script.map_token_move, Script.move,
    ← Cursor.ofText, Script.ofText, ← Script.behind]
  cases (Script.behind (.ofText text)).ending <;> rfl

theorem tokens_prepend (lexemes : List Lexeme) (script : Script) :
    (script.prepend lexemes).tokens = script.tokens.map (lexemes.map Lexeme.token ++ ·) := by
  rw [Script.tokens, Script.tokens, Script.prepend, List.map_append]
  cases script.ending <;> rfl

/-- A text without faults in front of another one at a seam. -/
theorem tokenize_append_eq {s : List Token} (hseam : Seam a b) (ha : tokenize a = .ok s) :
    tokenize (a ++ b) = joined a.length (.ok s) (tokenize b) := by
  obtain ⟨⟨stop, hending⟩, rfl⟩ := tokenize_eq_ok_iff.mp ha
  have hbehind := Script.behind_append (.ofText a) hending hseam
  rw [Cursor.ofText, Nat.zero_add] at hbehind
  rw [tokenize, Script.ofText, ← Script.behind, Cursor.ofText, hbehind, tokens_prepend,
    tokens_behind]
  cases tokenize b <;> rfl

/-- The tokens of a text that is put together at a seam. -/
theorem tokenize_append {s t : List Token} (hseam : Seam a b) (ha : tokenize a = .ok s)
    (hb : tokenize b = .ok t) : tokenize (a ++ b) = .ok (s ++ t) := by
  rw [tokenize_append_eq hseam ha, hb]
  rfl

theorem tokenize_blanks (h : ∀ byte ∈ blanks, isBlank byte) : tokenize blanks = .ok [] := by
  have hbehind := Script.behind_blanks h [] 0
  rw [List.append_nil, Script.behind_nil] at hbehind
  exact congrArg Script.tokens hbehind

theorem tokenize_nil : tokenize [] = .ok [] :=
  tokenize_blanks (List.forall_mem_nil _)

theorem tokenize_body (h : token.IsWrittenAs body) : tokenize body = .ok [token] := by
  have hseam : Seam body [] := fun _ _ _ => nofun
  have hbehind := Script.behind_body h hseam 0
  rw [List.append_nil, Script.behind_nil] at hbehind
  exact congrArg Script.tokens hbehind

/-- A mark between two texts. -/
theorem tokenize_mark {s t : List Token} {m : Mark} {byte : UInt8}
    (hmark : Mark.ofByte? byte = some m) (ha : tokenize a = .ok s) (hb : tokenize b = .ok t) :
    tokenize (a ++ byte :: b) = .ok (s ++ .mark m byte :: t) := by
  have hb' := tokenize_append (seam_of_mark_left hmark b) (tokenize_body (.mark hmark)) hb
  exact tokenize_append (seam_of_mark_right hmark a b) ha hb'

end Calculator
