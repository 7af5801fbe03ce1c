import Calculator.Calculation
import Calculator.Proofs.GrammarFaults

/-!
Layout. The rules of the grammar look at tokens only and hand offsets on to the faults they find, so
a script whose places are moved has the same tree, or the same fault at the moved place
(`Script.parse_move`). All texts of the same tokens come from one script in this way: the one whose
places are the indices of its tokens.
-/

namespace Calculator

variable {α β γ δ : Type} {f g : Nat → Nat}

def moveAnswer (f : Nat → Nat) (result : α → β) (answer : Except Fault α) : Except Fault β :=
  (answer.map result).mapError (Fault.move f)

@[simp]
theorem moveAnswer_ok (result : α → β) (a : α) : moveAnswer f result (.ok a) = .ok (result a) := rfl

@[simp]
theorem moveAnswer_error (result : α → β) (fault : Fault) :
    moveAnswer f result (.error fault) = .error (fault.move f) := rfl

theorem moveAnswer_bind {result : α → β} {result' : γ → δ} {next : α → Except Fault γ}
    {next' : β → Except Fault δ} (h : ∀ a, next' (result a) = moveAnswer f result' (next a))
    (answer : Except Fault α) :
    moveAnswer f result answer >>= next' = moveAnswer f result' (answer >>= next) := by
  cases answer with
  | error fault => rfl
  | ok a => exact h a

def moveReading (f : Nat → Nat) : Reading → Reading :=
  moveAnswer f fun found => (found.1, found.2.map (Lexeme.move f))

/-- Readers of which the second reads at moved places what the first one reads. -/
def Moves (f : Nat → Nat) (read read' : List Lexeme → Reading) : Prop :=
  ∀ lexemes, read' (lexemes.map (Lexeme.move f)) = moveReading f (read lexemes)

/-- A fault that is moved in two ways differs in its place only. -/
theorem Fault.move_eq (fault : Fault) :
    fault.move g = (fault.move f).move fun _ => (fault.move g).offset := by
  cases fault <;> rfl

section
variable {highest : Nat} {ending : Except Fault Nat}

theorem front_move (lexemes : List Lexeme) :
    front (moveAnswer f f ending) (lexemes.map (Lexeme.move f)) =
      moveAnswer f (Lexeme.move f) (front ending lexemes) := by
  cases lexemes with
  | cons lexeme lexemes => rfl
  | nil => cases ending <;> rfl

theorem join_move {op : Operator} {left right : Tree.Measured} (rest : List Lexeme) :
    join highest (moveAnswer f f ending) op left right (rest.map (Lexeme.move f)) =
      moveAnswer f id (join highest ending op left right rest) := by
  simp only [join, front_move]
  split
  · rfl
  · cases front ending rest <;> rfl

theorem Link.operand_map (link : Link) (lexemes : List Lexeme) :
    link.operand (lexemes.map (Lexeme.move f)) =
      (link.operand lexemes).map (Lexeme.move f) := by
  unfold operand
  split
  · rw [List.map_tail]
  · rfl

namespace Rule

/-- Every step of a chain is taken at the moved places too. -/
theorem moves_chainRest {link : Token → Option Link} {operand operand' : Rule}
    (hoperand : Moves f operand.read operand'.read) (left : Tree.Measured) :
    Moves f (chainRest highest ending link operand left)
      (chainRest highest (moveAnswer f f ending) link operand' left) := by
  intro lexemes
  have hfront (lexemes : List Lexeme) :
      front (moveAnswer f f ending) (lexemes.map (Lexeme.move f)) =
        moveAnswer f (Lexeme.move f) (front ending lexemes) :=
    front_move lexemes
  fun_induction chainRest highest ending link operand left lexemes with
  | case1 left lexemes fault hnext =>
      rw [chainRest, hfront, hnext]
      rfl
  | case2 left lexemes next hnext hlink =>
      have hnext' := (hfront lexemes).trans (congrArg _ hnext)
      exact chainRest_of_none hnext' hlink
  | case3 left lexemes next hnext found hlink fault hread =>
      have hnext' := (hfront lexemes).trans (congrArg _ hnext)
      rw [chainRest_of_link hnext' hlink, Link.operand_map, hoperand, hread]
      rfl
  | case4 left lexemes next hnext found hlink right rest hread fault hjoin =>
      have hnext' := (hfront lexemes).trans (congrArg _ hnext)
      rw [chainRest_of_link hnext' hlink, Link.operand_map, hoperand, hread]
      simp only [moveReading, moveAnswer_ok, ok_bind, join_move, hjoin]
      rfl
  | case5 left lexemes next hnext found hlink right rest hread node hjoin ih =>
      have hnext' := (hfront lexemes).trans (congrArg _ hnext)
      rw [chainRest_of_link hnext' hlink, Link.operand_map, hoperand, hread]
      simp only [moveReading, moveAnswer_ok, ok_bind, join_move, hjoin]
      exact ih

theorem moves_chain {link : Token → Option Link} {operand operand' : Rule}
    (hoperand : Moves f operand.read operand'.read) :
    Moves f (chain highest ending link operand).read
      (chain highest (moveAnswer f f ending) link operand').read := by
  intro lexemes
  simp only [chain, hoperand lexemes]
  exact moveAnswer_bind (fun first => moves_chainRest hoperand first.1 first.2) _

theorem moves_expression {factor factor' : Rule} (hfactor : Moves f factor.read factor'.read) :
    Moves f (expression highest ending factor).read
      (expression highest (moveAnswer f f ending) factor').read :=
  moves_chain (moves_chain hfactor)

theorem moves_close (tree : Tree.Measured) :
    Moves f (close ending tree) (close (moveAnswer f f ending) tree) := by
  intro lexemes
  rw [close, front_move]
  refine moveAnswer_bind (fun next => ?_) _
  by_cases hclosing : next.token.category = .mark .closing
  · rw [if_pos hclosing, Lexeme.move, if_pos hclosing, ← List.map_tail]
    rfl
  · rw [if_neg hclosing, Lexeme.move, if_neg hclosing]
    rfl

section
variable {room : Nat} (hdeeper : ∀ below, room = below + 1 →
    Moves f (factor highest ending below).read (factor highest (moveAnswer f f ending) below).read)
include hdeeper

theorem moves_primary :
    Moves f (primary highest ending (deeper highest ending room))
      (primary highest (moveAnswer f f ending)
        (deeper highest (moveAnswer f f ending) room)) := by
  intro lexemes
  cases lexemes with
  | nil => cases ending <;> rfl
  | cons lexeme rest =>
      obtain ⟨token, offset⟩ := lexeme
      cases token with
      | number value => rfl
      | mark m byte =>
          cases m with
          | opening =>
              cases room with
              | zero => rfl
              | succ below =>
                  have hinner : Moves f
                      (expression highest ending (factor highest ending below)).read
                      (expression highest (moveAnswer f f ending)
                        (factor highest (moveAnswer f f ending) below)).read :=
                    moves_expression (hdeeper below rfl)
                  simp only [List.map_cons, Lexeme.move, primary, deeper, hinner rest]
                  exact moveAnswer_bind (fun inner => moves_close inner.1 inner.2) _
          | plus | minus | star | slash | caret | closing | endOfInput | other => rfl

theorem moves_power (base : Tree.Measured) :
    Moves f (power highest ending (deeper highest ending room) base)
      (power highest (moveAnswer f f ending)
        (deeper highest (moveAnswer f f ending) room) base) := by
  intro lexemes
  rw [power, front_move]
  refine moveAnswer_bind (fun next => ?_) _
  by_cases hcaret : next.token.category = .mark .caret
  · rw [if_pos hcaret, Lexeme.move, if_pos hcaret]
    cases room with
    | zero => rfl
    | succ below =>
        simp only [deeper, ← List.map_tail, hdeeper below rfl lexemes.tail]
        refine moveAnswer_bind (fun exponent => ?_) _
        rw [join_move]
        cases join highest ending .pow base exponent.1 exponent.2 <;> rfl
  · rw [if_neg hcaret, Lexeme.move, if_neg hcaret]
    rfl

theorem moves_factor_of_deeper :
    Moves f (factor highest ending room).read
      (factor highest (moveAnswer f f ending) room).read := by
  intro lexemes
  rw [factor_eq, factor_eq]
  simp only [factorAbove, moves_primary hdeeper lexemes]
  exact moveAnswer_bind (fun base => moves_power hdeeper base.1 base.2) _

end

/-- The rules below a factor have less room, so the induction is on the room. -/
theorem moves_factor (room : Nat) :
    Moves f (factor highest ending room).read
      (factor highest (moveAnswer f f ending) room).read := by
  induction room with
  | zero =>
      apply moves_factor_of_deeper
      rintro _ ⟨⟩
  | succ room ih =>
      apply moves_factor_of_deeper
      rintro _ ⟨⟩
      exact ih

end Rule

end

/-! ### Scripts -/

namespace Script

/-- A script with its places moved has the same tree, or the same fault at the moved place. -/
theorem parse_move (script : Script) : (script.move f).parse = moveAnswer f id script.parse := by
  obtain ⟨lexemes, ending⟩ := script
  have hread : Moves f (Rule.expression limit ending (Rule.factor limit ending limit)).read
      (Rule.expression limit (moveAnswer f f ending)
        (Rule.factor limit (moveAnswer f f ending) limit)).read :=
    Rule.moves_expression (Rule.moves_factor limit)
  have hmove : move f ⟨lexemes, ending⟩ =
      ⟨lexemes.map (Lexeme.move f), moveAnswer f f ending⟩ := rfl
  rw [hmove, parse, hread lexemes]
  refine moveAnswer_bind (fun found => ?_) _
  dsimp only
  rw [front_move]
  refine moveAnswer_bind (fun next => ?_) _
  by_cases hend : next.token.category = .mark .endOfInput
  · rw [if_pos hend, Lexeme.move, if_pos hend]
    rfl
  · rw [if_neg hend, Lexeme.move, if_neg hend]
    rfl

/-- The script whose places are the indices of its tokens. -/
def ofTokens (tokens : List Token) : Script :=
  ⟨tokens.mapIdx fun index token => ⟨token, index⟩, .ok tokens.length⟩

end Script

/-- The places where the tokens of a text start, each behind a text of the tokens in front of it and
at the bytes that it is written as, with a seam on either side of them. Behind the last token stands
the end of the text. -/
inductive StartsAt (text : Bytes) (tokens : List Token) : (index place : Nat) → Prop
  | token {before body rest : Bytes} {front behind : List Token} {token : Token}
      (htext : text = before ++ (body ++ rest)) (htokens : tokens = front ++ token :: behind)
      (hfront : tokenize before = .ok front) (hbody : token.IsWrittenAs body)
      (hcut : Seam before (body ++ rest)) (hseam : Seam body rest) :
      StartsAt text tokens front.length before.length
  | ending : StartsAt text tokens tokens.length text.length

/-- The offset of the lexeme with an index, behind the last one the length of the text. -/
def tokenStart (text : Bytes) (index : Nat) : Nat :=
  ((Script.ofText text).lexemes[index]?.map Lexeme.offset).getD text.length

section
variable {text : Bytes} {tokens : List Token}

theorem tokenStart_length (h : tokenize text = .ok tokens) :
    tokenStart text tokens.length = text.length := by
  obtain ⟨-, rfl⟩ := tokenize_eq_ok_iff.mp h
  rw [tokenStart, List.length_map, List.getElem?_eq_none (Nat.le_refl _)]
  rfl

theorem startsAt_tokenStart {index : Nat} (h : tokenize text = .ok tokens)
    (hindex : index ≤ tokens.length) : StartsAt text tokens index (tokenStart text index) := by
  rcases Nat.lt_or_eq_of_le hindex with hlt | rfl
  · obtain ⟨-, rfl⟩ := tokenize_eq_ok_iff.mp h
    rw [List.length_map] at hlt
    have hlexemes : (Script.ofText text).lexemes = (Script.ofText text).lexemes.take index ++
        (Script.ofText text).lexemes[index] :: (Script.ofText text).lexemes.drop (index + 1) := by
      rw [List.getElem_cons_drop, List.take_append_drop]
    obtain ⟨before, body, rest, htext, hoffset, hbody, hcut, hseam, hbefore⟩ :=
      Script.exists_lexeme hlexemes
    dsimp only [Cursor.ofText] at htext hoffset hbefore
    have htokens := congrArg (List.map Lexeme.token) hlexemes
    rw [List.map_append, List.map_cons] at htokens
    have hfront : tokenize before =
        .ok (((Script.ofText text).lexemes.take index).map Lexeme.token) :=
      congrArg Script.tokens hbefore
    have hplace : tokenStart text index = before.length := by
      rw [tokenStart, List.getElem?_eq_getElem hlt, Option.map_some, Option.getD_some, hoffset,
        Nat.zero_add]
    have hstarts := StartsAt.token htext htokens hfront hbody hcut hseam
    rwa [List.length_map, List.length_take_of_le (Nat.le_of_lt hlt), ← hplace] at hstarts
  · rw [tokenStart_length h]
    exact .ending

/-- No other place is the start of the token. -/
theorem StartsAt.eq_tokenStart {index place : Nat} (h : tokenize text = .ok tokens)
    (hstarts : StartsAt text tokens index place) : place = tokenStart text index := by
  cases hstarts with
  | ending => exact (tokenStart_length h).symm
  | @token before body rest front behind token htext htokens hfront hbody hcut hseam =>
      obtain ⟨⟨stop, hending⟩, rfl⟩ := tokenize_eq_ok_iff.mp hfront
      have hlexemes : (Script.ofText text).lexemes = (Script.ofText before).lexemes ++
          [⟨token, 0 + before.length⟩] ++
            (Script.behind ⟨rest, 0 + before.length + body.length⟩).lexemes := by
        rw [htext]
        exact congrArg Script.lexemes
          (Script.behind_append_body (.ofText before) hending hbody hcut hseam)
      rw [tokenStart, hlexemes, List.append_assoc, List.length_map,
        List.getElem?_append_right (Nat.le_refl _), Nat.sub_self, List.singleton_append,
        List.getElem?_cons_zero, Option.map_some, Option.getD_some, Nat.zero_add]

/-- A token of a text starts in one place. -/
theorem startsAt_iff {index place : Nat} (h : tokenize text = .ok tokens)
    (hindex : index ≤ tokens.length) :
    StartsAt text tokens index place ↔ place = tokenStart text index := by
  refine ⟨StartsAt.eq_tokenStart h, ?_⟩
  rintro rfl
  exact startsAt_tokenStart h hindex

/-- The script of a text comes from the script of its tokens. -/
theorem Script.ofText_eq_move (h : tokenize text = .ok tokens) :
    ofText text = (ofTokens tokens).move (tokenStart text) := by
  have hlength := tokenStart_length h
  obtain ⟨⟨stop, hstop⟩, htokens⟩ := tokenize_eq_ok_iff.mp h
  have hending : (ofText text).ending = .ok (tokenStart text tokens.length) := by
    rw [hstop, hlength, stop_eq hstop]
    exact congrArg Except.ok (Nat.zero_add _)
  have hlexemes : (ofText text).lexemes =
      (tokens.mapIdx fun index token => ⟨token, index⟩).map (Lexeme.move (tokenStart text)) := by
    subst htokens
    apply List.ext_getElem
    · simp
    · intro index hindex _
      simp [Lexeme.move, tokenStart, hindex]
  rw [move, ofTokens]
  exact congrArg₂ Script.mk hlexemes hending

end

/-- A place in the script of some tokens is the index of the token in front, or of the end. -/
theorem Script.front_ofTokens {tokens : List Token} {used rest : List Lexeme}
    (h : (ofTokens tokens).lexemes = used ++ rest) :
    used.length ≤ tokens.length ∧ front (ofTokens tokens).ending rest =
      .ok ⟨tokens[used.length]?.getD .endOfInput, used.length⟩ := by
  have hlength := congrArg List.length h
  rw [ofTokens, List.length_mapIdx, List.length_append] at hlength
  refine ⟨hlength ▸ Nat.le_add_right _ _, ?_⟩
  cases rest with
  | nil =>
      rw [List.length_nil, Nat.add_zero] at hlength
      rw [← hlength, List.getElem?_eq_none (Nat.le_refl _)]
      rfl
  | cons next rest =>
      have hnext := congrArg (·[used.length]?) h
      rw [ofTokens, List.getElem?_mapIdx, List.getElem?_append_right (Nat.le_refl _), Nat.sub_self,
        List.getElem?_cons_zero, Option.map_eq_some_iff] at hnext
      obtain ⟨token, htoken, rfl⟩ := hnext
      rw [htoken]
      rfl

/-- A fault moves with the token that it is about. -/
theorem Fault.StandsAt.move_spec {fault : Fault} {next : Lexeme} (h : fault.StandsAt (.ok next)) :
    (fault.move f).offset = f next.offset ∧
      ∀ found ∈ (fault.move f).found?, found = next.token.category := by
  cases h with
  | unexpected | mismatch =>
      refine ⟨rfl, ?_⟩
      rintro found ⟨⟩
      rfl
  | tooDeep =>
      refine ⟨rfl, ?_⟩
      rintro found ⟨⟩

/-- Layout does not matter. Texts of the same tokens have the same tree and the same value, or the
same fault, at the token with the same index: either answer is that for the tokens alone, with its
places moved. -/
theorem parse_of_same_tokens {a b : Bytes} {tokens : List Token} (ha : tokenize a = .ok tokens)
    (hb : tokenize b = .ok tokens) :
    (∃ tree, (Parser.ofText a).parse.1 = .ok tree ∧ (Parser.ofText b).parse.1 = .ok tree ∧
      calculate a = calculate b) ∨
    ∃ fault fault' index, (Parser.ofText a).parse.1 = .error fault ∧
      (Parser.ofText b).parse.1 = .error fault' ∧
      calculate a = .error fault ∧ calculate b = .error fault' ∧
      (fault' = fault.move fun _ => fault'.offset) ∧
      StartsAt a tokens index fault.offset ∧ StartsAt b tokens index fault'.offset ∧
      ∀ found ∈ fault.found?, found = (tokens[index]?.getD .endOfInput).category := by
  have hparse {text : Bytes} (h : tokenize text = .ok tokens) : (Parser.ofText text).parse.1 =
      moveAnswer (tokenStart text) id (Script.ofTokens tokens).parse := by
    rw [(Parser.ofText text).parse_eq, ← Script.parse_move, ← Script.ofText_eq_move h]
    rfl
  have hcalculate {text : Bytes} (h : tokenize text = .ok tokens) :
      calculate text = (Parser.ofText text).parse.1 >>= fun tree =>
        tree.tree.evaluate >>= fun value => .ok ⟨tokens, tree, value⟩ := by
    rw [(Parser.ofText text).parse_eq, calculate, h]
    rfl
  rw [hcalculate ha, hcalculate hb, hparse ha, hparse hb]
  cases hscript : (Script.ofTokens tokens).parse with
  | ok tree => exact Or.inl ⟨tree, rfl, rfl, rfl⟩
  | error fault =>
      obtain ⟨used, rest, hlexemes, -, hplace, -⟩ := Script.parse_eq_error hscript
      obtain ⟨hindex, hfront⟩ := Script.front_ofTokens hlexemes
      have hplace : fault.StandsAt (front (Script.ofTokens tokens).ending rest) := hplace
      rw [hfront] at hplace
      have hstarts {text : Bytes} (h : tokenize text = .ok tokens) :
          StartsAt text tokens used.length (fault.move (tokenStart text)).offset :=
        (startsAt_iff h hindex).mpr hplace.move_spec.1
      exact Or.inr ⟨_, _, used.length, rfl, rfl, rfl, rfl, fault.move_eq, hstarts ha, hstarts hb,
        hplace.move_spec.2⟩

/-- A parenthesis that is not closed is missed at the end of either text. -/
theorem parse_spacedOut :
    (Parser.ofText (ascii "(1+2")).parse.1 =
      .error (.mismatch (.mark .closing) (.mark .endOfInput) 4) ∧
    (Parser.ofText (ascii " ( 1 + 2\t")).parse.1 =
      .error (.mismatch (.mark .closing) (.mark .endOfInput) 9) := by
  have htokens : tokenize (ascii "(1+2") = .ok [.mark .opening 0x28, .number (.whole 1),
      .mark .plus 0x2B, .number (.whole 2)] := eq_ok_of_toOption (by decide +kernel)
  have htokens' : tokenize (ascii " ( 1 + 2\t") = .ok [.mark .opening 0x28, .number (.whole 1),
      .mark .plus 0x2B, .number (.whole 2)] := eq_ok_of_toOption (by decide +kernel)
  have hparse : (Parser.ofText (ascii "(1+2")).parse.1 =
      .error (.mismatch (.mark .closing) (.mark .endOfInput) 4) := by decide +kernel
  rcases parse_of_same_tokens htokens htokens' with ⟨tree, htree, -⟩ |
    ⟨fault, fault', index, hfault, hfault', -, -, hmove, -, hstarts, hfound⟩
  · rw [hparse] at htree
    cases htree
  · obtain rfl := Except.error.inj (hparse.symm.trans hfault)
    have hend := hfound _ rfl
    refine ⟨hparse, ?_⟩
    rw [hfault', hmove]
    generalize fault'.offset = place at hstarts
    cases hstarts with
    | token _ hlist _ hbody _ _ =>
        rw [hlist, List.getElem?_append_right (Nat.le_refl _), Nat.sub_self] at hend
        exact absurd hend.symm hbody.isSpelled.category_ne
    | ending => rfl

end Calculator
