import Calculator.Proofs.GrammarReading
import Calculator.Proofs.ParserStep
import Calculator.Tree.Parse

/-!
The parser that reads tokens as it needs them answers what the rules of the grammar answer on the
script of its text. It is always one token ahead of the rules, so a lexical fault behind a phrase is
met with the phrase and not with what stands behind it; nothing else tells the two apart. The
levels that are open leave just the room that the rules have left, and the budget of calls is
enough for it.
-/

namespace Calculator

/-- What a parser with `nesting` open levels makes of a reading: the same fault, the same tree at
the lexemes behind it, or the fault that stands where these lexemes should begin. -/
inductive Agrees (ending : Except Fault Nat) (nesting : Nat) :
    Reading → Except Fault Tree.Measured × Parser → Prop
  | fault {fault : Fault} {p : Parser} : Agrees ending nesting (.error fault) (.error fault, p)
  | tree {tree : Tree.Measured} {rest : List Lexeme} {p : Parser} (hstands : p.Stands ending rest)
      (hnesting : p.nesting = nesting) : Agrees ending nesting (.ok (tree, rest)) (.ok tree, p)
  | ahead {tree : Tree.Measured} {rest : List Lexeme} {fault : Fault} {p : Parser}
      (hfault : front ending rest = .error fault) :
      Agrees ending nesting (.ok (tree, rest)) (.error fault, p)

/-- A parser that makes of all lexemes what a rule reads off them. -/
def Follows (ending : Except Fault Nat) (nesting : Nat) (parsing : Parsing Tree.Measured)
    (read : List Lexeme → Reading) : Prop :=
  ∀ ⦃p : Parser⦄ ⦃lexemes : List Lexeme⦄, p.Stands ending lexemes → p.nesting = nesting →
    Agrees ending nesting (read lexemes) (parsing.outcome p)

/-- A fault in front of a rule is the fault it answers. -/
def Strict (ending : Except Fault Nat) (read : List Lexeme → Reading) : Prop :=
  ∀ ⦃lexemes : List Lexeme⦄ ⦃fault : Fault⦄, front ending lexemes = .error fault →
    read lexemes = .error fault

section
variable {ending : Except Fault Nat} {nesting : Nat} {p : Parser} {lexemes : List Lexeme}

namespace Agrees

variable {answer : Reading} {parsing : Parsing Tree.Measured}

theorem of_eq_error {fault : Fault} (h : answer = .error fault) :
    Agrees ending nesting answer (.error fault, p) :=
  h ▸ .fault

/-- Agreement of a step and of what follows it. -/
theorem bind {next : Tree.Measured × List Lexeme → Reading}
    {next' : Tree.Measured → Parsing Tree.Measured} {inner : Nat}
    (h : Agrees ending inner answer (parsing.outcome p))
    (hnext : ∀ {tree rest q}, answer = .ok (tree, rest) → q.Stands ending rest →
      q.nesting = inner → Agrees ending nesting (next (tree, rest)) ((next' tree).outcome q))
    (hahead : ∀ {tree rest fault q}, front ending rest = .error fault →
      Agrees ending nesting (next (tree, rest)) (.error fault, q)) :
    Agrees ending nesting (answer >>= next) ((parsing >>= next').outcome p) := by
  generalize houtcome : parsing.outcome p = result at h
  cases h with
  | fault =>
      rw [Parsing.outcome_bind_of_error houtcome]
      exact .fault
  | tree hstands hnesting =>
      rw [Parsing.outcome_bind_of_ok houtcome]
      exact hnext rfl hstands hnesting
  | ahead hfault =>
      rw [Parsing.outcome_bind_of_error houtcome]
      exact hahead hfault

/-- Agreement behind a token that is passed. -/
theorem advance (hbehind : Script.behind p.cursor = ⟨lexemes, ending⟩)
    {next : Unit → Parsing Tree.Measured}
    (hnext : ∀ {q}, q.Stands ending lexemes → q.nesting = p.nesting →
      Agrees ending nesting answer ((next ()).outcome q))
    (hahead : ∀ {fault q}, front ending lexemes = .error fault →
      Agrees ending nesting answer (.error fault, q)) :
    Agrees ending nesting answer ((Parser.advance >>= next).outcome p) := by
  rcases Parser.outcome_advance hbehind with ⟨q, hadvance, hstands, hnesting⟩ |
    ⟨fault, q, hadvance, hfault⟩
  · rw [Parsing.outcome_bind_of_ok hadvance]
    exact hnext hstands hnesting
  · rw [Parsing.outcome_bind_of_error hadvance]
    exact hahead hfault

end Agrees

theorem outcome_combine (h : p.Stands ending lexemes) (op : Operator) (left right : Tree.Measured) :
    (Parser.combine op left right).outcome p = (join limit ending op left right lexemes, p) := by
  simp only [Parser.combine, join]
  split
  · rfl
  · rw [h.front_eq]
    rfl

theorem Agrees.combine {op : Operator} {left right : Tree.Measured}
    {next : Tree.Measured → Reading} {next' : Tree.Measured → Parsing Tree.Measured}
    (hstands : p.Stands ending lexemes)
    (hnext : ∀ {node}, join limit ending op left right lexemes = .ok node →
      Agrees ending nesting (next node) ((next' node).outcome p)) :
    Agrees ending nesting (join limit ending op left right lexemes >>= next)
      ((Parser.combine op left right >>= next').outcome p) := by
  rw [Parsing.outcome_bind, outcome_combine hstands]
  cases hjoin : join limit ending op left right lexemes with
  | error fault => exact .fault
  | ok node => exact hnext hjoin

theorem Agrees.join_ahead {op : Operator} {left right : Tree.Measured}
    {next : Tree.Measured → Reading} {fault : Fault}
    (h : front ending lexemes = .error fault)
    (hnext : ∀ {node}, Agrees ending nesting (next node) (.error fault, p)) :
    Agrees ending nesting (join limit ending op left right lexemes >>= next) (.error fault, p) := by
  simp only [join]
  split
  · exact hnext
  · rw [h]
    exact .fault

section
variable {link : Token → Option Link} {operand : Rule} {parsing : Parsing Tree.Measured}
  (hoperand : Follows ending nesting parsing operand.read) (hstrict : Strict ending operand.read)

theorem strict_chainRest {left : Tree.Measured} :
    Strict ending (Rule.chainRest limit ending link operand left) := by
  intro lexemes fault h
  rw [Rule.chainRest, h]

include hstrict in
theorem strict_chain : Strict ending (Rule.chain limit ending link operand).read := by
  intro lexemes fault h
  simp only [Rule.chain, hstrict h, error_bind]

include hoperand in
/-- An operand, its join with the tree on its left, and the rest of the chain behind them. -/
theorem follows_operand {op : Operator} {left : Tree.Measured} {count : Nat}
    (hrest : ∀ right, (Tree.Measured.binary op.symbol left right).height ≤ limit →
      Follows ending nesting
        (Parser.chain link parsing count (.binary op.symbol left right))
        (Rule.chainRest limit ending link operand (.binary op.symbol left right))) :
    Follows ending nesting
      (do
        let right ← parsing
        let node ← Parser.combine op left right
        Parser.chain link parsing count node)
      (fun lexemes => do
        let right ← operand.read lexemes
        let node ← join limit ending op left right.1 right.2
        Rule.chainRest limit ending link operand node right.2) := by
  intro p lexemes hstands hnesting
  apply (hoperand hstands hnesting).bind
  · intro right rest q _ hstands hnesting
    apply Agrees.combine hstands
    intro node hnode
    obtain ⟨rfl, hheight⟩ := join_eq_ok_iff.mp hnode
    exact hrest right hheight hstands hnesting
  · intro right rest fault q hfault
    apply Agrees.join_ahead hfault
    intro node
    exact .of_eq_error (strict_chainRest hfault)

include hoperand hstrict

/-- A join makes a tree higher than the one on its left, which is within the limit itself, so the
count never runs out. -/
theorem follows_chainRest (count : Nat) {left : Tree.Measured} (hleft : left.height ≤ limit)
    (hcount : limit < left.height + count) :
    Follows ending nesting (Parser.chain link parsing count left)
      (Rule.chainRest limit ending link operand left) := by
  induction count generalizing left with
  | zero => omega
  | succ count ih =>
      intro p lexemes hstands hnesting
      cases hlink : link p.token with
      | none =>
          rw [Rule.chainRest_of_none hstands.front_eq hlink, Parser.outcome_chain_of_none hlink]
          exact .tree hstands hnesting
      | some found =>
          rw [Rule.chainRest_of_link hstands.front_eq hlink, Parser.outcome_chain_of_link hlink]
          have hrest (right : Tree.Measured)
              (hheight : (Tree.Measured.binary found.operator.symbol left right).height ≤ limit) :=
            ih hheight (by simp only [Tree.Measured.binary]; omega)
          obtain ⟨op, written⟩ := found
          cases written with
          | false => exact follows_operand hoperand hrest hstands hnesting
          | true =>
              apply Agrees.advance hstands.behind_eq
              · intro q hstands' hnesting'
                exact follows_operand hoperand hrest hstands' (hnesting'.trans hnesting)
              · intro fault q hfault
                apply Agrees.of_eq_error
                simp only [Link.operand, if_true, hstrict hfault, error_bind]

theorem follows_chain
    (hheight : Produces (fun _ tree => 0 < tree.height ∧ tree.height ≤ limit) operand.read) :
    Follows ending nesting
      (do
        let first ← parsing
        Parser.chain link parsing limit first)
      (Rule.chain limit ending link operand).read := by
  intro p lexemes hstands hnesting
  apply (hoperand hstands hnesting).bind
  · intro first rest q hread hstands hnesting
    obtain ⟨used, -, hpositive, hlimit⟩ := hheight hread
    exact follows_chainRest hoperand hstrict limit hlimit (by omega) hstands hnesting
  · intro first rest fault q hfault
    exact .of_eq_error (strict_chainRest hfault)

end

theorem strict_primary {deeper : Option Rule} :
    Strict ending (Rule.primary limit ending deeper) := by
  intro lexemes fault h
  cases lexemes with
  | nil => simp only [Rule.primary, h, error_bind]
  | cons lexeme lexemes => cases h

theorem strict_power {deeper : Option Rule} {base : Tree.Measured} :
    Strict ending (Rule.power limit ending deeper base) := by
  intro lexemes fault h
  simp only [Rule.power, h, error_bind]

theorem strict_close {tree : Tree.Measured} : Strict ending (Rule.close ending tree) := by
  intro lexemes fault h
  simp only [Rule.close, h, error_bind]

theorem strict_factor {room : Nat} : Strict ending (Rule.factor limit ending room).read := by
  intro lexemes fault h
  rw [Rule.factor_eq]
  simp only [Rule.factorAbove, strict_primary h, error_bind]

theorem strict_expression {room : Nat} :
    Strict ending (Rule.expression limit ending (Rule.factor limit ending room)).read :=
  strict_chain (strict_chain strict_factor)

theorem agrees_close {tree : Tree.Measured} (hstands : p.Stands ending lexemes)
    (hnesting : p.nesting = nesting + 1) :
    Agrees ending nesting (Rule.close ending tree lexemes)
      (Parsing.outcome (do
        Parser.expect (.mark .closing)
        Parser.closeLevel
        return tree) p) := by
  rw [Rule.close, hstands.front_eq, ok_bind]
  by_cases hclosing : p.token.category = .mark .closing
  · rw [if_pos hclosing, Parser.outcome_expect_bind hclosing]
    apply Agrees.advance hstands.behind_eq
    · intro q hstands hnesting'
      rw [Parser.outcome_closeLevel_bind]
      refine .tree hstands.of_nesting ?_
      rw [hnesting', hnesting, Nat.add_sub_cancel]
    · intro fault q hfault
      exact .ahead hfault
  · rw [if_neg hclosing, Parser.outcome_expect_bind_of_ne hclosing]
    exact .fault

/-- One level deeper, if there is room for it, a phrase is followed too. -/
def FollowsDeeper (ending : Except Fault Nat) (nesting room calls : Nat) (phrase : Phrase) : Prop :=
  ∀ below, room = below + 1 →
    Follows ending (nesting + 1) (Parser.phrase calls phrase)
      (Rule.reading limit ending below phrase)

section
variable {calls room : Nat} (hroom : nesting + room = limit)
include hroom

/-- A parser whose open levels leave no room for another one finds the place too deep. -/
theorem agrees_parentheses {left : UInt8} {offset : Nat} {rest : List Lexeme}
    (hdeeper : FollowsDeeper ending nesting room calls .expression)
    (hstands : p.Stands ending (⟨.mark .opening left, offset⟩ :: rest))
    (hnesting : p.nesting = nesting) :
    Agrees ending nesting
      (Rule.primary limit ending (Rule.deeper limit ending room)
        (⟨.mark .opening left, offset⟩ :: rest))
      (Parsing.outcome (do
        Parser.openLevel
        Parser.advance
        let inner ← Parser.phrase calls .expression
        Parser.expect (.mark .closing)
        Parser.closeLevel
        return inner) p) := by
  cases room with
  | zero =>
      have hoffset : offset = p.offset := congrArg Lexeme.offset (Except.ok.inj hstands.front_eq)
      rw [Parser.outcome_openLevel_bind_of_full (by omega), hoffset]
      exact .fault
  | succ below =>
      rw [Parser.outcome_openLevel_bind (by omega)]
      apply Agrees.advance hstands.of_nesting.behind_eq
      · intro q hstands hnesting'
        apply (hdeeper below rfl hstands (hnesting'.trans (congrArg (· + 1) hnesting))).bind
        · intro inner rest q _ hstands hnesting
          exact agrees_close hstands hnesting
        · intro inner rest fault q hfault
          exact .of_eq_error (strict_close hfault)
      · intro fault q hfault
        have hread : (Rule.expression limit ending (Rule.factor limit ending below)).read rest =
            .error fault := strict_expression hfault
        apply Agrees.of_eq_error
        simp only [Rule.primary, Rule.deeper, hread, error_bind]

theorem follows_primary (hdeeper : FollowsDeeper ending nesting room calls .expression) :
    Follows ending nesting (Parser.phrase (calls + 1) .primary)
      (Rule.primary limit ending (Rule.deeper limit ending room)) := by
  intro p lexemes hstands hnesting
  obtain ⟨text, cursor, token, offset, opened⟩ := p
  rw [Parser.phrase, Parsing.outcome_get_bind]
  rcases front_eq_ok_iff.mp hstands.front_eq with ⟨rest, rfl⟩ | ⟨rfl, stop, rfl, hend⟩
  · cases token with
    | number value =>
        apply Agrees.advance hstands.behind_eq
        · intro q hstands' hnesting'
          exact .tree hstands' (hnesting'.trans hnesting)
        · intro fault q hfault
          exact .ahead hfault
    | mark m byte =>
        cases m with
        | opening => exact agrees_parentheses hroom hdeeper hstands hnesting
        | plus | minus | star | slash | caret | closing | endOfInput | other => exact .fault
  · cases hend
    exact .fault

theorem agrees_power {base : Tree.Measured}
    (hdeeper : FollowsDeeper ending nesting room calls .factor) (hstands : p.Stands ending lexemes)
    (hnesting : p.nesting = nesting) :
    Agrees ending nesting
      (Rule.power limit ending (Rule.deeper limit ending room) base lexemes)
      (Parsing.outcome (do
        if (← get).token.category = .mark .caret then
          Parser.openLevel
          Parser.advance
          let exponent ← Parser.phrase calls .factor
          Parser.closeLevel
          Parser.combine .pow base exponent
        else return base) p) := by
  rw [Rule.power, hstands.front_eq, ok_bind, Parsing.outcome_get_bind]
  by_cases hcaret : p.token.category = .mark .caret
  · rw [if_pos hcaret, if_pos hcaret]
    cases room with
    | zero =>
        rw [Parser.outcome_openLevel_bind_of_full (by omega)]
        exact .fault
    | succ below =>
        rw [Parser.outcome_openLevel_bind (by omega)]
        apply Agrees.advance hstands.of_nesting.behind_eq
        · intro q hstands hnesting'
          apply (hdeeper below rfl hstands (hnesting'.trans (congrArg (· + 1) hnesting))).bind
          · intro exponent rest q _ hstands hnesting
            rw [Parser.outcome_closeLevel_bind, outcome_combine hstands.of_nesting]
            cases hjoin : join limit ending .pow base exponent rest with
            | error fault =>
                simp only [hjoin, error_bind]
                exact .fault
            | ok node =>
                simp only [hjoin, ok_bind]
                exact .tree hstands.of_nesting (by rw [hnesting, Nat.add_sub_cancel])
          · intro exponent rest fault q hfault
            exact Agrees.join_ahead hfault (.ahead hfault)
        · intro fault q hfault
          apply Agrees.of_eq_error
          simp only [Rule.deeper, strict_factor hfault, error_bind]
  · rw [if_neg hcaret, if_neg hcaret]
    exact .tree hstands hnesting

theorem follows_factor
    (hprimary : Follows ending nesting (Parser.phrase calls .primary)
      (Rule.primary limit ending (Rule.deeper limit ending room)))
    (hdeeper : FollowsDeeper ending nesting room calls .factor) :
    Follows ending nesting (Parser.phrase (calls + 1) .factor)
      (Rule.factor limit ending room).read := by
  intro p lexemes hstands hnesting
  rw [Parser.phrase, Rule.factor_eq]
  apply (hprimary hstands hnesting).bind
  · intro base rest q _ hstands hnesting
    exact agrees_power hroom hdeeper hstands hnesting
  · intro base rest fault q hfault
    exact .of_eq_error (strict_power hfault)

end

/-- The calls that a phrase needs besides those of the levels below it. -/
def Phrase.calls : Phrase → Nat
  | .expression => 4
  | .term => 3
  | .factor => 2
  | .primary => 1

theorem produces_height {phrase : Phrase} {room : Nat} {read : List Lexeme → Reading}
    (h : Produces (Fits phrase limit room) read) :
    Produces (fun _ tree => 0 < tree.height ∧ tree.height ≤ limit) read := by
  intro lexemes tree rest hread
  obtain ⟨used, hused, hheight, n, -, hderives⟩ := h hread
  exact ⟨used, hused, tree.height_eq ▸ hderives.height_pos, hheight⟩

/-- A level takes four calls, one of each phrase, so the induction on the calls goes through all
phrases at all levels. -/
theorem follows_phrase (phrase : Phrase) {room : Nat} (calls : Nat) (hroom : nesting + room = limit)
    (hcalls : 4 * room + phrase.calls ≤ calls) :
    Follows ending nesting (Parser.phrase calls phrase)
      (Rule.reading limit ending room phrase) := by
  induction calls generalizing phrase room nesting with
  | zero => cases phrase <;> simp [Phrase.calls] at hcalls
  | succ calls ih =>
      have hfactor : Produces (Fits .factor limit room) (Rule.factor limit ending room).read :=
        Rule.produces_factor limit_pos room
      cases phrase with
      | expression =>
          rw [Phrase.calls] at hcalls
          exact follows_chain (ih .term hroom (by rw [Phrase.calls]; omega))
            (strict_chain strict_factor) (produces_height (Rule.produces_term hfactor))
      | term =>
          rw [Phrase.calls] at hcalls
          exact follows_chain (ih .factor hroom (by rw [Phrase.calls]; omega)) strict_factor
            (produces_height hfactor)
      | factor =>
          rw [Phrase.calls] at hcalls
          apply follows_factor hroom (ih .primary hroom (by rw [Phrase.calls]; omega))
          rintro below rfl
          exact ih .factor (by omega) (by rw [Phrase.calls]; omega)
      | primary =>
          rw [Phrase.calls] at hcalls
          apply follows_primary hroom
          rintro below rfl
          exact ih .expression (by omega) (by rw [Phrase.calls]; omega)

namespace Parser

/-- Reads from the token in front to the end of the text with any budget of nested calls. -/
def toEnd (calls : Nat) : Parsing Tree.Measured := do
  let tree ← phrase calls .expression
  let p ← get
  if p.token.category = .mark .endOfInput then return tree
  else throw (.mismatch (.mark .endOfInput) p.token.category p.offset)

/-- Reads the whole text from its start with any budget of nested calls. -/
def wholeWithin (calls : Nat) : Parsing Tree.Measured := do
  modify fun p => { p with cursor := .ofText p.text, nesting := 0 }
  advance
  toEnd calls

theorem whole_eq_wholeWithin : whole = wholeWithin budget := rfl

end Parser

/-- Behind the whole expression the end of the input has to stand. -/
theorem answer_toEnd {calls : Nat} (hcalls : Parser.budget ≤ calls)
    (hstands : p.Stands ending lexemes) (hnesting : p.nesting = 0) :
    ((Parser.toEnd calls).outcome p).1 = Script.parse ⟨lexemes, ending⟩ := by
  have hread : Agrees ending 0
      ((Rule.expression limit ending (Rule.factor limit ending limit)).read lexemes)
      ((Parser.phrase calls .expression).outcome p) :=
    follows_phrase .expression calls (Nat.zero_add limit) hcalls hstands hnesting
  rw [Script.parse, Parser.toEnd]
  generalize (Rule.expression limit ending (Rule.factor limit ending limit)).read lexemes = answer
    at hread ⊢
  generalize houtcome : (Parser.phrase calls .expression).outcome p = result at hread
  cases hread with
  | fault =>
      rw [Parsing.outcome_bind_of_error houtcome]
      rfl
  | @tree tree rest q hstands hnesting =>
      rw [Parsing.outcome_bind_of_ok houtcome, Parsing.outcome_get_bind]
      simp only [ok_bind, hstands.front_eq]
      split <;> rfl
  | @ahead tree rest fault q hfault =>
      rw [Parsing.outcome_bind_of_error houtcome]
      simp only [ok_bind, hfault, error_bind]

end

/-- Whatever became of earlier calls, a parser with budget enough answers the tree of its text or
its first fault. -/
theorem Parser.answer_wholeWithin {calls : Nat} (hcalls : budget ≤ calls) (p : Parser) :
    ((wholeWithin calls).outcome p).1 = Calculator.parse p.text := by
  let start : Parser := { p with cursor := .ofText p.text, nesting := 0 }
  have hbehind : Script.behind start.cursor =
      ⟨(Script.ofText p.text).lexemes, (Script.ofText p.text).ending⟩ := rfl
  have hwhole : (wholeWithin calls).outcome p =
      Parsing.outcome (advance >>= fun _ => toEnd calls) start := rfl
  rw [hwhole]
  rcases outcome_advance hbehind with ⟨q, hadvance, hstands, hnesting⟩ |
    ⟨fault, q, hadvance, hfault⟩
  · rw [Parsing.outcome_bind_of_ok hadvance]
    exact answer_toEnd hcalls hstands hnesting
  · rw [Parsing.outcome_bind_of_error hadvance, Calculator.parse, Script.parse,
      strict_expression hfault, error_bind]

theorem Parser.parse_eq (p : Parser) : p.parse.1 = Calculator.parse p.text := by
  rw [Parser.parse, whole_eq_wholeWithin]
  exact answer_wholeWithin (Nat.le_refl budget) p

end Calculator
