import Calculator.Proofs.CallDepth
import Mathlib.Control.Monad.Writer

/-!
The levels that a parser counts. A parser that is watched notes each step with the nesting behind
it, and of each call of a phrase the steps in it and how it ended; it answers as the parser that is
not watched. A step opens a level, closes one or leaves them as they are, so the steps of a call are
a walk: it goes from the nesting at the entry of the call up and down, but never below this nesting
nor above the first one that is too deep, and it comes back if the call answers a tree. A fault ends
the walk where it stands. So the nesting behind a parse may be any, and the next parse starts over.
-/

namespace Calculator

/-- What a step does to the open levels. -/
inductive Move
  | opens
  | closes
  | stays
deriving DecidableEq

/-- A move from one nesting to another, which closes no level where none is open. -/
inductive Move.Leads : Move → Nat → Nat → Prop
  | opens (n : Nat) : Leads .opens n (n + 1)
  | closes (n : Nat) : Leads .closes (n + 1) n
  | stays (n : Nat) : Leads .stays n n

/-- Moves one after the other, each with the nesting behind it. -/
inductive Walk : Nat → List (Move × Nat) → Nat → Prop
  | nil (n : Nat) : Walk n [] n
  | cons {before between after : Nat} {move : Move} {moves : List (Move × Nat)}
      (hmove : move.Leads before between) (hmoves : Walk between moves after) :
      Walk before ((move, between) :: moves) after

namespace Walk

variable {before between after : Nat} {moves moves' : List (Move × Nat)}

theorem append (h : Walk before moves between) (h' : Walk between moves' after) :
    Walk before (moves ++ moves') after := by
  induction h with
  | nil n => exact h'
  | cons hmove hmoves ih => exact .cons hmove (ih h')

/-- The nesting counts the levels that were opened and not closed. -/
theorem count_opens (h : Walk before moves after) :
    before + (moves.map Prod.fst).count .opens = after + (moves.map Prod.fst).count .closes := by
  induction h with
  | nil n => rfl
  | cons hmove hmoves ih =>
      rw [List.map_cons, List.count_cons, List.count_cons]
      cases hmove <;> simp only [beq_self_eq_true, if_true, reduceCtorEq, beq_iff_eq, if_false] <;>
        omega

end Walk

/-- Moves that go neither below a floor nor beyond the first nesting that is too deep. -/
structure StaysAbove (floor before : Nat) (moves : List (Move × Nat)) (after : Nat) : Prop where
  walk : Walk before moves after
  between : ∀ n ∈ moves.map Prod.snd, floor ≤ n ∧ n ≤ limit + 1

namespace StaysAbove

variable {floor before between after : Nat} {moves moves' : List (Move × Nat)}

theorem nil (floor n : Nat) : StaysAbove floor n [] n := ⟨.nil n, List.forall_mem_nil _⟩

theorem move {move : Move} (hmove : move.Leads before after) (hfloor : floor ≤ after)
    (hlimit : after ≤ limit + 1) : StaysAbove floor before [(move, after)] after :=
  ⟨.cons hmove (.nil after), List.forall_mem_singleton.mpr ⟨hfloor, hlimit⟩⟩

theorem append (h : StaysAbove floor before moves between)
    (h' : StaysAbove floor between moves' after) :
    StaysAbove floor before (moves ++ moves') after := by
  refine ⟨h.walk.append h'.walk, ?_⟩
  rw [List.map_append]
  exact List.forall_mem_append.mpr ⟨h.between, h'.between⟩

theorem of_le {lower : Nat} (hle : lower ≤ floor) (h : StaysAbove floor before moves after) :
    StaysAbove lower before moves after := by
  refine ⟨h.walk, fun n hn => ?_⟩
  obtain ⟨hfloor, hlimit⟩ := h.between n hn
  exact ⟨hle.trans hfloor, hlimit⟩

end StaysAbove

/-- A call of a phrase from its entry to its end, the calls that it makes included. -/
structure Visit where
  phrase : Phrase
  before : Nat
  moves : List (Move × Nat)
  answers : Bool
  after : Nat

/-- A call that comes back to the nesting at its entry if it answers a tree, and that closes no
level that was open before. -/
structure Visit.Balanced (visit : Visit) : Prop where
  before_le : visit.before ≤ limit
  moves : StaysAbove visit.before visit.before visit.moves visit.after
  returns : visit.answers → visit.after = visit.before

/-- What is noted of a run: its moves, and the calls that came to their end. -/
structure Log where
  moves : List (Move × Nat)
  visits : List Visit

instance : EmptyCollection Log := ⟨⟨[], []⟩⟩

instance : Append Log := ⟨fun a b => ⟨a.moves ++ b.moves, a.visits ++ b.visits⟩⟩

/-- What is noted of a run from one nesting to another that never goes below a floor. -/
structure Log.Leads (floor before after : Nat) (log : Log) : Prop where
  moves : StaysAbove floor before log.moves after
  visits : ∀ visit ∈ log.visits, visit.Balanced

theorem Log.Leads.nil (floor n : Nat) : (∅ : Log).Leads floor n n :=
  ⟨.nil floor n, List.forall_mem_nil _⟩

theorem Log.Leads.append {floor before between after : Nat} {log log' : Log}
    (h : log.Leads floor before between) (h' : log'.Leads floor between after) :
    (log ++ log').Leads floor before after :=
  ⟨h.moves.append h'.moves, List.forall_mem_append.mpr ⟨h.visits, h'.visits⟩⟩

/-! ### The parser that is watched -/

abbrev Watched (α : Type) := ExceptT Fault (WriterT Log (StateM Parser)) α

namespace Watched

variable {α β : Type}

/-- A step with a note about the parser behind it. -/
def watch (note : Parser → Log) (x : Parsing α) : Watched α :=
  ExceptT.mk (WriterT.mk fun p => (((x.outcome p).1, note (x.outcome p).2), (x.outcome p).2))

/-- A step that is not noted, as it has nothing to do with levels. -/
def quiet (x : Parsing α) : Watched α := watch (fun _ => ∅) x

def step (move : Move) (x : Parsing α) : Watched α :=
  watch (fun p => ⟨[(move, p.nesting)], []⟩) x

/-- The answer, what was noted, and the parser behind. -/
def outcome (x : Watched α) (p : Parser) : (Except Fault α × Log) × Parser := x.run.run.run p

/-- A call of a phrase, noted when it ends. -/
def call (phrase : Phrase) (x : Watched α) : Watched α :=
  ExceptT.mk (WriterT.mk fun p =>
    let ((answer, log), q) := x.outcome p
    let visit : Visit := ⟨phrase, p.nesting, log.moves, answer.isOk, q.nesting⟩
    ((answer, ⟨log.moves, log.visits ++ [visit]⟩), q))

def chain (link : Token → Option Link) (operand : Watched Tree.Measured) :
    (count : Nat) → Tree.Measured → Watched Tree.Measured
  | 0, _ => throw .other
  | count + 1, left => do
    match link (← quiet get).token with
    | none => return left
    | some found =>
      if found.written then step .stays Parser.advance
      let right ← operand
      let node ← quiet (Parser.combine found.operator left right)
      chain link operand count node

def phrase : (calls : Nat) → Phrase → Watched Tree.Measured
  | 0, phrase => call phrase (throw .other)
  | calls + 1, .expression => call .expression do
    let first ← phrase calls .term
    chain sumLink (phrase calls .term) limit first
  | calls + 1, .term => call .term do
    let first ← phrase calls .factor
    chain productLink (phrase calls .factor) limit first
  | calls + 1, .factor => call .factor do
    let base ← phrase calls .primary
    if (← quiet get).token.category = .mark .caret then
      step .opens Parser.openLevel
      step .stays Parser.advance
      let exponent ← phrase calls .factor
      step .closes Parser.closeLevel
      quiet (Parser.combine .pow base exponent)
    else return base
  | calls + 1, .primary => call .primary do
    let p ← quiet get
    match p.token with
    | .number value =>
      step .stays Parser.advance
      return .literal value
    | .mark .opening _ =>
      step .opens Parser.openLevel
      step .stays Parser.advance
      let inner ← phrase calls .expression
      step .stays (Parser.expect (.mark .closing))
      step .closes Parser.closeLevel
      return inner
    | token => throw (.unexpected token.category p.offset)

/-- Reads from the cursor on to the end of the text. -/
def toEnd : Watched Tree.Measured := do
  step .stays Parser.advance
  let tree ← phrase Parser.budget .expression
  let p ← quiet get
  if p.token.category = .mark .endOfInput then return tree
  else throw (.mismatch (.mark .endOfInput) p.token.category p.offset)

/-- Reads the whole text from its start, where no level is open. -/
def whole : Watched Tree.Measured := do
  quiet (modify fun p => { p with cursor := .ofText p.text, nesting := 0 })
  toEnd

theorem outcome_bind (x : Watched α) (next : α → Watched β) (p : Parser) :
    (x >>= next).outcome p =
      match x.outcome p with
      | ((.ok a, log), q) =>
        let ((answer, log'), q') := (next a).outcome q
        ((answer, log ++ log'), q')
      | ((.error fault, log), q) => ((.error fault, log ++ ∅), q) := by
  unfold outcome
  simp only [ExceptT.run_bind, WriterT.run_bind, StateT.run_bind]
  rcases x.run.run.run p with ⟨⟨_ | _, _⟩, _⟩ <;> rfl

/-- A step of which nothing is noted. -/
def forget (x : Watched α) : Parsing α :=
  ExceptT.mk fun p => ((x.outcome p).1.1, (x.outcome p).2)

theorem forget_call (phrase : Phrase) (x : Watched α) : (call phrase x).forget = x.forget := rfl

theorem forget_bind {x : Watched α} {y : Parsing α} {next : α → Watched β} {next' : α → Parsing β}
    (h : x.forget = y) (hnext : ∀ a, (next a).forget = next' a) :
    (x >>= next).forget = y >>= next' := by
  funext p
  change ((((x >>= next).outcome p).1.1, ((x >>= next).outcome p).2) : Except Fault β × Parser) =
    (y >>= next').outcome p
  have hforget : y.outcome p = ((x.outcome p).1.1, (x.outcome p).2) := h ▸ rfl
  rw [outcome_bind, Parsing.outcome_bind, hforget]
  rcases x.outcome p with ⟨⟨fault | a, log⟩, q⟩
  · rfl
  · exact congrFun (hnext a) q

theorem forget_chain (link : Token → Option Link) {operand : Watched Tree.Measured}
    {operand' : Parsing Tree.Measured} (h : operand.forget = operand') (count : Nat)
    (left : Tree.Measured) :
    (chain link operand count left).forget = Parser.chain link operand' count left := by
  induction count generalizing left with
  | zero => rfl
  | succ count ih =>
      apply forget_bind rfl
      intro p
      cases link p.token with
      | none => rfl
      | some found =>
          have hrest := forget_bind h fun right =>
            forget_bind (x := quiet (Parser.combine found.operator left right)) rfl ih
          obtain ⟨op, written⟩ := found
          cases written with
          | false => exact hrest
          | true => exact forget_bind rfl fun _ => hrest

theorem forget_phrase (calls : Nat) (phrase : Phrase) :
    (Watched.phrase calls phrase).forget = Parser.phrase calls phrase := by
  induction calls generalizing phrase with
  | zero => rfl
  | succ calls ih =>
      cases phrase with
      | expression => exact forget_bind (ih .term) (forget_chain sumLink (ih .term) limit)
      | term => exact forget_bind (ih .factor) (forget_chain productLink (ih .factor) limit)
      | factor =>
          apply forget_bind (ih .primary)
          intro base
          apply forget_bind rfl
          intro p
          by_cases hcaret : p.token.category = .mark .caret
          · rw [if_pos hcaret, if_pos hcaret]
            refine forget_bind rfl fun _ => forget_bind rfl fun _ => ?_
            exact forget_bind (ih .factor) fun exponent => forget_bind rfl fun _ => rfl
          · rw [if_neg hcaret, if_neg hcaret]
            rfl
      | primary =>
          rw [Watched.phrase, forget_call, Parser.phrase]
          apply forget_bind rfl
          rintro ⟨text, cursor, token, offset, nesting⟩
          cases token with
          | number value => exact forget_bind rfl fun _ => rfl
          | mark m byte =>
              cases m with
              | opening =>
                  refine forget_bind rfl fun _ => forget_bind rfl fun _ => ?_
                  apply forget_bind (ih .expression)
                  intro inner
                  exact forget_bind rfl fun _ => forget_bind rfl fun _ => rfl
              | plus | minus | star | slash | caret | closing | endOfInput | other => rfl

theorem forget_whole : whole.forget = Parser.whole := by
  refine forget_bind rfl fun _ => forget_bind rfl fun _ => ?_
  apply forget_bind (forget_phrase Parser.budget .expression)
  intro tree
  apply forget_bind rfl
  intro p
  split <;> rfl

theorem text_advance (p : Parser) : (Parser.advance.outcome p).2.text = p.text := by
  cases hresult : p.cursor.next.result with
  | ok token => rw [Parser.outcome_advance_of_ok hresult]
  | error fault => rw [Parser.outcome_advance_of_error hresult]

/-- A step that keeps the text and leads from one nesting to another, or stops at a fault that lies
no lower than the floor. -/
def Leads (floor before after : Nat) (x : Watched α) : Prop :=
  ∀ p, p.nesting = before →
    (x.outcome p).1.2.Leads floor before (x.outcome p).2.nesting ∧
      (x.outcome p).2.text = p.text ∧
        ∀ a, (x.outcome p).1.1 = .ok a → (x.outcome p).2.nesting = after

namespace Leads

variable {floor before between after : Nat}

theorem pure (a : α) : (pure a : Watched α).Leads floor before before := by
  rintro p rfl
  exact ⟨.nil floor p.nesting, rfl, fun _ _ => rfl⟩

theorem throw (fault : Fault) : (throw fault : Watched α).Leads floor before after := by
  rintro p rfl
  exact ⟨.nil floor p.nesting, rfl, fun _ hok => nomatch hok⟩

/-- What comes behind a step matters for the answers that the step can give. -/
theorem bind_of_answer {x : Watched α} {next : α → Watched β} (h : x.Leads floor before between)
    (hnext : ∀ p a, p.nesting = before → (x.outcome p).1.1 = .ok a →
      (next a).Leads floor between after) : (x >>= next).Leads floor before after := by
  intro p hnesting
  obtain ⟨hlog, htext, hreturns⟩ := h p hnesting
  have hrest := hnext p
  rw [outcome_bind]
  generalize x.outcome p = result at hlog htext hreturns hrest
  obtain ⟨⟨fault | a, log⟩, q⟩ := result
  · exact ⟨hlog.append (.nil floor q.nesting), htext, fun _ hok => nomatch hok⟩
  · have hbetween := hreturns a rfl
    obtain ⟨hlog', htext', hreturns'⟩ := hrest a hnesting rfl q hbetween
    exact ⟨(hbetween ▸ hlog).append hlog', htext'.trans htext, hreturns'⟩

theorem bind {x : Watched α} {next : α → Watched β} (h : x.Leads floor before between)
    (hnext : ∀ a, (next a).Leads floor between after) : (x >>= next).Leads floor before after :=
  h.bind_of_answer fun _ a _ _ => hnext a

theorem quiet {x : Parsing α} (h : ∀ p, (x.outcome p).2 = p) :
    (quiet x).Leads floor before before := by
  rintro p rfl
  have hparser : ((Watched.quiet x).outcome p).2 = p := h p
  rw [hparser]
  exact ⟨.nil floor p.nesting, rfl, fun _ _ => rfl⟩

theorem get : (Watched.quiet get).Leads floor before before := quiet fun _ => rfl

theorem combine (op : Operator) (left right : Tree.Measured) :
    (Watched.quiet (Parser.combine op left right)).Leads floor before before := by
  apply quiet
  intro p
  rw [Parser.combine]
  split <;> rfl

theorem step {move : Move} {x : Parsing α} (hfloor : floor ≤ after) (hlimit : after ≤ limit + 1)
    (hmove : move.Leads before after)
    (h : ∀ p, p.nesting = before →
      (x.outcome p).2.nesting = after ∧ (x.outcome p).2.text = p.text) :
    (step move x).Leads floor before after := by
  rintro p rfl
  obtain ⟨hnesting, htext⟩ := h p rfl
  have hlog : ((Watched.step move x).outcome p).1.2 = ⟨[(move, (x.outcome p).2.nesting)], []⟩ := rfl
  have hparser : ((Watched.step move x).outcome p).2 = (x.outcome p).2 := rfl
  rw [hlog, hparser, hnesting]
  exact ⟨⟨.move hmove hfloor hlimit, List.forall_mem_nil _⟩, htext, fun _ _ => rfl⟩

section
variable (hfloor : floor ≤ before) (hlimit : before ≤ limit)
include hfloor hlimit

theorem advance : (Watched.step .stays Parser.advance).Leads floor before before := by
  refine step hfloor (Nat.le_succ_of_le hlimit) (.stays before) ?_
  rintro p rfl
  exact ⟨Parser.nesting_advance p, text_advance p⟩

theorem expect (expected : Category) :
    (Watched.step .stays (Parser.expect expected)).Leads floor before before := by
  refine step hfloor (Nat.le_succ_of_le hlimit) (.stays before) ?_
  rintro p rfl
  rw [Parser.expect, Parsing.outcome_get_bind]
  split
  · exact ⟨Parser.nesting_advance p, text_advance p⟩
  · exact ⟨rfl, rfl⟩

/-- A level that is one too many is counted before it is a fault. -/
theorem openLevel_bind {next : Unit → Watched α}
    (hnext : before + 1 ≤ limit → (next ()).Leads floor (before + 1) after) :
    (Watched.step .opens Parser.openLevel >>= next).Leads floor before after := by
  have hopen : (Watched.step .opens Parser.openLevel).Leads floor before (before + 1) := by
    refine step (Nat.le_succ_of_le hfloor) (Nat.succ_le_succ hlimit) (.opens before) ?_
    rintro p rfl
    rw [Parser.outcome_openLevel]
    exact ⟨rfl, rfl⟩
  apply hopen.bind_of_answer
  rintro p _ rfl hanswer
  apply hnext
  by_contra hdeep
  have hfault : (Parser.openLevel.outcome p).1 = .error (.tooDeep p.offset) := by
    rw [Parser.outcome_openLevel, if_pos (Nat.lt_of_not_le hdeep)]
  cases hfault.symm.trans hanswer

theorem closeLevel : (Watched.step .closes Parser.closeLevel).Leads floor (before + 1) before := by
  refine step hfloor (Nat.le_succ_of_le hlimit) (.closes before) ?_
  intro p hnesting
  exact ⟨congrArg (· - 1) hnesting, rfl⟩

/-- A call is noted as one that stays above the nesting at its entry. -/
theorem call {x : Watched α} (phrase : Phrase) (h : x.Leads before before before) :
    (call phrase x).Leads floor before before := by
  rintro p rfl
  obtain ⟨hlog, htext, hreturns⟩ := h p rfl
  have hvisit : Visit.Balanced ⟨phrase, p.nesting, (x.outcome p).1.2.moves,
      (x.outcome p).1.1.isOk, (x.outcome p).2.nesting⟩ := by
    refine ⟨hlimit, hlog.moves, fun hanswers => ?_⟩
    cases hanswer : (x.outcome p).1.1 with
    | ok a => exact hreturns a hanswer
    | error fault =>
        rw [hanswer] at hanswers
        cases hanswers
  have hvisits := List.forall_mem_append.mpr ⟨hlog.visits, List.forall_mem_singleton.mpr hvisit⟩
  exact ⟨⟨hlog.moves.of_le hfloor, hvisits⟩, htext, hreturns⟩

theorem chain (link : Token → Option Link) {operand : Watched Tree.Measured}
    (h : operand.Leads floor before before) (count : Nat) (left : Tree.Measured) :
    (chain link operand count left).Leads floor before before := by
  induction count generalizing left with
  | zero => exact throw .other
  | succ count ih =>
      apply get.bind
      intro p
      cases link p.token with
      | none => exact pure left
      | some found =>
          have hrest := h.bind fun right => (combine found.operator left right).bind ih
          obtain ⟨op, written⟩ := found
          cases written with
          | false => exact hrest
          | true => exact (advance hfloor hlimit).bind fun _ => hrest

end

/-- A call of a phrase at any nesting within the limit leads back to it. -/
theorem phrase (calls : Nat) (phrase : Phrase) (hfloor : floor ≤ before) (hlimit : before ≤ limit) :
    (Watched.phrase calls phrase).Leads floor before before := by
  induction calls generalizing phrase floor before with
  | zero => exact call hfloor hlimit phrase (throw .other)
  | succ calls ih =>
      have hle := Nat.le_refl before
      cases phrase with
      | expression =>
          have hterm := ih .term hle hlimit
          exact call hfloor hlimit _ (hterm.bind (chain hle hlimit sumLink hterm limit))
      | term =>
          have hfactor := ih .factor hle hlimit
          exact call hfloor hlimit _ (hfactor.bind (chain hle hlimit productLink hfactor limit))
      | factor =>
          apply call hfloor hlimit
          apply (ih .primary hle hlimit).bind
          intro base
          apply get.bind
          intro p
          by_cases hcaret : p.token.category = .mark .caret
          · rw [if_pos hcaret]
            apply openLevel_bind hle hlimit
            intro hdeeper
            have habove := Nat.le_succ before
            apply (advance habove hdeeper).bind
            intro _
            apply (ih .factor habove hdeeper).bind
            intro exponent
            exact (closeLevel hle hlimit).bind fun _ => combine .pow base exponent
          · rw [if_neg hcaret]
            exact pure base
      | primary =>
          apply call hfloor hlimit
          apply get.bind
          rintro ⟨text, cursor, token, offset, nesting⟩
          cases token with
          | number value => exact (advance hle hlimit).bind fun _ => pure _
          | mark m byte =>
              cases m with
              | opening =>
                  apply openLevel_bind hle hlimit
                  intro hdeeper
                  have habove := Nat.le_succ before
                  apply (advance habove hdeeper).bind
                  intro _
                  apply (ih .expression habove hdeeper).bind
                  intro inner
                  apply (expect habove hdeeper _).bind
                  intro _
                  exact (closeLevel hle hlimit).bind fun _ => pure inner
              | plus | minus | star | slash | caret | closing | endOfInput | other => exact throw _

theorem toEnd : Watched.toEnd.Leads 0 0 0 := by
  have hzero := Nat.zero_le limit
  apply (advance (Nat.le_refl 0) hzero).bind
  intro _
  apply (phrase Parser.budget .expression (Nat.le_refl 0) hzero).bind
  intro tree
  apply get.bind
  intro p
  split
  · exact pure tree
  · exact throw _

end Leads

end Watched

namespace Parser

/-- A parse that is watched. -/
def watch (p : Parser) : (Except Fault Tree.Measured × Log) × Parser := Watched.whole.outcome p

theorem watch_eq (p : Parser) : (p.watch.1.1, p.watch.2) = p.parse :=
  congrArg (Parsing.outcome · p) Watched.forget_whole

/-- Reading starts over, so what the parser was left in says nothing about what it does. -/
theorem leads_watch (p : Parser) :
    p.watch.1.2.Leads 0 0 p.watch.2.nesting ∧ p.watch.2.text = p.text := by
  let start : Parser := { p with cursor := .ofText p.text, nesting := 0 }
  have hwhole : p.watch = Watched.toEnd.outcome start := by
    rw [watch, Watched.whole, Watched.outcome_bind]
    rfl
  obtain ⟨hlog, htext, -⟩ := Watched.Leads.toEnd start rfl
  rw [hwhole]
  exact ⟨hlog, htext⟩

theorem text_parse (p : Parser) : p.parse.2.text = p.text := by
  rw [← p.watch_eq]
  exact p.leads_watch.2

theorem parseTimes_eq (p : Parser) (count : Nat) :
    p.parseTimes count = List.replicate count (ofText p.text).parse.1 := by
  induction count generalizing p with
  | zero => rfl
  | succ count ih =>
      rw [parseTimes, ih, text_parse, List.replicate_succ, parse_eq, parse_eq]
      rfl

/-- The calls of phrases in a parse, in the order in which they end. -/
def visits (p : Parser) : List Visit := p.watch.1.2.visits

/-- Whatever state earlier calls left a parser in, each call answers as a new parser of its text
does. In a parse all calls of phrases move from one nesting to the next, never below the nesting at
their entry and never above the first one that is too deep, and those that answer a tree have closed
as many levels as they opened, however many these were. -/
theorem levels_are_balanced (p : Parser) :
    (∀ count, p.parseTimes count = List.replicate count (ofText p.text).parse.1) ∧
    (p.watch.1.1, p.watch.2) = p.parse ∧
    ∀ visit ∈ p.visits, visit.before ≤ limit ∧ Walk visit.before visit.moves visit.after ∧
      (∀ n ∈ visit.moves.map Prod.snd, visit.before ≤ n ∧ n ≤ limit + 1) ∧
      (visit.answers → visit.after = visit.before ∧
        (visit.moves.map Prod.fst).count .opens = (visit.moves.map Prod.fst).count .closes) := by
  refine ⟨p.parseTimes_eq, p.watch_eq, fun visit hvisit => ?_⟩
  obtain ⟨hbefore, ⟨hwalk, hbetween⟩, hreturns⟩ := p.leads_watch.1.visits visit hvisit
  refine ⟨hbefore, hwalk, hbetween, fun hanswers => ?_⟩
  have hafter := hreturns hanswers
  have hcount := hwalk.count_opens
  rw [hafter] at hcount
  exact ⟨hafter, Nat.add_left_cancel hcount⟩

/-- Two groups and an exponent one after the other, and a parser whose last call ended at a fault
inside of two groups. -/
theorem levels_are_balanced_thrice :
    (∃ visit ∈ (ofText (ascii "(1)(2)^3")).visits, visit.phrase = .term ∧ visit.after = 0 ∧
      (visit.moves.map Prod.fst).count .opens = 3 ∧
      (visit.moves.map Prod.fst).count .closes = 3) ∧
    (ofText (ascii "((1")).parse.2.nesting = 2 ∧
    (ofText (ascii "((1")).parse.2.parseTimes 2 =
      List.replicate 2 (ofText (ascii "((1")).parse.1 := by
  refine ⟨?_, by decide +kernel, ?_⟩
  · have hterm : ∃ visit ∈ (ofText (ascii "(1)(2)^3")).visits, visit.phrase = .term ∧
        visit.answers ∧ visit.before = 0 ∧ (visit.moves.map Prod.fst).count .opens = 3 := by
      decide +kernel
    obtain ⟨visit, hvisit, hphrase, hanswers, hbefore, hopens⟩ := hterm
    obtain ⟨-, -, -, hreturns⟩ := (levels_are_balanced _).2.2 visit hvisit
    obtain ⟨hafter, hcloses⟩ := hreturns hanswers
    exact ⟨visit, hvisit, hphrase, hafter.trans hbefore, hopens, hcloses.symm.trans hopens⟩
  · rw [(levels_are_balanced _).1, text_parse]
    rfl

end Parser

end Calculator
