import Calculator.Proofs.ParserAgreement
import Calculator.Proofs.StageFaults

/-!
How deep the calls of a parser nest. A parser that notes, at the entry of every call of a phrase,
the calls under way answers as the parser that notes nothing. Whatever its budget, each of the noted
calls stands on one that makes it: a phrase calls the next one at the same nesting, or opens a level
and starts anew. So no more than four calls are under way for each open level, however long the
chains are, and a budget of four calls for each level never runs out.
-/

namespace Calculator

/-- A call of a phrase and the number of levels that are open when it is made. -/
structure Call where
  phrase : Phrase
  nesting : Nat
deriving DecidableEq

/-- The place of a phrase among those that call one another at one nesting. -/
def Phrase.rank : Phrase → Nat
  | .expression => 1
  | .term => 2
  | .factor => 3
  | .primary => 4

/-- Which calls a call makes: those for the operands of its phrase, and those behind a caret or an
opening parenthesis, with one more level open. -/
inductive Call.Makes : Call → Call → Prop
  | term {n : Nat} : Makes ⟨.expression, n⟩ ⟨.term, n⟩
  | factor {n : Nat} : Makes ⟨.term, n⟩ ⟨.factor, n⟩
  | primary {n : Nat} : Makes ⟨.factor, n⟩ ⟨.primary, n⟩
  | exponent {n : Nat} : Makes ⟨.factor, n⟩ ⟨.factor, n + 1⟩
  | group {n : Nat} : Makes ⟨.primary, n⟩ ⟨.expression, n + 1⟩

/-- The place of a call among those under way: all four phrases at one nesting come before those
with one more level open. -/
def Call.place (call : Call) : Nat := 4 * call.nesting + call.phrase.rank

theorem Call.Makes.place_lt {caller callee : Call} (h : caller.Makes callee) :
    caller.place < callee.place := by
  cases h <;> simp only [Call.place, Phrase.rank] <;> omega

/-- The calls under way in a parse, the innermost one first: each is made by the one behind it, the
outermost one is that of the whole expression. -/
inductive UnderWay : List Call → Prop
  | outermost : UnderWay [⟨.expression, 0⟩]
  | call {caller callee : Call} {callers : List Call} (hcallers : UnderWay (caller :: callers))
      (hmakes : caller.Makes callee) (hlimit : callee.nesting ≤ limit) :
      UnderWay (callee :: caller :: callers)

namespace UnderWay

variable {call : Call} {callers : List Call}

theorem nesting_le (h : UnderWay (call :: callers)) : call.nesting ≤ limit := by
  cases h with
  | outermost => exact Nat.zero_le limit
  | call hcallers hmakes hlimit => exact hlimit

/-- The calls under way have strictly growing places. -/
theorem pairwise {calls : List Call} (h : UnderWay calls) :
    calls.Pairwise fun call caller => caller.place < call.place := by
  induction h with
  | outermost => exact List.pairwise_singleton _ _
  | @call caller callee callers hcallers hmakes hlimit ih =>
      refine List.pairwise_cons.mpr ⟨?_, ih⟩
      intro other hother
      rcases List.mem_cons.mp hother with rfl | hother
      · exact hmakes.place_lt
      · exact (List.rel_of_pairwise_cons ih hother).trans hmakes.place_lt

/-- No phrase is under way twice at one nesting. -/
theorem nodup {calls : List Call} (h : UnderWay calls) : calls.Nodup :=
  h.pairwise.imp fun hlt heq => absurd (heq ▸ hlt) (Nat.lt_irrefl _)

theorem length_le {calls : List Call} (h : UnderWay calls) :
    ∀ call ∈ calls.head?, calls.length ≤ call.place := by
  induction h with
  | outermost =>
      rintro _ ⟨⟩
      exact Nat.le_refl 1
  | call hcallers hmakes hlimit ih =>
      rintro _ ⟨⟩
      exact Nat.succ_le_of_lt (Nat.lt_of_le_of_lt (ih _ rfl) hmakes.place_lt)

theorem length_le_budget (h : UnderWay (call :: callers)) :
    (call :: callers).length ≤ Parser.budget := by
  have hrank : call.phrase.rank ≤ 4 := by cases call.phrase <;> decide
  calc (call :: callers).length
      ≤ 4 * call.nesting + call.phrase.rank := h.length_le call rfl
    _ ≤ 4 * limit + 4 := Nat.add_le_add (Nat.mul_le_mul_left 4 h.nesting_le) hrank

end UnderWay

namespace Parser

theorem outcome_openLevel (p : Parser) : openLevel.outcome p =
    (if limit < p.nesting + 1 then .error (.tooDeep p.offset) else .ok (),
      { p with nesting := p.nesting + 1 }) := by
  change (if limit < p.nesting + 1 then throw _ else pure () : Parsing Unit).outcome _ = _
  split <;> rfl

/-- To advance changes no level, even if there is a fault. -/
theorem nesting_advance (p : Parser) : (advance.outcome p).2.nesting = p.nesting := by
  cases hresult : p.cursor.next.result with
  | ok token => rw [outcome_advance_of_ok hresult]
  | error fault => rw [outcome_advance_of_error hresult]

end Parser

/-! ### The parser that notes its calls -/

/-- A step of a parser that notes calls: beside the parser stand the calls under way at the entries
of all calls so far. -/
abbrev Noting (α : Type) := ExceptT Fault (StateM (Parser × List (List Call))) α

namespace Noting

/-- A step that makes no calls. -/
def silent {α : Type} (x : Parsing α) : Noting α :=
  ExceptT.mk fun (p, noted) => (((x.outcome p).1), ((x.outcome p).2, noted))

/-- Notes a call on top of its callers; the answer is the calls then under way. -/
def enter (callers : List Call) (phrase : Phrase) : Noting (List Call) := do
  let (p, noted) ← get
  set (p, (⟨phrase, p.nesting⟩ :: callers) :: noted)
  return ⟨phrase, p.nesting⟩ :: callers

def chain (link : Token → Option Link) (operand : Noting Tree.Measured) :
    (count : Nat) → Tree.Measured → Noting Tree.Measured
  | 0, _ => throw .other
  | count + 1, left => do
    match link (← silent get).token with
    | none => return left
    | some found =>
      if found.written then silent Parser.advance
      let right ← operand
      let node ← silent (Parser.combine found.operator left right)
      chain link operand count node

/-- Reads a phrase with a budget of nested calls, the callers of this call given. A call is noted
even if the budget does not allow for it. -/
def phrase : (calls : Nat) → (callers : List Call) → Phrase → Noting Tree.Measured
  | 0, callers, phrase => do
    let _ ← enter callers phrase
    throw .other
  | calls + 1, callers, .expression => do
    let underWay ← enter callers .expression
    let first ← phrase calls underWay .term
    chain sumLink (phrase calls underWay .term) limit first
  | calls + 1, callers, .term => do
    let underWay ← enter callers .term
    let first ← phrase calls underWay .factor
    chain productLink (phrase calls underWay .factor) limit first
  | calls + 1, callers, .factor => do
    let underWay ← enter callers .factor
    let base ← phrase calls underWay .primary
    if (← silent get).token.category = .mark .caret then
      silent Parser.openLevel
      silent Parser.advance
      let exponent ← phrase calls underWay .factor
      silent Parser.closeLevel
      silent (Parser.combine .pow base exponent)
    else return base
  | calls + 1, callers, .primary => do
    let underWay ← enter callers .primary
    let p ← silent get
    match p.token with
    | .number value =>
      silent Parser.advance
      return .literal value
    | .mark .opening _ =>
      silent Parser.openLevel
      silent Parser.advance
      let inner ← phrase calls underWay .expression
      silent (Parser.expect (.mark .closing))
      silent Parser.closeLevel
      return inner
    | token => throw (.unexpected token.category p.offset)

/-- Reads the whole text from its start, the call of its expression made by no other. -/
def wholeWithin (calls : Nat) : Noting Tree.Measured := do
  silent (modify fun p => { p with cursor := .ofText p.text, nesting := 0 })
  silent Parser.advance
  let tree ← phrase calls [] .expression
  let p ← silent get
  if p.token.category = .mark .endOfInput then return tree
  else throw (.mismatch (.mark .endOfInput) p.token.category p.offset)

section
variable {α β : Type}

/-- The answer of a step with the parser and the notes behind it. -/
def outcome (x : Noting α) (p : Parser) (noted : List (List Call)) :
    Except Fault α × Parser × List (List Call) :=
  x.run.run (p, noted)

theorem outcome_bind (x : Noting α) (next : α → Noting β) (p : Parser)
    (noted : List (List Call)) :
    (x >>= next).outcome p noted =
      match x.outcome p noted with
      | (.ok a, q, noted') => (next a).outcome q noted'
      | (.error fault, q, noted') => (.error fault, q, noted') := by
  simp only [outcome, ExceptT.run_bind, StateT.run_bind]
  rcases x.run.run (p, noted) with ⟨_ | _, _, _⟩ <;> rfl

theorem outcome_silent (x : Parsing α) (p : Parser) (noted : List (List Call)) :
    (silent x).outcome p noted = ((x.outcome p).1, (x.outcome p).2, noted) := rfl

/-- A step that answers as `y` does, whatever it notes. -/
def Mirrors (x : Noting α) (y : Parsing α) : Prop :=
  ∀ p noted, ∃ noted', x.outcome p noted = ((y.outcome p).1, (y.outcome p).2, noted')

namespace Mirrors

theorem silent (x : Parsing α) : (silent x).Mirrors x := fun _ noted => ⟨noted, rfl⟩

theorem throw (fault : Fault) : (throw fault : Noting α).Mirrors (throw fault) :=
  fun _ noted => ⟨noted, rfl⟩

theorem pure (a : α) : (pure a : Noting α).Mirrors (pure a) := fun _ noted => ⟨noted, rfl⟩

theorem bind {x : Noting α} {y : Parsing α} {next : α → Noting β} {next' : α → Parsing β}
    (h : x.Mirrors y) (hnext : ∀ a, (next a).Mirrors (next' a)) :
    (x >>= next).Mirrors (y >>= next') := by
  intro p notes
  obtain ⟨noted', houtcome⟩ := h p notes
  rw [outcome_bind, Parsing.outcome_bind, houtcome]
  rcases y.outcome p with ⟨fault | a, q⟩
  · exact ⟨noted', rfl⟩
  · exact hnext a q noted'

theorem enter_bind {callers : List Call} {phrase : Phrase} {next : List Call → Noting α}
    {y : Parsing α} (hnext : ∀ calls, (next calls).Mirrors y) :
    (enter callers phrase >>= next).Mirrors y :=
  fun p _ => hnext (⟨phrase, p.nesting⟩ :: callers) p _

theorem chain (link : Token → Option Link) {operand : Noting Tree.Measured}
    {operand' : Parsing Tree.Measured} (h : operand.Mirrors operand') (count : Nat)
    (left : Tree.Measured) :
    (chain link operand count left).Mirrors (Parser.chain link operand' count left) := by
  induction count generalizing left with
  | zero => exact throw .other
  | succ count ih =>
      apply (silent get).bind
      intro p
      cases link p.token with
      | none => exact pure left
      | some found =>
          have hrest := h.bind fun right =>
            (silent (Parser.combine found.operator left right)).bind ih
          obtain ⟨op, written⟩ := found
          cases written with
          | false => exact hrest
          | true => exact (silent Parser.advance).bind fun _ => hrest

theorem phrase (calls : Nat) (callers : List Call) (phrase : Phrase) :
    (Noting.phrase calls callers phrase).Mirrors (Parser.phrase calls phrase) := by
  induction calls generalizing callers phrase with
  | zero => exact enter_bind fun _ => throw .other
  | succ calls ih =>
      cases phrase with
      | expression =>
          apply enter_bind
          intro underWay
          exact (ih underWay .term).bind (chain sumLink (ih underWay .term) limit)
      | term =>
          apply enter_bind
          intro underWay
          exact (ih underWay .factor).bind (chain productLink (ih underWay .factor) limit)
      | factor =>
          apply enter_bind
          intro underWay
          apply (ih underWay .primary).bind
          intro base
          apply (silent get).bind
          intro p
          by_cases hcaret : p.token.category = .mark .caret
          · rw [if_pos hcaret, if_pos hcaret]
            apply (silent Parser.openLevel).bind
            intro _
            apply (silent Parser.advance).bind
            intro _
            apply (ih underWay .factor).bind
            intro exponent
            exact (silent Parser.closeLevel).bind fun _ => silent _
          · rw [if_neg hcaret, if_neg hcaret]
            exact pure base
      | primary =>
          apply enter_bind
          intro underWay
          apply (silent get).bind
          rintro ⟨text, cursor, token, offset, nesting⟩
          cases token with
          | number value => exact (silent Parser.advance).bind fun _ => pure _
          | mark m byte =>
              cases m with
              | opening =>
                  apply (silent Parser.openLevel).bind
                  intro _
                  apply (silent Parser.advance).bind
                  intro _
                  apply (ih underWay .expression).bind
                  intro inner
                  apply (silent (Parser.expect (.mark .closing))).bind
                  intro _
                  exact (silent Parser.closeLevel).bind fun _ => pure inner
              | plus | minus | star | slash | caret | closing | endOfInput | other => exact throw _

theorem wholeWithin (calls : Nat) :
    (Noting.wholeWithin calls).Mirrors (Parser.wholeWithin calls) := by
  apply (silent _).bind
  intro _
  apply (silent Parser.advance).bind
  intro _
  apply (phrase calls [] .expression).bind
  intro tree
  apply (silent get).bind
  intro p
  split
  · exact pure tree
  · exact throw _

end Mirrors

/-- A step that notes only calls under way and, if it does not fail, leads from one nesting to
another. -/
def Leads (before after : Nat) (x : Noting α) : Prop :=
  ∀ ⦃p noted⦄, p.nesting = before → (∀ calls ∈ noted, UnderWay calls) →
    (∀ calls ∈ (x.outcome p noted).2.2, UnderWay calls) ∧
      ∀ a, (x.outcome p noted).1 = .ok a → (x.outcome p noted).2.1.nesting = after

namespace Leads

variable {before between after : Nat}

theorem pure (a : α) : (pure a : Noting α).Leads before before :=
  fun _ _ hnesting hnoted => ⟨hnoted, fun _ _ => hnesting⟩

theorem throw (fault : Fault) : (throw fault : Noting α).Leads before after :=
  fun _ _ _ hnoted => ⟨hnoted, fun _ hok => nomatch hok⟩

theorem bind {x : Noting α} {next : α → Noting β} (h : x.Leads before between)
    (hnext : ∀ a, (next a).Leads between after) : (x >>= next).Leads before after := by
  intro p noted hnesting hnoted
  obtain ⟨hnoted', hnesting'⟩ := h hnesting hnoted
  rw [outcome_bind]
  rcases hx : x.outcome p noted with ⟨fault | a, q, noted'⟩
  · rw [hx] at hnoted'
    exact ⟨hnoted', fun _ hok => nomatch hok⟩
  · rw [hx] at hnoted' hnesting'
    exact hnext a (hnesting' a rfl) hnoted'

theorem silent {x : Parsing α} (h : ∀ p, p.nesting = before → ∀ a, (x.outcome p).1 = .ok a →
    (x.outcome p).2.nesting = after) : (silent x).Leads before after :=
  fun p _ hnesting hnoted => ⟨hnoted, fun a hok => h p hnesting a hok⟩

theorem get_bind {next : Parser → Noting α} (hnext : ∀ p, (next p).Leads before after) :
    (Noting.silent get >>= next).Leads before after :=
  fun p _ hnesting hnoted => hnext p hnesting hnoted

theorem enter_bind {callers : List Call} {phrase : Phrase} {next : List Call → Noting α}
    (hcalls : UnderWay (⟨phrase, before⟩ :: callers))
    (hnext : (next (⟨phrase, before⟩ :: callers)).Leads before after) :
    (enter callers phrase >>= next).Leads before after := by
  rintro p noted rfl hnoted
  exact hnext rfl (List.forall_mem_cons.mpr ⟨hcalls, hnoted⟩)

theorem advance : (Noting.silent Parser.advance).Leads before before :=
  silent fun p hnesting _ _ => (Parser.nesting_advance p).trans hnesting

/-- A level opens only if the limit allows for it. -/
theorem openLevel_bind {next : Unit → Noting α}
    (hnext : before + 1 ≤ limit → (next ()).Leads (before + 1) after) :
    (Noting.silent Parser.openLevel >>= next).Leads before after := by
  rintro p noted rfl hnoted
  rw [outcome_bind, outcome_silent, Parser.outcome_openLevel]
  by_cases hlimit : limit < p.nesting + 1
  · rw [if_pos hlimit]
    exact ⟨hnoted, fun _ hok => nomatch hok⟩
  · rw [if_neg hlimit]
    exact hnext (Nat.le_of_not_lt hlimit) rfl hnoted

theorem closeLevel : (Noting.silent Parser.closeLevel).Leads (before + 1) before :=
  silent fun _ hnesting _ _ => congrArg (· - 1) hnesting

theorem expect (expected : Category) :
    (Noting.silent (Parser.expect expected)).Leads before before := by
  apply silent
  intro p hnesting _ hok
  rw [Parser.expect, Parsing.outcome_get_bind] at hok ⊢
  by_cases hcategory : p.token.category = expected
  · rw [if_pos hcategory, Parser.nesting_advance, hnesting]
  · rw [if_neg hcategory] at hok
    cases hok

theorem combine (op : Operator) (left right : Tree.Measured) :
    (Noting.silent (Parser.combine op left right)).Leads before before := by
  apply silent
  intro p hnesting _ _
  rw [Parser.combine]
  split <;> exact hnesting

theorem chain (link : Token → Option Link) {operand : Noting Tree.Measured}
    (h : operand.Leads before before) (count : Nat) (left : Tree.Measured) :
    (chain link operand count left).Leads before before := by
  induction count generalizing left with
  | zero => exact throw .other
  | succ count ih =>
      apply get_bind
      intro p
      cases link p.token with
      | none => exact pure left
      | some found =>
          have hrest := h.bind fun right => (combine found.operator left right).bind ih
          obtain ⟨op, written⟩ := found
          cases written with
          | false => exact hrest
          | true => exact advance.bind fun _ => hrest

/-- A call returns at the nesting at which it was made, and so do the calls that it makes. -/
theorem phrase (calls : Nat) (phrase : Phrase) {callers : List Call}
    (hcalls : UnderWay (⟨phrase, before⟩ :: callers)) :
    (Noting.phrase calls callers phrase).Leads before before := by
  induction calls generalizing phrase callers before with
  | zero => exact enter_bind hcalls (throw .other)
  | succ calls ih =>
      have hlimit := hcalls.nesting_le
      cases phrase with
      | expression =>
          apply enter_bind hcalls
          have hterm := ih .term (hcalls.call .term hlimit)
          exact hterm.bind (chain sumLink hterm limit)
      | term =>
          apply enter_bind hcalls
          have hfactor := ih .factor (hcalls.call .factor hlimit)
          exact hfactor.bind (chain productLink hfactor limit)
      | factor =>
          apply enter_bind hcalls
          apply (ih .primary (hcalls.call .primary hlimit)).bind
          intro base
          apply get_bind
          intro p
          by_cases hcaret : p.token.category = .mark .caret
          · rw [if_pos hcaret]
            apply openLevel_bind
            intro hdeeper
            apply advance.bind
            intro _
            apply (ih .factor (hcalls.call .exponent hdeeper)).bind
            intro exponent
            exact closeLevel.bind fun _ => combine .pow base exponent
          · rw [if_neg hcaret]
            exact pure base
      | primary =>
          apply enter_bind hcalls
          apply get_bind
          rintro ⟨text, cursor, token, offset, nesting⟩
          cases token with
          | number value => exact advance.bind fun _ => pure _
          | mark m byte =>
              cases m with
              | opening =>
                  apply openLevel_bind
                  intro hdeeper
                  apply advance.bind
                  intro _
                  apply (ih .expression (hcalls.call .group hdeeper)).bind
                  intro inner
                  exact (expect (.mark .closing)).bind fun _ => closeLevel.bind fun _ => pure inner
              | plus | minus | star | slash | caret | closing | endOfInput | other => exact throw _

theorem wholeWithin (calls : Nat) : (Noting.wholeWithin calls).Leads before 0 := by
  refine bind (silent fun _ _ _ _ => (rfl : _ = 0)) ?_
  intro _
  apply advance.bind
  intro _
  apply (phrase calls .expression .outermost).bind
  intro tree
  apply get_bind
  intro p
  split
  · exact pure tree
  · exact throw _

end Leads

end

end Noting

theorem parse_ne_other (text : Bytes) : parse text ≠ .error .other := by
  intro h
  rcases fault_of_parse h with hlexical | ⟨hgrammar, -⟩
  · obtain ⟨character, offset, hother⟩ := lexical_of_tokenize hlexical
    cases hother
  · cases hgrammar

namespace Parser

/-- The calls under way at the entries of all calls in a parse with a budget of nested calls. -/
def entries (p : Parser) (calls : Nat) : List (List Call) :=
  ((Noting.wholeWithin calls).outcome p []).2.2

theorem underWay_of_mem_entries {p : Parser} {calls : Nat} {underWay : List Call}
    (h : underWay ∈ p.entries calls) : UnderWay underWay := by
  have hleads : (Noting.wholeWithin calls).Leads p.nesting 0 := .wholeWithin calls
  exact (hleads rfl (List.forall_mem_nil _)).1 underWay h

/-- The calls of a parse, whatever its text and its budget. To note them changes no answer. Each
call is one that its caller makes, and a call at some nesting is made within four calls for each
open level, by its rank, so no phrase is under way twice at one nesting, however long a chain is,
and there are never more calls under way than the budget that the parser has. A budget as large
gives the answer that every larger one gives, and neither it nor the number of joins that a chain
is allowed runs out. -/
theorem calls_nest_within_budget (p : Parser) (calls : Nat) :
    ((Noting.wholeWithin calls).outcome p []).1 = ((wholeWithin calls).outcome p).1 ∧
      (∀ call callers, call :: callers ∈ p.entries calls →
        UnderWay (call :: callers) ∧ (call :: callers).Nodup ∧ call.nesting ≤ limit ∧
          callers.length + 1 ≤ 4 * call.nesting + call.phrase.rank ∧
          callers.length + 1 ≤ budget) ∧
      (budget ≤ calls → ((wholeWithin calls).outcome p).1 = p.parse.1) ∧
      p.parse.1 ≠ .error .other := by
  refine ⟨?_, ?_, ?_, ?_⟩
  · obtain ⟨noted, houtcome⟩ := Noting.Mirrors.wholeWithin calls p []
    rw [houtcome]
  · intro call callers hmem
    have h := underWay_of_mem_entries hmem
    exact ⟨h, h.nodup, h.nesting_le, h.length_le call rfl, h.length_le_budget⟩
  · intro hcalls
    rw [answer_wholeWithin hcalls, parse_eq]
  · rw [parse_eq]
    exact parse_ne_other p.text

/-- The literal in two pairs of parentheses is read within twelve calls, four for each nesting. -/
theorem calls_nest_twice :
    (∃ callers, ⟨.primary, 2⟩ :: callers ∈ (ofText (ascii "((1))")).entries 5000 ∧
      callers.length + 1 = 12 ∧ callers.length + 1 ≤ 4 * 2 + Phrase.primary.rank) ∧
      budget ≤ 5000 ∧ ((wholeWithin 5000).outcome (ofText (ascii "((1))"))).1 =
        (ofText (ascii "((1))")).parse.1 := by
  have hcalls := calls_nest_within_budget (ofText (ascii "((1))")) 5000
  have hbudget : budget ≤ 5000 := by decide
  have hmem : [⟨.primary, 2⟩, ⟨.factor, 2⟩, ⟨.term, 2⟩, ⟨.expression, 2⟩, ⟨.primary, 1⟩,
      ⟨.factor, 1⟩, ⟨.term, 1⟩, ⟨.expression, 1⟩, ⟨.primary, 0⟩, ⟨.factor, 0⟩, ⟨.term, 0⟩,
      ⟨.expression, 0⟩] ∈ (ofText (ascii "((1))")).entries 5000 := by
    decide +kernel
  obtain ⟨-, -, -, hdepth, -⟩ := hcalls.2.1 _ _ hmem
  exact ⟨⟨_, hmem, rfl, hdepth⟩, hbudget, hcalls.2.2.1 hbudget⟩

end Parser

end Calculator
