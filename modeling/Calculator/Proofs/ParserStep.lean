import Calculator.Proofs.ScriptStep
import Calculator.Tree.Parser

/-!
Parsers step by step. A step of a parser is followed by what its answer asks for, or ends the parse
where it met a fault. A parser stands at some lexemes when their first one is in front of it and the
others are read from its cursor on; to advance is to stand at the next ones.
-/

namespace Calculator

namespace Parsing

variable {α β : Type} {p q : Parser} {fault : Fault}

/-- The answer of a step and the parser behind it. -/
def outcome (x : Parsing α) (p : Parser) : Except Fault α × Parser := x.run.run p

theorem outcome_bind (x : Parsing α) (next : α → Parsing β) (p : Parser) :
    (x >>= next).outcome p =
      match x.outcome p with
      | (.ok a, q) => (next a).outcome q
      | (.error fault, q) => (.error fault, q) := by
  simp only [outcome, ExceptT.run_bind, StateT.run_bind]
  rcases x.run.run p with ⟨_ | _, _⟩ <;> rfl

theorem outcome_bind_of_ok {x : Parsing α} {next : α → Parsing β} {a : α}
    (h : x.outcome p = (.ok a, q)) : (x >>= next).outcome p = (next a).outcome q := by
  rw [outcome_bind, h]

theorem outcome_bind_of_error {x : Parsing α} {next : α → Parsing β}
    (h : x.outcome p = (.error fault, q)) : (x >>= next).outcome p = (.error fault, q) := by
  rw [outcome_bind, h]

theorem outcome_get_bind (next : Parser → Parsing β) (p : Parser) :
    (get >>= next).outcome p = (next p).outcome p := rfl

end Parsing

namespace Parser

open Parsing

variable {p : Parser} {fault : Fault} {ending : Except Fault Nat} {lexemes : List Lexeme}

/-- The cursor moves on even if it finds a fault. -/
theorem outcome_advance_eq (p : Parser) :
    advance.outcome p = outcome
      (liftM p.cursor.next.result >>= fun token =>
        modify fun p' => { p' with token, offset := p.cursor.next.start })
      { p with cursor := p.cursor.next.after } := rfl

theorem outcome_advance_of_ok {token : Token} (h : p.cursor.next.result = .ok token) :
    advance.outcome p = (.ok (),
      { p with cursor := p.cursor.next.after, token, offset := p.cursor.next.start }) := by
  rw [outcome_advance_eq, h]
  rfl

theorem outcome_advance_of_error (h : p.cursor.next.result = .error fault) :
    advance.outcome p = (.error fault, { p with cursor := p.cursor.next.after }) := by
  rw [outcome_advance_eq, h]
  rfl

section
variable {α : Type} {next : Unit → Parsing α}

theorem outcome_openLevel_bind (h : p.nesting < limit) :
    (openLevel >>= next).outcome p = (next ()).outcome { p with nesting := p.nesting + 1 } := by
  apply outcome_bind_of_ok
  change (if limit < p.nesting + 1 then throw _ else pure () : Parsing Unit).outcome _ = _
  rw [if_neg (Nat.not_lt.mpr h)]
  rfl

theorem outcome_openLevel_bind_of_full (h : p.nesting = limit) :
    (openLevel >>= next).outcome p =
      (.error (.tooDeep p.offset), { p with nesting := p.nesting + 1 }) := by
  apply outcome_bind_of_error
  change (if limit < p.nesting + 1 then throw _ else pure () : Parsing Unit).outcome _ = _
  rw [if_pos (h ▸ Nat.lt_succ_self limit)]
  rfl

theorem outcome_closeLevel_bind :
    (closeLevel >>= next).outcome p = (next ()).outcome { p with nesting := p.nesting - 1 } := rfl

theorem outcome_expect_bind {expected : Category} (h : p.token.category = expected) :
    (expect expected >>= next).outcome p = (advance >>= next).outcome p := by
  rw [outcome_bind, outcome_bind, expect, outcome_get_bind, if_pos h]

theorem outcome_expect_bind_of_ne {expected : Category} (h : p.token.category ≠ expected) :
    (expect expected >>= next).outcome p =
      (.error (.mismatch expected p.token.category p.offset), p) := by
  apply outcome_bind_of_error
  rw [expect, outcome_get_bind, if_neg h]
  rfl

end

section
variable {link : Token → Option Link} {operand : Parsing Tree.Measured} {count : Nat}
  {left : Tree.Measured}

theorem outcome_chain_of_none (h : link p.token = none) :
    (chain link operand (count + 1) left).outcome p = (.ok left, p) := by
  rw [chain, outcome_get_bind, h]
  rfl

theorem outcome_chain_of_link {found : Link} (h : link p.token = some found) :
    (chain link operand (count + 1) left).outcome p =
      outcome (do
        if found.written then advance
        let right ← operand
        let node ← combine found.operator left right
        chain link operand count node) p := by
  rw [chain, outcome_get_bind, h]

end

/-! ### Places in a script -/

/-- A parser at a place in a script. -/
structure Stands (p : Parser) (ending : Except Fault Nat) (lexemes : List Lexeme) : Prop where
  front_eq : front ending lexemes = .ok ⟨p.token, p.offset⟩
  behind_eq : Script.behind p.cursor = ⟨lexemes.tail, ending⟩

theorem Stands.of_nesting {n : Nat} (h : p.Stands ending lexemes) :
    Stands { p with nesting := n } ending lexemes :=
  ⟨h.front_eq, h.behind_eq⟩

/-- To advance is to stand at the lexemes that the cursor has in front, unless there is a fault
instead of a first one. Behind the end of the input stands the end of the input again. -/
theorem outcome_advance (h : Script.behind p.cursor = ⟨lexemes, ending⟩) :
    (∃ q, advance.outcome p = (.ok (), q) ∧ q.Stands ending lexemes ∧ q.nesting = p.nesting) ∨
      ∃ fault q, advance.outcome p = (.error fault, q) ∧ front ending lexemes = .error fault := by
  cases hresult : p.cursor.next.result with
  | error fault =>
      right
      rw [Script.behind_of_fault hresult, Script.mk.injEq] at h
      obtain ⟨rfl, rfl⟩ := h
      exact ⟨fault, _, outcome_advance_of_error hresult, rfl⟩
  | ok token =>
      left
      refine ⟨_, outcome_advance_of_ok hresult, ?_, rfl⟩
      rcases Cursor.isSpelled_of_next hresult with rfl | hspelled
      · rw [Script.behind_of_end hresult, Script.mk.injEq] at h
        obtain ⟨rfl, rfl⟩ := h
        exact ⟨rfl, Script.behind_after_end hresult⟩
      · rw [Script.behind_of_token hresult hspelled.ne_endOfInput, Script.mk.injEq] at h
        obtain ⟨rfl, rfl⟩ := h
        exact ⟨rfl, rfl⟩

end Parser

end Calculator
