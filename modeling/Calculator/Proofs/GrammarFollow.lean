import Calculator.Proofs.GrammarReading
import Calculator.Proofs.LexicalLanguage

/-!
What the phrases of the grammar leave in front. A phrase is read as far as it goes: behind a factor
stands no caret, behind a term no factor and no mark of a product, behind an expression no mark of a
sum either. So an expression ends in front of a closing parenthesis or at the end of the input.
-/

namespace Calculator

/-- Every reading of `read` leaves a `P` in front, unless it leaves nothing that can be read. -/
def Leaves (ending : Except Fault Nat) (P : Token → Prop) (read : List Lexeme → Reading) : Prop :=
  ∀ ⦃lexemes tree rest next⦄, read lexemes = .ok (tree, rest) → front ending rest = .ok next →
    P next.token

/-- The tokens that go on no phrase in front of them. -/
structure Token.EndsExpression (token : Token) : Prop where
  power : token.category ≠ .mark .caret
  product : productLink token = none
  sum : sumLink token = none

namespace Rule

variable {highest room : Nat} {ending : Except Fault Nat} {link : Token → Option Link}
  {operand : Rule} {lexemes rest : List Lexeme} {left tree : Tree.Measured} {P : Token → Prop}

/-- Where a chain ends there is no link, and in front of it stands what an operand left there. -/
theorem leaves_chainRest (hoperand : Leaves ending P operand.read)
    (hleft : ∀ next, front ending lexemes = .ok next → P next.token)
    (h : chainRest highest ending link operand left lexemes = .ok (tree, rest)) {next : Lexeme}
    (hnext : front ending rest = .ok next) : P next.token ∧ link next.token = none := by
  fun_induction chainRest highest ending link operand left lexemes with
  | case1 | case3 | case4 => cases h
  | case2 left lexemes here hhere hlink =>
      cases h
      obtain rfl := Except.ok.inj (hhere.symm.trans hnext)
      exact ⟨hleft _ hnext, hlink⟩
  | case5 left lexemes here hhere found hfound right between hread node hnode ih =>
      exact ih (fun next hbetween => hoperand hread hbetween) h

theorem leaves_chain (h : Leaves ending P operand.read) :
    Leaves ending (fun token => P token ∧ link token = none)
      (chain highest ending link operand).read := by
  intro lexemes tree rest next hread hnext
  obtain ⟨⟨first, between⟩, hfirst, hchain⟩ := bind_eq_ok_iff.mp hread
  exact leaves_chainRest h (fun next hbetween => h hfirst hbetween) hchain hnext

theorem leaves_factorAbove {deeper : Option Rule}
    (hdeeper : ∀ factor ∈ deeper, Leaves ending (·.category ≠ .mark .caret) factor.read) :
    Leaves ending (·.category ≠ .mark .caret) (factorAbove highest ending deeper).read := by
  intro lexemes tree rest next hread hnext
  obtain ⟨⟨base, between⟩, -, hpower⟩ := bind_eq_ok_iff.mp hread
  obtain ⟨found, hfound, hpower⟩ := bind_eq_ok_iff.mp hpower
  split at hpower
  · cases deeper with
    | none => cases hpower
    | some factor =>
        obtain ⟨⟨exponent, behind⟩, hexponent, hpower⟩ := bind_eq_ok_iff.mp hpower
        obtain ⟨node, -, hpower⟩ := bind_eq_ok_iff.mp hpower
        cases hpower
        exact hdeeper factor rfl hexponent hnext
  · rename_i hcaret
    cases hpower
    obtain rfl := Except.ok.inj (hfound.symm.trans hnext)
    exact hcaret

theorem leaves_factor (room : Nat) :
    Leaves ending (·.category ≠ .mark .caret) (factor highest ending room).read := by
  induction room with
  | zero =>
      apply leaves_factorAbove
      rintro _ ⟨⟩
  | succ room ih =>
      apply leaves_factorAbove
      rintro _ ⟨⟩
      exact ih

theorem leaves_expression (room : Nat) : Leaves ending Token.EndsExpression
    (expression highest ending (factor highest ending room)).read := by
  intro lexemes tree rest next hread hnext
  obtain ⟨⟨hpower, hproduct⟩, hsum⟩ := leaves_chain (leaves_chain (leaves_factor room)) hread hnext
  exact ⟨hpower, hproduct, hsum⟩

end Rule

/-- The marks that bytes spell. -/
theorem Token.IsSpelled.mem_marks {m : Mark} {byte : UInt8} (h : (Token.mark m byte).IsSpelled) :
    m ∈ [Mark.plus, .minus, .star, .slash, .caret, .opening, .closing] :=
  List.mem_map_of_mem (f := Prod.snd) (mem_markTable h)

namespace Token

variable {token : Token}

/-- A token that goes on no phrase is a closing parenthesis, or there is none. -/
theorem EndsExpression.category_cases (h : token.EndsExpression)
    (hspelled : token = .endOfInput ∨ token.IsSpelled) :
    token.category = .mark .closing ∨ token.category = .mark .endOfInput := by
  rcases hspelled with rfl | hspelled
  · exact Or.inr rfl
  · cases token with
    | number value => cases h.product
    | mark m byte =>
        cases m with
        | closing => exact Or.inl rfl
        | plus | minus => cases h.sum
        | star | slash | opening => cases h.product
        | caret => exact absurd rfl h.power
        | endOfInput | other => exact absurd hspelled.mem_marks (by simp)

/-- A token that starts no phrase is a mark but no opening parenthesis. -/
theorem exists_mark_of_not_starts (hspelled : token = .endOfInput ∨ token.IsSpelled)
    (h : ¬token.Starts) : ∃ m ∈ [Mark.plus, .minus, .star, .slash, .caret, .closing, .endOfInput],
      token.category = .mark m := by
  rcases hspelled with rfl | hspelled
  · exact ⟨.endOfInput, by simp, rfl⟩
  · cases token with
    | number value => exact absurd (Or.inl rfl) h
    | mark m byte =>
        have hmem := hspelled.mem_marks
        refine ⟨m, ?_, rfl⟩
        cases m with
        | opening => exact absurd (Or.inr rfl) h
        | _ => simp_all

/-- A token that ends no phrase is an operator or an opening parenthesis. -/
theorem exists_mark_of_not_ends (hspelled : token.IsSpelled) (h : ¬token.Ends) :
    ∃ m ∈ [Mark.plus, .minus, .star, .slash, .caret, .opening], token.category = .mark m := by
  cases token with
  | number value => exact absurd (Or.inl rfl) h
  | mark m byte =>
      have hmem := hspelled.mem_marks
      refine ⟨m, ?_, rfl⟩
      cases m with
      | closing => exact absurd (Or.inr rfl) h
      | _ => simp_all

end Token

end Calculator
