import Calculator.Proofs.GrammarInorder

/-!
Products with and without their stars. A star between two factors can be dropped, because the second
factor starts with a token that links it to the first one just as the star did; and wherever two
operands meet without an operator a star can be put between them. Neither changes the tree or the
nesting of a derivation.
-/

namespace Calculator

variable {phrase : Phrase} {s t u : List Token} {tree : Tree} {n : Nat}

/-- The second list is the first one with some of its stars dropped. -/
inductive Thins : List Token → List Token → Prop
  | nil : Thins [] []
  | keep {s t : List Token} (token : Token) (h : Thins s t) : Thins (token :: s) (token :: t)
  | drop {s t : List Token} (byte : UInt8) (h : Thins s t) : Thins (.mark .star byte :: s) t

namespace Thins

theorem exists_append (h : Thins (s ++ t) u) : ∃ v w, u = v ++ w ∧ Thins s v ∧ Thins t w := by
  induction s generalizing u with
  | nil => exact ⟨[], u, rfl, .nil, h⟩
  | cons token s ih =>
      cases h with
      | keep token h =>
          obtain ⟨v, w, rfl, hv, hw⟩ := ih h
          exact ⟨token :: v, w, rfl, .keep token hv, hw⟩
      | drop byte h =>
          obtain ⟨v, w, rfl, hv, hw⟩ := ih h
          exact ⟨v, w, rfl, .drop byte hv, hw⟩

theorem exists_cons {token : Token} (h : Thins (token :: s) u)
    (htoken : token.category ≠ .mark .star) : ∃ v, u = token :: v ∧ Thins s v := by
  cases h with
  | keep token h => exact ⟨_, rfl, h⟩
  | drop byte h => exact absurd rfl htoken

theorem exists_between {token : Token} (h : Thins (s ++ token :: t) u)
    (htoken : token.category ≠ .mark .star) :
    ∃ v w, u = v ++ token :: w ∧ Thins s v ∧ Thins t w := by
  obtain ⟨v, behind, rfl, hv, hbehind⟩ := h.exists_append
  obtain ⟨w, rfl, hw⟩ := hbehind.exists_cons htoken
  exact ⟨v, w, rfl, hv, hw⟩

end Thins

/-- Dropping stars leaves the tree as it is. Where the star of a product is dropped, its factors
stand side by side. -/
theorem Derives.thins (h : Derives phrase s tree n) (hthins : Thins s t) :
    Derives phrase t tree n := by
  induction h generalizing t with
  | number value =>
      obtain ⟨v, rfl, hv⟩ := hthins.exists_cons nofun
      cases hv
      exact .number value
  | parentheses left right hinner ih =>
      obtain ⟨u, rfl, hu⟩ := hthins.exists_cons nofun
      obtain ⟨v, w, rfl, hv, hw⟩ := hu.exists_between nofun
      cases hw
      exact .parentheses left right (ih hv)
  | primary h ih => exact .primary (ih hthins)
  | factor h ih => exact .factor (ih hthins)
  | term h ih => exact .term (ih hthins)
  | power byte hbase hexponent ihbase ihexponent =>
      obtain ⟨v, w, rfl, hv, hw⟩ := hthins.exists_between nofun
      exact .power byte (ihbase hv) (ihexponent hw)
  | product byte hleft hmark hright ihleft ihright =>
      obtain ⟨v, w, rfl, hv, hw⟩ := hthins.exists_append
      cases hw with
      | keep token hw => exact .product byte (ihleft hv) hmark (ihright hw)
      | drop byte hw =>
          cases hmark
          exact .juxtaposition (ihleft hv) (ihright hw)
  | juxtaposition hleft hright ihleft ihright =>
      obtain ⟨v, w, rfl, hv, hw⟩ := hthins.exists_append
      exact .juxtaposition (ihleft hv) (ihright hw)
  | sum byte hleft hmark hright ihleft ihright =>
      obtain ⟨v, w, rfl, hv, hw⟩ := hthins.exists_between (by cases hmark <;> nofun)
      exact .sum byte (ihleft hv) hmark (ihright hw)

/-- Stars between all operands that meet leave the tree as it is. -/
theorem Derives.withProducts (h : Derives phrase s tree n) :
    Derives phrase (withProducts s) tree n := by
  induction h with
  | number value => exact .number value
  | parentheses left right hinner ih =>
      rw [withProducts_parentheses]
      exact .parentheses left right ih
  | primary h ih => exact .primary ih
  | factor h ih => exact .factor ih
  | term h ih => exact .term ih
  | power byte hbase hexponent ihbase ihexponent =>
      rw [withProducts_between (by simp [Token.Starts, Token.category])
        (by simp [Token.Ends, Token.category])]
      exact .power byte ihbase ihexponent
  | product byte hleft hmark hright ihleft ihright =>
      rw [withProducts_between (by cases hmark <;> simp [Token.Starts, Token.category])
        (by cases hmark <;> simp [Token.Ends, Token.category])]
      exact .product byte ihleft hmark ihright
  | juxtaposition hleft hright ihleft ihright =>
      rw [withProducts_juxtaposition hleft hright]
      exact .product _ ihleft .star ihright
  | sum byte hleft hmark hright ihleft ihright =>
      rw [withProducts_between (by cases hmark <;> simp [Token.Starts, Token.category])
        (by cases hmark <;> simp [Token.Ends, Token.category])]
      exact .sum byte ihleft hmark ihright

end Calculator
