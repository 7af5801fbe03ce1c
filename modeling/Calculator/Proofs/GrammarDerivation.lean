import Calculator.Tree.Parser

/-!
The grammar without a reader. A derivation says which tree a list of tokens stands for and how deep
it nests: the greatest number of parentheses open and exponents being read at one place. The two
chains grow from the left, so what stands in front of the last operand is a chain of its own.
-/

namespace Calculator

/-- The marks between the terms of an expression. -/
inductive SumMark : Mark → Operator → Prop
  | plus : SumMark .plus .add
  | minus : SumMark .minus .sub

/-- The marks between the factors of a term. -/
inductive ProductMark : Mark → Operator → Prop
  | star : ProductMark .star .mul
  | slash : ProductMark .slash .div

/-- The tokens of a phrase, its tree and its nesting. -/
inductive Derives : Phrase → List Token → Tree → Nat → Prop
  | number (value : Number) : Derives .primary [.number value] (.literal value) 0
  | parentheses {tokens : List Token} {tree : Tree} {n : Nat} (left right : UInt8)
      (hinner : Derives .expression tokens tree n) :
      Derives .primary (.mark .opening left :: (tokens ++ [.mark .closing right])) tree (n + 1)
  | primary {tokens : List Token} {tree : Tree} {n : Nat} (h : Derives .primary tokens tree n) :
      Derives .factor tokens tree n
  | power {s t : List Token} {a b : Tree} {m n : Nat} (byte : UInt8)
      (hbase : Derives .primary s a m) (hexponent : Derives .factor t b n) :
      Derives .factor (s ++ .mark .caret byte :: t) (.binary Operator.pow.symbol a b)
        (max m (n + 1))
  | factor {tokens : List Token} {tree : Tree} {n : Nat} (h : Derives .factor tokens tree n) :
      Derives .term tokens tree n
  | product {s t : List Token} {a b : Tree} {m n : Nat} {mark : Mark} {op : Operator}
      (byte : UInt8) (hleft : Derives .term s a m) (hmark : ProductMark mark op)
      (hright : Derives .factor t b n) :
      Derives .term (s ++ .mark mark byte :: t) (.binary op.symbol a b) (max m n)
  | juxtaposition {s t : List Token} {a b : Tree} {m n : Nat} (hleft : Derives .term s a m)
      (hright : Derives .factor t b n) :
      Derives .term (s ++ t) (.binary Operator.mul.symbol a b) (max m n)
  | term {tokens : List Token} {tree : Tree} {n : Nat} (h : Derives .term tokens tree n) :
      Derives .expression tokens tree n
  | sum {s t : List Token} {a b : Tree} {m n : Nat} {mark : Mark} {op : Operator} (byte : UInt8)
      (hleft : Derives .expression s a m) (hmark : SumMark mark op) (hright : Derives .term t b n) :
      Derives .expression (s ++ .mark mark byte :: t) (.binary op.symbol a b) (max m n)

/-- The tokens that a phrase can start with: numbers and opening parentheses. -/
def Token.Starts (token : Token) : Prop :=
  token.category = .number ∨ token.category = .mark .opening

/-- The tokens that a phrase can end with: numbers and closing parentheses. -/
def Token.Ends (token : Token) : Prop :=
  token.category = .number ∨ token.category = .mark .closing

instance (token : Token) : Decidable token.Starts := inferInstanceAs (Decidable (_ ∨ _))

instance (token : Token) : Decidable token.Ends := inferInstanceAs (Decidable (_ ∨ _))

theorem Token.Starts.category_ne_caret {token : Token} (h : token.Starts) :
    token.category ≠ .mark .caret := by
  rcases h with h | h <;> simp [h]

theorem Token.Starts.ne_endOfInput {token : Token} (h : token.Starts) : token ≠ .endOfInput := by
  rintro rfl
  rcases h with h | h <;> cases h

theorem Derives.starts {phrase : Phrase} {tokens : List Token} {tree : Tree} {n : Nat}
    (h : Derives phrase tokens tree n) : ∃ token rest, tokens = token :: rest ∧ token.Starts := by
  induction h with
  | number value => exact ⟨.number value, [], rfl, Or.inl rfl⟩
  | parentheses left right => exact ⟨.mark .opening left, _, rfl, Or.inr rfl⟩
  | primary h ih | factor h ih | term h ih => exact ih
  | power byte hleft hright ih | product byte hleft hmark hright ih | juxtaposition hleft hright ih
  | sum byte hleft hmark hright ih =>
      obtain ⟨token, rest, rfl, hstarts⟩ := ih
      exact ⟨token, _, rfl, hstarts⟩

theorem Derives.ends {phrase : Phrase} {tokens : List Token} {tree : Tree} {n : Nat}
    (h : Derives phrase tokens tree n) : ∃ token, tokens.getLast? = some token ∧ token.Ends := by
  induction h with
  | number value => exact ⟨.number value, rfl, Or.inl rfl⟩
  | parentheses left right =>
      refine ⟨.mark .closing right, ?_, Or.inr rfl⟩
      rw [← List.cons_append, List.getLast?_concat]
  | primary h ih | factor h ih | term h ih => exact ih
  | power byte _ _ _ ih | product byte _ _ _ _ ih | sum byte _ _ _ _ ih | juxtaposition _ _ _ ih =>
      obtain ⟨token, hlast, hends⟩ := ih
      exact ⟨token, by simp [List.getLast?_append, List.getLast?_cons, hlast], hends⟩

theorem Derives.height_pos {phrase : Phrase} {tokens : List Token} {tree : Tree} {n : Nat}
    (h : Derives phrase tokens tree n) : 0 < tree.height := by
  induction h with
  | number => exact Nat.succ_pos 0
  | parentheses _ _ _ ih | primary _ ih | factor _ ih | term _ ih => exact ih
  | power | product | juxtaposition | sum => exact Nat.succ_pos _

theorem sumLink_eq_some_iff {token : Token} {link : Link} :
    sumLink token = some link ↔
      ∃ mark op byte, token = .mark mark byte ∧ SumMark mark op ∧ link = ⟨op, true⟩ := by
  constructor
  · intro h
    unfold sumLink at h
    split at h
    · cases h
      exact ⟨_, _, _, rfl, .plus, rfl⟩
    · cases h
      exact ⟨_, _, _, rfl, .minus, rfl⟩
    · cases h
  · rintro ⟨mark, op, byte, rfl, hmark, rfl⟩
    cases hmark <;> rfl

/-- A link between factors is a mark, or the start of the next factor itself. -/
theorem productLink_eq_some_iff {token : Token} {link : Link} :
    productLink token = some link ↔
      (∃ mark op byte, token = .mark mark byte ∧ ProductMark mark op ∧ link = ⟨op, true⟩) ∨
        token.Starts ∧ link = ⟨.mul, false⟩ := by
  constructor
  · intro h
    unfold productLink at h
    split at h
    · cases h
      exact Or.inl ⟨_, _, _, rfl, .star, rfl⟩
    · cases h
      exact Or.inl ⟨_, _, _, rfl, .slash, rfl⟩
    · cases h
      exact Or.inr ⟨Or.inl rfl, rfl⟩
    · cases h
      exact Or.inr ⟨Or.inr rfl, rfl⟩
    · cases h
  · rintro (⟨mark, op, byte, rfl, hmark, rfl⟩ | ⟨hstarts, rfl⟩)
    · cases hmark <;> rfl
    · cases token with
      | number value => rfl
      | mark m byte =>
          rcases hstarts with hstarts | hstarts
          · cases hstarts
          · cases hstarts
            rfl

end Calculator
