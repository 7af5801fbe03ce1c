import Calculator.Proofs.GrammarInorder
import Calculator.Proofs.ScriptAppend

/-!
Trees written with parentheses around every operand. Such a text has the tree it was written for,
whatever the operators are: an operand in parentheses is a primary, so the operator between two of
them groups nothing else. An exponent in parentheses opens two levels, which is why trees up to
height 501 keep within the limit on nesting.
-/

namespace Calculator

/-- A text in parentheses. -/
def enclosed (text : Bytes) : Bytes := asciiByte '(' :: (text ++ [asciiByte ')'])

/-- The texts of a tree with parentheses around every operand. -/
inductive Parenthesised : Tree → Bytes → Prop
  | literal {value : Number} {text : Bytes} (h : tokenize text = .ok [.number value]) :
      Parenthesised (.literal value) text
  | binary (op : Operator) {a b : Tree} {s t : Bytes} (hleft : Parenthesised a s)
      (hright : Parenthesised b t) :
      Parenthesised (.binary op.symbol a b) (enclosed s ++ op.symbol :: enclosed t)

/-- The trees of operators and of literals that some numeral spells. -/
inductive Tree.IsWritable : Tree → Prop
  | literal {value : Number} (h : ∃ text, tokenize text = .ok [.number value]) :
      IsWritable (.literal value)
  | binary (op : Operator) {a b : Tree} (hleft : a.IsWritable) (hright : b.IsWritable) :
      IsWritable (.binary op.symbol a b)

theorem Tree.IsWritable.exists_parenthesised {tree : Tree} (h : tree.IsWritable) :
    ∃ form, Parenthesised tree form := by
  induction h with
  | literal h =>
      obtain ⟨text, htext⟩ := h
      exact ⟨text, .literal htext⟩
  | binary op hleft hright ihleft ihright =>
      obtain ⟨s, hs⟩ := ihleft
      obtain ⟨t, ht⟩ := ihright
      exact ⟨_, .binary op hs ht⟩

theorem tokenize_enclosed {text : Bytes} {tokens : List Token} (h : tokenize text = .ok tokens) :
    tokenize (enclosed text) =
      .ok (.mark .opening (asciiByte '(') :: (tokens ++ [.mark .closing (asciiByte ')')])) := by
  have hopening : Mark.ofByte? (asciiByte '(') = some .opening := rfl
  have hclosing : Mark.ofByte? (asciiByte ')') = some .closing := rfl
  exact tokenize_mark hopening tokenize_nil (tokenize_mark hclosing h tokenize_nil)

theorem Operator.ofByte?_symbol (op : Operator) : Mark.ofByte? op.symbol = some op.mark := by
  cases op <;> rfl

/-- An operator between two primaries is a whole expression. -/
theorem Derives.operator (op : Operator) {s t : List Token} {a b : Tree} {m n : Nat}
    (hleft : Derives .primary s a m) (hright : Derives .primary t b n) :
    ∃ k ≤ max m (n + 1), Derives .expression (s ++ op.token :: t) (.binary op.symbol a b) k := by
  have hle : max m n ≤ max m (n + 1) := by omega
  have hterm := Derives.factor (.primary hleft)
  cases op with
  | add => exact ⟨_, hle, .sum _ (.term hterm) .plus (.factor (.primary hright))⟩
  | sub => exact ⟨_, hle, .sum _ (.term hterm) .minus (.factor (.primary hright))⟩
  | mul => exact ⟨_, hle, .term (.product _ hterm .star (.primary hright))⟩
  | div => exact ⟨_, hle, .term (.product _ hterm .slash (.primary hright))⟩
  | pow => exact ⟨_, Nat.le_refl _, .term (.factor (.power _ hleft (.primary hright)))⟩

/-- Parentheses around every operand take two levels for each level of the tree at most. -/
theorem Parenthesised.derives {tree : Tree} {form : Bytes} (h : Parenthesised tree form) :
    ∃ tokens n, tokenize form = .ok tokens ∧ Derives .expression tokens tree n ∧
      n + 2 ≤ 2 * tree.height := by
  induction h with
  | literal h => exact ⟨_, 0, h, .term (.factor (.primary (.number _))), Nat.le_refl 2⟩
  | binary op hleft hright ihleft ihright =>
      obtain ⟨s, m, hs, ha, hm⟩ := ihleft
      obtain ⟨t, n, ht, hb, hn⟩ := ihright
      obtain ⟨k, hk, hderives⟩ := Derives.operator op (.parentheses _ _ ha) (.parentheses _ _ hb)
      refine ⟨_, k, tokenize_mark op.ofByte?_symbol (tokenize_enclosed hs) (tokenize_enclosed ht),
        hderives, ?_⟩
      rw [Tree.height]
      omega

theorem Parenthesised.parse_eq {tree : Tree} {form : Bytes} (h : Parenthesised tree form)
    (hheight : tree.height ≤ 501) : parse form = .ok tree.measured := by
  obtain ⟨tokens, n, htokens, hderives, hn⟩ := h.derives
  have hlimit : limit = 1000 := rfl
  exact parse_of_derives htokens hderives (by omega) (by omega)

/-- The lexemes of a script are written in its text. -/
theorem Script.exists_written (c : Cursor) : ∀ lexeme ∈ (behind c).lexemes,
    ∃ body, lexeme.token.IsWrittenAs body := by
  induction c using parts_induction with
  | fault | ending => exact List.forall_mem_nil _
  | token blanks body rest offset token hblanks hbody hseam ih =>
      exact List.forall_mem_cons.mpr ⟨⟨body, hbody⟩, ih⟩

theorem Derives.isWritable {phrase : Phrase} {tokens : List Token} {tree : Tree} {n : Nat}
    (h : Derives phrase tokens tree n)
    (hwritten : ∀ token ∈ tokens, ∃ body, token.IsWrittenAs body) : tree.IsWritable := by
  induction h with
  | number value =>
      obtain ⟨body, hbody⟩ := hwritten _ List.mem_cons_self
      exact .literal ⟨body, tokenize_body hbody⟩
  | parentheses left right hinner ih =>
      exact ih fun token htoken =>
        hwritten token (List.mem_cons_of_mem _ (List.mem_append_left _ htoken))
  | primary h ih | factor h ih | term h ih => exact ih hwritten
  | power byte hleft hright ihleft ihright =>
      rw [List.forall_mem_append, List.forall_mem_cons] at hwritten
      exact .binary .pow (ihleft hwritten.1) (ihright hwritten.2.2)
  | product byte hleft hmark hright ihleft ihright | sum byte hleft hmark hright ihleft ihright =>
      rw [List.forall_mem_append, List.forall_mem_cons] at hwritten
      exact .binary _ (ihleft hwritten.1) (ihright hwritten.2.2)
  | juxtaposition hleft hright ihleft ihright =>
      rw [List.forall_mem_append] at hwritten
      exact .binary .mul (ihleft hwritten.1) (ihright hwritten.2)

theorem isWritable_of_parse {text : Bytes} {tree : Tree.Measured} (h : parse text = .ok tree) :
    tree.tree.IsWritable := by
  obtain ⟨-, -, n, -, hderives⟩ := Script.parse_eq_ok (fun _ => Script.isSpelled_of_mem_ofText) h
  exact hderives.isWritable
    (List.forall_mem_map.mpr (Script.exists_written (.ofText text)))

/-- Parentheses around every operand change nothing. A tree of height 501 at most that can be
written at all can be written in this way, and every such text has just this tree. So the
parenthesised form of a text has the same tree and the same value or fault. -/
theorem parse_parenthesised :
    (∀ tree form, Parenthesised tree form → tree.height ≤ 501 →
      (Parser.ofText form).parse.1 = .ok tree.measured) ∧
    (∀ tree : Tree, tree.IsWritable → ∃ form, Parenthesised tree form) ∧
    ∀ text tree, (Parser.ofText text).parse.1 = .ok tree → tree.height ≤ 501 →
      (∃ form, Parenthesised tree.tree form) ∧ ∀ form, Parenthesised tree.tree form →
        (Parser.ofText form).parse.1 = .ok tree ∧
          (calculate form).map Calculation.value = (calculate text).map Calculation.value := by
  refine ⟨?_, fun _ => Tree.IsWritable.exists_parenthesised, ?_⟩
  · intro tree form h hheight
    exact (Parser.ofText form).parse_eq.trans (h.parse_eq hheight)
  · intro text tree htree hheight
    have hparse : parse text = .ok tree := (Parser.ofText text).parse_eq.symm.trans htree
    refine ⟨(isWritable_of_parse hparse).exists_parenthesised, ?_⟩
    intro form h
    rw [tree.height_eq] at hheight
    have hform := h.parse_eq hheight
    rw [Tree.measured_tree] at hform
    refine ⟨(Parser.ofText form).parse_eq.trans hform, ?_⟩
    rw [value_of_parse hform, value_of_parse hparse]

theorem parse_parenthesisedDifference :
    (Parser.ofText (ascii "(1)-((2)*(.5))")).parse.1 = (Parser.ofText (ascii "1-2 .5")).parse.1 ∧
      (calculate (ascii "(1)-((2)*(.5))")).map Calculation.value =
        (calculate (ascii "1-2 .5")).map Calculation.value := by
  have hparse : (Parser.ofText (ascii "1-2 .5")).parse.1 =
      .ok (Tree.binary Operator.sub.symbol (.literal (.whole 1))
        (.binary Operator.mul.symbol (.literal (.whole 2))
          (.literal (.ofNumeral (ascii ".5"))))).measured :=
    eq_ok_of_toOption (by decide +kernel)
  have hone : tokenize (ascii "1") = .ok [.number (.whole 1)] :=
    eq_ok_of_toOption (by decide +kernel)
  have htwo : tokenize (ascii "2") = .ok [.number (.whole 2)] :=
    eq_ok_of_toOption (by decide +kernel)
  have hhalf : tokenize (ascii ".5") = .ok [.number (.ofNumeral (ascii ".5"))] :=
    eq_ok_of_toOption (by decide +kernel)
  obtain ⟨-, hforms⟩ := parse_parenthesised.2.2 _ _ hparse (by decide)
  obtain ⟨hform, hvalue⟩ := hforms _ (.binary .sub (.literal hone)
    (.binary .mul (.literal htwo) (.literal hhalf)))
  exact ⟨hform.trans hparse.symm, hvalue⟩

end Calculator
