import Calculator.Proofs.GrammarReading

/-!
What is derived is read. In front of a token that cannot go on with it, a phrase is read to its end
if its height and nesting stay within the limits, and is found too deep if they do not. For the
chains the end is not the whole story, since what stands behind may be another operand: there the
reading is compared with the rest of the chain, resumed with the tree of what was derived. No two
trees are derived from the same tokens, since with enough room both would be read.
-/

namespace Calculator

/-- The token in front of some lexemes, behind the last one the end of the input. -/
def frontToken (lexemes : List Lexeme) : Token :=
  (lexemes.head?.map Lexeme.token).getD .endOfInput

/-- The tokens that cannot go on with a phrase that has been read. The links of a term are looked at
by the expression around it, those of an expression by no one. -/
def Phrase.EndsBefore : Phrase → Token → Prop
  | .primary, _ => True
  | .factor, token | .term, token => token.category ≠ .mark .caret
  | .expression, token => token.category ≠ .mark .caret ∧ productLink token = none

/-- The expected answer within some limits, and a tree too deep beyond them. -/
structure Limited {α : Type} (within : Prop) (expected answer : Except Fault α) : Prop where
  inside : within → answer = expected
  outside : ¬within → ∃ offset, answer = .error (.tooDeep offset)

namespace Limited

variable {α β : Type} {v w : Prop} {a b c : Except Fault α}

theorem of_within (hw : w) : Limited w a a :=
  ⟨fun _ => rfl, fun hnot => absurd hw hnot⟩

theorem of_not_within (hnot : ¬w) {offset : Nat} : Limited w a (.error (.tooDeep offset)) :=
  ⟨fun hw => absurd hw hnot, fun _ => ⟨offset, rfl⟩⟩

theorem bind {found : α} (h : Limited w (.ok found) a) (next : α → Except Fault β) :
    Limited w (next found) (a >>= next) := by
  refine ⟨fun hw => by rw [h.inside hw, ok_bind], ?_⟩
  intro hnot
  obtain ⟨offset, rfl⟩ := h.outside hnot
  exact ⟨offset, rfl⟩

theorem and (h : Limited v b c) (hnext : v → Limited w a b) : Limited (v ∧ w) a c := by
  refine ⟨fun ⟨hv, hw⟩ => (h.inside hv).trans ((hnext hv).inside hw), ?_⟩
  intro hnot
  by_cases hv : v
  · rw [h.inside hv]
    exact (hnext hv).outside fun hw => hnot ⟨hv, hw⟩
  · exact h.outside hv

theorem congr (h : Limited v a b) (hiff : v ↔ w) : Limited w a b :=
  ⟨fun hw => h.inside (hiff.mpr hw), fun hnot => h.outside fun hv => hnot (hiff.mp hv)⟩

end Limited

def Tree.measured (tree : Tree) : Measured := ⟨tree, tree.height, rfl⟩

theorem Tree.measured_tree (tree : Measured) : tree.tree.measured = tree :=
  Measured.ext_tree rfl

namespace Rule

variable {highest room stop : Nat} {w : Prop} {link : Token → Option Link} {operand : Rule}
  {left right tree : Tree.Measured} {lexemes rest : List Lexeme}

theorem front_ok (stop : Nat) (lexemes : List Lexeme) :
    ∃ offset, front (.ok stop) lexemes = .ok ⟨frontToken lexemes, offset⟩ := by
  cases lexemes with
  | nil => exact ⟨stop, rfl⟩
  | cons lexeme lexemes => exact ⟨lexeme.offset, rfl⟩

theorem limited_join (op : Operator) (left right : Tree.Measured) (rest : List Lexeme) :
    Limited ((Tree.Measured.binary op.symbol left right).height ≤ highest)
      (.ok (.binary op.symbol left right)) (join highest (.ok stop) op left right rest) := by
  simp only [join]
  split
  · rename_i hheight
    exact .of_within hheight
  · rename_i hheight
    obtain ⟨offset, hfront⟩ := front_ok stop rest
    rw [hfront]
    exact .of_not_within hheight

theorem limited_chain {first : Tree.Measured}
    (h : Limited w (.ok (first, rest)) (operand.read lexemes)) :
    Limited w (chainRest highest (.ok stop) link operand first rest)
      ((chain highest (.ok stop) link operand).read lexemes) :=
  h.bind fun found => chainRest highest (.ok stop) link operand found.1 found.2

theorem chainRest_stop (h : link (frontToken lexemes) = none) :
    chainRest highest (.ok stop) link operand left lexemes = .ok (left, lexemes) := by
  obtain ⟨offset, hfront⟩ := front_ok stop lexemes
  exact chainRest_of_none hfront h

theorem limited_chainRest {found : Link} (hlink : link (frontToken lexemes) = some found)
    (h : Limited w (.ok (right, rest)) (operand.read (found.operand lexemes))) :
    Limited (w ∧ (Tree.Measured.binary found.operator.symbol left right).height ≤ highest)
      (chainRest highest (.ok stop) link operand (.binary found.operator.symbol left right) rest)
      (chainRest highest (.ok stop) link operand left lexemes) := by
  obtain ⟨offset, hfront⟩ := front_ok stop lexemes
  rw [chainRest_of_link hfront hlink]
  refine (h.bind _).and fun _ => ?_
  exact (limited_join _ left right rest).bind fun node =>
    chainRest highest (.ok stop) link operand node rest

theorem limited_parentheses {factor : Rule} {closing : UInt8} {offset' : Nat} (opening : UInt8)
    (offset : Nat) (h : Limited w (.ok (tree, ⟨.mark .closing closing, offset'⟩ :: rest))
      ((expression highest (.ok stop) factor).read lexemes)) :
    Limited w (.ok (tree, rest)) (primary highest (.ok stop) (some factor)
      (⟨.mark .opening opening, offset⟩ :: lexemes)) :=
  h.bind fun found => close (.ok stop) found.1 found.2

theorem power_stop {deeper : Option Rule} {base : Tree.Measured}
    (h : (frontToken lexemes).category ≠ .mark .caret) :
    power highest (.ok stop) deeper base lexemes = .ok (base, lexemes) := by
  obtain ⟨offset, hfront⟩ := front_ok stop lexemes
  rw [power, hfront, ok_bind, if_neg h]

theorem limited_power {factor : Rule} {base exponent : Tree.Measured} {byte : UInt8} {offset : Nat}
    (h : Limited w (.ok (exponent, rest)) (factor.read lexemes)) :
    Limited (w ∧ (Tree.Measured.binary Operator.pow.symbol base exponent).height ≤ highest)
      (.ok (.binary Operator.pow.symbol base exponent, rest))
      (power highest (.ok stop) (some factor) base (⟨.mark .caret byte, offset⟩ :: lexemes)) := by
  have hread := h.bind fun found =>
    join highest (.ok stop) .pow base found.1 found.2 >>= fun node => .ok (node, found.2)
  exact hread.and fun _ => (limited_join .pow base exponent rest).bind fun node => .ok (node, rest)

theorem limited_factor {base : Tree.Measured} {answer : Reading} {v : Prop}
    (hbase : Limited v (.ok (base, rest)) (reading highest (.ok stop) room .primary lexemes))
    (hpower : v → Limited w answer
      (power highest (.ok stop) (deeper highest (.ok stop) room) base rest)) :
    Limited (v ∧ w) answer (reading highest (.ok stop) room .factor lexemes) := by
  rw [reading, factor_eq]
  exact (hbase.bind _).and hpower

/-- How the reading of a phrase goes on behind its derived part. -/
def resume (highest : Nat) (ending : Except Fault Nat) (room : Nat) :
    Phrase → Tree.Measured → List Lexeme → Reading
  | .primary, tree, rest | .factor, tree, rest => .ok (tree, rest)
  | .term, tree, rest => chainRest highest ending productLink (factor highest ending room) tree rest
  | .expression, tree, rest =>
      chainRest highest ending sumLink
        (chain highest ending productLink (factor highest ending room)) tree rest

theorem frontToken_append_of_starts {tokens : List Token} {used : List Lexeme}
    (rest : List Lexeme) (hused : used.map Lexeme.token = tokens)
    (h : ∃ token rest, tokens = token :: rest ∧ token.Starts) :
    (frontToken (used ++ rest)).Starts := by
  obtain ⟨token, behind, rfl, hstarts⟩ := h
  obtain ⟨lexeme, used, rfl, rfl, -⟩ := List.map_eq_cons_iff.mp hused
  exact hstarts

theorem exists_split {used : List Lexeme} {s t : List Token} {token : Token}
    (h : used.map Lexeme.token = s ++ token :: t) :
    ∃ left offset right, used = left ++ ⟨token, offset⟩ :: right ∧ left.map Lexeme.token = s ∧
      right.map Lexeme.token = t := by
  obtain ⟨left, behind, rfl, hleft, hbehind⟩ := List.map_eq_append_iff.mp h
  obtain ⟨⟨found, offset⟩, right, rfl, rfl, hright⟩ := List.map_eq_cons_iff.mp hbehind
  exact ⟨left, offset, right, rfl, hleft, hright⟩

theorem within_binary_iff {m n : Nat} {symbol : UInt8} {a b : Tree} :
    ((m ≤ room ∧ a.height ≤ highest) ∧ (n ≤ room ∧ b.height ≤ highest) ∧
      (Tree.Measured.binary symbol a.measured b.measured).height ≤ highest) ↔
        max m n ≤ room ∧ (Tree.binary symbol a b).height ≤ highest := by
  simp only [Tree.measured, Tree.Measured.binary, Tree.height]
  omega

/-- By induction on the derivation: what its parts are read as decides how the whole goes on, and a
part beyond the limits puts the whole beyond them. -/
theorem limited_reading (hhighest : 0 < highest) {phrase : Phrase} {tokens : List Token}
    {tree : Tree} {n : Nat} (h : Derives phrase tokens tree n) :
    ∀ (room : Nat) {used : List Lexeme} (rest : List Lexeme), used.map Lexeme.token = tokens →
      phrase.EndsBefore (frontToken rest) →
      Limited (n ≤ room ∧ tree.height ≤ highest)
        (resume highest (.ok stop) room phrase tree.measured rest)
        (reading highest (.ok stop) room phrase (used ++ rest)) := by
  induction h with
  | number value =>
      intro room used rest hused hends
      obtain ⟨⟨token, offset⟩, behind, rfl, rfl, hnil⟩ := List.map_eq_cons_iff.mp hused
      obtain rfl := List.map_eq_nil_iff.mp hnil
      exact .of_within ⟨Nat.zero_le room, hhighest⟩
  | @parentheses tokens tree n opening closing hinner ih =>
      intro room used rest hused hends
      obtain ⟨⟨token, offset⟩, behind, rfl, rfl, hbehind⟩ := List.map_eq_cons_iff.mp hused
      obtain ⟨inner, offset', last, rfl, hinner, hlast⟩ := exists_split hbehind
      obtain rfl := List.map_eq_nil_iff.mp hlast
      cases room with
      | zero => exact .of_not_within fun hwithin => absurd hwithin.1 (Nat.not_succ_le_zero n)
      | succ room =>
          have hread := ih room (⟨.mark .closing closing, offset'⟩ :: rest) hinner ⟨nofun, rfl⟩
          rw [resume, chainRest_stop rfl] at hread
          rw [List.cons_append, List.append_assoc, List.singleton_append, Nat.add_le_add_iff_right]
          exact limited_parentheses opening offset hread
  | primary h ih =>
      intro room used rest hused hends
      have hread := ih room rest hused trivial
      refine (limited_factor hread fun _ => ?_).congr (and_iff_left trivial)
      rw [power_stop hends]
      exact .of_within trivial
  | @power s t a b m n byte hbase hexponent ihbase ihexponent =>
      intro room used rest hused hends
      obtain ⟨base, offset, exponent, rfl, hbase, hexponent⟩ := exists_split hused
      rw [List.append_assoc, List.cons_append]
      have hread := ihbase room (⟨.mark .caret byte, offset⟩ :: (exponent ++ rest)) hbase trivial
      cases room with
      | zero =>
          refine (limited_factor hread fun _ => .of_not_within not_false).congr ?_
          constructor
          · rintro ⟨-, ⟨⟩⟩
          · rintro ⟨hnesting, -⟩
            omega
      | succ room =>
          refine (limited_factor hread fun _ =>
            limited_power (ihexponent room rest hexponent hends)).congr ?_
          simp only [Tree.measured, Tree.Measured.binary, Tree.height]
          omega
  | factor h ih =>
      intro room used rest hused hends
      exact limited_chain (ih room rest hused hends)
  | @product s t a b m n mark op byte hleft hmark hright ihleft ihright =>
      intro room used rest hused hends
      obtain ⟨left, offset, right, rfl, hleft, hright⟩ := exists_split hused
      rw [List.append_assoc, List.cons_append]
      have hlink : productLink (.mark mark byte) = some ⟨op, true⟩ :=
        productLink_eq_some_iff.mpr (Or.inl ⟨mark, op, byte, rfl, hmark, rfl⟩)
      have hread := ihleft room (⟨.mark mark byte, offset⟩ :: (right ++ rest)) hleft
        (by cases hmark <;> nofun)
      exact (hread.and fun _ => limited_chainRest hlink (ihright room rest hright hends)).congr
        within_binary_iff
  | @juxtaposition s t a b m n hleft hright ihleft ihright =>
      intro room used rest hused hends
      obtain ⟨left, right, rfl, hleft, hright'⟩ := List.map_eq_append_iff.mp hused
      rw [List.append_assoc]
      have hstarts := frontToken_append_of_starts rest hright' hright.starts
      have hlink : productLink (frontToken (right ++ rest)) = some ⟨.mul, false⟩ :=
        productLink_eq_some_iff.mpr (Or.inr ⟨hstarts, rfl⟩)
      have hread := ihleft room (right ++ rest) hleft hstarts.category_ne_caret
      exact (hread.and fun _ => limited_chainRest hlink (ihright room rest hright' hends)).congr
        within_binary_iff
  | term h ih =>
      intro room used rest hused hends
      have hread := ih room rest hused hends.1
      rw [resume, chainRest_stop hends.2] at hread
      exact limited_chain hread
  | @sum s t a b m n mark op byte hleft hmark hright ihleft ihright =>
      intro room used rest hused hends
      obtain ⟨left, offset, right, rfl, hleft, hright⟩ := exists_split hused
      rw [List.append_assoc, List.cons_append]
      have hlink : sumLink (.mark mark byte) = some ⟨op, true⟩ :=
        sumLink_eq_some_iff.mpr ⟨mark, op, byte, rfl, hmark, rfl⟩
      have hread := ihleft room (⟨.mark mark byte, offset⟩ :: (right ++ rest)) hleft
        (by cases hmark <;> exact ⟨nofun, rfl⟩)
      have hterm := ihright room rest hright hends.1
      rw [resume, chainRest_stop hends.2] at hterm
      exact (hread.and fun _ => limited_chainRest hlink hterm).congr within_binary_iff

/-- With nothing behind it every phrase is read as a whole. -/
theorem limited_whole (hhighest : 0 < highest) (stop room : Nat) {phrase : Phrase} {tree : Tree}
    {n : Nat} {used : List Lexeme} (h : Derives phrase (used.map Lexeme.token) tree n) :
    Limited (n ≤ room ∧ tree.height ≤ highest) (.ok (tree.measured, []))
      (reading highest (.ok stop) room phrase used) := by
  have hends : phrase.EndsBefore (frontToken []) := by
    cases phrase with
    | primary => trivial
    | factor | term => nofun
    | expression => exact ⟨nofun, rfl⟩
  have hresume :
      resume highest (.ok stop) room phrase tree.measured [] = .ok (tree.measured, []) := by
    cases phrase with
    | primary | factor => rfl
    | term | expression => exact chainRest_stop rfl
  rw [← hresume, ← List.append_nil used]
  exact limited_reading hhighest h room [] rfl hends

end Rule

namespace Derives

variable {phrase : Phrase} {tokens : List Token} {a b : Tree} {m n : Nat}

theorem exists_lexemes (tokens : List Token) :
    ∃ used : List Lexeme, used.map Lexeme.token = tokens :=
  ⟨tokens.map (⟨·, 0⟩), by simp [Function.comp_def]⟩

/-- Read with just the nesting of one derivation, the tokens are too deep for any deeper one. -/
theorem nesting_le (h : Derives phrase tokens a m) (h' : Derives phrase tokens b n) : m ≤ n := by
  obtain ⟨used, rfl⟩ := exists_lexemes tokens
  have hroom := Rule.limited_whole (Nat.succ_pos (max a.height b.height)) 0 n h
  have hroom' := Rule.limited_whole (Nat.succ_pos (max a.height b.height)) 0 n h'
  refine Nat.le_of_not_lt fun hlt => ?_
  obtain ⟨offset, hdeep⟩ := hroom.outside fun hwithin => Nat.not_le_of_lt hlt hwithin.1
  rw [hroom'.inside ⟨Nat.le_refl n, by omega⟩] at hdeep
  cases hdeep

theorem tree_eq (h : Derives phrase tokens a m) (h' : Derives phrase tokens b n) : a = b := by
  obtain ⟨used, rfl⟩ := exists_lexemes tokens
  have hread := Rule.limited_whole (Nat.succ_pos (max a.height b.height)) 0 (max m n) h
  have hread' := Rule.limited_whole (Nat.succ_pos (max a.height b.height)) 0 (max m n) h'
  have hsame := (hread.inside ⟨Nat.le_max_left m n, by omega⟩).symm.trans
    (hread'.inside ⟨Nat.le_max_right m n, by omega⟩)
  rw [Except.ok.injEq, Prod.mk.injEq] at hsame
  exact congrArg Tree.Measured.tree hsame.1

/-- No tokens stand for two trees. -/
theorem unambiguous (h : Derives phrase tokens a m) (h' : Derives phrase tokens b n) :
    a = b ∧ m = n :=
  ⟨h.tree_eq h', Nat.le_antisymm (h.nesting_le h') (h'.nesting_le h)⟩

end Derives

end Calculator
