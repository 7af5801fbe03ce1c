import Calculator.Proofs.Answer
import Calculator.Proofs.GrammarDerivation

/-!
What the rules of the grammar read, they read by a derivation: the lexemes used up derive the tree,
the tree is not higher than the highest allowed, and the derivation nests no deeper than the room.
The chains are treated once for every kind of link.
-/

namespace Calculator

/-- A tree and the lexemes behind it, or a fault. -/
abbrev Reading := Except Fault (Tree.Measured × List Lexeme)

/-- Every reading of `read` uses up lexemes whose tokens are a `P` with the tree. -/
def Produces (P : List Token → Tree.Measured → Prop) (read : List Lexeme → Reading) : Prop :=
  ∀ ⦃lexemes tree rest⦄, read lexemes = .ok (tree, rest) →
    ∃ used, lexemes = used ++ rest ∧ P (used.map Lexeme.token) tree

/-- Tokens that derive a tree within the limits on height and nesting. -/
def Fits (phrase : Phrase) (highest room : Nat) (tokens : List Token) (tree : Tree.Measured) :
    Prop :=
  tree.height ≤ highest ∧ ∃ n ≤ room, Derives phrase tokens tree.tree n

/-- The tokens of a link and the operand behind it. -/
def Link.tokens (link : Link) (token : Token) (operand : List Token) : List Token :=
  if link.written then token :: operand else operand

theorem limit_pos : 0 < limit := by decide

theorem front_eq_ok_iff {ending : Except Fault Nat} {lexemes : List Lexeme} {next : Lexeme} :
    front ending lexemes = .ok next ↔
      (∃ rest, lexemes = next :: rest) ∨
        lexemes = [] ∧ ∃ offset, ending = .ok offset ∧ next = ⟨.endOfInput, offset⟩ := by
  cases lexemes with
  | cons lexeme lexemes => simp [front]
  | nil =>
      cases ending with
      | error fault => simp [front, Except.map]
      | ok offset => simp [front, Except.map, eq_comm]

/-- In front of the end of the input stands a lexeme. -/
theorem exists_cons_of_front {ending : Except Fault Nat} {lexemes : List Lexeme} {next : Lexeme}
    (h : front ending lexemes = .ok next) (hnext : next.token ≠ .endOfInput) :
    ∃ rest, lexemes = next :: rest := by
  rcases front_eq_ok_iff.mp h with hcons | ⟨-, offset, -, rfl⟩
  · exact hcons
  · exact absurd rfl hnext

theorem exists_mark_of_front {ending : Except Fault Nat} {lexemes : List Lexeme} {next : Lexeme}
    {m : Mark} (h : front ending lexemes = .ok next) (hmark : next.token.category = .mark m)
    (hend : m ≠ .endOfInput) :
    ∃ byte offset rest, next = ⟨.mark m byte, offset⟩ ∧
      lexemes = ⟨.mark m byte, offset⟩ :: rest := by
  have htoken : next.token ≠ .endOfInput := by
    intro heq
    rw [heq] at hmark
    exact hend (Category.mark.inj hmark).symm
  obtain ⟨rest, rfl⟩ := exists_cons_of_front h htoken
  obtain ⟨token, offset⟩ := next
  cases token with
  | number value => cases hmark
  | mark m byte =>
      cases hmark
      exact ⟨byte, offset, rest, rfl, rfl⟩

/-- The lexemes of a link and the operand behind it: the operand's, behind the link's own if it is
written. -/
theorem Link.exists_step {link : Link} {ending : Except Fault Nat} {lexemes used rest : List Lexeme}
    {next : Lexeme} (hnext : front ending lexemes = .ok next) (htoken : next.token ≠ .endOfInput)
    (h : link.operand lexemes = used ++ rest) :
    ∃ step, lexemes = step ++ rest ∧
      step.map Lexeme.token = link.tokens next.token (used.map Lexeme.token) := by
  obtain ⟨behind, rfl⟩ := exists_cons_of_front hnext htoken
  obtain ⟨op, written⟩ := link
  cases written with
  | true => exact ⟨next :: used, congrArg (next :: ·) h, rfl⟩
  | false => exact ⟨used, h, rfl⟩

theorem join_eq_ok_iff {highest : Nat} {ending : Except Fault Nat} {op : Operator}
    {left right node : Tree.Measured} {rest : List Lexeme} :
    join highest ending op left right rest = .ok node ↔
      node = .binary op.symbol left right ∧ node.height ≤ highest := by
  simp only [join]
  split
  · rename_i hheight
    rw [Except.ok.injEq]
    constructor
    · rintro rfl
      exact ⟨rfl, hheight⟩
    · rintro ⟨rfl, -⟩
      rfl
  · rename_i hheight
    refine iff_of_false ?_ ?_
    · cases front ending rest <;> nofun
    · rintro ⟨rfl, h⟩
      exact hheight h

namespace Rule

variable {highest room : Nat} {ending : Except Fault Nat}

/-- The rule for factors one level deeper, if there is room for one. -/
def deeper (highest : Nat) (ending : Except Fault Nat) : (room : Nat) → Option Rule
  | 0 => none
  | room + 1 => some (factor highest ending room)

theorem factor_eq (room : Nat) :
    factor highest ending room = factorAbove highest ending (deeper highest ending room) := by
  cases room <;> rfl

/-- The reading of a phrase with `room` levels of nesting left. -/
def reading (highest : Nat) (ending : Except Fault Nat) (room : Nat) :
    Phrase → List Lexeme → Reading
  | .primary => primary highest ending (deeper highest ending room)
  | .factor => (factor highest ending room).read
  | .term => (chain highest ending productLink (factor highest ending room)).read
  | .expression => (expression highest ending (factor highest ending room)).read

section
variable {link : Token → Option Link} {operand : Rule} {left : Tree.Measured}
  {lexemes rest : List Lexeme}

theorem chainRest_of_none {next : Lexeme} (hnext : front ending lexemes = .ok next)
    (hlink : link next.token = none) :
    chainRest highest ending link operand left lexemes = .ok (left, lexemes) := by
  rw [chainRest, hnext]
  simp only [hlink]

theorem chainRest_of_link {next : Lexeme} {found : Link} (hnext : front ending lexemes = .ok next)
    (hlink : link next.token = some found) :
    chainRest highest ending link operand left lexemes = (do
      let (right, rest) ← operand.read (found.operand lexemes)
      let node ← join highest ending found.operator left right rest
      chainRest highest ending link operand node rest) := by
  rw [chainRest, hnext]
  simp only [hlink]
  split
  · rename_i fault hread
    rw [hread, error_bind]
  · rename_i right rest hread
    rw [hread, ok_bind]
    cases join highest ending found.operator left right rest <;> rfl

/-- The chain grows by one operand at a time, from the left. -/
theorem produces_chainRest {Operand Chain : List Token → Tree.Measured → Prop}
    (hoperand : Produces Operand operand.read) (hend : link .endOfInput = none)
    (hjoin : ∀ {s t a b token found}, Chain s a → link token = some found → Operand t b →
      (Tree.Measured.binary found.operator.symbol a b).height ≤ highest →
      Chain (s ++ found.tokens token t) (.binary found.operator.symbol a b))
    {s : List Token} {tree : Tree.Measured} (hleft : Chain s left)
    (h : chainRest highest ending link operand left lexemes = .ok (tree, rest)) :
    ∃ used, lexemes = used ++ rest ∧ Chain (s ++ used.map Lexeme.token) tree := by
  fun_induction chainRest highest ending link operand left lexemes generalizing s with
  | case1 | case3 | case4 => cases h
  | case2 left lexemes =>
      cases h
      refine ⟨[], rfl, ?_⟩
      rw [List.map_nil, List.append_nil]
      exact hleft
  | case5 left lexemes next hnext found hfound right between hread node hnode ih =>
      obtain ⟨rfl, hheight⟩ := join_eq_ok_iff.mp hnode
      obtain ⟨between', hbetween, hright⟩ := hoperand hread
      obtain ⟨used, rfl, hchain⟩ := ih (hjoin hleft hfound hright hheight) h
      have htoken : next.token ≠ .endOfInput := by
        intro heq
        rw [heq, hend] at hfound
        cases hfound
      obtain ⟨step, rfl, hstep⟩ := found.exists_step hnext htoken hbetween
      refine ⟨step ++ used, by rw [List.append_assoc], ?_⟩
      rw [List.map_append, hstep, ← List.append_assoc]
      exact hchain

theorem produces_chain {Operand Chain : List Token → Tree.Measured → Prop}
    (hoperand : Produces Operand operand.read) (hend : link .endOfInput = none)
    (hfirst : ∀ {s a}, Operand s a → Chain s a)
    (hjoin : ∀ {s t a b token found}, Chain s a → link token = some found → Operand t b →
      (Tree.Measured.binary found.operator.symbol a b).height ≤ highest →
      Chain (s ++ found.tokens token t) (.binary found.operator.symbol a b)) :
    Produces Chain (chain highest ending link operand).read := by
  intro lexemes tree rest h
  obtain ⟨⟨first, behind⟩, hread, hchain⟩ := bind_eq_ok_iff.mp h
  obtain ⟨head, rfl, hhead⟩ := hoperand hread
  obtain ⟨used, rfl, hused⟩ :=
    produces_chainRest hoperand hend hjoin (hfirst hhead) hchain
  refine ⟨head ++ used, by rw [List.append_assoc], ?_⟩
  rw [List.map_append]
  exact hused

end

theorem produces_term {factor : Rule} (hfactor : Produces (Fits .factor highest room) factor.read) :
    Produces (Fits .term highest room) (chain highest ending productLink factor).read := by
  apply produces_chain hfactor rfl
  · rintro s a ⟨hheight, n, hn, hderives⟩
    exact ⟨hheight, n, hn, .factor hderives⟩
  · rintro s t a b token found ⟨-, m, hm, hleft⟩ hlink ⟨-, n, hn, hright⟩ hheight
    refine ⟨hheight, max m n, Nat.max_le.mpr ⟨hm, hn⟩, ?_⟩
    rcases productLink_eq_some_iff.mp hlink with ⟨mark, op, byte, rfl, hmark, rfl⟩ | ⟨-, rfl⟩
    · exact .product byte hleft hmark hright
    · exact .juxtaposition hleft hright

theorem produces_expression {factor : Rule}
    (hfactor : Produces (Fits .factor highest room) factor.read) :
    Produces (Fits .expression highest room) (expression highest ending factor).read := by
  apply produces_chain (produces_term hfactor) rfl
  · rintro s a ⟨hheight, n, hn, hderives⟩
    exact ⟨hheight, n, hn, .term hderives⟩
  · rintro s t a b token found ⟨-, m, hm, hleft⟩ hlink ⟨-, n, hn, hright⟩ hheight
    refine ⟨hheight, max m n, Nat.max_le.mpr ⟨hm, hn⟩, ?_⟩
    obtain ⟨mark, op, byte, rfl, hmark, rfl⟩ := sumLink_eq_some_iff.mp hlink
    exact .sum byte hleft hmark hright

theorem close_eq_ok_iff {inner tree : Tree.Measured} {lexemes rest : List Lexeme} :
    close ending inner lexemes = .ok (tree, rest) ↔
      tree = inner ∧ ∃ byte offset, lexemes = ⟨.mark .closing byte, offset⟩ :: rest := by
  constructor
  · intro h
    obtain ⟨next, hnext, h⟩ := bind_eq_ok_iff.mp h
    split at h
    · rename_i hclosing
      cases h
      obtain ⟨byte, offset, behind, -, rfl⟩ := exists_mark_of_front hnext hclosing (by decide)
      exact ⟨rfl, byte, offset, rfl⟩
    · cases h
  · rintro ⟨rfl, byte, offset, rfl⟩
    rfl

section
variable {deeper : Option Rule} (hdeeper : ∀ factor ∈ deeper, ∃ below, room = below + 1 ∧
  Produces (Fits .factor highest below) factor.read)
include hdeeper

theorem produces_primary (hhighest : 0 < highest) :
    Produces (Fits .primary highest room) (primary highest ending deeper) := by
  intro lexemes tree rest h
  unfold primary at h
  split at h
  · rename_i value offset behind
    cases h
    exact ⟨[⟨.number value, offset⟩], rfl, hhighest, 0, Nat.zero_le _, .number value⟩
  · rename_i left offset behind
    split at h
    · cases h
    · rename_i factor
      obtain ⟨below, rfl, hfactor⟩ := hdeeper factor rfl
      obtain ⟨⟨inner, between⟩, hread, hclose⟩ := bind_eq_ok_iff.mp h
      obtain ⟨rfl, right, offset', rfl⟩ := close_eq_ok_iff.mp hclose
      obtain ⟨used, rfl, hheight, n, hn, hderives⟩ := produces_expression hfactor hread
      refine ⟨⟨.mark .opening left, offset⟩ :: (used ++ [⟨.mark .closing right, offset'⟩]), ?_,
        hheight, n + 1, Nat.succ_le_succ hn, ?_⟩
      · simp
      · rw [List.map_cons, List.map_append]
        exact .parentheses left right hderives
  · obtain ⟨next, -, h⟩ := bind_eq_ok_iff.mp h
    cases h

theorem produces_power {s : List Token} {base tree : Tree.Measured} {lexemes rest : List Lexeme}
    (hbase : Fits .primary highest room s base)
    (h : power highest ending deeper base lexemes = .ok (tree, rest)) :
    ∃ used, lexemes = used ++ rest ∧
      Fits .factor highest room (s ++ used.map Lexeme.token) tree := by
  obtain ⟨hheight, m, hm, hbase⟩ := hbase
  obtain ⟨next, hnext, hpower⟩ := bind_eq_ok_iff.mp h
  clear h
  split at hpower
  · rename_i hcaret
    split at hpower
    · cases hpower
    · rename_i factor
      obtain ⟨below, rfl, hfactor⟩ := hdeeper factor rfl
      obtain ⟨⟨exponent, behind⟩, hread, hpower⟩ := bind_eq_ok_iff.mp hpower
      obtain ⟨node, hnode, hpower⟩ := bind_eq_ok_iff.mp hpower
      obtain ⟨rfl, hheight⟩ := join_eq_ok_iff.mp hnode
      cases hpower
      obtain ⟨used, hused, -, n, hn, hexponent⟩ := hfactor hread
      obtain ⟨byte, offset, after, -, rfl⟩ := exists_mark_of_front hnext hcaret (by decide)
      rw [List.tail_cons] at hused
      subst hused
      refine ⟨⟨.mark .caret byte, offset⟩ :: used, rfl, hheight, max m (n + 1), ?_, ?_⟩
      · omega
      · exact .power byte hbase hexponent
  · cases hpower
    refine ⟨[], rfl, hheight, m, hm, ?_⟩
    rw [List.map_nil, List.append_nil]
    exact .primary hbase

theorem produces_factorAbove (hhighest : 0 < highest) :
    Produces (Fits .factor highest room) (factorAbove highest ending deeper).read := by
  intro lexemes tree rest h
  obtain ⟨⟨base, behind⟩, hread, hpower⟩ := bind_eq_ok_iff.mp h
  obtain ⟨head, rfl, hbase⟩ := produces_primary hdeeper hhighest hread
  obtain ⟨used, rfl, hused⟩ := produces_power hdeeper hbase hpower
  refine ⟨head ++ used, by rw [List.append_assoc], ?_⟩
  rw [List.map_append]
  exact hused

end

/-- With less room there is less that a factor can read, so the induction is on the room. -/
theorem produces_factor (hhighest : 0 < highest) (room : Nat) :
    Produces (Fits .factor highest room) (factor highest ending room).read := by
  induction room with
  | zero =>
      refine produces_factorAbove ?_ hhighest
      rintro _ ⟨⟩
  | succ room ih =>
      refine produces_factorAbove ?_ hhighest
      rintro _ ⟨⟩
      exact ⟨room, rfl, ih⟩

end Rule

end Calculator
