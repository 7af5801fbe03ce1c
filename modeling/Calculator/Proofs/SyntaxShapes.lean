import Calculator.Proofs.GrammarFaults
import Calculator.Proofs.GrammarFollow

/-!
The three shapes of faults of the grammar. Behind a complete operand only a parenthesis can be
wrong: one is missing where the text ends, or one is too many. Everywhere else an operand has to
start, and any token but a number or an opening parenthesis is unexpected. What a rule says of the
tokens that it used up holds as well of all tokens in front of its fault, since whatever stands in
front of a phrase opens as many parentheses as it closes, or more, and leaves an operand to be
read.
-/

namespace Calculator

def countOf (m : Mark) (tokens : List Token) : Nat := tokens.countP (·.category = .mark m)

variable {s t : List Token} {ending : Except Fault Nat} {lexemes used rest : List Lexeme}
  {next : Lexeme} {fault : Fault}

@[simp]
theorem countOf_nil (m : Mark) : countOf m [] = 0 := rfl

@[simp]
theorem countOf_append (m : Mark) (s t : List Token) :
    countOf m (s ++ t) = countOf m s + countOf m t :=
  List.countP_append

@[simp]
theorem countOf_cons (m : Mark) (token : Token) (s : List Token) :
    countOf m (token :: s) = countOf m s + if token.category = .mark m then 1 else 0 := by
  simp [countOf, List.countP_cons]

/-- The parentheses of a phrase are balanced. -/
theorem Derives.balanced {phrase : Phrase} {tree : Tree} {n : Nat} (h : Derives phrase s tree n) :
    countOf .opening s = countOf .closing s := by
  induction h with
  | number => rfl
  | parentheses left right hinner ih => simp [Token.category, ih]
  | primary h ih | factor h ih | term h ih => exact ih
  | power byte hbase hexponent ihbase ihexponent => simp [Token.category, ihbase, ihexponent]
  | juxtaposition hleft hright ihleft ihright => simp [ihleft, ihright]
  | product byte hleft hmark hright ihleft ihright =>
      cases hmark <;> simp [Token.category, ihleft, ihright]
  | sum byte hleft hmark hright ihleft ihright =>
      cases hmark <;> simp [Token.category, ihleft, ihright]

/-- What a fault that a rule finds says of the tokens in front of the lexeme it stands at. -/
inductive Fault.Explains (s : List Token) (next : Lexeme) : Fault → Prop
  | unclosed (hlast : ∃ token ∈ s.getLast?, token.Ends)
      (hcount : countOf .closing s < countOf .opening s)
      (hend : next.token.category = .mark .endOfInput) :
      Explains s next (.mismatch (.mark .closing) next.token.category next.offset)
  | misplaced (hlast : ∀ token ∈ s.getLast?, ¬token.Ends) (hstarts : ¬next.token.Starts) :
      Explains s next (.unexpected next.token.category next.offset)

/-- What is found is the lexeme that the fault stands at, which starts no operand. -/
theorem Fault.Explains.found?_eq (h : fault.Explains s next) :
    fault.found? = some next.token.category ∧ fault.offset = next.offset ∧
      ¬next.token.Starts := by
  cases h with
  | unclosed hlast hcount hend => exact ⟨rfl, rfl, by simp [Token.Starts, hend]⟩
  | misplaced hlast hstarts => exact ⟨rfl, rfl, hstarts⟩

/-- A fault that is found behind the tokens `s`: one of the grammar, at a lexeme whose tokens in
front of it it explains, or one of another kind. -/
def Explained (ending : Except Fault Nat) (s : List Token) (lexemes : List Lexeme)
    (fault : Fault) : Prop :=
  fault.found? = none ∨ ∃ used rest next, lexemes = used ++ rest ∧
    front ending rest = .ok next ∧ fault.Explains (s ++ used.map Lexeme.token) next

namespace Explained

theorem here (hnext : front ending lexemes = .ok next) (h : fault.Explains s next) :
    Explained ending s lexemes fault := by
  refine Or.inr ⟨[], lexemes, next, rfl, hnext, ?_⟩
  rw [List.map_nil, List.append_nil]
  exact h

/-- Lexemes that were used up count among the tokens in front. -/
theorem shift (h : Explained ending (s ++ used.map Lexeme.token) rest fault) :
    Explained ending s (used ++ rest) fault := by
  rcases h with hnone | ⟨used', rest', next, rfl, hnext, hexplains⟩
  · exact Or.inl hnone
  · refine Or.inr ⟨used ++ used', rest', next, (List.append_assoc ..).symm, hnext, ?_⟩
    rw [List.map_append, ← List.append_assoc]
    exact hexplains

/-- Tokens can stand in front of a phrase if they close no more parentheses than they open, and do
not end in an operand, unless the phrase is known to start. -/
theorem behind (h : Explained ending [] lexemes fault)
    (hcount : countOf .closing s ≤ countOf .opening s)
    (hlast : (∀ token ∈ s.getLast?, ¬token.Ends) ∨
      ∃ next, front ending lexemes = .ok next ∧ next.token.Starts) :
    Explained ending s lexemes fault := by
  rcases h with hnone | ⟨used, rest, next, rfl, hnext, hexplains⟩
  · exact Or.inl hnone
  · refine Or.inr ⟨used, rest, next, rfl, hnext, ?_⟩
    rw [List.nil_append] at hexplains
    cases hexplains with
    | unclosed hends hopen hend =>
        refine .unclosed ?_ ?_ hend
        · obtain ⟨token, htoken, hends⟩ := hends
          refine ⟨token, ?_, hends⟩
          rw [List.getLast?_append, htoken]
          rfl
        · rw [countOf_append, countOf_append]
          omega
    | misplaced hnot hstarts =>
        refine .misplaced ?_ hstarts
        cases used with
        | nil =>
            rcases hlast with hlast | ⟨first, hfirst, hfirst'⟩
            · rw [List.map_nil, List.append_nil]
              exact hlast
            · rw [List.nil_append, hnext] at hfirst
              obtain rfl := Except.ok.inj hfirst
              exact absurd hfirst' hstarts
        | cons lexeme used =>
            rw [List.getLast?_append_of_ne_nil _ (by simp)]
            exact hnot

/-- A mark that ends no operand may stand in front of a phrase. -/
theorem behind_mark (h : Explained ending [] rest fault)
    (hcount : countOf .closing s ≤ countOf .opening s) (hends : ¬next.token.Ends) :
    Explained ending s (next :: rest) fault := by
  have hclosing : next.token.category ≠ .mark .closing := fun heq => hends (Or.inr heq)
  have hbehind : Explained ending (s ++ [next.token]) rest fault := by
    refine h.behind ?_ (Or.inl ?_)
    · simp only [countOf_append, countOf_cons, countOf_nil, if_neg hclosing]
      omega
    · rw [List.getLast?_concat]
      rintro _ ⟨⟩
      exact hends
  change Explained ending s ([next] ++ rest) fault
  exact shift hbehind

end Explained

/-- A reader whose faults of the grammar explain the tokens in front of them. -/
def ExplainsFaults (ending : Except Fault Nat) (read : List Lexeme → Reading) : Prop :=
  ∀ ⦃lexemes fault⦄, (∀ lexeme ∈ lexemes, lexeme.token.IsSpelled) →
    read lexemes = .error fault → Explained ending [] lexemes fault

theorem isSpelled_of_front (hspelled : ∀ lexeme ∈ lexemes, lexeme.token.IsSpelled)
    (hnext : front ending lexemes = .ok next) :
    next.token = .endOfInput ∨ next.token.IsSpelled := by
  rcases front_eq_ok_iff.mp hnext with ⟨rest, rfl⟩ | ⟨-, stop, -, rfl⟩
  · exact Or.inr (hspelled next List.mem_cons_self)
  · exact Or.inl rfl

/-- A link is a mark that ends no operand, or the start of its second operand. -/
def LinksOperands (link : Token → Option Link) : Prop :=
  ∀ ⦃token found⦄, link token = some found → if found.written then ¬token.Ends else token.Starts

theorem linksOperands_productLink : LinksOperands productLink := by
  intro token found h
  rcases productLink_eq_some_iff.mp h with ⟨mark, op, byte, rfl, hmark, rfl⟩ | ⟨hstarts, rfl⟩
  · cases hmark <;> simp [Token.Ends, Token.category]
  · exact hstarts

theorem linksOperands_sumLink : LinksOperands sumLink := by
  intro token found h
  obtain ⟨mark, op, byte, rfl, hmark, rfl⟩ := sumLink_eq_some_iff.mp h
  cases hmark <;> simp [Token.Ends, Token.category]

namespace Rule

variable {highest room : Nat} {left : Tree.Measured}
  (hending : ∀ fault, ending = .error fault → fault.found? = none)
include hending

theorem found?_of_front (h : front ending lexemes = .error fault) : fault.found? = none :=
  hending fault (front_eq_error_iff.mp h).2

/-- A join that fails is too high, if anything is left to be read. -/
theorem found?_of_join {op : Operator} {right : Tree.Measured}
    (h : join highest ending op left right rest = .error fault) : fault.found? = none := by
  simp only [join] at h
  split at h
  · cases h
  · cases hfront : front ending rest with
    | error found =>
        rw [hfront] at h
        cases h
        exact found?_of_front hending hfront
    | ok next =>
        rw [hfront] at h
        cases h
        rfl

section
variable {link : Token → Option Link} {part whole : Phrase} {operand : Rule}
  (hchains : Chains link part whole) (hlink : LinksOperands link)
  (hoperand : ExplainsFaults ending operand.read) (hproduces : Produces (Forms part) operand.read)
include hchains hlink hoperand hproduces

/-- In front of an operand stands a chain, whose parentheses are balanced, with a mark behind it or
with the operand as its next factor. -/
theorem explained_chainRest (hleft : Forms whole s left)
    (hspelled : ∀ lexeme ∈ lexemes, lexeme.token.IsSpelled)
    (h : chainRest highest ending link operand left lexemes = .error fault) :
    Explained ending s lexemes fault := by
  have htoken {token : Token} {found : Link} (hfound : link token = some found) :
      token ≠ .endOfInput := by
    rintro rfl
    rw [hchains.not_endOfInput] at hfound
    cases hfound
  fun_induction chainRest highest ending link operand left lexemes generalizing s with
  | case1 left lexemes found hfront =>
      cases h
      exact Or.inl (found?_of_front hending hfront)
  | case2 => cases h
  | case3 left lexemes next hnext found hfound fault hread =>
      cases h
      obtain ⟨n, hleft⟩ := hleft
      have hmark := hlink hfound
      obtain ⟨rest, rfl⟩ := exists_cons_of_front hnext (htoken hfound)
      obtain ⟨op, written⟩ := found
      cases written with
      | false =>
          exact (hoperand hspelled hread).behind hleft.balanced.ge (Or.inr ⟨next, hnext, hmark⟩)
      | true =>
          have hrest := (List.forall_mem_cons.mp hspelled).2
          exact (hoperand hrest hread).behind_mark hleft.balanced.ge hmark
  | case4 left lexemes next hnext found hfound right between hread fault hjoin =>
      cases h
      exact Or.inl (found?_of_join hending hjoin)
  | case5 left lexemes next hnext found hfound right between hread node hnode ih =>
      obtain ⟨rfl, -⟩ := join_eq_ok_iff.mp hnode
      obtain ⟨used, hused, n, hright⟩ := hproduces hread
      obtain ⟨step, rfl, hstep⟩ := found.exists_step hnext (htoken hfound) hused
      obtain ⟨m, hleft⟩ := hleft
      have hchain : Forms whole (s ++ step.map Lexeme.token)
          (.binary found.operator.symbol left right) := by
        rw [hstep]
        exact ⟨_, hchains.join hleft hfound hright⟩
      exact (ih hchain (List.forall_mem_append.mp hspelled).2 h).shift

theorem explained_chain : ExplainsFaults ending (chain highest ending link operand).read := by
  intro lexemes fault hspelled h
  rcases bind_eq_error_iff.mp h with hfirst | ⟨⟨first, rest⟩, hfirst, hchain⟩
  · exact hoperand hspelled hfirst
  · obtain ⟨used, rfl, n, hforms⟩ := hproduces hfirst
    have hrest := (List.forall_mem_append.mp hspelled).2
    apply Explained.shift
    exact explained_chainRest hending hchains hlink hoperand hproduces ⟨n, hchains.one hforms⟩ hrest
      hchain

end

theorem explained_expression (hhighest : 0 < highest)
    (hfactor : ExplainsFaults ending (factor highest ending room).read) :
    ExplainsFaults ending (expression highest ending (factor highest ending room)).read := by
  have hproduces : Produces (Fits .factor highest room) (factor highest ending room).read :=
    produces_factor hhighest room
  exact explained_chain hending chains_expression linksOperands_sumLink
    (explained_chain hending chains_term linksOperands_productLink hfactor hproduces.forms)
    (produces_term hproduces).forms

/-- An expression ends in an operand, so the closing parenthesis can only be missing at the end. -/
theorem explained_close {tree : Tree.Measured} (byte : UInt8) (htree : Forms .expression s tree)
    (hends : ∀ next, front ending lexemes = .ok next → next.token.EndsExpression)
    (hspelled : ∀ lexeme ∈ lexemes, lexeme.token.IsSpelled)
    (h : close ending tree lexemes = .error fault) :
    Explained ending (.mark .opening byte :: s) lexemes fault := by
  rcases bind_eq_error_iff.mp h with hfront | ⟨next, hnext, h⟩
  · exact Or.inl (found?_of_front hending hfront)
  · split at h
    · cases h
    · rename_i hclosing
      cases h
      obtain ⟨n, hderives⟩ := htree
      have hspelled' := isSpelled_of_front hspelled hnext
      have hend : next.token.category = .mark .endOfInput :=
        ((hends next hnext).category_cases hspelled').resolve_left hclosing
      refine .here hnext (.unclosed ?_ ?_ hend)
      · obtain ⟨token, htoken, hends⟩ := hderives.ends
        exact ⟨token, by simp [List.getLast?_cons, htoken], hends⟩
      · simp [Token.category, hderives.balanced]

theorem explained_power {base : Tree.Measured} (hbase : Forms .primary s base)
    (hdeeper : ∀ below, room = below + 1 → ExplainsFaults ending (factor highest ending below).read)
    (hspelled : ∀ lexeme ∈ lexemes, lexeme.token.IsSpelled)
    (h : power highest ending (deeper highest ending room) base lexemes = .error fault) :
    Explained ending s lexemes fault := by
  rcases bind_eq_error_iff.mp h with hfront | ⟨next, hnext, hpower⟩
  · exact Or.inl (found?_of_front hending hfront)
  · clear h
    split at hpower
    · rename_i hcaret
      cases room with
      | zero =>
          cases hpower
          exact Or.inl rfl
      | succ below =>
          obtain ⟨byte, offset, rest, -, rfl⟩ := exists_mark_of_front hnext hcaret (by decide)
          rcases bind_eq_error_iff.mp hpower with hread | ⟨⟨exponent, behind⟩, -, hpower⟩
          · obtain ⟨n, hderives⟩ := hbase
            have hrest := (List.forall_mem_cons.mp hspelled).2
            exact (hdeeper below rfl hrest hread).behind_mark hderives.balanced.ge
              (by simp [Token.Ends, Token.category])
          · rcases bind_eq_error_iff.mp hpower with hjoin | ⟨node, -, hpower⟩
            · exact Or.inl (found?_of_join hending hjoin)
            · cases hpower
    · cases hpower

section
variable (hhighest : 0 < highest)
  (hdeeper : ∀ below, room = below + 1 → ExplainsFaults ending (factor highest ending below).read)
include hhighest hdeeper

theorem explained_parentheses {byte : UInt8} {offset : Nat}
    (hspelled : ∀ lexeme ∈ lexemes, lexeme.token.IsSpelled)
    (h : primary highest ending (deeper highest ending room)
      (⟨.mark .opening byte, offset⟩ :: lexemes) = .error fault) :
    Explained ending [] (⟨.mark .opening byte, offset⟩ :: lexemes) fault := by
  cases room with
  | zero =>
      cases h
      exact Or.inl rfl
  | succ below =>
      have hinner := explained_expression hending hhighest (hdeeper below rfl)
      rcases bind_eq_error_iff.mp h with hread | ⟨⟨tree, rest⟩, hread, hclose⟩
      · exact (hinner hspelled hread).behind_mark (Nat.zero_le _)
          (by simp [Token.Ends, Token.category])
      · obtain ⟨used, rfl, hforms⟩ :=
          (produces_expression (produces_factor hhighest below)).forms hread
        have hrest := (List.forall_mem_append.mp hspelled).2
        have hleaves : ∀ next, front ending rest = .ok next → next.token.EndsExpression :=
          fun next hnext => leaves_expression below hread hnext
        rw [← List.cons_append]
        exact (explained_close hending byte hforms hleaves hrest hclose).shift

theorem explained_primary :
    ExplainsFaults ending (primary highest ending (deeper highest ending room)) := by
  intro lexemes fault hspelled h
  cases hfront : front ending lexemes with
  | error found =>
      obtain ⟨rfl, -⟩ := front_eq_error_iff.mp hfront
      simp only [primary, hfront, error_bind] at h
      cases h
      exact Or.inl (found?_of_front hending hfront)
  | ok next =>
      by_cases hstarts : next.token.Starts
      · obtain ⟨rest, rfl⟩ := exists_cons_of_front hfront hstarts.ne_endOfInput
        obtain ⟨token, offset⟩ := next
        cases token with
        | number value => cases h
        | mark m byte =>
            obtain rfl : m = .opening := by simpa [Token.Starts, Token.category] using hstarts
            exact explained_parentheses hending hhighest hdeeper
              (List.forall_mem_cons.mp hspelled).2 h
      · rw [primary_of_not_starts hfront hstarts] at h
        cases h
        refine .here hfront (.misplaced ?_ hstarts)
        rintro _ ⟨⟩

theorem explained_factor_of_deeper :
    ExplainsFaults ending (factor highest ending room).read := by
  rw [factor_eq]
  intro lexemes fault hspelled h
  rcases bind_eq_error_iff.mp h with hprimary | ⟨⟨base, rest⟩, hprimary, hpower⟩
  · exact explained_primary hending hhighest hdeeper hspelled hprimary
  · obtain ⟨used, rfl, hforms⟩ :=
      (produces_primary (produces_deeper hhighest room) hhighest).forms hprimary
    have hrest := (List.forall_mem_append.mp hspelled).2
    exact (explained_power hending hforms hdeeper hrest hpower).shift

end

/-- With less room there is less that a factor can read, so the induction is on the room. -/
theorem explained_factor (hhighest : 0 < highest) (room : Nat) :
    ExplainsFaults ending (factor highest ending room).read := by
  induction room with
  | zero =>
      apply explained_factor_of_deeper hending hhighest
      rintro _ ⟨⟩
  | succ room ih =>
      apply explained_factor_of_deeper hending hhighest
      rintro _ ⟨⟩
      exact ih

end Rule

/-- What a fault of the grammar can be: a parenthesis that is missing, one that is too many, or a
token where an operand has to start. -/
inductive SyntaxShape
  | unclosed
  | overclosed
  | misplaced

/-- A text with a fault of one shape. -/
inductive SyntaxShape.Describes (text : Bytes) (fault : Fault) : SyntaxShape → Prop
  | unclosed {tokens : List Token}
      (hfault : fault = .mismatch (.mark .closing) (.mark .endOfInput) text.length)
      (htokens : tokenize text = .ok tokens) (hlast : ∃ token ∈ tokens.getLast?, token.Ends)
      (hcount : countOf .closing tokens < countOf .opening tokens) : Describes text fault .unclosed
  | overclosed {offset : Nat}
      (hfault : fault = .mismatch (.mark .endOfInput) (.mark .closing) offset)
      (hbyte : text[offset]? = some (asciiByte ')'))
      (hlast : ∃ token ∈ (tokensBefore text offset).getLast?, token.Ends)
      (hcount : countOf .opening (tokensBefore text offset) =
        countOf .closing (tokensBefore text offset)) : Describes text fault .overclosed
  | misplaced {m : Mark} {offset : Nat} (hfault : fault = .unexpected (.mark m) offset)
      (hmark : m ∈ [Mark.plus, .minus, .star, .slash, .caret, .closing, .endOfInput])
      (hlast : ∀ token ∈ (tokensBefore text offset).getLast?,
        ∃ m ∈ [Mark.plus, .minus, .star, .slash, .caret, .opening], token.category = .mark m) :
      Describes text fault .misplaced

/-- The place of a token of some category in a text. The end of the input is behind the text. -/
def StandsIn (text : Bytes) (category : Category) (offset : Nat) : Prop :=
  category = .mark .endOfInput ∧ offset = text.length ∨
    ∃ lexeme ∈ (Script.ofText text).lexemes, lexeme.offset = offset ∧
      lexeme.token.category = category

/-- The one shape that a fault can have by its kind. -/
def Fault.shape? : Fault → Option SyntaxShape
  | .mismatch (.mark .closing) _ _ => some .unclosed
  | .mismatch .. => some .overclosed
  | .unexpected .. => some .misplaced
  | _ => none

theorem SyntaxShape.Describes.shape?_eq {text : Bytes} {shape : SyntaxShape}
    (h : shape.Describes text fault) : fault.shape? = some shape := by
  cases h with
  | unclosed hfault | overclosed hfault | misplaced hfault =>
      rw [hfault]
      rfl

/-- Where a fault of the grammar stands, either the rule that found it explains it, or an expression
ends in front of a closing parenthesis. -/
theorem exists_explained {text : Bytes} {found : Category} (h : parse text = .error fault)
    (hfound : fault.found? = some found) :
    ∃ used rest next, (Script.ofText text).lexemes = used ++ rest ∧
      front (Script.ofText text).ending rest = .ok next ∧
      (fault.Explains (used.map Lexeme.token) next ∨
        (∃ tree n, Derives .expression (used.map Lexeme.token) tree n) ∧
          next.token.category = .mark .closing ∧
          fault = .mismatch (.mark .endOfInput) (.mark .closing) next.offset) := by
  have hending : ∀ fault, (Script.ofText text).ending = .error fault → fault.found? = none :=
    fun _ => Script.found?_eq_none
  have hspelled : ∀ lexeme ∈ (Script.ofText text).lexemes, lexeme.token.IsSpelled :=
    fun _ => Script.isSpelled_of_mem_ofText
  rcases bind_eq_error_iff.mp h with hread | ⟨⟨tree, rest⟩, hread, h⟩
  · have hexplained := Rule.explained_expression hending limit_pos
      (Rule.explained_factor hending limit_pos limit) hspelled hread
    rcases hexplained with hnone | ⟨used, rest, next, hlexemes, hnext, hexplains⟩
    · rw [hnone] at hfound
      cases hfound
    · exact ⟨used, rest, next, hlexemes, hnext, Or.inl hexplains⟩
  · obtain ⟨used, hlexemes, n, hderives⟩ :=
      (Rule.produces_expression (Rule.produces_factor limit_pos limit)).forms hread
    rcases bind_eq_error_iff.mp h with hfront | ⟨next, hnext, h⟩
    · rw [Rule.found?_of_front hending hfront] at hfound
      cases hfound
    · split at h
      · cases h
      · rename_i hend
        cases h
        have hrest : ∀ lexeme ∈ rest, lexeme.token.IsSpelled :=
          (List.forall_mem_append.mp (hlexemes ▸ hspelled)).2
        have hclosing := ((Rule.leaves_expression limit hread hnext).category_cases
          (isSpelled_of_front hrest hnext)).resolve_right hend
        exact ⟨used, rest, next, hlexemes, hnext,
          Or.inr ⟨⟨tree.tree, n, hderives⟩, hclosing, by rw [hclosing]⟩⟩

section
variable {text : Bytes} (hlexemes : (Script.ofText text).lexemes = used ++ rest)
  (hnext : front (Script.ofText text).ending rest = .ok next)
include hlexemes hnext

theorem tokensBefore_eq : tokensBefore text next.offset = used.map Lexeme.token :=
  congrArg (List.map Lexeme.token) (Script.filter_offset_eq hlexemes hnext)

/-- In front of a place stands the end of the input, or a token of the text. -/
theorem place_cases :
    (next.token.category = .mark .endOfInput ∧ next.offset = text.length ∧
      tokenize text = .ok (used.map Lexeme.token)) ∨
    (next.token.category ≠ .mark .endOfInput ∧ ∃ others, rest = next :: others) := by
  rcases front_eq_ok_iff.mp hnext with ⟨others, rfl⟩ | ⟨rfl, stop, hstop, rfl⟩
  · have hmem : next ∈ (Script.ofText text).lexemes := hlexemes ▸ List.mem_append_cons_self
    exact Or.inr ⟨(Script.isSpelled_of_mem_ofText hmem).category_ne, others, rfl⟩
  · rw [List.append_nil] at hlexemes
    have hstop' : stop = 0 + text.length := Script.stop_eq hstop
    rw [Nat.zero_add] at hstop'
    exact Or.inl ⟨rfl, hstop', tokenize_eq_ok_iff.mpr ⟨⟨stop, hstop⟩, congrArg _ hlexemes⟩⟩

theorem standsIn_next : StandsIn text next.token.category next.offset := by
  rcases place_cases hlexemes hnext with ⟨hend, hoffset, -⟩ | ⟨-, others, rfl⟩
  · exact Or.inl ⟨hend, hoffset⟩
  · exact Or.inr ⟨next, hlexemes ▸ List.mem_append_cons_self, rfl, rfl⟩

theorem Fault.Explains.exists_describes (h : fault.Explains (used.map Lexeme.token) next) :
    ∃ shape : SyntaxShape, shape.Describes text fault := by
  have hspelled : ∀ lexeme ∈ used ++ rest, lexeme.token.IsSpelled :=
    hlexemes ▸ fun _ => Script.isSpelled_of_mem_ofText
  obtain ⟨hused, hrest⟩ := List.forall_mem_append.mp hspelled
  cases h with
  | unclosed hlast hcount hend =>
      rcases place_cases hlexemes hnext with ⟨-, hoffset, htokens⟩ | ⟨hne, -⟩
      · refine ⟨_, .unclosed ?_ htokens hlast hcount⟩
        rw [hend, hoffset]
      · exact absurd hend hne
  | misplaced hlast hstarts =>
      obtain ⟨m, hmark, hcategory⟩ :=
        Token.exists_mark_of_not_starts (isSpelled_of_front hrest hnext) hstarts
      refine ⟨_, .misplaced (by rw [hcategory]) hmark ?_⟩
      rw [tokensBefore_eq hlexemes hnext]
      intro token htoken
      obtain ⟨lexeme, hlexeme, rfl⟩ := List.mem_map.mp (List.mem_of_mem_getLast? htoken)
      exact Token.exists_mark_of_not_ends (hused lexeme hlexeme) (hlast _ htoken)

/-- A closing parenthesis behind a whole expression. -/
theorem describes_overclosed {tree : Tree} {n : Nat}
    (hderives : Derives .expression (used.map Lexeme.token) tree n)
    (hclosing : next.token.category = .mark .closing) :
    SyntaxShape.overclosed.Describes text
      (.mismatch (.mark .endOfInput) (.mark .closing) next.offset) := by
  rcases place_cases hlexemes hnext with ⟨hend, -⟩ | ⟨-, others, rfl⟩
  · rw [hclosing] at hend
    cases hend
  · have hbefore := tokensBefore_eq hlexemes hnext
    refine .overclosed rfl ?_ (hbefore ▸ hderives.ends) (hbefore ▸ hderives.balanced)
    obtain ⟨token, offset⟩ := next
    cases token with
    | number value => cases hclosing
    | mark m byte =>
        cases hclosing
        obtain ⟨hbyte, hmark, -⟩ := Script.ofText_cut hlexemes
        have hparenthesis : byte = 0x29 := by simpa [markTable] using mem_markTable hmark
        rw [hbyte, hparenthesis]
        rfl

end

/-- Every fault of the grammar has one of three shapes, and only one: an opening parenthesis is not
closed where the text ends, a closing one has none to close, or a token stands where an operand has
to start. It stands at the token that it names, which is no number and no opening parenthesis. -/
theorem syntaxFault_hasShape {text : Bytes} {found : Category}
    (h : (Parser.ofText text).parse.1 = .error fault) (hfound : fault.found? = some found) :
    (∃! shape : SyntaxShape, shape.Describes text fault) ∧ StandsIn text found fault.offset ∧
      found ≠ .number ∧ found ≠ .mark .opening := by
  have hparse : parse text = .error fault := (Parser.ofText text).parse_eq.symm.trans h
  obtain ⟨used, rest, next, hlexemes, hnext, hcases⟩ := exists_explained hparse hfound
  have hshape : ∃ shape : SyntaxShape, shape.Describes text fault := by
    rcases hcases with hexplains | ⟨⟨tree, n, hderives⟩, hclosing, rfl⟩
    · exact hexplains.exists_describes hlexemes hnext
    · exact ⟨_, describes_overclosed hlexemes hnext hderives hclosing⟩
  have hfacts : fault.found? = some next.token.category ∧ fault.offset = next.offset ∧
      ¬next.token.Starts := by
    rcases hcases with hexplains | ⟨-, hclosing, rfl⟩
    · exact hexplains.found?_eq
    · exact ⟨by rw [hclosing]; rfl, rfl, by simp [Token.Starts, hclosing]⟩
  obtain ⟨hcategory, hoffset, hstarts⟩ := hfacts
  obtain rfl := Option.some.inj (hcategory.symm.trans hfound)
  obtain ⟨shape, hdescribes⟩ := hshape
  refine ⟨⟨shape, hdescribes, ?_⟩, ?_, fun heq => hstarts (Or.inl heq),
    fun heq => hstarts (Or.inr heq)⟩
  · intro other hother
    exact Option.some.inj (hother.shape?_eq.symm.trans hdescribes.shape?_eq)
  · rw [hoffset]
    exact standsIn_next hlexemes hnext

/-- A factor that stands behind another one without a mark between them may be left unclosed. -/
theorem syntaxFault_hasShape_unclosedFactor :
    (Parser.ofText (ascii "(2)(3")).parse.1 =
        .error (.mismatch (.mark .closing) (.mark .endOfInput) 5) ∧
      (∃! shape : SyntaxShape, shape.Describes (ascii "(2)(3")
        (.mismatch (.mark .closing) (.mark .endOfInput) 5)) ∧
      StandsIn (ascii "(2)(3") (.mark .endOfInput) 5 := by
  have h : (Parser.ofText (ascii "(2)(3")).parse.1 =
      .error (.mismatch (.mark .closing) (.mark .endOfInput) 5) := by
    decide +kernel
  obtain ⟨hshape, hstands, -⟩ := syntaxFault_hasShape h rfl
  exact ⟨h, hshape, hstands⟩

end Calculator
