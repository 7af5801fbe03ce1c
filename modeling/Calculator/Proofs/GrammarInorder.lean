import Calculator.Calculation
import Calculator.Proofs.GrammarAcceptance

/-!
Trees read from left to right. Without its parentheses, and with a star wherever an operand follows
an operand, a list of tokens is what stands in its tree: every number and every operator once, in
the same order.
-/

namespace Calculator

def Operator.mark : Operator → Mark
  | add => .plus
  | sub => .minus
  | mul => .star
  | div => .slash
  | pow => .caret

def Operator.token (op : Operator) : Token := .mark op.mark op.symbol

/-- The token of an operator byte in a tree, of no known kind if it is no operator. -/
def Token.ofSymbol (symbol : UInt8) : Token :=
  match Operator.ofSymbol? symbol with
  | some op => op.token
  | none => .mark (.other symbol.toNat) symbol

/-- The literals and operators of a tree from left to right. -/
def Tree.inorder : Tree → List Token
  | .missing | .unknown => []
  | .literal value => [.number value]
  | .binary symbol left right => left.inorder ++ .ofSymbol symbol :: right.inorder

def Token.isParenthesis (token : Token) : Bool :=
  token.category == .mark .opening || token.category == .mark .closing

/-- A star between each end of an operand and the start of another one right behind it. -/
def withProducts : List Token → List Token
  | [] => []
  | [token] => [token]
  | token :: next :: rest =>
    if token.Ends ∧ next.Starts then
      token :: Operator.mul.token :: withProducts (next :: rest)
    else token :: withProducts (next :: rest)

/-- The numbers and operators of some tokens, with the stars that were left out. -/
def withoutParentheses (tokens : List Token) : List Token :=
  tokens.filter fun token => !token.isParenthesis

theorem SumMark.mark_eq {m : Mark} {op : Operator} (h : SumMark m op) : m = op.mark := by
  cases h <;> rfl

theorem ProductMark.mark_eq {m : Mark} {op : Operator} (h : ProductMark m op) : m = op.mark := by
  cases h <;> rfl

/-- Each operator is spelled by one byte only. -/
theorem Operator.eq_token (op : Operator) {byte : UInt8}
    (h : (Token.mark op.mark byte).IsSpelled) : Token.mark op.mark byte = op.token := by
  have hbyte : byte = op.symbol := by
    unfold Token.IsSpelled Mark.ofByte? at h
    cases op <;> grind [Operator.mark, Operator.symbol]
  rw [hbyte, token]

theorem Token.ofSymbol_symbol (op : Operator) : ofSymbol op.symbol = op.token := by
  cases op <;> rfl

section
variable {s t : List Token}

/-- The star that is left out between some tokens and others. -/
def productBetween (s t : List Token) : List Token :=
  match s.getLast?, t.head? with
  | some token, some next => if token.Ends ∧ next.Starts then [Operator.mul.token] else []
  | _, _ => []

theorem withProducts_append (s t : List Token) :
    withProducts (s ++ t) = withProducts s ++ (productBetween s t ++ withProducts t) := by
  induction s with
  | nil => rfl
  | cons token s ih =>
      cases s with
      | nil =>
          cases t with
          | nil => rfl
          | cons next t =>
              rw [List.singleton_append, withProducts, withProducts, productBetween]
              simp only [List.getLast?_singleton, List.head?_cons]
              split <;> rfl
      | cons next s =>
          have hbetween : productBetween (token :: next :: s) t = productBetween (next :: s) t := by
            rw [productBetween, productBetween, List.getLast?_cons_cons]
          rw [List.cons_append, List.cons_append, withProducts, withProducts, ← List.cons_append,
            ih, hbetween]
          split <;> rfl

theorem productBetween_of_not_ends {token : Token} (hlast : s.getLast? = some token)
    (h : ¬token.Ends) : productBetween s t = [] := by
  rw [productBetween, hlast]
  cases t.head? with
  | none => rfl
  | some next => exact if_neg fun hboth => h hboth.1

theorem productBetween_of_not_starts {next : Token} (hhead : t.head? = some next)
    (h : ¬next.Starts) : productBetween s t = [] := by
  rw [productBetween, hhead]
  cases s.getLast? with
  | none => rfl
  | some token => exact if_neg fun hboth => h hboth.2

theorem productBetween_of_both {token next : Token} (hlast : s.getLast? = some token)
    (hhead : t.head? = some next) (hends : token.Ends) (hstarts : next.Starts) :
    productBetween s t = [Operator.mul.token] := by
  rw [productBetween, hlast, hhead]
  exact if_pos ⟨hends, hstarts⟩

end

section
variable {s t : List Token} {a b : Tree}

theorem withoutParentheses_append (s t : List Token) :
    withoutParentheses (s ++ t) = withoutParentheses s ++ withoutParentheses t :=
  List.filter_append s t

theorem withoutParentheses_operator (op : Operator) (tokens : List Token) :
    withoutParentheses (op.token :: tokens) = op.token :: withoutParentheses tokens :=
  List.filter_cons_of_pos (by cases op <;> rfl)

theorem withProducts_parentheses (left right : UInt8) (s : List Token) :
    withProducts (.mark .opening left :: (s ++ [.mark .closing right])) =
      .mark .opening left :: (withProducts s ++ [.mark .closing right]) := by
  have hopening (t : List Token) : productBetween [.mark .opening left] t = [] :=
    productBetween_of_not_ends rfl (by simp [Token.Ends, Token.category])
  have hclosing : productBetween s [.mark .closing right] = [] :=
    productBetween_of_not_starts rfl (by simp [Token.Starts, Token.category])
  rw [← List.singleton_append, withProducts_append, hopening, withProducts_append, hclosing]
  rfl

theorem inorder_parentheses {left right : UInt8} :
    withoutParentheses (withProducts (.mark .opening left :: (s ++ [.mark .closing right]))) =
      withoutParentheses (withProducts s) := by
  calc withoutParentheses (withProducts (.mark .opening left :: (s ++ [.mark .closing right])))
      = withoutParentheses (withProducts s ++ [.mark .closing right]) := by
        rw [withProducts_parentheses]
        exact List.filter_cons_of_neg (by simp [Token.isParenthesis, Token.category])
    _ = withoutParentheses (withProducts s) ++ [] := by
        rw [withoutParentheses_append]
        rfl
    _ = withoutParentheses (withProducts s) := List.append_nil _

/-- An operator between the tokens of two trees stands between them in their tree. -/
theorem inorder_binary {op : Operator} {tokens : List Token}
    (hproducts : withProducts tokens = withProducts s ++ op.token :: withProducts t)
    (hleft : withoutParentheses (withProducts s) = a.inorder)
    (hright : withoutParentheses (withProducts t) = b.inorder) :
    withoutParentheses (withProducts tokens) = (Tree.binary op.symbol a b).inorder := by
  calc withoutParentheses (withProducts tokens)
      = withoutParentheses (withProducts s) ++ op.token :: withoutParentheses (withProducts t) := by
        rw [hproducts, withoutParentheses_append, withoutParentheses_operator]
    _ = a.inorder ++ op.token :: b.inorder := by rw [hleft, hright]
    _ = (Tree.binary op.symbol a b).inorder := by rw [Tree.inorder, Token.ofSymbol_symbol]

/-- No star is left out beside a token that belongs to no operand. -/
theorem withProducts_between {token : Token} (hstarts : ¬token.Starts) (hends : ¬token.Ends)
    (s t : List Token) :
    withProducts (s ++ token :: t) = withProducts s ++ token :: withProducts t := by
  have hbefore : productBetween s (token :: t) = [] := productBetween_of_not_starts rfl hstarts
  have hbehind : productBetween [token] t = [] := productBetween_of_not_ends rfl hends
  rw [withProducts_append, hbefore, ← List.singleton_append, withProducts_append, hbehind]
  rfl

theorem withProducts_operator (op : Operator) (s t : List Token) :
    withProducts (s ++ op.token :: t) = withProducts s ++ op.token :: withProducts t := by
  apply withProducts_between
  · cases op <;> simp [Token.Starts, Token.category, Operator.token, Operator.mark]
  · cases op <;> simp [Token.Ends, Token.category, Operator.token, Operator.mark]

/-- A spelled operator between two phrases. -/
theorem inorder_marked (op : Operator) {byte : UInt8}
    (hspelled : ∀ token ∈ s ++ .mark op.mark byte :: t, token.IsSpelled)
    (hleft : (∀ token ∈ s, token.IsSpelled) → withoutParentheses (withProducts s) = a.inorder)
    (hright : (∀ token ∈ t, token.IsSpelled) → withoutParentheses (withProducts t) = b.inorder) :
    withoutParentheses (withProducts (s ++ .mark op.mark byte :: t)) =
      (Tree.binary op.symbol a b).inorder := by
  rw [List.forall_mem_append, List.forall_mem_cons] at hspelled
  obtain ⟨hs, hoperator, ht⟩ := hspelled
  rw [Operator.eq_token op hoperator]
  exact inorder_binary (withProducts_operator op s t) (hleft hs) (hright ht)

/-- The first operand ends with the end of one, and the second begins with the start of one. -/
theorem withProducts_juxtaposition {phrase phrase' : Phrase} {m n : Nat} (hs : Derives phrase s a m)
    (ht : Derives phrase' t b n) :
    withProducts (s ++ t) = withProducts s ++ Operator.mul.token :: withProducts t := by
  obtain ⟨token, hlast, hends⟩ := hs.ends
  obtain ⟨next, rest, rfl, hstarts⟩ := ht.starts
  rw [withProducts_append, productBetween_of_both hlast rfl hends hstarts, List.singleton_append]

end

theorem Derives.inorder_eq {phrase : Phrase} {tokens : List Token} {tree : Tree} {n : Nat}
    (h : Derives phrase tokens tree n) (hspelled : ∀ token ∈ tokens, token.IsSpelled) :
    withoutParentheses (withProducts tokens) = tree.inorder := by
  induction h with
  | number value => rfl
  | parentheses left right hinner ih =>
      rw [inorder_parentheses]
      exact ih fun token htoken => hspelled token (by simp [htoken])
  | primary h ih | factor h ih | term h ih => exact ih hspelled
  | power byte hbase hexponent ihbase ihexponent =>
      exact inorder_marked .pow hspelled ihbase ihexponent
  | product byte hleft hmark hright ihleft ihright =>
      obtain rfl := hmark.mark_eq
      exact inorder_marked _ hspelled ihleft ihright
  | juxtaposition hleft hright ihleft ihright =>
      rw [List.forall_mem_append] at hspelled
      exact inorder_binary (withProducts_juxtaposition hleft hright) (ihleft hspelled.1)
        (ihright hspelled.2)
  | sum byte hleft hmark hright ihleft ihright =>
      obtain rfl := hmark.mark_eq
      exact inorder_marked _ hspelled ihleft ihright

/-- A text that has a tree has tokens, and its value is the value of the tree. -/
theorem value_of_parse {text : Bytes} {tree : Tree.Measured} (h : parse text = .ok tree) :
    (calculate text).map Calculation.value = tree.tree.evaluate := by
  obtain ⟨hending, -⟩ := Script.parse_eq_ok (fun _ => Script.isSpelled_of_mem_ofText) h
  rw [calculate, tokenize_eq_ok_iff.mpr ⟨hending, rfl⟩, ok_bind, h, ok_bind]
  cases tree.tree.evaluate <;> rfl

/-- The tokens of a calculation and its tree tell the same story, although the tree comes from a
parser that reads the text again. -/
theorem inorder_of_calculate {text : Bytes} {c : Calculation} (h : calculate text = .ok c) :
    tokenize text = .ok c.tokens ∧ (Parser.ofText text).parse.1 = .ok c.tree ∧
      c.tree.tree.inorder = withoutParentheses (withProducts c.tokens) := by
  obtain ⟨tokens, htokens, h⟩ := bind_eq_ok_iff.mp h
  obtain ⟨tree, htree, h⟩ := bind_eq_ok_iff.mp h
  obtain ⟨value, hvalue, h⟩ := bind_eq_ok_iff.mp h
  cases h
  refine ⟨htokens, (Parser.ofText text).parse_eq.trans htree, ?_⟩
  obtain ⟨-, rfl⟩ := tokenize_eq_ok_iff.mp htokens
  obtain ⟨-, -, n, -, hderives⟩ :=
    Script.parse_eq_ok (fun _ => Script.isSpelled_of_mem_ofText) htree
  refine (hderives.inorder_eq ?_).symm
  intro token htoken
  obtain ⟨lexeme, hlexeme, rfl⟩ := List.mem_map.mp htoken
  exact Script.isSpelled_of_mem_ofText hlexeme

theorem inorder_juxtaposed :
    ∃ c, calculate (ascii "2(3+4)5") = .ok c ∧ c.tree.tree.inorder =
      [.number (.whole 2), Operator.mul.token, .number (.whole 3), Operator.add.token,
        .number (.whole 4), Operator.mul.token, .number (.whole 5)] := by
  have htokens : (calculate (ascii "2(3+4)5")).toOption.map Calculation.tokens =
      some [.number (.whole 2), .mark .opening 0x28, .number (.whole 3), .mark .plus 0x2B,
        .number (.whole 4), .mark .closing 0x29, .number (.whole 5)] := by
    decide +kernel
  obtain ⟨c, hc, htokens⟩ := Option.map_eq_some_iff.mp htokens
  refine ⟨c, eq_ok_of_toOption hc, (inorder_of_calculate (eq_ok_of_toOption hc)).2.2.trans ?_⟩
  rw [htokens]
  decide +kernel

end Calculator
