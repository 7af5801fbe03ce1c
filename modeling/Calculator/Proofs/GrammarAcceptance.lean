import Calculator.Proofs.GrammarCompleteness
import Calculator.Proofs.ParserAgreement

/-!
The texts that have a tree. A tree is answered for a text exactly when the tokens of the whole text
derive it within the limits on height and nesting, and tokens that derive a tree only beyond these
limits are too deep. The parser that reads tokens as it needs them answers the same.
-/

namespace Calculator

namespace Script

variable {script : Script} {tree : Tree.Measured}

/-- At the end of an expression with the end of the input in front of it, no lexeme is left. -/
theorem parse_eq_ok (hspelled : ∀ lexeme ∈ script.lexemes, lexeme.token.IsSpelled)
    (h : script.parse = .ok tree) : (∃ stop, script.ending = .ok stop) ∧
      Fits .expression limit limit (script.lexemes.map Lexeme.token) tree := by
  obtain ⟨⟨found, rest⟩, hread, hrest⟩ := bind_eq_ok_iff.mp h
  obtain ⟨next, hnext, hend⟩ := bind_eq_ok_iff.mp hrest
  split at hend
  · rename_i hcategory
    cases hend
    obtain ⟨used, hused, hfits⟩ :=
      Rule.produces_expression (Rule.produces_factor limit_pos limit) hread
    rcases front_eq_ok_iff.mp hnext with ⟨behind, rfl⟩ | ⟨rfl, stop, hstop, -⟩
    · have hmem : next ∈ script.lexemes := by
        rw [hused]
        exact List.mem_append_right used List.mem_cons_self
      exact absurd hcategory (hspelled next hmem).category_ne
    · rw [hused, List.append_nil]
      exact ⟨⟨stop, hstop⟩, hfits⟩
  · cases hend

theorem limited_parse {stop n : Nat} {tree : Tree} (hending : script.ending = .ok stop)
    (h : Derives .expression (script.lexemes.map Lexeme.token) tree n) :
    Limited (n ≤ limit ∧ tree.height ≤ limit) (.ok tree.measured) script.parse := by
  rw [parse, hending]
  exact (Rule.limited_whole limit_pos stop limit h).bind fun found => do
    let next ← front (.ok stop) found.2
    if next.token.category = .mark .endOfInput then .ok found.1
    else .error (.mismatch (.mark .endOfInput) next.token.category next.offset)

end Script

/-- Tokens that derive a tree within the limits are read as this tree. -/
theorem parse_of_derives {text : Bytes} {tokens : List Token} {tree : Tree} {n : Nat}
    (htokens : tokenize text = .ok tokens) (h : Derives .expression tokens tree n) (hn : n ≤ limit)
    (hheight : tree.height ≤ limit) : parse text = .ok tree.measured := by
  obtain ⟨⟨stop, hending⟩, rfl⟩ := tokenize_eq_ok_iff.mp htokens
  exact (Script.limited_parse hending h).inside ⟨hn, hheight⟩

/-- A text has a tree exactly when its tokens derive this tree within the limits. There is no other
tree for these tokens, and beyond the limits they are too deep. -/
theorem parse_iff_derives (text : Bytes) :
    (Parser.ofText text).parse.1 = parse text ∧
      (∀ tree : Tree.Measured, parse text = .ok tree ↔
        ∃ tokens n, tokenize text = .ok tokens ∧ Derives .expression tokens tree.tree n ∧
          tree.tree.height ≤ limit ∧ n ≤ limit) ∧
      (∀ tokens a b m n, Derives .expression tokens a m → Derives .expression tokens b n →
        a = b ∧ m = n) ∧
      ∀ tokens tree n, tokenize text = .ok tokens → Derives .expression tokens tree n →
        limit < tree.height ∨ limit < n →
          ∃ offset, parse text = .error (.tooDeep offset) := by
  refine ⟨(Parser.ofText text).parse_eq, ?_, fun _ _ _ _ _ => Derives.unambiguous, ?_⟩
  · intro tree
    constructor
    · intro h
      obtain ⟨hending, hheight, n, hn, hderives⟩ :=
        Script.parse_eq_ok (fun _ => Script.isSpelled_of_mem_ofText) h
      rw [tree.height_eq] at hheight
      exact ⟨_, n, tokenize_eq_ok_iff.mpr ⟨hending, rfl⟩, hderives, hheight, hn⟩
    · rintro ⟨tokens, n, htokens, hderives, hheight, hn⟩
      obtain ⟨⟨stop, hending⟩, rfl⟩ := tokenize_eq_ok_iff.mp htokens
      have hmeasured : tree.tree.measured = tree := Tree.Measured.ext_tree rfl
      rw [parse, (Script.limited_parse hending hderives).inside ⟨hn, hheight⟩, hmeasured]
  · intro tokens tree n htokens hderives hbeyond
    obtain ⟨⟨stop, hending⟩, rfl⟩ := tokenize_eq_ok_iff.mp htokens
    apply (Script.limited_parse hending hderives).outside
    omega

/-- A number in `n` pairs of parentheses. -/
def nested (n : Nat) : Bytes :=
  List.replicate n (asciiByte '(') ++ asciiByte '1' :: List.replicate n (asciiByte ')')

def nestedTokens (n : Nat) : List Token :=
  List.replicate n (.mark .opening (asciiByte '(')) ++
    .number (.whole 1) :: List.replicate n (.mark .closing (asciiByte ')'))

theorem derives_nestedTokens (n : Nat) :
    Derives .primary (nestedTokens n) (.literal (.whole 1)) n := by
  induction n with
  | zero => exact .number (.whole 1)
  | succ n ih =>
      have htokens : nestedTokens (n + 1) = .mark .opening (asciiByte '(') ::
          (nestedTokens n ++ [.mark .closing (asciiByte ')')]) := by
        rw [nestedTokens, nestedTokens, List.replicate_succ, List.replicate_succ', List.cons_append,
          List.append_assoc, List.cons_append]
      rw [htokens]
      exact .parentheses _ _ (.term (.factor (.primary ih)))

theorem parse_nested : tokenize (nested 1001) = .ok (nestedTokens 1001) ∧
    ∃ offset, parse (nested 1001) = .error (.tooDeep offset) := by
  have htokens : tokenize (nested 1001) = .ok (nestedTokens 1001) :=
    eq_ok_of_toOption (by decide +kernel)
  exact ⟨htokens, (parse_iff_derives _).2.2.2 _ _ _ htokens
    (.term (.factor (.primary (derives_nestedTokens 1001)))) (Or.inr (by decide))⟩

end Calculator
