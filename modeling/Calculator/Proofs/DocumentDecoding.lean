import Calculator.Proofs.NumberTexts
import Calculator.Proofs.StageFaults
import Calculator.Proofs.Parenthesised

/-!
The document of a calculation loses nothing but the kind and sign of a number that is not finite.
Every part of a document ends where it is seen to end: a number at a closing brace, a name at its
quote, a list at its bracket, and a tree where its last brace stands. So a text that starts with a
token or a tree tells which one it is and what stands behind it.
-/

namespace Calculator

/-- Values that a text tells, with the rest of the text, if it starts with one of them. -/
def Decodes {α : Type} (P : α → Prop) (write : α → Bytes) : Prop :=
  ∀ ⦃a b : α⦄ ⦃r s : Bytes⦄, P a → P b → write a ++ r = write b ++ s → a = b ∧ r = s

/-- A text in front of the first byte of some kind. -/
theorem append_cons_inj {byte : UInt8} {a b r s : Bytes} (ha : byte ∉ a) (hb : byte ∉ b)
    (h : a ++ byte :: r = b ++ byte :: s) : a = b ∧ r = s := by
  induction a generalizing b with
  | nil =>
      cases b with
      | nil => exact ⟨rfl, List.cons_injective h⟩
      | cons x b =>
          obtain ⟨rfl, -⟩ := List.cons.inj h
          exact absurd List.mem_cons_self hb
  | cons x a ih =>
      cases b with
      | nil =>
          obtain ⟨rfl, -⟩ := List.cons.inj h
          exact absurd List.mem_cons_self ha
      | cons y b =>
          obtain ⟨rfl, hothers⟩ := List.cons.inj h
          obtain ⟨rfl, hrest⟩ := ih (List.not_mem_of_not_mem_cons ha)
            (List.not_mem_of_not_mem_cons hb) hothers
          exact ⟨rfl, hrest⟩

section
variable {α : Type} {P : α → Prop} {write : α → Bytes} {r s : Bytes}

theorem Decodes.others (h : Decodes P write) {xs ys : List α} (hxs : ∀ x ∈ xs, P x)
    (hys : ∀ y ∈ ys, P y)
    (heq : (xs.map write).flatMap (asciiByte ',' :: ·) ++ asciiByte ']' :: r =
      (ys.map write).flatMap (asciiByte ',' :: ·) ++ asciiByte ']' :: s) : xs = ys ∧ r = s := by
  induction xs generalizing ys with
  | nil =>
      cases ys with
      | nil => exact ⟨rfl, List.cons_injective heq⟩
      | cons y ys => exact absurd (List.cons.inj heq).1 (by decide)
  | cons x xs ih =>
      obtain ⟨hx, hxs'⟩ := List.forall_mem_cons.mp hxs
      cases ys with
      | nil => exact absurd (List.cons.inj heq).1 (by decide)
      | cons y ys =>
          obtain ⟨hy, hys'⟩ := List.forall_mem_cons.mp hys
          rw [List.map_cons, List.map_cons, List.flatMap_cons, List.flatMap_cons,
            List.cons_append, List.cons_append, List.cons_append, List.cons_append,
            List.append_assoc, List.append_assoc] at heq
          obtain ⟨rfl, hbehind⟩ := h hx hy (List.cons_injective heq)
          obtain ⟨rfl, hrest⟩ := ih hxs' hys' hbehind
          exact ⟨rfl, hrest⟩

/-- A list ends at its bracket if no element starts with one. -/
theorem Decodes.commaSeparated (h : Decodes P write)
    (hstart : ∀ x t u, P x → write x ++ t ≠ asciiByte ']' :: u) {xs ys : List α}
    (hxs : ∀ x ∈ xs, P x) (hys : ∀ y ∈ ys, P y)
    (heq : Calculation.commaSeparated (xs.map write) ++ asciiByte ']' :: r =
      Calculation.commaSeparated (ys.map write) ++ asciiByte ']' :: s) : xs = ys ∧ r = s := by
  cases xs with
  | nil =>
      cases ys with
      | nil => exact ⟨rfl, List.cons_injective heq⟩
      | cons y ys =>
          rw [List.map_cons, Calculation.commaSeparated, List.append_assoc] at heq
          exact absurd heq.symm (hstart y _ _ (hys y List.mem_cons_self))
  | cons x xs =>
      obtain ⟨hx, hxs'⟩ := List.forall_mem_cons.mp hxs
      cases ys with
      | nil =>
          rw [List.map_cons, Calculation.commaSeparated, List.append_assoc] at heq
          exact absurd heq (hstart x _ _ hx)
      | cons y ys =>
          obtain ⟨hy, hys'⟩ := List.forall_mem_cons.mp hys
          rw [List.map_cons, List.map_cons, Calculation.commaSeparated, Calculation.commaSeparated,
            List.append_assoc, List.append_assoc] at heq
          obtain ⟨rfl, hbehind⟩ := h hx hy heq
          obtain ⟨rfl, hrest⟩ := h.others hxs' hys' hbehind
          exact ⟨rfl, hrest⟩

end

theorem exists_written_of_tokenize {text : Bytes} {tokens : List Token}
    (h : tokenize text = .ok tokens) : ∀ token ∈ tokens, ∃ body, token.IsWrittenAs body := by
  rw [← (tokenize_eq_ok_iff.mp h).2]
  exact List.forall_mem_map.mpr (Script.exists_written (.ofText text))

theorem Category.encode_name (category : Category) :
    Quoted.encode category.name = Quoted.quote :: (category.name ++ [Quoted.quote]) ∧
      Quoted.quote ∉ category.name := by
  cases category with
  | number => decide +kernel
  | mark m => cases m <;> simp only [Category.name, Mark.name] <;> decide +kernel

/-- A number ends at the closing brace behind it. -/
theorem Number.json_close_inj {a b : Number} {r s : Bytes}
    (h : a.json ++ asciiByte '\x7d' :: r = b.json ++ asciiByte '\x7d' :: s) :
    a.json = b.json ∧ r = s := by
  have hbrace (n : Number) : asciiByte '\x7d' ∉ n.json := by
    intro hmem
    by_cases hn : n.isFinite
    · exact absurd ((json_of_isFinite hn).2 _ hmem) (by decide +kernel)
    · rw [json_of_not_isFinite hn] at hmem
      exact absurd hmem (by decide)
  exact append_cons_inj (hbrace a) (hbrace b) h

/-- The name of its category tells a mark from all others and from a number. -/
theorem markTable_name_inj : ∀ entry ∈ markTable, entry.2.name ≠ Category.number.name ∧
    ∀ other ∈ markTable, entry.2.name = other.2.name → entry = other := by
  decide +kernel

theorem Token.json_append (token : Token) (rest : Bytes) :
    token.json ++ rest = ascii "\x7b\"category\":" ++ (Quoted.quote :: (token.category.name ++
      Quoted.quote :: (ascii ",\"value\":" ++ (token.jsonValue ++ asciiByte '\x7d' :: rest)))) := by
  rw [json, token.category.encode_name.1]
  simp only [List.append_assoc, List.cons_append, List.nil_append]
  rfl

/-- Tokens that can be written are told by their documents. -/
theorem Token.decodes_json :
    Decodes (fun token => ∃ body, token.IsWrittenAs body) Token.json := by
  rintro a b r s ⟨body, ha⟩ ⟨body', hb⟩ h
  rw [json_append, json_append, List.append_cancel_left_eq] at h
  obtain ⟨hname, hbehind⟩ := append_cons_inj a.category.encode_name.2 b.category.encode_name.2
    (List.cons_injective h)
  have hvalue := List.append_cancel_left hbehind
  cases ha with
  | mark hmark =>
      have hentry := markTable_name_inj _ (mem_markTable hmark)
      cases hb with
      | mark hmark' =>
          obtain ⟨⟩ := hentry.2 _ (mem_markTable hmark') hname
          exact ⟨rfl, List.cons_injective (List.append_cancel_left hvalue)⟩
      | number => exact absurd hname hentry.1
  | number hrun hnumeral =>
      cases hb with
      | mark hmark' =>
          exact absurd hname.symm (markTable_name_inj _ (mem_markTable hmark')).1
      | number hrun' hnumeral' =>
          obtain ⟨hjson, hrest⟩ := Number.json_close_inj hvalue
          have hnumber := Number.IsLiteral.json_inj ⟨_, .number hrun hnumeral⟩
            ⟨_, .number hrun' hnumeral'⟩ hjson
          exact ⟨congrArg Token.number hnumber, hrest⟩

theorem Token.json_ne_bracket (token : Token) (t u : Bytes) :
    token.json ++ t ≠ asciiByte ']' :: u := by
  rw [json_append]
  exact fun h => absurd (List.cons.inj h).1 (by decide)

namespace Tree

theorem jsonBefore_literal (value : Number) (rest : Bytes) :
    (literal value).jsonBefore rest =
      ascii "\x7b\"type\":\"Literal\",\"value\":" ++ (value.json ++ asciiByte '\x7d' :: rest) := by
  rw [jsonBefore, List.append_assoc, List.append_assoc]
  rfl

theorem jsonBefore_binary (op : Operator) (left right : Tree) (rest : Bytes) :
    (binary op.symbol left right).jsonBefore rest =
      ascii "\x7b\"type\":\"BinaryOp\",\"op\":" ++ (Quoted.quote :: op.symbol :: Quoted.quote ::
        (ascii ",\"left\":" ++ left.jsonBefore (ascii ",\"right\":" ++
          right.jsonBefore (asciiByte '\x7d' :: rest)))) := by
  have hsymbol : Quoted.encode [op.symbol] = [Quoted.quote, op.symbol, Quoted.quote] := by
    cases op <;> decide +kernel
  rw [jsonBefore, hsymbol, List.append_assoc, List.append_assoc]
  rfl

theorem jsonBefore_literal_ne (value : Number) (op : Operator) (left right : Tree) (r s : Bytes) :
    (literal value).jsonBefore r ≠ (binary op.symbol left right).jsonBefore s := by
  rw [jsonBefore_literal, jsonBefore_binary]
  intro h
  have hkind := congrArg (List.take 10) h
  rw [List.take_append_of_le_length (by decide +kernel),
    List.take_append_of_le_length (by decide +kernel)] at hkind
  exact absurd hkind (by decide +kernel)

theorem isLiteral_of_tokenize {value : Number} (h : ∃ text, tokenize text = .ok [.number value]) :
    value.IsLiteral := by
  obtain ⟨text, htext⟩ := h
  exact exists_written_of_tokenize htext _ List.mem_cons_self

/-- Trees that can be written are told by their documents, node by node. -/
theorem jsonBefore_inj {a b : Tree} {r s : Bytes} (ha : a.IsWritable) (hb : b.IsWritable)
    (h : a.jsonBefore r = b.jsonBefore s) : a = b ∧ r = s := by
  induction ha generalizing b r s with
  | literal hvalue =>
      cases hb with
      | literal hvalue' =>
          rw [jsonBefore_literal, jsonBefore_literal, List.append_cancel_left_eq] at h
          obtain ⟨hjson, hrest⟩ := Number.json_close_inj h
          have hnumber := (isLiteral_of_tokenize hvalue).json_inj (isLiteral_of_tokenize hvalue')
            hjson
          exact ⟨congrArg literal hnumber, hrest⟩
      | binary op hleft hright => exact absurd h (jsonBefore_literal_ne _ _ _ _ _ _)
  | binary op hleft hright ihleft ihright =>
      cases hb with
      | literal hvalue => exact absurd h.symm (jsonBefore_literal_ne _ _ _ _ _ _)
      | binary op' hleft' hright' =>
          rw [jsonBefore_binary, jsonBefore_binary, List.append_cancel_left_eq] at h
          obtain ⟨hsymbol, hbehind⟩ := List.cons.inj (List.cons_injective h)
          have hleft := List.append_cancel_left (List.cons_injective hbehind)
          obtain ⟨rfl, hright⟩ := ihleft hleft' hleft
          obtain ⟨rfl, hrest⟩ := ihright hright' (List.append_cancel_left hright)
          exact ⟨by rw [hsymbol], List.cons_injective hrest⟩

end Tree

/-- Tokens that can be written are the same if they agree. -/
theorem Token.agrees_iff {a b : Token} (ha : ∃ body, a.IsWrittenAs body)
    (hb : ∃ body, b.IsWrittenAs body) : a.agrees b ↔ a = b := by
  cases a with
  | number x =>
      cases b with
      | number y =>
          rw [agrees, Number.IsLiteral.agrees_iff ha hb, number.injEq]
      | mark m byte => simp [agrees]
  | mark m byte =>
      cases b with
      | number y => simp [agrees]
      | mark n byte' => simp [agrees]

theorem Token.forall₂_agrees_iff {xs ys : List Token}
    (hxs : ∀ token ∈ xs, ∃ body, token.IsWrittenAs body)
    (hys : ∀ token ∈ ys, ∃ body, token.IsWrittenAs body) :
    List.Forall₂ (fun a b => a.agrees b) xs ys ↔ xs = ys := by
  induction xs generalizing ys with
  | nil => rw [List.forall₂_nil_left_iff, eq_comm]
  | cons x xs ih =>
      obtain ⟨hx, hxs'⟩ := List.forall_mem_cons.mp hxs
      cases ys with
      | nil => simp
      | cons y ys =>
          obtain ⟨hy, hys'⟩ := List.forall_mem_cons.mp hys
          rw [List.forall₂_cons, agrees_iff hx hy, ih hxs' hys', List.cons.injEq]

/-- Trees that can be written are the same if they agree. -/
theorem Tree.agrees_iff {a b : Tree} (ha : a.IsWritable) (hb : b.IsWritable) :
    a.agrees b ↔ a = b := by
  induction ha generalizing b with
  | literal hvalue =>
      cases hb with
      | literal hvalue' =>
          rw [agrees, (isLiteral_of_tokenize hvalue).agrees_iff (isLiteral_of_tokenize hvalue'),
            literal.injEq]
      | binary => simp [agrees]
  | binary op hleft hright ihleft ihright =>
      cases hb with
      | literal => simp [agrees]
      | binary op' hleft' hright' =>
          rw [agrees, Bool.and_eq_true, Bool.and_eq_true, beq_iff_eq, ihleft hleft',
            ihright hright', binary.injEq, and_assoc]

theorem Calculation.json_append (c : Calculation) :
    c.json = ascii "\x7b\"tokens\":[" ++ (commaSeparated (c.tokens.map Token.json) ++
      asciiByte ']' :: (ascii ",\"ast\":" ++ c.tree.tree.jsonBefore
        (ascii ",\"result\":" ++ (c.value.json ++ asciiByte '\x7d' :: [])))) := by
  rw [json, List.append_assoc, List.append_assoc, List.append_assoc]
  rfl

/-- The documents of two calculations are the same just if their tokens, their trees and their
values are, where all values that are not finite count as one. Tokens and trees are then the same
just if they agree as values do. -/
theorem Calculation.json_loses_nothing {text text' : Bytes} {c c' : Calculation}
    (h : calculate text = .ok c) (h' : calculate text' = .ok c') :
    (c.json = c'.json ↔ c.tokens = c'.tokens ∧ c.tree = c'.tree ∧
        (c.value = c'.value ∨ ¬c.value.isFinite ∧ ¬c'.value.isFinite)) ∧
      (c.tokens = c'.tokens ↔ List.Forall₂ (fun a b => a.agrees b) c.tokens c'.tokens) ∧
      (c.tree = c'.tree ↔ c.tree.tree.agrees c'.tree.tree) := by
  obtain ⟨htokens, htree, -⟩ := calculate_eq_ok_iff.mp h
  obtain ⟨htokens', htree', -⟩ := calculate_eq_ok_iff.mp h'
  have hwritten := exists_written_of_tokenize htokens
  have hwritten' := exists_written_of_tokenize htokens'
  have hwritable := isWritable_of_parse htree
  have hwritable' := isWritable_of_parse htree'
  refine ⟨⟨?_, ?_⟩, (Token.forall₂_agrees_iff hwritten hwritten').symm, ?_⟩
  · intro hjson
    rw [json_append, json_append, List.append_cancel_left_eq] at hjson
    obtain ⟨htokens, hbehind⟩ := Token.decodes_json.commaSeparated
      (fun token t u _ => token.json_ne_bracket t u) hwritten hwritten' hjson
    obtain ⟨htree, hresult⟩ := Tree.jsonBefore_inj hwritable hwritable'
      (List.append_cancel_left hbehind)
    have hvalue := (Number.json_close_inj (List.append_cancel_left hresult)).1
    exact ⟨htokens, Tree.Measured.ext_tree htree, Number.json_eq_iff.mp hvalue⟩
  · rintro ⟨htokens, htree, hvalue⟩
    rw [json, json, htokens, htree, Number.json_eq_iff.mpr hvalue]
  · rw [Tree.agrees_iff hwritable hwritable']
    exact ⟨congrArg Tree.Measured.tree, Tree.Measured.ext_tree⟩

/-- A whole number and the double of the same value have different documents. -/
theorem Calculation.json_tells_kinds :
    ∃ c c', calculate (ascii "7") = .ok c ∧ calculate (ascii "7.0") = .ok c' ∧
      c.tokens ≠ c'.tokens ∧ c.json ≠ c'.json := by
  have htokens : (calculate (ascii "7")).toOption.map Calculation.tokens =
      some [.number (.whole 7)] := by
    decide +kernel
  have htokens' : (calculate (ascii "7.0")).toOption.map Calculation.tokens =
      some [.number (.ofDecimal ⟨70, -1⟩)] := by
    decide +kernel
  obtain ⟨c, hc, htokens⟩ := Option.map_eq_some_iff.mp htokens
  obtain ⟨c', hc', htokens'⟩ := Option.map_eq_some_iff.mp htokens'
  have hne : c.tokens ≠ c'.tokens := by
    rw [htokens, htokens']
    simp [Number.ofDecimal]
  have hdocument := json_loses_nothing (eq_ok_of_toOption hc) (eq_ok_of_toOption hc')
  exact ⟨c, c', eq_ok_of_toOption hc, eq_ok_of_toOption hc', hne,
    fun hjson => hne (hdocument.1.mp hjson).1⟩

end Calculator
