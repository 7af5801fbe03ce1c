import Calculator.Proofs.GrammarFollow
import Calculator.Proofs.Lookahead
import Calculator.Proofs.ScriptStep
import Calculator.Tree.Parse

/-!
How far ahead the rules of the grammar look: never further than one lexeme. Where a rule finds a
fault, what it used up before is the beginning of its phrase and could have been completed, and the
lexeme in front is none that another operand could start with.
-/

namespace Calculator

/-- The tokens that a phrase can start with and still be completed. -/
def Begins (phrase : Phrase) (tokens : List Token) : Prop :=
  ∃ more tree n, (∀ token ∈ more, token.IsSpelled) ∧ Derives phrase (tokens ++ more) tree n

/-- The tokens of a whole phrase. -/
def Forms (phrase : Phrase) (tokens : List Token) (tree : Tree.Measured) : Prop :=
  ∃ n, Derives phrase tokens tree.tree n

/-- The laws of a chain: an operand is a chain, and a chain goes on with a link and an operand. -/
structure Chains (link : Token → Option Link) (part whole : Phrase) : Prop where
  not_endOfInput : link .endOfInput = none
  one : ∀ {s a n}, Derives part s a n → Derives whole s a n
  join : ∀ {s t a b m n token found}, Derives whole s a m → link token = some found →
    Derives part t b n →
      Derives whole (s ++ found.tokens token t) (.binary found.operator.symbol a b) (max m n)

theorem Link.tokens_append (link : Link) (token : Token) (s t : List Token) :
    link.tokens token (s ++ t) = link.tokens token s ++ t := by
  unfold tokens
  split <;> rfl

theorem Produces.forms {phrase : Phrase} {highest room : Nat} {read : List Lexeme → Reading}
    (h : Produces (Fits phrase highest room) read) : Produces (Forms phrase) read := by
  intro lexemes tree rest hread
  obtain ⟨used, hused, -, n, -, hderives⟩ := h hread
  exact ⟨used, hused, n, hderives⟩

theorem Produces.of_append {P : List Token → Tree.Measured → Prop} {read : List Lexeme → Reading}
    (h : Produces P read) {used rest : List Lexeme} {tree : Tree.Measured}
    (hread : read (used ++ rest) = .ok (tree, rest)) : P (used.map Lexeme.token) tree := by
  obtain ⟨used', hused, hP⟩ := h hread
  rw [List.append_cancel_right hused]
  exact hP

namespace Begins

variable {phrase : Phrase} {s t : List Token} {a : Tree.Measured}

theorem of_forms (h : Forms phrase s a) : Begins phrase s := by
  obtain ⟨n, h⟩ := h
  refine ⟨[], a.tree, n, List.forall_mem_nil _, ?_⟩
  rw [List.append_nil]
  exact h

/-- A last part that has begun can be completed, and the whole with it. -/
theorem behind {part : Phrase} (h : Begins part s) (front : List Token)
    (hderives : ∀ {tokens tree n}, Derives part tokens tree n →
      ∃ tree n, Derives phrase (front ++ tokens) tree n) : Begins phrase (front ++ s) := by
  obtain ⟨more, tree, n, hmore, hpart⟩ := h
  obtain ⟨tree, n, hwhole⟩ := hderives hpart
  refine ⟨more, tree, n, hmore, ?_⟩
  rw [List.append_assoc]
  exact hwhole

theorem factor (h : Begins .primary s) : Begins .factor s :=
  h.behind [] fun h => ⟨_, _, .primary h⟩

theorem one {link : Token → Option Link} {part whole : Phrase} (hchains : Chains link part whole)
    (h : Begins part s) : Begins whole s :=
  h.behind [] fun h => ⟨_, _, hchains.one h⟩

theorem join {link : Token → Option Link} {part whole : Phrase} (hchains : Chains link part whole)
    {token : Token} {found : Link} (hleft : Forms whole s a) (hlink : link token = some found)
    (h : Begins part t) : Begins whole (s ++ found.tokens token t) := by
  obtain ⟨m, hleft⟩ := hleft
  rw [← List.nil_append t, Link.tokens_append, ← List.append_assoc]
  refine h.behind _ fun hright => ?_
  rw [List.append_assoc, ← Link.tokens_append, List.nil_append]
  exact ⟨_, _, hchains.join hleft hlink hright⟩

theorem parentheses (byte : UInt8) (h : Begins .expression s) :
    Begins .primary (.mark .opening byte :: s) := by
  obtain ⟨more, tree, n, hmore, hinner⟩ := h
  refine ⟨more ++ [.mark .closing (asciiByte ')')], tree, n + 1, ?_, ?_⟩
  · exact List.forall_mem_append.mpr ⟨hmore, List.forall_mem_singleton.mpr rfl⟩
  · rw [List.cons_append, ← List.append_assoc]
    exact .parentheses _ _ hinner

theorem power (byte : UInt8) (hbase : Forms .primary s a) (h : Begins .factor t) :
    Begins .factor (s ++ .mark .caret byte :: t) := by
  obtain ⟨m, hbase⟩ := hbase
  rw [List.append_cons]
  refine h.behind _ fun hexponent => ?_
  rw [← List.append_cons]
  exact ⟨_, _, .power byte hbase hexponent⟩

/-- A primary can be a number. -/
theorem nil : Begins .primary [] :=
  ⟨[.number (.whole 0)], _, _, List.forall_mem_singleton.mpr trivial, .number _⟩

end Begins

theorem chains_term : Chains productLink .factor .term where
  not_endOfInput := rfl
  one := .factor
  join hleft hlink hright := by
    rcases productLink_eq_some_iff.mp hlink with ⟨mark, op, byte, rfl, hmark, rfl⟩ | ⟨-, rfl⟩
    · exact .product byte hleft hmark hright
    · exact .juxtaposition hleft hright

theorem chains_expression : Chains sumLink .term .expression where
  not_endOfInput := rfl
  one := .term
  join hleft hlink hright := by
    obtain ⟨mark, op, byte, rfl, hmark, rfl⟩ := sumLink_eq_some_iff.mp hlink
    exact .sum byte hleft hmark hright

namespace Rule

open Reader

variable {highest : Nat} {ending : Except Fault Nat} {lexemes : List Lexeme}

section
variable {link : Token → Option Link} {part whole : Phrase} {operand : Except Fault Nat → Rule}
  (hchains : Chains link part whole)
  (hoperand : IsLocal (fun e => (operand e).read) (Begins part))
  (hproduces : ∀ e, Produces (Forms part) (operand e).read)
include hchains hoperand hproduces

/-- An operand behind a link, its join with the tree on its left, and the chain behind them. -/
theorem settled_operand {s : List Token} {left : Tree.Measured} {token : Token} {found : Link}
    (hleft : Forms whole s left) (hlink : link token = some found)
    (hrest : ∀ {t node rest}, Forms whole t node → rest.length < lexemes.length →
      SettledAt (fun e => chainRest highest e link (operand e) node)
        (fun u => Begins whole (t ++ u)) ending rest) :
    SettledAt
      (fun e l => (operand e).read l >>= fun right =>
        join highest e found.operator left right.1 right.2 >>= fun node =>
          chainRest highest e link (operand e) node right.2)
      (fun t => Begins whole (s ++ found.tokens token t)) ending lexemes := by
  refine (hoperand ending lexemes).bind
    (fun right e l => join highest e found.operator left right l >>= fun node =>
      chainRest highest e link (operand e) node l) (Begins.join hchains hleft hlink) ?_
  intro used rest right hused hread
  have hshorter := (operand ending).shorter hread
  have hchain : Forms whole (s ++ found.tokens token (used.map Lexeme.token))
      (.binary found.operator.symbol left right) := by
    obtain ⟨m, hleft⟩ := hleft
    obtain ⟨n, hright⟩ := (hproduces ending).of_append (hused ▸ hread)
    exact ⟨max m n, hchains.join hleft hlink hright⟩
  apply SettledAt.join fun node e => chainRest highest e link (operand e) node
  · rw [List.append_nil]
    exact .of_forms hchain
  · intro _
    apply (hrest hchain hshorter).mono
    intro t ht
    rw [Link.tokens_append, ← List.append_assoc]
    exact ht

/-- Every operand uses up lexemes, so the induction is on how many there are. -/
theorem settled_chainRest {s : List Token} {left : Tree.Measured} (hleft : Forms whole s left) :
    SettledAt (fun e => chainRest highest e link (operand e) left) (fun t => Begins whole (s ++ t))
      ending lexemes := by
  induction hlength : lexemes.length using Nat.strongRecOn generalizing lexemes s left with
  | ind length ih =>
      cases hfront : front ending lexemes with
      | error fault =>
          have hnil : Begins whole (s ++ []) := by
            rw [List.append_nil]
            exact .of_forms hleft
          apply SettledAt.ahead hfront hnil
          intro e l h
          rw [chainRest, h]
      | ok next =>
          cases hlink : link next.token with
          | none =>
              apply SettledAt.tree_here left
              intro e l h
              exact chainRest_of_none (h.trans hfront) hlink
          | some found =>
              have hread {start : List Lexeme} (hstart : start.length ≤ lexemes.length) :=
                @settled_operand highest ending start link part whole operand hchains hoperand
                  hproduces s left next.token found hleft hlink
                  fun {t node rest} hchain hshorter => ih rest.length (by omega) hchain rfl
              refine SettledAt.congr ?_ fun h => chainRest_of_link (h.trans hfront) hlink
              obtain ⟨op, written⟩ := found
              cases written with
              | false => exact hread (Nat.le_refl _)
              | true =>
                  rcases front_eq_ok_iff.mp hfront with ⟨rest, rfl⟩ | ⟨-, offset, -, rfl⟩
                  · exact SettledAt.cons (hread (Nat.le_succ _)) rfl
                  · rw [hchains.not_endOfInput] at hlink
                    cases hlink

theorem local_chain :
    IsLocal (fun e => (chain highest e link (operand e)).read) (Begins whole) := by
  intro ending lexemes
  refine (hoperand ending lexemes).bind
    (fun first e => chainRest highest e link (operand e) first) (Begins.one hchains) ?_
  intro used rest first hused hread
  obtain ⟨n, hfirst⟩ := (hproduces ending).of_append (hused ▸ hread)
  exact settled_chainRest hchains hoperand hproduces ⟨n, hchains.one hfirst⟩

end

theorem local_expression {room : Nat} (hhighest : 0 < highest)
    (hfactor : IsLocal (fun e => (factor highest e room).read) (Begins .factor)) :
    IsLocal (fun e => (expression highest e (factor highest e room)).read) (Begins .expression) :=
  have hterm : IsLocal (fun e => (chain highest e productLink (factor highest e room)).read)
      (Begins .term) :=
    local_chain chains_term hfactor fun _ => (produces_factor hhighest room).forms
  local_chain chains_expression hterm fun _ =>
    (produces_term (produces_factor hhighest room)).forms

/-- Behind an expression no other operand starts. -/
def EndsFactors (ending : Except Fault Nat) (lexemes : List Lexeme) : Prop :=
  ∀ ⦃next⦄, front ending lexemes = .ok next → ¬next.token.Starts

theorem endsFactors_expression {factor : Rule} {tree : Tree.Measured} {rest : List Lexeme}
    (h : (expression highest ending factor).read lexemes = .ok (tree, rest)) :
    EndsFactors ending rest := by
  have hfactor : Leaves ending (fun _ => True) factor.read := fun _ _ _ _ _ _ => trivial
  intro next hnext hstarts
  have hproduct := (leaves_chain (leaves_chain hfactor) h hnext).1.2
  rw [productLink_eq_some_iff.mpr (Or.inr ⟨hstarts, rfl⟩)] at hproduct
  cases hproduct

theorem settled_close {s : List Token} {tree : Tree.Measured} (byte : UInt8)
    (h : Forms .expression s tree) (hends : EndsFactors ending lexemes) :
    SettledAt (fun e => close e tree) (fun t => Begins .primary (.mark .opening byte :: (s ++ t)))
      ending lexemes := by
  have hnil : Begins .primary (.mark .opening byte :: (s ++ [])) := by
    rw [List.append_nil]
    exact (Begins.of_forms h).parentheses byte
  cases hfront : front ending lexemes with
  | error fault =>
      apply SettledAt.ahead hfront hnil
      intro e l h
      rw [close, h, error_bind]
  | ok next =>
      by_cases hclosing : next.token.category = .mark .closing
      · obtain ⟨byte, offset, rest, rfl, rfl⟩ := exists_mark_of_front hfront hclosing (by decide)
        refine .tree (?_ : Settles _ [⟨.mark .closing byte, offset⟩] (front ending rest) (.ok tree))
        intro e l _
        rfl
      · have hplace : (Fault.mismatch (.mark .closing) next.token.category next.offset).StandsAt
            (front ending lexemes) := hfront ▸ .mismatch _ (hends hfront)
        apply SettledAt.fault_here hnil hplace
        intro e l h
        rw [close, h, hfront, ok_bind, if_neg hclosing]

theorem primary_of_not_starts {deeper : Option Rule} {next : Lexeme}
    (hfront : front ending lexemes = .ok next) (h : ¬next.token.Starts) :
    primary highest ending deeper lexemes =
      .error (.unexpected next.token.category next.offset) := by
  rcases front_eq_ok_iff.mp hfront with ⟨rest, rfl⟩ | ⟨rfl, stop, rfl, rfl⟩
  · obtain ⟨token, offset⟩ := next
    cases token with
    | number value => exact absurd (Or.inl rfl) h
    | mark m byte =>
        cases m with
        | opening => exact absurd (Or.inr rfl) h
        | plus | minus | star | slash | caret | closing | endOfInput | other => rfl
  · rfl

theorem produces_deeper (hhighest : 0 < highest) (room : Nat) :
    ∀ factor ∈ deeper highest ending room, ∃ below, room = below + 1 ∧
      Produces (Fits .factor highest below) factor.read := by
  cases room with
  | zero => rintro _ ⟨⟩
  | succ below =>
      rintro _ ⟨⟩
      exact ⟨below, rfl, produces_factor hhighest below⟩

section
variable {room : Nat} (hhighest : 0 < highest)
  (hdeeper : ∀ below, room = below + 1 →
    IsLocal (fun e => (factor highest e below).read) (Begins .factor))
include hhighest hdeeper

theorem settled_parentheses (byte : UInt8) (offset : Nat) :
    SettledAt (fun e => primary highest e (deeper highest e room)) (Begins .primary) ending
      (⟨.mark .opening byte, offset⟩ :: lexemes) := by
  cases room with
  | zero =>
      have hplace : (Fault.tooDeep offset).StandsAt
          (front ending (⟨.mark .opening byte, offset⟩ :: lexemes)) := .tooDeep ⟨_, offset⟩
      apply SettledAt.fault_here .nil hplace
      intro e l h
      rcases front_eq_ok_iff.mp h with ⟨behind, rfl⟩ | ⟨-, _, -, hend⟩
      · rfl
      · cases hend
  | succ below =>
      have hinner := local_expression hhighest (hdeeper below rfl) ending lexemes
      refine .cons (hinner.bind (fun tree e => close e tree) (·.parentheses byte) ?_) rfl
      intro used rest tree hused hread
      subst hused
      exact settled_close byte
        ((produces_expression (produces_factor hhighest below)).forms.of_append hread)
        (endsFactors_expression hread)

theorem local_primary :
    IsLocal (fun e => primary highest e (deeper highest e room)) (Begins .primary) := by
  intro ending lexemes
  cases hfront : front ending lexemes with
  | error fault =>
      apply SettledAt.ahead hfront .nil
      intro e l h
      cases l with
      | nil => simp only [primary, h, error_bind]
      | cons => cases h
  | ok next =>
      by_cases hstarts : next.token.Starts
      · obtain ⟨rest, rfl⟩ := exists_cons_of_front hfront hstarts.ne_endOfInput
        obtain ⟨token, offset⟩ := next
        cases token with
        | number value =>
            refine .tree (?_ : Settles _ [⟨.number value, offset⟩] (front ending rest)
              (.ok (.literal value)))
            intro e l _
            rfl
        | mark m byte =>
            obtain rfl : m = .opening := by simpa [Token.Starts, Token.category] using hstarts
            exact settled_parentheses hhighest hdeeper byte offset
      · have hplace : (Fault.unexpected next.token.category next.offset).StandsAt
            (front ending lexemes) := hfront ▸ .unexpected hstarts
        apply SettledAt.fault_here .nil hplace
        intro e l h
        exact primary_of_not_starts (h.trans hfront) hstarts

theorem settled_caret {s : List Token} {base : Tree.Measured} (hbase : Forms .primary s base)
    (byte : UInt8) (offset : Nat) :
    SettledAt (fun e => power highest e (deeper highest e room) base)
      (fun t => Begins .factor (s ++ t)) ending (⟨.mark .caret byte, offset⟩ :: lexemes) := by
  cases room with
  | zero =>
      have hnil : Begins .factor (s ++ []) := by
        rw [List.append_nil]
        exact (Begins.of_forms hbase).factor
      have hplace : (Fault.tooDeep offset).StandsAt
          (front ending (⟨.mark .caret byte, offset⟩ :: lexemes)) := .tooDeep ⟨_, offset⟩
      apply SettledAt.fault_here hnil hplace
      intro e l h
      rw [power, h]
      rfl
  | succ below =>
      refine .cons ((hdeeper below rfl ending lexemes).bind
        (fun exponent e l => join highest e .pow base exponent l >>= fun node => .ok (node, l))
        (·.power byte hbase) ?_) rfl
      intro used rest exponent hused hread
      subst hused
      obtain ⟨n, hexponent⟩ := (produces_factor hhighest below).forms.of_append hread
      apply SettledAt.join fun node _ l => .ok (node, l)
      · rw [List.append_nil]
        exact Begins.power byte hbase (.of_forms ⟨n, hexponent⟩)
      · intro _
        exact .tree_here _ fun _ => rfl

theorem settled_power {s : List Token} {base : Tree.Measured} (hbase : Forms .primary s base) :
    SettledAt (fun e => power highest e (deeper highest e room) base)
      (fun t => Begins .factor (s ++ t)) ending lexemes := by
  cases hfront : front ending lexemes with
  | error fault =>
      have hnil : Begins .factor (s ++ []) := by
        rw [List.append_nil]
        exact (Begins.of_forms hbase).factor
      apply SettledAt.ahead hfront hnil
      intro e l h
      rw [power, h, error_bind]
  | ok next =>
      by_cases hcaret : next.token.category = .mark .caret
      · obtain ⟨byte, offset, rest, -, rfl⟩ := exists_mark_of_front hfront hcaret (by decide)
        exact settled_caret hhighest hdeeper hbase byte offset
      · apply SettledAt.tree_here base
        intro e l h
        rw [power, h, hfront, ok_bind, if_neg hcaret]

theorem local_factor_of_deeper :
    IsLocal (fun e => (factor highest e room).read) (Begins .factor) := by
  have heq : (fun e => (factor highest e room).read) =
      fun e => (factorAbove highest e (deeper highest e room)).read := by
    funext e
    rw [factor_eq]
  rw [heq]
  intro ending lexemes
  refine (local_primary hhighest hdeeper ending lexemes).bind
    (fun base e => power highest e (deeper highest e room) base) (·.factor) ?_
  intro used rest base hused hread
  subst hused
  exact settled_power hhighest hdeeper
    ((produces_primary (produces_deeper hhighest room) hhighest).forms.of_append hread)

end

/-- With less room there is less that a factor can read, so the induction is on the room. -/
theorem local_factor (hhighest : 0 < highest) (room : Nat) :
    IsLocal (fun e => (factor highest e room).read) (Begins .factor) := by
  induction room with
  | zero =>
      apply local_factor_of_deeper hhighest
      rintro _ ⟨⟩
  | succ room ih =>
      apply local_factor_of_deeper hhighest
      rintro _ ⟨⟩
      exact ih

end Rule

namespace Script

theorem parse_of_error {lexemes : List Lexeme} {ending : Except Fault Nat} {fault : Fault}
    (h : (Rule.expression limit ending (Rule.factor limit ending limit)).read lexemes =
      .error fault) : parse ⟨lexemes, ending⟩ = .error fault := by
  rw [parse, h, error_bind]

theorem parse_of_tree {lexemes rest : List Lexeme} {ending : Except Fault Nat}
    {tree : Tree.Measured}
    (h : (Rule.expression limit ending (Rule.factor limit ending limit)).read lexemes =
      .ok (tree, rest)) :
    parse ⟨lexemes, ending⟩ = front ending rest >>= fun next =>
      if next.token.category = .mark .endOfInput then .ok tree
      else .error (.mismatch (.mark .endOfInput) next.token.category next.offset) := by
  rw [parse, h, ok_bind]

/-- The fault of a script stands at one of its places, behind the beginning of an expression, and
is the fault of every script that is the same up to this place. -/
theorem parse_eq_error {lexemes : List Lexeme} {ending : Except Fault Nat} {fault : Fault}
    (h : parse ⟨lexemes, ending⟩ = .error fault) :
    ∃ used rest, lexemes = used ++ rest ∧ Begins .expression (used.map Lexeme.token) ∧
      fault.StandsAt (front ending rest) ∧
      ∀ ending' rest', front ending' rest' = front ending rest →
        parse ⟨used ++ rest', ending'⟩ = .error fault := by
  have hproduces : Produces (Forms .expression)
      (Rule.expression limit ending (Rule.factor limit ending limit)).read :=
    (Rule.produces_expression (Rule.produces_factor limit_pos limit)).forms
  cases Rule.local_expression limit_pos (Rule.local_factor limit_pos limit) ending lexemes with
  | @fault used rest found hsettles hbegun hplace =>
      obtain rfl := Except.error.inj ((parse_of_error (hsettles rfl)).symm.trans h)
      exact ⟨used, rest, rfl, hbegun, hplace, fun _ _ hrest => parse_of_error (hsettles hrest)⟩
  | @tree used rest tree hsettles =>
      have hread := hsettles rfl
      rw [parse_of_tree hread] at h
      refine ⟨used, rest, rfl, .of_forms (hproduces.of_append hread), ?_, ?_⟩
      · cases hfront : front ending rest with
        | error found =>
            rw [hfront] at h
            cases h
            exact .ahead fault
        | ok next =>
            rw [hfront, ok_bind] at h
            split at h
            · cases h
            · cases h
              exact .mismatch _ (Rule.endsFactors_expression hread hfront)
      · intro ending' rest' hrest
        rw [parse_of_tree (hsettles hrest), hrest]
        exact h

end Script

end Calculator
