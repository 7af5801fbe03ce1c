import Calculator.Token.Script
import Calculator.Tree

/-!
The grammar as rules that read a tree off the front of a list of lexemes:

    expression := term (('+' | '-') term)*
    term       := factor (('*' | '/')? factor)*
    factor     := primary ('^' factor)?
    primary    := number | '(' expression ')'

The two chains group to the left and powers to the right. A factor that follows another without an
operator is multiplied with it. Each open parenthesis and each power whose exponent is being read
takes one level of the room a factor is read with, so that nesting is bounded by the room at the
top, and no tree grows above the highest allowed. A rule always uses up at least one lexeme.
-/

namespace Calculator

/-- The greatest nesting and the greatest height of an expression. -/
def limit : Nat := 1000

/-- The lexeme at the front; behind the last one stands the end of the input, or the fault that
stopped reading. -/
def front (ending : Except Fault Nat) : List Lexeme → Except Fault Lexeme
  | lexeme :: _ => .ok lexeme
  | [] => ending.map fun offset => ⟨.endOfInput, offset⟩

/-- Joins two trees. A node above the highest is a fault at the lexeme behind it. -/
def join (highest : Nat) (ending : Except Fault Nat) (op : Operator) (left right : Tree.Measured)
    (rest : List Lexeme) : Except Fault Tree.Measured :=
  let node := Tree.Measured.binary op.symbol left right
  if node.height ≤ highest then .ok node
  else (front ending rest).bind fun next => .error (.tooDeep next.offset)

/-- A way to read a tree off the front of the lexemes, with the proof that it uses some up. -/
structure Rule where
  read : List Lexeme → Except Fault (Tree.Measured × List Lexeme)
  shorter : ∀ {lexemes tree rest}, read lexemes = .ok (tree, rest) → rest.length < lexemes.length

/-- What a token in a chain does: the operator it joins with, and whether it is an operator itself
or already the start of the next operand. -/
structure Link where
  operator : Operator
  written : Bool

/-- Links between the terms of an expression. -/
def sumLink : Token → Option Link
  | .mark .plus _ => some ⟨.add, true⟩
  | .mark .minus _ => some ⟨.sub, true⟩
  | _ => none

/-- Links between the factors of a term, a missing operator among them. -/
def productLink : Token → Option Link
  | .mark .star _ => some ⟨.mul, true⟩
  | .mark .slash _ => some ⟨.div, true⟩
  | .number _ | .mark .opening _ => some ⟨.mul, false⟩
  | _ => none

/-- The lexemes at which the operand behind a link starts. -/
def Link.operand (link : Link) (lexemes : List Lexeme) : List Lexeme :=
  if link.written then lexemes.tail else lexemes

theorem Link.length_operand (link : Link) (lexemes : List Lexeme) :
    (link.operand lexemes).length ≤ lexemes.length := by
  unfold operand
  split <;> simp

namespace Rule

variable (highest : Nat) (ending : Except Fault Nat)

/-- Reads the rest of a chain and joins each operand to the tree on its left. -/
def chainRest (link : Token → Option Link) (operand : Rule) (left : Tree.Measured)
    (lexemes : List Lexeme) : Except Fault (Tree.Measured × List Lexeme) :=
  match front ending lexemes with
  | .error fault => .error fault
  | .ok next =>
    match link next.token with
    | none => .ok (left, lexemes)
    | some found =>
      match _ : operand.read (found.operand lexemes) with
      | .error fault => .error fault
      | .ok (right, rest) =>
        match join highest ending found.operator left right rest with
        | .error fault => .error fault
        | .ok node => chainRest link operand node rest
termination_by lexemes.length
decreasing_by exact Nat.lt_of_lt_of_le (operand.shorter ‹_›) (found.length_operand lexemes)

variable {highest ending} in
theorem length_chainRest {link : Token → Option Link} {operand : Rule}
    {left tree : Tree.Measured} {lexemes rest : List Lexeme}
    (h : chainRest highest ending link operand left lexemes = .ok (tree, rest)) :
    rest.length ≤ lexemes.length := by
  fun_induction chainRest highest ending link operand left lexemes with
  | case1 | case3 | case4 => simp at h
  | case2 left lexemes =>
    cases h
    exact Nat.le_refl _
  | case5 left lexemes next hnext found hfound right between hread node hjoin ih =>
    have hread := operand.shorter hread
    have hstart := found.length_operand lexemes
    have := ih h
    omega

def chain (link : Token → Option Link) (operand : Rule) : Rule where
  read lexemes := do
    let (first, rest) ← operand.read lexemes
    chainRest highest ending link operand first rest
  shorter {lexemes tree rest} h := by
    cases hfirst : operand.read lexemes with
    | error fault => simp [hfirst, bind, Except.bind] at h
    | ok first =>
      simp only [hfirst, bind, Except.bind] at h
      exact Nat.lt_of_le_of_lt (length_chainRest h) (operand.shorter hfirst)

def expression (factor : Rule) : Rule :=
  chain highest ending sumLink (chain highest ending productLink factor)

/-- Behind an expression in parentheses the closing one has to follow. -/
def close (tree : Tree.Measured) (lexemes : List Lexeme) :
    Except Fault (Tree.Measured × List Lexeme) := do
  let next ← front ending lexemes
  if next.token.category = .mark .closing then .ok (tree, lexemes.tail)
  else .error (.mismatch (.mark .closing) next.token.category next.offset)

/-- A number, or an expression in parentheses if factors one level deeper may be read. -/
def primary (deeper : Option Rule) :
    List Lexeme → Except Fault (Tree.Measured × List Lexeme)
  | ⟨.number value, _⟩ :: rest => .ok (.literal value, rest)
  | ⟨.mark .opening _, offset⟩ :: rest =>
    match deeper with
    | none => .error (.tooDeep offset)
    | some factor => do
      let (tree, rest) ← (expression highest ending factor).read rest
      close ending tree rest
  | lexemes => do
    let next ← front ending lexemes
    .error (.unexpected next.token.category next.offset)

/-- A power may follow a primary, if factors one level deeper may be read. -/
def power (deeper : Option Rule) (base : Tree.Measured)
    (lexemes : List Lexeme) : Except Fault (Tree.Measured × List Lexeme) := do
  let next ← front ending lexemes
  if next.token.category = .mark .caret then
    match deeper with
    | none => .error (.tooDeep next.offset)
    | some factor =>
      let (exponent, rest) ← factor.read lexemes.tail
      let node ← join highest ending .pow base exponent rest
      .ok (node, rest)
  else .ok (base, lexemes)

variable {ending} in
theorem length_close {inner tree : Tree.Measured}
    {lexemes rest : List Lexeme} (h : close ending inner lexemes = .ok (tree, rest)) :
    rest.length ≤ lexemes.length := by
  unfold close at h
  cases hnext : front ending lexemes <;> simp only [hnext, bind, Except.bind] at h
  · cases h
  · split at h <;> cases h
    simp

variable {highest ending} in
theorem length_primary {deeper : Option Rule} {tree : Tree.Measured}
    {lexemes rest : List Lexeme} (h : primary highest ending deeper lexemes = .ok (tree, rest)) :
    rest.length < lexemes.length := by
  unfold primary at h
  split at h
  · cases h
    simp
  · split at h
    · cases h
    · rename_i behind _ factor
      cases hinner : (expression highest ending factor).read behind <;>
        simp only [hinner, bind, Except.bind] at h
      · cases h
      · have := (expression highest ending factor).shorter hinner
        have := length_close h
        simp only [List.length_cons]
        omega
  · cases hnext : front ending lexemes <;> simp [hnext, bind, Except.bind] at h

variable {highest ending} in
theorem length_power {deeper : Option Rule} {base tree : Tree.Measured}
    {lexemes rest : List Lexeme} (h : power highest ending deeper base lexemes = .ok (tree, rest)) :
    rest.length ≤ lexemes.length := by
  unfold power at h
  cases hnext : front ending lexemes <;> simp only [hnext, bind, Except.bind] at h
  · cases h
  · split at h
    · split at h
      · cases h
      · rename_i factor
        cases hexponent : factor.read lexemes.tail <;> simp only [hexponent] at h
        · cases h
        · rename_i found
          cases hnode : join highest ending .pow base found.1 found.2 <;> simp only [hnode] at h
          · cases h
          · cases h
            have := factor.shorter hexponent
            simp only [List.length_tail] at this
            omega
    · cases h
      exact Nat.le_refl _

/-- A factor, with the rule for factors one level deeper. -/
def factorAbove (deeper : Option Rule) : Rule where
  read lexemes := do
    let (base, rest) ← primary highest ending deeper lexemes
    power highest ending deeper base rest
  shorter {lexemes tree rest} h := by
    cases hbase : primary highest ending deeper lexemes with
    | error fault => simp [hbase, bind, Except.bind] at h
    | ok found =>
      simp only [hbase, bind, Except.bind] at h
      exact Nat.lt_of_le_of_lt (length_power h) (length_primary hbase)

/-- A factor with `room` levels of nesting left. -/
def factor : (room : Nat) → Rule
  | 0 => factorAbove highest ending none
  | room + 1 => factorAbove highest ending (some (factor room))

end Rule

end Calculator
