import Calculator.Proofs.GrammarReading

/-!
Readers that look one lexeme ahead. The answer of such a reader is settled by the lexemes it uses up
and the one in front of the others, whatever follows and however reading the text ends, and a fault
stands at the lexeme in front. Readers one after the other look no further than the last of them.
-/

namespace Calculator

/-- A reading for each way in which the text may end. -/
abbrev Reader := Except Fault Nat → List Lexeme → Reading

/-- A fault at the lexeme in front, or the fault that is found instead of one. -/
inductive Fault.StandsAt : Fault → Except Fault Lexeme → Prop
  | ahead (fault : Fault) : StandsAt fault (.error fault)
  | unexpected {next : Lexeme} (hstarts : ¬next.token.Starts) :
      StandsAt (.unexpected next.token.category next.offset) (.ok next)
  | mismatch (expected : Category) {next : Lexeme} (hstarts : ¬next.token.Starts) :
      StandsAt (.mismatch expected next.token.category next.offset) (.ok next)
  | tooDeep (next : Lexeme) : StandsAt (.tooDeep next.offset) (.ok next)

namespace Reader

/-- Behind `used` and in front of `next` the answer of a reader is settled, whatever follows. -/
def Settles (reader : Reader) (used : List Lexeme) (next : Except Fault Lexeme)
    (answer : Except Fault Tree.Measured) : Prop :=
  ∀ ⦃ending : Except Fault Nat⦄ ⦃rest : List Lexeme⦄, front ending rest = next →
    reader ending (used ++ rest) = answer.map (·, rest)

/-- A reader that is settled with the lexeme in front of those it leaves. At a fault it has begun
with a `Begun`. -/
inductive SettledAt (reader : Reader) (Begun : List Token → Prop) (ending : Except Fault Nat) :
    List Lexeme → Prop
  | tree {used rest : List Lexeme} {tree : Tree.Measured}
      (hsettles : reader.Settles used (front ending rest) (.ok tree)) :
      SettledAt reader Begun ending (used ++ rest)
  | fault {used rest : List Lexeme} {fault : Fault}
      (hsettles : reader.Settles used (front ending rest) (.error fault))
      (hbegun : Begun (used.map Lexeme.token)) (hplace : fault.StandsAt (front ending rest)) :
      SettledAt reader Begun ending (used ++ rest)

/-- A reader that looks no further than one lexeme ahead. -/
def IsLocal (reader : Reader) (Begun : List Token → Prop) : Prop :=
  ∀ ending lexemes, reader.SettledAt Begun ending lexemes

end Reader

/-- What stands in front behind some lexemes does not depend on what follows there. -/
theorem front_append {ending ending' : Except Fault Nat} {rest rest' : List Lexeme}
    (h : front ending' rest' = front ending rest) (used : List Lexeme) :
    front ending' (used ++ rest') = front ending (used ++ rest) := by
  cases used with
  | nil => exact h
  | cons lexeme used => rfl

namespace Reader

variable {reader reader' : Reader} {Begun Begun' : List Token → Prop} {ending : Except Fault Nat}
  {lexemes : List Lexeme}

namespace SettledAt

theorem mono (h : reader.SettledAt Begun ending lexemes) (hbegun : ∀ {s}, Begun s → Begun' s) :
    reader.SettledAt Begun' ending lexemes := by
  cases h with
  | tree hsettles => exact .tree hsettles
  | fault hsettles hfault hplace => exact .fault hsettles (hbegun hfault) hplace

/-- Readers that agree on all lexemes with the same one in front. -/
theorem congr (h : reader'.SettledAt Begun ending lexemes)
    (heq : ∀ {e l}, front e l = front ending lexemes → reader e l = reader' e l) :
    reader.SettledAt Begun ending lexemes := by
  cases h with
  | @tree used rest tree hsettles =>
      refine .tree (?_ : reader.Settles used _ (.ok tree))
      intro e rest hrest
      rw [heq (front_append hrest _), hsettles hrest]
  | fault hsettles hfault hplace =>
      refine .fault (fun e rest hrest => ?_) hfault hplace
      rw [heq (front_append hrest _), hsettles hrest]

theorem tree_here (tree : Tree.Measured)
    (h : ∀ {e l}, front e l = front ending lexemes → reader e l = .ok (tree, l)) :
    reader.SettledAt Begun ending lexemes :=
  .tree (fun _ _ hrest => h hrest : Settles reader [] _ (.ok tree))

theorem fault_here {fault : Fault} (hbegun : Begun [])
    (hplace : fault.StandsAt (front ending lexemes))
    (h : ∀ {e l}, front e l = front ending lexemes → reader e l = .error fault) :
    reader.SettledAt Begun ending lexemes :=
  .fault (fun _ _ hrest => h hrest : Settles reader [] _ (.error fault)) hbegun hplace

/-- A fault instead of a lexeme in front. -/
theorem ahead {fault : Fault} (hfault : front ending lexemes = .error fault) (hbegun : Begun [])
    (h : ∀ {e l}, front e l = .error fault → reader e l = .error fault) :
    reader.SettledAt Begun ending lexemes :=
  fault_here hbegun (hfault ▸ .ahead fault) fun hrest => h (hrest.trans hfault)

/-- A lexeme that is used up first. -/
theorem cons {lexeme : Lexeme}
    (h : reader'.SettledAt (fun s => Begun (lexeme.token :: s)) ending lexemes)
    (heq : ∀ {e l}, reader e (lexeme :: l) = reader' e l) :
    reader.SettledAt Begun ending (lexeme :: lexemes) := by
  cases h with
  | @tree used rest tree hsettles =>
      refine .tree (?_ : Settles reader (lexeme :: used) _ (.ok tree))
      intro e rest hrest
      exact heq.trans (hsettles hrest)
  | @fault used rest fault hsettles hfault hplace =>
      refine .fault (?_ : Settles reader (lexeme :: used) _ (.error fault)) hfault hplace
      intro e rest hrest
      exact heq.trans (hsettles hrest)

end SettledAt

theorem Settles.bind {next : Tree.Measured → Reader} {used used' rest : List Lexeme}
    {tree : Tree.Measured} {answer : Except Fault Tree.Measured}
    (h : reader.Settles used (front ending (used' ++ rest)) (.ok tree))
    (h' : (next tree).Settles used' (front ending rest) answer) :
    Settles (fun e l => reader e l >>= fun found => next found.1 e found.2) (used ++ used')
      (front ending rest) answer := by
  intro e rest hrest
  dsimp only
  rw [List.append_assoc, h (front_append hrest _)]
  exact h' hrest

/-- A reader and what reads on behind its tree. -/
theorem SettledAt.bind (h : reader.SettledAt Begun ending lexemes) (next : Tree.Measured → Reader)
    (hbegun : ∀ {s}, Begun s → Begun' s)
    (hnext : ∀ {used rest tree}, lexemes = used ++ rest → reader ending lexemes = .ok (tree, rest) →
      (next tree).SettledAt (fun s => Begun' (used.map Lexeme.token ++ s)) ending rest) :
    SettledAt (fun e l => reader e l >>= fun found => next found.1 e found.2) Begun' ending
      lexemes := by
  cases h with
  | @tree used rest tree hsettles =>
      cases hnext rfl (hsettles rfl) with
      | tree hsettles' =>
          rw [← List.append_assoc]
          exact .tree (hsettles.bind hsettles')
      | fault hsettles' hfault hplace =>
          rw [← List.append_assoc]
          exact .fault (hsettles.bind hsettles') (List.map_append ▸ hfault) hplace
  | @fault used rest fault hsettles hfault hplace =>
      refine .fault (?_ : Settles _ used _ (.error fault)) (hbegun hfault) hplace
      intro e rest hrest
      dsimp only
      rw [hsettles hrest]
      rfl

/-- A join that fails is a fault in front of what it leaves. -/
theorem SettledAt.join {highest : Nat} {op : Operator} {left right : Tree.Measured}
    (next : Tree.Measured → Reader) (hbegun : Begun [])
    (hnext : (Tree.Measured.binary op.symbol left right).height ≤ highest →
      (next (.binary op.symbol left right)).SettledAt Begun ending lexemes) :
    SettledAt (fun e l => join highest e op left right l >>= fun node => next node e l) Begun ending
      lexemes := by
  by_cases hheight : (Tree.Measured.binary op.symbol left right).height ≤ highest
  · refine (hnext hheight).congr ?_
    intro e l _
    rw [join_eq_ok_iff.mpr ⟨rfl, hheight⟩, ok_bind]
  · cases hfront : front ending lexemes with
    | error fault =>
        refine .ahead hfront hbegun ?_
        intro e l h
        simp only [Calculator.join, if_neg hheight, h]
        rfl
    | ok found =>
        have hplace : (Fault.tooDeep found.offset).StandsAt (front ending lexemes) :=
          hfront ▸ .tooDeep found
        refine .fault_here hbegun hplace ?_
        intro e l h
        simp only [Calculator.join, if_neg hheight, h, hfront]
        rfl

end Reader

end Calculator
