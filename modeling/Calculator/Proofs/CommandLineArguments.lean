import Calculator.CommandLine.Options
import Calculator.Proofs.CursorStep
import Mathlib

/-!
How a command line divides into options and words. An argument is a word, the pair of hyphens that
ends the options, or asks for options, by letters behind one hyphen or a name behind two. Every
command line divides in one way (`exists_unique_divides`), and what its options ask for is settled
before its first word or the pair of hyphens (`Divides.exists_front`).
-/

namespace Calculator

/-- The option that a name may be cut down to: the only one whose name starts with it. -/
def Switch.IsNamed (s : Switch) (short : Bytes) : Prop := ∀ t : Switch, short <+: t.name ↔ t = s

namespace Argument

def equalsSign : UInt8 := asciiByte '='

inductive LetterAsks : UInt8 → Request → Prop
  | switch (s : Switch) : LetterAsks s.letter (.switch s)
  | unknown {letter : UInt8} (h : ∀ s : Switch, s.letter ≠ letter) :
      LetterAsks letter (.unknown [hyphen, letter])

/-- What an argument with options asks for, one request behind the other. -/
inductive Asks : Bytes → List Request → Prop
  | letters {letters : Bytes} {requests : List Request} (hne : letters ≠ [])
      (hfirst : letters.head? ≠ some hyphen) (h : List.Forall₂ LetterAsks letters requests) :
      Asks (hyphen :: letters) requests
  | name {s : Switch} {short : Bytes} (hequals : equalsSign ∉ short) (h : s.IsNamed short) :
      Asks (hyphen :: hyphen :: short) [.switch s]
  | value {s : Switch} {short : Bytes} (value : Bytes) (hequals : equalsSign ∉ short)
      (h : s.IsNamed short) :
      Asks (hyphen :: hyphen :: (short ++ equalsSign :: value)) [.unknown [hyphen, s.letter]]
  | stranger {short rest : Bytes} (hequals : equalsSign ∉ short)
      (hrest : ∀ byte ∈ rest.head?, byte = equalsSign) (hne : short ++ rest ≠ [])
      (h : ∀ s : Switch, ¬s.IsNamed short) :
      Asks (hyphen :: hyphen :: (short ++ rest)) [.unknown (hyphen :: hyphen :: (short ++ rest))]

/-- Arguments that no option starts: those without a hyphen in front, and a single hyphen. -/
def IsOperand (argument : Bytes) : Prop := argument.head? ≠ some hyphen ∨ argument = [hyphen]

section
variable {argument letters text short rest : Bytes} {letter : UInt8} {request : Request}
  {requests : List Request} {s : Switch}

theorem ofLetter_of_ne (h : ∀ s : Switch, s.letter ≠ letter) :
    ofLetter letter = .unknown [hyphen, letter] := by
  have hnone : Switch.ofLetter? letter = none :=
    List.find?_eq_none.mpr fun s _ heq => h s (beq_iff_eq.mp heq)
  rw [ofLetter, hnone]

theorem letterAsks_iff : LetterAsks letter request ↔ ofLetter letter = request := by
  constructor
  · intro h
    cases h with
    | switch s => cases s <;> rfl
    | unknown h => exact ofLetter_of_ne h
  · rintro rfl
    by_cases h : ∃ s : Switch, s.letter = letter
    · obtain ⟨s, rfl⟩ := h
      cases s <;> exact .switch _
    · rw [not_exists] at h
      rw [ofLetter_of_ne h]
      exact .unknown h

theorem forall₂_letterAsks_iff :
    List.Forall₂ LetterAsks letters requests ↔ letters.map ofLetter = requests := by
  rw [← List.forall₂_eq_eq_eq, List.forall₂_map_left_iff]
  simp only [← letterAsks_iff]

theorem ofName?_eq_some_iff : Switch.ofName? short = some s ↔ s.IsNamed short := by
  have hmem (t : Switch) :
      t ∈ Switch.all.filter (fun s => short.isPrefixOf s.name) ↔ short <+: t.name := by
    rw [List.mem_filter, List.isPrefixOf_iff_prefix]
    exact and_iff_right (by cases t <;> decide)
  have hnodup := (by decide : Switch.all.Nodup).filter fun s => short.isPrefixOf s.name
  rw [Switch.ofName?, Switch.IsNamed]
  simp only [← hmem]
  generalize Switch.all.filter (fun s => short.isPrefixOf s.name) = named at *
  cases named with
  | nil => exact ⟨nofun, fun h => absurd ((h s).mpr rfl) List.not_mem_nil⟩
  | cons first others =>
      cases others with
      | nil =>
          simp only [Option.some_inj, List.mem_singleton]
          exact ⟨fun h t => h ▸ Iff.rfl, fun h => (h first).mp rfl⟩
      | cons second others =>
          refine ⟨nofun, fun h => ?_⟩
          have hfirst := (h first).mp List.mem_cons_self
          have hsecond := (h second).mp (List.mem_cons_of_mem _ List.mem_cons_self)
          simp [hfirst, hsecond] at hnodup

theorem ofName?_eq_none_iff : Switch.ofName? short = none ↔ ∀ s : Switch, ¬s.IsNamed short := by
  simp only [← ofName?_eq_some_iff, Option.eq_none_iff_forall_ne_some, ne_eq]

/-- A name, with what stands behind it from the sign of equality on. -/
theorem ofName_append (hequals : equalsSign ∉ short)
    (hrest : ∀ byte ∈ rest.head?, byte = equalsSign) :
    ofName (short ++ rest) =
      match Switch.ofName? short with
      | none => .unknown (hyphen :: hyphen :: (short ++ rest))
      | some s => if rest = [] then .switch s else .unknown [hyphen, s.letter] := by
  have hname : (short ++ rest).takeWhile (· != asciiByte '=') = short := by
    apply Cursor.takeWhile_run
    · exact fun byte hbyte => bne_iff_ne.mpr fun (heq : byte = equalsSign) => hequals (heq ▸ hbyte)
    · exact fun byte hbyte => by simp [hrest byte hbyte, equalsSign]
  cases hswitch : Switch.ofName? short with
  | none => simp only [ofName, hname, hswitch]
  | some s =>
      simp only [ofName, hname, hswitch, List.length_append, Nat.left_eq_add,
        List.length_eq_zero_iff]

theorem exists_short (text : Bytes) :
    ∃ short rest, text = short ++ rest ∧ equalsSign ∉ short ∧
      ∀ byte ∈ rest.head?, byte = equalsSign := by
  obtain ⟨short, rest, htext, hshort, hrest⟩ := Cursor.exists_run (· != equalsSign) text
  refine ⟨short, rest, htext, fun hmem => ?_, fun byte hbyte => ?_⟩
  · simpa using hshort _ hmem
  · simpa using hrest byte hbyte

theorem ofBytes_name (hne : text ≠ []) :
    ofBytes (hyphen :: hyphen :: text) = .options [ofName text] := by
  obtain ⟨byte, others, rfl⟩ := List.exists_cons_of_ne_nil hne
  rfl

theorem ofBytes_letters (letters : Bytes) (h : letter ≠ hyphen) :
    ofBytes (hyphen :: letter :: letters) = .options ((letter :: letters).map ofLetter) := by
  have hletter : letter ≠ 0x2D := h
  simp [ofBytes, hyphen, asciiByte, hletter]

theorem IsOperand.cases (h : IsOperand argument) :
    argument = [] ∨ argument = [hyphen] ∨
      ∃ byte others, byte ≠ 0x2D ∧ argument = byte :: others := by
  rcases h with h | rfl
  · cases argument with
    | nil => exact Or.inl rfl
    | cons byte others =>
        exact Or.inr (Or.inr ⟨byte, others, fun heq => h (congrArg some heq), rfl⟩)
  · exact Or.inr (Or.inl rfl)

theorem ofBytes_operand (h : IsOperand argument) : ofBytes argument = .word := by
  rcases h.cases with rfl | rfl | ⟨byte, others, hbyte, rfl⟩
  · rfl
  · rfl
  · simp [ofBytes, hbyte]

/-- Arguments by the hyphens in front. -/
theorem shapes (argument : Bytes) :
    IsOperand argument ∨ argument = [hyphen, hyphen] ∨
      (∃ text, text ≠ [] ∧ argument = hyphen :: hyphen :: text) ∨
        ∃ letter letters, letter ≠ hyphen ∧ argument = hyphen :: letter :: letters := by
  cases argument with
  | nil => exact Or.inl (Or.inl nofun)
  | cons byte letters =>
      by_cases hbyte : byte = hyphen
      · subst hbyte
        cases letters with
        | nil => exact Or.inl (Or.inr rfl)
        | cons letter text =>
            by_cases hletter : letter = hyphen
            · subst hletter
              by_cases htext : text = []
              · exact Or.inr (Or.inl (by rw [htext]))
              · exact Or.inr (Or.inr (Or.inl ⟨text, htext, rfl⟩))
            · exact Or.inr (Or.inr (Or.inr ⟨letter, text, hletter, rfl⟩))
      · exact Or.inl (Or.inl fun h => hbyte (Option.some.inj h))

theorem ofBytes_of_asks (h : Asks argument requests) : ofBytes argument = .options requests := by
  cases h with
  | letters hne hfirst h =>
      obtain ⟨letter, letters, rfl⟩ := List.exists_cons_of_ne_nil hne
      have hletter : letter ≠ hyphen := fun heq => hfirst (congrArg some heq)
      rw [ofBytes_letters letters hletter, forall₂_letterAsks_iff.mp h]
  | @name s short hequals h =>
      have hne : short ≠ [] := by
        rintro rfl
        cases (h .json).mp List.nil_prefix
        cases (h .trace).mp List.nil_prefix
      have hname : ofName (short ++ []) = .switch s := by
        rw [ofName_append hequals (by simp), ofName?_eq_some_iff.mpr h]
        rfl
      rw [List.append_nil] at hname
      rw [ofBytes_name hne, hname]
  | @value s short value hequals h =>
      rw [ofBytes_name (by simp), ofName_append hequals (by simp), ofName?_eq_some_iff.mpr h]
      rfl
  | stranger hequals hrest hne h =>
      rw [ofBytes_name hne, ofName_append hequals hrest, ofName?_eq_none_iff.mpr h]

/-- What is said of an argument by reading it in some way. -/
def IsReadAs (argument : Bytes) : Argument → Prop
  | .word => IsOperand argument
  | .terminator => argument = [hyphen, hyphen]
  | .options requests => Asks argument requests

theorem isReadAs_ofBytes (argument : Bytes) : IsReadAs argument (ofBytes argument) := by
  rcases shapes argument with hword | rfl | ⟨text, hne, rfl⟩ | ⟨letter, letters, hletter, rfl⟩
  · rw [ofBytes_operand hword]
    exact hword
  · rfl
  · rw [ofBytes_name hne]
    obtain ⟨short, rest, rfl, hequals, hrest⟩ := exists_short text
    rw [ofName_append hequals hrest]
    cases hname : Switch.ofName? short with
    | none => exact .stranger hequals hrest hne (ofName?_eq_none_iff.mp hname)
    | some s =>
        cases rest with
        | nil =>
            rw [List.append_nil]
            exact .name hequals (ofName?_eq_some_iff.mp hname)
        | cons byte value =>
            obtain rfl := hrest byte rfl
            exact .value value hequals (ofName?_eq_some_iff.mp hname)
  · rw [ofBytes_letters letters hletter]
    refine .letters (List.cons_ne_nil _ _) ?_ (forall₂_letterAsks_iff.mpr rfl)
    exact fun h => hletter (Option.some.inj h)

end

/-- How a command line divides into the requests of its options and its words. Options end at the
first word, at the pair of hyphens or with the arguments. -/
inductive Divides : List Bytes → List Request → List Bytes → Prop
  | nothing : Divides [] [] []
  | word {argument : Bytes} (others : List Bytes) (h : IsOperand argument) :
      Divides (argument :: others) [] (argument :: others)
  | terminator (others : List Bytes) : Divides ([hyphen, hyphen] :: others) [] others
  | options {argument : Bytes} {others words : List Bytes} {requests later : List Request}
      (h : Asks argument requests) (hothers : Divides others later words) :
      Divides (argument :: others) (requests ++ later) words

section
variable {args words words' : List Bytes} {requests requests' : List Request}

theorem exists_divides (args : List Bytes) : ∃ requests words, Divides args requests words := by
  induction args with
  | nil => exact ⟨_, _, .nothing⟩
  | cons argument others ih =>
      have hargument := isReadAs_ofBytes argument
      cases hreading : ofBytes argument with rw [hreading] at hargument
      | word => exact ⟨_, _, .word others hargument⟩
      | terminator =>
          obtain rfl := hargument
          exact ⟨_, _, .terminator others⟩
      | options requests =>
          obtain ⟨later, words, hothers⟩ := ih
          exact ⟨_, _, .options hargument hothers⟩

theorem Divides.unique (h : Divides args requests words) (h' : Divides args requests' words') :
    requests = requests' ∧ words = words' := by
  induction h generalizing requests' with
  | nothing =>
      cases h'
      exact ⟨rfl, rfl⟩
  | word others h =>
      have hargument := ofBytes_operand h
      cases h' with
      | word => exact ⟨rfl, rfl⟩
      | terminator => cases hargument
      | options hasks => cases (ofBytes_of_asks hasks).symm.trans hargument
  | terminator others =>
      cases h' with
      | word _ hword => cases (ofBytes_operand hword)
      | terminator => exact ⟨rfl, rfl⟩
      | options hasks => cases (ofBytes_of_asks hasks)
  | options h hothers ih =>
      have hargument := ofBytes_of_asks h
      cases h' with
      | word _ hword => cases (ofBytes_operand hword).symm.trans hargument
      | terminator => cases hargument
      | options hasks hothers' =>
          obtain ⟨hlater, hwords⟩ := ih hothers'
          cases (ofBytes_of_asks hasks).symm.trans hargument
          exact ⟨by rw [hlater], hwords⟩

/-- Only the arguments in front of the first word or of the pair of hyphens are read as options. -/
theorem Divides.exists_front (h : Divides args requests words) :
    ∃ front, (args = front ++ words ∨ args = front ++ [hyphen, hyphen] :: words) ∧
      ∀ others, Divides (front ++ [hyphen, hyphen] :: others) requests others ∧
        ∀ word, IsOperand word → Divides (front ++ word :: others) requests (word :: others) := by
  induction h with
  | nothing => exact ⟨[], Or.inl rfl, fun others => ⟨.terminator others, fun _ => .word others⟩⟩
  | word => exact ⟨[], Or.inl rfl, fun others => ⟨.terminator others, fun _ => .word others⟩⟩
  | terminator => exact ⟨[], Or.inr rfl, fun others => ⟨.terminator others, fun _ => .word others⟩⟩
  | @options argument others words requests later h hothers ih =>
      obtain ⟨front, hargs, hfront⟩ := ih
      refine ⟨argument :: front, ?_, fun others => ⟨?_, fun word hword => ?_⟩⟩
      · exact hargs.imp (congrArg (argument :: ·)) (congrArg (argument :: ·))
      · exact .options h (hfront others).1
      · exact .options h ((hfront others).2 word hword)

end

end Argument

end Calculator
