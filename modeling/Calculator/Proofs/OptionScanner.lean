import Calculator.Proofs.CommandLineArguments

/-!
Options read one at a time. A scanner hands out the next option of a command line, and keeps for it
the index of the argument it stands at and the letters of this argument that it has not handed out.
The state outlives a command line, so each is started over at the index zero. Whatever state the
scanner was left in, the options it hands out then are those that are read at once
(`Scanner.read_eq`), on any number of command lines one after the other (`Scanner.readAll_eq`).
-/

namespace Calculator

open Argument

namespace Options

/-- Goes on with the options that are in force unless the program has ended. -/
def follow (result : Options × Verdict) (next : Options → Options × Verdict) : Options × Verdict :=
  match result with
  | (o, .proceed) => next o
  | stopped => stopped

theorem follow_of_ne {result : Options × Verdict} (h : ∀ o, result ≠ (o, .proceed))
    (next : Options → Options × Verdict) : follow result next = result := by
  obtain ⟨o, verdict⟩ := result
  cases verdict with
  | proceed => exact absurd rfl (h o)
  | stop => rfl

theorem requests_cons (o : Options) (first : Request) (others : List Request) :
    o.requests (first :: others) = follow (o.request first) (·.requests others) := by
  rw [requests]
  obtain ⟨p, verdict⟩ := o.request first
  cases verdict <;> rfl

theorem follow_assoc (result : Options × Verdict) (f g : Options → Options × Verdict) :
    follow (follow result f) g = follow result fun o => follow (f o) g := by
  obtain ⟨o, verdict⟩ := result
  cases verdict <;> rfl

theorem arguments_options {argument : Bytes} {requests : List Request}
    (h : ofBytes argument = .options requests) (o : Options) (others : List Bytes) :
    o.arguments (argument :: others) = follow (o.requests requests) (·.arguments others) := by
  rw [arguments, h]
  dsimp only
  obtain ⟨p, verdict⟩ := o.requests requests
  cases verdict <;> rfl

/-- What comes of letters that are left of an argument and of the arguments behind it. -/
def finish (o : Options) (ahead : Bytes × List Bytes) : Options × Verdict :=
  follow (o.requests (ahead.1.map ofLetter)) (·.arguments ahead.2)

end Options

/-- The state that is kept from one option to the next, and from one command line to the next. -/
structure Scanner where
  index : Nat := 0
  letters : Bytes := []
deriving DecidableEq, Repr

namespace Scanner

/-- At the index zero a scanner starts over, behind the program's name. -/
def started (s : Scanner) : Scanner := if s.index = 0 then ⟨1, []⟩ else s

/-- Stands at the letters that are left of an argument, or behind it with the last one. -/
def behind (s : Scanner) (letters : Bytes) : Scanner :=
  ⟨if letters = [] then s.index + 1 else s.index, letters⟩

/-- The first option of an argument. None is in a word, where a scanner stays, and in the pair of
hyphens, which is passed. -/
def enter (s : Scanner) : Bytes → Scanner × Option Request
  | [0x2D, 0x2D] => (s.behind [], none)
  | 0x2D :: 0x2D :: name => (s.behind [], some (ofName name))
  | 0x2D :: letter :: letters => (s.behind letters, some (ofLetter letter))
  | _ => (s, none)

/-- The next option, as long as there is one. -/
def next (argv : List Bytes) (s : Scanner) : Scanner × Option Request :=
  let s := s.started
  match s.letters, argv[s.index]? with
  | letter :: letters, _ => (s.behind letters, some (ofLetter letter))
  | [], some argument => s.enter argument
  | [], none => (s, none)

/-- The letters that a scanner has before it, and the arguments behind them. -/
def ahead (argv : List Bytes) (s : Scanner) : Bytes × List Bytes :=
  (s.started.letters,
    argv.drop (if s.started.letters = [] then s.started.index else s.started.index + 1))

/-- What lies ahead of a scanner, before and behind the option that it hands out. -/
inductive Passes : Bytes × List Bytes → Option Request → Bytes × List Bytes → Prop
  | letter (letter : UInt8) (letters : Bytes) (args : List Bytes) :
      Passes (letter :: letters, args) (some (ofLetter letter)) (letters, args)
  | nothing : Passes ([], []) none ([], [])
  | word {argument : Bytes} (others : List Bytes) (h : IsOperand argument) :
      Passes ([], argument :: others) none ([], argument :: others)
  | terminator (others : List Bytes) : Passes ([], [hyphen, hyphen] :: others) none ([], others)
  | name {name : Bytes} (others : List Bytes) (hne : name ≠ []) :
      Passes ([], (hyphen :: hyphen :: name) :: others) (some (ofName name)) ([], others)
  | letters {letter : UInt8} (letters : Bytes) (others : List Bytes) (h : letter ≠ hyphen) :
      Passes ([], (hyphen :: letter :: letters) :: others) (some (ofLetter letter))
        (letters, others)

/-- The bytes ahead of a scanner, counting one for each argument. -/
def size (ahead : Bytes × List Bytes) : Nat :=
  ahead.1.length + (ahead.2.map fun argument => argument.length + 1).sum

section
variable {argv : List Bytes} {s s' : Scanner} {request : Request}
  {before after : Bytes × List Bytes}

theorem Passes.size_lt (h : Passes before (some request) after) : size after < size before := by
  cases h <;> simp only [size, List.length_cons, List.length_nil, List.map_cons, List.sum_cons] <;>
    omega

theorem index_started (s : Scanner) : s.started.index ≠ 0 := by
  rw [started]
  split
  · exact Nat.one_ne_zero
  · assumption

theorem index_behind (s : Scanner) (letters : Bytes) : (s.started.behind letters).index ≠ 0 := by
  rw [behind]
  split
  · exact Nat.succ_ne_zero _
  · exact s.index_started

theorem index_next (argv : List Bytes) (s : Scanner) : (s.next argv).1.index ≠ 0 := by
  simp only [next, enter]
  repeat' split
  all_goals first | exact s.index_behind _ | exact s.index_started

theorem ahead_of_nil (argv : List Bytes) (hindex : s.index ≠ 0) (hletters : s.letters = []) :
    s.ahead argv = ([], argv.drop s.index) := by
  rw [ahead, started, if_neg hindex, if_pos hletters, hletters]

/-- Behind a letter there are the letters after it, and then the next argument. -/
theorem ahead_behind (argv : List Bytes) (s : Scanner) (letters : Bytes) :
    (s.started.behind letters).ahead argv = (letters, argv.drop (s.started.index + 1)) := by
  rw [ahead, started, if_neg (s.index_behind letters), behind]
  split <;> rfl

theorem enter_of_isOperand {argument : Bytes} (h : IsOperand argument) :
    s.enter argument = (s, none) := by
  rcases h.cases with rfl | rfl | ⟨byte, others, hbyte, rfl⟩
  · rfl
  · rfl
  · simp [enter, hbyte]

theorem enter_letters {letter : UInt8} (letters : Bytes) (h : letter ≠ hyphen) :
    s.enter (hyphen :: letter :: letters) = (s.behind letters, some (ofLetter letter)) := by
  have hletter : letter ≠ 0x2D := h
  simp [enter, hyphen, asciiByte, hletter]

theorem passes_enter {argument : Bytes} {others : List Bytes}
    (hstays : s.started.ahead argv = ([], argument :: others))
    (hbehind : argv.drop (s.started.index + 1) = others) :
    Passes ([], argument :: others) (s.started.enter argument).2
      ((s.started.enter argument).1.ahead argv) := by
  subst hbehind
  rcases shapes argument with h | rfl | ⟨name, hne, rfl⟩ | ⟨letter, letters, hletter, rfl⟩
  · rw [enter_of_isOperand h, hstays]
    exact .word _ h
  · have hpair : s.started.enter [hyphen, hyphen] = (s.started.behind [], none) := rfl
    rw [hpair, ahead_behind]
    exact .terminator _
  · obtain ⟨byte, others, rfl⟩ := List.exists_cons_of_ne_nil hne
    have hname : s.started.enter (hyphen :: hyphen :: byte :: others) =
        (s.started.behind [], some (ofName (byte :: others))) := rfl
    rw [hname, ahead_behind]
    exact .name _ hne
  · rw [enter_letters letters hletter, ahead_behind]
    exact .letters letters _ hletter

theorem passes_next (argv : List Bytes) (s : Scanner) :
    Passes (s.ahead argv) (s.next argv).2 ((s.next argv).1.ahead argv) := by
  cases hletters : s.started.letters with
  | cons letter letters =>
      have hnext : s.next argv = (s.started.behind letters, some (ofLetter letter)) := by
        simp only [next, hletters]
      rw [hnext, ahead_behind, ahead, hletters, if_neg (List.cons_ne_nil _ _)]
      exact .letter _ _ _
  | nil =>
      have hahead : s.ahead argv = ([], argv.drop s.started.index) := by
        rw [ahead, hletters, if_pos rfl]
      have hstays := ahead_of_nil argv s.index_started hletters
      rw [hahead]
      cases hargument : argv[s.started.index]? with
      | none =>
          have hnext : s.next argv = (s.started, none) := by
            simp only [next, hletters, hargument]
          rw [hnext, hstays, List.drop_eq_nil_of_le (List.getElem?_eq_none_iff.mp hargument)]
          exact .nothing
      | some argument =>
          have hnext : s.next argv = s.started.enter argument := by
            simp only [next, hletters, hargument]
          obtain ⟨hless, rfl⟩ := List.getElem?_eq_some_iff.mp hargument
          rw [List.drop_eq_getElem_cons hless] at hstays ⊢
          rw [hnext]
          exact passes_enter hstays rfl

/-- A scanner that hands out nothing stands at the words. -/
theorem ahead_of_next_eq_none (h : s.next argv = (s', none)) :
    s'.ahead argv = ([], argv.drop s'.index) := by
  have hpasses := passes_next argv s
  have hindex := index_next argv s
  rw [h] at hpasses hindex
  have hletters : (s'.ahead argv).1 = [] := by
    generalize s.ahead argv = before, s'.ahead argv = after at hpasses
    cases hpasses <;> rfl
  rw [ahead, started, if_neg hindex] at hletters
  exact ahead_of_nil argv hindex hletters

end

/-- Puts into force the options that a scanner hands out, and takes for words what is left. -/
def scan (argv : List Bytes) (s : Scanner) (o : Options) : Scanner × Options × Verdict :=
  match _ : s.next argv with
  | (s', none) => (s', o.takeWords (argv.drop s'.index), .proceed)
  | (s', some request) =>
    match o.request request with
    | (o', .proceed) => s'.scan argv o'
    | stopped => (s', stopped)
termination_by size (s.ahead argv)
decreasing_by
  rename_i h
  have hpasses := passes_next argv s
  rw [h] at hpasses
  exact hpasses.size_lt

section
variable {before after : Bytes × List Bytes} {request : Request}

/-- The option that is handed out comes into force before those that are still ahead. -/
theorem Passes.finish_eq (h : Passes before (some request) after) (o : Options) :
    o.finish before = Options.follow (o.request request) (·.finish after) := by
  cases h with
  | letter =>
      rw [Options.finish, List.map_cons, Options.requests_cons, Options.follow_assoc]
      rfl
  | name others hne =>
      refine (Options.arguments_options (ofBytes_name hne) o others).trans ?_
      rw [Options.requests_cons, Options.follow_assoc]
      rfl
  | letters letters others h =>
      refine (Options.arguments_options (ofBytes_letters letters h) o others).trans ?_
      rw [List.map_cons, Options.requests_cons, Options.follow_assoc]
      rfl

theorem Passes.finish_none (h : Passes before none after) (o : Options) :
    o.finish before = (o.takeWords after.2, .proceed) := by
  cases h with
  | nothing => rfl
  | word others h =>
      change o.arguments _ = _
      rw [Options.arguments, ofBytes_operand h]
  | terminator => rfl

end

/-- Options that are handed out one by one are in force as if all were read at once, since each step
of the scanner hands out the first of those that are ahead. -/
theorem scan_eq (argv : List Bytes) (s : Scanner) (o : Options) :
    (s.scan argv o).2 = o.finish (s.ahead argv) := by
  have hpasses := passes_next argv s
  fun_induction scan argv s o with rw [h] at hpasses
  | case1 s o s' h => rw [hpasses.finish_none, ahead_of_next_eq_none h]
  | case2 s o s' request h o' hrequest ih =>
      rw [hpasses.finish_eq, hrequest, ih (passes_next argv s'), Options.follow]
  | case3 s o s' request h hstopped =>
      rw [hpasses.finish_eq, Options.follow_of_ne fun o' => hstopped o']

/-- Reads a command line into options that may be set already, from the index zero on. -/
def read (s : Scanner) (o : Options) (environment : Option Bytes) (argv : List Bytes) :
    Scanner × Options × Verdict :=
  { s with index := 0 }.scan argv { o with trace := o.trace || Options.tracesByDefault environment }

/-- The state that a scanner was left in does not matter. -/
theorem read_eq (s : Scanner) (o : Options) (environment : Option Bytes) (argv : List Bytes) :
    (s.read o environment argv).2 = o.read environment argv :=
  scan_eq argv _ _

/-- Reads command lines one after the other into the same options. -/
def readAll (s : Scanner) (o : Options) :
    List (Option Bytes × List Bytes) → List (Options × Verdict)
  | [] => []
  | (environment, argv) :: later =>
    let reading := s.read o environment argv
    reading.2 :: reading.1.readAll reading.2.1 later

end Scanner

/-- What comes of command lines that are read one after the other into the same options. -/
def Options.readAll (o : Options) : List (Option Bytes × List Bytes) → List (Options × Verdict)
  | [] => []
  | (environment, argv) :: later =>
    o.read environment argv :: (o.read environment argv).1.readAll later

theorem Scanner.readAll_eq (s : Scanner) (o : Options) (lines : List (Option Bytes × List Bytes)) :
    s.readAll o lines = o.readAll lines := by
  induction lines generalizing s o with
  | nil => rfl
  | cons line later ih => simp only [readAll, Options.readAll, ih, read_eq]

end Calculator
