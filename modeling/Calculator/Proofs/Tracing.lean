import Calculator.CommandLine.Session
import Calculator.Proofs.OptionScanner

/-!
Tracing influences nothing but the error stream. Options that are the same but for tracing stay so
through every command line, and an option in front of it that asks for a trace, like a value in the
environment that does, comes down to such options. The sessions they lead to end with the same code
and output, and show and remember the same at the prompt.
-/

namespace Calculator

namespace Options

/-- What comes of two command lines: the same verdict, and options between which `R` holds. -/
def Related (R : Options → Options → Prop) (result result' : Options × Verdict) : Prop :=
  R result.1 result'.1 ∧ result.2 = result'.2

/-- A relation that all requests and words carry over from two options to what they make of them. -/
structure Carried (R : Options → Options → Prop) : Prop where
  request {o p : Options} (h : R o p) (r : Request) : Related R (o.request r) (p.request r)
  takeWords {o p : Options} (h : R o p) (words : List Bytes) :
    R (o.takeWords words) (p.takeWords words)

section
variable {R : Options → Options → Prop} {o p : Options} {result result' : Options × Verdict}

theorem Related.follow {next next' : Options → Options × Verdict} (h : Related R result result')
    (hnext : ∀ {o p : Options}, R o p → Related R (next o) (next' p)) :
    Related R (follow result next) (follow result' next') := by
  obtain ⟨o, verdict⟩ := result
  obtain ⟨p, verdict'⟩ := result'
  obtain ⟨hR, rfl⟩ := h
  cases verdict with
  | proceed => exact hnext hR
  | stop code message => exact ⟨hR, rfl⟩

theorem Carried.requests (hcarried : Carried R) (h : R o p) (requests : List Request) :
    Related R (o.requests requests) (p.requests requests) := by
  induction requests generalizing o p with
  | nil => exact ⟨h, rfl⟩
  | cons first others ih =>
      rw [requests_cons, requests_cons]
      exact (hcarried.request h first).follow ih

theorem Carried.arguments (hcarried : Carried R) (h : R o p) (args : List Bytes) :
    Related R (o.arguments args) (p.arguments args) := by
  induction args generalizing o p with
  | nil => exact ⟨hcarried.takeWords h [], rfl⟩
  | cons argument others ih =>
      cases hargument : Argument.ofBytes argument with
      | word =>
          simp only [Options.arguments, hargument]
          exact ⟨hcarried.takeWords h (argument :: others), rfl⟩
      | terminator =>
          simp only [Options.arguments, hargument]
          exact ⟨hcarried.takeWords h others, rfl⟩
      | options requests =>
          rw [arguments_options hargument, arguments_options hargument]
          exact (hcarried.requests h requests).follow ih

end

/-- Options that are the same but for tracing. -/
structure Alike (o p : Options) : Prop where
  json : o.json = p.json
  interactive : o.interactive = p.interactive
  expression : o.expression = p.expression

theorem Alike.of_trace (o : Options) (trace trace' : Bool) :
    Alike { o with trace := trace } { o with trace := trace' } := ⟨rfl, rfl, rfl⟩

theorem carried_alike : Carried Alike where
  request h r := by
    cases r with
    | unknown name => exact ⟨h, rfl⟩
    | switch s =>
        cases s with
        | json => exact ⟨⟨rfl, h.interactive, h.expression⟩, rfl⟩
        | trace => exact ⟨⟨h.json, h.interactive, h.expression⟩, rfl⟩
        | help => exact ⟨h, rfl⟩
  takeWords h words := ⟨h.json, rfl, rfl⟩

/-- No request and no word turns tracing off. -/
theorem carried_trace : Carried fun o _ => o.trace = true where
  request h r := by
    refine ⟨?_, ?_⟩
    · cases r with
      | unknown name => exact h
      | switch s =>
          cases s with
          | trace => rfl
          | json | help => exact h
    · cases r with
      | unknown name => rfl
      | switch s => cases s <;> rfl
  takeWords h words := h

theorem trace_arguments {o : Options} (h : o.trace = true) (args : List Bytes) :
    (o.arguments args).1.trace = true :=
  (carried_trace.arguments (p := o) h args).1

/-- The option that asks for a trace, in front of all others. -/
theorem read_trace (o : Options) (environment : Option Bytes) (name : Bytes) (args : List Bytes) :
    o.read environment (name :: ascii "-t" :: args) = { o with trace := true }.arguments args := by
  have hargument : Argument.ofBytes (ascii "-t") = .options [.switch .trace] := by decide
  rw [read, List.drop_one, List.tail_cons, arguments_options hargument]
  rfl

/-! ### Outcomes -/

section
variable {o p : Options}

/-- The lines of a trace go to the error stream alone. -/
theorem Alike.evaluate (h : o.Alike p) :
    o.evaluate.code = p.evaluate.code ∧ o.evaluate.out = p.evaluate.out := by
  simp only [Options.evaluate, h.expression, h.json]
  cases calculate p.expression with
  | error fault => exact ⟨rfl, rfl⟩
  | ok c => exact ⟨rfl, rfl⟩

theorem err_evaluate_of_not_trace (h : o.trace = false) : o.evaluate.err = [] := by
  have hline (message : Bytes) : o.traceLine message = [] := by simp [traceLine, h]
  simp only [evaluate, hline]
  cases calculate o.expression with
  | error fault => rfl
  | ok c => rfl

theorem isPrefix_err_evaluate (h : o.trace = true) : ascii "[mathc] " <+: o.evaluate.err := by
  have hline (message : Bytes) : ascii "[mathc] " <+: o.traceLine message := by
    rw [traceLine, if_pos h, List.append_assoc]
    exact List.prefix_append _ _
  unfold evaluate
  cases calculate o.expression with
  | error fault => exact (hline _).trans (List.prefix_append _ _)
  | ok c =>
      dsimp only
      rw [List.append_assoc, List.append_assoc]
      exact (hline _).trans (List.prefix_append _ _)

end

end Options

namespace Session

/-- Sessions that are the same but for their error streams. -/
structure LooksLike (session session' : Outcome × LineEditor) : Prop where
  code : session.1.code = session'.1.code
  out : session.1.out = session'.1.out
  prompts : session.2.prompts = session'.2.prompts
  history : session.2.history = session'.2.history

section
variable {environment environment' : Option Bytes} {argv argv' : List Bytes} {o p : Options}

theorem alike_answered (h : o.Alike p) (out : Bytes) (line : Option Bytes) :
    (answered o out line).code = (answered p out line).code ∧
      (answered o out line).out = (answered p out line).out := by
  cases line with
  | none => exact ⟨rfl, rfl⟩
  | some line =>
      let o' : Options := { o with expression := chooseExpression line }
      let p' : Options := { p with expression := chooseExpression line }
      have hchosen : o'.Alike p' := ⟨h.json, h.interactive, rfl⟩
      exact ⟨hchosen.evaluate.1, congrArg (out ++ ·) hchosen.evaluate.2⟩

/-- Nothing but the options and the verdict passes from a command line to its session. -/
theorem looksLike_run
    (h : Options.Related Options.Alike (({} : Options).read environment argv)
      (({} : Options).read environment' argv')) (lines : List Bytes) :
    LooksLike (run environment argv lines) (run environment' argv' lines) := by
  simp only [run, start]
  generalize ({} : Options).read environment argv = result at h
  generalize ({} : Options).read environment' argv' = result' at h
  obtain ⟨o, verdict⟩ := result
  obtain ⟨p, verdict'⟩ := result'
  obtain ⟨halike, rfl⟩ := h
  cases verdict with
  | stop code message => exact ⟨rfl, rfl, rfl, rfl⟩
  | proceed =>
      have hinteractive : o.interactive = p.interactive := halike.interactive
      have hjson : o.json = p.json := halike.json
      dsimp only
      rw [hinteractive, hjson]
      cases p.interactive with
      | true =>
          obtain ⟨hcode, hout⟩ := alike_answered halike (if p.json then [] else banner) lines.head?
          exact ⟨hcode, hout, rfl, rfl⟩
      | false => exact ⟨halike.evaluate.1, halike.evaluate.2, rfl, rfl⟩

end

/-- Whatever the environment asks for, and whether or not an option in front of all others asks for
a trace, a session looks the same but for its error stream; and yet that option turns tracing on, as
does a value in the environment that starts with the digit one. An expression that is worked out
without tracing writes nothing to the error stream. With tracing it writes a trace there, and its
output and its code stay what they are. -/
theorem tracing_isSilent :
    (∀ environment environment' argv lines,
      LooksLike (run environment argv lines) (run environment' argv lines)) ∧
    (∀ environment environment' name args lines,
      LooksLike (run environment (name :: ascii "-t" :: args) lines)
        (run environment' (name :: args) lines)) ∧
    (∀ (o : Options) value argv,
      (o.read (some (asciiByte '1' :: value)) argv).1.trace = true) ∧
    (∀ (o : Options) environment name args,
      (o.read environment (name :: ascii "-t" :: args)).1.trace = true) ∧
    ∀ o : Options,
      { o with trace := false }.evaluate.err = [] ∧
      ascii "[mathc] " <+: { o with trace := true }.evaluate.err ∧
      { o with trace := true }.evaluate.out = { o with trace := false }.evaluate.out ∧
      { o with trace := true }.evaluate.code = { o with trace := false }.evaluate.code := by
  have hread (o : Options) (trace trace' : Bool) (args : List Bytes) :
      Options.Related Options.Alike ({ o with trace := trace }.arguments args)
        ({ o with trace := trace' }.arguments args) :=
    Options.carried_alike.arguments (.of_trace o trace trace') args
  refine ⟨?_, ?_, ?_, ?_, ?_⟩
  · intro environment environment' argv lines
    exact looksLike_run (hread {} _ _ (argv.drop 1)) lines
  · intro environment environment' name args lines
    apply looksLike_run
    rw [Options.read_trace]
    exact hread {} _ _ args
  · intro o value argv
    exact Options.trace_arguments (Bool.or_true o.trace) (argv.drop 1)
  · intro o environment name args
    rw [Options.read_trace]
    exact Options.trace_arguments rfl args
  · intro o
    have halike := (Options.Alike.of_trace o true false).evaluate
    exact ⟨Options.err_evaluate_of_not_trace rfl, Options.isPrefix_err_evaluate rfl, halike.2,
      halike.1⟩

end Session

end Calculator
