import Calculator.Calculation
import Calculator.CommandLine.LineEditor
import Calculator.CommandLine.Options

/-!
A run of the program. The options decide whether the expression comes from the words of the command
line or from the answer to a prompt; a blank answer stands for the first sample. Results and the
faults of an expression are written to the output, everything else to the error stream.
-/

namespace Calculator

/-- What the program leaves behind: its exit code, its output, and its error stream. -/
structure Outcome where
  code : Nat
  out : Bytes
  err : Bytes
deriving DecidableEq, Repr

/-- The expressions the program suggests. -/
def samples : List Bytes :=
  [ascii "3 + 5 * (10 / 2)", ascii "2 ^ 3 ^ 2", ascii "(10 + 2) * 3 - 4 / 2"]

/-- The blanks an empty answer may consist of: space, tab, carriage return, line feed. -/
def isAnswerBlank (byte : UInt8) : Bool :=
  byte == 0x20 || byte == 0x09 || byte == 0x0D || byte == 0x0A

def chooseExpression (answer : Bytes) : Bytes :=
  if answer.all isAnswerBlank then samples.headD [] else answer

/-- A line of the trace, nothing when tracing is off. -/
def Options.traceLine (o : Options) (message : Bytes) : Bytes :=
  if o.trace then ascii "[mathc] " ++ message ++ newline else []

/-- Works out the expression of the options and shows what comes of it. -/
def Options.evaluate (o : Options) : Outcome :=
  let start := o.traceLine (ascii "input: \"" ++ o.expression ++ ascii "\"")
  match calculate o.expression with
  | .error fault =>
    { code := 1
      out :=
        if o.json then fault.json ++ newline
        else ascii "\nERROR: " ++ fault.message ++ newline
      err := start ++ o.traceLine (ascii "failed: " ++ fault.message) }
  | .ok c =>
    { code := 0
      out := if o.json then c.json ++ newline else c.report
      err :=
        start ++ o.traceLine (ascii "lex: " ++ digits c.tokens.length ++ ascii " tokens") ++
          o.traceLine (ascii "parse: tree height " ++ digits c.tree.height) ++
          o.traceLine (ascii "eval: " ++ c.value.text) }

def bannerRule : Bytes := List.replicate 50 (asciiByte '-') ++ newline

def numberedSamples : Bytes :=
  (samples.zipIdx 1).flatMap fun (sample, i) => digits i ++ ascii ". " ++ sample ++ newline

def banner : Bytes :=
  bannerRule ++ ascii "MINI COMPILER FOR MATHEMATICAL EXPRESSIONS\n" ++ bannerRule ++
    ascii "Test Expressions:\n" ++ numberedSamples ++ bannerRule

def prompt : Bytes := ascii "Enter a mathematical expression: "

/-- A session before its answer: finished already, or waiting at the prompt with its options and with
what it has put out so far. -/
inductive Session
  | finished (outcome : Outcome)
  | waiting (options : Options) (out : Bytes)
deriving DecidableEq, Repr

namespace Session

/-- Starts a session from the environment and the command line, the program's name first. -/
def start (environment : Option Bytes) (argv : List Bytes) : Session :=
  match ({} : Options).read environment argv with
  | (_, .stop code message) => .finished ⟨code, [], message⟩
  | (o, .proceed) =>
    if o.interactive then .waiting o (if o.json then [] else banner) else .finished o.evaluate

/-- What comes of the answer at the prompt; without one there is nothing to work out. -/
def answered (o : Options) (out : Bytes) : Option Bytes → Outcome
  | none => ⟨2, out, ascii "mathc: no expression given\n"⟩
  | some line =>
    let outcome := { o with expression := chooseExpression line }.evaluate
    { outcome with out := out ++ outcome.out }

/-- A whole session with the lines that will be typed: its outcome, and the editor at its end. -/
def run (environment : Option Bytes) (argv lines : List Bytes) : Outcome × LineEditor :=
  let editor : LineEditor := { pending := lines }
  match start environment argv with
  | .finished outcome => (outcome, editor)
  | .waiting o out =>
    let (line, editor) := editor.readLine prompt
    (answered o out line, line.elim editor editor.remember)

end Session

end Calculator
