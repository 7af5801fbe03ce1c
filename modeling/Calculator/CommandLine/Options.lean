import Calculator.Text.Bytes

/-!
The options and words of the command line. Options come before the first word, or before an
argument that consists of two hyphens; letters may share one hyphen, and long names may be cut
short. Options act one after the other, and the first call for help or the first unknown option
ends the program, with the options before it in force.
-/

namespace Calculator

/-- What the command line decides: the two modes, whether to ask for an expression, and if not,
the expression. -/
structure Options where
  json : Bool := false
  trace : Bool := false
  interactive : Bool := false
  expression : Bytes := []
deriving DecidableEq, Repr

inductive Switch
  | json
  | trace
  | help
deriving DecidableEq, Repr

namespace Switch

def all : List Switch := [json, trace, help]

def letter : Switch → UInt8
  | json => asciiByte 'j'
  | trace => asciiByte 't'
  | help => asciiByte 'h'

def name : Switch → Bytes
  | json => ascii "json"
  | trace => ascii "trace"
  | help => ascii "help"

def ofLetter? (byte : UInt8) : Option Switch := all.find? fun s => s.letter == byte

/-- The option whose name starts with `short`, if there is exactly one. -/
def ofName? (short : Bytes) : Option Switch :=
  match all.filter fun s => short.isPrefixOf s.name with
  | [s] => some s
  | _ => none

end Switch

/-- What an argument asks for, option by option: an option, or one that does not exist, by the
text that names it in the message. -/
inductive Request
  | switch (s : Switch)
  | unknown (name : Bytes)
deriving DecidableEq, Repr

/-- How arguments before the first word are read. -/
inductive Argument
  | word
  | terminator
  | options (requests : List Request)
deriving DecidableEq, Repr

namespace Argument

def hyphen : UInt8 := asciiByte '-'

/-- A letter behind a single hyphen. -/
def ofLetter (letter : UInt8) : Request :=
  match Switch.ofLetter? letter with
  | some s => .switch s
  | none => .unknown [hyphen, letter]

/-- A name behind two hyphens. No option takes a value, so a name with a value is unknown, under
its letter if it names an option. -/
def ofName (text : Bytes) : Request :=
  let name := text.takeWhile (· != asciiByte '=')
  match Switch.ofName? name with
  | none => .unknown (hyphen :: hyphen :: text)
  | some s => if name.length = text.length then .switch s else .unknown [hyphen, s.letter]

/-- How an argument is read. A single hyphen is a word. -/
def ofBytes : Bytes → Argument
  | [0x2D, 0x2D] => .terminator
  | 0x2D :: 0x2D :: name => .options [ofName name]
  | 0x2D :: letter :: letters => .options ((letter :: letters).map ofLetter)
  | _ => .word

end Argument

/-- What comes of a request: the program goes on, or ends with a code and a message. -/
inductive Verdict
  | proceed
  | stop (code : Nat) (message : Bytes)
deriving DecidableEq, Repr

def usage : Bytes :=
  ascii "usage: mathc [options] [--] [expression...]\n\n" ++
  ascii "Tokenizes, parses and evaluates an arithmetic expression.\n" ++
  ascii "Without an expression, prompts for one interactively.\n\n" ++
  ascii "options:\n" ++
  ascii "  -j, --json    print \x7btokens, ast, result\x7d or \x7berror\x7d as JSON\n" ++
  ascii "  -t, --trace   log pipeline stages to stderr (also MATHC_TRACE=1)\n" ++
  ascii "  -h, --help    show this help\n"

namespace Options

/-- Puts a request into force. -/
def request (o : Options) : Request → Options × Verdict
  | .switch .json => ({ o with json := true }, .proceed)
  | .switch .trace => ({ o with trace := true }, .proceed)
  | .switch .help => (o, .stop 0 usage)
  | .unknown name =>
    (o, .stop 2 (ascii "mathc: unknown option '" ++ name ++ ascii "'\n" ++ usage))

/-- Puts requests into force up to the first that ends the program. -/
def requests (o : Options) : List Request → Options × Verdict
  | [] => (o, .proceed)
  | first :: others =>
    match o.request first with
    | (o, .proceed) => o.requests others
    | stopped => stopped

/-- Words with single spaces between them, except that nothing is put before the first byte. -/
def joinWords (words : List Bytes) : Bytes :=
  words.foldl (fun text word => if text = [] then word else text ++ 0x20 :: word) []

/-- Takes the words for the expression; without words there is one to ask for. -/
def takeWords (o : Options) (words : List Bytes) : Options :=
  { o with expression := joinWords words, interactive := words.isEmpty }

/-- Reads the arguments behind the program's name. -/
def arguments (o : Options) : List Bytes → Options × Verdict
  | [] => (o.takeWords [], .proceed)
  | argument :: others =>
    match Argument.ofBytes argument with
    | .word => (o.takeWords (argument :: others), .proceed)
    | .terminator => (o.takeWords others, .proceed)
    | .options requests =>
      match o.requests requests with
      | (o, .proceed) => o.arguments others
      | stopped => stopped

/-- Whether the environment asks for a trace, by a value that starts with the digit one. -/
def tracesByDefault (environment : Option Bytes) : Bool :=
  environment.any fun value => value.head? == some (asciiByte '1')

/-- Reads a command line, the program's name first, into options that may be set already. -/
def read (o : Options) (environment : Option Bytes) (argv : List Bytes) : Options × Verdict :=
  { o with trace := o.trace || tracesByDefault environment }.arguments (argv.drop 1)

end Options

end Calculator
