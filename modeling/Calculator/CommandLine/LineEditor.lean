import Calculator.Text.Bytes

/-!
The line editor behind the prompt. It answers each prompt with the next line typed, until there are
none, and remembers the lines it is told to, empty ones excepted.
-/

namespace Calculator

/-- What a key does instead of editing. -/
inductive KeyAction
  | insert
deriving DecidableEq, Repr

/-- How an editor is set up: the program it works for, whether it shows prompts apart from the
output, and the keys with an action of their own. -/
structure EditorSetup where
  application : Bytes
  promptsApart : Bool
  keys : List (UInt8 × KeyAction)
deriving DecidableEq, Repr

/-- Prompts stay off the output, which may carry a document, and a tab is a blank to be typed. -/
def EditorSetup.forApplication (application : Bytes) : EditorSetup where
  application
  promptsApart := true
  keys := [(0x09, .insert)]

/-- An editor: the lines still to be typed, and the prompts shown and lines remembered so far. -/
structure LineEditor where
  pending : List Bytes
  prompts : List Bytes := []
  history : List Bytes := []
deriving DecidableEq, Repr

namespace LineEditor

/-- Shows a prompt and reads the next line, nothing when there is none. -/
def readLine (e : LineEditor) (prompt : Bytes) : Option Bytes × LineEditor :=
  (e.pending.head?, { e with pending := e.pending.tail, prompts := e.prompts ++ [prompt] })

def remember (e : LineEditor) (line : Bytes) : LineEditor :=
  if line = [] then e else { e with history := e.history ++ [line] }

end LineEditor

end Calculator
