import Calculator.CommandLine.Session

/-!
The command line program: a session whose answer is typed.
-/

namespace Calculator

/-- Writes the output and the error stream of a session and gives its exit code. -/
def Outcome.write (outcome : Outcome) : IO UInt32 := do
  (← IO.getStdout).write outcome.out.toByteArray
  (← IO.getStderr).write outcome.err.toByteArray
  return outcome.code.toUInt32

/-- Reads the rest of a line behind the bytes in `read`, which come last first; nothing at the end
of the input. -/
partial def readLineBehind (input : IO.FS.Stream) (read : Bytes) : IO (Option Bytes) := do
  match (← input.read 1).toList with
  | [] => return if read.isEmpty then none else some read.reverse
  | byte :: _ => if byte = 0x0A then return some read.reverse else readLineBehind input (byte :: read)

/-- Shows a prompt on the error stream and reads the answer. -/
def ask (shown : Bytes) : IO (Option Bytes) := do
  let err ← IO.getStderr
  err.write shown.toByteArray
  err.flush
  readLineBehind (← IO.getStdin) []

/-- Runs the program on the arguments behind its name. -/
def runProgram (arguments : List String) : IO UInt32 := do
  let environment ← IO.getEnv "MATHC_TRACE"
  let argv := ascii "mathc" :: arguments.map fun argument => argument.toUTF8.toList
  match Session.start (environment.map fun value => value.toUTF8.toList) argv with
  | .finished outcome => outcome.write
  | .waiting options out =>
    let stdout ← IO.getStdout
    stdout.write out.toByteArray
    stdout.flush
    (Session.answered options [] (← ask prompt)).write

end Calculator

def main (arguments : List String) : IO UInt32 := Calculator.runProgram arguments
