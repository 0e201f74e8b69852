import Covenant.Cli.Program

/-!
# The command line

Reads the arguments, the files they name and the standard input, and writes what the program
answers. The dialogue is led line by line.
-/

namespace Covenant.Cli

/-- Why a file cannot be read. -/
def reasonOf : IO.Error → String
  | .noFileOrDirectory _ _ _ => missing
  | e => toString e

/-- Reads a file, or tells why it cannot be read. -/
def readText (path : String) : IO (Except String String) := do
  try
    return .ok (← IO.FS.readFile path)
  catch e =>
    return .error (reasonOf e)

/-- The files among some paths. -/
def readTexts : List String → IO (List (String × Except String String))
  | [] => return []
  | path :: paths => do
    let text ← readText path
    return (path, text) :: (← readTexts paths)

/-- Writes an output. -/
def emitOutput (o : Output) : IO Unit := do
  let out ← IO.getStdout
  out.putStr o.out
  out.flush
  (← IO.getStderr).putStr o.err

/-- A line as it was typed, without its end. -/
def withoutEnd (line : String) : String := ((Text.lines line).head?).getD ""

/-- Leads a dialogue. -/
partial def converse (d : Dialogue) : IO Unit := do
  emitOutput { out := d.prompt }
  let line ← (← IO.getStdin).getLine
  if line.isEmpty then emitOutput Dialogue.farewell
  else
    let (d, output) := d.feed (withoutEnd line)
    emitOutput output
    if d.finished then return () else converse d

end Covenant.Cli

open Covenant.Cli in
/-- Runs the program. -/
def main (args : List String) : IO UInt32 := do
  let texts ← readTexts args
  let files : Files := fun path => (texts.lookup path).getD (.error missing)
  match Command.ofArgs args with
  | .repl config =>
    match loadLimits files config with
    | .ok limits => do
      emitOutput { out := greeting }
      converse (.new limits)
      return 0
    | .error answer => do
      emitOutput answer.output
      return UInt32.ofNat answer.code
  | _ => do
    let answer := program args files ""
    emitOutput answer.output
    return UInt32.ofNat answer.code
