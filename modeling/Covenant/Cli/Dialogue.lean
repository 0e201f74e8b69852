import Covenant.Cli.Command
import Covenant.Session

/-!
# The dialogue

The interactive mode keeps one session. Lines are collected until their braces balance; then
declarations are compiled and anything else is evaluated. A few words are commands of the dialogue
itself, but only at the start of a unit.
-/

namespace Covenant.Cli

/-- What is written to the two output streams. -/
structure Output where
  out : String := ""
  err : String := ""
deriving DecidableEq, Repr

namespace Output

/-- One output behind another. -/
def append (a b : Output) : Output := ⟨a.out ++ b.out, a.err ++ b.err⟩

instance : Append Output := ⟨append⟩

/-- A line on the standard output. -/
def line (s : String) : Output := { out := s ++ "\n" }

/-- A line on the error output. -/
def errorLine (s : String) : Output := { err := s ++ "\n" }

end Output

/-- The state of a dialogue. -/
structure Dialogue where
  limits : Limits
  session : Session
  /-- The lines of an open unit. -/
  unit : String := ""
  finished : Bool := false

namespace Dialogue

/-- The ecosystem of code from the command line. -/
def ecosystem : UInt32 := 1

/-- A dialogue that has not begun. -/
def new (limits : Limits) : Dialogue := { limits := limits, session := .new limits }

/-- The prompt for the next line. -/
def prompt (d : Dialogue) : String := if d.unit.isEmpty then "sim> " else " ... "

/-- What is said at the end. -/
def farewell : Output := .line "Goodbye!"

/-- Whether more braces are opened than closed. -/
def isOpen (unit : String) : Bool := unit.toList.count '\x7d' < unit.toList.count '\x7b'

/-- Whether a unit is a declaration. -/
def isDeclaration (unit : String) : Bool :=
  "func ".toList.isPrefixOf unit.toList || "contract ".toList.isPrefixOf unit.toList

/-- The variables of the environment, one a line. -/
def listEnv (s : Session) : Output :=
  { out := paragraph (s.env.toList.map fun p => "  $" ++ p.1 ++ " = " ++ p.2.text s.heap) }

/-- Compiles a declaration. -/
def declare (s : Session) (unit : String) : Session × Output :=
  match s.compile ecosystem unit with
  | (.ok (), s) => (s, .line "ok")
  | (.error e, s) => (s, .errorLine e.text)

/-- Evaluates an expression. The next one gets a fresh budget. -/
def evaluate (s : Session) (unit : String) : Session × Output :=
  let (result, s) := s.eval ecosystem unit
  let s := { s with env := s.env.erase "txcost" }
  match result with
  | .ok vs => (s, { out := paragraph (vs.map fun v => "=> " ++ v.text s.heap) })
  | .error e => (s, .errorLine e.text)

/-- Takes a line into the open unit and carries the unit out if it is complete. -/
def collect (d : Dialogue) (line : String) : Dialogue × Output :=
  let unit := d.unit ++ line ++ "\n"
  if isOpen unit then ({ d with unit := unit }, {})
  else
    let source := Text.trim unit
    let (s, output) :=
      if isDeclaration source then declare d.session source else evaluate d.session source
    ({ d with session := s, unit := "" }, output)

/-- Takes a line. -/
def feed (d : Dialogue) (line : String) : Dialogue × Output :=
  if !d.unit.isEmpty then d.collect line
  else
    match Text.trim line with
    | "" => (d, {})
    | "exit" => ({ d with finished := true }, farewell)
    | "quit" => ({ d with finished := true }, farewell)
    | "help" => (d, { out := dialogueHelp })
    | "clear" => (new d.limits, .line "State cleared.")
    | "env" => (d, listEnv d.session)
    | _ => d.collect line

/-- Takes lines until the dialogue is over or there are no more, with a prompt before each. -/
def feedAll (d : Dialogue) (output : Output) : List String → Output
  | [] => output ++ { out := d.prompt } ++ farewell
  | line :: lines =>
    let (next, more) := d.feed line
    let output := output ++ { out := d.prompt } ++ more
    if next.finished then output else feedAll next output lines

end Dialogue

end Covenant.Cli
