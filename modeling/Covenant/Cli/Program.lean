import Covenant.Cli.Dialogue
import Covenant.Limits.Reading

/-!
# The program

What the command line does, as a function of its arguments, the files it can read, and its input.
-/

namespace Covenant.Cli

/-- The text of a file by its path, or why it cannot be read. -/
abbrev Files := String → Except String String

/-- Why a missing file cannot be read. -/
def missing : String := "No such file or directory (os error 2)"

/-- What the program answers. -/
structure Answer where
  code : Nat := 0
  output : Output := {}
deriving DecidableEq, Repr

/-- An answer that reports a failure. -/
def Answer.failure (message : String) : Answer := { code := 1, output := .errorLine message }

/-- The limits in a settings file; without a file the defaults. -/
def loadLimits (files : Files) : Option String → Except Answer Limits
  | none => .ok {}
  | some path =>
    match files path with
    | .error reason =>
      .error (.failure ("error: cannot read config '" ++ path ++ "': " ++ reason))
    | .ok text =>
      match Limits.ofToml? text with
      | some limits => .ok limits
      | none => .error (.failure "error: config: malformed settings")

/-- Runs a function or contract of a session. -/
def callNamed (s : Session) (name : String) : Option (Except Error (List Value) × Session) :=
  match s.registry.func? name with
  | some id => some (s.run id [])
  | none =>
    match s.registry.contract? Dialogue.ecosystem name with
    | some _ =>
      let (result, s) := s.runContract Dialogue.ecosystem name .empty
      some (result.map ([·]), s)
    | none => none

/-- Runs a function or contract of a source file and shows its results. -/
def runFile (files : Files) (path call : String) (limits : Limits) : Answer :=
  match files path with
  | .error reason => .failure ("error: cannot read file '" ++ path ++ "': " ++ reason)
  | .ok text =>
    match (Session.new limits).compile Dialogue.ecosystem text with
    | (.error e, _) => .failure e.text
    | (.ok (), s) =>
      match callNamed s call with
      | none => .failure ("error: nothing named '" ++ call ++ "' in " ++ path)
      | some (.error e, _) => .failure e.text
      | some (.ok vs, s) =>
        let shown := (vs.filter (!·.isNil)).map (Value.text s.heap)
        { output := { out := paragraph shown } }

/-- The dialogue over some lines. -/
def runDialogue (limits : Limits) (lines : List String) : Answer :=
  { output := (Dialogue.new limits).feedAll { out := greeting } lines }

/-- The whole program. -/
def program (args : List String) (files : Files) (input : String) : Answer :=
  match Command.ofArgs args with
  | .help => { output := { out := helpPage } }
  | .version => { output := { out := versionLine } }
  | .missingFile => { code := 1, output := { err := missingFileLines } }
  | .unknown name =>
    { code := 1
      output := { out := helpPage, err := "error: unknown command '" ++ name ++ "'\n" } }
  | .run path call config =>
    match loadLimits files config with
    | .error answer => answer
    | .ok limits => runFile files path call limits
  | .repl config =>
    match loadLimits files config with
    | .error answer => answer
    | .ok limits => runDialogue limits (Text.lines input)

end Covenant.Cli
