import Covenant.Text.Blank

/-!
# Commands

What the arguments of the command line ask for, and the texts of the help pages.
-/

namespace Covenant.Cli

/-- The version of the language. -/
def version : String := "0.2.0"

/-- What the command line asks for. -/
inductive Command where
  /-- Run a function or contract of a source file. -/
  | run (path call : String) (config : Option String)
  | repl (config : Option String)
  | help
  | version
  /-- A run without a file. -/
  | missingFile
  | unknown (name : String)
deriving DecidableEq, Repr

/-- The argument behind a flag. -/
def flag? (name : String) (args : List String) : Option String :=
  (args.dropWhile (· != name)).tail.head?

/-- What runs if the arguments do not say. -/
def usualCall : String := "main"

/-- Whether a name is that of a source file. -/
def isSourceFile (name : String) : Bool := ".sim".toList.isSuffixOf name.toList

/-- The command of some arguments. -/
def Command.ofArgs (args : List String) : Command :=
  match args with
  | [] => .help
  | "run" :: rest =>
    match rest with
    | [] => .missingFile
    | path :: _ => .run path ((flag? "--call" args).getD usualCall) (flag? "--config" args)
  | "repl" :: _ => .repl (flag? "--config" args)
  | name :: _ =>
    if ["help", "--help", "-h"].contains name then .help
    else if ["version", "--version", "-v"].contains name then .version
    else if isSourceFile name then .run name usualCall none
    else .unknown name

/-- Lines of text. -/
def paragraph (lines : List String) : String := String.join (lines.map (· ++ "\n"))

/-- The help page. -/
def helpPage : String := paragraph
  [ "Simvolio",
    "A contract language for blockchain nodes",
    "Version " ++ version,
    "",
    "USAGE:",
    "  simvolio run <file.sim>          Run main() of a source file",
    "      --call <name>                Run another function or a contract",
    "      --config <file>              Read execution limits from TOML",
    "  simvolio repl                    Start interactive REPL",
    "  simvolio help                    Show this help message",
    "  simvolio version                 Show version",
    "",
    "LANGUAGE FEATURES:",
    "  func sum(a, b int) int \x7b return a + b \x7d",
    "  contract Transfer \x7b data \x7b Amount money \x7d action \x7b $result = Amount \x7d \x7d",
    "  func q(t string).Where(w string) string \x7b return t + w \x7d",
    "  $total = Sprintf(\"%d items\", Len(list))" ]

/-- The line that names the version. -/
def versionLine : String := "Simvolio " ++ version ++ "\n"

/-- What a run without a file is told. -/
def missingFileLines : String := paragraph
  [ "error: missing file argument",
    "Usage: simvolio run <file.sim> [--call <name>] [--config <file>]" ]

/-- The greeting of the dialogue. -/
def greeting : String := paragraph
  [ "Simvolio " ++ version ++ " - contract language",
    "Type exit to exit, help for help",
    "" ]

/-- The help page of the dialogue. -/
def dialogueHelp : String := paragraph
  [ "REPL Commands:",
    "  exit, quit   Exit the REPL",
    "  clear        Drop every declaration and $ variable",
    "  env          Show the $ variables",
    "  help         Show this help",
    "",
    "Language Examples:",
    "  func double(n int) int \x7b return n * 2 \x7d",
    "  double(21) + 1",
    "  Sprintf(\"%v\", [1, 2, 3])" ]

end Covenant.Cli
