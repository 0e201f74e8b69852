import Covenant.Library.Standard
import Covenant.Machine.Run

/-!
# Sessions

A session joins a registry with an environment and the heap that holds the environment's arrays and
maps. Units are compiled into it, and functions, contracts and conditions are run in it, one after
the other; arrays and maps stay shared between runs.
-/

namespace Covenant

namespace Registry

/-- A registry with the standard library. -/
def standard (limits : Limits := {}) : Registry := .new limits Library.standard

end Registry

/-- A registry and an environment. -/
structure Session where
  registry : Registry
  env : Dict Value := .empty
  heap : Heap := .empty

namespace Session

/-- A session without declarations. -/
def new (limits : Limits := {}) : Session := { registry := .standard limits }

/-- Keeps what a run leaves. -/
def after {α : Type} (s : Session) (o : Outcome α) : Except Error α × Session :=
  (o.result, { s with env := o.env, heap := o.heap })

/-- Compiles a unit. -/
def compile (s : Session) (state : UInt32) (text : String) : Except Error Unit × Session :=
  let (result, r) := s.registry.compileUnit state text
  (result, { s with registry := r })

/-- Compiles a condition. -/
def compileEval (s : Session) (state : UInt32) (text : String) : Except Error BlockId × Session :=
  let (result, r) := s.registry.compileCondition state text
  (result, { s with registry := r })

/-- Runs a compiled block. -/
def run (s : Session) (id : BlockId) (params : List Value) : Except Error (List Value) × Session :=
  s.after (Run.func s.registry id params s.env s.heap)

/-- Runs a contract with values for its fields. -/
def runContract (s : Session) (state : UInt32) (name : String) (params : Dict Value) :
    Except Error Value × Session :=
  s.after (Run.contract s.registry state name params s.env s.heap)

/-- Compiles a condition and runs it. -/
def eval (s : Session) (state : UInt32) (text : String) : Except Error (List Value) × Session :=
  match s.compileEval state text with
  | (.error e, s) => (.error e, s)
  | (.ok id, s) => s.run id []

/-- Whether a condition holds. An empty condition does. -/
def evalIf (s : Session) (state : UInt32) (text : String) : Except Error Bool × Session :=
  if (Text.trimChars text.toList).isEmpty then (.ok true, s)
  else
    let (result, s) := s.eval state text
    (result.map fun vs => (vs.head?).any (Value.truthy s.heap), s)

end Session

/-- Compiles a source text and runs its function `main`. -/
def runMain (text : String) : Except Error (List Value) × Session :=
  match (Session.new).compile 1 text with
  | (.error e, s) => (.error e, s)
  | (.ok (), s) =>
    match s.registry.func? "main" with
    | none => (.error (.of (.unknownFunction "main")), s)
    | some id => s.run id []

end Covenant
