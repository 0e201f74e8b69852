import Covenant.Checksum
import Covenant.Compile.Unit
import Covenant.Limits

/-!
# The registry

The registry holds every compiled block in an arena and the table of global names. Compiling a unit
adds its blocks to the arena and enters its contracts and functions into the table; a name that is
declared again keeps its stable number. The blocks of a compilation that fails are dropped.

Savepoints remember the table and the size of the arena. Conditions are compiled once and found
again by a checksum of their text and ecosystem.
-/

namespace Covenant

/-- What the registry returns to on a rollback. -/
structure Savepoint where
  objects : Dict Binding
  children : Array BlockId
  /-- The size of the arena. -/
  blocks : Nat

/-- Compiled blocks and global names. -/
structure Registry where
  arena : Arena
  /-- Global contracts, functions and extensions. -/
  objects : Dict Binding
  /-- Contracts and functions by their stable number. -/
  children : Array BlockId
  limits : Limits
  /-- Whether a call of an unknown name is taken for a contract to be found when the call runs. -/
  lateCalls : Bool
  /-- What a call of an extension costs beyond the fixed cost. -/
  extensionCost : String → Option Int
  /-- What a call of a contract costs beyond the fixed cost. -/
  contractPrice : String → Option Int
  /-- Open savepoints, the latest first. -/
  savepoints : List Savepoint
  /-- Compiled conditions by checksum. -/
  evals : List (UInt64 × BlockId)

namespace Registry

/-- Registers a host function under its name. -/
def extend (r : Registry) (e : Extension) : Registry :=
  { r with objects := r.objects.insert e.name (.ext e) }

/-- A registry that knows some extensions and nothing else. -/
def new (limits : Limits) (extensions : List Extension) : Registry :=
  extensions.foldl extend
    { arena := #[], objects := .empty, children := #[], limits := limits, lateCalls := false
      extensionCost := fun _ => none, contractPrice := fun _ => none
      savepoints := [], evals := [] }

/-- The block with a number. -/
def block (r : Registry) (id : BlockId) : Block := r.arena.block id

/-- What units are compiled against for an ecosystem. -/
def scope (r : Registry) (state : UInt32) : Scope :=
  { globals := r.objects, state := state, lateCalls := r.lateCalls }

/-! ### Compiling units -/

/-- The stable number that a name already has. -/
def stableId? (r : Registry) (name : String) : Option Nat :=
  match (r.objects.get? name).bind Binding.block? with
  | none => none
  | some old =>
    match (r.block old).header? old with
    | some (_, id, _) => if id < r.children.size then some id else none
    | none => none

/-- Enters a contract or function into the table of global names. -/
def enter (r : Registry) (child : BlockId) : Registry :=
  match (r.block child).header? child with
  | none => r
  | some (name, _, binding) =>
    let (id, children) := match r.stableId? name with
      | some id => (id, r.children.setIfInBounds id child)
      | none => (r.children.size, r.children.push child)
    { r with
      children := children
      arena := r.arena.modify child (·.setId id)
      objects := r.objects.insert name binding }

/-- Enters the contracts and functions of a unit. -/
def enterUnit (r : Registry) (root : BlockId) : Registry :=
  (r.block root).children.foldl enter r

/-- Compiles a unit for an ecosystem and enters what it declares. -/
def compileUnit (r : Registry) (state : UInt32) (text : String) : Except Error Unit × Registry :=
  match r.arena.compileUnit (r.scope state) text with
  | (.error e, arena) => (.error e, { r with arena := arena })
  | (.ok root, arena) => (.ok (), { r with arena := arena }.enterUnit root)

/-- The registry behind a unit that compiles. -/
def compile (r : Registry) (state : UInt32) (text : String) : Except Error Registry :=
  (succeeded (r.compileUnit state text)).map Prod.snd

/-! ### Looking up names -/

/-- A global function. -/
def func? (r : Registry) (name : String) : Option BlockId :=
  match r.objects.get? name with
  | some (.func id) => some id
  | _ => none

/-- A contract by its qualified name. -/
def qualified? (r : Registry) (name : String) : Option BlockId :=
  match r.objects.get? name with
  | some (.contract id) => some id
  | _ => none

/-- A contract by its plain or qualified name, seen from an ecosystem. -/
def contract? (r : Registry) (state : UInt32) (name : String) : Option BlockId :=
  r.qualified? (Name.qualify state.toNat name)

/-- A contract or function by its stable number. -/
def child? (r : Registry) (id : Nat) : Option BlockId := r.children[id]?

/-! ### Savepoints -/

/-- Opens a savepoint. -/
def savepoint (r : Registry) : Registry :=
  { r with savepoints := ⟨r.objects, r.children, r.arena.size⟩ :: r.savepoints }

/-- Returns to the latest savepoint and closes it, if there is one. -/
def rollback? (r : Registry) : Option Registry :=
  match r.savepoints with
  | [] => none
  | p :: rest =>
    some { r with
      objects := p.objects
      children := p.children
      arena := r.arena.take p.blocks
      evals := r.evals.filter fun e => e.2 < p.blocks
      savepoints := rest }

/-- Closes the latest savepoint and keeps what was done since, if there is one. -/
def release? (r : Registry) : Option Registry :=
  match r.savepoints with
  | [] => none
  | _ :: rest => some { r with savepoints := rest }

/-! ### Conditions -/

/-- How many braces are open behind some lexemes; a brace that closes none has no pair. -/
def braceDepth? (depth : Nat) : List Lexeme → Option Nat
  | [] => some depth
  | l :: ls =>
    match l.kind with
    | .punct .lcurly => braceDepth? (depth + 1) ls
    | .punct .rcurly => if depth = 0 then none else braceDepth? (depth - 1) ls
    | _ => braceDepth? depth ls

/-- A condition may hold map literals but must not close the block it is put into. -/
def checkBraces (text : String) : Except Error Unit :=
  match Lexeme.read text with
  | .error e => .error e
  | .ok lexemes => if braceDepth? 0 lexemes.toList == some 0 then .ok () else .error (.of .noPair)

/-- The function around a condition. -/
def wrapCondition (text : String) : String := "func eval bool \x7b return " ++ text ++ " \x7d"

/-- The checksum of a condition in an ecosystem. -/
def conditionKey (state : UInt32) (text : String) : UInt64 :=
  Checksum.ofBytes (Checksum.bytesOfWord state ++ text.toUTF8.toList)

/-- Compiles a condition, or finds it compiled before. Its function stays out of error traces, and
its errors have no place in the source. -/
def compileCondition (r : Registry) (state : UInt32) (text : String) :
    Except Error BlockId × Registry :=
  let key := conditionKey state text
  match r.evals.lookup key with
  | some id => (.ok id, r)
  | none =>
    match checkBraces text with
    | .error e => (.error e, r)
    | .ok () =>
      match r.arena.compileUnit (r.scope state) (wrapCondition text) with
      | (.error e, arena) =>
        (.error { e with position := none, sourceLine := none }, { r with arena := arena })
      | (.ok root, arena) =>
        match (arena.block root).objects.get? "eval" with
        | some (.func id) =>
          let arena := arena.modify id (·.modifyFunc fun f => { f with hidden := true })
          (.ok id, { r with arena := arena, evals := (key, id) :: r.evals })
        | _ => (.error (.of (.unknownFunction "eval")), { r with arena := arena })

/-- The function of a condition that compiles, and the registry behind it. -/
def compileEval (r : Registry) (state : UInt32) (text : String) :
    Except Error (BlockId × Registry) :=
  succeeded (r.compileCondition state text)

end Registry

end Covenant
