import Covenant.Block
import Covenant.Grammar
import Covenant.Name

/-!
# The compiler's desk

What the compiler is given and what it works on. A `Source` is fixed while a unit is compiled: its
lexemes, the global names, the ecosystem it belongs to, and whether unknown names may be called. The
`Work` is the arena with the unit's root and the blocks that are open inside it, and the few names
that wait for their type.

Names are looked up through the open blocks from the inside out; globals come last.
-/

namespace Covenant.Compile

/-- What a unit is compiled from. -/
structure Source where
  lexemes : Array Lexeme
  /-- Global contracts, functions and extensions. -/
  globals : Dict Binding
  /-- The ecosystem the unit belongs to. -/
  state : UInt32
  /-- Whether a call of an unknown name is taken for a contract to be found when the call runs. -/
  lateCalls : Bool

/-- How far the line of a data section has come. -/
inductive FieldStep where
  | start | name | comma | type | tag
deriving DecidableEq, Repr

/-- The arena and what is open in it. -/
structure Work where
  arena : Arena
  /-- The block of the unit. -/
  root : BlockId
  /-- Blocks open inside the unit, innermost first. -/
  inner : List BlockId := []
  /-- Names of variables or parameters that wait for their type. -/
  pending : List String := []
  /-- Positions of the data fields on the current line. -/
  pendingFields : List Nat := []
  fieldStep : FieldStep := .start
  /-- The setting that waits for its value. -/
  constName : Option String := none

/-- A step of compilation. One that fails leaves the work as it was changed until then. -/
abbrev Compiling := EStateM Error Work

/-- What is read from the source alone leaves the work as it is. -/
instance : MonadLift (Except Error) Compiling where
  monadLift
    | .ok a => pure a
    | .error e => throw e

namespace Source

/-- The kind of a lexeme, if there is one at the position. -/
def kind? (s : Source) (i : Nat) : Option Kind := (s.lexemes[i]?).map Lexeme.kind

/-- The token at a position. -/
def token? (s : Source) (i : Nat) : Option Token := (s.lexemes[i]?).map Lexeme.token

/-- The line of a lexeme; zero behind the last one. -/
def line (s : Source) (i : Nat) : Nat := ((s.lexemes[i]?).map Lexeme.line).getD 0

/-- The name a lexeme carries, or the empty name. -/
def name (s : Source) (i : Nat) : String := ((s.lexemes[i]?).map Lexeme.name).getD ""

/-- The position of a lexeme in the source text. -/
def position? (s : Source) (i : Nat) : Option Position := (s.lexemes[i]?).map Lexeme.position

/-- The last lexeme at or before a position. -/
def clamp (s : Source) (i : Nat) : Nat := min i (s.lexemes.size - 1)

/-- An error noticed at a lexeme. -/
def errorAt (s : Source) (f : Fault) (i : Nat) : Error :=
  { fault := f, position := s.position? i }

/-- The error of a lexeme that the grammar did not expect. -/
def unexpected (s : Source) (e : Expected) (i : Nat) : Error :=
  match s.lexemes[i]? with
  | some l => { fault := .grammar e l.token.text l.position, position := some l.position }
  | none => { fault := .grammar e "" ⟨0, 0⟩, position := none }

end Source

/-- Fails at a lexeme. -/
def failAt {α : Type} (s : Source) (f : Fault) (i : Nat) : Compiling α :=
  throw (s.errorAt f i)

namespace Work

/-- The innermost open block. -/
def top (w : Work) : BlockId := w.inner.head?.getD w.root

/-- The block around the innermost one; the unit is its own surrounding. -/
def parent (w : Work) : BlockId :=
  match w.inner with
  | _ :: p :: _ => p
  | _ => w.root

/-- All open blocks, innermost first. -/
def opened (w : Work) : List BlockId := w.inner ++ [w.root]

/-- A block of the arena. -/
def block (w : Work) (id : BlockId) : Block := w.arena.block id

/-- Changes a block of the arena. -/
def modifyBlock (w : Work) (id : BlockId) (f : Block → Block) : Work :=
  { w with arena := w.arena.modify id f }

/-- Changes the innermost open block. -/
def modifyTop (w : Work) (f : Block → Block) : Work := w.modifyBlock w.top f

/-- Opens a block inside the innermost one. -/
def openBlock (w : Work) : Work :=
  let child := w.arena.size
  let top := w.top
  let arena := w.arena.push { parent := some top }
  { w with
    arena := arena.modify top fun b => { b with children := b.children.push child }
    inner := child :: w.inner }

/-- Marks every open block as one that may change the database. -/
def setWritable (w : Work) : Work :=
  w.opened.foldl (fun w id => w.modifyBlock id Block.setWritable) w

/-- Notes in every open contract that it calls a contract. -/
def noteUse (w : Work) (contract : String) : Work :=
  w.opened.foldl
    (fun w id => w.modifyBlock id fun b => b.modifyContract fun c =>
      if c.used.contains contract then c else { c with used := c.used ++ [contract] }) w

/-- The variable a name stands for in the first of some blocks that knows the name. A name that
stands for something else hides variables further out. -/
def findVarIn (w : Work) (name : String) : List BlockId → Option Target
  | [] => none
  | id :: ids =>
    match (w.block id).objects.get? name with
    | some (.var index) => some (.var ⟨id, index⟩)
    | some (.extVar key) => some (.extend key)
    | some _ => none
    | none => findVarIn w name ids

/-- The variable a name stands for. -/
def findVar (w : Work) (name : String) : Option Target := w.findVarIn name w.opened

/-- What a key is bound to in the open blocks or else globally. -/
def findKey (s : Source) (w : Work) (key : String) : Option Binding :=
  match w.opened.findSome? fun id => (w.block id).objects.get? key with
  | some b => some b
  | none => s.globals.get? key

/-- What a name is bound to: under the name itself, or else under its qualified form. -/
def find (s : Source) (w : Work) (name : String) : Option Binding :=
  match findKey s w name with
  | some b => some b
  | none => findKey s w (Name.qualify s.state.toNat name)

end Work

/-- Adds an instruction to the innermost open block. -/
def emit (op : Op) (line : Nat) : Compiling Unit :=
  modify fun w => w.modifyTop (·.emit ⟨op, line⟩)

end Covenant.Compile
