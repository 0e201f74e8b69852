import Covenant.Code

/-!
# Blocks

A block is a compiled scope: a unit, a contract, a function, or the body of a control statement.
Blocks live in an arena and name each other by number; `Arena` has the few operations the compiler
needs on it.
-/

namespace Covenant

/-- What a name stands for. -/
inductive Binding where
  | contract (id : BlockId)
  | func (id : BlockId)
  | ext (e : Extension)
  /-- A variable of the block that declares the name. -/
  | var (index : Nat)
  /-- An environment variable. -/
  | extVar (name : String)

/-- The block of a contract or function. -/
def Binding.block? : Binding → Option BlockId
  | contract id => some id
  | func id => some id
  | _ => none

/-- Parameters of one `.Name(...)` segment of a chained function. -/
structure Segment where
  params : List Ty := []
  /-- Slots that receive the arguments. -/
  offsets : List Nat := []
  variadic : Bool := false

/-- The signature of a function. -/
structure FuncInfo where
  name : String
  id : Nat
  params : List Ty := []
  results : List Ty := []
  segments : Option (Dict Segment) := none
  /-- The segment whose parameters are being declared. -/
  chain : Option String := none
  variadic : Bool := false
  canWrite : Bool := false
  /-- Whether the function stays out of error traces. -/
  hidden : Bool := false

/-- Whether a call with this many arguments fits the signature. -/
def FuncInfo.takes (f : FuncInfo) (count : Nat) : Bool :=
  if f.variadic then f.params.length ≤ count + 1 else count == f.params.length

/-- A field of a data section. -/
structure Field where
  name : String
  ty : Ty := .any
  /-- The number of the declared type; zero until one is declared. -/
  typeId : Nat := 0
  tags : String := ""

/-- Whether the field may be left out. -/
def Field.isOptional (f : Field) : Bool := Text.occursIn "optional".toList f.tags.toList

/-- The header of a contract. -/
structure ContractInfo where
  name : String
  id : Nat
  state : UInt32
  /-- Contracts called from this one. -/
  used : List String := []
  /-- The data section, if there is one. -/
  data : Option (List Field) := none
  settings : Dict Constant := .empty
  canWrite : Bool := false

/-- What a block is the body of. -/
inductive BlockInfo where
  | plain
  | func (info : FuncInfo)
  | contract (info : ContractInfo)

/-- A compiled scope. -/
structure Block where
  parent : Option BlockId
  info : BlockInfo := .plain
  objects : Dict Binding := .empty
  vars : Array Ty := #[]
  code : Array Instr := #[]
  children : Array BlockId := #[]

namespace Block

/-- The signature, if the block is a function. -/
def func? (b : Block) : Option FuncInfo :=
  match b.info with
  | .func info => some info
  | _ => none

/-- The header, if the block is a contract. -/
def contract? (b : Block) : Option ContractInfo :=
  match b.info with
  | .contract info => some info
  | _ => none

/-- The name of a contract or function. -/
def name (b : Block) : String :=
  match b.info with
  | .func info => info.name
  | .contract info => info.name
  | .plain => ""

/-- The name and number of a contract or function, and what the name is bound to. -/
def header? (b : Block) (self : BlockId) : Option (String × Nat × Binding) :=
  match b.info with
  | .func info => some (info.name, info.id, .func self)
  | .contract info => some (info.name, info.id, .contract self)
  | .plain => none

/-- Whether the contract or function may change the database. -/
def canWrite (b : Block) : Bool :=
  match b.info with
  | .func info => info.canWrite
  | .contract info => info.canWrite
  | .plain => false

/-- Marks a contract or function as one that may change the database. -/
def setWritable (b : Block) : Block :=
  match b.info with
  | .func info => { b with info := .func { info with canWrite := true } }
  | .contract info => { b with info := .contract { info with canWrite := true } }
  | .plain => b

/-- Changes the signature of a function. -/
def modifyFunc (b : Block) (f : FuncInfo → FuncInfo) : Block :=
  match b.info with
  | .func info => { b with info := .func (f info) }
  | _ => b

/-- Changes the header of a contract. -/
def modifyContract (b : Block) (f : ContractInfo → ContractInfo) : Block :=
  match b.info with
  | .contract info => { b with info := .contract (f info) }
  | _ => b

/-- Gives a contract or function another number. -/
def setId (b : Block) (id : Nat) : Block :=
  (b.modifyFunc fun i => { i with id := id }).modifyContract fun i => { i with id := id }

/-- Declares a variable. -/
def declare (b : Block) (name : String) (t : Ty) : Block :=
  { b with vars := b.vars.push t, objects := b.objects.insert name (.var b.vars.size) }

/-- Adds an instruction. -/
def emit (b : Block) (i : Instr) : Block := { b with code := b.code.push i }

end Block

/-- Compiled blocks; their numbers are positions. -/
abbrev Arena := Array Block

namespace Arena

/-- The block with a number; a number out of range gives an empty block. -/
def block (a : Arena) (id : BlockId) : Block := a.getD id { parent := none }

end Arena

end Covenant
