import Covenant.Registry

/-!
# The machine

A run works on a machine: an operand stack, the frames of what is active, the heap, the environment,
and the meters. Frames are of two kinds. An *activation* is a running block with its variables and
its position in the code; a caller's position stays at the calling instruction until the callee has
ended. A *contract call* remembers what the environment was before and which sections are still to
run.

Instructions are steps of the monad `Exec`, which keeps the machine also when a step fails, so that
a failed run can still say where it was and hand back its environment.
-/

namespace Covenant

/-- How a block ends. -/
inductive Status where
  | normal | return | continue | break
deriving DecidableEq, Repr, Inhabited

/-- Why a block runs, and so what happens behind it. -/
inductive Role where
  /-- The run was started with it. -/
  | entry
  /-- A section of a contract. -/
  | section
  /-- The body of an `if` or `else`. -/
  | branch
  /-- The body of a `while`. -/
  | loop
  /-- A called function. -/
  | call
deriving DecidableEq, Repr, Inhabited

/-- How many calls in progress a block stands for. -/
def Role.calls : Role → Nat
  | .call => 1
  | _ => 0

/-- A running block. -/
structure Activation where
  block : BlockId
  /-- The position of the instruction that runs now or next. -/
  pc : Nat := 0
  /-- Values of the block's variables. -/
  slots : Array Value
  /-- Height of the operand stack on entry. -/
  base : Nat
  role : Role
  /-- Positions of the labels of open loops, innermost first. -/
  labels : List Nat := []
  /-- What the last `if` of the block found. -/
  lastCond : Bool := false
  /-- What the next assignment writes to. -/
  targets : List Target := []

/-- A contract that has been called and has not ended. -/
structure ContractCall where
  /-- The qualified name. -/
  name : String
  /-- Sections still to run. -/
  sections : List BlockId
  /-- `this_contract` of the caller. -/
  this : Option Value
  /-- `parent` of the caller. -/
  parent : Option Value
  /-- The caller's own variables. -/
  saved : List (String × Value)
  /-- The extension that called the contract; nothing if the run was started with it. -/
  via : Option Extension

/-- How many calls in progress a contract stands for. -/
def ContractCall.calls (k : ContractCall) : Nat := if k.via.isSome then 1 else 0

/-- What is active. -/
inductive Frame where
  | block (a : Activation)
  | contract (c : ContractCall)

/-- The state of a run. -/
structure Machine where
  heap : Heap
  /-- Variables of contracts and of the node. -/
  env : Dict Value
  /-- Operands, the latest at the end. -/
  stack : Array Value := #[]
  /-- Active blocks and contracts, innermost first. -/
  frames : List Frame := []
  /-- The cost that may still be spent. -/
  cost : Int
  /-- The memory meter. -/
  mem : Int := 0
  /-- Number of calls in progress. -/
  depth : Nat := 0
  /-- Whether the next call that counts its arguments spreads the last one. -/
  spread : Bool := false
  /-- Instructions started so far. -/
  ticks : Nat := 0
  /-- How the innermost block is ending, if it is. -/
  ending : Option Status := none

/-- What does not change during a run. -/
structure Context where
  registry : Registry
  /-- Milliseconds the run may take, if there is a limit. -/
  allowance : Option Nat := none
  /-- Milliseconds that have passed when some number of instructions have been started. -/
  clock : Nat → Nat := fun _ => 0

namespace Context

/-- A block of the registry. -/
def block (c : Context) (id : BlockId) : Block := c.registry.block id

/-- The limits of the registry. -/
def limits (c : Context) : Limits := c.registry.limits

end Context

/-- Why a run stops before its end. -/
inductive Stop where
  | fault (f : Fault)
  /-- A host function or the machine itself broke off. -/
  | crash
  /-- The cost left the range of its counter. -/
  | overflow

/-- Whether the counter for the cost, a signed number of 64 bits, can hold a number. -/
def InCounter (n : Int) : Prop := -9223372036854775808 ≤ n ∧ n ≤ 9223372036854775807

instance (n : Int) : Decidable (InCounter n) := inferInstanceAs (Decidable (_ ∧ _))

/-- A step of a run. -/
abbrev Exec := EStateM Stop Machine

namespace Exec

/-- Stops with a cause. -/
def fail {α : Type} (f : Fault) : Exec α := throw (.fault f)

/-- The value of a computation that may fail. -/
@[inline]
def ofExcept {α : Type} : Except Fault α → Exec α
  | .ok a => pure a
  | .error f => fail f

/-! ### The operand stack -/

/-- Adds an operand. -/
@[inline]
def push (v : Value) : Exec Unit := modify fun m => { m with stack := m.stack.push v }

/-- Adds operands in order. -/
def pushAll (vs : List Value) : Exec Unit :=
  modify fun m => { m with stack := vs.foldl Array.push m.stack }

/-- Takes the latest operand. -/
@[inline]
def pop : Exec Value := do
  match (← get).stack.back? with
  | none => fail .stackEmpty
  | some v =>
    modify fun m => { m with stack := m.stack.pop }
    return v

/-- Takes the latest operands, oldest first. -/
def popN (n : Nat) : Exec (List Value) := do
  let size := (← get).stack.size
  if size < n then fail .stackEmpty
  let vs := ((← get).stack.extract (size - n) size).toList
  modify fun m => { m with stack := m.stack.shrink (size - n) }
  return vs

/-- Drops the operands above a height. -/
def truncate (height : Nat) : Exec Unit :=
  modify fun m => { m with stack := m.stack.shrink height }

/-! ### Meters -/

/-- Spends some of the remaining cost. A run that has nothing left stops, and so does one whose
counter cannot hold what would be left. -/
@[inline]
def charge (amount : Int) : Exec Unit := do
  let rest := (← get).cost - amount
  if ¬ InCounter rest then throw .overflow
  modify fun m => { m with cost := rest }
  if rest ≤ 0 then fail .costLimit

/-- Accounts for one instruction and checks the limits. -/
@[inline]
def tick (c : Context) : Exec Unit := do
  modify fun m => { m with ticks := m.ticks + 1 }
  charge 1
  match c.allowance with
  | some ms => if ms ≤ c.clock (← get).ticks then fail .timeLimit
  | none => pure ()
  if c.limits.maxMem < (← get).mem then fail .memoryLimit

/-- Checks that one more call may begin. The call is counted as long as its frame is there. -/
def checkDepth (c : Context) : Exec Unit := do
  if c.limits.maxCallDepth ≤ (← get).depth then fail .callDepth

/-! ### Activations -/

/-- Changes the innermost activation. -/
@[inline]
def modifyTop (f : Activation → Activation) : Exec Unit :=
  modify fun m =>
    match m.frames with
    | .block a :: rest => { m with frames := .block (f a) :: rest }
    | _ => m

/-- Goes on to the next instruction of the innermost activation. -/
@[inline]
def advance : Exec Unit := modifyTop fun a => { a with pc := a.pc + 1 }

/-- Values of freshly declared variables. -/
def defaults (tys : List Ty) : Exec (List Value) :=
  modifyGet fun m =>
    let (vs, h) := m.heap.defaults tys
    (vs, { m with heap := h })

/-- A new array. -/
def newArray (items : List Value) : Exec Value :=
  modifyGet fun m =>
    let (v, h) := m.heap.newArray items.toArray
    (v, { m with heap := h })

/-- A new map; of several bindings of a name the last one wins. -/
def newMap (entries : List (String × Value)) : Exec Value :=
  modifyGet fun m =>
    let (v, h) := m.heap.newMap (.ofList entries)
    (v, { m with heap := h })

/-- The size of some values for the memory meter. -/
def sizeOf (h : Heap) (vs : Array Value) : Int := vs.foldl (fun n v => n + v.memSize h) 0

/-- Starts a block. The given values fill its first variables, and the others take the default of
their type. -/
def enterBlock (c : Context) (id : BlockId) (given : List Value) (role : Role) : Exec Unit := do
  if c.registry.arena.size ≤ id then throw .crash
  let rest ← defaults ((c.block id).vars.toList.drop given.length)
  let slots := (given ++ rest).toArray
  modify fun m =>
    { m with
      mem := m.mem + sizeOf m.heap slots
      depth := m.depth + role.calls
      frames :=
        .block { block := id, slots := slots, base := m.stack.size, role := role } :: m.frames }

end Exec

end Covenant
