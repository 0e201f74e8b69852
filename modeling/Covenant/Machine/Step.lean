import Covenant.Machine.Call

/-!
# Steps

One step of the machine runs one instruction of the innermost block, ends that block, or goes on
with a contract: its next section, or, behind the last one, the way back to the caller's
environment. The run is over when nothing is active.
-/

namespace Covenant

/-- The environment behind a contract call: the node's variables without the marker, with the
caller's `this_contract` and `parent`, and the caller's own variables. -/
def ContractCall.restore (k : ContractCall) (env : Dict Value) : Dict Value :=
  let node := (env.filterKeys Name.isSystem).erase (Name.marker k.name)
  ((node.assign "this_contract" k.this).assign "parent" k.parent).insertAll k.saved

namespace Exec

/-! ### Ending blocks and contracts -/

/-- The machine without its innermost block: the variables of the block go, and the call that it
stands for is over. -/
def dropBlock (a : Activation) (rest : List Frame) (m : Machine) : Machine :=
  { m with
    frames := rest
    ending := none
    mem := max (m.mem - sizeOf m.heap a.slots) 0
    depth := m.depth - a.role.calls }

/-- The machine without its innermost contract: the environment of the caller is back, and the call
is over. -/
def finished (k : ContractCall) (rest : List Frame) (m : Machine) : Machine :=
  { m with
    frames := rest
    env := k.restore m.env
    depth := m.depth - k.calls }

/-- Keeps the latest operands as the results of a function and drops the others it left. -/
def keepResults (f : FuncInfo) (base : Nat) : Exec Unit := do
  let want := f.results.length
  let size := (← get).stack.size
  if size < base + want then fail (.wrongResults f.name want)
  if base + want < size then
    let results := ((← get).stack.extract (size - want) size).toList
    truncate base
    pushAll results

/-- Goes back to the label of the innermost loop of a block. -/
def jump (a : Activation) : Activation :=
  match a.labels with
  | label :: _ => { a with pc := label + 1 }
  | [] => { a with pc := a.pc + 1 }

/-- Leaves the innermost loop of a block. -/
def leaveLoop (a : Activation) : Activation := { a with labels := a.labels.tail, pc := a.pc + 1 }

/-- Goes on behind a block that has ended. -/
def continueBehind (role : Role) (base : Nat) (status : Status) : Exec Unit := do
  match role, status with
  | .entry, _ => pure ()
  | .section, _ =>
    if (← get).stack.size < base then throw .crash
    truncate base
  | .branch, .normal => advance
  | .branch, _ => modify fun m => { m with ending := some status }
  | .loop, .return => modify fun m => { m with ending := some status }
  | .loop, .break => modifyTop leaveLoop
  | .loop, _ => modifyTop jump
  | .call, _ => advance

/-- Ends the innermost block: its variables go, and what it leaves on the stack depends on how it
ends. A function ends its `return`s; in other blocks a status other than `normal` also ends what is
around them. -/
def leave (c : Context) (status : Status) : Exec Unit := do
  match (← get).frames with
  | .block a :: rest => do
    modify (dropBlock a rest)
    match (c.block a.block).func? with
    | none => do
      if status ≠ .return then truncate a.base
      continueBehind a.role a.base status
    | some f => do
      if status = .return then keepResults f a.base else truncate a.base
      continueBehind a.role a.base .normal
  | _ => pure ()

/-! ### Contracts -/

/-- Goes on with a contract call: the next section, or the end of the call. -/
def resume (c : Context) (k : ContractCall) (rest : List Frame) : Exec Unit :=
  match k.sections with
  | s :: sections => do
    modify fun m => { m with frames := .contract { k with sections := sections } :: rest }
    start c s [] .section
  | [] => do
    let result := ((← get).env.get? "result").getD .nil
    modify (finished k rest)
    match k.via with
    | none => push result
    | some e => do
      deliver e [result]
      advance

/-! ### Instructions -/

/-- Raises a message of the program, cut to the longest length that is kept. -/
def raise (c : Context) (level : Level) : Exec Unit := do
  let v ← pop
  let message := String.ofList (((v.text (← get).heap).toList).take c.limits.maxErrLen)
  fail (.contract ("\x7b\"type\":" ++ Text.json level.name ++ ",\"error\":" ++ Text.json message
    ++ "\x7d"))

/-- Adds the arguments of a chained segment to the map on top of the stack. -/
def collectSegment (segment : String) (count : Nat) : Exec Unit := do
  let args ← popN count
  match (← get).stack.back? with
  | none => fail .stackEmpty
  | some .nil => do
    let list ← newArray args
    let map ← newMap [(segment, list)]
    modify fun m => { m with stack := m.stack.pop.push map }
  | some (.map r) => do
    let list ← newArray args
    modify fun m => { m with heap := m.heap.modifyMap r fun d => d.insert segment list }
  | some _ => pure ()

/-- Runs an instruction. Instructions with a block start it, and the position moves on when it
ends. -/
def perform (c : Context) (op : Op) : Exec Unit := do
  match op with
  | .push k => do
    push k.toValue
    advance
  | .var v => do
    push (← readVar v)
    advance
  | .extendVar name => do
    push (← readExtend name)
    advance
  | .callExtend name => do
    let count ← popCount
    match c.registry.objects.get? name with
    | some (.ext e) => callExtension c e (some count)
    | _ => fail (.unknownFunction name)
  | .call f => call c f none
  | .callVariadic f => do
    let count ← popCount
    call c f (some count)
  | .return => leave c .return
  | .continue => leave c .continue
  | .break => leave c .break
  | .if body => do
    let v ← pop
    let cond := v.truthy (← get).heap
    modifyTop fun a => { a with lastCond := cond }
    if cond then enterBlock c body [] .branch else advance
  | .else body => do
    match (← get).frames with
    | .block a :: _ => if a.lastCond then advance else enterBlock c body [] .branch
    | _ => pure ()
  | .while body => do
    let v ← pop
    if v.truthy (← get).heap then enterBlock c body [] .loop else modifyTop leaveLoop
  | .label => modifyTop fun a => { a with labels := a.pc :: a.labels, pc := a.pc + 1 }
  | .assignVar targets => modifyTop fun a => { a with targets := targets, pc := a.pc + 1 }
  | .assign => do
    match (← get).frames with
    | .block a :: _ => do
      let targets := a.targets
      modifyTop fun a => { a with targets := [] }
      let values ← popN targets.length
      assignAll c targets values
      advance
    | _ => pure ()
  | .error level => raise c level
  | .funcName segment count => do
    collectSegment segment count
    advance
  | .unwrapArr => do
    modify fun m => { m with spread := true }
    advance
  | .mapInit entries => do
    push (← item (.map entries))
    advance
  | .arrayInit is => do
    push (← item (.array is))
    advance
  | .index => do
    let key ← pop
    let container ← pop
    push (← ofExcept ((← get).heap.index container key))
    advance
  | .setIndex => do
    let value ← pop
    let key ← pop
    let container ← pop
    storeIndex c container key value
    advance
  | .unary op => do
    let a ← pop
    push (← ofExcept (Arithmetic.unary (← get).heap op a))
    advance
  | .binary op => do
    let b ← pop
    let a ← pop
    push (← ofExcept (Arithmetic.binary (← get).heap op a b))
    advance

/-- One step of the machine. -/
def step (c : Context) : Exec Unit := do
  match (← get).frames with
  | [] => pure ()
  | .contract k :: rest => resume c k rest
  | .block a :: _ =>
    match (← get).ending with
    | some status => leave c status
    | none =>
      match (c.block a.block).code[a.pc]? with
      | none => leave c .normal
      | some i => do
        tick c
        perform c i.op

/-- Steps until nothing is active. -/
def loop (c : Context) : Nat → Exec Unit
  | 0 => do
    match (← get).frames with
    | [] => pure ()
    | _ => fail .outOfSteps
  | fuel + 1 => do
    match (← get).frames with
    | [] => pure ()
    | _ => do
      step c
      loop c fuel

end Exec

end Covenant
