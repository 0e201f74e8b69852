import Covenant.Machine.Variable

/-!
# Calls

Arguments come from the operand stack, are checked against the signature, and become the first
variables of the called function. A call that counts its arguments collects the surplus into one
array, and may have its last argument spread into elements before. Functions with chained segments
take one more operand, a map from segments to their arguments.

Host functions run at once. Contracts and functions of the language only get a frame here; the
machine runs them step by step.
-/

namespace Covenant

/-- The arguments checked against their types, counting from a position. An integer parameter cuts
off the fraction of a double. Surplus arguments pass. -/
def checkParams (position : Nat) : List Ty → List Value → Except Fault (List Value)
  | t :: ts, v :: vs => do
    let v ← match t, v with
      | .int, .float x => pure (.int (Number.Binary64.toInt64 x))
      | _, _ => if t.accepts v then pure v else throw (Fault.paramType position)
    let vs ← checkParams (position + 1) ts vs
    return v :: vs
  | _, vs => .ok vs

namespace Exec

/-- The number of arguments that was pushed behind them. -/
def popCount : Exec Nat := do
  let v ← pop
  let n ← ofExcept (v.toInt (← get).heap)
  return n.toUInt64.toNat

/-- Takes arguments, and spreads the last one if that was asked for. -/
def takeArgs (count : Nat) : Exec (List Value) := do
  let args ← popN count
  let spread := (← get).spread
  modify fun m => { m with spread := false }
  match spread, args.getLast? with
  | true, some (.array r) => return args.dropLast ++ ((← get).heap.items r).toList
  | _, _ => return args

/-- Takes as many arguments as there are parameters. -/
def takeFixed (count : Nat) : Exec (List Value) := do
  modify fun m => { m with spread := false }
  popN count

/-- Collects the arguments behind the first ones into an array. -/
def collectTail (fixed : Nat) (args : List Value) : Exec (List Value) := do
  let tail ← newArray (args.drop fixed)
  return args.take fixed ++ [tail]

/-- Arguments of a function that collects its last parameter. -/
def variadicArgs (f : FuncInfo) (args : List Value) : Exec (List Value) := do
  if args.length < f.params.length - 1 then fail (.wrongParams f.name f.params.length)
  collectTail (f.params.length - 1) args

/-- Puts values into the variables at some positions. -/
def fillSlots : List Nat → List Value → List Value → Exec (List Value)
  | i :: is, v :: vs, slots =>
    if i < slots.length then fillSlots is vs (slots.set i v) else throw .crash
  | _, _, slots => pure slots

/-- Binds the arguments of one chained segment. -/
def bindSegment (g : Segment) (args : List Value) (slots : List Value) : Exec (List Value) := do
  let args ← if g.variadic then collectTail (g.offsets.length - 1) args else pure args
  let args ← ofExcept (checkParams 1 g.params args)
  fillSlots g.offsets args slots

/-- Binds the arguments of the segments that were written behind a call. -/
def bindSegments (named : Dict Value) : List (String × Segment) → List Value → Exec (List Value)
  | [], slots => pure slots
  | (name, g) :: gs, slots => do
    match named.get? name with
    | some (.array r) =>
      let slots ← bindSegment g ((← get).heap.items r).toList slots
      bindSegments named gs slots
    | _ => bindSegments named gs slots

/-- The segments' arguments, which lie on top of the others. -/
def popSegments (f : FuncInfo) : Exec (Option Value) :=
  match f.segments with
  | some _ => some <$> pop
  | none => pure none

/-- Calls a function of the language; the count is given for a call that counts its arguments. -/
def callFunc (c : Context) (id : BlockId) (count : Option Nat) : Exec Unit := do
  if c.registry.arena.size ≤ id then throw .crash
  match (c.block id).func? with
  | none => fail (.unknownFunction "")
  | some f =>
    let named ← popSegments f
    let args ← match count with
      | some n => variadicArgs f (← takeArgs n)
      | none => takeFixed f.params.length
    let args ← ofExcept (checkParams 1 f.params args)
    let slots := args ++ (← defaults ((c.block id).vars.toList.drop args.length))
    let slots ← match f.segments, named with
      | some segments, some (.map r) => bindSegments ((← get).heap.entries r) segments.toList slots
      | _, _ => pure slots
    charge c.limits.costCall
    checkDepth c
    enterBlock c id slots .call

/-- Starts a function from outside with positional arguments. Other blocks take any arguments. -/
def start (c : Context) (id : BlockId) (params : List Value) (role : Role) : Exec Unit := do
  if c.registry.arena.size ≤ id then throw .crash
  match (c.block id).func? with
  | none => enterBlock c id params role
  | some f =>
    let args ←
      if f.variadic then variadicArgs f params
      else if params.length = f.params.length then pure params
      else fail (.wrongParams f.name f.params.length)
    let args ← ofExcept (checkParams 1 f.params args)
    enterBlock c id args role

/-! ### Contracts -/

/-- Adds the fields that were left out with the default of their type. -/
def addFields : List Field → Dict Value → Exec (Dict Value)
  | [], params => pure params
  | f :: fs, params => do
    if params.contains f.name then addFields fs params
    else if !f.isOptional then fail (.undefinedParam f.name)
    else
      match ← defaults [f.ty] with
      | v :: _ => addFields fs (params.insert f.name v)
      | [] => addFields fs params

/-- The sections of a contract in the order they run. -/
def sectionsOf (b : Block) : List BlockId :=
  ["conditions", "action"].filterMap fun name =>
    match b.objects.get? name with
    | some (.func id) => some id
    | _ => none

/-- The environment in which a contract starts: the node's variables and the contract's fields. -/
def contractEnv (env params : Dict Value) (name : String) : Dict Value :=
  let system := env.filterKeys Name.isSystem
  (((system.insert "parent" ((system.get? "this_contract").getD (.str ""))).insert
    "this_contract" (.str name)).insert (Name.marker name) (.bool true)).insertAll params.toList

/-- Calls a contract by its qualified name with values for the fields in a list of names. -/
def callContract (c : Context) (name names : String) (values : List Value)
    (via : Option Extension) : Exec Unit := do
  match c.registry.qualified? name with
  | none => fail (.unknownContract name)
  | some id =>
    if c.registry.arena.size ≤ id then throw .crash
    match (c.block id).contract? with
    | none => fail (.unknownContract name)
    | some info =>
      let names := Text.fields names
      if names.length ≠ values.length then fail (.contractParams name)
      if (← get).env.contains (Name.marker name) then fail (.contractLoop name)
      let params ← addFields (info.data.getD []) (.ofList (names.zip values))
      charge c.limits.costContract
      match c.registry.contractPrice name with
      | some price => charge price
      | none => pure ()
      modify fun m =>
        let k : ContractCall :=
          { name := name, sections := sectionsOf (c.block id)
            this := m.env.get? "this_contract", parent := m.env.get? "parent"
            saved := m.env.toList.filter fun p => !Name.isSystem p.1
            via := via }
        { m with
          env := contractEnv m.env params name
          depth := m.depth + k.calls
          frames := .contract k :: m.frames }

/-- Calls a contract seen from an ecosystem with a map of fields. -/
def callContractIn (c : Context) (state : UInt32) (name : String) (params : Dict Value)
    (via : Option Extension) : Exec Unit :=
  callContract c (Name.qualify state.toNat name) (",".intercalate params.keys) params.values via

/-! ### Extensions -/

/-- Leaves the results of an extension on the stack. The first result of a query is its cost. -/
def deliver (e : Extension) (results : List Value) : Exec Unit := do
  match e.queriesDb, results with
  | true, cost :: rest =>
    let n ← ofExcept (cost.toInt (← get).heap)
    charge n.toInt
    pushAll rest
  | _, _ => pushAll results

/-- Runs a function of the host. While it runs nothing of the machine can look at the number of
calls in progress, so that the call need not be counted. -/
def callHost (e : Extension) (run : List Value → Host → Reply × Host) (args : List Value) :
    Exec Unit := do
  let reply ← modifyGet fun m =>
    let (reply, host) := run args ⟨m.heap, m.env, m.cost⟩
    (reply, { m with heap := host.heap, env := host.env, cost := host.cost })
  match reply with
  | .values vs => do
    deliver e vs
    advance
  | .fault f => fail f
  | .crash => throw .crash

/-- Carries out the behaviour of an extension. -/
def behave (c : Context) (e : Extension) (args : List Value) : Exec Unit :=
  match e.behaviour with
  | .host run => callHost e run args
  | .execContract => do
    let h := (← get).heap
    let name := (args.getD 0 .nil).text h
    let names := (args.getD 1 .nil).text h
    callContract c name names (args.drop 2) (some e)
  | .callContract => do
    let h := (← get).heap
    let state ← ofExcept ((args.getD 0 .nil).toInt h)
    let params := match args.getD 2 .nil with
      | .map r => h.entries r
      | _ => .empty
    callContractIn c state.toUInt64.toUInt32 ((args.getD 1 .nil).text h) params (some e)

/-- Calls an extension; the count is given for a call that counts its arguments. -/
def callExtension (c : Context) (e : Extension) (count : Option Nat) : Exec Unit := do
  let args ← match count with
    | some n => takeArgs n
    | none => takeFixed e.params.length
  if args.length < e.fixed then fail (.wrongParams e.name e.params.length)
  let args ← ofExcept (checkParams 1 (e.params.take e.fixed) args)
  let env := (← get).env
  let auto := e.auto.map fun key => (env.get? key).getD .nil
  charge c.limits.costExtend
  match c.registry.extensionCost e.name with
  | some cost => charge cost
  | none => pure ()
  checkDepth c
  behave c e (auto ++ args)

/-- Calls what a call instruction names. -/
def call (c : Context) (f : Callee) (count : Option Nat) : Exec Unit :=
  match f with
  | .func id => callFunc c id count
  | .ext e => callExtension c e count

end Exec

end Covenant
