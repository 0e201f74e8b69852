import Covenant.Compile.Work

/-!
# Actions of the grammar

One function for every action of the grammar table. An action gets the position of the lexeme that
led to it; it declares names, notes parameters and data fields, or adds the instruction of a
statement.
-/

namespace Covenant.Compile

/-- Adds an instruction of the surrounding block that runs the innermost one. -/
def wrapTop (op : BlockId → Op) (s : Source) (i : Nat) : Compiling Unit :=
  modify fun w => w.modifyBlock w.parent (·.emit ⟨op w.top, s.line i⟩)

/-! ### Contracts and functions -/

/-- Names the innermost block, which is a contract if that keyword stands before the name. -/
def nameBlock (s : Source) (i : Nat) : Compiling Unit := do
  let w ← get
  let name := s.name i
  let isContract := 0 < i && s.kind? (i - 1) == some (.keyword .contract)
  let key := if isContract then Name.qualify s.state.toNat name else name
  let around := w.block w.parent
  if around.objects.contains key then
    failAt s (.redeclared (if isContract then "contract" else "function") name around.name) i
  let id := around.children.size - 1
  let (info, binding) : BlockInfo × Binding :=
    if isContract then (.contract { name := key, id := id, state := s.state }, .contract w.top)
    else (.func { name := key, id := id }, .func w.top)
  set ((w.modifyTop fun b => { b with info := info }).modifyBlock w.parent fun b =>
    { b with objects := b.objects.insert key binding })

/-- Whether a name is taken in the innermost block or among the names that wait for their type. -/
def taken (w : Work) (name : String) : Bool :=
  (w.block w.top).objects.contains name || w.pending.contains name

/-- Notes a parameter that waits for its type. -/
def param (s : Source) (i : Nat) : Compiling Unit := do
  let w ← get
  let name := s.name i
  if taken w name then failAt s (.duplicateParam name) i
  set { w with pending := w.pending ++ [name] }

/-- Adds a parameter to a segment. -/
def Segment.addParam (g : Segment) (t : Ty) (slot : Nat) (variadic : Bool) : Segment :=
  { g with
    params := g.params ++ [t]
    offsets := g.offsets ++ [slot]
    variadic := g.variadic || variadic }

/-- Whether the list of parameters being declared already ends in `...`. -/
def hasTail (f : FuncInfo) : Bool :=
  match f.chain with
  | none => f.variadic
  | some c => ((f.segments.getD .empty).get? c).any (·.variadic)

/-- Adds a parameter to the signature or to the segment being declared. -/
def addParam (f : FuncInfo) (t : Ty) (slot : Nat) (variadic : Bool) : FuncInfo :=
  match f.chain with
  | none => { f with params := f.params ++ [t], variadic := f.variadic || variadic }
  | some c =>
    let segments := f.segments.getD .empty
    let g := Segment.addParam ((segments.get? c).getD {}) t slot variadic
    { f with segments := some (segments.insert c g) }

/-- Declares one parameter. -/
def declareParam (s : Source) (t : Ty) (variadic : Bool) (i : Nat) (name : String) :
    Compiling Unit := do
  let w ← get
  let b := w.block w.top
  let slot := b.vars.size
  let twice := variadic && (b.func?).any hasTail
  set (w.modifyTop fun b => (b.declare name t).modifyFunc fun f => addParam f t slot variadic)
  if twice then failAt s .variadicTwice i

/-- Gives the waiting parameters their type. -/
def declareParams (s : Source) (t : Ty) (variadic : Bool) (i : Nat) : Compiling Unit := do
  let w ← get
  set { w with pending := [] }
  if variadic && 1 < w.pending.length then failAt s .variadicTwice i
  w.pending.forM (declareParam s t variadic i)

/-- The type a lexeme names. -/
def typeAt (s : Source) (i : Nat) : Ty :=
  match s.token? i with
  | some (.type t) => t
  | _ => .any

/-- Notes a result type. -/
def result (s : Source) (i : Nat) : Compiling Unit := do
  match s.token? i with
  | some (.type t) =>
    modify fun w => w.modifyTop fun b => b.modifyFunc fun f =>
      { f with results := f.results ++ [t] }
  | _ => return

/-- Starts a chained segment. -/
def segment (s : Source) (i : Nat) : Compiling Unit := do
  let w ← get
  let name := s.name i
  match (w.block w.top).func? with
  | none => return
  | some f =>
    let segments := f.segments.getD .empty
    if segments.contains name then failAt s (.duplicateParam name) i
    set (w.modifyTop fun b => b.modifyFunc fun f =>
      { f with segments := some (segments.insert name {}), chain := some name })

/-! ### Statements -/

/-- Notes a variable that waits for its type. -/
def var (s : Source) (i : Nat) : Compiling Unit := do
  let w ← get
  let name := s.name i
  if taken w name then failAt s (.duplicateVar name) i
  set { w with pending := w.pending ++ [name] }

/-- Gives the waiting variables their type. -/
def varType (s : Source) (i : Nat) : Compiling Unit :=
  modify fun w =>
    { w.modifyTop fun b => w.pending.foldl (fun b name => b.declare name (typeAt s i)) b with
      pending := [] }

/-- Wraps the innermost block into the `else` of the `if` just before it. -/
def elseBranch (s : Source) (i : Nat) : Compiling Unit := do
  let w ← get
  match ((w.block w.parent).code.back?).map Instr.op with
  | some (.if _) => wrapTop .else s i
  | _ => failAt s .elseWithoutIf i

/-- Wraps the innermost block into a loop. The jump back waits behind the loop until its body is
closed. -/
def whileLoop (s : Source) (i : Nat) : Compiling Unit := do
  wrapTop .while s i
  modify fun w => w.modifyBlock w.parent (·.emit ⟨.continue, s.line i⟩)

/-- The level of a message statement. -/
def levelAt (s : Source) (i : Nat) : Level :=
  match s.token? i with
  | some (.keyword .warning) => .warning
  | some (.keyword .info) => .info
  | _ => .error

/-- Adds a target to the assignment being read. -/
def addTarget (b : Block) (t : Target) (line : Nat) : Block :=
  match b.code.back? with
  | some ⟨.assignVar targets, l⟩ =>
    { b with code := b.code.pop.push ⟨.assignVar (targets ++ [t]), l⟩ }
  | _ => b.emit ⟨.assignVar [t], line⟩

/-- Notes a target of an assignment. -/
def assignVar (s : Source) (i : Nat) : Compiling Unit := do
  let w ← get
  let name := s.name i
  let target ←
    if s.kind? i == some .extend then
      if Name.isSystem name then failAt s (.sysVarAssign name) i else pure (Target.extend name)
    else
      match w.findVar name with
      | some t => pure t
      | none => failAt s (.unknownIdent name) i
  set (w.modifyTop fun b => addTarget b target (s.line i))

/-! ### Data and settings -/

/-- Fails unless the innermost block is a contract. -/
def inContract (s : Source) (f : Fault) (i : Nat) : Compiling Unit := do
  let w ← get
  if (w.block w.top).contract?.isNone then failAt s f i

/-- Opens the data section of a contract. -/
def dataSection (s : Source) (i : Nat) : Compiling Unit := do
  inContract s .dataOutsideContract i
  modify fun w =>
    { w.modifyTop fun b => b.modifyContract fun c => { c with data := some (c.data.getD []) } with
      pendingFields := []
      fieldStep := .start }

/-- Gives the waiting setting its value. -/
def constValue (s : Source) (i : Nat) : Compiling Unit := do
  inContract s .settingsOutsideContract i
  let value := match s.token? i with
    | some (.const c) => c
    | _ => .nil
  modify fun w =>
    { w.modifyTop fun b => b.modifyContract fun c =>
        { c with settings := c.settings.insert (w.constName.getD "") value } with
      constName := none }

/-- Fails with a fault that names the position. -/
def failField (s : Source) (f : Position → Fault) (i : Nat) : Compiling Unit :=
  failAt s (f ((s.position? i).getD ⟨0, 0⟩)) i

/-- Adds a data field that waits for its type. -/
def field (s : Source) (i : Nat) : Compiling Unit := do
  let w ← get
  match w.fieldStep with
  | .name => failField s .dataType i
  | .type => failField s .dataName i
  | .tag => failField s .dataName i
  | _ => pure ()
  let name := s.name i
  if Name.isSystem name then failAt s (.dataSysVar name) i
  match ((w.block w.top).contract?).bind (·.data) with
  | none => return
  | some fields =>
    let w := w.modifyTop fun b => b.modifyContract fun c =>
      { c with data := some (fields ++ [{ name := name }]) }
    set { w with pendingFields := w.pendingFields ++ [fields.length], fieldStep := .name }

/-- Continues the list of names on a line of the data section. -/
def fieldComma (s : Source) (i : Nat) : Compiling Unit := do
  let w ← get
  if w.fieldStep != .name then failField s .dataName i
  set { w with fieldStep := .comma }

/-- Changes the fields at some positions. -/
def modifyFields (positions : List Nat) (f : Field → Field) (fields : List Field) : List Field :=
  fields.mapIdx fun j x => if positions.contains j then f x else x

/-- Changes the fields on the current line. -/
def modifyPending (w : Work) (f : Field → Field) : Work :=
  w.modifyTop fun b => b.modifyContract fun c =>
    { c with data := c.data.map (modifyFields w.pendingFields f) }

/-- Gives the fields of a line their type. -/
def fieldType (s : Source) (i : Nat) : Compiling Unit := do
  let w ← get
  if w.fieldStep != .name then failField s .dataName i
  let t := typeAt s i
  set { modifyPending w fun f => { f with ty := t, typeId := t.id } with fieldStep := .type }

/-- Gives the fields of a line their tag. -/
def fieldTag (s : Source) (i : Nat) : Compiling Unit := do
  let w ← get
  if w.fieldStep != .type then failField s .dataTag i
  let tag := match s.token? i with
    | some (.const (.str t)) => t
    | _ => ""
  set { modifyPending w fun f => { f with tags := tag } with fieldStep := .tag }

/-- Ends a line of the data section. -/
def fieldLine (s : Source) (i : Nat) : Compiling Unit := do
  let w ← get
  if w.fieldStep == .name || w.fieldStep == .comma then failField s .dataType i
  set { w with pendingFields := [], fieldStep := .start }

/-- Closes the data section; its fields can be read as environment variables. -/
def fields (s : Source) (i : Nat) : Compiling Unit := do
  fieldLine s i
  modify fun w => w.modifyTop fun b =>
    let names := (((b.contract?).bind (·.data)).getD []).map Field.name
    { b with objects := names.foldl (fun o n => o.insert n (.extVar n)) b.objects }

/-! ### The table's actions -/

/-- Carries out an action of the grammar table for the lexeme at a position. -/
def act (s : Source) (a : Grammar.Action) (i : Nat) : Compiling Unit :=
  match a with
  | .none => pure ()
  | .nameBlock => nameBlock s i
  | .param => param s i
  | .paramType => declareParams s (typeAt s i) false i
  | .paramTail => declareParams s .array true i
  | .result => result s i
  | .segment => segment s i
  | .if => wrapTop .if s i
  | .else => elseBranch s i
  | .while => whileLoop s i
  | .return => emit .return (s.line i)
  | .continue => emit .continue (s.line i)
  | .break => emit .break (s.line i)
  | .raise => emit (.error (levelAt s i)) (s.line i)
  | .var => var s i
  | .varType => varType s i
  | .assignVar => assignVar s i
  | .assign => emit .assign (s.line i)
  | .data => dataSection s i
  | .settings => inContract s .settingsOutsideContract i
  | .constName => modify fun w => { w with constName := some (s.name i) }
  | .constValue => constValue s i
  | .field => field s i
  | .fieldType => fieldType s i
  | .fieldTag => fieldTag s i
  | .fieldComma => fieldComma s i
  | .fieldLine => fieldLine s i
  | .fields => fields s i

end Covenant.Compile
