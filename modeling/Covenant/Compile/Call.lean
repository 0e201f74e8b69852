import Covenant.Compile.Work

/-!
# Calls in expressions

A call is opened at its name and closed at its right parenthesis; in between it waits among the
pending operators of the expression. Calls of contracts are turned into calls of `ExecContract` with
the qualified name as first argument. Functions with chained segments get one more argument, which
collects the segments that were written behind the call.
-/

namespace Covenant.Compile

/-- What a pending call will call. -/
inductive CallTarget where
  | func (id : BlockId)
  | ext (e : Extension)
  /-- A `$` name, looked up when the call runs. -/
  | extend (name : String)

/-- A call whose arguments are being read. -/
structure PendingCall where
  target : CallTarget
  /-- Whether the contract's name has been pushed as first argument. -/
  contract : Bool := false
  /-- Whether the ecosystem has been pushed as first argument. -/
  stateArg : Bool := false
  /-- Number of arguments of the base call while its segments are read. -/
  count : Option Nat := none
  line : Nat

/-- What waits for its place in the output. -/
inductive Pending where
  | op (o : Op)
  /-- A left parenthesis, of a call or of a group. -/
  | paren (call : Bool)
  /-- The left bracket of an index. -/
  | index
  | call (c : PendingCall)
  /-- A chained segment whose arguments are being read. -/
  | chain (segment : String)

/-- An expression under way. -/
structure Yard where
  code : Array Instr := #[]
  /-- Pending operators and brackets, the latest first. -/
  buffer : List Pending := []
  /-- Commas seen in the open calls, innermost first. -/
  counts : List Nat := []
  setIndex : Bool := false
  expectOperand : Bool := true
  /-- Kind of the lexeme before. -/
  prev : Option Kind := none

namespace Yard

/-- Adds an instruction to the output. -/
def emit (y : Yard) (op : Op) (line : Nat) : Yard := { y with code := y.code.push ⟨op, line⟩ }

end Yard

/-- The extension that runs contracts. -/
def contractRunner (s : Source) (i : Nat) : Compiling Extension :=
  match s.globals.get? "ExecContract" with
  | some (.ext e) => pure e
  | _ => failAt s (.unknownFunction "ExecContract") i

/-- Names of the open contracts, innermost first. -/
def openContracts (w : Work) : List String :=
  w.opened.filterMap fun id => ((w.block id).contract?).map (·.name)

/-- Whether calling a contract that uses others would lead back into an open contract. -/
def wouldRecur (w : Work) (target : String) (used : List String) : Bool :=
  let names := openContracts w
  names.contains target || (names.head?).any used.contains

/-- Opens a call of a contract that is already known. -/
def openContract (s : Source) (id : BlockId) (i : Nat) (y : Yard) :
    Compiling (Yard × PendingCall) := do
  let w ← get
  let (name, used, canWrite) := match (w.block id).contract? with
    | some c => (c.name, c.used, c.canWrite)
    | none => ("", [], false)
  if wouldRecur w name used then failAt s .recursion i
  let w := w.noteUse name
  set (if canWrite then w.setWritable else w)
  let e ← contractRunner s i
  return (y.emit (.push (.str name)) (s.line i),
    { target := .ext e, contract := true, line := s.line i })

/-- Opens a call at its name. -/
def openCall (s : Source) (name : String) (i : Nat) (y : Yard) :
    Compiling (Yard × PendingCall) := do
  let w ← get
  let line := s.line i
  match w.find s name with
  | some (.func id) => return (y, { target := .func id, line := line })
  | some (.ext e) =>
    if e.name = "CallContract" then
      return (y.emit (.push (.int (Int64.ofNat s.state.toNat))) line,
        { target := .ext e, stateArg := true, line := line })
    else
      return (y, { target := .ext e, line := line })
  | some (.contract id) => openContract s id i y
  | none =>
    if s.lateCalls then
      let e ← contractRunner s i
      return (y.emit (.push (.str (Name.qualify s.state.toNat name))) line,
        { target := .ext e, contract := true, line := line })
    else
      failAt s (.unknownIdent name) i
  | some _ => failAt s (.unknownIdent name) i

/-- The instruction of a call: one that counts its arguments pushes their number first. -/
def emitCall (y : Yard) (f : Callee) (variadic : Bool) (count line callLine : Nat) : Yard :=
  if variadic then
    (y.emit (.push (.int (Int64.ofNat count))) line).emit (.callVariadic f) callLine
  else
    y.emit (.call f) callLine

/-- Ends a call of a function. -/
def endFunc (s : Source) (id : BlockId) (count : Nat) (c : PendingCall) (i : Nat) (y : Yard) :
    Compiling Yard := do
  let w ← get
  match (w.block id).func? with
  | none => failAt s (.unknownFunction "") i
  | some f =>
    if !f.takes count then failAt s (.wrongParams f.name f.params.length) i
    if f.canWrite then set w.setWritable
    return emitCall y (.func id) f.variadic count (s.line i) c.line

/-- Ends a call of an extension. A contract call without arguments gets an empty list of names. -/
def endExt (s : Source) (e : Extension) (count : Nat) (c : PendingCall) (i : Nat) (y : Yard) :
    Compiling Yard := do
  let (y, count) :=
    if c.contract then
      if count = 0 then (y.emit (.push (.str "")) (s.line i), 2) else (y, count + 1)
    else
      (y, count)
  let count := if c.stateArg then count + 1 else count
  if !e.takes count then failAt s (.wrongParams e.name e.params.length) i
  if e.canWrite then modify Work.setWritable
  return emitCall y (.ext e) e.variadic count (s.line i) c.line

/-- Ends a call once all its arguments are read. -/
def endCall (s : Source) (count : Nat) (c : PendingCall) (i : Nat) (y : Yard) : Compiling Yard :=
  match c.target with
  | .func id => endFunc s id count c i y
  | .ext e => endExt s e count c i y
  | .extend name =>
    pure ((y.emit (.push (.int (Int64.ofNat count))) (s.line i)).emit (.callExtend name) c.line)

/-- The segments of the function a call is for. -/
def segmentsOf (w : Work) (c : PendingCall) : Option (Dict Segment) :=
  match c.target with
  | .func id => ((w.block id).func?).bind (·.segments)
  | _ => none

/-- Whether the last instruction of the output collects a segment. -/
def endsInSegment (y : Yard) : Bool :=
  match (y.code.back?).map Instr.op with
  | some (.funcName _ _) => true
  | _ => false

/-- Whether a chained segment follows the right parenthesis at a position. -/
def chainFollows (s : Source) (i : Nat) : Bool :=
  s.kind? (i + 1) == some (.punct .dot) && s.kind? (i + 3) == some (.punct .lpar)

/-- Ends the argument list that closes at a position. If a chained segment follows, answers with the
position of its left parenthesis; otherwise the call is complete. -/
def closeCall (s : Source) (count : Nat) (i : Nat) (y : Yard) : Compiling (Yard × Option Nat) := do
  let line := s.line i
  let y := match y.buffer with
    | .chain segment :: rest => { y with buffer := rest }.emit (.funcName segment count) line
    | _ => y
  match y.buffer with
  | .call c :: rest =>
    let count := c.count.getD count
    match segmentsOf (← get) c with
    | none => return (← endCall s count c i { y with buffer := rest }, none)
    | some segments =>
      let y := if endsInSegment y then y else y.emit (.push .nil) line
      if chainFollows s i then
        let segment := s.name (i + 2)
        if !segments.contains segment then failAt s (.unknownFunction segment) (i + 2)
        return ({ y with
          buffer := .paren true :: .chain segment :: .call { c with count := some count } :: rest
          counts := 0 :: y.counts }, some (i + 3))
      else
        return (← endCall s count c i { y with buffer := rest }, none)
  | _ => failAt s .noPair i

end Covenant.Compile
