import Covenant.Compile.Call
import Covenant.Compile.Literal

/-!
# Expressions

Operands go straight to the output. Operators wait until an operator that binds no more strongly, a
closing bracket or the end of the expression lets them out, so the output is in postfix order. An
expression ends at the first lexeme that cannot belong to it; a line end belongs to it only inside
brackets.
-/

namespace Covenant.Compile

namespace Yard

/-- Whether an operator may stay in the buffer when a new one arrives. -/
def staysBelow (o new : Op) : Bool := o.opcode.priority < new.opcode.priority

/-- Lets out the operators at the top of the buffer for which `out` holds. -/
def flushOps (out : Op → Bool) (line : Nat) :
    Array Instr → List Pending → Array Instr × List Pending
  | code, .op o :: rest =>
    if out o then flushOps out line (code.push ⟨o, line⟩) rest else (code, .op o :: rest)
  | code, buffer => (code, buffer)

/-- Lets out operators down to the bracket that `stop` accepts, which is removed and returned. -/
def flushUntil (stop : Pending → Bool) (line : Nat) :
    Array Instr → List Pending → Option (Array Instr × Pending × List Pending)
  | _, [] => none
  | code, p :: rest =>
    if stop p then some (code, p, rest)
    else
      match p with
      | .op o => flushUntil stop line (code.push ⟨o, line⟩) rest
      | _ => none

/-- Whether a bracket is open. -/
def inBrackets (y : Yard) : Bool :=
  y.buffer.any fun
    | .paren _ => true
    | .index => true
    | _ => false

/-- The state behind an operand. -/
def operand (y : Yard) (k : Kind) : Yard := { y with expectOperand := false, prev := some k }

end Yard

/-- Whether a pending entry is the bracket of an index. -/
def isIndex : Pending → Bool
  | .index => true
  | _ => false

/-- Whether a pending entry is a parenthesis. -/
def isParen : Pending → Bool
  | .paren _ => true
  | _ => false

/-- Closes an index. An `=` behind the outermost one makes the expression an assignment. -/
def closeIndex (s : Source) (y : Yard) (i : Nat) : Compiling (Yard × Nat) := do
  if y.expectOperand then failAt s .endOfExpression i
  match Yard.flushUntil isIndex (s.line i) y.code y.buffer with
  | none => failAt s .noPair i
  | some (code, _, buffer) =>
    let y := { y with code := code, buffer := buffer }
    match s.kind? (i + 1) with
    | some (.punct .lbrack) => failAt s .multiIndex (i + 1)
    | some (.punct .eq) =>
      if buffer.isEmpty then
        let prev := some (.punct .eq)
        return ({ y with setIndex := true, expectOperand := true, prev := prev }, i + 2)
      else
        return ({ y.emit .index (s.line i) with prev := some (.punct .rbrack) }, i + 1)
    | _ => return ({ y.emit .index (s.line i) with prev := some (.punct .rbrack) }, i + 1)

/-- Closes a parenthesis, and with it the argument list of a call. -/
def closeParen (s : Source) (y : Yard) (i : Nat) : Compiling (Yard × Nat) := do
  let lpar := some (Kind.punct .lpar)
  if y.prev == some (.punct .comma) || (y.expectOperand && y.prev != lpar) then
    failAt s .endOfExpression i
  match Yard.flushUntil isParen (s.line i) y.code y.buffer with
  | none => failAt s .noPair i
  | some (code, p, buffer) =>
    let closed := { y with code := code, buffer := buffer, expectOperand := false }
    match p with
    | .paren true =>
      let commas := y.counts.head?.getD 0
      let count := if y.prev != lpar then commas + 1 else commas
      let (y, chained) ← closeCall s count i { closed with counts := y.counts.tail }
      match chained with
      | some next => return ({ y with prev := lpar, expectOperand := true }, next + 1)
      | none => return ({ y with prev := some (.punct .rpar) }, i + 1)
    | _ => return ({ closed with prev := some (.punct .rpar) }, i + 1)

/-- A comma between values or arguments. -/
def comma (s : Source) (y : Yard) (i : Nat) : Compiling (Yard × Nat) := do
  if y.expectOperand then failAt s .endOfExpression i
  let (code, buffer) := Yard.flushOps (fun _ => true) (s.line i) y.code y.buffer
  let counts := match buffer, y.counts with
    | .paren true :: _, n :: rest => (n + 1) :: rest
    | _, counts => counts
  return ({ y with
    code := code, buffer := buffer, counts := counts, expectOperand := true
    prev := some (.punct .comma) }, i + 1)

/-- An operator. A minus where an operand is expected changes the sign of the operand. -/
def operator (s : Source) (y : Yard) (o : Operator) (i : Nat) : Compiling (Yard × Nat) := do
  let opcode := if o = .sub ∧ y.expectOperand then Opcode.unary .sign else o.opcode
  match opcode with
  | .unary op =>
    if !y.expectOperand then failAt s .unexpectedOperator i
    return ({ y with buffer := .op (.unary op) :: y.buffer, prev := some (.oper o) }, i + 1)
  | .binary op =>
    if y.expectOperand then failAt s .unexpectedOperator i
    let (code, buffer) :=
      Yard.flushOps (fun p => !Yard.staysBelow p (.binary op)) (s.line i) y.code y.buffer
    return ({ y with
      code := code, buffer := .op (.binary op) :: buffer, expectOperand := true
      prev := some (.oper o) }, i + 1)
  | _ => failAt s (.unknownOperator o.text) i

/-- A name: a call if a parenthesis follows, a variable otherwise. -/
def nameOperand (s : Source) (y : Yard) (t : Token) (name : String) (i : Nat) :
    Compiling (Yard × Nat) := do
  let line := s.line i
  if s.kind? (i + 1) == some (.punct .lpar) then
    let (y, call) ← match t with
      | .extend name => pure (y, { target := .extend name, line := line })
      | _ => openCall s name i y
    return ({ y with
      buffer := .paren true :: .call call :: y.buffer, counts := 0 :: y.counts
      prev := some (.punct .lpar) }, i + 2)
  else
    let op ← match t with
      | .extend name => pure (Op.extendVar name)
      | _ =>
        match (← get).findVar name with
        | some (.var v) => pure (Op.var v)
        | some (.extend key) => pure (Op.extendVar key)
        | none => failAt s (.unknownIdent name) i
    return ((y.emit op line).operand t.kind, i + 1)

/-- Takes one lexeme into the expression, or answers with nothing if the expression ends before
it. -/
def take (s : Source) (blockFollows : Bool) (y : Yard) (i : Nat) (t : Token) :
    Compiling (Option (Yard × Nat)) := do
  let line := s.line i
  match t with
  | .newline => return if y.inBrackets then some (y, i + 1) else none
  | .punct .lcurly =>
    if !y.expectOperand || (blockFollows && y.prev.isNone) then return none
    let (entries, next) ← mapLiteral s (← get) i
    return some ((y.emit (.mapInit entries) line).operand (.punct .rcurly), next)
  | .punct .rcurly => return none
  | .punct .lbrack =>
    if y.expectOperand then
      let (items, next) ← arrayLiteral s (← get) i
      return some ((y.emit (.arrayInit items) line).operand (.punct .rbrack), next)
    else
      return some ({ y with
        buffer := .index :: y.buffer, expectOperand := true, prev := some (.punct .lbrack) }, i + 1)
  | .punct .rbrack => return some (← closeIndex s y i)
  | .punct .lpar =>
    if y.expectOperand then
      return some ({ y with
        buffer := .paren false :: y.buffer, prev := some (.punct .lpar) }, i + 1)
    else
      return none
  | .punct .rpar => return some (← closeParen s y i)
  | .punct .comma => return some (← comma s y i)
  | .oper o => return some (← operator s y o i)
  | .const c =>
    if y.expectOperand then return some ((y.emit (.push c) line).operand t.kind, i + 1)
    else return none
  | .ident name =>
    if y.expectOperand then return some (← nameOperand s y t name i) else return none
  | .extend name =>
    if y.expectOperand then return some (← nameOperand s y t name i) else return none
  | .keyword .tail =>
    if y.expectOperand then failAt s .mustTail i
    return some ({ y.emit .unwrapArr line with prev := some (.keyword .tail) }, i + 1)
  | _ => return none

/-- Takes lexemes into the expression until it ends. Every lexeme moves the position on, so their
number is fuel enough. -/
def takeAll (s : Source) (blockFollows : Bool) : Nat → Yard → Nat → Compiling (Yard × Nat)
  | 0, y, i =>
    match s.token? i with
    | none => pure (y, i)
    | some _ => throw (.of .outOfSteps)
  | fuel + 1, y, i =>
    match s.token? i with
    | none => pure (y, i)
    | some t => do
      match ← take s blockFollows y i t with
      | none => return (y, i)
      | some (y, next) => takeAll s blockFollows fuel y next

/-- The code of an expression that ends at a position: what is still pending must be operators. -/
def finish (s : Source) (y : Yard) (i : Nat) : Except Error (Array Instr) :=
  let hanging : Bool := match y.prev with
    | some k => k == .punct .comma || k.isOper
    | none => false
  if hanging then
    .error (s.errorAt .endOfExpression (s.clamp i))
  else
    let (code, buffer) := Yard.flushOps (fun _ => true) (s.line i) y.code y.buffer
    if buffer.isEmpty then
      .ok (if y.setIndex then code.push ⟨.setIndex, s.line i⟩ else code)
    else
      .error (s.errorAt .noPair (s.clamp i))

/-- Compiles the expression that starts at a position into the innermost open block, and answers
with the position behind it. -/
def expression (s : Source) (blockFollows : Bool) (start : Nat) : Compiling Nat := do
  let (y, stop) ← takeAll s blockFollows (s.lexemes.size - start) {} start
  let code ← finish s y stop
  modify fun w => w.modifyTop fun b => { b with code := b.code ++ code }
  return stop

end Covenant.Compile
