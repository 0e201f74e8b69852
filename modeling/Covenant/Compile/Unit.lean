import Covenant.Compile.Declaration
import Covenant.Compile.Expression
import Covenant.Lexeme.Reading

/-!
# Units

A unit is a source text compiled as a whole. Its lexemes are led through the grammar table: every
entry may remember or return to a lexeme, open or close a block, ask for an expression, and carry
out an action. A unit is complete when all its blocks are closed and no `conditions` of its
contracts can change the database.

Only a statement that starts with a name is read twice, and no entry reads a lexeme more than twice
without moving on, so four steps per lexeme are enough.
-/

namespace Covenant.Compile

/-- Where the reader of a unit stands. -/
structure Cursor where
  state : Grammar.State := .root
  /-- The lexeme to return to. -/
  fork : Nat := 0
  position : Nat := 0

/-- Whether the code ends in a loop over a block and the instruction that repeats the loop. -/
def dangling (code : Array Instr) (body : BlockId) : Bool :=
  match (code.back?).map Instr.op, (code.pop.back?).map Instr.op with
  | some .continue, some (.while id) => id == body
  | _, _ => false

/-- Closes the innermost block. The instruction that repeats a loop moves to the end of its body. -/
def closeBlock (s : Source) (i : Nat) : Compiling Unit := do
  let w ← get
  match w.inner with
  | [] => throw (s.unexpected .leftCurly i)
  | child :: rest =>
    let w := { w with inner := rest }
    let code := (w.block w.top).code
    match code.back? with
    | some repeats =>
      if dangling code child then
        let w := w.modifyTop fun b => { b with code := b.code.pop }
        set (w.modifyBlock child (·.emit repeats))
      else
        set w
    | none => set w

/-- Compiles the expression an entry asks for, and answers with the position behind it. -/
def entryExpression (s : Source) (f : Grammar.Flags) (i : Nat) : Compiling Nat := do
  if f.label then emit .label (s.line i)
  let before := ((← get).block (← get).top).code.size
  let stop ← expression s f.toBlock (if f.toFork then i else i + 1)
  if f.mustEval && ((← get).block (← get).top).code.size == before then
    failAt s .missingExpression i
  return stop

/-- The state behind an entry. -/
def stateBehind (f : Grammar.Flags) (next : Grammar.State) (atRoot : Bool) : Grammar.State :=
  if f.toBody then .body
  else if f.toBlock then .block
  else if f.pop then (if atRoot then .root else .body)
  else next

/-- Carries out the table's entry for the lexeme under the cursor. -/
def advance (s : Source) (k : Kind) (c : Cursor) : Compiling Cursor := do
  match Grammar.entry c.state k with
  | .fail expected => throw (s.unexpected expected c.position)
  | .go next f action =>
    let fork := if f.fork then c.position else c.fork
    let here := if f.toFork then fork else c.position
    if f.stay then return { state := next, fork := fork, position := here }
    let (behind, next) ←
      if next == .eval then pure (← entryExpression s f here, c.state)
      else pure (here + 1, next)
    if f.push then modify Work.openBlock
    if f.pop then closeBlock s here
    let state := stateBehind f next (← get).inner.isEmpty
    act s action here
    return { state := state, fork := fork, position := behind }

/-- Leads the cursor through the lexemes. -/
def readAll (s : Source) : Nat → Cursor → Compiling Unit
  | 0, c =>
    match s.kind? c.position with
    | none => pure ()
    | some _ => throw (.of .outOfSteps)
  | fuel + 1, c =>
    match s.kind? c.position with
    | none => pure ()
    | some k => do readAll s fuel (← advance s k c)

/-- Whether the `conditions` of a contract may change the database. -/
def conditionsWrite (a : Arena) (contract : BlockId) : Bool :=
  let b := a.block contract
  b.contract?.isSome &&
    (((b.objects.get? "conditions").bind Binding.block?).any fun id => (a.block id).canWrite)

/-- Compiles the lexemes of a unit into the work's root block. -/
def unit (s : Source) : Compiling Unit := do
  readAll s (4 * (s.lexemes.size + 1)) {}
  let w ← get
  if !w.inner.isEmpty then throw (s.unexpected .rightCurly (s.lexemes.size - 1))
  if (w.block w.root).children.any (conditionsWrite w.arena) then throw (.of .conditionsWrite)

end Compile

/-- What a unit is compiled against. -/
structure Scope where
  /-- Global contracts, functions and extensions. -/
  globals : Dict Binding
  /-- The ecosystem the unit belongs to. -/
  state : UInt32
  /-- Whether a call of an unknown name is taken for a contract to be found when the call runs. -/
  lateCalls : Bool

/-- What a text is compiled from in a scope. -/
def Scope.source (scope : Scope) (lexemes : Array Lexeme) : Compile.Source :=
  { lexemes, globals := scope.globals, state := scope.state, lateCalls := scope.lateCalls }

/-- What a change of something leads to if it succeeds. -/
def succeeded {α σ : Type} : Except Error α × σ → Except Error (α × σ)
  | (.ok a, s) => .ok (a, s)
  | (.error e, _) => .error e

namespace Arena

/-- Compiles a source text into a new unit at the end of the arena; the answer is the number of the
unit's root block. The blocks of a unit that does not compile are dropped again. -/
def compileUnit (a : Arena) (scope : Scope) (text : String) : Except Error BlockId × Arena :=
  match Lexeme.read text with
  | .error e => (.error (e.withSource text), a)
  | .ok lexemes =>
    match Compile.unit (scope.source lexemes)
      { arena := a.push { parent := none }, root := a.size } with
    | .ok () w => (.ok a.size, w.arena)
    | .error e w => (.error (e.withSource text), w.arena.take a.size)

/-- The root block of a unit that compiles, and the larger arena. -/
def compile (a : Arena) (scope : Scope) (text : String) : Except Error (BlockId × Arena) :=
  succeeded (a.compileUnit scope text)

end Arena

end Covenant
