import Covenant.Extension
import Covenant.Opcode

/-!
# Code

Instructions with their operands. Control-flow instructions hold the number of the block they run,
variables are addressed by the block that declares them and their slot in it, and array and map
literals are trees of items that are evaluated each time the literal runs.
-/

namespace Covenant

/-- The number of a block in the arena. -/
abbrev BlockId := Nat

/-- A variable: the block that declares it and its slot there. -/
structure VarRef where
  owner : BlockId
  index : Nat
deriving DecidableEq, Repr, Inhabited

/-- What an assignment writes to. -/
inductive Target where
  | var (v : VarRef)
  | extend (name : String)
deriving DecidableEq, Repr, Inhabited

/-- An element of an array or map literal. -/
inductive Item where
  | const (c : Constant)
  | var (v : VarRef)
  | extend (name : String)
  | map (entries : List (String × Item))
  | array (items : List Item)
deriving Inhabited

/-- The three statements that end a run with a message. -/
inductive Level where
  | error | warning | info
deriving DecidableEq, Repr, Inhabited

/-- The name of a message's level. -/
def Level.name : Level → String
  | error => "error"
  | warning => "warning"
  | info => "info"

/-- What a call instruction calls. -/
inductive Callee where
  | func (id : BlockId)
  | ext (e : Extension)

/-- A command with its operand. -/
inductive Op where
  | push (c : Constant)
  | var (v : VarRef)
  | extendVar (name : String)
  /-- Calls the extension that has the name when the call runs; its argument count is on the
  stack. -/
  | callExtend (name : String)
  | call (f : Callee)
  /-- Calls with the argument count on the stack. -/
  | callVariadic (f : Callee)
  | return
  | if (body : BlockId)
  | else (body : BlockId)
  | while (body : BlockId)
  | label
  | continue
  | break
  /-- Stores the top values into the targets set before. -/
  | assign
  | assignVar (targets : List Target)
  | error (level : Level)
  /-- Collects the arguments of a chained segment. -/
  | funcName (segment : String) (count : Nat)
  /-- Asks the next call that counts its arguments to spread the last one. -/
  | unwrapArr
  | mapInit (entries : List (String × Item))
  | arrayInit (items : List Item)
  | index
  | setIndex
  | unary (op : UnaryOp)
  | binary (op : BinaryOp)
deriving Inhabited

/-- A command and the source line it comes from. -/
structure Instr where
  op : Op
  line : Nat
deriving Inhabited

namespace Op

/-- The opcode of a command. -/
def opcode : Op → Opcode
  | push _ => .push
  | var _ => .var
  | extendVar _ => .extendVar
  | callExtend _ => .callExtend
  | call _ => .call
  | callVariadic _ => .callVariadic
  | .return => .return
  | .if _ => .if
  | .else _ => .else
  | .while _ => .while
  | label => .label
  | .continue => .continue
  | .break => .break
  | assign => .assign
  | assignVar _ => .assignVar
  | error _ => .error
  | funcName _ _ => .funcName
  | unwrapArr => .unwrapArr
  | mapInit _ => .mapInit
  | arrayInit _ => .arrayInit
  | index => .index
  | setIndex => .setIndex
  | unary op => .unary op
  | binary op => .binary op

/-- The command of an operator. -/
def ofOpcode? : Opcode → Option Op
  | .unary op => some (unary op)
  | .binary op => some (binary op)
  | _ => none

/-- A block operand in listings. -/
def blockText (id : BlockId) : String := " block:" ++ Number.natText id

/-- A callee in listings. -/
def calleeText : Callee → String
  | .func id => blockText id
  | .ext e => " " ++ e.name

/-- The operand of a command in listings. -/
def operandText : Op → String
  | push c => " " ++ c.toValue.literal .empty
  | var v => " var:" ++ Number.natText v.index ++ "@" ++ Number.natText v.owner
  | extendVar name => " $" ++ name
  | callExtend name => " $" ++ name
  | call f => calleeText f
  | callVariadic f => calleeText f
  | .if body => blockText body
  | .else body => blockText body
  | .while body => blockText body
  | assignVar targets => " targets:" ++ Number.natText targets.length
  | error level => " " ++ level.name
  | funcName segment count => " " ++ segment ++ "(" ++ Number.natText count ++ ")"
  | mapInit entries => " map:" ++ Number.natText entries.length
  | arrayInit items => " array:" ++ Number.natText items.length
  | _ => ""

end Op

/-- A text filled up on the left to a width. -/
def padLeft (width : Nat) (fill : Char) (s : String) : String :=
  String.ofList (List.replicate (width - s.length) fill) ++ s

/-- An instruction in listings. -/
def Instr.text (i : Instr) : String :=
  padLeft 4 ' ' (Number.natText i.line) ++ " " ++ i.op.opcode.mnemonic ++ i.op.operandText

/-- A listing: one instruction per line behind its offset. -/
def listing (name : String) (code : Array Instr) : String :=
  (code.foldl
    (fun (acc : String × Nat) i =>
      (acc.1 ++ padLeft 4 '0' (Number.natText acc.2) ++ " " ++ i.text ++ "\n", acc.2 + 1))
    ("== " ++ name ++ " ==\n", 0)).1

end Covenant
