import Covenant.Lexeme.Basic

/-!
# Opcodes

The commands of the machine without their operands. Operators carry the number of their operands in
the high byte of their word; `priority` is how strongly they bind in expressions.
-/

namespace Covenant

/-- Operators with one operand. -/
inductive UnaryOp where
  | not | sign
deriving DecidableEq, Repr

/-- Operators with two operands. -/
inductive BinaryOp where
  | add | sub | mul | div | and | or | equal | notEq | less | notLess | great | notGreat
deriving DecidableEq, Repr

/-- Commands of the machine. -/
inductive Opcode where
  | push | var | extendVar | callExtend | call | callVariadic | return | if | else | while | label
  | continue | break | assign | assignVar | error | funcName | unwrapArr | mapInit | arrayInit
  | index | setIndex
  | unary (op : UnaryOp)
  | binary (op : BinaryOp)
deriving DecidableEq, Repr

namespace UnaryOp

/-- The name of an operator in listings. -/
def mnemonic : UnaryOp → String
  | not => "Not"
  | sign => "Sign"

end UnaryOp

namespace BinaryOp

/-- The name of an operator in listings. -/
def mnemonic : BinaryOp → String
  | add => "Add"
  | sub => "Sub"
  | mul => "Mul"
  | div => "Div"
  | and => "And"
  | or => "Or"
  | equal => "Equal"
  | notEq => "NotEq"
  | less => "Less"
  | notLess => "NotLess"
  | great => "Great"
  | notGreat => "NotGreat"

/-- How strongly an operator binds its operands. -/
def priority : BinaryOp → Nat
  | or => 10
  | and => 15
  | equal | notEq => 20
  | less | notLess | great | notGreat => 22
  | add | sub => 25
  | mul | div => 30

end BinaryOp

namespace Opcode

/-- All opcodes, in the order of their words. -/
def all : List Opcode :=
  [push, var, extendVar, callExtend, call, callVariadic, .return, .if, .else, .while, label,
    .continue, .break, assign, assignVar, error, funcName, unwrapArr, mapInit, arrayInit, index,
    setIndex, unary .not, unary .sign, binary .add, binary .sub, binary .mul, binary .div,
    binary .and, binary .or, binary .equal, binary .notEq, binary .less, binary .notLess,
    binary .great, binary .notGreat]

/-- The name of an opcode in listings. -/
def mnemonic : Opcode → String
  | push => "Push"
  | var => "Var"
  | extendVar => "ExtendVar"
  | callExtend => "CallExtend"
  | call => "Call"
  | callVariadic => "CallVariadic"
  | .return => "Return"
  | .if => "If"
  | .else => "Else"
  | .while => "While"
  | label => "Label"
  | .continue => "Continue"
  | .break => "Break"
  | assign => "Assign"
  | assignVar => "AssignVar"
  | error => "Error"
  | funcName => "FuncName"
  | unwrapArr => "UnwrapArr"
  | mapInit => "MapInit"
  | arrayInit => "ArrayInit"
  | index => "Index"
  | setIndex => "SetIndex"
  | unary op => op.mnemonic
  | binary op => op.mnemonic

/-- The opcode with a name. -/
def ofMnemonic? (s : String) : Option Opcode := all.find? fun o => o.mnemonic == s

/-- The number of operands an operator takes from the stack. -/
def arity : Opcode → Nat
  | unary _ => 1
  | binary _ => 2
  | _ => 0

/-- The number of an opcode. -/
def word : Opcode → Nat
  | unary op => 0x101 + op.ctorIdx
  | binary op => 0x201 + op.ctorIdx
  | o => o.ctorIdx + 1

/-- How strongly an opcode binds its operands in an expression. -/
def priority : Opcode → Nat
  | unary _ => 50
  | binary op => op.priority
  | _ => 0

end Opcode

namespace Operator

/-- The command of an operator that does not stand in front of an operand it changes the sign of. -/
def opcode : Operator → Opcode
  | not => .unary .not
  | mul => .binary .mul
  | add => .binary .add
  | sub => .binary .sub
  | div => .binary .div
  | less => .binary .less
  | great => .binary .great
  | notEq => .binary .notEq
  | and => .binary .and
  | lessEq => .binary .notGreat
  | eqEq => .binary .equal
  | grEq => .binary .notLess
  | or => .binary .or

/-- The number that stands for a minus in front of an operand. -/
def signCode : Nat := 0x12d

end Operator

/-- The command of an operator given by number. -/
def Opcode.ofCode? (n : Nat) : Option Opcode :=
  if n = Operator.signCode then some (.unary .sign)
  else (Operator.all.find? fun o => o.code == n).map Operator.opcode

end Covenant
