import Covenant.Error
import Covenant.Heap
import Covenant.Opcode

/-!
# Operators on values

Numbers of different kinds meet in the wider one: money before doubles before integers. A string
that meets a number is read as a number of that kind; two strings can only be joined and compared.
Integers wrap around at 64 bits. Whatever has no common kind can still be compared for equality.
-/

namespace Covenant

namespace Value

/-- The integer a value counts as. Strings must be whole numbers; the empty one is zero. -/
def toInt (h : Heap) : Value → Except Fault Int64
  | int n => .ok n
  | float x => .ok (Number.Binary64.toInt64 x)
  | money m =>
    match m.toInt64? with
    | some n => .ok n
    | none => .error (.invalidInt m.text)
  | bool b => .ok (if b then 1 else 0)
  | str s =>
    if s = "" then .ok 0
    else
      match Number.readInt64? s with
      | some n => .ok n
      | none => .error (.invalidInt s)
  | v => .error (.invalidInt (v.text h))

/-- The amount a value counts as. The empty string is zero. -/
def toMoney : Value → Except Fault Money
  | money m => .ok m
  | int n => .ok (.ofInt64 n)
  | float x =>
    match Money.ofFloat? x with
    | some m => .ok m
    | none => .error .unsupportedType
  | str s =>
    if s = "" then .ok .zero
    else
      match Money.ofString? s with
      | some m => .ok m
      | none => .error (.extension (s ++ " is not a valid decimal"))
  | _ => .error .unsupportedType

end Value

namespace Arithmetic

/-- The kind two operands are brought to. -/
inductive Common where
  | int | float | money | string
deriving DecidableEq, Repr

/-- How wide a kind of operand is, if it takes part in arithmetic at all. -/
def width? : Value → Option Nat
  | .str _ => some 0
  | .int _ => some 1
  | .float _ => some 2
  | .money _ => some 3
  | _ => none

/-- The common kind of two operands. -/
def common? (a b : Value) : Option Common :=
  match width? a, width? b with
  | some m, some n =>
    match max m n with
    | 0 => some .string
    | 1 => some .int
    | 2 => some .float
    | _ => some .money
  | _, _ => none

/-- Whether a comparison holds of two operands in an order; there is no answer for other
operators. -/
def holds? : BinaryOp → Ordering → Option Bool
  | .equal, o => some (o == .eq)
  | .notEq, o => some (o != .eq)
  | .less, o => some (o == .lt)
  | .notLess, o => some (o != .lt)
  | .great, o => some (o == .gt)
  | .notGreat, o => some (o != .gt)
  | _, _ => none

/-- The answer of a comparison. -/
def compareWith (op : BinaryOp) (o : Ordering) : Except Fault Value :=
  match holds? op o with
  | some b => .ok (.bool b)
  | none => .error .unsupportedType

/-- Two strings. -/
def strings (op : BinaryOp) (x y : String) : Except Fault Value :=
  match op with
  | .add => .ok (.str (x ++ y))
  | _ => compareWith op (compare x y)

/-- Two integers, modulo 2 ^ 64. -/
def ints (op : BinaryOp) (x y : Int64) : Except Fault Value :=
  match op with
  | .add => .ok (.int (x + y))
  | .sub => .ok (.int (x - y))
  | .mul => .ok (.int (x * y))
  | .div => if y = 0 then .error .divisionByZero else .ok (.int (x / y))
  | _ => compareWith op (compare x.toInt y.toInt)

/-- The order of two doubles, unless one is not a number. -/
def floatOrder? (x y : Float) : Option Ordering :=
  if x < y then some .lt else if x == y then some .eq else if y < x then some .gt else none

/-- Two doubles. Doubles without an order are different and nothing else. -/
def floats (op : BinaryOp) (x y : Float) : Except Fault Value :=
  match op with
  | .add => .ok (.float (x + y))
  | .sub => .ok (.float (x - y))
  | .mul => .ok (.float (x * y))
  | .div => if y == 0 then .error .divisionByZero else .ok (.float (x / y))
  | _ =>
    match floatOrder? x y with
    | some o => compareWith op o
    | none => .ok (.bool (op == .notEq))

/-- The amount of an operation, if it fits. -/
def amount (m : Option Money) : Except Fault Value :=
  match m with
  | some m => .ok (.money m)
  | none => .error (.extension "decimal overflow")

/-- Two amounts. -/
def moneys (op : BinaryOp) (x y : Money) : Except Fault Value :=
  match op with
  | .add => amount (x.add y)
  | .sub => amount (x.sub y)
  | .mul => amount (x.mul y)
  | .div => if y.isZero then .error .divisionByZero else amount (x.div y)
  | _ => compareWith op (x.compare y)

/-- Values that have no common kind. -/
def others (h : Heap) (op : BinaryOp) (a b : Value) : Except Fault Value :=
  match op with
  | .equal => .ok (.bool (a.eq h b))
  | .notEq => .ok (.bool (!a.eq h b))
  | _ => .error .unsupportedType

/-- An operator with two operands. -/
def binary (h : Heap) (op : BinaryOp) (a b : Value) : Except Fault Value :=
  match op with
  | .and => .ok (.bool (a.truthy h && b.truthy h))
  | .or => .ok (.bool (a.truthy h || b.truthy h))
  | _ =>
    match common? a b with
    | none => others h op a b
    | some .string => strings op (a.text h) (b.text h)
    | some .int => do ints op (← a.toInt h) (← b.toInt h)
    | some .float => floats op a.toFloat b.toFloat
    | some .money => do moneys op (← a.toMoney) (← b.toMoney)

/-- An operator with one operand. -/
def unary (h : Heap) (op : UnaryOp) (v : Value) : Except Fault Value :=
  match op, v with
  | .not, v => .ok (.bool (!v.truthy h))
  | .sign, .int n => .ok (.int (-n))
  | .sign, .float x => .ok (.float (-x))
  | .sign, .money m => .ok (.money m.neg)
  | .sign, .str s => do return .int (-(← (Value.str s).toInt h))
  | .sign, _ => .error .unsupportedType

/-- The answer of an opcode that is no operator to two operands. They are converted all the same,
and two doubles without an order answer with false. -/
def refuse (h : Heap) (a b : Value) : Except Fault Value :=
  match common? a b with
  | some .int => do
    let _ ← a.toInt h
    let _ ← b.toInt h
    .error .unsupportedType
  | some .money => do
    let _ ← a.toMoney
    let _ ← b.toMoney
    .error .unsupportedType
  | some .float =>
    match floatOrder? a.toFloat b.toFloat with
    | some _ => .error .unsupportedType
    | none => .ok (.bool false)
  | _ => .error .unsupportedType

/-- Any opcode applied to two operands. -/
def apply₂ (h : Heap) (op : Opcode) (a b : Value) : Except Fault Value :=
  match op with
  | .binary op => binary h op a b
  | _ => refuse h a b

/-- Any opcode applied to one operand. -/
def apply₁ (h : Heap) (op : Opcode) (v : Value) : Except Fault Value :=
  match op with
  | .unary op => unary h op v
  | _ => .error .unsupportedType

end Arithmetic

end Covenant
