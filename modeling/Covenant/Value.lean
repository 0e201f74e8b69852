import Covenant.Ty
import Covenant.Dict
import Covenant.Money.Float
import Covenant.Money.Reading

/-!
# Values

A value is a scalar or a reference to an array or map. References point into a `Heap`, so that two
variables can hold the same array and see each other's changes. Constants are the values that
compiled code can carry; they hold no references.
-/

namespace Covenant

/-- A place in the heap. -/
abbrev Ref := Nat

/-- What variables, the environment and the operand stack hold. -/
inductive Value where
  | nil
  | bool (b : Bool)
  | int (n : Int64)
  | float (x : Float)
  | money (m : Money)
  | str (s : String)
  | bytes (b : List UInt8)
  | map (r : Ref)
  | array (r : Ref)
deriving Inhabited

/-- The literal values of source text. -/
inductive Constant where
  | nil
  | bool (b : Bool)
  | int (n : Int64)
  | float (x : Float)
  | str (s : String)
deriving Inhabited

/-- The value of a constant. -/
def Constant.toValue : Constant → Value
  | nil => .nil
  | bool b => .bool b
  | int n => .int n
  | float x => .float x
  | str s => .str s

namespace Value

/-- The name of a value's kind. -/
def typeName : Value → String
  | nil => "nil"
  | bool _ => "bool"
  | int _ => "int"
  | float _ => "float"
  | money _ => "money"
  | str _ => "string"
  | bytes _ => "bytes"
  | map _ => "map"
  | array _ => "array"

/-- Whether two values are of one kind. -/
def sameType (a b : Value) : Bool := a.ctorIdx == b.ctorIdx

/-- Whether the value is `nil`. -/
def isNil : Value → Bool
  | nil => true
  | _ => false

/-- The reference of an array or map. -/
def ref? : Value → Option Ref
  | map r => some r
  | array r => some r
  | _ => none

/-- The double a value counts as; text that is no number counts as zero. -/
def toFloat : Value → Float
  | int n => Number.Binary64.ofInt n.toInt
  | float x => x
  | money m => m.toFloat
  | str s => (Number.readFloat? s).getD 0
  | bool b => if b then 1 else 0
  | _ => 0

end Value

/-- Whether a value may be bound to a parameter of a type. -/
def Ty.accepts : Ty → Value → Bool
  | .any, _ => true
  | .bool, .bool _ => true
  | .bytes, .bytes _ => true
  | .int, .int _ => true
  | .address, .int _ => true
  | .money, .money _ => true
  | .float, .float _ => true
  | .string, .str _ => true
  | .array, .array _ => true
  | .array, .nil => true
  | .map, .map _ => true
  | .map, .nil => true
  | .file, .map _ => true
  | .file, .nil => true
  | _, _ => false

end Covenant
