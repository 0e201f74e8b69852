/-!
# Declared types

The types a variable, parameter, result or data field can be declared with. `any` has no keyword and
stands in the signatures of extensions only.
-/

namespace Covenant

/-- A declared type. -/
inductive Ty where
  | bool | bytes | int | address | array | map | money | float | string | file | any
deriving DecidableEq, Repr, Inhabited

namespace Ty

/-- The keyword of a type. -/
def name : Ty → String
  | bool => "bool"
  | bytes => "bytes"
  | int => "int"
  | address => "address"
  | array => "array"
  | map => "map"
  | money => "money"
  | float => "float"
  | string => "string"
  | file => "file"
  | any => "any"

/-- All types, in the order of their numbers. -/
def all : List Ty := [bool, bytes, int, address, array, map, money, float, string, file, any]

/-- The number of a type. -/
def id (t : Ty) : Nat := t.ctorIdx

/-- The type with a keyword. -/
def ofName? (s : String) : Option Ty := (all.filter (· != any)).find? fun t => t.name == s

end Ty

end Covenant
