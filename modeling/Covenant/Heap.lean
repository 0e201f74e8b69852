import Covenant.Value
import Covenant.Number.Shortest
import Covenant.Text.Blank
import Covenant.Text.Quoted

/-!
# The heap

Arrays and maps live in a heap of cells and are shared by reference. The functions of this module
read a value through the heap: whether it counts as true, its size for the memory meter, its text,
and whether two values are equal. In a value that does not contain itself, following references ends
after at most as many steps as there are cells; that number is the recursion's fuel.
-/

namespace Covenant

/-- The content of an array or map. -/
inductive Cell where
  | array (items : Array Value)
  | map (entries : Dict Value)
deriving Inhabited

/-- The cells allocated so far; references are positions. -/
structure Heap where
  cells : Array Cell
deriving Inhabited

namespace Heap

/-- The heap without cells. -/
def empty : Heap := ⟨#[]⟩

/-- The elements of an array. -/
def items (h : Heap) (r : Ref) : Array Value :=
  match h.cells[r]? with
  | some (.array items) => items
  | _ => #[]

/-- The bindings of a map. -/
def entries (h : Heap) (r : Ref) : Dict Value :=
  match h.cells[r]? with
  | some (.map entries) => entries
  | _ => .empty

/-- A new array. -/
def newArray (h : Heap) (items : Array Value) : Value × Heap :=
  (.array h.cells.size, ⟨h.cells.push (.array items)⟩)

/-- A new map. -/
def newMap (h : Heap) (entries : Dict Value) : Value × Heap :=
  (.map h.cells.size, ⟨h.cells.push (.map entries)⟩)

/-- Replaces the elements of an array by a function of them. -/
def modifyArray (h : Heap) (r : Ref) (f : Array Value → Array Value) : Heap :=
  ⟨h.cells.modify r fun
    | .array items => .array (f items)
    | c => c⟩

/-- Replaces the bindings of a map by a function of them. -/
def modifyMap (h : Heap) (r : Ref) (f : Dict Value → Dict Value) : Heap :=
  ⟨h.cells.modify r fun
    | .map entries => .map (f entries)
    | c => c⟩

/-- The values directly inside a cell. -/
def inside (h : Heap) : Value → List Value
  | .array r => (h.items r).toList
  | .map r => (h.entries r).values
  | _ => []

/-- The value of a freshly declared variable; arrays and maps are new. -/
def default (h : Heap) : Ty → Value × Heap
  | .bool => (.bool false, h)
  | .bytes => (.bytes [], h)
  | .int => (.int 0, h)
  | .address => (.int 0, h)
  | .array => h.newArray #[]
  | .map => h.newMap .empty
  | .file => h.newMap .empty
  | .money => (.money .zero, h)
  | .float => (.float 0, h)
  | .string => (.str "", h)
  | .any => (.nil, h)

/-- The values of freshly declared variables, in order. -/
def defaults (h : Heap) (tys : List Ty) : List Value × Heap :=
  match tys with
  | [] => ([], h)
  | t :: ts =>
    let (v, h) := h.default t
    let (vs, h) := h.defaults ts
    (v :: vs, h)

/-- How far references can be followed. -/
def fuel (h : Heap) : Nat := h.cells.size + 1

end Heap

namespace Value

/-- Whether a value counts as true in a condition. -/
def truthy (h : Heap) : Value → Bool
  | nil => false
  | bool b => b
  | int n => n != 0
  | float x => x != 0
  | money m => !m.isZero
  | str s => s != ""
  | bytes b => !b.isEmpty
  | map r => !(h.entries r).isEmpty
  | array r => !(h.items r).isEmpty

/-- Size in bytes, following at most `fuel` references in a row. -/
def sizeWith (h : Heap) : Nat → Value → Int
  | _, nil => 0
  | _, bool _ => 1
  | _, int _ => 8
  | _, float _ => 8
  | _, money _ => 16
  | _, str s => s.utf8ByteSize
  | _, bytes b => 12 + b.length
  | 0, _ => 12
  | fuel + 1, array r => (h.items r).foldl (fun n v => n + (4 + sizeWith h fuel v)) 12
  | fuel + 1, map r =>
    (h.entries r).entries.foldl
      (fun n p => n + (4 + p.1.utf8ByteSize + sizeWith h fuel p.2)) 12

/-- Size in bytes, as the memory meter counts it. -/
def memSize (h : Heap) (v : Value) : Int := v.sizeWith h h.fuel

/-- Whether a reference is met by following at most `fuel` references. -/
def reachesWith (h : Heap) (target : Ref) : Nat → Value → Bool
  | 0, v => v.ref? == some target
  | fuel + 1, v =>
    v.ref? == some target ||
      match v with
      | array r => (h.items r).any (reachesWith h target fuel)
      | map r => (h.entries r).entries.any fun p => reachesWith h target fuel p.2
      | _ => false

/-- Whether the container `needle` is this value or nested anywhere inside it. -/
def holds (h : Heap) (v needle : Value) : Bool :=
  match needle.ref? with
  | some r => v.reachesWith h r h.fuel
  | none => false

/-- Text of a value, following at most `fuel` references in a row. -/
def textWith (h : Heap) : Nat → Value → String
  | _, nil => "<nil>"
  | _, bool b => if b then "true" else "false"
  | _, int n => Number.intText n.toInt
  | _, float x => Number.Shortest.text x
  | _, money m => m.text
  | _, str s => s
  | _, bytes b => "[" ++ " ".intercalate (b.map fun x => Number.natText x.toNat) ++ "]"
  | 0, array _ => "[]"
  | 0, map _ => "map[]"
  | fuel + 1, array r => "[" ++ " ".intercalate ((h.items r).toList.map (textWith h fuel)) ++ "]"
  | fuel + 1, map r =>
    "map[" ++ " ".intercalate ((h.entries r).toList.map fun p => p.1 ++ ":" ++ textWith h fuel p.2)
      ++ "]"

/-- The text of a value. -/
def text (h : Heap) (v : Value) : String := v.textWith h h.fuel

/-- The text of a value in listings: strings are quoted at the top. -/
def literal (h : Heap) : Value → String
  | str s => Text.literal s
  | v => v.text h

/-- Equality, following at most `fuel` references in a row. Maps are equal when they bind the same
names to equal values, in any order. -/
def eqWith (h : Heap) : Nat → Value → Value → Bool
  | _, nil, nil => true
  | _, bool a, bool b => a == b
  | _, int a, int b => a == b
  | _, float a, float b => a == b
  | _, money a, money b => a.compare b == .eq
  | _, str a, str b => a == b
  | _, bytes a, bytes b => a == b
  | 0, map a, map b => a == b
  | 0, array a, array b => a == b
  | fuel + 1, map a, map b =>
    a == b ||
      ((h.entries a).size == (h.entries b).size &&
        (h.entries a).entries.all fun p =>
          match (h.entries b).get? p.1 with
          | some v => eqWith h fuel p.2 v
          | none => false)
  | fuel + 1, array a, array b =>
    a == b ||
      ((h.items a).size == (h.items b).size &&
        ((h.items a).toList.zip (h.items b).toList).all fun p => eqWith h fuel p.1 p.2)
  | _, _, _ => false

/-- Whether two values are equal. -/
def eq (h : Heap) (a b : Value) : Bool := a.eqWith h h.fuel b

end Value

end Covenant
