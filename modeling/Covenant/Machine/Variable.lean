import Covenant.Arithmetic
import Covenant.Machine.Basic

/-!
# Variables, literals and indexing

How instructions read and write. A variable is found in the innermost activation of the block that
declares it. Assignment brings a value to the variable's type where that is `money` or, for
integers, `float`; environment variables keep the kind of value they have. Storing into an array or
map first decides where the value goes, which is the only part that can fail, and then writes.
-/

namespace Covenant

namespace Frame

/-- The value of a variable in the innermost activation of its block. -/
def slot? (v : VarRef) : List Frame → Option Value
  | [] => none
  | .block a :: fs => if a.block == v.owner then a.slots[v.index]? else slot? v fs
  | .contract _ :: fs => slot? v fs

/-- Gives a variable a value in the innermost activation of its block. -/
def setSlot (v : VarRef) (x : Value) : List Frame → List Frame
  | [] => []
  | .block a :: fs =>
    if a.block == v.owner then .block { a with slots := a.slots.setIfInBounds v.index x } :: fs
    else .block a :: setSlot v x fs
  | .contract c :: fs => .contract c :: setSlot v x fs

end Frame

/-- Brings a value to the declared type of the variable it is assigned to. -/
def Ty.convert (t : Option Ty) (x : Value) : Except Fault Value :=
  match t, x with
  | some .money, .money _ => .ok x
  | some .money, _ => x.toMoney.map .money
  | some .float, .int _ => .ok (.float x.toFloat)
  | _, _ => .ok x

/-- A place inside an array or map. -/
inductive Place where
  | item (array : Ref) (index : Nat)
  | entry (map : Ref) (key : String)
deriving DecidableEq, Repr

namespace Heap

/-- The element of an array or map at a key. -/
def index (h : Heap) (container key : Value) : Except Fault Value :=
  match container with
  | .map r =>
    match key with
    | .str k => .ok (((h.entries r).get? k).getD .nil)
    | _ => .error (.mapIndex key.typeName)
  | .array r =>
    match key with
    | .int i =>
      if i < 0 then .error .indexOutOfRange
      else
        match (h.items r)[i.toNatClampNeg]? with
        | some v => .ok v
        | none => .error .indexOutOfRange
    | _ => .error (.arrayIndex key.typeName)
  | _ => .error (.notIndexable container.typeName)

/-- Where a value goes that is stored into a container at a key. A container cannot be stored into
itself, directly or inside another value. -/
def place (limits : Limits) (h : Heap) (container key value : Value) : Except Fault Place :=
  if value.holds h container then .error .selfAssignment
  else
    match container with
    | .map r =>
      match key with
      | .str k =>
        if !(h.entries r).contains k && limits.maxMapCount ≤ (h.entries r).size then
          .error .maxMapCount
        else
          .ok (.entry r k)
      | _ => .error (.mapIndex key.typeName)
    | .array r =>
      match key with
      | .int i =>
        if i < 0 then .error .indexOutOfRange
        else if limits.maxArrayIndex ≤ i.toNatClampNeg then .error .maxArrayIndex
        else .ok (.item r i.toNatClampNeg)
      | _ => .error (.arrayIndex key.typeName)
    | _ => .error (.notIndexable container.typeName)

/-- The value at a place. -/
def at? (h : Heap) : Place → Option Value
  | .entry r k => (h.entries r).get? k
  | .item r i => (h.items r)[i]?

/-- Whether the value at a place of a container holds the container. -/
def replacesHolder (h : Heap) (p : Place) (container : Value) : Bool :=
  (h.at? p).any fun old => old.holds h container

/-- By how much storing a value at a place changes the size of the container. -/
def growth (h : Heap) (p : Place) (value : Value) : Int :=
  match p with
  | .entry r k =>
    match (h.entries r).get? k with
    | some old => value.memSize h - old.memSize h
    | none => 4 + k.utf8ByteSize + value.memSize h
  | .item r i =>
    match (h.items r)[i]? with
    | some old => value.memSize h - old.memSize h
    | none => 4 * (i + 1 - (h.items r).size : Nat) + value.memSize h

/-- Stores a value at a place. An array that is too short is filled up with `nil`. -/
def store (h : Heap) (p : Place) (value : Value) : Heap :=
  match p with
  | .entry r k => h.modifyMap r fun d => d.insert k value
  | .item r i =>
    h.modifyArray r fun items =>
      if i < items.size then items.setIfInBounds i value
      else (items ++ Array.replicate (i - items.size) Value.nil).push value

end Heap

namespace Exec

/-- The value of a variable. -/
@[inline]
def readVar (v : VarRef) : Exec Value := do
  match Frame.slot? v (← get).frames with
  | some x => return x
  | none => fail (.unknownVariable ("#" ++ Number.natText v.index))

/-- The value of an environment variable. -/
def readExtend (name : String) : Exec Value := do
  match (← get).env.get? name with
  | some x => return x
  | none => fail (.unknownExtend name)

/-- Assigns to a variable. -/
def assignVar (c : Context) (v : VarRef) (x : Value) : Exec Unit := do
  let old ← readVar v
  let x ← ofExcept (Ty.convert ((c.block v.owner).vars[v.index]?) x)
  modify fun m =>
    { m with
      mem := m.mem + (x.memSize m.heap - old.memSize m.heap)
      frames := Frame.setSlot v x m.frames }

/-- Assigns to an environment variable, which keeps its kind of value. -/
def assignExtend (name : String) (x : Value) : Exec Unit := do
  match (← get).env.get? name with
  | some old =>
    if !old.isNil && !old.sameType x then fail (.extendType name old.typeName x.typeName)
  | none => pure ()
  modify fun m => { m with env := m.env.insert name x }

/-- Assigns to a target. -/
def assign (c : Context) : Target → Value → Exec Unit
  | .var v, x => assignVar c v x
  | .extend name, x => assignExtend name x

/-- Assigns to targets in order. -/
def assignAll (c : Context) : List Target → List Value → Exec Unit
  | t :: ts, x :: xs => do
    assign c t x
    assignAll c ts xs
  | _, _ => pure ()

/-- Stores a value into an array or map. The memory meter follows the size of the container. The
value that is replaced is measured while the container is being written, so the run breaks off if it
holds the container. -/
def storeIndex (c : Context) (container key value : Value) : Exec Unit := do
  let p ← ofExcept ((← get).heap.place c.limits container key value)
  let growth := (← get).heap.growth p value
  let holder := (← get).heap.replacesHolder p container
  modify fun m => { m with heap := m.heap.store p value }
  if holder then throw .crash
  modify fun m => { m with mem := max (m.mem + growth) 0 }

mutual

/-- The value of an element of a literal. Every evaluation makes new arrays and maps. -/
def item : Item → Exec Value
  | .const k => pure k.toValue
  | .var v => readVar v
  | .extend name => readExtend name
  | .map entries => do newMap (← bindings entries)
  | .array is => do newArray (← items is)

/-- The values of the elements of an array literal. -/
def items : List Item → Exec (List Value)
  | [] => pure []
  | i :: is => do
    let v ← item i
    let vs ← items is
    return v :: vs

/-- The bindings of a map literal. -/
def bindings : List (String × Item) → Exec (List (String × Value))
  | [] => pure []
  | (k, i) :: is => do
    let v ← item i
    let vs ← bindings is
    return (k, v) :: vs

end

end Exec

end Covenant
