import Covenant.Extension
import Covenant.Library.Format

/-!
# The standard library

The extensions that every registry starts with: conversions, formats, lengths, arrays, and the two
ways to call a contract.
-/

namespace Covenant.Library

/-- An argument; arguments that are not there are `nil`. -/
def arg (args : List Value) (i : Nat) : Value := args.getD i .nil

/-- A host function that only reads. -/
def reading (f : List Value → Heap → Except Fault (List Value)) : Behaviour :=
  .host fun args host =>
    match f args host.heap with
    | .ok vs => (.values vs, host)
    | .error e => (.fault e, host)

/-- A host function that makes one new array. -/
def building (f : List Value → Heap → Array Value) : Behaviour :=
  .host fun args host =>
    let items := f args host.heap
    let (v, h) := host.heap.newArray items
    (.values [v], { host with heap := h })

/-- The length of a text in bytes, or the number of elements. -/
def length (h : Heap) : Value → Except Fault Nat
  | .str s => .ok s.utf8ByteSize
  | .bytes b => .ok b.length
  | .array r => .ok (h.items r).size
  | .map r => .ok (h.entries r).size
  | .nil => .ok 0
  | v => .error (.notIndexable v.typeName)

/-- The elements of an array argument. -/
def elements (h : Heap) : Value → Array Value
  | .array r => h.items r
  | _ => #[]

/-- Conversions of values. -/
def conversions : List Extension :=
  [ { name := "Len", params := [.any], results := [.int]
      behaviour := reading fun args h => do
        return [.int (Int64.ofNat (← length h (arg args 0)))] },
    { name := "Str", params := [.any], results := [.string]
      behaviour := reading fun args h => .ok [.str ((arg args 0).text h)] },
    { name := "Int", params := [.any], results := [.int]
      behaviour := reading fun args h => do return [.int (← (arg args 0).toInt h)] },
    { name := "Float", params := [.any], results := [.float]
      behaviour := reading fun args _ => .ok [.float (arg args 0).toFloat] },
    { name := "Money", params := [.any], results := [.money]
      behaviour := reading fun args _ => do return [.money (← (arg args 0).toMoney)] } ]

/-- Functions on texts and arrays. -/
def collections : List Extension :=
  [ { name := "Sprintf", params := [.string, .any], results := [.string], variadic := true
      behaviour := reading fun args h => do
        return [.str (← Format.apply h ((arg args 0).text h) args.tail)] },
    { name := "Append", params := [.array, .any], results := [.array]
      behaviour := building fun args h => (elements h (arg args 0)).push (arg args 1) },
    { name := "Join", params := [.array, .string], results := [.string]
      behaviour := reading fun args h =>
        let parts := (elements h (arg args 0)).toList.map (Value.text h)
        .ok [.str (((arg args 1).text h).intercalate parts)] } ]

/-- Calls of contracts. -/
def contracts : List Extension :=
  [ { name := "ExecContract", params := [.string, .string, .any], results := [.any]
      variadic := true
      behaviour := .execContract },
    { name := "CallContract", params := [.int, .string, .map], results := [.any]
      behaviour := .callContract } ]

/-- Everything a registry starts with. -/
def standard : List Extension := conversions ++ collections ++ contracts

end Covenant.Library
