import Covenant.Error
import Covenant.Heap

/-!
# Extensions

Functions that the host binds into the language. An extension has a signature and a behaviour:
either a host function, which sees the arguments, the environment, the heap and the remaining cost
and answers with values, a failure or a crash; or one of the two ways to call a contract, which the
machine carries out itself.
-/

namespace Covenant

/-- The part of a run that host functions see and may change. -/
structure Host where
  heap : Heap
  env : Dict Value
  cost : Int

/-- How a host function answers. -/
inductive Reply where
  | values (vs : List Value)
  | fault (f : Fault)
  | crash

/-- What a call of an extension does. -/
inductive Behaviour where
  /-- A function of the host. -/
  | host (run : List Value → Host → Reply × Host)
  /-- A contract by qualified name, with a list of field names and their values. -/
  | execContract
  /-- A contract by ecosystem and name, with a map of fields. -/
  | callContract

/-- A host function with its signature. -/
structure Extension where
  name : String
  /-- Types of the arguments taken from the call. -/
  params : List Ty
  results : List Ty
  behaviour : Behaviour
  /-- Environment keys whose values are passed ahead of the arguments. -/
  auto : List String := []
  variadic : Bool := false
  canWrite : Bool := false
  /-- The first result is a cost to charge rather than a value. -/
  queriesDb : Bool := false

namespace Extension

/-- How many arguments are checked against the signature. -/
def fixed (e : Extension) : Nat := if e.variadic then e.params.length - 1 else e.params.length

/-- Whether a call with this many arguments fits the signature. -/
def takes (e : Extension) (count : Nat) : Bool :=
  if e.variadic then e.params.length ≤ count + 1 else count == e.params.length

end Extension

end Covenant
