import Covenant.Library.Standard

/-!
# Sample extensions

A small host to try programs against: extensions with every kind of signature and flag.
-/

namespace Covenant.Library

/-- A host function that answers with its arguments as an array. -/
def listing : Behaviour := building fun args _ => args.toArray

/-- A host function that answers with its arguments. -/
def echo : Behaviour := reading fun args _ => .ok args

/-- A host function without results. -/
def silent : Behaviour := reading fun _ _ => .ok []

/-- Arithmetic on integers. -/
def sampleNumbers : List Extension :=
  [ { name := "Double", params := [.int], results := [.int]
      behaviour := reading fun args h => do return [.int ((← (arg args 0).toInt h) * 2)] },
    { name := "KeyPlus", params := [.int], results := [.int], auto := ["key_id"]
      behaviour := reading fun args h => do
        let key ← (arg args 0).toInt h
        let n ← (arg args 1).toInt h
        return [.int (key + n)] } ]

/-- Extensions that show their arguments. -/
def sampleArguments : List Extension :=
  [ { name := "Auto", params := [.any], results := [.array], auto := ["key_id", "x"]
      behaviour := listing },
    { name := "Args", params := [.any], results := [.array], variadic := true
      behaviour := listing },
    { name := "IntArgs", params := [.int, .string, .any], results := [.array], variadic := true
      behaviour := listing },
    { name := "Typed"
      params := [.bool, .bytes, .address, .array, .map, .money, .float, .file], results := [.array]
      behaviour := listing },
    { name := "Pair", params := [.any, .any], results := [.any, .any], behaviour := echo },
    { name := "TypeOf", params := [.any], results := [.string]
      behaviour := reading fun args _ => .ok [.str (arg args 0).typeName] },
    { name := "ToBytes", params := [.string], results := [.bytes]
      behaviour := reading fun args h =>
        .ok [.bytes ((arg args 0).text h).toUTF8.toList] } ]

/-- Extensions that end in other ways than by one result. -/
def sampleEndings : List Extension :=
  [ { name := "Void", params := [], results := [], behaviour := silent },
    { name := "Fail", params := [.string], results := []
      behaviour := reading fun args h => .error (.extension ((arg args 0).text h)) },
    { name := "Crash", params := [], results := []
      behaviour := .host fun _ host => (.crash, host) } ]

/-- Extensions that write, query, or see the run. -/
def sampleEffects : List Extension :=
  [ { name := "DBInsert", params := [], results := [], canWrite := true, behaviour := silent },
    { name := "DBWrite", params := [.any], results := [.any], canWrite := true, behaviour := echo },
    { name := "Query", params := [.any, .any], results := [.any], queriesDb := true
      behaviour := echo },
    { name := "QueryNone", params := [], results := [], queriesDb := true, behaviour := silent },
    { name := "CostLeft", params := [], results := [.int]
      behaviour := .host fun _ host => (.values [.int (Int64.ofInt host.cost)], host) },
    { name := "SetEnv", params := [.string, .any], results := []
      behaviour := .host fun args host =>
        (.values [],
          { host with env := host.env.insert ((arg args 0).text host.heap) (arg args 1) }) } ]

/-- All sample extensions. -/
def sample : List Extension := sampleNumbers ++ sampleArguments ++ sampleEndings ++ sampleEffects

/-- A sample extension by name. -/
def sample? (name : String) : Option Extension := sample.find? (·.name == name)

end Covenant.Library
