import Covenant.Limits
import Covenant.Toml.Document

/-!
# Limits from settings

Limits are read from a TOML document. Keys without a value in the document keep their defaults, keys
that name no limit are ignored, and a limit can be set only once. Costs and memory may be negative;
counts may not.
-/

namespace Covenant.Limits

/-- Sets a limit by its key; keys that name no limit change nothing. -/
def set? (l : Limits) (key : List Char) (n : Int) : Option Limits :=
  let count (f : Nat → Limits) : Option Limits := if n < 0 then none else some (f n.toNat)
  match String.ofList key with
  | "max_cost" => some { l with maxCost := n }
  | "max_mem" => some { l with maxMem := n }
  | "max_call_depth" => count fun n => { l with maxCallDepth := n }
  | "max_array_index" => count fun n => { l with maxArrayIndex := n }
  | "max_map_count" => count fun n => { l with maxMapCount := n }
  | "max_err_len" => count fun n => { l with maxErrLen := n }
  | "cost_call" => some { l with costCall := n }
  | "cost_contract" => some { l with costContract := n }
  | "cost_extend" => some { l with costExtend := n }
  | _ => some l

/-- The keys of the limits. -/
def keys : List String :=
  ["max_cost", "max_mem", "max_call_depth", "max_array_index", "max_map_count", "max_err_len",
    "cost_call", "cost_contract", "cost_extend"]

/-- Whether a key names a limit. -/
def isKey (key : List Char) : Bool := keys.contains (String.ofList key)

/-- Sets the limits among some entries; `seen` are those already set. -/
def setAll? : Limits → List (List Char) → Toml.Entries → Option Limits
  | l, _, [] => some l
  | l, seen, (key, v) :: rest =>
    if !isKey key then setAll? l seen rest
    else if seen.contains key then none
    else
      match v with
      | .integer n => do setAll? (← l.set? key n) (key :: seen) rest
      | _ => none

/-- The limits of a document. -/
def ofToml? (document : String) : Option Limits := do
  match ← Toml.document? document with
  | [] => some {}
  | root :: tables =>
    if tables.any fun t => t.header.head?.any isKey then none
    else setAll? {} [] root.entries

end Covenant.Limits
