import Covenant.Number.Digits

/-!
# Names

Contracts are known by qualified names: an ecosystem number and a plain name behind an `@`. System
variables are the environment keys that belong to the node; programs cannot assign to them.
-/

namespace Covenant.Name

/-- The qualified name of a contract seen from an ecosystem. A name that starts with `@` is taken as
it is if a digit follows, and belongs to the first ecosystem otherwise. -/
def qualify (state : Nat) (name : String) : String :=
  match name.toList with
  | '@' :: c :: rest =>
    if Number.isDigit c then name else "@1" ++ String.ofList (c :: rest)
  | ['@'] => "@1"
  | _ => "@" ++ Number.natText state ++ name

/-- Environment keys that belong to the node. -/
def systemKeys : List String :=
  ["block", "block_key_id", "block_time", "ecosystem_id", "key_id", "account_id", "node_position",
    "parent", "original_contract", "sc", "contract", "this_contract", "time", "type", "txcost",
    "txhash", "guest_key", "gen_block", "time_limit", "pre_block_data_hash"]

/-- How the marker of a running contract starts. -/
def markerStart : String := "loop_"

/-- The environment key that marks a contract as running. -/
def marker (contract : String) : String := markerStart ++ contract

/-- Whether an environment key belongs to the node. -/
def isSystem (key : String) : Bool :=
  markerStart.toList.isPrefixOf key.toList || systemKeys.contains key

end Covenant.Name
