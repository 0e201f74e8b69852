/-!
# Limits

Ceilings on what a run may use and the fixed costs of calls.
-/

namespace Covenant

/-- Ceilings and call costs. -/
structure Limits where
  /-- Budget of a run whose environment has no `txcost`. -/
  maxCost : Int := 10000000
  /-- Ceiling on the memory of live variables, in bytes. -/
  maxMem : Int := 134217728
  maxCallDepth : Nat := 1000
  maxArrayIndex : Nat := 1000000
  maxMapCount : Nat := 100000
  /-- Longest message that `error`, `warning` and `info` keep. -/
  maxErrLen : Nat := 150
  costCall : Int := 50
  costContract : Int := 100
  costExtend : Int := 10
deriving DecidableEq, Repr, Inhabited

end Covenant
