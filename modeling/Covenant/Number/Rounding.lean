/-!
# Rounding a ratio of naturals

`divHalfEven n d` is the natural nearest to `n / d`; when `n / d` lies halfway between two naturals
the even one is taken. Money and the fixed-point printing of floats both round through it, so the
rule is stated once. `divHalfUp` is the rule for amounts that are read.
-/

namespace Covenant.Number

/-- The natural nearest to `n / d`, a tie going to the even neighbour. -/
def divHalfEven (n d : Nat) : Nat :=
  let q := n / d
  let twice := 2 * (n % d)
  if d < twice ∨ (twice = d ∧ q % 2 = 1) then q + 1 else q

/-- The natural nearest to `n / d`, a tie going up. -/
def divHalfUp (n d : Nat) : Nat := (2 * n + d) / (2 * d)

end Covenant.Number
