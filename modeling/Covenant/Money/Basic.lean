import Covenant.Number.Digits
import Covenant.Number.Power
import Covenant.Number.Rounding

/-!
# Money

Amounts are decimals `± coeff · 10 ^ (-scale)` with a coefficient below `2 ^ 96` and a scale of at
most 28. The scale is part of an amount: `1.5` and `1.50` are equal as numbers and print
differently. `fit` is the one place where digits are dropped: a coefficient that is too wide loses
as few places as possible, rounding half to even. `compare` orders amounts as numbers.
-/

namespace Covenant

/-- Coefficients of amounts have 96 bits. -/
def Money.bound : Nat := Number.pow2 96

/-- A decimal amount. Zero may carry a minus sign, which only printing shows. -/
structure Money where
  negative : Bool
  coeff : Nat
  scale : Nat
  coeff_lt : coeff < Money.bound
  scale_le : scale ≤ 28
deriving DecidableEq

namespace Money

/-- The amount zero, without decimal places. -/
def zero : Money := ⟨false, 0, 0, by decide, by decide⟩

instance : Inhabited Money := ⟨zero⟩

/-- An amount from its parts, if they are in range. Zero keeps the sign it is given. -/
def ofParts? (negative : Bool) (coeff scale : Nat) : Option Money :=
  if h : coeff < bound ∧ scale ≤ 28 then some ⟨negative, coeff, scale, h.1, h.2⟩ else none

/-- An amount from its parts, if they are in range. Zero comes out without a sign. -/
def make? (negative : Bool) (coeff scale : Nat) : Option Money :=
  ofParts? (negative && coeff != 0) coeff scale

/-- Whether the amount is zero, whatever its scale and sign. -/
def isZero (m : Money) : Bool := m.coeff == 0

/-- The other sign. -/
def neg (m : Money) : Money := { m with negative := !m.negative }

/-- A whole amount. -/
def ofInt64 (n : Int64) : Money :=
  ⟨n.toInt < 0, n.toInt.natAbs, 0, by
    have h₁ := n.toInt_lt
    have h₂ := n.le_toInt
    have hb : bound = 79228162514264337593543950336 := by decide
    omega, by decide⟩

/-- The signed coefficient. -/
def signed (m : Money) : Int := if m.negative then -(m.coeff : Int) else m.coeff

/-- The signed coefficient at a scale of at least the amount's own. -/
def signedAt (m : Money) (scale : Nat) : Int := m.signed * Number.pow10 (scale - m.scale)

/-- The order of amounts as numbers. -/
def compare (a b : Money) : Ordering :=
  let scale := max a.scale b.scale
  Ord.compare (a.signedAt scale) (b.signedAt scale)

/-- The least number of places to drop from `v` until it is below `2 ^ 96`. -/
def excess : Nat → Nat → Nat
  | 0, _ => 0
  | fuel + 1, v => if v < bound then 0 else excess fuel (v / 10) + 1

/-- The amount `± v · 10 ^ (-scale)`, with places dropped until coefficient and scale are in range.
There is none if more places would have to go than there are. -/
def fit (negative : Bool) (v scale : Nat) : Option Money :=
  let k := max (excess 64 v) (scale - 28)
  if scale < k then
    none
  else
    let q := Number.divHalfEven v (Number.pow10 k)
    let s := scale - k
    if q < bound then make? negative q s
    else if s = 0 then none
    else make? negative (Number.divHalfEven q 10) (s - 1)

/-- Drops zeros at the end of the decimal places. -/
def strip : Nat → Nat → Nat → Nat × Nat
  | 0, coeff, scale => (coeff, scale)
  | fuel + 1, coeff, scale =>
    if 0 < scale ∧ coeff % 10 = 0 then strip fuel (coeff / 10) (scale - 1) else (coeff, scale)

/-- The amount without zeros at the end of its decimal places. -/
def normalize (m : Money) : Option Money :=
  let (coeff, scale) := strip m.scale m.coeff m.scale
  make? m.negative coeff scale

/-- The text of an amount, with all places of its scale. -/
def text (m : Money) : String :=
  let body := Number.placePoint m.coeff m.scale
  String.ofList (if m.negative then '-' :: body else body)

/-- The whole part, if it fits in 64 signed bits. -/
def toInt64? (m : Money) : Option Int64 :=
  let whole := m.coeff / Number.pow10 m.scale
  if m.negative then
    if whole ≤ Number.pow2 63 then some (Int64.ofInt (-(whole : Int))) else none
  else
    if whole < Number.pow2 63 then some (Int64.ofNat whole) else none

end Money

end Covenant
