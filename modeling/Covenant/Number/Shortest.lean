import Covenant.Number.Binary64
import Covenant.Number.Digits

/-!
# The shortest decimal of a double

Every double owns the interval of reals that round to it; the ends belong to it when its significand
is even. The shortest decimal is found on the coarsest grid of powers of ten that meets this
interval: of the grid points in it, the one nearest to the double, the upper one in a tie.
`shortest` answers with the grid point as `digits · 10 ^ exponent`, and `text` writes it out without
an exponent.
-/

namespace Covenant.Number.Shortest

/-- A positive double and the interval that rounds to it, as numerators over one denominator. -/
structure Interval where
  low : Nat
  value : Nat
  high : Nat
  den : Nat
  closed : Bool

/-- The interval of `mantissa · 2 ^ exponent`. The gap below a power of two is half the gap
above. -/
def Interval.ofParts (mantissa : Nat) (exponent : Int) : Interval :=
  let lowGap := if mantissa = pow2 52 ∧ -1074 < exponent then 1 else 2
  let shift := exponent - 2
  let scale := if 0 ≤ shift then pow2 shift.toNat else 1
  { low := (4 * mantissa - lowGap) * scale
    value := 4 * mantissa * scale
    high := (4 * mantissa + 2) * scale
    den := if 0 ≤ shift then 1 else pow2 (-shift).toNat
    closed := mantissa % 2 == 0 }

/-- The interval measured in units of `10 ^ p`. -/
def Interval.scaled (i : Interval) (p : Int) : Interval :=
  if 0 ≤ p then
    { i with den := i.den * pow10 p.toNat }
  else
    let f := pow10 (-p).toNat
    { i with low := i.low * f, value := i.value * f, high := i.high * f }

/-- Whether the natural `n` lies in the interval. -/
def Interval.holds (i : Interval) (n : Nat) : Bool :=
  let x := n * i.den
  if i.closed then i.low ≤ x ∧ x ≤ i.high else i.low < x ∧ x < i.high

/-- The natural in the interval that is nearest to its value, the upper of two. -/
def Interval.nearest? (i : Interval) : Option Nat :=
  let below := i.value / i.den
  let above := below + 1
  match i.holds below, i.holds above with
  | true, true => if 2 * (i.value % i.den) < i.den then some below else some above
  | true, false => some below
  | false, true => some above
  | false, false => none

/-- Tries the grids `10 ^ p`, `10 ^ (p - 1)`, … until one meets the interval. -/
def search (i : Interval) : Nat → Int → Nat × Int
  | 0, p => (0, p)
  | fuel + 1, p =>
    match (i.scaled p).nearest? with
    | some n => (n, p)
    | none => search i fuel (p - 1)

/-- An exponent of ten above every point of the interval of `mantissa · 2 ^ exponent`. -/
def startExponent (mantissa : Nat) (exponent : Int) : Int :=
  ((mantissa.log2 : Int) + 2 + exponent) * 30103 / 100000 + 1

/-- Digits and exponent of the shortest decimal of a positive double. -/
def shortest (mantissa : Nat) (exponent : Int) : Nat × Int :=
  search (.ofParts mantissa exponent) 40 (startExponent mantissa exponent)

/-- The characters of `n · 10 ^ p`, written without an exponent. -/
def positional (n : Nat) (p : Int) : List Char :=
  if 0 ≤ p then digits n ++ List.replicate p.toNat '0' else placePoint n (-p).toNat

/-- The shortest text that reads back as the double: never an exponent, no point in whole
numbers. -/
def text (x : Float) : String :=
  match Binary64.parts x with
  | .nan => "NaN"
  | .infinite negative => if negative then "-inf" else "inf"
  | .finite negative mantissa exponent =>
    let body := if mantissa = 0 then ['0'] else
      let (n, p) := shortest mantissa exponent
      positional n p
    String.ofList (if negative then '-' :: body else body)

/-- The double with exactly `places` digits after the point, rounded half to even. -/
def fixed (places : Nat) (x : Float) : String :=
  match Binary64.parts x with
  | .nan => "NaN"
  | .infinite negative => if negative then "-inf" else "inf"
  | .finite negative mantissa exponent =>
    let n := if 0 ≤ exponent then mantissa * pow2 exponent.toNat * pow10 places
      else divHalfEven (mantissa * pow10 places) (pow2 (-exponent).toNat)
    let body := placePoint n places
    String.ofList (if negative then '-' :: body else body)

end Covenant.Number.Shortest
