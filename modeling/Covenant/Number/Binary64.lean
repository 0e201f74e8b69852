import Covenant.Number.Power
import Covenant.Number.Rounding

/-!
# Doubles as exact numbers

A double is either not a number, an infinity, or `± mantissa · 2 ^ exponent`. `parts` reads these
off the bit pattern, and `ofRatio` goes back: it is the double nearest to a ratio of naturals, ties
going to the even significand, with gradual underflow and overflow to infinity. Everything in
between is exact arithmetic on naturals.
-/

namespace Covenant.Number.Binary64

/-- What a double stands for. -/
inductive Parts where
  | nan
  | infinite (negative : Bool)
  | finite (negative : Bool) (mantissa : Nat) (exponent : Int)
deriving DecidableEq, Repr

/-- Splits a double into sign, significand and exponent. -/
def parts (x : Float) : Parts :=
  let bits := x.toBits.toNat
  let negative := bits / pow2 63 == 1
  let field : Nat := bits / pow2 52 % 2048
  let fraction := bits % pow2 52
  if field = 2047 then
    if fraction = 0 then .infinite negative else .nan
  else if field = 0 then
    .finite negative fraction (-1074)
  else
    .finite negative (fraction + pow2 52) ((field : Int) - 1075)

/-- The bit pattern of positive infinity. -/
def infinityBits : Nat := 2047 * pow2 52

/-- The ratio `num / den` in units of `2 ^ e`, rounded to the nearest unit. -/
def inUnits (num den : Nat) (e : Int) : Nat :=
  if 0 ≤ e then divHalfEven num (den * pow2 e.toNat) else divHalfEven (num * pow2 (-e).toNat) den

/-- Whether `num / den` is below `2 ^ e`. -/
def belowPow (num den : Nat) (e : Int) : Bool :=
  if 0 ≤ e then num < den * pow2 e.toNat else num * pow2 (-e).toNat < den

/-- The exponent at which `num / den` has a 53-bit significand, or the least one there is. -/
def unitExponent (num den : Nat) : Int :=
  let e : Int := (num.log2 : Int) - (den.log2 : Int) - 52
  max (if belowPow num den (e + 52) then e - 1 else e) (-1074)

/-- The bits of the nonnegative double nearest to `num / den`. A significand that rounds up to the
next power of two carries into the exponent field by itself. -/
def bitsOfRatio (num den : Nat) : Nat :=
  if num = 0 then
    0
  else
    let e := unitExponent num den
    min infinityBits ((e + 1074).toNat * pow2 52 + inUnits num den e)

/-- The double nearest to `± num / den`, ties to the even significand. -/
def ofRatio (negative : Bool) (num den : Nat) : Float :=
  let bits := bitsOfRatio num den
  Float.ofBits (if negative then bits + pow2 63 else bits).toUInt64

/-- The double nearest to a natural number. -/
def ofNat (n : Nat) : Float := ofRatio false n 1

/-- The double nearest to an integer. -/
def ofInt (n : Int) : Float := ofRatio (n < 0) n.natAbs 1

/-- The integer part of a double, clamped to 64 bits; what is not a number counts as zero. -/
def toInt64 (x : Float) : Int64 :=
  match parts x with
  | .nan => 0
  | .infinite negative => if negative then Int64.minValue else Int64.maxValue
  | .finite negative mantissa exponent =>
    let whole := if 0 ≤ exponent then mantissa * pow2 exponent.toNat
      else mantissa / pow2 (-exponent).toNat
    if negative then
      if whole ≤ pow2 63 then Int64.ofInt (-(whole : Int)) else Int64.minValue
    else
      if whole < pow2 63 then Int64.ofNat whole else Int64.maxValue

end Covenant.Number.Binary64
