import Covenant.Number.Binary64
import Covenant.Number.Digits

/-!
# Reading numbers

`readInt64?` reads an optionally signed whole number that fits in 64 bits; `readNatBelow?` an
optionally `+`-signed natural below a bound; `readFloat?` a decimal with optional fraction and
exponent, or the words for infinity and not-a-number in any case. Every reader takes the whole text
or nothing.
-/

namespace Covenant.Number

/-- Splits a leading sign off; the flag is set by a minus. -/
def splitSign : List Char → Bool × List Char
  | '-' :: cs => (true, cs)
  | '+' :: cs => (false, cs)
  | cs => (false, cs)

/-- A nonempty list of digits as a number. -/
def readDigits? (cs : List Char) : Option Nat :=
  if cs.isEmpty then none else if cs.all isDigit then some (value cs) else none

/-- A whole number that fits in 64 signed bits. -/
def readInt64? (s : String) : Option Int64 :=
  let (negative, cs) := splitSign s.toList
  match readDigits? cs with
  | none => none
  | some n =>
    if negative then
      if n ≤ pow2 63 then some (Int64.ofInt (-(n : Int))) else none
    else
      if n < pow2 63 then some (Int64.ofNat n) else none

/-- A natural number below `bound`, with an optional plus sign. -/
def readNatBelow? (bound : Nat) (cs : List Char) : Option Nat :=
  let body := match cs with
    | '+' :: rest => rest
    | _ => cs
  match readDigits? body with
  | none => none
  | some n => if n < bound then some n else none

/-- The exponent part of a decimal: nothing at all, or `e` with an optionally signed number. -/
def readExponent? : List Char → Option Int
  | [] => some 0
  | c :: cs =>
    if c = 'e' ∨ c = 'E' then
      let (negative, ds) := splitSign cs
      (readDigits? ds).map fun n => if negative then -(n : Int) else (n : Int)
    else
      none

/-- The double nearest to `± m · 10 ^ e`. Exponents far outside the range of doubles are cut short
before any power is formed. -/
def floatOfScaled (negative : Bool) (m : Nat) (e : Int) : Float :=
  let size : Int := ((digits m).length : Int) + e
  if m = 0 ∨ size < -400 then Binary64.ofRatio negative 0 1
  else if 400 < size then Binary64.ofRatio negative (pow2 2000) 1
  else if 0 ≤ e then Binary64.ofRatio negative (m * pow10 e.toNat) 1
  else Binary64.ofRatio negative m (pow10 (-e).toNat)

/-- An unsigned decimal such as `12`, `1.5`, `.5`, `5.` or `1e-3`. -/
def readUnsigned? (negative : Bool) (cs : List Char) : Option Float :=
  let (whole, rest) := spanDigits cs
  let (fraction, rest) := match rest with
    | '.' :: more => spanDigits more
    | _ => ([], rest)
  if whole.isEmpty ∧ fraction.isEmpty then
    none
  else
    (readExponent? rest).map fun e =>
      floatOfScaled negative (value (whole ++ fraction)) (e - fraction.length)

/-- A double: an optional sign, then a decimal, `inf`, `infinity` or `nan` in any case. -/
def readFloat? (s : String) : Option Float :=
  let (negative, cs) := splitSign s.toList
  let word := String.ofList (cs.map Char.toLower)
  if word = "inf" ∨ word = "infinity" then
    some (Binary64.ofRatio negative (pow2 2000) 1)
  else if word = "nan" then
    some (Float.ofBits 0x7ff8000000000000)
  else
    readUnsigned? negative cs

end Covenant.Number
