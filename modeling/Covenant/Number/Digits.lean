/-!
# Decimal digits

Digits of naturals and their placement around a decimal point. `digits` writes a natural without
leading zeros, `value` reads digits back, and `placePoint` writes `n · 10 ^ (-places)`.
-/

namespace Covenant.Number

/-- Digit characters of `n`, most significant first; `0` has one digit. -/
def digits (n : Nat) : List Char := Nat.toDigits 10 n

/-- Whether a character is one of the ten decimal digits. -/
def isDigit (c : Char) : Bool := '0' ≤ c ∧ c ≤ '9'

/-- The number a digit character stands for. -/
def digitValue (c : Char) : Nat := c.toNat - 48

/-- The natural number written by a list of digit characters. -/
def value (cs : List Char) : Nat := cs.foldl (fun n c => 10 * n + digitValue c) 0

/-- Decimal text of `n`. -/
def natText (n : Nat) : String := String.ofList (digits n)

/-- Decimal text of an integer, with a minus sign below zero. -/
def intText (n : Int) : String :=
  if n < 0 then "-" ++ natText n.natAbs else natText n.natAbs

/-- Decimal text padded on the left with zeros to at least `width` digits. -/
def padded (width n : Nat) : List Char :=
  let ds := digits n
  List.replicate (width - ds.length) '0' ++ ds

/-- Digits of `n · 10 ^ (-places)`: the last `places` digits stand after a point, and at least one
digit stands before it. -/
def placePoint (n places : Nat) : List Char :=
  if places = 0 then
    digits n
  else
    let ds := padded (places + 1) n
    let whole := ds.length - places
    ds.take whole ++ '.' :: ds.drop whole

/-- Splits a list into its leading digits and what follows them. -/
def spanDigits (cs : List Char) : List Char × List Char := cs.span isDigit

end Covenant.Number
