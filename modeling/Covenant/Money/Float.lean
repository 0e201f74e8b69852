import Covenant.Money.Basic
import Covenant.Number.Binary64

/-!
# Money and doubles

A whole double becomes the amount with the same digits. Any other double becomes an amount by
turning its power of two into a power of ten within 96 bits, dropping low bits when they no longer
fit, and then cutting the coefficient back to the digits a double can vouch for. The other way the
whole and the fractional part are converted apart, added, and rounded to the amount's own places.
-/

namespace Covenant.Money

/-- A coefficient with a decimal exponent. -/
structure Scaled where
  coeff : Nat
  exponent : Int

/-- Replaces `2 ^ (-n)` by `5 ^ n · 10 ^ (-n)`: an even coefficient is halved instead, and so is one
that has no room for a factor of five. -/
def Scaled.absorbHalves : Nat → Scaled → Scaled
  | 0, s => s
  | n + 1, s =>
    if s.coeff % 2 = 0 then absorbHalves n ⟨s.coeff / 2, s.exponent + 1⟩
    else if s.coeff * 5 < bound then absorbHalves n ⟨s.coeff * 5, s.exponent⟩
    else absorbHalves n ⟨s.coeff / 2, s.exponent + 1⟩

/-- Drops the last digit, a five going up. -/
def Scaled.dropDigit (s : Scaled) : Scaled :=
  ⟨s.coeff / 10 + (if 5 ≤ s.coeff % 10 then 1 else 0), s.exponent + 1⟩

/-- Brings the exponent up to at least `-28`. A coefficient that runs out of digits is zero. -/
def Scaled.raise : Nat → Scaled → Scaled
  | 0, s => s
  | n + 1, s =>
    if s.exponent < -28 then
      if s.coeff / 10 = 0 then ⟨0, 0⟩ else raise n s.dropDigit
    else
      s

/-- Drops digits beyond 52 bits while there are decimal places. -/
def Scaled.trust : Nat → Scaled → Scaled
  | 0, s => s
  | n + 1, s => if s.exponent < 0 ∧ Number.pow2 52 ≤ s.coeff then trust n s.dropDigit else s

/-- Drops zeros at the end of the decimal places. -/
def Scaled.strip : Nat → Scaled → Scaled
  | 0, s => s
  | n + 1, s =>
    if s.exponent < 0 ∧ s.coeff % 10 = 0 then strip n ⟨s.coeff / 10, s.exponent + 1⟩ else s

/-- An amount with exactly this sign, also on zero. -/
def ofScaled? (negative : Bool) (s : Scaled) : Option Money :=
  ofParts? negative s.coeff (-s.exponent).toNat

/-- The amount of a double; there is none for infinities, what is not a number, and doubles that are
too large. -/
def ofFloat? (x : Float) : Option Money :=
  match Number.Binary64.parts x with
  | .nan => none
  | .infinite _ => none
  | .finite negative mantissa exponent =>
    if mantissa = 0 then
      some { zero with negative := negative }
    else if 0 ≤ exponent then
      ofScaled? negative ⟨mantissa * Number.pow2 exponent.toNat, 0⟩
    else
      let s := Scaled.absorbHalves (-exponent).toNat ⟨mantissa, exponent⟩
      let s := s.raise (-s.exponent).toNat
      let s := s.trust 32
      ofScaled? negative (s.strip 32)

/-- The double of an amount. -/
def toFloat (m : Money) : Float :=
  if m.scale = 0 then
    Number.Binary64.ofInt m.signed
  else
    let unit := Number.pow10 m.scale
    let whole := Number.Binary64.ofNat (m.coeff / unit)
    let part := m.coeff % unit
    let magnitude :=
      if part = 0 then
        whole
      else
        let unitFloat := Number.Binary64.ofNat unit
        let sum := whole + Number.Binary64.ofNat part / unitFloat
        (sum * unitFloat).round / unitFloat
    if m.negative then -magnitude else magnitude

end Covenant.Money
