import Covenant.Money.Arithmetic
import Covenant.Number.Reading

/-!
# Reading money

Amounts are read from plain decimals, in which an underscore may follow a digit, and from decimals
with an exponent. A decimal with more places than an amount can hold is rounded at the last place
that fits by looking at the next digit alone, a five going up. The places behind it do not count,
but they have to be places. An exponent that moves digits beyond the last place rounds in the same
way.
-/

namespace Covenant.Money

/-- Characters of a decimal behind its point. -/
def isPlaceChar (c : Char) : Bool := Number.isDigit c || c == '_'

/-- The amount read so far, rounded by the next digit. One unit too many costs a place. -/
def roundBy (negative : Bool) (coeff scale digit : Nat) : Option Money :=
  if digit < 5 then make? negative coeff scale
  else if coeff + 1 < bound then make? negative (coeff + 1) scale
  else if scale = 0 then none
  else make? negative ((coeff + 5) / 10) (scale - 1)

/-- The amount read so far, rounded by the first of the characters that have no room. An underscore
does not round; whatever follows has to be places too. -/
def roundAt (negative : Bool) (coeff scale : Nat) (cs : List Char) : Option Money :=
  if cs.all isPlaceChar then
    match cs with
    | c :: _ => roundBy negative coeff scale (if c = '_' then 0 else Number.digitValue c)
    | [] => make? negative coeff scale
  else
    none

/-- Coefficients from here on might not fit in 64 bits with one more digit. -/
def wide : Nat := (Number.pow2 64 - 1) / 10 - 255

/-- The amount whose last place has been read, where `before` is the coefficient without that place.
Underscores before the deciding digit are passed over only behind a wide coefficient. -/
def roundBehind (negative : Bool) (before coeff scale : Nat) (cs : List Char) : Option Money :=
  roundAt negative coeff scale (if before < wide then cs else cs.dropWhile (· == '_'))

/-- Reads the characters after the sign. `point` tells whether the point has passed, `any` whether a
digit has been read. -/
def readFrom (negative point any : Bool) (coeff scale : Nat) : List Char → Option Money
  | [] => if any then make? negative coeff scale else none
  | c :: cs =>
    if Number.isDigit c then
      let next := coeff * 10 + Number.digitValue c
      if bound ≤ next then
        if point then roundAt negative coeff scale (c :: cs) else none
      else
        let places := if point then scale + 1 else 0
        if point ∧ 28 ≤ places then roundBehind negative coeff next places cs
        else readFrom negative point true next places cs
    else if c = '.' ∧ !point then readFrom negative true any coeff scale cs
    else if c = '_' ∧ any then readFrom negative point any coeff scale cs
    else none

/-- A plain decimal. -/
def ofDecimal? (s : List Char) : Option Money :=
  let (negative, cs) := Number.splitSign s
  readFrom negative false false 0 0 cs

/-- Multiplies by a power of ten, at most nineteen places at a time. -/
def shiftUp (m : Money) (exp : Nat) : Option Money :=
  if 19 ≤ exp then
    match make? false (Number.pow10 19) 0 with
    | none => none
    | some p =>
      match m.mul p with
      | none => none
      | some r => if exp = 19 then some r else (make? false (Number.pow10 (exp - 19)) 0).bind r.mul
  else
    (make? false (Number.pow10 exp) 0).bind m.mul

/-- The same coefficient at another scale. -/
def withScale? (m : Money) (scale : Nat) : Option Money :=
  if h : scale ≤ 28 then some { m with scale := scale, scale_le := h } else none

/-- Moves the point of an amount to the left. Places beyond the last one that fits are rounded away,
a five going up, and the sign stays even if nothing is left. -/
def moveDown (m : Money) (exp : Nat) : Option Money :=
  let scale := m.scale + exp
  if scale ≤ 28 then m.withScale? scale
  else ofParts? m.negative (Number.divHalfUp m.coeff (Number.pow10 (scale - 28))) 28

/-- Moves the point of an amount to the right. -/
def moveUp (m : Money) (exp : Nat) : Option Money :=
  if exp ≤ m.scale then m.withScale? (m.scale - exp)
  else if 28 < exp then none
  else (m.shiftUp exp).bind normalize

/-- A decimal with an exponent, such as `1.5e3`. -/
def ofScientific? (s : List Char) : Option Money :=
  let (base, rest) := s.span fun c => !(c == 'e' || c == 'E')
  match rest with
  | [] => none
  | _ :: exponent =>
    match ofDecimal? base with
    | none => none
    | some m =>
      match exponent with
      | '-' :: ds =>
        (Number.readNatBelow? (Number.pow2 32) ds).bind fun e =>
          if 28 < e then none else m.moveDown e
      | ds => (Number.readNatBelow? (Number.pow2 32) ds).bind m.moveUp

/-- An amount from text, with or without an exponent. -/
def ofString? (s : String) : Option Money :=
  match ofDecimal? s.toList with
  | some m => some m
  | none => ofScientific? s.toList

end Covenant.Money
