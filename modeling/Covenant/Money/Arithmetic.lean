import Covenant.Money.Basic

/-!
# Arithmetic of money

Sums and products are formed exactly and then fitted into the range of amounts. Quotients carry as
many places as fit, rounded half to even; of the zeros at their end the last few are dropped. An
operation has no result when the whole part does not fit.
-/

namespace Covenant.Money

/-- The sum. A zero operand leaves the other one as it is, scale included. -/
def add (a b : Money) : Option Money :=
  if a.isZero then some b
  else if b.isZero then some a
  else
    let scale := max a.scale b.scale
    let sum := a.signedAt scale + b.signedAt scale
    fit (sum < 0) sum.natAbs scale

/-- The difference. A zero on the left turns the sign of a nonzero right operand. -/
def sub (a b : Money) : Option Money :=
  if a.isZero then some (if b.isZero then b else b.neg)
  else if b.isZero then some a
  else add a b.neg

/-- The product. It is plain zero when an operand is zero, and also when two coefficients below
`2 ^ 32` meet with more than 47 places between them. -/
def mul (a b : Money) : Option Money :=
  let scale := a.scale + b.scale
  if a.isZero || b.isZero then some zero
  else if a.coeff < Number.pow2 32 ∧ b.coeff < Number.pow2 32 ∧ 47 < scale then some zero
  else fit (a.negative != b.negative) (a.coeff * b.coeff) scale

/-! ### Quotients

Long division goes on in stages of up to nine places, as many as the coefficient has room for, until
nothing is left or nothing more fits. -/

/-- How many places a coefficient can be extended by, up to a limit. -/
def room (coeff : Nat) : Nat → Nat
  | 0 => 0
  | x + 1 => if coeff * Number.pow10 (x + 1) < bound then x + 1 else room coeff x

/-- A coefficient under way, the remainder behind it, and the scale, which is negative while places
before the point are missing. -/
structure Quotient where
  coeff : Nat
  rest : Nat
  scale : Int

namespace Quotient

/-- Drops the last digit of a coefficient that is too wide, rounding half to even; `more` tells
whether something nonzero follows it. -/
def dropLast (coeff : Nat) (more : Bool) (scale : Int) : Option (Nat × Int) :=
  if scale ≤ 0 then none
  else
    let q := coeff / 10
    let r := coeff % 10
    let up := 5 < r || (r == 5 && (more || q % 2 == 1))
    some (if up then q + 1 else q, scale - 1)

/-- Rounds the coefficient by the remainder, half to even. -/
def round (s : Quotient) (d : Nat) : Option (Nat × Int) :=
  let up := d < 2 * s.rest || (2 * s.rest == d && s.coeff % 2 == 1)
  let q := if up then s.coeff + 1 else s.coeff
  if q < bound then some (q, s.scale) else dropLast q true s.scale

/-- Extends the coefficient by some places. -/
def extend (s : Quotient) (d places : Nat) : Quotient :=
  let rest := s.rest * Number.pow10 places
  ⟨s.coeff * Number.pow10 places + rest / d, rest % d, s.scale + places⟩

/-- Divides on until nothing is left or nothing more fits. Every stage adds a place, and there are
fewer than sixty. -/
def finish (d : Nat) : Nat → Quotient → Option (Nat × Int)
  | 0, _ => none
  | fuel + 1, s =>
    if s.rest = 0 then
      if 0 ≤ s.scale then some (s.coeff, s.scale)
      else
        let next := s.extend d (min 9 (-s.scale).toNat)
        if next.coeff < bound then finish d fuel next else none
    else
      let places := room s.coeff (min 9 (28 - s.scale).toNat)
      if places < 9 ∧ s.scale + places < 0 then none
      else if places = 0 then s.round d
      else
        let next := s.extend d places
        if next.coeff < bound then finish d fuel next
        else dropLast next.coeff (next.rest != 0) next.scale

end Quotient

/-- Drops `n` zeros at the end of the decimal places, if there are so many. -/
def dropZeros (n : Nat) (q : Nat × Int) : Nat × Int :=
  if (n : Int) ≤ q.2 ∧ q.1 % Number.pow10 n = 0 then (q.1 / Number.pow10 n, q.2 - n) else q

/-- Drops eight zeros as long as that many can go and the low 32 bits are zero. -/
def dropEights : Nat → Nat × Int → Nat × Int
  | 0, q => q
  | fuel + 1, q =>
    if q.1 % Number.pow2 32 = 0 ∧ 8 ≤ q.2 ∧ q.1 % Number.pow10 8 = 0 then
      dropEights fuel (dropZeros 8 q)
    else
      q

/-- Drops zeros at the end of a quotient that did not come out even at once. At most seven go,
except where the coefficient is a multiple of `2 ^ 32`. -/
def tidy (q : Nat × Int) : Nat × Int :=
  dropZeros 1 (dropZeros 2 (dropZeros 4 (dropEights 4 q)))

/-- The quotient by a nonzero amount. -/
def div (a b : Money) : Option Money :=
  if a.isZero then
    some zero
  else
    let start : Quotient := ⟨a.coeff / b.coeff, a.coeff % b.coeff, a.scale - b.scale⟩
    match start.finish b.coeff 60 with
    | none => none
    | some q =>
      let (coeff, scale) := if start.rest = 0 then q else tidy q
      make? (a.negative != b.negative) coeff scale.toNat

end Covenant.Money
