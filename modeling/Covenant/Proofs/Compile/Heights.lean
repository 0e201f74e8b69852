import Covenant.Proofs.Compile.Brackets
import Covenant.Proofs.Compile.Units
import Covenant.Proofs.Structured.Postfix
import Mathlib.Algebra.Group.Nat.Defs

/-!
# Heights of the operand stack

How high code lets the operand stack grow, read off the code alone (`Climbs`): each instruction
finds the operands it takes above the height where the code begins. A call counts as taking its
arguments and leaving one value; a call that counts its arguments comes behind their number.

What waits in the buffer of an expression stands for operands that are on the stack already
(`Piled`): the left operand of an operator, the container of an index, the arguments of a call that
have been read. Letting out operators keeps the sum of the two (`Piled.flushOps`,
`Piled.flushUntil`).
-/

namespace Covenant

open Compile Structured

/-! ### Code -/

/-- What a caller has to know of a function: the number of its parameters and its segments. -/
structure CallShape where
  params : Nat
  segments : Option (Dict Segment)

/-- What a caller has to know of the function that a block is. -/
def Block.callShape? (b : Block) : Option CallShape :=
  (b.func?).map fun f => ⟨f.params.length, f.segments⟩

/-- How many operands a call takes besides their number, if it is known. -/
def Callee.taken? (shapes : BlockId → Option CallShape) (count : Option Nat) : Callee → Option Nat
  | .func id => (shapes id).map fun f => count.getD f.params + if f.segments.isSome then 1 else 0
  | .ext e => some (count.getD e.params.length)

/-- How many operands an instruction of an expression takes and how many it leaves, unless it calls
something. -/
def Op.trade? : Op → Option (Nat × Nat)
  | .push _ | .var _ | .extendVar _ | .mapInit _ | .arrayInit _ => some (0, 1)
  | .unwrapArr => some (0, 0)
  | .unary _ => some (1, 1)
  | .binary _ | .index => some (2, 1)
  | .setIndex => some (3, 0)
  | .funcName _ count => some (count + 1, 1)
  | _ => none

/-- Whether code takes the operand stack from one height to another and never below the first
height, given what the functions are that it calls. -/
inductive Climbs (shapes : BlockId → Option CallShape) : Nat → List Op → Nat → Prop
  | nil (h : Nat) : Climbs shapes h [] h
  | plain {op : Op} {t l k h : Nat} {ops : List Op} : op.trade? = some (t, l) →
      Climbs shapes (k + l) ops h → Climbs shapes (k + t) (op :: ops) h
  | call {f : Callee} {t k h : Nat} {ops : List Op} : f.taken? shapes none = some t →
      Climbs shapes (k + 1) ops h → Climbs shapes (k + t) (.call f :: ops) h
  | callVariadic {f : Callee} {n t k h : Nat} {ops : List Op} : n < 2 ^ 64 →
      f.taken? shapes (some n) = some t → Climbs shapes (k + 1) ops h →
      Climbs shapes (k + t) (.push (.int (.ofNat n)) :: .callVariadic f :: ops) h
  | callExtend {name : String} {n k h : Nat} {ops : List Op} : n < 2 ^ 64 →
    Climbs shapes (k + 1) ops h →
      Climbs shapes (k + n) (.push (.int (.ofNat n)) :: .callExtend name :: ops) h

namespace Climbs

variable {shapes : BlockId → Option CallShape} {a b c k l t n : Nat} {us vs : List Op} {op : Op}

/-- Code that climbs and code that climbs on. -/
theorem append (h : Climbs shapes a us b) (h' : Climbs shapes b vs c) :
    Climbs shapes a (us ++ vs) c := by
  induction h with
  | nil => exact h'
  | plain hop _ ih => exact .plain hop (ih h')
  | call ht _ ih => exact .call ht (ih h')
  | callVariadic hn ht _ ih => exact .callVariadic hn ht (ih h')
  | callExtend hn _ ih => exact .callExtend hn (ih h')

/-- One more instruction. -/
theorem emit (h : Climbs shapes a us (k + t)) (hop : op.trade? = some (t, l)) :
    Climbs shapes a (us ++ [op]) (k + l) := h.append (.plain hop (.nil _))

end Climbs

/-! ### Pending entries -/

namespace Compile

/-- How many operands a call puts on the stack in front of its arguments. -/
def PendingCall.leading (c : PendingCall) : Nat :=
  (if c.contract then 1 else 0) + if c.stateArg then 1 else 0

/-- Whether an entry is an open bracket. -/
def Pending.isBracket : Pending → Bool
  | .paren _ | .index => true
  | _ => false

/-- How many brackets are open. -/
def brackets : List Pending → Nat
  | [] => 0
  | p :: buffer => brackets buffer + if p.isBracket then 1 else 0

/-- How many operands on the stack belong to what is pending, given how many commas have been read
in the open calls. No count is greater than some bound. -/
inductive Piled (shapes : BlockId → Option CallShape) (bound : Nat) :
    List Pending → List Nat → Nat → Prop
  | nil : Piled shapes bound [] [] 0
  | unary {buffer : List Pending} {counts : List Nat} {h : Nat} (op : UnaryOp) :
      Piled shapes bound buffer counts h → Piled shapes bound (.op (.unary op) :: buffer) counts h
  | binary {buffer : List Pending} {counts : List Nat} {h : Nat} (op : BinaryOp) :
      Piled shapes bound buffer counts h →
      Piled shapes bound (.op (.binary op) :: buffer) counts (h + 1)
  | group {buffer : List Pending} {counts : List Nat} {h : Nat} :
      Piled shapes bound buffer counts h → Piled shapes bound (.paren false :: buffer) counts h
  | index {buffer : List Pending} {counts : List Nat} {h : Nat} :
      Piled shapes bound buffer counts h → Piled shapes bound (.index :: buffer) counts (h + 1)
  | call {buffer : List Pending} {counts : List Nat} {h n : Nat}
    {c : PendingCall} : c.count = none →
      (c.leading = 0 ∨ ∃ e, c.target = .ext e) → n ≤ bound → Piled shapes bound buffer counts h →
      Piled shapes bound (.paren true :: .call c :: buffer) (n :: counts) (h + c.leading + n)
  | chain {buffer : List Pending} {counts : List Nat} {h n k : Nat} {c : PendingCall} {id : BlockId}
      {f : CallShape} (segment : String) : c.count = some k → c.leading = 0 → c.target = .func id →
      shapes id = some f → f.segments.isSome = true → n ≤ bound → k ≤ bound + 1 →
      Piled shapes bound buffer counts h →
      Piled shapes bound (.paren true :: .chain segment :: .call c :: buffer) (n :: counts)
        (h + k + 1 + n)

namespace Piled

variable {shapes : BlockId → Option CallShape} {bound bound' h a base line : Nat}
  {buffer rest : List Pending}
  {counts : List Nat} {code out : Array Instr} {p : Pending}

/-- Operators may be bounded less strictly. -/
theorem mono (hp : Piled shapes bound buffer counts h) (hle : bound ≤ bound') :
    Piled shapes bound' buffer counts h := by
  induction hp with
  | nil => exact .nil
  | unary op _ ih => exact .unary op ih
  | binary op _ ih => exact .binary op ih
  | group _ ih => exact .group ih
  | index _ ih => exact .index ih
  | call hc hl hn _ ih => exact .call hc hl (Nat.le_trans hn hle) ih
  | chain s hc hl ht hf hs hn hk _ ih =>
    exact .chain s hc hl ht hf hs (Nat.le_trans hn hle) (Nat.le_trans hk (Nat.succ_le_succ hle)) ih

theorem eq_zero (hp : Piled shapes bound [] counts h) : counts = [] ∧ h = 0 := by
  cases hp
  exact ⟨rfl, rfl⟩

/-- Operators that are let out take the operands that they have waited for. -/
theorem flushOps {pred : Op → Bool} (hp : Piled shapes bound buffer counts h)
    (hcode : Climbs shapes a (opsOf code) (base + h + 1))
    (hflush : Yard.flushOps pred line code buffer = (out, rest)) :
    brackets rest = brackets buffer ∧ ∃ h', Piled shapes bound rest counts h' ∧
      Climbs shapes a (opsOf out) (base + h' + 1) := by
  -- the operators on top are pushed out one after the other; anything else stops them
  induction hp generalizing code with
  | unary op hp ih =>
    rw [Yard.flushOps] at hflush
    split at hflush
    · refine ih ?_ hflush
      rw [opsOf_push]
      exact hcode.emit rfl
    · cases hflush
      exact ⟨rfl, _, .unary op hp, hcode⟩
  | binary op hp ih =>
    rw [Yard.flushOps] at hflush
    split at hflush
    · refine ih ?_ hflush
      rw [opsOf_push]
      exact (show Climbs shapes a (opsOf code) (base + _ + 2) from hcode).emit rfl
    · cases hflush
      exact ⟨rfl, _, .binary op hp, hcode⟩
  | nil =>
    cases hflush
    exact ⟨rfl, _, .nil, hcode⟩
  | group hp =>
    cases hflush
    exact ⟨rfl, _, .group hp, hcode⟩
  | index hp =>
    cases hflush
    exact ⟨rfl, _, .index hp, hcode⟩
  | call hc hl hn hp =>
    cases hflush
    exact ⟨rfl, _, .call hc hl hn hp, hcode⟩
  | chain s hc hl ht hf hs hn hk hp =>
    cases hflush
    exact ⟨rfl, _, .chain s hc hl ht hf hs hn hk hp, hcode⟩

/-- Down to the innermost bracket operators are let out. -/
theorem flushUntil {stop : Pending → Bool} (hstop : ∀ o, stop (.op o) = false)
    (hp : Piled shapes bound buffer counts h)
    (hcode : Climbs shapes a (opsOf code) (base + h + 1))
    (hflush : Yard.flushUntil stop line code buffer = some (out, p, rest)) :
    brackets (p :: rest) = brackets buffer ∧ stop p = true ∧
    ∃ h', Piled shapes bound (p :: rest) counts h' ∧
      Climbs shapes a (opsOf out) (base + h' + 1) := by
  -- an entry that is no operator stops the flush, or there is no bracket to flush down to
  have hbracket : ∀ {q : Pending} {buffer : List Pending} {counts : List Nat}
    {h : Nat} {code : Array Instr},
      (∀ o, q ≠ .op o) → Piled shapes bound (q :: buffer) counts h →
      Climbs shapes a (opsOf code) (base + h + 1) →
      Yard.flushUntil stop line code (q :: buffer) = some (out, p, rest) →
      brackets (p :: rest) = brackets (q :: buffer) ∧ stop p = true ∧
        ∃ h', Piled shapes bound (p :: rest) counts h' ∧
        Climbs shapes a (opsOf out) (base + h' + 1) := by
    intro q buffer counts h code hq hp hcode hflush
    cases q with
    | op o => exact absurd rfl (hq o)
    | _ =>
      rw [Yard.flushUntil] at hflush
      · split at hflush
        · cases hflush
          exact ⟨rfl, ‹_›, _, hp, hcode⟩
        · cases hflush
      · exact fun _ h => by cases h
  induction hp generalizing code with
  | unary op hp ih =>
    rw [Yard.flushUntil, hstop] at hflush
    refine ih ?_ hflush
    rw [opsOf_push]
    exact hcode.emit rfl
  | binary op hp ih =>
    rw [Yard.flushUntil, hstop] at hflush
    refine ih ?_ hflush
    rw [opsOf_push]
    exact (show Climbs shapes a (opsOf code) (base + _ + 2) from hcode).emit rfl
  | nil => cases hflush
  | group hp => exact hbracket (fun _ h => by cases h) (.group hp) hcode hflush
  | index hp => exact hbracket (fun _ h => by cases h) (.index hp) hcode hflush
  | call hc hl hn hp => exact hbracket (fun _ h => by cases h) (.call hc hl hn hp) hcode hflush
  | chain s hc hl ht hf hs hn hk hp =>
    exact hbracket (fun _ h => by cases h) (.chain s hc hl ht hf hs hn hk hp) hcode hflush

end Piled

end Compile

end Covenant
