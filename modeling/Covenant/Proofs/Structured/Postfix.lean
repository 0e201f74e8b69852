import Covenant.Proofs.Computation
import Covenant.Compile.Expression
import Covenant.Proofs.Structured.Tokens

/-!
# The yard of the compiler

Operands leave the yard of an expression at once and operators wait in its buffer. What the yard
holds behind an operand is the yard in front of it, the code that has been let out and the operators
that the operand has left waiting (`behind`); `take_const` and the lemmas next to it say which
lexeme leads from one yard to the next, and `finish_behind` what is let out at the end.
-/

namespace Covenant.Structured

open Covenant.Compile Covenant.Computation

/-! ### Postfix code -/

/-- The commands of some instructions. -/
def opsOf (code : Array Instr) : List Op := code.toList.map Instr.op

@[simp] theorem opsOf_empty : opsOf #[] = [] := rfl

@[simp] theorem opsOf_push (code : Array Instr) (i : Instr) :
    opsOf (code.push i) = opsOf code ++ [i.op] := by
  simp [opsOf]

@[simp] theorem opsOf_append (xs ys : Array Instr) : opsOf (xs ++ ys) = opsOf xs ++ opsOf ys := by
  simp [opsOf]

/-! ### Tokens of a source -/

/-- The tokens of a source from a position on. -/
def TokensAt (s : Source) (i : Nat) (ts : List Token) : Prop :=
  (s.lexemes.toList.drop i).map Lexeme.token = ts

namespace TokensAt

variable {s : Source} {i : Nat} {t : Token} {ts us : List Token}

theorem getElem? (h : TokensAt s i (t :: ts)) : (s.lexemes[i]?).map Lexeme.token = some t := by
  have := congrArg List.head? h
  rwa [List.head?_map, List.head?_drop, Array.getElem?_toList] at this

theorem token? (h : TokensAt s i (t :: ts)) : s.token? i = some t := h.getElem?

theorem token?_nil (h : TokensAt s i []) : s.token? i = none := by
  have := congrArg List.head? h
  rwa [List.head?_map, List.head?_drop, Array.getElem?_toList] at this

theorem kind? (h : TokensAt s i (t :: ts)) : s.kind? i = some t.kind := by
  obtain ⟨l, hl, rfl⟩ := Option.map_eq_some_iff.1 h.getElem?
  rw [Source.kind?, hl]
  rfl

theorem kind?_nil (h : TokensAt s i []) : s.kind? i = none := by
  have := h.token?_nil
  rw [Source.token?, Option.map_eq_none_iff] at this
  rw [Source.kind?, this]
  rfl

theorem name (h : TokensAt s i (t :: ts)) : s.name i = t.name?.getD "" := by
  obtain ⟨l, hl, rfl⟩ := Option.map_eq_some_iff.1 h.getElem?
  rw [Source.name, hl]
  rfl

theorem skip (h : TokensAt s i (us ++ ts)) : TokensAt s (i + us.length) ts := by
  have := congrArg (List.drop us.length) h
  rwa [← List.map_drop, List.drop_drop, List.drop_left] at this

theorem next (h : TokensAt s i (t :: ts)) : TokensAt s (i + 1) ts := by
  have h' : TokensAt s i ([t] ++ ts) := h
  exact h'.skip

theorem length (h : TokensAt s i ts) : s.lexemes.size - i = ts.length := by
  have := congrArg List.length h
  simpa using this

end TokensAt

/-! ### The yard -/

/-- Whether a flush stops at once at a buffer. -/
def Stops (out : Op → Bool) : List Pending → Prop
  | .op o :: _ => out o = false
  | _ => True

/-- Operators as they wait in the buffer. -/
def pendingOps (ps : List Op) : List Pending := ps.map .op

@[simp] theorem pendingOps_nil : pendingOps [] = [] := rfl

/-- Operators as they are let out. -/
def instrsOf (line : Nat) (ps : List Op) : Array Instr := (ps.map (⟨·, line⟩ : Op → Instr)).toArray

@[simp] theorem opsOf_instrsOf (line : Nat) (ps : List Op) : opsOf (instrsOf line ps) = ps := by
  simp [opsOf, instrsOf, Function.comp_def]

/-- The operators on top are pushed out, and what stops them stays. -/
theorem flushOps_pendingOps {out : Op → Bool} {buffer : List Pending} (line : Nat)
    (hstop : Stops out buffer) (ps : List Op) (hps : ∀ p ∈ ps, out p = true) (code : Array Instr) :
    Yard.flushOps out line code (pendingOps ps ++ buffer) = (code ++ instrsOf line ps, buffer) := by
  induction ps generalizing code with
  | nil =>
    rw [pendingOps, List.map_nil, List.nil_append, instrsOf, List.map_nil, Array.append_empty]
    cases buffer with
    | nil => rfl
    | cons b bs =>
      cases b with
      | op o =>
        have ho : out o = false := hstop
        simp [Yard.flushOps, ho]
      | _ => rfl
  | cons p ps ih =>
    have hp : out p = true := hps p (List.mem_cons_self ..)
    have hbuf : pendingOps (p :: ps) ++ buffer = .op p :: (pendingOps ps ++ buffer) := rfl
    rw [hbuf, Yard.flushOps, if_pos hp, ih fun q hq => hps q (List.mem_cons_of_mem _ hq)]
    simp [instrsOf]

/-- They are pushed out down to what ends them, which is taken. -/
theorem flushUntil_pendingOps {stop : Pending → Bool} {p : Pending} (hp : stop p = true)
    (hops : ∀ o, stop (.op o) = false) (line : Nat) (buffer : List Pending) (ps : List Op)
    (code : Array Instr) : Yard.flushUntil stop line code (pendingOps ps ++ p :: buffer)
      = some (code ++ instrsOf line ps, p, buffer) := by
  induction ps generalizing code with
  | nil => simp [pendingOps, instrsOf, Yard.flushUntil, hp]
  | cons o ps ih =>
    have hbuf : pendingOps (o :: ps) ++ p :: buffer = .op o :: (pendingOps ps ++ p :: buffer) := rfl
    rw [hbuf, Yard.flushUntil]
    simp [hops, ih, instrsOf]

/-- The yard behind an operand, with the operators that the operand has left waiting. -/
def behind (y : Yard) (code : Array Instr) (ps : List Op) (k : Kind) : Yard :=
  { y with
    code := y.code ++ code
    buffer := pendingOps ps ++ y.buffer
    expectOperand := false
    prev := some k }

/-- The yard behind an operator with one operand. -/
def behindUnary (y : Yard) (op : UnaryOp) : Yard :=
  { y with buffer := .op (.unary op) :: y.buffer, prev := some (.oper (unarySign op)) }

/-- The yard behind an operator with two operands and the code of the first. -/
def behindBinary (y : Yard) (code : Array Instr) (op : BinaryOp) : Yard :=
  { y with
    code := y.code ++ code
    buffer := .op (.binary op) :: y.buffer
    expectOperand := true
    prev := some (.oper (binarySign op)) }

/-- The yard behind a left parenthesis. -/
def behindParen (y : Yard) : Yard :=
  { y with buffer := .paren false :: y.buffer, prev := some (.punct .lpar) }

/-- Whether an operand can end in a lexeme of a kind. -/
def EndsOperand (k : Kind) : Prop := k ≠ .punct .comma ∧ k.isOper = false

/-- One lexeme that belongs to the expression. -/
theorem takeAll_succ {s : Source} {b : Bool} {y y' : Yard} {i j : Nat} {t : Token} {w : Work}
    (ht : s.token? i = some t) (htake : take s b y i t w = .ok (some (y', j)) w) (fuel : Nat) :
    takeAll s b (fuel + 1) y i w = takeAll s b fuel y' j w := by
  rw [takeAll, ht]
  exact bind_of_ok htake

section take

variable {s : Source} {b : Bool} {y : Yard} {i : Nat} {w : Work}

theorem emit_operand (y : Yard) (op : Op) (line : Nat) (k : Kind) :
    (y.emit op line).operand k = behind y #[⟨op, line⟩] [] k := by
  simp [behind, Yard.emit, Yard.operand, pendingOps]

theorem take_const (hy : y.expectOperand = true) (c : Constant) :
    take s b y i (.const c) w
      = .ok (some (behind y #[⟨.push c, s.line i⟩] [] (Token.const c).kind, i + 1)) w := by
  rw [← emit_operand, take, if_pos hy]
  rfl

/-- A variable is read if no parenthesis follows its name. -/
theorem take_ident (hy : y.expectOperand = true) {x : String} {v : VarRef}
    (hv : w.findVar x = some (.var v)) (hnext : s.kind? (i + 1) ≠ some (.punct .lpar)) :
    take s b y i (.ident x) w = .ok (some (behind y #[⟨.var v, s.line i⟩] [] .ident, i + 1)) w := by
  have hname : nameOperand s y (.ident x) x i w
      = .ok ((y.emit (.var v) (s.line i)).operand .ident, i + 1) w := by
    simp [nameOperand, hnext, hv, bind, EStateM.bind, get_apply, pure_apply, Token.kind]
  rw [← emit_operand, take, if_pos hy]
  exact bind_of_ok hname

theorem take_unary (hy : y.expectOperand = true) (op : UnaryOp) :
    take s b y i (.oper (unarySign op)) w = .ok (some (behindUnary y op, i + 1)) w := by
  cases op <;> simp [take, operator, unarySign, behindUnary, hy,
    Operator.opcode, bind, EStateM.bind, pure_apply]

/-- An operator pushes out those that bind as strong, and waits for its operand. -/
theorem take_binary (op : BinaryOp) {code : Array Instr} {ps : List Op} {k : Kind}
    (hps : ∀ p ∈ ps, op.priority ≤ p.opcode.priority)
    (hstop : Stops (fun p => !Yard.staysBelow p (.binary op)) y.buffer) :
    take s b (behind y code ps k) i (.oper (binarySign op)) w
      = .ok (some (behindBinary y (code ++ instrsOf (s.line i) ps) op, i + 1)) w := by
  have hout : ∀ p ∈ ps, (!Yard.staysBelow p (.binary op)) = true := by
    intro p hp
    have hlt : ¬ p.opcode.priority < (Op.binary op).opcode.priority := Nat.not_lt.2 (hps p hp)
    rw [Yard.staysBelow, decide_eq_false hlt]
    rfl
  have hflush := flushOps_pendingOps (s.line i) hstop ps hout (y.code ++ code)
  have hop : (binarySign op).opcode = .binary op := by cases op <;> rfl
  simp [take, operator, behind, behindBinary, hop, hflush, bind, EStateM.bind, pure_apply]

theorem take_lpar (hy : y.expectOperand = true) :
    take s b y i (.punct .lpar) w = .ok (some (behindParen y, i + 1)) w := by
  rw [take, if_pos hy]
  rfl

theorem take_rpar {code : Array Instr} {ps : List Op} {k : Kind} (hk : EndsOperand k) :
    take s b (behind (behindParen y) code ps k) i (.punct .rpar) w
      = .ok (some (behind y (code ++ instrsOf (s.line i) ps) [] (.punct .rpar), i + 1)) w := by
  have hflush := flushUntil_pendingOps (p := .paren false) (show isParen _ = true from rfl)
    (fun _ => rfl) (s.line i) y.buffer ps (y.code ++ code)
  simp [take, closeParen, behind, behindParen, hk.1, hflush, bind, EStateM.bind, pure_apply]

end take

/-! ### Whole expressions -/

theorem not_inBrackets {y : Yard} {ps : List Op} (h : y.buffer = pendingOps ps) :
    y.inBrackets = false := by
  rw [Yard.inBrackets, h, pendingOps, List.any_map]
  exact List.any_eq_false.2 fun _ _ => by simp

theorem takeAll_end {s : Source} {b : Bool} {y : Yard} {i : Nat} {w : Work} {t : Token}
    (hi : s.token? i = some t) (htake : take s b y i t w = .ok none w) (fuel : Nat) :
    takeAll s b (fuel + 1) y i w = .ok (y, i) w := by
  rw [takeAll, hi]
  exact bind_of_ok htake

/-- What waits behind a whole tree is let out at its end. -/
theorem finish_behind {s : Source} {i : Nat} {code : Array Instr} {ps : List Op} {k : Kind}
    (hk : EndsOperand k) :
    finish s (behind {} code ps k) i = .ok (code ++ instrsOf (s.line i) ps) := by
  have hhang : (k == .punct .comma || k.isOper) = false := by
    rw [hk.2, Bool.or_false]
    exact beq_false_of_ne hk.1
  have hflush : Yard.flushOps (fun _ => true) (s.line i) code (pendingOps ps ++ [])
      = (code ++ instrsOf (s.line i) ps, []) :=
    flushOps_pendingOps (s.line i) (show Stops (fun _ => true) [] from trivial) ps
      (fun _ _ => rfl) code
  rw [List.append_nil] at hflush
  simp [finish, behind, hhang, hflush]

end Covenant.Structured
