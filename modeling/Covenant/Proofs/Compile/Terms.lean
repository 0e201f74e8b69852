import Covenant.Proofs.Compile.Literals
import Mathlib.Data.List.Basic

/-!
# Compiling terms

A `Term` is an expression without calls: leaves are constants, variables, `$` names and literals,
and operators and index reads stand above them. `Term.Written` gives the tokens a term can be
written with. Parentheses may stand anywhere, and must where the priorities of the operators ask for
them; line ends may stand anywhere inside brackets.

The main statement is `Term.Written.expression`: whatever follows that does not go on with the
expression, the compiler takes just the tokens of the term and emits its postfix code. The operators
wait in a buffer meanwhile. What carries the induction is the strength with which the written term
holds together: the operators it leaves waiting have that priority at least (`Leaves`), and those in
the buffer before it, which have less, stay (`Under`).
-/

namespace Covenant

open Compile Structured Covenant.Computation

/-! ### Terms -/

/-- An expression without calls. -/
inductive Term where
  | leaf (i : Item)
  | unary (op : UnaryOp) (e : Term)
  | binary (op : BinaryOp) (a b : Term)
  | index (container key : Term)

/-- The command that puts an item on the stack. -/
def Item.op : Item → Op
  | const c => .push c
  | var v => .var v
  | extend name => .extendVar name
  | map es => .mapInit es
  | array is => .arrayInit is

namespace Term

/-- The postfix code of a term. -/
def code : Term → List Op
  | leaf i => [i.op]
  | unary op e => e.code ++ [.unary op]
  | binary op a b => a.code ++ (b.code ++ [.binary op])
  | index c k => c.code ++ (k.code ++ [.index])

theorem code_ne_nil (t : Term) : t.code ≠ [] := by
  cases t <;> simp [code]

/-- How strongly a sign in front holds an operand. -/
def signStrength : Nat := 50

/-- How strongly an index holds its container. -/
def indexStrength : Nat := 60

/-- How strongly a leaf or a term in parentheses holds together. -/
def wholeStrength : Nat := 70

/-- The tokens a term can be written with where some blocks are open. `inside` tells whether a
bracket is open, and the strength is that of the outermost operator. An index stands behind no other
index. -/
inductive Written (w : Work) : Bool → Nat → Term → List Token → Prop
  | leaf {inside : Bool} {i : Item} {ts : List Token} : i.Written w ts →
      Written w inside wholeStrength (.leaf i) ts
  | unary {inside : Bool} {n : Nat} {e : Term} {ts : List Token} (op : UnaryOp) : signStrength ≤ n →
      Written w inside n e ts →
      Written w inside signStrength (.unary op e) (.oper (unarySign op) :: ts)
  | binary {inside : Bool} {n k : Nat} {a b : Term} {ts us : List Token} (op : BinaryOp) :
      op.priority ≤ n → op.priority < k → Written w inside n a ts → Written w inside k b us →
      Written w inside op.priority (.binary op a b) (ts ++ .oper (binarySign op) :: us)
  | index {inside : Bool} {n : Nat} {c k : Term} {ts us : List Token} :
      Written w inside wholeStrength c ts → Written w true n k us →
      Written w inside indexStrength (.index c k)
        (ts ++ .punct .lbrack :: (us ++ [.punct .rbrack]))
  | paren {inside : Bool} {n : Nat} {e : Term} {ts : List Token} : Written w true n e ts →
      Written w inside wholeStrength e (.punct .lpar :: (ts ++ [.punct .rpar]))
  | newlineBefore {n : Nat} {e : Term} {ts : List Token} : Written w true n e ts →
      Written w true n e (.newline :: ts)
  | newlineBehind {n : Nat} {e : Term} {ts : List Token} : Written w true n e ts →
      Written w true n e (ts ++ [.newline])

end Term

/-! ### The yard -/

/-- The operators a written term leaves waiting bind at least as strongly as it holds together. -/
def Leaves (ps : List Op) (strength : Nat) : Prop := ∀ p ∈ ps, strength ≤ p.opcode.priority

/-- Whether a written term leaves a buffer alone: an operator on top of it binds less strongly. -/
def Under (buffer : List Pending) (strength : Nat) : Prop :=
  strength < Term.signStrength → ∀ o rest, buffer = .op o :: rest → o.opcode.priority < strength

/-- Whether tokens are cut off from what follows them: it makes no call of a name, no index and no
assignment. -/
structure Detached (ts : List Token) (strength : Nat) (next : Option Kind) : Prop where
  call : next = some (.punct .lpar) → ∀ t ∈ ts.getLast?, t.name? = none
  index : next = some (.punct .lbrack) → strength = Term.wholeStrength
  assign : next = some (.punct .eq) → ts.getLast? ≠ some (.punct .rbrack)

theorem Token.eq_punct {t : Token} {p : Punct} (h : t.kind = .punct p) : t = .punct p := by
  cases t with
  | punct q => rw [Kind.punct.inj h]
  | const c => cases c <;> cases h
  | _ => cases h

theorem Opcode.priority_le (o : Opcode) : o.priority ≤ Term.signStrength := by
  cases o with
  | binary op => cases op <;> decide
  | unary _ => exact Nat.le_refl _
  | _ => exact Nat.zero_le _

theorem BinaryOp.priority_lt (op : BinaryOp) : op.priority < Term.signStrength := by
  cases op <;> decide

/-- Nothing waits behind a term that holds together more strongly than any operator. -/
theorem Leaves.eq_nil {ps : List Op} {n : Nat} (h : Leaves ps n) (hn : Term.signStrength < n) :
    ps = [] := by
  refine List.eq_nil_iff_forall_not_mem.2 fun p hp => ?_
  have := h p hp
  have := p.opcode.priority_le
  omega

/-- The rest of some tokens is detached if all of them are. -/
theorem Detached.of_append {us ts : List Token} {m n : Nat} {next : Option Kind}
    (h : Detached (us ++ ts) m next) (hne : ts ≠ [])
    (hm : m = Term.wholeStrength → n = Term.wholeStrength) : Detached ts n next where
  call hnext := by
    have := h.call hnext
    rwa [List.getLast?_append_of_ne_nil us hne] at this
  index hnext := hm (h.index hnext)
  assign hnext := by
    have := h.assign hnext
    rwa [List.getLast?_append_of_ne_nil us hne] at this

/-- What goes on with an operator, a line end or a right bracket is cut off. -/
theorem Detached.of_next {ts : List Token} {n : Nat} {next : Option Kind}
    (hcall : next ≠ some (.punct .lpar)) (hindex : next ≠ some (.punct .lbrack))
    (hassign : next ≠ some (.punct .eq)) : Detached ts n next where
  call h := absurd h hcall
  index h := absurd h hindex
  assign h := absurd h hassign

/-- The yard behind the bracket of an index. -/
def behindIndex (y : Yard) : Yard :=
  { y with buffer := .index :: y.buffer, expectOperand := true, prev := some (.punct .lbrack) }

theorem behind_behind (y : Yard) (code code' : Array Instr) (k k' : Kind) :
    behind (behind y code [] k) code' [] k' = behind y (code ++ code') [] k' := by
  simp [behind, pendingOps]

theorem inBrackets_behind {y : Yard} (h : y.inBrackets = true) (code : Array Instr) (ps : List Op)
    (k : Kind) : (behind y code ps k).inBrackets = true := by
  rw [Yard.inBrackets, behind, List.any_append]
  exact Bool.or_eq_true_iff.2 (.inr h)

section Take

variable {s : Source} {b : Bool} {y : Yard} {i : Nat} {w : Work}

theorem take_newline (h : y.inBrackets = true) :
    take s b y i .newline w = .ok (some (y, i + 1)) w := by
  simp [take, h, pure_apply]

theorem take_lbrack (hy : y.expectOperand = false) :
    take s b y i (.punct .lbrack) w = .ok (some (behindIndex y, i + 1)) w := by
  rw [take, hy]
  rfl

/-- A bracket closes an index that is not followed by another one. -/
theorem take_rbrack {code : Array Instr} {ps : List Op} {k : Kind}
    (hindex : s.kind? (i + 1) ≠ some (.punct .lbrack))
    (hassign : s.kind? (i + 1) ≠ some (.punct .eq)) :
    take s b (behind (behindIndex y) code ps k) i (.punct .rbrack) w
      = .ok (some (behind y (code ++ instrsOf (s.line i) ps ++ #[⟨.index, s.line i⟩]) []
          (.punct .rbrack), i + 1)) w := by
  have hflush := flushUntil_pendingOps (p := .index) (show isIndex _ = true from rfl)
    (fun _ => rfl) (s.line i) y.buffer ps (y.code ++ code)
  have hclose : closeIndex s (behind (behindIndex y) code ps k) i w
      = .ok (behind y (code ++ instrsOf (s.line i) ps ++ #[⟨.index, s.line i⟩]) []
          (.punct .rbrack), i + 1) w := by
    simp only [closeIndex, behind, behindIndex, hflush]
    simp [Yard.emit, pendingOps, pure_apply]
  rw [take]
  exact bind_of_ok hclose

/-- A name of the environment is read. -/
theorem take_extend (hy : y.expectOperand = true) (x : String)
    (hnext : s.kind? (i + 1) ≠ some (.punct .lpar)) : take s b y i (.extend x) w
      = .ok (some (behind y #[⟨.extendVar x, s.line i⟩] [] .extend, i + 1)) w := by
  have hname : nameOperand s y (.extend x) x i w
      = .ok ((y.emit (.extendVar x) (s.line i)).operand .extend, i + 1) w := by
    simp [nameOperand, hnext, bind, EStateM.bind, pure_apply, Token.kind]
  rw [← emit_operand, take, if_pos hy]
  exact bind_of_ok hname

/-- A name that stands for a field is read from the environment. -/
theorem take_field (hy : y.expectOperand = true) {x key : String}
    (hv : w.findVar x = some (.extend key)) (hnext : s.kind? (i + 1) ≠ some (.punct .lpar)) :
    take s b y i (.ident x) w
      = .ok (some (behind y #[⟨.extendVar key, s.line i⟩] [] .ident, i + 1)) w := by
  have hname : nameOperand s y (.ident x) x i w
      = .ok ((y.emit (.extendVar key) (s.line i)).operand .ident, i + 1) w := by
    simp [nameOperand, hnext, hv, bind, EStateM.bind, get_apply, pure_apply, Token.kind]
  rw [← emit_operand, take, if_pos hy]
  exact bind_of_ok hname

/-- An item is taken at once. -/
theorem Item.Written.take {it : Item} {ts : List Token} (h : it.Written w ts) {rest : List Token}
    (hts : TokensAt s i (ts ++ rest)) (hy : y.expectOperand = true)
    (hcall : s.kind? (i + ts.length) = some (.punct .lpar) → ∀ t ∈ ts.getLast?, t.name? = none)
    (hstart : b = true → y.prev = none → ts.head? ≠ some (.punct .lcurly)) :
    ∃ t k, s.token? i = some t ∧ EndsOperand k ∧ Compile.take s b y i t w
      = .ok (some (behind y #[⟨it.op, s.line i⟩] [] k, i + ts.length)) w := by
  cases h with
  | const c =>
    refine ⟨_, _, hts.token?, ?_, take_const hy c⟩
    cases c <;> exact ⟨by simp [Token.kind], rfl⟩
  | extend name =>
    have hnext : s.kind? (i + 1) ≠ some (.punct .lpar) := fun h => by cases hcall h _ rfl
    exact ⟨_, _, hts.token?, ⟨by simp, rfl⟩, take_extend hy name hnext⟩
  | @var x v hv =>
    have hnext : s.kind? (i + 1) ≠ some (.punct .lpar) := fun h => by cases hcall h _ rfl
    exact ⟨_, _, hts.token?, ⟨by simp, rfl⟩, take_ident hy hv hnext⟩
  | @field x key hv =>
    have hnext : s.kind? (i + 1) ≠ some (.punct .lpar) := fun h => by cases hcall h _ rfl
    exact ⟨_, _, hts.token?, ⟨by simp, rfl⟩, take_field hy hv hnext⟩
  | @map es us h =>
    refine ⟨_, .punct .rcurly, hts.token?, ⟨by simp, rfl⟩, ?_⟩
    -- the brace is not one that opens a block behind the expression
    have hopen : (!y.expectOperand || (b && y.prev.isNone)) = false := by
      rw [hy, Bool.not_true, Bool.false_or, Bool.and_eq_false_iff]
      by_cases hb : b = true
      · right
        cases hp : y.prev with
        | none => exact absurd rfl (hstart hb hp)
        | some k => rfl
      · exact .inl (Bool.eq_false_iff.2 hb)
    have hread := (Item.Written.map h).read_map hts
    rw [← emit_operand]
    simp [Compile.take, hopen, hread, bind, EStateM.bind, get_apply, pure_apply, liftM, monadLift,
      MonadLift.monadLift, Item.op]
  | @array is us h =>
    have hread := (Item.Written.array h).read_array hts
    refine ⟨_, .punct .rbrack, hts.token?, ⟨by simp, rfl⟩, ?_⟩
    rw [← emit_operand]
    simp [Compile.take, hy, hread, bind, EStateM.bind, get_apply, pure_apply, liftM, monadLift,
      MonadLift.monadLift, Item.op]

end Take

/-! ### Operands in the yard -/

/-- Whether the lexemes between two positions take a yard behind the operand that a term is: its
code is let out up to some operators, which wait on top of what the buffer held before. -/
def Absorbs (s : Source) (b : Bool) (w : Work) (y : Yard) (i j strength : Nat) (e : Term) : Prop :=
  ∃ code ps k used, opsOf code ++ ps = e.code ∧ Leaves ps strength ∧ EndsOperand k ∧ i + used ≤ j ∧
    ∀ fuel, takeAll s b (fuel + used) y i w = takeAll s b fuel (behind y code ps k) j w

namespace Absorbs

variable {s : Source} {b : Bool} {w : Work} {y : Yard} {i j l n k : Nat} {e c : Term}

/-- An operand that needs no brackets is absorbed. -/
theorem leaf {it : Item} {ts rest : List Token} (h : it.Written w ts)
    (hts : TokensAt s i (ts ++ rest)) (hy : y.expectOperand = true)
    (hcall : s.kind? (i + ts.length) = some (.punct .lpar) → ∀ t ∈ ts.getLast?, t.name? = none)
    (hstart : b = true → y.prev = none → ts.head? ≠ some (.punct .lcurly)) :
    Absorbs s b w y i (i + ts.length) n (.leaf it) := by
  obtain ⟨t, k, ht, hk, htake⟩ := h.take hts hy hcall hstart
  have hlen : 1 ≤ ts.length := by
    obtain ⟨t, us, rfl, -⟩ := h.starts
    exact Nat.succ_le_succ (Nat.zero_le _)
  exact ⟨_, [], k, 1, rfl, nofun, hk, Nat.add_le_add_left hlen i, takeAll_succ ht htake⟩

/-- So is an operand behind a sign. -/
theorem unary {op : UnaryOp} (ht : s.token? i = some (.oper (unarySign op)))
    (hy : y.expectOperand = true) (hn : Term.signStrength ≤ n)
    (h : Absorbs s b w (behindUnary y op) (i + 1) j n e) :
    Absorbs s b w y i j Term.signStrength (.unary op e) := by
  obtain ⟨code, ps, k, used, hcode, hps, hk, hused, htake⟩ := h
  refine ⟨code, ps ++ [.unary op], k, used + 1, by rw [← List.append_assoc, hcode]; rfl, ?_, hk,
    by omega, fun fuel => ?_⟩
  · intro p hp
    rcases List.mem_append.1 hp with hp | hp
    · exact Nat.le_trans hn (hps p hp)
    · rw [List.mem_singleton.1 hp]
      exact Nat.le_refl Term.signStrength
  · rw [← Nat.add_assoc, takeAll_succ ht (take_unary hy op), htake]
    simp [behind, behindUnary, pendingOps]

/-- The operators of the left operand go out in front of one that binds no more strongly, and those
below that bind less strongly stay. -/
theorem binary {op : BinaryOp} (he : Absorbs s b w y i j n e)
    (ht : s.token? j = some (.oper (binarySign op))) (hn : op.priority ≤ n) (hk : op.priority < k)
    (hunder : Under y.buffer op.priority)
    (hc : ∀ code, Absorbs s b w (behindBinary y code op) (j + 1) l k c) :
    Absorbs s b w y i l op.priority (.binary op e c) := by
  obtain ⟨code₁, ps₁, k₁, used₁, hcode₁, hps₁, -, hused₁, htake₁⟩ := he
  obtain ⟨code₂, ps₂, k₂, used₂, hcode₂, hps₂, hk₂, hused₂, htake₂⟩ :=
    hc (code₁ ++ instrsOf (s.line j) ps₁)
  -- what waits below binds less strong, so it stays
  have hstops : Stops (fun p => !Yard.staysBelow p (.binary op)) y.buffer := by
    cases hbuf : y.buffer with
    | nil => trivial
    | cons p rest =>
      cases p with
      | op o =>
        have hlt : o.opcode.priority < (Op.binary op).opcode.priority :=
          hunder op.priority_lt o rest hbuf
        show (!Yard.staysBelow o (.binary op)) = false
        rw [Yard.staysBelow, decide_eq_true hlt]
        rfl
      | _ => trivial
  -- and all that the left operand has left waiting goes out
  have hout : ∀ p ∈ ps₁, op.priority ≤ p.opcode.priority := fun p hp => Nat.le_trans hn (hps₁ p hp)
  refine ⟨code₁ ++ instrsOf (s.line j) ps₁ ++ code₂, ps₂ ++ [.binary op], k₂, used₁ + 1 + used₂, ?_,
    ?_, hk₂, by omega, fun fuel => ?_⟩
  · rw [Term.code, ← hcode₁, ← hcode₂]
    simp
  · intro p hp
    rcases List.mem_append.1 hp with hp | hp
    · exact Nat.le_trans (Nat.le_of_lt hk) (hps₂ p hp)
    · rw [List.mem_singleton.1 hp]
      exact Nat.le_refl _
  · rw [show fuel + (used₁ + 1 + used₂) = fuel + used₂ + 1 + used₁ by omega, htake₁,
      takeAll_succ ht (take_binary op hout hstops), htake₂]
    simp [behind, behindBinary, pendingOps]

/-- So is an element of an operand. -/
theorem index (he : Absorbs s b w y i j Term.wholeStrength e)
    (hl : s.token? j = some (.punct .lbrack))
    (hc : ∀ code k', Absorbs s b w (behindIndex (behind y code [] k')) (j + 1) l k c)
    (hr : s.token? l = some (.punct .rbrack)) (hindex : s.kind? (l + 1) ≠ some (.punct .lbrack))
    (hassign : s.kind? (l + 1) ≠ some (.punct .eq)) :
    Absorbs s b w y i (l + 1) Term.indexStrength (.index e c) := by
  obtain ⟨code₁, ps₁, k₁, used₁, hcode₁, hps₁, -, hused₁, htake₁⟩ := he
  obtain rfl := hps₁.eq_nil (by decide)
  obtain ⟨code₂, ps₂, k₂, used₂, hcode₂, -, hk₂, hused₂, htake₂⟩ := hc code₁ k₁
  refine ⟨code₁ ++ (code₂ ++ instrsOf (s.line l) ps₂ ++ #[⟨.index, s.line l⟩]), [], .punct .rbrack,
    used₁ + 1 + used₂ + 1, ?_, nofun, ⟨by simp, rfl⟩, by omega, fun fuel => ?_⟩
  · rw [Term.code, ← hcode₁, ← hcode₂]
    simp
  · rw [show fuel + (used₁ + 1 + used₂ + 1) = fuel + 1 + used₂ + 1 + used₁ by omega, htake₁,
      takeAll_succ hl (take_lbrack rfl), htake₂, takeAll_succ hr (take_rbrack hindex hassign),
      behind_behind]

/-- So is what stands in parentheses. -/
theorem paren (hl : s.token? i = some (.punct .lpar)) (hy : y.expectOperand = true)
    (h : Absorbs s b w (behindParen y) (i + 1) j n e) (hr : s.token? j = some (.punct .rpar)) :
    Absorbs s b w y i (j + 1) Term.wholeStrength e := by
  obtain ⟨code, ps, k, used, hcode, -, hk, hused, htake⟩ := h
  refine ⟨code ++ instrsOf (s.line j) ps, [], .punct .rpar, used + 2, by simpa using hcode, nofun,
    ⟨by simp, rfl⟩, by omega, fun fuel => ?_⟩
  rw [show fuel + (used + 2) = fuel + 1 + used + 1 by omega, takeAll_succ hl (take_lpar hy), htake,
    takeAll_succ hr (take_rpar hk)]

theorem newlineBefore (ht : s.token? i = some .newline) (hin : y.inBrackets = true)
    (h : Absorbs s b w y (i + 1) j n e) : Absorbs s b w y i j n e := by
  obtain ⟨code, ps, k, used, hcode, hps, hk, hused, htake⟩ := h
  refine ⟨code, ps, k, used + 1, hcode, hps, hk, by omega, fun fuel => ?_⟩
  rw [← Nat.add_assoc, takeAll_succ ht (take_newline hin), htake]

theorem newlineBehind (ht : s.token? j = some .newline) (hin : y.inBrackets = true)
    (h : Absorbs s b w y i j n e) : Absorbs s b w y i (j + 1) n e := by
  obtain ⟨code, ps, k, used, hcode, hps, hk, hused, htake⟩ := h
  refine ⟨code, ps, k, used + 1, hcode, hps, hk, by omega, fun fuel => ?_⟩
  rw [show fuel + (used + 1) = fuel + 1 + used by omega, htake,
    takeAll_succ ht (take_newline (inBrackets_behind hin code ps k))]

end Absorbs

/-! ### Written terms -/

namespace Term

/-- A term is written with at least one token. -/
theorem Written.ne_nil {w : Work} {inside : Bool} {n : Nat} {e : Term} {ts : List Token}
    (h : e.Written w inside n ts) : ts ≠ [] := by
  cases h with
  | leaf h =>
    obtain ⟨t, rest, rfl, -⟩ := h.starts
    exact List.cons_ne_nil _ _
  | newlineBehind => simp
  | binary => simp
  | index => simp
  | _ => exact List.cons_ne_nil _ _

/-- **The tokens of a term are taken as the operand that the term is.** -/
theorem Written.absorbs {s : Source} {w : Work} {inside b : Bool} {n : Nat} {e : Term}
    {ts : List Token} (h : e.Written w inside n ts) {i : Nat} {rest : List Token}
    (hts : TokensAt s i (ts ++ rest)) (hcut : Detached ts n (s.kind? (i + ts.length))) {y : Yard}
    (hy : y.expectOperand = true) (hunder : Under y.buffer n)
    (hinside : inside = true → y.inBrackets = true ∧ y.prev ≠ none)
    (hstart : b = true → y.prev = none → ts.head? ≠ some (.punct .lcurly)) :
    Absorbs s b w y i (i + ts.length) n e := by
  -- The operand inside of a term is taken by the yard that the term's own first tokens leave.
  induction h generalizing i rest y with
  | leaf h => exact .leaf h hts hy hcut.call hstart
  | @unary inside n e ts op hn h ih =>
    have hpos : i + 1 + ts.length = i + (ts.length + 1) := by omega
    rw [List.length_cons, ← hpos] at hcut ⊢
    have hcut' : Detached ts n (s.kind? (i + 1 + ts.length)) :=
      (show Detached ([.oper (unarySign op)] ++ ts) _ _ from hcut).of_append h.ne_nil
        fun h => absurd h (by decide)
    refine .unary hts.token? hy hn
      (ih hts.next hcut' hy (fun hlt => absurd hn (Nat.not_le.2 hlt)) ?_
      fun _ hp => by simp [behindUnary] at hp)
    intro hin
    exact ⟨by simpa [Yard.inBrackets, behindUnary] using (hinside hin).1, by simp [behindUnary]⟩
  | @binary inside n k a c ts us op hn hk ha hc iha ihc =>
    have hpos : i + ts.length + 1 + us.length = i + (ts ++ .oper (binarySign op) :: us).length := by
      rw [List.length_append, List.length_cons]
      omega
    rw [← hpos] at hcut ⊢
    rw [List.append_assoc, List.cons_append] at hts
    have hoper := hts.skip
    have hcuta : Detached ts n (s.kind? (i + ts.length)) := by
      rw [hoper.kind?]
      exact .of_next (by simp [Token.kind]) (by simp [Token.kind]) (by simp [Token.kind])
    have hundera : Under y.buffer n := fun _ o tail hbuf =>
      Nat.lt_of_lt_of_le (hunder op.priority_lt o tail hbuf) hn
    have hcutc : Detached us k (s.kind? (i + ts.length + 1 + us.length)) := by
      rw [List.append_cons] at hcut
      refine hcut.of_append hc.ne_nil fun h => ?_
      have := op.priority_lt
      rw [h] at this
      exact absurd this (by decide)
    have hstarta : b = true → y.prev = none → ts.head? ≠ some (.punct .lcurly) := by
      intro hb hp
      rw [← List.head?_append_of_ne_nil _ ha.ne_nil]
      exact hstart hb hp
    refine .binary (iha hts hcuta hy hundera hinside hstarta) hoper.token? hn hk hunder fun code =>
      ihc hoper.next hcutc rfl ?_ ?_ fun _ hp => by simp [behindBinary] at hp
    · intro _ o tail hbuf
      obtain ⟨rfl, -⟩ : Op.binary op = o ∧ y.buffer = tail := by simpa [behindBinary] using hbuf
      exact hk
    · intro hin
      exact ⟨by simpa [Yard.inBrackets, behindBinary] using (hinside hin).1, by simp [behindBinary]⟩
  | @index inside n c k ts us hc hk ihc ihk =>
    have hpos : i + (ts ++ Token.punct .lbrack :: (us ++ [Token.punct .rbrack])).length
        = i + ts.length + 1 + us.length + 1 := by
      simp only [List.length_append, List.length_cons, List.length_nil]
      omega
    rw [hpos] at hcut ⊢
    rw [List.append_assoc, List.cons_append, List.append_assoc] at hts
    have hopen := hts.skip
    have hclose := hopen.next.skip
    have hcutc : Detached ts wholeStrength (s.kind? (i + ts.length)) := by
      rw [hopen.kind?]
      exact ⟨fun h => (by cases h), fun _ => rfl, fun h => (by cases h)⟩
    have hcutk : Detached us n (s.kind? (i + ts.length + 1 + us.length)) := by
      rw [hclose.kind?]
      exact .of_next (by simp [Token.kind]) (by simp [Token.kind]) (by simp [Token.kind])
    have hstartc : b = true → y.prev = none → ts.head? ≠ some (.punct .lcurly) := by
      intro hb hp
      rw [← List.head?_append_of_ne_nil _ hc.ne_nil]
      exact hstart hb hp
    refine .index (ihc hts hcutc hy (fun hlt => absurd hlt (by decide)) hinside hstartc)
      hopen.token?
      (fun code k' => ihk hopen.next hcutk rfl (fun _ o tail hbuf => by
        simp [behindIndex] at hbuf) ?_
        fun _ hp => by simp [behindIndex] at hp) hclose.token?
      (fun h => absurd (hcut.index h) (by decide)) fun h => hcut.assign h ?_
    · exact fun _ => ⟨by simp [Yard.inBrackets, behindIndex], by simp [behindIndex]⟩
    · rw [← List.cons_append, ← List.append_assoc]
      exact List.getLast?_concat
  | @paren inside n e ts h ih =>
    have hpos : i + 1 + ts.length + 1 = i + (ts.length + 1 + 1) := by omega
    rw [List.cons_append, List.append_assoc] at hts
    have hclose := hts.next.skip
    have hcut' : Detached ts n (s.kind? (i + 1 + ts.length)) := by
      rw [hclose.kind?]
      exact .of_next (by simp [Token.kind]) (by simp [Token.kind]) (by simp [Token.kind])
    rw [List.length_cons, List.length_append, List.length_singleton, ← hpos]
    refine .paren hts.token? hy
      (ih hts.next hcut' hy (fun _ o tail hbuf => by simp [behindParen] at hbuf)
      ?_ fun _ hp => by simp [behindParen] at hp) hclose.token?
    exact fun _ => ⟨by simp [Yard.inBrackets, behindParen], by simp [behindParen]⟩
  | @newlineBefore n e ts h ih =>
    have hpos : i + 1 + ts.length = i + (ts.length + 1) := by omega
    rw [List.length_cons, ← hpos] at hcut ⊢
    have hcut' : Detached ts n (s.kind? (i + 1 + ts.length)) :=
      (show Detached ([.newline] ++ ts) _ _ from hcut).of_append h.ne_nil id
    exact .newlineBefore hts.token? (hinside rfl).1 (ih hts.next hcut' hy hunder hinside
      fun _ hp => absurd hp (hinside rfl).2)
  | @newlineBehind n e ts h ih =>
    rw [List.append_assoc] at hts
    have hnewline := hts.skip
    have hcut' : Detached ts n (s.kind? (i + ts.length)) := by
      rw [hnewline.kind?]
      exact .of_next (by simp [Token.kind]) (by simp [Token.kind]) (by simp [Token.kind])
    rw [List.length_append, List.length_singleton, ← Nat.add_assoc]
    exact .newlineBehind hnewline.token? (hinside rfl).1 (ih hts hcut' hy hunder hinside
      fun _ hp => absurd hp (hinside rfl).2)

end Term

/-! ### Whole terms -/

/-- Whether an expression that has its last operand can end before a token. -/
def stopsBefore : Token → Bool
  | .oper _ | .keyword .tail => false
  | .punct p => p ∉ [.comma, .rpar, .lbrack, .rbrack]
  | _ => true

/-- A token that no expression goes on with is not taken. -/
theorem take_stop {s : Source} {b : Bool} {y : Yard} {i : Nat} {w : Work} {t : Token}
    (ht : stopsBefore t = true) (hy : y.expectOperand = false) (hb : y.inBrackets = false) :
    take s b y i t w = .ok none w := by
  cases t with
  | newline => simp [take, hb, pure_apply]
  | punct p => cases p <;> first | exact absurd ht (by decide) | simp [take, hy, pure_apply]
  | keyword k => cases k <;> first | exact absurd ht (by decide) | rfl
  | oper o => exact absurd ht (by simp [stopsBefore])
  | _ => simp [take, hy, pure_apply]

/-- There the expression ends. -/
theorem takeAll_stop {s : Source} {b : Bool} {y : Yard} {i fuel : Nat}
    {w : Work} {rest : List Token} (hts : TokensAt s i rest) (hfuel : rest.length ≤ fuel)
    (hrest : ∀ t ∈ rest.head?, stopsBefore t = true) (hy : y.expectOperand = false)
    (hb : y.inBrackets = false) :
    takeAll s b fuel y i w = .ok (y, i) w := by
  cases rest with
  | nil => cases fuel <;> (rw [takeAll, hts.token?_nil]; rfl)
  | cons t rest =>
    obtain ⟨fuel, rfl⟩ : ∃ n, fuel = n + 1 := ⟨fuel - 1, by rw [List.length_cons] at hfuel; omega⟩
    exact takeAll_end hts.token? (take_stop (hrest t rfl) hy hb) fuel

/-- An expression is compiled when its lexemes have been taken up to one that does not go on with
it. -/
theorem expression_of_takeAll {s : Source} {b : Bool} {w : Work} {i used : Nat} {code : Array Instr}
    {ps : List Op} {k : Kind} {ts rest : List Token}
    (htake : ∀ fuel, takeAll s b (fuel + used) {} i w
      = takeAll s b fuel (behind {} code ps k) (i + ts.length) w)
    (hk : EndsOperand k) (hused : used ≤ ts.length) (hts : TokensAt s i (ts ++ rest))
    (hrest : ∀ t ∈ rest.head?, stopsBefore t = true) :
    Compile.expression s b i w = .ok (i + ts.length) (w.modifyTop fun b =>
      { b with code := b.code ++ (code ++ instrsOf (s.line (i + ts.length)) ps) }) := by
  have hsize := hts.length
  rw [List.length_append] at hsize
  obtain ⟨fuel, hfuel⟩ : ∃ f, s.lexemes.size - i = f + used := ⟨s.lexemes.size - i - used, by omega⟩
  have hall : takeAll s b (s.lexemes.size - i) {} i w
      = .ok (behind {} code ps k, i + ts.length) w := by
    rw [hfuel, htake]
    exact takeAll_stop hts.skip (by omega) hrest rfl (not_inBrackets (List.append_nil _))
  simp [Compile.expression, hall, finish_behind hk, bind, EStateM.bind, pure_apply, modify_apply,
    liftM, monadLift, MonadLift.monadLift]

/-- **The tokens of a term compile to its postfix code.** They are taken all and no others, if what
follows does not go on with the expression. Where a block follows, a map that comes first has to
stand in parentheses. -/
theorem Term.Written.expression {s : Source} {w : Work} {b : Bool} {n : Nat}
    {e : Term} {ts : List Token} (h : e.Written w false n ts) {i : Nat} {rest : List Token}
    (hts : TokensAt s i (ts ++ rest)) (hrest : ∀ t ∈ rest.head?, stopsBefore t = true)
    (hcall : rest.head? = some (.punct .lpar) → ∀ t ∈ ts.getLast?, t.name? = none)
    (hassign : rest.head? = some (.punct .eq) → ts.getLast? ≠ some (.punct .rbrack))
    (hstart : b = true → ts.head? ≠ some (.punct .lcurly)) :
    ∃ code, opsOf code = e.code ∧ Compile.expression s b i w
      = .ok (i + ts.length) (w.modifyTop fun b => { b with code := b.code ++ code }) := by
  have hend := hts.skip
  have hcut : Detached ts n (s.kind? (i + ts.length)) := by
    cases rest with
    | nil =>
      rw [hend.kind?_nil]
      exact .of_next nofun nofun nofun
    | cons t rest =>
      rw [hend.kind?]
      refine ⟨fun h => ?_, fun h => ?_, fun h => ?_⟩
      · exact hcall (by rw [List.head?_cons, Token.eq_punct (Option.some.inj h)])
      · rw [Token.eq_punct (Option.some.inj h)] at hrest
        exact absurd (hrest _ rfl) (by decide)
      · exact hassign (by rw [List.head?_cons, Token.eq_punct (Option.some.inj h)])
  obtain ⟨code, ps, k, used, hcode, -, hk, hused, htake⟩ :=
    h.absorbs (b := b) hts hcut (y := {}) rfl (fun _ o rest hbuf => by cases hbuf) nofun
      fun hb _ => hstart hb
  exact ⟨_, by simpa using hcode, expression_of_takeAll htake hk (by omega) hts hrest⟩

end Covenant
