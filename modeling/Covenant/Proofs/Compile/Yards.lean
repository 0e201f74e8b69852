import Covenant.Proofs.Compile.Balance
import Covenant.Proofs.Compile.Heights

/-!
# Accepted expressions climb

The code of an expression that compiles takes nothing from below the height where it begins, and
leaves one value for each of the expressions that commas separate outside of brackets, none for an
assignment to an element (`climbs_expression`).

The checks of the compiler are not enough for that. An expression can have an empty group, a comma
in a group or an index, or a second assignment, and an assignment can lack its value; and a call
with segments but without arguments goes without the operand that collects its segments where the
instruction before happens to collect one. An expression without these slips is `Compile.clean`.

The invariant is `Yard.Stands`: the height that the code has reached is the number of expressions
that are read, two for the container and the key of an assignment, what is piled up in the buffer,
and the operand that has just been read, if one has.
-/

namespace Covenant.Compile

open Covenant.Computation Structured

/-! ### Slips -/

/-- Whether the group that a right parenthesis closes has nothing in it. -/
def Yard.closesEmptyGroup (y : Yard) : Bool :=
  y.prev == some (.punct .lpar) && match y.buffer with
    | .paren false :: _ => true
    | _ => false

/-- Whether the arguments that a right parenthesis closes are those of a call with segments, in
front of which no operand is put that collects them. -/
def Yard.skipsPlaceholder (s : Source) (w : Work) (y : Yard) (i : Nat) : Bool :=
  match Yard.flushUntil isParen (s.line i) y.code y.buffer with
  | some (code, .paren true, .call c :: _) =>
    c.count.isNone && (segmentsOf w c).isSome && endsInSegment { y with code := code }
  | _ => false

/-- Whether a comma stands directly in a group or an index. -/
def Yard.straysComma (y : Yard) : Bool :=
  match y.buffer.find? Pending.isBracket with
  | none | some (.paren true) => false
  | some _ => true

/-- Whether a right bracket is followed by the sign of an assignment and one has been there
already. -/
def Yard.assignsAgain (s : Source) (y : Yard) (i : Nat) : Bool :=
  y.setIndex && s.kind? (i + 1) == some (.punct .eq) &&
    match Yard.flushUntil isIndex (s.line i) y.code y.buffer with
    | some (_, _, []) => true
    | _ => false

/-- Whether the compiler accepts a token that it should not accept. -/
def Yard.slips (s : Source) (w : Work) (y : Yard) (i : Nat) : Token → Bool
  | .punct .rpar => y.closesEmptyGroup || y.skipsPlaceholder s w i
  | .punct .comma => y.straysComma
  | .punct .rbrack => y.assignsAgain s i
  | _ => false

/-- Whether an assignment lacks its value at the end. -/
def Yard.lacksValue (y : Yard) : Bool := y.setIndex && y.expectOperand

/-- Whether the rest of an expression is read without a slip. -/
def clean (s : Source) (blockFollows : Bool) : Nat → Yard → Nat → Work → Bool
  | 0, y, _, _ => !y.lacksValue
  | fuel + 1, y, i, w =>
    match s.token? i with
    | none => !y.lacksValue
    | some t => !y.slips s w i t &&
      match take s blockFollows y i t w with
      | .ok none _ => !y.lacksValue
      | .ok (some (y', next)) w' => clean s blockFollows fuel y' next w'
      | .error _ _ => true

/-! ### What is known of an expression under way -/

/-- What a caller has to know of the functions of a work. -/
def Work.callShapes (w : Work) (id : BlockId) : Option CallShape := (w.block id).callShape?

/-- Whether the innermost open block of a work has the code that it has in another one, and calls
take what is known of them. -/
structure Steady (shapes : BlockId → Option CallShape) (w₀ w : Work) : Prop where
  shapes : w.callShapes = shapes
  top : w.top = w₀.top
  size : w.arena.size = w₀.arena.size
  code : (w.block w₀.top).code = (w₀.block w₀.top).code

/-- What has been read of an expression: how many brackets are open, and how many commas and signs
of an assignment stand outside of them. -/
structure Scanned (s : Source) (start i d commas assigns : Nat) : Prop where
  le : start ≤ i
  opened : openAfter 0 (s.tokens start i) = d
  commas : outside .comma 0 (s.tokens start i) = commas
  assigns : outside .eq 0 (s.tokens start i) = assigns

/-- Whether a token at the end cannot be that of an expression. -/
def Kind.hangs (k : Kind) : Bool := k == .punct .comma || k.isOper

/-- What is known of an expression under way: `t` of the expressions that commas separate are read,
and `h` operands belong to what is pending. -/
structure Yard.Stands (shapes : BlockId → Option CallShape) (s : Source) (start i : Nat) (y : Yard)
    (t h : Nat) : Prop where
  scanned : Scanned s start i (brackets y.buffer) t (if y.setIndex then 1 else 0)
  piled : Piled shapes i y.buffer y.counts h
  climbs : Climbs shapes 0 (opsOf y.code)
    (t + (if y.setIndex then 2 else 0) + h + if y.expectOperand then 0 else 1)
  /-- Directly behind a left parenthesis nothing has been read inside of it. -/
  fresh : y.prev = some (.punct .lpar) → y.expectOperand = true ∧
    ((∃ buffer, y.buffer = .paren false :: buffer) ∨
      ∃ buffer counts, y.buffer = .paren true :: buffer ∧ y.counts = 0 :: counts)
  /-- At the beginning nothing has been read. -/
  reads : i = start → y = {}
  /-- Where an operand is expected there is a reason. -/
  waits : y.expectOperand = true → y.setIndex = true ∨ y.prev.any Kind.hangs = true ∨
    0 < brackets y.buffer ∨ i = start

/-- What a step leaves of an expression under way. -/
def Advances (shapes : BlockId → Option CallShape) (w₀ : Work) (s : Source)
    (start : Nat) (r : Yard × Nat) (w : Work) : Prop :=
  Steady shapes w₀ w ∧ ∃ t h, r.1.Stands shapes s start r.2 t h

section

variable {shapes : BlockId → Option CallShape} {s : Source} {w₀ w w' : Work} {y : Yard}
  {start i j d t h e : Nat} {tok : Token}

namespace Scanned

/-- One more lexeme changes the depth, and counts if it is a comma or an equals sign outside of
brackets. -/
theorem token (hs : Scanned s start i d t e) (htok : s.token? i = some tok) :
    Scanned s start (i + 1) (openBehind d tok) (t + if d = 0 ∧
      tok.kind = .punct .comma then 1 else 0)
      (e + if d = 0 ∧ tok.kind = .punct .eq then 1 else 0) := by
  have htokens := Source.tokens_succ htok hs.le
  refine ⟨Nat.le_succ_of_le hs.le, ?_, ?_, ?_⟩
  · rw [htokens, openAfter_append, hs.opened]
    rfl
  · rw [htokens, outside_append, hs.commas, hs.opened, outside, outside, Nat.zero_add]
  · rw [htokens, outside_append, hs.assigns, hs.opened, outside, outside, Nat.zero_add]

theorem later (hs : Scanned s start i d t e) (hij : i < j) {P : Prop} (h : j = start) : P :=
  absurd h (Nat.ne_of_gt (Nat.lt_of_le_of_lt hs.le hij))

/-- A token that is neither a comma nor the sign of an assignment. -/
theorem plain (hs : Scanned s start i d t e) (htok : s.token? i = some tok)
    (hkind : tok.kind ≠ .punct .comma ∧ tok.kind ≠ .punct .eq) :
    Scanned s start (i + 1) (openBehind d tok) t e := by
  have h := hs.token htok
  rwa [if_neg fun h => hkind.1 h.2, if_neg fun h => hkind.2 h.2] at h

theorem comma (hs : Scanned s start i d t e) (htok : s.token? i = some (.punct .comma)) :
    Scanned s start (i + 1) d (t + if d = 0 then 1 else 0) e := by
  simpa [Token.kind, openBehind] using hs.token htok

theorem assign (hs : Scanned s start i 0 t e) (htok : s.token? i = some (.punct .eq)) :
    Scanned s start (i + 1) 0 t (e + 1) := by
  simpa [Token.kind, openBehind] using hs.token htok

theorem enclosed (hs : Scanned s start i d t e) (h : s.Enclosed i j) : Scanned s start j d t e := by
  obtain ⟨hij, h⟩ := h
  have htokens := Source.tokens_append (s := s) hs.le (Nat.le_of_lt hij)
  refine ⟨Nat.le_trans hs.le (Nat.le_of_lt hij), ?_, ?_, ?_⟩
  · rw [htokens, openAfter_append, hs.opened, (h d).1]
  · rw [htokens, outside_append, hs.commas, hs.opened, (h d).2 _ (.inl rfl), Nat.add_zero]
  · rw [htokens, outside_append, hs.assigns, hs.opened, (h d).2 _ (.inr rfl), Nat.add_zero]

end Scanned

/-! ### The functions that are called -/

theorem callShape?_setWritable (b : Block) : b.setWritable.callShape? = b.callShape? := by
  obtain ⟨_, info, _, _, _, _⟩ := b
  cases info <;> rfl

theorem code_setWritable (b : Block) : b.setWritable.code = b.code := by
  obtain ⟨_, info, _, _, _, _⟩ := b
  cases info <;> rfl

theorem code_noted (contract : String) (b : Block) : (noted contract b).code = b.code := by
  obtain ⟨_, info, _, _, _, _⟩ := b
  cases info <;> rfl

theorem callShape?_noted (contract : String) (b : Block) :
    (noted contract b).callShape? = b.callShape? := by
  obtain ⟨_, info, _, _, _, _⟩ := b
  cases info <;> rfl

namespace Steady

/-- A mark changes no shape of a call. -/
theorem setWritable (hw : Steady shapes w₀ w) : Steady shapes w₀ w.setWritable where
  shapes := by
    rw [← hw.shapes]
    funext id
    rw [Work.callShapes, Work.block_setWritable]
    split
    · exact callShape?_setWritable _
    · rfl
  top := w.top_setWritable.trans hw.top
  size := w.size_setWritable.trans hw.size
  code := by
    rw [Work.block_setWritable, ← hw.code]
    split
    · exact code_setWritable _
    · rfl

/-- Nor does a noted use. -/
theorem noteUse (hw : Steady shapes w₀ w) (contract : String) :
    Steady shapes w₀ (w.noteUse contract) where
  shapes := by
    rw [← hw.shapes]
    funext id
    rw [Work.callShapes, Work.block_noteUse]
    split
    · exact callShape?_noted contract _
    · rfl
  top := (w.top_noteUse contract).trans hw.top
  size := (w.size_noteUse contract).trans hw.size
  code := by
    rw [Work.block_noteUse, ← hw.code]
    split
    · exact code_noted contract _
    · rfl

end Steady

/-! ### Steps of the yard -/

namespace Yard

/-- An open bracket counts. -/
theorem brackets_pos {buffer : List Pending} (h : buffer.any Pending.isBracket = true) :
    0 < brackets buffer := by
  induction buffer with
  | nil => cases h
  | cons p buffer ih =>
    rw [List.any_cons, Bool.or_eq_true] at h
    rw [brackets]
    rcases h with h | h
    · rw [if_pos h]
      exact Nat.succ_pos _
    · exact Nat.lt_of_lt_of_le (ih h) (Nat.le_add_right ..)

/-- Without one there is none to count. -/
theorem brackets_eq_zero {buffer : List Pending} (h : buffer.find? Pending.isBracket = none) :
    brackets buffer = 0 := by
  induction buffer with
  | nil => rfl
  | cons p buffer ih =>
    rw [List.find?_cons] at h
    split at h
    · cases h
    · rename_i hp
      rw [brackets, ih h, hp]
      rfl

theorem any_isBracket (y : Yard) : y.buffer.any Pending.isBracket = y.inBrackets :=
  congrArg y.buffer.any (funext fun p => by cases p <;> rfl)

namespace Stands

/-- A line end inside of brackets. -/
theorem newline (hy : y.Stands shapes s start i t h) (htok : s.token? i = some .newline)
    (hin : y.inBrackets = true) : y.Stands shapes s start (i + 1) t h where
  scanned := hy.scanned.plain htok ⟨nofun, nofun⟩
  piled := hy.piled.mono (Nat.le_succ i)
  climbs := hy.climbs
  fresh := hy.fresh
  reads := hy.scanned.later (Nat.lt_succ_self i)
  waits _ := .inr (.inr (.inl (brackets_pos (y.any_isBracket.trans hin))))

/-- An operand that is let out at once. -/
theorem operand (hy : y.Stands shapes s start i t h) (hexpect : y.expectOperand = true) {op : Op}
    (hop : op.trade? = some (0, 1)) (line : Nat) {k : Kind} (hk : k ≠ .punct .lpar) (hij : i < j)
    (hscanned : Scanned s start j (brackets y.buffer) t (if y.setIndex then 1 else 0)) :
    ((y.emit op line).operand k).Stands shapes s start j t h where
  scanned := hscanned
  piled := hy.piled.mono (Nat.le_of_lt hij)
  climbs := by
    have hclimbs := hy.climbs
    rw [hexpect] at hclimbs
    have := hclimbs.emit hop
    rw [← opsOf_push _ ⟨op, line⟩] at this
    exact this
  fresh hprev := absurd (Option.some.inj hprev) hk
  reads := hy.scanned.later hij
  waits hfalse := by cases hfalse

/-- An operand becomes the container of an index. -/
theorem lbrack (hy : y.Stands shapes s start i t h) (hexpect : y.expectOperand = false)
    (htok : s.token? i = some (.punct .lbrack)) :
    Stands shapes s start (i + 1) { y with
      buffer := .index :: y.buffer, expectOperand := true
      prev := some (.punct .lbrack) } t (h + 1) where
  scanned := hy.scanned.plain htok ⟨nofun, nofun⟩
  piled := .index (hy.piled.mono (Nat.le_succ i))
  climbs := by
    have hclimbs := hy.climbs
    rw [hexpect] at hclimbs
    exact hclimbs
  fresh hprev := by cases hprev
  reads := hy.scanned.later (Nat.lt_succ_self i)
  waits _ := .inr (.inr (.inl (Nat.succ_pos _)))

/-- A parenthesis opens a group at the same height. -/
theorem group (hy : y.Stands shapes s start i t h) (hexpect : y.expectOperand = true)
    (htok : s.token? i = some (.punct .lpar)) :
    Stands shapes s start (i + 1) { y with
      buffer := .paren false :: y.buffer, prev := some (.punct .lpar) } t h where
  scanned := hy.scanned.plain htok ⟨nofun, nofun⟩
  piled := .group (hy.piled.mono (Nat.le_succ i))
  climbs := hy.climbs
  fresh _ := ⟨hexpect, .inl ⟨_, rfl⟩⟩
  reads := hy.scanned.later (Nat.lt_succ_self i)
  waits _ := .inr (.inr (.inl (Nat.succ_pos _)))

/-- A mark behind an operand. -/
theorem tail (hy : y.Stands shapes s start i t h) (hexpect : y.expectOperand = false)
    (htok : s.token? i = some (.keyword .tail)) :
    Stands shapes s start (i + 1)
    { y.emit .unwrapArr (s.line i) with prev := some (.keyword .tail) }
      t h where
  scanned := hy.scanned.plain htok ⟨nofun, nofun⟩
  piled := hy.piled.mono (Nat.le_succ i)
  climbs := by
    have := (show Climbs shapes 0 (opsOf y.code) (_ + 0) from hy.climbs).emit (l := 0)
      (show Op.unwrapArr.trade? = some (0, 0) from rfl)
    rw [← opsOf_push _ ⟨.unwrapArr, s.line i⟩] at this
    exact this
  fresh hprev := by cases hprev
  reads := hy.scanned.later (Nat.lt_succ_self i)
  waits hfalse := by
    have : y.expectOperand = true := hfalse
    rw [hexpect] at this
    cases this

/-- A sign waits for its operand at the same height. -/
theorem unary (hy : y.Stands shapes s start i t h) (op : UnaryOp) {o : Operator}
    (htok : s.token? i = some (.oper o)) :
    Stands shapes s start (i + 1) { y with
      buffer := .op (.unary op) :: y.buffer, prev := some (.oper o) } t h where
  scanned := hy.scanned.plain htok ⟨nofun, nofun⟩
  piled := .unary op (hy.piled.mono (Nat.le_succ i))
  climbs := hy.climbs
  fresh hprev := by cases hprev
  reads := hy.scanned.later (Nat.lt_succ_self i)
  waits _ := .inr (.inl rfl)

/-- An operator with two operands waits for the second. -/
theorem binary (hy : y.Stands shapes s start i t h) (hexpect : y.expectOperand = false)
    (op : BinaryOp) {o : Operator} (htok : s.token? i = some (.oper o)) {pred : Op →
    Bool} {code : Array Instr}
    {buffer : List Pending} (hflush : Yard.flushOps pred (s.line i) y.code y.buffer
      = (code, buffer)) :
    ∃ h', Stands shapes s start (i + 1) { y with
      code := code, buffer := .op (.binary op) :: buffer, expectOperand := true
      prev := some (.oper o) } t h' := by
  have hclimbs := hy.climbs
  rw [hexpect] at hclimbs
  obtain ⟨hbrackets, h', hpiled, hcode⟩ := hy.piled.flushOps hclimbs hflush
  refine ⟨h' + 1, ⟨?_, .binary op (hpiled.mono (Nat.le_succ i)), hcode,
    fun hprev => (by cases hprev), hy.scanned.later (Nat.lt_succ_self i), fun _ => .inr (.inl rfl)⟩⟩
  have := hy.scanned.plain htok ⟨nofun, nofun⟩
  rw [← hbrackets] at this
  exact this

end Stands

end Yard

/-! ### Commas and brackets -/

/-- Letting out all operators ends at a bracket, the innermost one. -/
theorem flushOps_all {line : Nat} {code out : Array Instr} {buffer rest : List Pending}
    (hflush : Yard.flushOps (fun _ => true) line code buffer = (out, rest)) :
    rest.find? Pending.isBracket = buffer.find? Pending.isBracket ∧
    ∀ o tail, rest ≠ .op o :: tail := by
  induction buffer generalizing code with
  | nil =>
    cases hflush
    exact ⟨rfl, nofun⟩
  | cons p buffer ih =>
    cases p with
    | op o => exact ih hflush
    | _ =>
      cases hflush
      exact ⟨rfl, nofun⟩

/-- A comma leaves the value in front of it on the stack. -/
theorem climbs_comma (hy : y.Stands shapes s start i t h) (htok : s.token? i = some (.punct .comma))
    (hslip : y.straysComma = false) (hw : Steady shapes w₀ w) :
    Leads w (comma s y i) (Advances shapes w₀ s start) := by
  refine .ite (fun _ => .throw_bind _) fun hexpect => ?_
  rw [Bool.not_eq_true] at hexpect
  obtain ⟨⟨code, buffer⟩, hflush⟩ : ∃ r, Yard.flushOps (fun _ => true)
    (s.line i) y.code y.buffer = r :=
    ⟨_, rfl⟩
  rw [hflush]
  have hclimbs := hy.climbs
  rw [hexpect] at hclimbs
  obtain ⟨hbrackets, h', hpiled, hcode⟩ := hy.piled.flushOps hclimbs hflush
  obtain ⟨hfind, htop⟩ := flushOps_all hflush
  have hscanned := hy.scanned.comma htok
  rw [← hbrackets] at hscanned
  refine .pure ⟨hw, ?_⟩
  rw [Yard.straysComma, ← hfind] at hslip
  generalize y.counts = counts at hpiled ⊢
  -- no operator is left on top, and a comma within a group or an index is a slip
  cases hpiled with
  | unary op => exact absurd rfl (htop _ _)
  | binary op => exact absurd rfl (htop _ _)
  | group => cases hslip
  | index => cases hslip
  | nil =>
    refine ⟨t + 1, 0, hscanned, .nil, ?_, fun hprev => (by cases hprev),
      hy.scanned.later (Nat.lt_succ_self i), fun _ => .inr (.inl rfl)⟩
    show Climbs shapes 0 (opsOf code) (t + 1 + (if y.setIndex then 2 else 0) + 0 + 0)
    rwa [show t + 1 + (if y.setIndex then 2 else 0) + 0 + 0 = t + (if y.setIndex then 2 else 0)
      + 0 + 1 by omega]
  | call hc hl hn hpiled =>
    refine ⟨t, _, hscanned, .call hc hl (Nat.succ_le_succ hn) (hpiled.mono (Nat.le_succ i)), hcode,
      fun hprev => (by cases hprev),
      hy.scanned.later (Nat.lt_succ_self i), fun _ => .inr (.inl rfl)⟩
  | chain segment hc hl ht hf hsegs hn hk hpiled =>
    refine ⟨t, _, hscanned, .chain segment hc hl ht hf hsegs (Nat.succ_le_succ hn)
      (Nat.le_succ_of_le hk) (hpiled.mono (Nat.le_succ i)), hcode,
      fun hprev => (by cases hprev),
      hy.scanned.later (Nat.lt_succ_self i), fun _ => .inr (.inl rfl)⟩

/-- A bracket takes two values for one, or none if it is the target of an assignment. -/
theorem climbs_closeIndex (hy : y.Stands shapes s start i t h)
    (htok : s.token? i = some (.punct .rbrack)) (hslip : y.assignsAgain s i = false)
    (hw : Steady shapes w₀ w) :
    Leads w (closeIndex s y i) (Advances shapes w₀ s start) := by
  refine .ite (fun _ => .throw_bind _) fun hexpect => ?_
  rw [Bool.not_eq_true] at hexpect
  have hclimbs := hy.climbs
  rw [hexpect] at hclimbs
  dsimp only
  split
  · exact .throw _
  rename_i code p buffer hflush
  obtain ⟨hbrackets, hstop, h', hpiled, hcode⟩ := hy.piled.flushUntil (fun _ => rfl) hclimbs hflush
  -- what ends the operators is the bracket of an index
  obtain rfl : p = .index := by cases p <;> first | rfl | cases hstop
  cases hpiled with
  | @index _ _ h'' hpiled =>
  have hscanned := hy.scanned.plain htok ⟨nofun, nofun⟩
  rw [← hbrackets] at hscanned
  have hindex : ∃ t h, Yard.Stands shapes s start (i + 1)
      { Yard.emit { y with code := code, buffer := buffer } .index (s.line i) with
        prev := some (.punct .rbrack) } t h := by
    refine ⟨t, h'', hscanned, hpiled.mono (Nat.le_succ i), ?_, fun hprev => (by cases hprev),
      hy.scanned.later (Nat.lt_succ_self i), fun hfalse => ?_⟩
    · have := (show Climbs shapes 0 (opsOf code) (t + (if y.setIndex then 2 else 0)
        + h'' + 2) from hcode).emit
        (show Op.index.trade? = some (2, 1) from rfl)
      rw [← opsOf_push _ ⟨.index, s.line i⟩] at this
      show Climbs shapes 0 _ (_ + if y.expectOperand then 0 else 1)
      rw [hexpect]
      exact this
    · have : y.expectOperand = true := hfalse
      rw [hexpect] at this
      cases this
  split
  · exact .throw _
  · rename_i heq
    refine .ite (fun hnil => .pure ⟨hw, ?_⟩) fun _ => .pure ⟨hw, hindex⟩
    -- the index is a target: its container and its key stay where they are
    obtain rfl : buffer = [] := List.isEmpty_iff.1 hnil
    obtain ⟨hcounts, rfl⟩ := hpiled.eq_zero
    have hset : y.setIndex = false := by
      rw [Yard.assignsAgain, hflush, heq, Bool.and_true, beq_self_eq_true, Bool.and_true] at hslip
      exact hslip
    rw [hset] at hscanned hcode
    refine ⟨t, 0, hscanned.assign (Source.token?_of_kind?_punct heq), ?_, hcode,
      fun hprev => (by cases hprev),
      hy.scanned.later (Nat.lt_add_of_pos_right Nat.zero_lt_two), fun _ => .inl rfl⟩
    rw [hcounts]
    exact .nil
  · exact .pure ⟨hw, hindex⟩

/-! ### Calls -/

/-- How many operands besides its arguments a call takes: one if the function has segments. -/
def CallTarget.placeholders (shapes : BlockId → Option CallShape) : CallTarget → Nat
  | .func id => if ((shapes id).bind CallShape.segments).isSome then 1 else 0
  | _ => 0

/-- Whether a call has been ended whose operands lie above some height. -/
def Ended (shapes : BlockId → Option CallShape) (w₀ : Work) (k : Nat) (y y' : Yard) (w : Work) :
    Prop :=
  Steady shapes w₀ w ∧ ∃ code, y' = { y with code := code } ∧ Climbs shapes 0 (opsOf code) (k + 1)

/-- A call takes what its target takes, and leaves one value. -/
theorem ended_emitCall (hw : Steady shapes w₀ w) {f : Callee} {variadic : Bool} {count k n : Nat}
    (hcount : count < 2 ^ 64) (line callLine : Nat)
    (htaken : f.taken? shapes (if variadic then some count else none) = some n)
    (hcode : Climbs shapes 0 (opsOf y.code) (k + n)) :
    Ended shapes w₀ k y (emitCall y f variadic count line callLine) w := by
  refine ⟨hw, (emitCall y f variadic count line callLine).code, ?_, ?_⟩
  · cases variadic <;> rfl
  · cases variadic with
    | true =>
      have := hcode.append (.callVariadic hcount htaken (.nil _))
      simpa [emitCall, Yard.emit] using this
    | false =>
      have := hcode.append (.call htaken (.nil _))
      simpa [emitCall, Yard.emit] using this

/-- So does one of a function, with the operand for its segments. -/
theorem climbs_endFunc (hw : Steady shapes w₀ w) {id : BlockId} {count k : Nat}
    (hcount : count < 2 ^ 64) (c : PendingCall) (i : Nat) (hcode : Climbs shapes 0 (opsOf y.code)
      (k + (count + (CallTarget.func id).placeholders shapes))) :
    Leads w (endFunc s id count c i y) (Ended shapes w₀ k y) := by
  refine .get ?_
  split
  · exact .throw _
  rename_i f hf
  have hshape : shapes id = some ⟨f.params.length, f.segments⟩ := by
    rw [← hw.shapes, Work.callShapes, Block.callShape?, hf]
    rfl
  refine .ite (fun _ => .throw_bind _) fun htakes => ?_
  -- A variadic function takes as many as are counted, any other one as many as it has parameters.
  have htaken : (Callee.func id).taken? shapes (if f.variadic then some count else none)
      = some (count + (CallTarget.func id).placeholders shapes) := by
    rw [Callee.taken?, CallTarget.placeholders, hshape]
    cases hv : f.variadic with
    | true => rfl
    | false =>
      simp only [FuncInfo.takes, hv, Bool.not_eq_true', Bool.not_eq_false, beq_iff_eq,
        Bool.false_eq_true, if_false] at htakes
      rw [htakes]
      rfl
  refine .ite (fun _ => .bind (P := fun _ w' => Steady shapes w₀ w') (.set ?_) fun _ w' hw' => ?_)
    fun _ => ?_
  · exact hw.setWritable
  · exact .pure (ended_emitCall hw' hcount _ _ htaken hcode)
  · exact .pure (ended_emitCall hw hcount _ _ htaken hcode)

/-- So does one of an extension. -/
theorem climbs_endExt (hw : Steady shapes w₀ w) (e : Extension) {count k : Nat}
    (hcount : count + 2 < 2 ^ 64) (c : PendingCall) (i : Nat)
    (hcode : Climbs shapes 0 (opsOf y.code) (k + (c.leading + count))) :
    Leads w (endExt s e count c i y) (Ended shapes w₀ k y) := by
  -- behind the name of a contract there is at least an empty list of names
  have hrest : ∀ (y : Yard) (count : Nat), count < 2 ^ 64 →
      Climbs shapes 0 (opsOf y.code) (k + count) → Leads w (do
        if !e.takes count then failAt s (.wrongParams e.name e.params.length) i
        if e.canWrite then modify Work.setWritable
        return emitCall y (.ext e) e.variadic count (s.line i) c.line) (Ended shapes w₀ k y) := by
    intro y count hcount hcode
    refine .ite (fun _ => .throw_bind _) fun htakes => ?_
    have htaken : (Callee.ext e).taken? shapes (if e.variadic then some count else none)
      = some count := by
      rw [Callee.taken?]
      cases hv : e.variadic with
      | true => rfl
      | false =>
        simp only [Extension.takes, hv, Bool.not_eq_true', Bool.not_eq_false, beq_iff_eq,
          Bool.false_eq_true, if_false] at htakes
        rw [htakes]
        rfl
    refine .ite (fun _ => .bind (P := fun _ w' => Steady shapes w₀ w') (.modify ?_)
      fun _ w' hw' => ?_)
      fun _ => ?_
    · exact hw.setWritable
    · exact .pure (ended_emitCall hw' hcount _ _ htaken hcode)
    · exact .pure (ended_emitCall hw hcount _ _ htaken hcode)
  have hleading : c.leading = (if c.contract then 1 else 0) + if c.stateArg then 1 else 0 := rfl
  by_cases hcontract : c.contract = true
  · rw [hcontract, if_pos rfl] at hleading
    by_cases hzero : count = 0
    · subst hzero
      simp only [endExt, hcontract, if_true]
      refine hrest _ _ (by split <;> omega) ?_
      have := (show Climbs shapes 0 (opsOf y.code) (k + (c.leading + 0) + 0) from hcode).emit
        (show (Op.push (.str "")).trade? = some (0, 1) from rfl)
      rw [← opsOf_push _ ⟨.push (.str ""), s.line i⟩] at this
      rwa [show k + (if c.stateArg = true then 2 + 1 else 2) = k + (c.leading + 0) + 1 by
        rw [hleading]; split <;> omega]
    · simp only [endExt, hcontract, hzero, if_true, if_false]
      refine hrest _ _ (by split <;> omega) ?_
      rwa [show k + (if c.stateArg = true then count + 1 + 1 else count + 1)
        = k + (c.leading + count) by
        rw [hleading]; split <;> omega]
  · rw [if_neg hcontract] at hleading
    rw [Bool.not_eq_true] at hcontract
    simp only [endExt, hcontract, Bool.false_eq_true, if_false]
    refine hrest _ _ (by split <;> omega) ?_
    rwa [show k + (if c.stateArg = true then count + 1 else count) = k + (c.leading + count) by
      rw [hleading]; split <;> omega]

/-- The operands of a call that ends: those in front of its arguments, the arguments, and one for
the segments. -/
theorem climbs_endCall (hw : Steady shapes w₀ w) {c : PendingCall}
    (hc : c.leading = 0 ∨ ∃ e, c.target = .ext e) {count k : Nat}
    (hcount : count + 2 < 2 ^ 64) (i : Nat) (hcode : Climbs shapes 0 (opsOf y.code)
    (k + c.leading + count + c.target.placeholders shapes)) :
    Leads w (endCall s count c i y) (Ended shapes w₀ k y) := by
  unfold endCall
  split
  · rename_i id htarget
    have hleading : c.leading = 0 := hc.resolve_right fun ⟨e, he⟩ => by rw [htarget] at he; cases he
    rw [hleading, htarget, Nat.add_zero, Nat.add_assoc] at hcode
    exact climbs_endFunc hw (by omega) c i hcode
  · rename_i e htarget
    have hnone : c.target.placeholders shapes = 0 := by rw [htarget]; rfl
    rw [hnone, Nat.add_zero, Nat.add_assoc] at hcode
    exact climbs_endExt hw e hcount c i hcode
  · rename_i name htarget
    have hleading : c.leading = 0 := hc.resolve_right fun ⟨e, he⟩ => by rw [htarget] at he; cases he
    have hnone : c.target.placeholders shapes = 0 := by rw [htarget]; rfl
    rw [hleading, hnone, Nat.add_zero, Nat.add_zero] at hcode
    have := hcode.append (.callExtend (n := count) (by omega) (.nil _) : Climbs shapes
      _ [.push (.int (.ofNat count)), .callExtend name] _)
    refine .pure ⟨hw, _, rfl, ?_⟩
    simpa [Yard.emit] using this

/-- The segments of a call's function, as far as a caller has to know of it. -/
theorem segmentsOf_eq (hw : Steady shapes w₀ w) {c : PendingCall} {segments : Dict Segment}
    (h : segmentsOf w c = some segments) :
    ∃ id f, c.target = .func id ∧ shapes id = some f ∧ f.segments = some segments := by
  unfold segmentsOf at h
  split at h
  · rename_i id htarget
    obtain ⟨f, hf, hsegments⟩ := Option.bind_eq_some_iff.1 h
    refine ⟨id, ⟨f.params.length, f.segments⟩, htarget, ?_, hsegments⟩
    rw [← hw.shapes, Work.callShapes, Block.callShape?, hf]
    rfl
  · cases h

/-- A call takes one more operand exactly if its function has segments. -/
theorem placeholders_eq (hw : Steady shapes w₀ w) (c : PendingCall) :
    c.target.placeholders shapes = if (segmentsOf w c).isSome then 1 else 0 := by
  unfold segmentsOf
  split
  · rename_i id htarget
    rw [htarget, CallTarget.placeholders, ← hw.shapes, Work.callShapes,
      Block.callShape?, Option.bind_map]
    rfl
  · rename_i hnot
    cases htarget : c.target with
    | func id => exact absurd htarget (hnot id)
    | ext _ | extend _ => rfl

/-- Whether segments have names. -/
def SegmentsNamed (shapes : BlockId → Option CallShape) : Prop :=
  ∀ id f segments, shapes id = some f → f.segments = some segments → segments.get? "" = none

/-- What stays of a call whose argument list has been closed: nothing, or its function and the
number of its arguments while those of a segment are read. -/
def Closed (shapes : BlockId → Option CallShape) (w₀ : Work) (s : Source) (i b : Nat)
    (y : Yard) (rest : List Pending) (r : Yard × Option Nat) (w : Work) : Prop :=
  match r.2 with
  | none => Ended shapes w₀ b { y with buffer := rest } r.1 w
  | some next => next = i + 3 ∧ Steady shapes w₀ w ∧ s.token? (i + 1) = some (.punct .dot) ∧
      (∃ x, s.token? (i + 2) = some (.ident x) ∨ s.token? (i + 2) = some (.extend x)) ∧
      s.token? (i + 3) = some (.punct .lpar) ∧
      ∃ code segment c k id f, r.1 = { y with
          code := code, buffer := .paren true :: .chain segment :: .call c :: rest, counts :=
            0 :: y.counts } ∧
        c.count = some k ∧ c.leading = 0 ∧ c.target = .func id ∧ shapes id = some f ∧
          f.segments.isSome = true ∧
        k ≤ i + 1 ∧ Climbs shapes 0 (opsOf code) (b + k + 1)

/-- The placeholder of a call with segments is there when its arguments have been read, unless it is
skipped. -/
theorem climbs_closeArguments (hw : Steady shapes w₀ w) (hnamed : SegmentsNamed shapes)
    {c : PendingCall} (rest : List Pending) (hc : c.leading = 0 ∨
      ∃ e, c.target = .ext e) {count b : Nat}
    (hle : c.count.getD count ≤ i + 1) (hcount : c.count.getD count + 2 < 2 ^ 64)
    (hcode : Climbs shapes 0 (opsOf y.code) (b + c.leading + c.count.getD count +
      if (segmentsOf w c).isSome && endsInSegment y then 1 else 0)) :
    Leads w (closeCall s count i { y with buffer := .call c :: rest })
      (Closed shapes w₀ s i b y rest) := by
  have hplaceholders := placeholders_eq hw c
  refine .get ?_
  split
  · rename_i hsegments
    rw [hsegments] at hcode hplaceholders
    refine .bind (climbs_endCall (k := b) hw hc hcount i ?_) fun y' w' hended => .pure hended
    rw [hplaceholders]
    exact hcode
  · rename_i segments hsegments
    rw [hsegments] at hcode hplaceholders
    obtain ⟨id, f, htarget, hf, hsome⟩ := segmentsOf_eq hw hsegments
    have hleading : c.leading = 0 := hc.resolve_right fun ⟨e, he⟩ => by rw [htarget] at he; cases he
    -- with the placeholder, which may be there already
    obtain ⟨code, hy', hcode'⟩ : ∃ code,
        (if endsInSegment { y with buffer := .call c :: rest }
          then { y with buffer := .call c :: rest }
          else ({ y with buffer := .call c :: rest } : Yard).emit (.push .nil) (s.line i)) =
          { y with code := code, buffer := .call c :: rest } ∧
        Climbs shapes 0 (opsOf code) (b + c.leading + c.count.getD count + 1) := by
      cases hends : endsInSegment y with
      | true =>
        rw [hends] at hcode
        exact ⟨y.code, if_pos hends, hcode⟩
      | false =>
        rw [hends] at hcode
        have hends' : endsInSegment { y with buffer := .call c :: rest } = false := hends
        rw [if_neg (Bool.not_eq_true _ ▸ hends')]
        refine ⟨_, rfl, ?_⟩
        rw [opsOf_push]
        exact hcode.emit rfl
    dsimp only
    rw [hy']
    refine .ite (fun hchain => .ite (fun _ => .throw_bind _) fun hname => .pure ?_) fun _ =>
      .bind (climbs_endCall (k := b) hw hc hcount i ?_) fun y' w' hended => .pure hended
    · rw [chainFollows, Bool.and_eq_true, beq_iff_eq, beq_iff_eq] at hchain
      have hne : s.name (i + 2) ≠ "" := by
        intro hempty
        rw [hempty, Dict.contains_eq, hnamed id f segments hf hsome] at hname
        exact hname rfl
      rw [hleading] at hcode'
      exact ⟨rfl, hw, Source.token?_of_kind?_punct hchain.1, Source.exists_ident_of_name hne,
        Source.token?_of_kind?_punct hchain.2, code, _, _, _, id, f, rfl,
        rfl, hleading, htarget, hf, by rw [hsome]; rfl, hle, hcode'⟩
    · rw [hplaceholders]
      exact hcode'

theorem endsInSegment_emit (y : Yard) (segment : String) (count line : Nat)
    (buffer : List Pending) :
    endsInSegment { y.emit (.funcName segment count) line with buffer := buffer } = true := by
  rw [endsInSegment, Yard.emit, Array.back?_push]
  rfl

/-- Behind an argument list the expression goes on. -/
theorem advances_of_closed {y₀ : Yard} {rest : List Pending} {r : Yard × Option Nat}
    (hlater : ∀ j, i < j → j ≠ start)
    (hscanned : Scanned s start (i + 1) (brackets rest) t (if y₀.setIndex then 1 else 0))
    (hpiled : Piled shapes i rest y₀.counts h) (hexpect : y₀.expectOperand = false)
    (hclosed : Closed shapes w₀ s i (t + (if y₀.setIndex then 2 else 0) + h) y₀ rest r w) :
    Advances shapes w₀ s start (match r.2 with
      | some next => ({ r.1 with prev := some (.punct .lpar), expectOperand := true }, next + 1)
      | none => ({ r.1 with prev := some (.punct .rpar) }, i + 1)) w := by
  obtain ⟨y', chained⟩ := r
  cases chained with
  | none =>
    obtain ⟨hw, code, rfl, hcode⟩ := hclosed
    refine ⟨hw, t, h, hscanned, hpiled.mono (Nat.le_succ i), ?_, fun hprev => (by cases hprev),
      fun heq => absurd heq (hlater _ (Nat.lt_succ_self i)), fun htrue => ?_⟩
    · show Climbs shapes 0 _ (_ + if y₀.expectOperand then 0 else 1)
      rw [hexpect]
      exact hcode
    · cases hexpect.symm.trans htrue
  | some next =>
    obtain ⟨rfl, hw, hdot, ⟨x, hx⟩, hlpar, code, segment, c, k, id, f, rfl, hc,
      hleading, htarget, hf, hsome, hk, hcode⟩ := hclosed
    -- the dot, the name of the segment and its parenthesis
    have hname : Scanned s start (i + 3) (brackets rest) t (if y₀.setIndex then 1 else 0) := by
      have hdotted := hscanned.plain hdot ⟨nofun, nofun⟩
      rcases hx with hx | hx
      · exact hdotted.plain hx ⟨nofun, nofun⟩
      · exact hdotted.plain hx ⟨nofun, nofun⟩
    have hpiled' : Piled shapes (i + 3 + 1) rest y₀.counts h := hpiled.mono (by omega)
    have hk' : k ≤ i + 3 + 1 + 1 := by omega
    refine ⟨hw, t, h + k + 1 + 0,
      hname.plain hlpar ⟨nofun, nofun⟩,
      .chain segment hc hleading htarget hf hsome (Nat.zero_le _) hk' hpiled', ?_,
      fun _ => ⟨rfl, .inr ⟨_, _, rfl, rfl⟩⟩, fun heq => absurd heq (hlater (i + 4) (by omega)),
      fun _ => .inr (.inr (.inl (Nat.succ_pos _)))⟩
    have hheight : t + (if y₀.setIndex then 2 else 0) + (h + k + 1 + 0) + 0
        = t + (if y₀.setIndex then 2 else 0) + h + k + 1 := by omega
    show Climbs shapes 0 _ (t + (if y₀.setIndex then 2 else 0) + (h + k + 1 + 0) + 0)
    rw [hheight]
    exact hcode

/-- A right parenthesis finds all operands of what it closes. -/
theorem Yard.Stands.flushParen (hy : y.Stands shapes s start i t h)
    (hguard : ¬ (y.prev == some (.punct .comma)
      || (y.expectOperand && y.prev != some (.punct .lpar))) = true)
    (hempty : y.closesEmptyGroup = false) {code : Array Instr} {p : Pending} {rest : List Pending}
    (hflush : Yard.flushUntil isParen (s.line i) y.code y.buffer = some (code, p, rest)) :
    ∃ h', brackets (p :: rest) = brackets y.buffer ∧ isParen p = true ∧
      Piled shapes i (p :: rest) y.counts h' ∧
      Climbs shapes 0 (opsOf code) (t + (if y.setIndex then 2 else 0) + h' +
        if y.prev != some (.punct .lpar) then 1 else 0) ∧
      (p = .paren false → (y.prev != some (.punct .lpar)) = true) := by
  have hclimbs := hy.climbs
  by_cases hprev : y.prev = some (.punct .lpar)
  · -- directly behind the left parenthesis the parenthesis is on top, with no argument
    obtain ⟨hexpect, ⟨buffer, hbuffer⟩ | ⟨buffer, counts, hbuffer, hcounts⟩⟩ := hy.fresh hprev
    · rw [Yard.closesEmptyGroup, hprev, hbuffer] at hempty
      cases hempty
    · rw [hbuffer] at hflush
      cases hflush
      have hpiled := hy.piled
      rw [hbuffer] at hpiled
      rw [hexpect] at hclimbs
      exact ⟨h, by rw [hbuffer], rfl, hpiled, by rw [hprev]; exact hclimbs, nofun⟩
  · have hne : (y.prev != some (.punct .lpar)) = true := bne_iff_ne.2 hprev
    have hexpect : y.expectOperand = false := by
      rw [hne, Bool.and_true, Bool.or_eq_true, not_or, Bool.not_eq_true] at hguard
      simpa using hguard.2
    rw [hexpect] at hclimbs
    obtain ⟨hbrackets, hstop, h', hpiled, hcode⟩ :=
      hy.piled.flushUntil (fun _ => rfl) hclimbs hflush
    exact ⟨h', hbrackets, hstop, hpiled, by rw [hne]; exact hcode, fun _ => hne⟩

/-- What is left to do when a call has been closed. -/
theorem advances_behindCall (y₀ : Yard) (hlater : ∀ j, i < j → j ≠ start)
    {rest : List Pending} {c : PendingCall} {b count : Nat} (hscanned : Scanned s start (i + 1)
    (brackets rest) t (if y₀.setIndex then 1 else 0)) (hpiled :
    Piled shapes i rest y₀.counts h) (hexpect : y₀.expectOperand = false)
    (hbase : b = t + (if y₀.setIndex then 2 else 0) + h)
    (hclose : Leads w (closeCall s count i { y₀ with buffer := .call c :: rest })
      (Closed shapes w₀ s i b y₀ rest)) :
    Leads w (do
      let (y, chained) ← closeCall s count i { y₀ with buffer := .call c :: rest }
      match chained with
      | some next =>
        return ({ y with prev := some (.punct .lpar), expectOperand := true }, next + 1)
      | none => return ({ y with prev := some (.punct .rpar) }, i + 1))
        (Advances shapes w₀ s start) := by
  subst hbase
  refine .bind hclose fun r w' hclosed => ?_
  have hadvances := advances_of_closed hlater hscanned hpiled hexpect hclosed
  obtain ⟨y', _ | next⟩ := r
  · exact .pure hadvances
  · exact .pure hadvances

/-- A right parenthesis. -/
theorem climbs_closeParen (hy : y.Stands shapes s start i t h)
    (htok : s.token? i = some (.punct .rpar)) (hempty : y.closesEmptyGroup = false)
    (hskip : y.skipsPlaceholder s w i = false) (hw : Steady shapes w₀ w)
    (hnamed : SegmentsNamed shapes) (hsize : i + 3 < 2 ^ 64) :
    Leads w (closeParen s y i) (Advances shapes w₀ s start) := by
  refine .ite (fun _ => .throw_bind _) fun hguard => ?_
  dsimp only
  split
  · exact .throw _
  rename_i code p rest hflush
  obtain ⟨h', hbrackets, hparen, hpiled, hcode, hgroup⟩ := hy.flushParen hguard hempty hflush
  have hscanned := hy.scanned.plain htok ⟨fun h => (by cases h), fun h => (by cases h)⟩
  rw [← hbrackets] at hscanned
  obtain ⟨b, rfl⟩ : ∃ b, p = .paren b := by cases p <;> first | exact ⟨_, rfl⟩ | cases hparen
  cases b with
  | false =>
    rw [hgroup rfl] at hcode
    generalize hcounts : y.counts = counts at hpiled
    cases hpiled with
    | group hpiled =>
      exact .pure ⟨hw, t, h', hscanned, hpiled.mono (Nat.le_succ i), hcode,
        fun hprev => (by cases hprev), hy.scanned.later (Nat.lt_succ_self i),
        fun hfalse => (by cases hfalse)⟩
  | true =>
    generalize hcounts : y.counts = counts at hpiled ⊢
    rw [Yard.skipsPlaceholder, hflush] at hskip
    -- the commas are one fewer than the arguments, unless there is none
    obtain ⟨e, he⟩ : ∃ e, (if (y.prev != some (.punct .lpar)) = true then 1 else 0) = e := ⟨_, rfl⟩
    have hcount : ∀ n, (if (y.prev != some (.punct .lpar)) = true then n + 1 else n) = n + e := by
      intro n
      rw [← he]
      split <;> rfl
    have he1 : e ≤ 1 := by rw [← he]; split <;> omega
    rw [he] at hcode
    cases hpiled with
    | @call rest' counts' h₀ n c hc hleading hn hpiled =>
      have hgetD : ∀ k, c.count.getD k = k := fun k => by rw [hc, Option.getD_none]
      rw [List.head?_cons, Option.getD_some, List.tail_cons, hcount]
      refine advances_behindCall { y with code := code, counts := counts', expectOperand := false }
        (fun _ hj => hy.scanned.later hj) hscanned hpiled rfl rfl (climbs_closeArguments hw
          hnamed rest' hleading ?_ ?_ ?_)
      · rw [hgetD]
        omega
      · rw [hgetD]
        omega
      · have hplace : ((segmentsOf w c).isSome && endsInSegment { y with
            code := code, counts := counts', expectOperand := false }) = false := by
          have hskip : (c.count.isNone && (segmentsOf w c).isSome
            && endsInSegment { y with code := code })
            = false := hskip
          rw [hc] at hskip
          exact hskip
        rw [hgetD, hplace]
        show Climbs shapes 0 (opsOf code) (_ + (n + e) + 0)
        rwa [show t + (if y.setIndex then 2 else 0) + h₀ + c.leading + (n + e) + 0
          = t + (if y.setIndex then 2 else 0) + (h₀ + c.leading + n) + e by omega]
    | @chain rest' counts' h₀ n k c id f segment hc hleading htarget hf hsome hn hk hpiled =>
      have hgetD : ∀ m, c.count.getD m = k := fun m => by rw [hc, Option.getD_some]
      rw [List.head?_cons, Option.getD_some, List.tail_cons, hcount]
      refine advances_behindCall
        (({ y with code := code, counts := counts', expectOperand := false } : Yard).emit
        (.funcName segment (n + e)) (s.line i)) (fun _ hj => hy.scanned.later hj)
        hscanned hpiled rfl rfl (climbs_closeArguments hw hnamed rest' (.inl hleading) ?_ ?_ ?_)
      · rw [hgetD]
        omega
      · rw [hgetD]
        omega
      · have hsegments : (segmentsOf w c).isSome = true := by
          have hplaceholders := placeholders_eq hw c
          rw [htarget, CallTarget.placeholders, hf, Option.bind_some, if_pos hsome] at hplaceholders
          by_contra hnone
          rw [if_neg hnone] at hplaceholders
          cases hplaceholders
        rw [hgetD, hsegments, endsInSegment_emit, hleading]
        show Climbs shapes 0 (opsOf (code.push _))
          (t + (if y.setIndex then 2 else 0) + h₀ + 0 + k + 1)
        rw [opsOf_push]
        refine Climbs.emit (t := n + e + 1) ?_ rfl
        rwa [show t + (if y.setIndex then 2 else 0) + h₀ + 0 + k + (n + e + 1)
          = t + (if y.setIndex then 2 else 0) + (h₀ + k + 1 + n) + e by omega]

/-! ### Operators and names -/

/-- An operator that is pushed out takes its operands for one value. -/
theorem climbs_operator (hy : y.Stands shapes s start i t h) {o : Operator}
    (htok : s.token? i = some (.oper o)) (hw : Steady shapes w₀ w) :
    Leads w (operator s y o i) (Advances shapes w₀ s start) := by
  unfold operator
  dsimp only
  split
  · rename_i op _
    exact .ite (fun _ => .throw_bind _) fun _ => .pure ⟨hw, t, h, hy.unary op htok⟩
  · rename_i op _
    refine .ite (fun _ => .throw_bind _) fun hexpect => .pure ⟨hw, t, ?_⟩
    exact hy.binary (Bool.eq_false_iff.2 hexpect) op htok rfl
  · exact .throw _

/-- Whether a call has been opened with what it puts on the stack in front of its arguments. -/
def Opened (shapes : BlockId → Option CallShape) (w₀ : Work) (k : Nat) (y : Yard)
    (r : Yard × PendingCall) (w : Work) :
    Prop :=
  Steady shapes w₀ w ∧ (∃ code, r.1 = { y with code := code } ∧
    Climbs shapes 0 (opsOf code) (k + r.2.leading)) ∧ r.2.count = none ∧
    (r.2.leading = 0 ∨ ∃ e, r.2.target = .ext e)

theorem opened_emit (hw : Steady shapes w₀ w) {op : Op} (hop : op.trade? = some (0, 1)) (line : Nat)
    {c : PendingCall} (hleading : c.leading = 1) (hcount : c.count = none) {e : Extension}
    (htarget : c.target = .ext e) {k : Nat} (hcode : Climbs shapes 0 (opsOf y.code) k) :
    Opened shapes w₀ k y (y.emit op line, c) w := by
  refine ⟨hw, ⟨_, rfl, ?_⟩, hcount, .inr ⟨e, htarget⟩⟩
  rw [hleading, opsOf_push]
  exact Climbs.emit (t := 0) hcode hop

/-- A call that is opened puts down what goes in front of its arguments. -/
theorem climbs_openCall (hw : Steady shapes w₀ w) (name : String) (i : Nat) {k : Nat}
    (hcode : Climbs shapes 0 (opsOf y.code) k) :
    Leads w (openCall s name i y) (Opened shapes w₀ k y) := by
  have hplain : ∀ c : PendingCall, c.leading = 0 → c.count = none → Opened shapes w₀ k y (y, c) w :=
    fun c hleading hcount => ⟨hw, ⟨_, rfl, by rw [hleading]; exact hcode⟩, hcount, .inl hleading⟩
  -- the name of a contract is pushed in front of its arguments
  have hrunner : ∀ (w : Work) (name : String), Steady shapes w₀ w → Leads w (do
      let e ← contractRunner s i
      return (y.emit (.push (.str name)) (s.line i),
        { target := .ext e, contract := true, line := s.line i })) (Opened shapes w₀ k y) := by
    intro w name hw
    refine .bind (P := fun _ w' => w' = w) ?_ fun e w' hw' => .pure ?_
    · unfold contractRunner
      split
      · exact .pure rfl
      · exact .throw _
    · subst hw'
      exact opened_emit hw rfl _ rfl rfl rfl hcode
  refine .get ?_
  dsimp only
  split
  · exact .pure (hplain _ rfl rfl)
  · refine .ite (fun _ => .pure (opened_emit hw rfl _ rfl rfl rfl hcode)) fun _ =>
      .pure (hplain _ rfl rfl)
  · refine .get ?_
    have hnoted : ∀ (contract : String) (b : Bool), Steady shapes w₀ (if b = true then
        (w.noteUse contract).setWritable else w.noteUse contract) := by
      intro contract b
      cases b with
      | true => exact (hw.noteUse contract).setWritable
      | false => exact hw.noteUse contract
    exact .ite (fun _ => .throw_bind _) fun _ => .bind (P := fun _ w' => Steady shapes w₀ w')
      (.set (hnoted _ _)) fun _ w' hw' => hrunner w' _ hw'
  · refine .ite (fun _ => hrunner w _ hw) fun _ => .throw _
  · exact .throw _

/-- A name pushes one value, or opens a call. -/
theorem climbs_nameOperand (hy : y.Stands shapes s start i t h) (hexpect : y.expectOperand = true)
    (htok : s.token? i = some tok) {name : String} (hname : tok = .ident name ∨ tok = .extend name)
    (hw : Steady shapes w₀ w) :
    Leads w (nameOperand s y tok name i) (Advances shapes w₀ s start) := by
  have hclimbs := hy.climbs
  rw [hexpect] at hclimbs
  obtain ⟨hscanned, hkind⟩ : Scanned s start (i + 1) (brackets y.buffer) t
    (if y.setIndex then 1 else 0) ∧
      tok.kind ≠ .punct .lpar := by
    rcases hname with rfl | rfl <;> exact ⟨hy.scanned.plain htok ⟨nofun, nofun⟩, nofun⟩
  have hoperand : ∀ op : Op, op.trade? = some (0, 1) →
      Advances shapes w₀ s start ((y.emit op (s.line i)).operand tok.kind, i + 1) w := fun op hop =>
    ⟨hw, t, h, hy.operand hexpect hop (s.line i) hkind (Nat.lt_succ_self i) hscanned⟩
  refine .ite (fun hparen => ?_) fun _ => ?_
  · -- a parenthesis follows: the value is that of the call, which waits
    have hopens : ∀ (r : Yard × PendingCall) (w' : Work),
        Opened shapes w₀ (t + (if y.setIndex then 2 else 0) + h) y r w' →
        Advances shapes w₀ s start ({ r.1 with
          buffer := .paren true :: .call r.2 :: r.1.buffer, counts := 0 :: r.1.counts
          prev := some (.punct .lpar) }, i + 2) w' := by
      rintro ⟨y', c⟩ w' ⟨hw', ⟨code, rfl, hcode⟩, hcount, hleading⟩
      refine ⟨hw', t, h + c.leading + 0,
        hscanned.plain (Source.token?_of_kind?_punct (beq_iff_eq.1 hparen)) ⟨nofun, nofun⟩,
        .call hcount hleading (Nat.zero_le _) (hy.piled.mono (Nat.le_add_right i 2)), ?_,
        fun _ => ⟨hexpect, .inr ⟨_, _, rfl, rfl⟩⟩,
        hy.scanned.later (Nat.lt_add_of_pos_right Nat.zero_lt_two),
        fun _ => .inr (.inr (.inl (Nat.succ_pos _)))⟩
      show Climbs shapes 0 (opsOf code) (t + (if y.setIndex then 2 else 0) + (h + c.leading + 0)
        + if y.expectOperand then 0 else 1)
      rwa [hexpect, show t + (if y.setIndex then 2 else 0) + (h + c.leading + 0)
        + (if true then 0 else 1)
        = t + (if y.setIndex then 2 else 0) + h + c.leading by simp only [if_true]; omega]
    split
    · exact .pure (hopens (y, { target := .extend _, line := s.line i }) w
        ⟨hw, ⟨_, rfl, hclimbs⟩, rfl, .inl rfl⟩)
    · exact .bind (climbs_openCall hw name i hclimbs) fun r w' hopened =>
        .pure (hopens r w' hopened)
  · split
    · exact .pure (hoperand _ rfl)
    · refine .get ?_
      split
      · exact .pure (hoperand _ rfl)
      · exact .pure (hoperand _ rfl)
      · exact .throw_bind _

/-! ### Whole expressions -/

/-- An expression goes on behind what a step takes. -/
theorem advances_onward {x : Compiling (Yard × Nat)} (hx : Leads w x (Advances shapes w₀ s start)) :
    Leads w (x >>= fun r => pure (some r)) fun r w' => Steady shapes w₀ w' ∧
      ∀ p, r = some p → Advances shapes w₀ s start p w' :=
  .bind hx fun _ _ h => .pure ⟨h.1, fun _ hp => Option.some.inj hp ▸ h⟩

/-- What one step of an expression leaves. -/
theorem climbs_take (hy : y.Stands shapes s start i t h) (htok : s.token? i = some tok)
    (blockFollows : Bool) (hslips : y.slips s w i tok = false) (hw : Steady shapes w₀ w)
    (hnamed : SegmentsNamed shapes) (hsize : i + 3 < 2 ^ 64) :
    Leads w (take s blockFollows y i tok) fun r w' => Steady shapes w₀ w' ∧
      ∀ p, r = some p → Advances shapes w₀ s start p w' := by
  have hends : Steady shapes w₀ w ∧ ∀ p : Yard × Nat, none = some p →
    Advances shapes w₀ s start p w :=
    ⟨hw, nofun⟩
  have hgoes : ∀ {y' : Yard} {j t' h' : Nat}, y'.Stands shapes s start j t' h' →
      Steady shapes w₀ w ∧ ∀ p, some (y', j) = some p → Advances shapes w₀ s start p w :=
    fun hy' => ⟨hw, fun p hp => Option.some.inj hp ▸ ⟨hw, _, _, hy'⟩⟩
  unfold take
  dsimp only
  split
  · -- a line end
    refine .pure ?_
    split
    · exact hgoes (hy.newline htok ‹_›)
    · exact hends
  · -- a left brace
    refine .ite (fun _ => .pure hends) fun hopen => .get ?_
    have hexpect : y.expectOperand = true := by
      cases h : y.expectOperand with
      | true => rfl
      | false => rw [h] at hopen; exact absurd rfl hopen
    refine .bind (.lift (Q := fun r w' => w' = w ∧ s.Enclosed i r.2)
      fun r hr => ⟨rfl, Source.enclosed_map htok hr⟩) fun r w' ⟨hw', henclosed⟩ => .pure ?_
    subst hw'
    exact hgoes (hy.operand hexpect rfl (s.line i) nofun
      henclosed.1 (hy.scanned.enclosed henclosed))
  · -- a right brace
    exact .pure hends
  · -- a left bracket
    refine .ite (fun hexpect => .get ?_) fun hexpect => 
      .pure (hgoes (hy.lbrack (Bool.eq_false_iff.2 hexpect) htok))
    refine .bind (.lift (Q := fun r w' => w' = w ∧ s.Enclosed i r.2)
      fun r hr => ⟨rfl, Source.enclosed_array htok hr⟩) fun r w' ⟨hw', henclosed⟩ => .pure ?_
    subst hw'
    exact hgoes (hy.operand hexpect rfl (s.line i) nofun
      henclosed.1 (hy.scanned.enclosed henclosed))
  · -- a right bracket
    exact advances_onward (climbs_closeIndex hy htok hslips hw)
  · -- a left parenthesis
    exact .ite (fun hexpect => .pure (hgoes (hy.group hexpect htok))) fun _ => .pure hends
  · -- a right parenthesis
    rw [Yard.slips, Bool.or_eq_false_iff] at hslips
    exact advances_onward (climbs_closeParen hy htok hslips.1 hslips.2 hw hnamed hsize)
  · -- a comma
    exact advances_onward (climbs_comma hy htok hslips hw)
  · -- an operator
    exact advances_onward (climbs_operator hy htok hw)
  · -- a constant
    rename_i c
    have hkind : ∀ p, (Token.const c).kind ≠ .punct p := by cases c <;> nofun
    exact .ite (fun hexpect =>
      .pure (hgoes (hy.operand hexpect rfl (s.line i) (hkind _) (Nat.lt_succ_self i)
      (hy.scanned.plain htok ⟨hkind _, hkind _⟩)))) fun _ => .pure hends
  · -- a name
    exact .ite (fun hexpect => advances_onward (climbs_nameOperand hy hexpect htok (.inl rfl) hw))
      fun _ =>
      .pure hends
  · -- a name of the host
    exact .ite (fun hexpect => advances_onward (climbs_nameOperand hy hexpect htok (.inr rfl) hw))
      fun _ =>
      .pure hends
  · -- an argument to spread
    exact .ite (fun _ => .throw_bind _) fun hexpect =>
      .pure (hgoes (hy.tail (Bool.eq_false_iff.2 hexpect) htok))
  · -- no token of an expression
    exact .pure hends

/-- A clean expression stands as high as it has values. -/
theorem stands_takeAll (hy : y.Stands shapes s start i t h) (blockFollows : Bool) {fuel : Nat}
    (hclean : clean s blockFollows fuel y i w = true) (hw : Steady shapes w₀ w)
    (hnamed : SegmentsNamed shapes) (hsize : s.lexemes.size + 3 ≤ 2 ^ 64) :
    Leads w (takeAll s blockFollows fuel y i) fun r w' =>
      r.1.lacksValue = false ∧ Advances shapes w₀ s start r w' := by
  induction fuel generalizing y i t h w with
  | zero =>
    unfold takeAll
    rw [clean, Bool.not_eq_true'] at hclean
    split
    · exact .pure ⟨hclean, hw, t, h, hy⟩
    · exact .throw _
  | succ fuel ih =>
    unfold takeAll
    rw [clean] at hclean
    cases htok : s.token? i with
    | none =>
      rw [htok, Bool.not_eq_true'] at hclean
      exact .pure ⟨hclean, hw, t, h, hy⟩
    | some tok =>
      rw [htok] at hclean
      rw [Bool.and_eq_true, Bool.not_eq_true'] at hclean
      obtain ⟨hslips, hclean⟩ := hclean
      have hi : i < s.lexemes.size := by
        by_contra hle
        rw [Source.token?, Array.getElem?_eq_none (Nat.le_of_not_lt hle)] at htok
        cases htok
      intro r w'' hr
      -- one lexeme, which is no slip, and the rest
      obtain ⟨o, w', ho, hrest⟩ := bind_eq_ok hr
      obtain ⟨hw', hadvances⟩ :=
        climbs_take hy htok blockFollows hslips hw hnamed (by omega) o w' ho
      rw [ho] at hclean
      cases o with
      | none =>
        cases hrest
        rw [Bool.not_eq_true'] at hclean
        exact ⟨hclean, hw', t, h, hy⟩
      | some p =>
        obtain ⟨-, t', h', hy'⟩ := hadvances p rfl
        exact ih hy' hclean hw' r w'' hrest

/-- How many values an expression leaves that reaches from one position to another: one for each of
the expressions that commas separate, but none for an assignment. -/
def Source.values (s : Source) (start stop : Nat) : Nat :=
  if stop = start then 0
  else outside .comma 0 (s.tokens start stop) + 1 - outside .eq 0 (s.tokens start stop)

/-- An expression that can end neither hangs nor leaves a bracket open. -/
theorem finish_eq_ok {code out : Array Instr} {rest : List Pending}
    (hflush : Yard.flushOps (fun _ => true) (s.line i) y.code y.buffer = (out, rest))
    (hfinish : finish s y i = .ok code) :
    y.prev.any Kind.hangs = false ∧ rest = [] ∧
      code = if y.setIndex then out.push ⟨.setIndex, s.line i⟩ else out := by
  have heq : finish s y i = if y.prev.any Kind.hangs then .error
    (s.errorAt .endOfExpression (s.clamp i))
      else if rest.isEmpty then .ok (if y.setIndex then out.push ⟨.setIndex, s.line i⟩ else out)
      else .error (s.errorAt .noPair (s.clamp i)) := by
    rw [finish, hflush]
    cases y.prev <;> rfl
  rw [heq] at hfinish
  split_ifs at hfinish with hhanging hempty hset
  · cases hfinish
    exact ⟨Bool.eq_false_iff.2 hhanging, List.isEmpty_iff.1 hempty, (if_pos hset).symm⟩
  · cases hfinish
    exact ⟨Bool.eq_false_iff.2 hhanging, List.isEmpty_iff.1 hempty, (if_neg hset).symm⟩

/-- At its end all that waited has climbed. -/
theorem climbs_finish (hy : y.Stands shapes s start i t h) (hlacks : y.lacksValue = false)
    {code : Array Instr} (hfinish : finish s y i = .ok code) :
    Climbs shapes 0 (opsOf code) (s.values start i) := by
  rw [Source.values]
  split
  · rename_i heq
    rw [hy.reads heq] at hfinish
    cases hfinish
    exact .nil 0
  rename_i hne
  obtain ⟨⟨out, rest⟩, hflush⟩ : ∃ r, Yard.flushOps (fun _ => true) (s.line i) y.code y.buffer
    = r := ⟨_, rfl⟩
  obtain ⟨hhanging, rfl, rfl⟩ := finish_eq_ok hflush hfinish
  have hexpect : y.expectOperand = false := by
    by_contra htrue
    rw [Bool.not_eq_false] at htrue
    rcases hy.waits htrue with hset | hhangs | hbrackets | heq
    · rw [Yard.lacksValue, hset, htrue] at hlacks
      cases hlacks
    · cases hhanging.symm.trans hhangs
    · -- letting out all operators would end at the bracket
      have hnone : y.buffer.find? Pending.isBracket = none := (flushOps_all hflush).1.symm
      rw [Yard.brackets_eq_zero hnone] at hbrackets
      exact Nat.lt_irrefl 0 hbrackets
    · exact hne heq
  have hclimbs := hy.climbs
  rw [hexpect] at hclimbs
  obtain ⟨hbrackets, h', hpiled, hcode⟩ := hy.piled.flushOps hclimbs hflush
  obtain ⟨-, rfl⟩ := hpiled.eq_zero
  rw [hy.scanned.commas, hy.scanned.assigns]
  cases hset : y.setIndex with
  | true =>
    rw [hset] at hcode
    rw [if_pos rfl, if_pos rfl, opsOf_push]
    exact (show Climbs shapes 0 (opsOf out) (t + 3) from hcode).emit
      (show Op.setIndex.trade? = some (3, 0) from rfl)
  | false =>
    rw [hset] at hcode
    exact hcode

/-- **An expression that compiles without a slip climbs by one value for each of the expressions
that commas separate outside of brackets, by none for an assignment.** -/
theorem climbs_expression (blockFollows : Bool) {start : Nat}
    (hclean : clean s blockFollows (s.lexemes.size - start) {} start w = true)
    (htop : w.top < w.arena.size) (hspelled : w.arena.Every Block.Spelled)
    (hsize : s.lexemes.size + 3 ≤ 2 ^ 64) :
    Leads w (expression s blockFollows start) fun stop w' => ∃ code,
      (w'.block w.top).code = (w.block w.top).code ++ code ∧
      Climbs w.callShapes 0 (opsOf code) (s.values start stop) := by
  have hnamed : SegmentsNamed w.callShapes := by
    intro id f segments hf hsegments
    obtain ⟨g, hg, rfl⟩ := Option.map_eq_some_iff.1 hf
    exact (hspelled id g hg).segments segments hsegments
  -- Nothing is read so far, so the yard is empty and the stack has no operand.
  have hy : Yard.Stands w.callShapes s start start {} 0 0 := by
    refine ⟨⟨Nat.le_refl start, ?_, ?_, ?_⟩, .nil, .nil 0, nofun, fun _ => rfl,
      fun _ => .inr (.inr (.inr rfl))⟩ <;>
      rw [Source.tokens_self] <;> rfl
  have hw : Steady w.callShapes w w := ⟨rfl, rfl, rfl, rfl⟩
  refine .bind (stands_takeAll hy blockFollows hclean hw hnamed hsize) ?_
  rintro ⟨y, stop⟩ w' ⟨hlacks, hw', t, h, hy⟩
  refine .bind (.lift (Q := fun code w'' => w'' = w' ∧
    Climbs w.callShapes 0 (opsOf code) (s.values start stop))
    fun code hcode => ⟨rfl, climbs_finish hy hlacks hcode⟩) ?_
  rintro code _ ⟨rfl, hclimbs⟩
  refine .bind (P := fun _ w'' => (w''.block w.top).code = (w.block w.top).code ++ code)
    (.modify ?_)
    fun _ w'' hcode => .pure ⟨code, hcode, hclimbs⟩
  rw [Work.modifyTop, hw'.top, Work.block_modifyBlock_self (hw'.size ▸ htop)]
  exact congrArg (· ++ code) hw'.code

end

end Covenant.Compile
