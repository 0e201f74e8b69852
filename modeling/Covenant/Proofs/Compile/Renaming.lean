import Covenant.Proofs.Compile.Outcome
import Covenant.Proofs.Compile.Units
import Covenant.Proofs.Renaming

/-!
# Units behind other blocks

A unit gets the numbers behind the blocks that are there. If there are more of them, its blocks have
higher numbers, and that is all (`Arena.compile_shifted`): the same text is compiled to the same
code, as long as the names that it mentions stand for the same. The two compilations are carried out
side by side, and the works on both sides are related by `Work.Shifted`.
-/

namespace Covenant

/-! ### Numbers that have moved up -/

/-- The number of a block if the blocks from some number on have moved up. -/
def shift (low gap id : Nat) : Nat := if id < low then id else id + gap

theorem shift_of_lt {low id : Nat} (h : id < low) (gap : Nat) : shift low gap id = id := if_pos h

theorem shift_of_le {low id : Nat} (h : low ≤ id) (gap : Nat) : shift low gap id = id + gap :=
  if_neg (Nat.not_lt.2 h)

theorem shift_inj {low gap id id' : Nat} : shift low gap id = shift low gap id' ↔ id = id' := by
  unfold shift
  split <;> split <;> omega

theorem shift_lt {low gap id n : Nat} (h : low ≤ n) : shift low gap id < n + gap ↔ id < n := by
  unfold shift
  split <;> omega

/-! ### Arenas -/

/-- Whether an arena is another one with more blocks somewhere, above which the blocks have moved
up. -/
structure Arena.Shifted (low gap : Nat) (a a' : Arena) : Prop where
  le : low ≤ a.size
  size : a'.size = a.size + gap
  block : ∀ id, (a.block id).Renames (shift low gap) (a'.block (shift low gap id))

namespace Arena.Shifted

variable {low gap : Nat} {a a' : Arena}

/-- A change that both make in renamed blocks. -/
theorem modify (h : a.Shifted low gap a') {id id' : BlockId} (hid : id' = shift low gap id)
    {f f' : Block → Block} (hf : (a.block id).Renames (shift low gap) (a'.block id') →
      (f (a.block id)).Renames (shift low gap) (f' (a'.block id'))) :
    Arena.Shifted low gap (a.modify id f) (a'.modify id' f') := by
  subst hid
  refine ⟨?_, ?_, fun j => ?_⟩
  · rw [Array.size_modify]
    exact h.le
  · rw [Array.size_modify, Array.size_modify]
    exact h.size
  · have hj := h.block j
    rw [Arena.block_modify, Arena.block_modify]
    simp only [shift_inj, h.size, shift_lt h.le]
    split
    · rename_i heq
      obtain ⟨rfl, -⟩ := heq
      exact hf hj
    · exact hj

/-- A new block behind both gets a number that has moved up. -/
theorem push (h : a.Shifted low gap a') {b b' : Block} (hb : b.Renames (shift low gap) b') :
    Arena.Shifted low gap (a.push b) (a'.push b') := by
  refine ⟨?_, ?_, fun j => ?_⟩
  · rw [Array.size_push]
    exact Nat.le_succ_of_le h.le
  · rw [Array.size_push, Array.size_push, h.size, Nat.add_right_comm]
  · have hnew : a'.size = shift low gap a.size := by rw [shift_of_le h.le, h.size]
    rw [Arena.block_push, Arena.block_push, hnew]
    simp only [shift_inj]
    split
    · exact hb
    · exact h.block j

end Arena.Shifted

namespace Compile

open Covenant.Computation

/-- A source that is compiled against other global names. -/
def Source.withGlobals (s : Source) (globals : Dict Binding) :
    Source := { s with globals := globals }

theorem Source.line_withGlobals (s : Source) (globals : Dict Binding) (i : Nat) :
    (s.withGlobals globals).line i = s.line i := rfl

theorem Source.kind?_withGlobals (s : Source) (globals : Dict Binding) (i : Nat) :
    (s.withGlobals globals).kind? i = s.kind? i := rfl

theorem Source.token?_withGlobals (s : Source) (globals : Dict Binding) (i : Nat) :
    (s.withGlobals globals).token? i = s.token? i := rfl

/-! ### Related works -/

/-- Whether a work is another one whose blocks from some number on have moved up. -/
structure Work.Shifted (low gap : Nat) (w w' : Work) : Prop where
  arena : w.arena.Shifted low gap w'.arena
  root : w'.root = shift low gap w.root
  inner : w'.inner = w.inner.map (shift low gap)
  pending : w'.pending = w.pending
  pendingFields : w'.pendingFields = w.pendingFields
  fieldStep : w'.fieldStep = w.fieldStep
  constName : w'.constName = w.constName

namespace Work.Shifted

variable {low gap : Nat} {w w' : Work}

theorem block (h : w.Shifted low gap w') (id : BlockId) :
    (w.block id).Renames (shift low gap) (w'.block (shift low gap id)) := h.arena.block id

theorem top (h : w.Shifted low gap w') : w'.top = shift low gap w.top := by
  unfold Work.top
  rw [h.inner, h.root]
  cases w.inner <;> rfl

theorem parent (h : w.Shifted low gap w') : w'.parent = shift low gap w.parent := by
  unfold Work.parent
  rw [h.inner, h.root]
  rcases w.inner with _ | ⟨_, _ | ⟨_, _⟩⟩ <;> rfl

theorem opened (h : w.Shifted low gap w') : w'.opened = w.opened.map (shift low gap) := by
  rw [Work.opened, Work.opened, h.inner, h.root, List.map_append]
  rfl

theorem topBlock (h : w.Shifted low gap w') :
    (w.block w.top).Renames (shift low gap) (w'.block w'.top) := h.top ▸ h.block w.top

theorem parentBlock (h : w.Shifted low gap w') :
    (w.block w.parent).Renames (shift low gap) (w'.block w'.parent) := h.parent ▸ h.block w.parent

theorem modifyBlock (h : w.Shifted low gap w') {id id' : BlockId} (hid : id' = shift low gap id)
    {f f' : Block → Block} (hf : (w.block id).Renames (shift low gap) (w'.block id') →
      (f (w.block id)).Renames (shift low gap) (f' (w'.block id'))) :
    (w.modifyBlock id f).Shifted low gap (w'.modifyBlock id' f') :=
  { h with arena := h.arena.modify hid hf }

theorem modifyTop (h : w.Shifted low gap w') {f f' : Block → Block}
    (hf : (w.block w.top).Renames (shift low gap) (w'.block w'.top) →
      (f (w.block w.top)).Renames (shift low gap) (f' (w'.block w'.top))) :
    (w.modifyTop f).Shifted low gap (w'.modifyTop f') := h.modifyBlock h.top hf

theorem modifyContract (h : w.Shifted low gap w') (f : ContractInfo → ContractInfo) :
    (w.modifyTop fun b => b.modifyContract f).Shifted low gap
    (w'.modifyTop fun b => b.modifyContract f) :=
  h.modifyTop fun hb => hb.modifyContract f

/-- A block that both open. -/
theorem openBlock (h : w.Shifted low gap w') : w.openBlock.Shifted low gap w'.openBlock := by
  have hnew : w'.arena.size = shift low gap w.arena.size := by
    rw [shift_of_le h.arena.le, h.arena.size]
  have hpush : Work.Shifted low gap { w with arena := w.arena.push { parent := some w.top } }
      { w' with arena := w'.arena.push { parent := some w'.top } } :=
    { h with arena := h.arena.push { Block.Renames.empty _ with parent := congrArg some h.top } }
  have hchild : Work.Shifted low gap
      (Work.modifyTop { w with arena := w.arena.push { parent := some w.top } }
        fun b => { b with children := b.children.push w.arena.size })
      (Work.modifyTop { w' with arena := w'.arena.push { parent := some w'.top } }
        fun b => { b with children := b.children.push w'.arena.size }) :=
    hpush.modifyTop fun hb => hb.pushChild hnew
  exact { hchild with inner := congrArg₂ List.cons hnew h.inner }

theorem foldl_modifyBlock (h : w.Shifted low gap w') {f : Block → Block}
    (hf : ∀ {b b' : Block}, b.Renames (shift low gap) b' → (f b).Renames (shift low gap) (f b'))
    (ids : List BlockId) : Work.Shifted low gap (ids.foldl (fun w id => w.modifyBlock id f) w)
      ((ids.map (shift low gap)).foldl (fun w id => w.modifyBlock id f) w') := by
  induction ids generalizing w w' with
  | nil => exact h
  | cons id ids ih => exact ih (h.modifyBlock rfl hf)

theorem setWritable (h : w.Shifted low gap w') : w.setWritable.Shifted low gap w'.setWritable := by
  unfold Work.setWritable
  rw [h.opened]
  exact h.foldl_modifyBlock (fun hb => hb.setWritable) _

theorem noteUse (h : w.Shifted low gap w') (contract : String) :
    (w.noteUse contract).Shifted low gap (w'.noteUse contract) := by
  unfold Work.noteUse
  rw [h.opened]
  exact h.foldl_modifyBlock (fun hb => hb.modifyContract _) _

/-! ### Looking up names -/

/-- A name is found in renamed blocks alike. -/
theorem findVar (h : w.Shifted low gap w') (name : String) :
    w'.findVar name = (w.findVar name).map (Target.rename (shift low gap)) := by
  have hall : ∀ ids : List BlockId, findVarIn w' name (ids.map (shift low gap))
      = (findVarIn w name ids).map (Target.rename (shift low gap)) := by
    intro ids
    induction ids with
    | nil => rfl
    | cons id ids ih =>
      rw [List.map_cons, findVarIn, findVarIn, (h.block id).objects]
      rcases (w.block id).objects.get? name with _ | v
      · exact ih
      · cases v <;> rfl
  rw [Work.findVar, h.opened]
  exact hall _

/-- A key is found alike if the globals are renamed, too. -/
theorem findKey (h : w.Shifted low gap w') {s : Source} {globals : Dict Binding} {key : String}
    (hkey : globals.get? key = (s.globals.get? key).map (Binding.rename (shift low gap))) :
    Work.findKey (s.withGlobals globals) w' key
      = (Work.findKey s w key).map (Binding.rename (shift low gap)) := by
  have hall : ∀ ids : List BlockId,
      (ids.map (shift low gap)).findSome? (fun id => (w'.block id).objects.get? key)
        = (ids.findSome? fun id => (w.block id).objects.get? key).map
        (Binding.rename (shift low gap)) := by
    intro ids
    induction ids with
    | nil => rfl
    | cons id ids ih =>
      rw [List.map_cons, List.findSome?_cons, List.findSome?_cons, (h.block id).objects, ih]
      cases (w.block id).objects.get? key <;> rfl
  unfold Work.findKey
  rw [h.opened, hall]
  cases w.opened.findSome? fun id => (w.block id).objects.get? key with
  | some v => rfl
  | none => exact hkey

end Work.Shifted

/-- Whether the names that a unit mentions stand for the same among other global names, where the
blocks from some number on have moved up. -/
structure Source.Agrees (low gap : Nat) (s : Source) (globals : Dict Binding) : Prop where
  runner : globals.get? "ExecContract"
    = (s.globals.get? "ExecContract").map (Binding.rename (shift low gap))
  plain : ∀ i name, s.token? i = some (.ident name) →
    globals.get? name = (s.globals.get? name).map (Binding.rename (shift low gap))
  qualified : ∀ i name, s.token? i = some (.ident name) →
    globals.get? (Name.qualify s.state.toNat name)
      = (s.globals.get? (Name.qualify s.state.toNat name)).map (Binding.rename (shift low gap))

/-- A name that stands in the source is found alike. -/
theorem Work.Shifted.find {low gap : Nat} {w w' : Work} (h : w.Shifted low gap w') {s : Source}
    {globals : Dict Binding} (hs : s.Agrees low gap globals) {i : Nat} {name : String}
    (hname : s.token? i = some (.ident name)) : Work.find (s.withGlobals globals) w' name
      = (Work.find s w name).map (Binding.rename (shift low gap)) := by
  unfold Work.find
  rw [h.findKey (hs.plain i name hname)]
  cases Work.findKey s w name with
  | some v => rfl
  | none => exact h.findKey (hs.qualified i name hname)

/-! ### Expressions under way -/

/-- What a pending call will call, where blocks have other numbers. -/
def CallTarget.rename (ρ : BlockId → BlockId) : CallTarget → CallTarget
  | .func id => .func (ρ id)
  | t => t

/-- A call whose arguments are being read, where blocks have other numbers. -/
def PendingCall.rename (ρ : BlockId → BlockId) (c : PendingCall) : PendingCall :=
  { c with target := c.target.rename ρ }

/-- What waits for its place in the output, where blocks have other numbers. -/
def Pending.rename (ρ : BlockId → BlockId) : Pending → Pending
  | .op o => .op (o.rename ρ)
  | .call c => .call (c.rename ρ)
  | p => p

/-- An expression under way, where blocks have other numbers. -/
def Yard.rename (ρ : BlockId → BlockId) (y : Yard) : Yard :=
  { y with code := y.code.map (Instr.rename ρ), buffer := y.buffer.map (Pending.rename ρ) }

namespace Yard

variable (ρ : BlockId → BlockId)

theorem emit_rename (y : Yard) (op : Op) (line : Nat) :
    (y.rename ρ).emit (op.rename ρ) line = (y.emit op line).rename ρ := by
  unfold emit rename
  rw [Array.map_push]
  rfl

/-- Operators are pushed out alike. -/
theorem flushOps_rename {out : Op → Bool} (hout : ∀ o, out (o.rename ρ) = out o) (line : Nat)
    (code : Array Instr) (buffer : List Pending) :
    flushOps out line (code.map (Instr.rename ρ)) (buffer.map (Pending.rename ρ))
      = Prod.map (Array.map (Instr.rename ρ)) (List.map (Pending.rename ρ))
        (flushOps out line code buffer) := by
  induction buffer generalizing code with
  | nil => rfl
  | cons p rest ih =>
    cases p with
    | op o =>
      have hnext := ih (code.push ⟨o, line⟩)
      rw [Array.map_push] at hnext
      change (if out (o.rename ρ) then _ else _) = Prod.map _ _ (if out o then _ else _)
      rw [hout]
      split
      · exact hnext
      · rfl
    | paren | index | call | chain => rfl

/-- So is what waits in front of a bracket. -/
theorem flushUntil_rename {stop : Pending → Bool} (hstop : ∀ p, stop (p.rename ρ) = stop p)
    (line : Nat) (code : Array Instr) (buffer : List Pending) :
    flushUntil stop line (code.map (Instr.rename ρ)) (buffer.map (Pending.rename ρ))
      = (flushUntil stop line code buffer).map (Prod.map (Array.map (Instr.rename ρ))
        (Prod.map (Pending.rename ρ) (List.map (Pending.rename ρ)))) := by
  induction buffer generalizing code with
  | nil => rfl
  | cons p rest ih =>
    have hp := hstop p
    cases p with
    | op o =>
      have hnext := ih (code.push ⟨o, line⟩)
      rw [Array.map_push] at hnext
      change (if stop (Pending.rename ρ (.op o)) then _ else _)
        = Option.map _ (if stop (.op o) then _ else _)
      rw [hp]
      split
      · rfl
      · exact hnext
    | paren | index | call | chain =>
      change (if stop (Pending.rename ρ _) then _ else _) = Option.map _ (if stop _ then _ else _)
      rw [hp]
      split <;> rfl

theorem inBrackets_rename (y : Yard) : (y.rename ρ).inBrackets = y.inBrackets := by
  unfold inBrackets rename
  rw [List.any_map]
  congr 1
  funext p
  cases p <;> rfl

/-- Whether the code ends in a segment does not depend on numbers. -/
theorem endsInSegment_rename (y : Yard) : endsInSegment (y.rename ρ) = endsInSegment y := by
  unfold endsInSegment rename
  rw [Array.back?_map]
  cases y.code.back? with
  | none => rfl
  | some i =>
    obtain ⟨op, line⟩ := i
    cases op <;> rfl

/-- The instructions of a renamed call are the renamed ones. -/
theorem emitCall_rename (y : Yard) (f : Callee) (variadic : Bool) (count line callLine : Nat) :
    emitCall (y.rename ρ) (f.rename ρ) variadic count line callLine
      = (emitCall y f variadic count line callLine).rename ρ := by
  unfold emitCall
  split
  · rw [← emit_rename, ← emit_rename]
    rfl
  · rw [← emit_rename]
    rfl

end Yard

theorem isIndex_rename (ρ : BlockId → BlockId) (p : Pending) :
    isIndex (p.rename ρ) = isIndex p := by
  cases p <;> rfl

theorem isParen_rename (ρ : BlockId → BlockId) (p : Pending) :
    isParen (p.rename ρ) = isParen p := by
  cases p <;> rfl

theorem staysBelow_rename (ρ : BlockId → BlockId) (o new : Op) :
    Yard.staysBelow (o.rename ρ) new = Yard.staysBelow o new := by
  unfold Yard.staysBelow
  rw [Op.opcode_rename]

/-! ### Calls -/

section calls

variable {low gap : Nat} {s : Source} {globals : Dict Binding}

/-- Whether a step of compilation does the same behind other blocks. -/
abbrev Parallel (low gap : Nat) {α β : Type} (g : α → β) (x : Compiling α) (x' : Compiling β) :
    Prop :=
  Carries (Work.Shifted low gap) g x x'

/-- What runs contracts is found alike. -/
theorem parallel_contractRunner (hs : s.Agrees low gap globals) (i : Nat) :
    Parallel low gap (fun e => e) (contractRunner s i)
    (contractRunner (s.withGlobals globals) i) := by
  unfold contractRunner
  rw [show (s.withGlobals globals).globals = globals from rfl, hs.runner]
  cases s.globals.get? "ExecContract" with
  | none => exact .throw _
  | some v =>
    cases v with
    | ext e => exact .pure rfl
    | contract | func | var | extVar => exact .throw _

theorem openContracts_shifted {w w' : Work} (h : w.Shifted low gap w') :
    openContracts w' = openContracts w := by
  unfold openContracts
  rw [h.opened, List.filterMap_map]
  congr 1
  funext id
  rw [Function.comp_apply, (h.block id).contract?]

/-- Calls of contracts are opened alike, with the renamed fields. -/
theorem parallel_openContract (hs : s.Agrees low gap globals) (id : BlockId) (i : Nat) (y : Yard) :
    Parallel low gap (Prod.map (Yard.rename (shift low gap)) (PendingCall.rename (shift low gap)))
      (openContract s id i y)
      (openContract (s.withGlobals globals) (shift low gap id) i (y.rename (shift low gap))) := by
  refine .get_bind fun w w' h => ?_
  have hcalls : ∀ used name, wouldRecur w' name used = wouldRecur w name used := fun used name => by
    rw [wouldRecur, wouldRecur, openContracts_shifted h]
  -- what is noted depends on the name, the uses and the mark
  -- of the contract, none of which is a number
  have hopen : ∀ (name : String) (used : List String) (canWrite : Bool),
      Parallel low gap (Prod.map (Yard.rename (shift low gap)) (PendingCall.rename (shift low gap)))
        (do
          if wouldRecur w name used then failAt s .recursion i
          set (if canWrite then (w.noteUse name).setWritable else w.noteUse name)
          let e ← contractRunner s i
          return (y.emit (.push (.str name)) (s.line i),
            { target := .ext e, contract := true, line := s.line i }))
        (do
          if wouldRecur w' name used then failAt s .recursion i
          set (if canWrite then (w'.noteUse name).setWritable else w'.noteUse name)
          let e ← contractRunner (s.withGlobals globals) i
          return ((y.rename (shift low gap)).emit (.push (.str name)) (s.line i),
            { target := .ext e, contract := true, line := s.line i })) := by
    intro name used canWrite
    refine .ite (by rw [hcalls]) (.throw_bind _) (.bind (.set ?_) fun _ =>
      .bind (parallel_contractRunner hs i) fun e => .pure ?_)
    · cases canWrite
      · exact h.noteUse name
      · exact (h.noteUse name).setWritable
    · exact congrArg (·, _) (Yard.emit_rename _ y (.push (.str name)) _)
  have hcontract := (h.block id).contract?
  cases hc : (w.block id).contract? with
  | none =>
    rw [hc] at hcontract
    simp only [hcontract]
    exact hopen "" [] false
  | some c =>
    rw [hc] at hcontract
    simp only [hcontract]
    exact hopen c.name c.used c.canWrite

/-- So are all calls. -/
theorem parallel_openCall (hs : s.Agrees low gap globals) {j : Nat} {name : String}
    (hname : s.token? j = some (.ident name)) (i : Nat) (y : Yard) :
    Parallel low gap (Prod.map (Yard.rename (shift low gap)) (PendingCall.rename (shift low gap)))
      (openCall s name i y)
      (openCall (s.withGlobals globals) name i (y.rename (shift low gap))) := by
  refine .get_bind fun w w' h => ?_
  rw [h.find hs hname]
  have hpush : ∀ c : Constant, (y.rename (shift low gap)).emit (.push c) (s.line i)
      = (y.emit (.push c) (s.line i)).rename (shift low gap) :=
    fun c => Yard.emit_rename _ y (.push c) _
  cases w.find s name with
  | none =>
    refine .ite Iff.rfl (.bind (parallel_contractRunner hs i) fun e => .pure ?_) (.throw _)
    exact congrArg (·, _) (hpush _)
  | some v =>
    cases v with
    | func id => exact .pure rfl
    | ext e =>
      refine .ite Iff.rfl (.pure ?_) (.pure rfl)
      exact congrArg (·, _) (hpush _)
    | contract id => exact parallel_openContract hs id i y
    | var | extVar => exact .throw _

/-- A call of a function is checked against the same header. -/
theorem parallel_endFunc (id : BlockId) (count : Nat) (c : PendingCall) (i : Nat) (y : Yard) :
    Parallel low gap (Yard.rename (shift low gap)) (endFunc s id count c i y)
      (endFunc (s.withGlobals globals) (shift low gap id) count (c.rename (shift low gap)) i
        (y.rename (shift low gap))) := by
  refine .get_bind fun w w' h => ?_
  rw [(h.block id).func?]
  cases (w.block id).func? with
  | none => exact .throw _
  | some f =>
    have hcall := (Yard.emitCall_rename (shift low gap) y (.func id) f.variadic count
      (s.line i) c.line).symm
    exact .ite Iff.rfl (.throw_bind _)
      (.ite Iff.rfl (.bind (.set h.setWritable) fun _ => .pure hcall.symm)
      (.pure hcall.symm))

/-- A call of an extension knows no numbers. -/
theorem parallel_endExt (e : Extension) (count : Nat) (c : PendingCall) (i : Nat) (y : Yard) :
    Parallel low gap (Yard.rename (shift low gap)) (endExt s e count c i y)
      (endExt (s.withGlobals globals) e count (c.rename (shift low gap)) i
        (y.rename (shift low gap))) := by
  have hend : ∀ (y : Yard) (count : Nat), Parallel low gap (Yard.rename (shift low gap))
      (do
        if !e.takes count then failAt s (.wrongParams e.name e.params.length) i
        if e.canWrite then modify Work.setWritable
        return emitCall y (.ext e) e.variadic count (s.line i) c.line)
      (do
        if !e.takes count then failAt s (.wrongParams e.name e.params.length) i
        if e.canWrite then modify Work.setWritable
        return emitCall (y.rename (shift low gap)) (.ext e) e.variadic count
          (s.line i) c.line) := by
    intro y count
    have hcall := Yard.emitCall_rename (shift low gap) y (.ext e) e.variadic count (s.line i) c.line
    exact .ite Iff.rfl (.throw_bind _) (.ite Iff.rfl
      (.bind (.modify fun _ _ h => h.setWritable) fun _ => .pure hcall) (.pure hcall))
  obtain ⟨target, contract, stateArg, given, line⟩ := c
  cases contract with
  | false => cases stateArg <;> exact hend y _
  | true =>
    cases count with
    | zero =>
      -- a call of a contract without arguments has an empty list of names
      have hnames := fun count => hend (y.emit (.push (.str "")) (s.line i)) count
      simp only [← Yard.emit_rename] at hnames
      cases stateArg <;> exact hnames _
    | succ n => cases stateArg <;> exact hend y _

/-- So calls end alike. -/
theorem parallel_endCall (count : Nat) (c : PendingCall) (i : Nat) (y : Yard) :
    Parallel low gap (Yard.rename (shift low gap)) (endCall s count c i y)
      (endCall (s.withGlobals globals) count (c.rename (shift low gap)) i
        (y.rename (shift low gap))) := by
  obtain ⟨target, contract, stateArg, given, line⟩ := c
  cases target with
  | func id => exact parallel_endFunc id count _ i y
  | ext e => exact parallel_endExt e count _ i y
  | extend name =>
    refine .pure ?_
    rw [← Yard.emit_rename, ← Yard.emit_rename]
    rfl

theorem segmentsOf_shifted {w w' : Work} (h : w.Shifted low gap w') (c : PendingCall) :
    segmentsOf w' (c.rename (shift low gap)) = segmentsOf w c := by
  obtain ⟨target, contract, stateArg, given, line⟩ := c
  cases target with
  | func id => exact congrArg (Option.bind · _) (h.block id).func?
  | ext | extend => rfl

/-- What a pending call does when its argument list is closed. -/
theorem parallel_closePending (c : PendingCall) (rest : List Pending)
    (count : Nat) (i : Nat) (y : Yard) :
    Parallel low gap (Prod.map (Yard.rename (shift low gap)) fun n => n)
      (do
        match segmentsOf (← get) c with
        | none => return (← endCall s count c i { y with buffer := rest }, none)
        | some segments =>
          let y := if endsInSegment y then y else y.emit (.push .nil) (s.line i)
          if chainFollows s i then
            let segment := s.name (i + 2)
            if !segments.contains segment then failAt s (.unknownFunction segment) (i + 2)
            return ({ y with
              buffer := .paren true :: .chain segment
                :: .call { c with count := some count } :: rest
              counts := 0 :: y.counts }, some (i + 3))
          else
            return (← endCall s count c i { y with buffer := rest }, none) :
        Compiling (Yard × Option Nat))
      (do
        match segmentsOf (← get) (c.rename (shift low gap)) with
        | none => return (← endCall (s.withGlobals globals) count (c.rename (shift low gap)) i
            { y.rename (shift low gap) with buffer := rest.map (Pending.rename (shift low gap)) },
            none)
        | some segments =>
          let y := if endsInSegment (y.rename (shift low gap)) then y.rename (shift low gap)
            else (y.rename (shift low gap)).emit (.push .nil) (s.line i)
          if chainFollows s i then
            let segment := s.name (i + 2)
            if !segments.contains segment then failAt s (.unknownFunction segment) (i + 2)
            return ({ y with
              buffer := .paren true :: .chain segment ::
                .call { c.rename (shift low gap) with count := some count } ::
                  rest.map (Pending.rename (shift low gap))
              counts := 0 :: y.counts }, some (i + 3))
          else
            return (← endCall (s.withGlobals globals) count (c.rename (shift low gap)) i
              { y with buffer := rest.map (Pending.rename (shift low gap)) }, none) :
        Compiling (Yard × Option Nat)) := by
  -- without a segment behind it the call is ended
  have hend : ∀ y : Yard, Parallel low gap (Prod.map (Yard.rename (shift low gap)) fun n => n)
      (do return (← endCall s count c i { y with buffer := rest }, (none : Option Nat)))
      (do return (← endCall (s.withGlobals globals) count (c.rename (shift low gap)) i
        { y.rename (shift low gap) with buffer := rest.map (Pending.rename (shift low gap)) },
          (none : Option Nat))) :=
    fun y => .bind (parallel_endCall count c i { y with buffer := rest }) fun _ => .pure rfl
  refine .get_bind fun w w' h => ?_
  rw [segmentsOf_shifted h]
  cases segmentsOf w c with
  | none => exact hend y
  | some segments =>
    -- both put down the operand for segments, or neither does
    have hnil : (if endsInSegment (y.rename (shift low gap)) then y.rename (shift low gap)
        else (y.rename (shift low gap)).emit (.push .nil) (s.line i))
          = (if endsInSegment y then y else y.emit (.push .nil) (s.line i)).rename
          (shift low gap) := by
      rw [Yard.endsInSegment_rename]
      split
      · rfl
      · exact Yard.emit_rename _ y (.push .nil) _
    dsimp only
    rw [hnil]
    exact .ite Iff.rfl (.ite Iff.rfl (.throw_bind _) (.pure rfl)) (hend _)

/-- Behind a call both find the same segment, or none. -/
theorem parallel_closeCall (count : Nat) (i : Nat) (y : Yard) :
    Parallel low gap (Prod.map (Yard.rename (shift low gap)) fun n => n) (closeCall s count i y)
      (closeCall (s.withGlobals globals) count i (y.rename (shift low gap))) := by
  obtain ⟨code, buffer, counts, setIndex, expectOperand, prev⟩ := y
  rcases buffer with _ | ⟨p, rest⟩
  · exact .throw _
  · cases p with
    | call c =>
      exact parallel_closePending c rest (c.count.getD count) i
        ⟨code, .call c :: rest, counts, setIndex, expectOperand, prev⟩
    | chain segment =>
      rcases rest with _ | ⟨p, rest⟩
      · exact .throw _
      · cases p with
        | call c =>
          have hcollect := @parallel_closePending low gap s globals c rest (c.count.getD count) i
            (Yard.emit ⟨code, .call c :: rest, counts, setIndex, expectOperand, prev⟩
              (.funcName segment count) (s.line i))
          simp only [← Yard.emit_rename] at hcollect
          exact hcollect
        | op | paren | index | chain => exact .throw _
    | op | paren | index => exact .throw _

end calls

/-! ### Expressions -/

section expressions

variable {low gap : Nat} {s : Source} {globals : Dict Binding}

/-- What an expression has read, where the blocks from some number on have moved up. -/
abbrev moved (low gap : Nat) : Yard × Nat → Yard × Nat :=
  Prod.map (Yard.rename (shift low gap)) fun i => i

theorem Yard.flushUntil_moved (y : Yard) {stop : Pending → Bool}
    (hstop : ∀ p, stop (p.rename (shift low gap)) = stop p) (line : Nat) :
    flushUntil stop line (y.rename (shift low gap)).code (y.rename (shift low gap)).buffer
      = (flushUntil stop line y.code y.buffer).map
      (Prod.map (Array.map (Instr.rename (shift low gap)))
        (Prod.map (Pending.rename (shift low gap)) (List.map (Pending.rename (shift low gap))))) :=
  flushUntil_rename _ hstop line y.code y.buffer

theorem Yard.flushOps_moved (y : Yard) {out : Op → Bool}
    (hout : ∀ o, out (o.rename (shift low gap)) = out o) (line : Nat) :
    flushOps out line (y.rename (shift low gap)).code (y.rename (shift low gap)).buffer
      = Prod.map (Array.map (Instr.rename (shift low gap)))
      (List.map (Pending.rename (shift low gap)))
        (flushOps out line y.code y.buffer) :=
  flushOps_rename _ hout line y.code y.buffer

/-- An index is closed alike. -/
theorem parallel_closeIndex (y : Yard) (i : Nat) :
    Parallel low gap (moved low gap) (closeIndex s y i)
    (closeIndex (s.withGlobals globals) (y.rename (shift low gap)) i) := by
  refine .ite Iff.rfl (.throw_bind _) ?_
  rw [y.flushUntil_moved (isIndex_rename _), s.line_withGlobals, s.kind?_withGlobals]
  rcases Yard.flushUntil isIndex (s.line i) y.code y.buffer with _ | ⟨code, p, buffer⟩
  · exact .throw _
  · -- The bracket closes an index that is read, unless an equals sign follows.
    have hindex : ∀ y : Yard, Parallel low gap (moved low gap)
        (pure ({ y.emit .index (s.line i) with prev := some (.punct .rbrack) }, i + 1))
        (pure ({ (y.rename (shift low gap)).emit .index (s.line i) with
          prev := some (.punct .rbrack) }, i + 1)) := by
      intro y
      refine .pure ?_
      have hemit := Yard.emit_rename (shift low gap) y .index (s.line i)
      exact congrArg (fun y : Yard => ({ y with prev := some (.punct .rbrack) }, i + 1)) hemit
    rcases s.kind? (i + 1) with _ | k
    · exact hindex { y with code := code, buffer := buffer }
    · cases k with
      | punct p =>
        cases p with
        | lbrack => exact .throw _
        | eq =>
          exact .ite (by cases buffer <;> rfl) (.pure rfl)
            (hindex { y with code := code, buffer := buffer })
        | _ => exact hindex { y with code := code, buffer := buffer }
      | _ => exact hindex { y with code := code, buffer := buffer }

/-- So is a parenthesis. -/
theorem parallel_closeParen (y : Yard) (i : Nat) :
    Parallel low gap (moved low gap) (closeParen s y i)
    (closeParen (s.withGlobals globals) (y.rename (shift low gap)) i) := by
  refine .ite Iff.rfl (.throw_bind _) ?_
  rw [y.flushUntil_moved (isParen_rename _), s.line_withGlobals]
  rcases Yard.flushUntil isParen (s.line i) y.code y.buffer with _ | ⟨code, p, buffer⟩
  · exact .throw _
  · cases p with
    | paren call =>
      cases call with
      | false => exact .pure rfl
      | true =>
        refine .bind (parallel_closeCall _ i { y with
          code := code, buffer := buffer, expectOperand := false, counts := y.counts.tail })
            fun r => ?_
        obtain ⟨y', chained⟩ := r
        cases chained with
        | none => exact .pure rfl
        | some next => exact .pure rfl
    | op | index | call | chain => exact .pure rfl

/-- A comma separates alike. -/
theorem parallel_comma (y : Yard) (i : Nat) : Parallel low gap (moved low gap) (comma s y i)
    (comma (s.withGlobals globals) (y.rename (shift low gap)) i) := by
  refine .ite Iff.rfl (.throw_bind _) (.pure ?_)
  rw [y.flushOps_moved fun _ => rfl, s.line_withGlobals,
    show (y.rename (shift low gap)).counts = y.counts from rfl]
  rcases Yard.flushOps (fun _ => true) (s.line i) y.code y.buffer with ⟨code, _ | ⟨p, rest⟩⟩
  · rfl
  · cases p with
    | paren call => cases call <;> cases y.counts <;> rfl
    | op | index | call | chain => rfl

/-- Operators bind alike. -/
theorem parallel_operator (y : Yard) (o : Operator) (i : Nat) :
    Parallel low gap (moved low gap) (operator s y o i)
      (operator (s.withGlobals globals) (y.rename (shift low gap)) o i) := by
  unfold operator
  rw [show (y.rename (shift low gap)).expectOperand = y.expectOperand from rfl]
  generalize (if o = .sub ∧ y.expectOperand then Opcode.unary .sign else o.opcode) = opcode
  cases opcode with
  | unary op => exact .ite Iff.rfl (.throw_bind _) (.pure rfl)
  | binary op =>
    refine .ite Iff.rfl (.throw_bind _) (.pure ?_)
    rw [y.flushOps_moved fun p => congrArg (!·) (staysBelow_rename _ p _), s.line_withGlobals]
    rfl
  | _ => exact .throw _

/-- A name, behind which a parenthesis may follow. -/
theorem parallel_nameOperand (hs : s.Agrees low gap globals) {t : Token} {name : String}
    (ht : t = .extend name ∨ t = .ident name ∧ s.token? i = some t) (y : Yard) :
    Parallel low gap (moved low gap) (nameOperand s y t name i)
      (nameOperand (s.withGlobals globals) (y.rename (shift low gap)) t name i) := by
  have hemit : ∀ op : Op, Parallel low gap (moved low gap)
      (pure ((y.emit op (s.line i)).operand t.kind, i + 1))
      (pure (((y.rename (shift low gap)).emit (op.rename (shift low gap)) (s.line i)).operand
        t.kind, i + 1)) :=
    fun op => .pure (congrArg (fun y : Yard => (y.operand t.kind, i + 1))
      (Yard.emit_rename _ y op _))
  refine .ite Iff.rfl ?_ ?_
  · rcases ht with rfl | ⟨rfl, hname⟩
    · exact .pure rfl
    · exact .bind (parallel_openCall hs hname i y) fun _ => .pure rfl
  · rcases ht with rfl | ⟨rfl, -⟩
    · exact hemit (.extendVar name)
    · refine .get_bind fun w w' h => ?_
      rw [h.findVar]
      cases w.findVar name with
      | none => exact .throw_bind _
      | some v =>
        cases v with
        | var v => exact hemit (.var v)
        | extend key => exact hemit (.extendVar key)

/-- Whether literals that are read with some fuel are the same but for the numbers of blocks. -/
structure LiteralsMoved (low gap : Nat) (s : Source) (globals : Dict Binding)
    (w w' : Work) (fuel : Nat) :
    Prop where
  entries : ∀ i key comma, mapFrom (s.withGlobals globals) w' fuel i key comma
    = (mapFrom s w fuel i key comma).map (Prod.map (Item.renameEntries (shift low gap)) fun i => i)
  items : ∀ i comma, arrayFrom (s.withGlobals globals) w' fuel i comma
    = (arrayFrom s w fuel i comma).map (Prod.map (Item.renameAll (shift low gap)) fun i => i)
  item : ∀ i, itemFrom (s.withGlobals globals) w' fuel i
    = (itemFrom s w fuel i).map (Prod.map (Item.rename (shift low gap)) fun i => i)

variable {w w' : Work} {fuel : Nat}

/-- A map literal is read alike if its members are. -/
theorem LiteralsMoved.mapFrom_succ (ih : LiteralsMoved low gap s globals w w' fuel) (i : Nat)
    (key : Option String) (comma : Bool) : mapFrom (s.withGlobals globals) w' (fuel + 1) i key comma
      = (mapFrom s w (fuel + 1) i key comma).map
        (Prod.map (Item.renameEntries (shift low gap)) fun i => i) := by
  rw [mapFrom, mapFrom, s.token?_withGlobals]
  rcases s.token? i with _ | t
  · rfl
  cases key with
  | none =>
    cases t with
    | newline => exact ih.entries ..
    | punct p =>
      cases p with
      | rcurly => rfl
      | comma =>
        cases comma with
        | true => exact ih.entries ..
        | false => rfl
      | _ => cases comma <;> rfl
    | const c =>
      cases comma with
      | true => rfl
      | false =>
        cases c with
        | str => exact ih.entries ..
        | _ => rfl
    | ident =>
      cases comma with
      | true => rfl
      | false => exact ih.entries ..
    | _ => cases comma <;> rfl
  | some name =>
    cases t with
    | newline => exact ih.entries ..
    | punct p =>
      cases p with
      | colon =>
        dsimp only
        rw [ih.item]
        rcases itemFrom s w fuel (i + 1) with e | ⟨item, next⟩
        · rfl
        · -- the member is renamed, and the rest is read behind it
          change (mapFrom (s.withGlobals globals) w' fuel next none true >>= _) = _
          rw [ih.entries]
          change _ = Except.map _ (mapFrom s w fuel next none true >>= _)
          cases mapFrom s w fuel next none true <;> rfl
      | _ => rfl
    | _ => rfl

/-- So is an array literal. -/
theorem LiteralsMoved.arrayFrom_succ (ih : LiteralsMoved low gap s globals w w' fuel) (i : Nat)
    (comma : Bool) : arrayFrom (s.withGlobals globals) w' (fuel + 1) i comma
      = (arrayFrom s w (fuel + 1) i comma).map
      (Prod.map (Item.renameAll (shift low gap)) fun i => i) := by
  rw [arrayFrom, arrayFrom, s.token?_withGlobals]
  rcases s.token? i with _ | t
  · rfl
  -- where an item may stand, it is read and the rest behind it
  have hitems : (itemFrom (s.withGlobals globals) w' fuel i >>= fun p =>
      arrayFrom (s.withGlobals globals) w' fuel p.2 true >>= fun q => pure (p.1 :: q.1, q.2))
        = (itemFrom s w fuel i >>= fun p =>
            arrayFrom s w fuel p.2 true >>= fun q => pure (p.1 :: q.1, q.2)).map
          (Prod.map (Item.renameAll (shift low gap)) fun i => i) := by
    rw [ih.item]
    cases itemFrom s w fuel i with
    | error e => rfl
    | ok p =>
      change (arrayFrom (s.withGlobals globals) w' fuel p.2 true >>= _) = _
      rw [ih.items]
      change _ = Except.map _ (arrayFrom s w fuel p.2 true >>= _)
      cases arrayFrom s w fuel p.2 true <;> rfl
  cases t with
  | newline => exact ih.items ..
  | punct p =>
    cases p with
    | rbrack => rfl
    | comma =>
      cases comma with
      | true => exact ih.items ..
      | false => exact hitems
    | _ =>
      cases comma with
      | true => rfl
      | false => exact hitems
  | _ =>
    cases comma with
    | true => rfl
    | false => exact hitems

/-- A member is a literal again, a constant or a name. -/
theorem LiteralsMoved.itemFrom_succ (h : w.Shifted low gap w')
    (ih : LiteralsMoved low gap s globals w w' fuel) (i : Nat) :
    itemFrom (s.withGlobals globals) w' (fuel + 1) i
      = (itemFrom s w (fuel + 1) i).map (Prod.map (Item.rename (shift low gap)) fun i => i) := by
  rw [itemFrom, itemFrom, s.token?_withGlobals]
  rcases s.token? i with _ | t
  · rfl
  cases t with
  | newline => exact ih.item _
  | const | extend => rfl
  | ident name =>
    dsimp only
    -- a name stands for the renamed variable, or for the same field
    rw [h.findVar]
    rcases w.findVar name with _ | v
    · rfl
    · cases v <;> rfl
  | punct p =>
    cases p with
    | lcurly =>
      dsimp only
      rw [ih.entries]
      cases mapFrom s w fuel (i + 1) none false <;> rfl
    | lbrack =>
      dsimp only
      rw [ih.items]
      cases arrayFrom s w fuel (i + 1) false <;> rfl
    | _ => rfl
  | _ => rfl

/-- Literals name variables of blocks that have moved up. -/
theorem literals_moved (h : w.Shifted low gap w') (fuel : Nat) :
    LiteralsMoved low gap s globals w w' fuel := by
  induction fuel with
  | zero => exact ⟨fun _ _ _ => rfl, fun _ _ => rfl, fun _ => rfl⟩
  | succ fuel ih => exact ⟨ih.mapFrom_succ, ih.arrayFrom_succ, ih.itemFrom_succ h⟩

/-- What is read from the source alone. -/
theorem parallel_lift {α β : Type} {g : α → β} {r : Except Error α} {r' : Except Error β}
    (h : r' = r.map g) :
    Parallel low gap g (liftM r : Compiling α) (liftM r' : Compiling β) := by
  subst h
  cases r with
  | error e => exact .throw e
  | ok a => exact .pure rfl

/-- One lexeme of an expression does the same in both. -/
theorem parallel_take (hs : s.Agrees low gap globals) (blockFollows : Bool)
    (y : Yard) {i : Nat} {t : Token} (ht : s.token? i = some t) :
    Parallel low gap (Option.map (moved low gap)) (take s blockFollows y i t)
      (take (s.withGlobals globals) blockFollows (y.rename (shift low gap)) i t) := by
  -- what goes on, and what emits one instruction
  have honward : ∀ {x x' : Compiling (Yard × Nat)}, Parallel low gap (moved low gap) x x' →
      Parallel low gap (Option.map (moved low gap)) (x >>= fun r => pure (some r))
        (x' >>= fun r => pure (some r)) := fun hx => .bind hx fun _ => .pure rfl
  have hemit : ∀ (op : Op) (k : Kind) (next : Nat), Parallel low gap (Option.map (moved low gap))
      (pure (some ((y.emit op (s.line i)).operand k, next)))
      (pure (some (((y.rename (shift low gap)).emit (op.rename (shift low gap)) (s.line i)).operand
        k, next))) :=
    fun op k next => .pure (congrArg (fun y : Yard => some (y.operand k, next))
      (Yard.emit_rename _ y op _))
  cases t with
  | newline =>
    refine .pure ?_
    rw [Yard.inBrackets_rename]
    split <;> rfl
  | punct p =>
    cases p with
    | lcurly =>
      refine .ite Iff.rfl (.pure rfl) (.get_bind fun w w' h => .bind (g := Prod.map
        (Item.renameEntries (shift low gap)) fun i => i)
        (parallel_lift ((literals_moved h _).entries _ _ _)) fun r => ?_)
      exact hemit (.mapInit r.1) _ r.2
    | lbrack =>
      refine .ite Iff.rfl (.get_bind fun w w' h => .bind (g := Prod.map
        (Item.renameAll (shift low gap)) fun i => i)
        (parallel_lift ((literals_moved h _).items _ _)) fun r => ?_)
        (.pure rfl)
      exact hemit (.arrayInit r.1) _ r.2
    | rbrack => exact honward (parallel_closeIndex y i)
    | lpar => exact .ite Iff.rfl (.pure rfl) (.pure rfl)
    | rpar => exact honward (parallel_closeParen y i)
    | comma => exact honward (parallel_comma y i)
    | _ => exact .pure rfl
  | oper o => exact honward (parallel_operator y o i)
  | const c => exact .ite Iff.rfl (hemit (.push c) _ _) (.pure rfl)
  | ident name =>
    exact .ite Iff.rfl (honward (parallel_nameOperand hs (.inr ⟨rfl, ht⟩) y)) (.pure rfl)
  | extend name => exact .ite Iff.rfl (honward (parallel_nameOperand hs (.inl rfl) y)) (.pure rfl)
  | keyword k =>
    cases k with
    | tail =>
      refine .ite Iff.rfl (.throw_bind _) (.pure ?_)
      exact congrArg (fun y : Yard => some ({ y with prev := some (.keyword .tail) }, i + 1))
        (Yard.emit_rename _ y .unwrapArr _)
    | _ => exact .pure rfl
  | type => exact .pure rfl

/-- So does a whole expression. -/
theorem parallel_takeAll (hs : s.Agrees low gap globals) (blockFollows : Bool)
    (fuel : Nat) (y : Yard) (i : Nat) :
    Parallel low gap (moved low gap) (takeAll s blockFollows fuel y i)
      (takeAll (s.withGlobals globals) blockFollows fuel (y.rename (shift low gap)) i) := by
  induction fuel generalizing y i with
  | zero =>
    rw [takeAll, takeAll, s.token?_withGlobals]
    cases s.token? i with
    | none => exact .pure rfl
    | some t => exact .throw _
  | succ fuel ih =>
    rw [takeAll, takeAll, s.token?_withGlobals]
    cases ht : s.token? i with
    | none => exact .pure rfl
    | some t =>
      refine .bind (parallel_take hs blockFollows y ht) fun r => ?_
      rcases r with _ | ⟨y', next⟩
      · exact .pure rfl
      · exact ih y' next

/-- What is left waiting at the end is the same, but for the numbers. -/
theorem finish_moved (y : Yard) (i : Nat) :
    finish (s.withGlobals globals) (y.rename (shift low gap)) i
    = (finish s y i).map (Array.map (Instr.rename (shift low gap))) := by
  -- nothing may wait at the end, and the assignment to an index comes last
  have hrest : ∀ (code : Array Instr) (buffer : List Pending),
      (if (buffer.map (Pending.rename (shift low gap))).isEmpty then
        .ok (if y.setIndex then (code.map (Instr.rename (shift low gap))).push ⟨.setIndex, s.line i⟩
          else code.map (Instr.rename (shift low gap)))
      else .error (s.errorAt .noPair (s.clamp i)) : Except Error (Array Instr))
        = (if buffer.isEmpty then
            .ok (if y.setIndex then code.push ⟨.setIndex, s.line i⟩ else code)
          else .error (s.errorAt .noPair (s.clamp i)) : Except Error (Array Instr)).map
            (Array.map (Instr.rename (shift low gap))) := by
    intro code buffer
    cases buffer with
    | cons => rfl
    | nil =>
      cases y.setIndex with
      | true =>
        have hpush : (code.push ⟨.setIndex, s.line i⟩).map (Instr.rename (shift low gap))
            = (code.map (Instr.rename (shift low gap))).push ⟨.setIndex, s.line i⟩ := Array.map_push
        exact congrArg Except.ok hpush.symm
      | false => rfl
  unfold finish
  rw [y.flushOps_moved fun _ => rfl, s.line_withGlobals,
    show (y.rename (shift low gap)).prev = y.prev from rfl]
  obtain ⟨code, buffer⟩ := Yard.flushOps (fun _ => true) (s.line i) y.code y.buffer
  rcases y.prev with _ | k
  · exact hrest code buffer
  · dsimp only
    split
    · rfl
    · exact hrest code buffer

/-- Expressions are compiled alike. -/
theorem parallel_expression (hs : s.Agrees low gap globals) (blockFollows : Bool) (start : Nat) :
    Parallel low gap (fun i => i) (expression s blockFollows start)
      (expression (s.withGlobals globals) blockFollows start) := by
  have htake := parallel_takeAll hs blockFollows (s.lexemes.size - start) {} start
  rw [show Yard.rename (shift low gap) {} = {} by simp [Yard.rename]] at htake
  refine .bind htake fun r => .bind (parallel_lift (finish_moved r.1 r.2)) fun code =>
    .bind (.modify fun w w' h => ?_) fun _ => .pure rfl
  exact h.modifyTop fun hb => hb.withCode (by rw [hb.code, Array.map_append])

end expressions

/-! ### Actions of the grammar -/

section actions

variable {low gap : Nat} {s : Source} {globals : Dict Binding}

/-- What is noted in the innermost block. -/
theorem parallel_modifyTop {f f' : Block → Block}
    (hf : ∀ {b b' : Block}, b.Renames (shift low gap) b' → (f b).Renames (shift low gap) (f' b')) :
    Parallel low gap (fun u => u) (modify fun w => w.modifyTop f : Compiling Unit)
      (modify fun w => w.modifyTop f') :=
  .modify fun _ _ h => h.modifyTop hf

theorem parallel_emit {op : Op} (hop : op.rename (shift low gap) = op) (line : Nat) :
    Parallel low gap (fun u => u) (emit op line) (emit op line) :=
  parallel_modifyTop fun hb => hb.emit (congrArg (Instr.mk · line) hop.symm)

theorem parallel_wrapTop {op : BlockId → Op}
    (hop : ∀ id, (op id).rename (shift low gap) = op (shift low gap id)) (i : Nat) :
    Parallel low gap (fun u => u) (wrapTop op s i) (wrapTop op (s.withGlobals globals) i) :=
  .modify fun w _ h => h.modifyBlock h.parent fun hb =>
    hb.emit (congrArg (Instr.mk · (s.line i)) ((congrArg op h.top).trans (hop w.top).symm))

/-- A block gets its name in both. -/
theorem parallel_nameBlock (i : Nat) :
    Parallel low gap (fun u => u) (nameBlock s i) (nameBlock (s.withGlobals globals) i) := by
  refine .get_bind fun w w' h => ?_
  have hsize : (w'.block w'.parent).children.size = (w.block w.parent).children.size := by
    rw [h.parentBlock.children, Array.size_map]
  have hset : ∀ (key : String) (info : BlockInfo) (v v' : Binding), v' = v.rename (shift low gap) →
      Parallel low gap (fun u => u)
        (set ((w.modifyTop fun b => { b with info := info }).modifyBlock w.parent fun b =>
          { b with objects := b.objects.insert key v }) : Compiling Unit)
        (set ((w'.modifyTop fun b => { b with info := info }).modifyBlock w'.parent fun b =>
          { b with objects := b.objects.insert key v' })) := by
    rintro key info v _ rfl
    exact .set ((h.modifyTop fun hb => hb.withInfo info).modifyBlock h.parent
      fun hb => hb.bind key v)
  dsimp only
  rw [hsize, h.parentBlock.name, s.kind?_withGlobals,
    show (s.withGlobals globals).state = s.state from rfl,
    show (s.withGlobals globals).name i = s.name i from rfl]
  cases (0 < i && s.kind? (i - 1) == some (.keyword .contract)) with
  | true =>
    exact .ite (by rw [h.parentBlock.contains]) (.throw_bind _) (hset _ _ _ _ (congrArg _ h.top))
  | false =>
    exact .ite (by rw [h.parentBlock.contains]) (.throw_bind _) (hset _ _ _ _ (congrArg _ h.top))

theorem taken_shifted {w w' : Work} (h : w.Shifted low gap w') (name : String) :
    taken w' name = taken w name := by
  rw [taken, taken, h.topBlock.contains, h.pending]

/-- A name that waits for its type. -/
theorem parallel_wait {f : Fault} (name : String) (i : Nat) {w w' : Work}
    (h : w.Shifted low gap w') :
    Parallel low gap (fun u => u)
      (do
        if taken w name then failAt s f i
        set { w with pending := w.pending ++ [name] } : Compiling Unit)
      (do
        if taken w' name then failAt s f i
        set { w' with pending := w'.pending ++ [name] }) :=
  .ite (by rw [taken_shifted h]) (.throw_bind _)
    (.set { h with pending := congrArg (· ++ [name]) h.pending })

theorem parallel_declareParam (t : Ty) (variadic : Bool) (i : Nat) (name : String) :
    Parallel low gap (fun u => u) (declareParam s t variadic i name)
      (declareParam (s.withGlobals globals) t variadic i name) := by
  refine .get_bind fun w w' h => ?_
  dsimp only
  rw [h.topBlock.func?, h.topBlock.vars]
  refine .bind (.set (h.modifyTop fun hb => (hb.declare name t).modifyFunc _)) fun _ => ?_
  exact .ite Iff.rfl (.throw _) (.pure rfl)

/-- Parameters are declared alike. -/
theorem parallel_declareParams (t : Ty) (variadic : Bool) (i : Nat) :
    Parallel low gap (fun u => u) (declareParams s t variadic i)
      (declareParams (s.withGlobals globals) t variadic i) := by
  refine .get_bind fun w w' h => .bind (.set { h with pending := rfl }) fun _ => ?_
  rw [h.pending]
  have heach : ∀ names : List String, Parallel low gap (fun u => u)
      (names.forM (declareParam s t variadic i))
      (names.forM (declareParam (s.withGlobals globals) t variadic i)) := by
    intro names
    induction names with
    | nil => exact .pure rfl
    | cons name names ih => exact .bind (parallel_declareParam t variadic i name) fun _ => ih
  exact .ite Iff.rfl (.throw_bind _) (heach _)

theorem parallel_result (i : Nat) :
    Parallel low gap (fun u => u) (result s i) (result (s.withGlobals globals) i) := by
  unfold result
  rw [s.token?_withGlobals]
  rcases s.token? i with _ | t
  · exact .pure rfl
  · cases t with
    | type t => exact parallel_modifyTop fun hb => hb.modifyFunc _
    | _ => exact .pure rfl

theorem parallel_segment (i : Nat) :
    Parallel low gap (fun u => u) (segment s i) (segment (s.withGlobals globals) i) := by
  refine .get_bind fun w w' h => ?_
  dsimp only
  rw [h.topBlock.func?]
  cases (w.block w.top).func? with
  | none => exact .pure rfl
  | some f => exact .ite Iff.rfl (.throw_bind _) (.set (h.modifyTop fun hb => hb.modifyFunc _))

/-- Variables are declared alike. -/
theorem parallel_varType (i : Nat) :
    Parallel low gap (fun u => u) (varType s i) (varType (s.withGlobals globals) i) := by
  refine .modify fun w w' h => ?_
  have hall : ∀ (names : List String) {b b' : Block}, b.Renames (shift low gap) b' →
      (names.foldl (fun b name => b.declare name (typeAt s i)) b).Renames (shift low gap)
        (names.foldl (fun b name => b.declare name (typeAt s i)) b') := by
    intro names
    induction names with
    | nil => exact fun hb => hb
    | cons name names ih => exact fun hb => ih (hb.declare name _)
  rw [h.pending]
  have hdeclared : (w.modifyTop fun b =>
    w.pending.foldl (fun b name => b.declare name (typeAt s i)) b).Shifted
      low gap (w'.modifyTop fun b =>
        w.pending.foldl (fun b name => b.declare name (typeAt s i)) b) :=
    h.modifyTop (hall w.pending)
  exact { hdeclared with pending := rfl }

/-- An `else` finds the same `if`. -/
theorem parallel_elseBranch (i : Nat) :
    Parallel low gap (fun u => u) (elseBranch s i) (elseBranch (s.withGlobals globals) i) := by
  refine .get_bind fun w w' h => ?_
  rw [h.parentBlock.back?]
  rcases ((w.block w.parent).code.back?).map Instr.op with _ | op
  · exact .throw _
  · cases op with
    | «if» => exact parallel_wrapTop (fun _ => rfl) i
    | _ => exact .throw _

/-- A target is added alike. -/
theorem addTarget_moved {b b' : Block} (hb : b.Renames (shift low gap) b')
    (t : Target) (line : Nat) :
    (addTarget b t line).Renames (shift low gap)
    (addTarget b' (t.rename (shift low gap)) line) := by
  have hemit := hb.emit (i := ⟨.assignVar [t], line⟩) rfl
  unfold addTarget
  rw [hb.code, Array.back?_map, ← hb.code]
  rcases b.code.back? with _ | ⟨op, l⟩
  · exact hemit
  · cases op with
    | assignVar ts =>
      refine hb.withCode ?_
      rw [hb.code, Array.map_push, Array.map_pop]
      refine congrArg _ (congrArg (Instr.mk · l) (congrArg Op.assignVar ?_))
      rw [List.map_append]
      rfl
    | _ => exact hemit

/-- Targets are found alike. -/
theorem parallel_assignVar (i : Nat) :
    Parallel low gap (fun u => u) (assignVar s i) (assignVar (s.withGlobals globals) i) := by
  refine .get_bind fun w w' h => ?_
  have hset : ∀ t : Target, Parallel low gap (fun u => u)
      (set (w.modifyTop fun b => addTarget b t (s.line i)) : Compiling Unit)
      (set (w'.modifyTop fun b => addTarget b (t.rename (shift low gap)) (s.line i))) :=
    fun t => .set (h.modifyTop fun hb => addTarget_moved hb t _)
  refine .ite Iff.rfl (.ite Iff.rfl (.throw_bind _) (hset (.extend _))) ?_
  rw [show (s.withGlobals globals).name i = s.name i from rfl, h.findVar]
  cases w.findVar (s.name i) with
  | none => exact .throw_bind _
  | some t => exact hset t

theorem parallel_inContract (f : Fault) (i : Nat) :
    Parallel low gap (fun u => u) (inContract s f i) (inContract (s.withGlobals globals) f i) :=
  .get_bind fun _ _ h => .ite (by rw [h.topBlock.contract?]) (.throw _) (.pure rfl)

theorem parallel_dataSection (i : Nat) :
    Parallel low gap (fun u => u) (dataSection s i) (dataSection (s.withGlobals globals) i) := by
  refine .bind (parallel_inContract _ i) fun _ => .modify fun w w' h => ?_
  exact { h.modifyContract _ with pendingFields := rfl, fieldStep := rfl }

theorem parallel_constValue (i : Nat) :
    Parallel low gap (fun u => u) (constValue s i) (constValue (s.withGlobals globals) i) := by
  refine .bind (parallel_inContract _ i) fun _ => .modify fun w w' h => ?_
  rw [h.constName]
  exact { h.modifyContract _ with constName := rfl }

/-- Fields hold no numbers. -/
theorem parallel_field (i : Nat) :
    Parallel low gap (fun u => u) (field s i) (field (s.withGlobals globals) i) := by
  refine .get_bind fun w w' h => ?_
  rw [h.fieldStep]
  cases w.fieldStep with
  | name | type | tag => exact .throw_bind _
  | start | comma =>
    -- nothing is under way, so the field is added
    refine .ite Iff.rfl (.throw_bind _) ?_
    rw [h.topBlock.contract?]
    cases ((w.block w.top).contract?).bind (·.data) with
    | none => exact .pure rfl
    | some fields =>
      exact .set { h.modifyContract _ with
        pendingFields := congrArg (· ++ [fields.length]) h.pendingFields, fieldStep := rfl }

theorem parallel_fieldComma (i : Nat) :
    Parallel low gap (fun u => u) (fieldComma s i) (fieldComma (s.withGlobals globals) i) :=
  .get_bind fun _ _ h => .ite (by rw [h.fieldStep]) (.throw_bind _)
    (.set { h with fieldStep := rfl })

theorem modifyPending_shifted {w w' : Work} (h : w.Shifted low gap w') (f : Field → Field) :
    (modifyPending w f).Shifted low gap (modifyPending w' f) := by
  unfold modifyPending
  rw [h.pendingFields]
  exact h.modifyTop fun hb => hb.modifyContract _

theorem parallel_fieldType (i : Nat) :
    Parallel low gap (fun u => u) (fieldType s i) (fieldType (s.withGlobals globals) i) :=
  .get_bind fun _ _ h => .ite (by rw [h.fieldStep]) (.throw_bind _)
    (.set { modifyPending_shifted h _ with fieldStep := rfl })

theorem parallel_fieldTag (i : Nat) :
    Parallel low gap (fun u => u) (fieldTag s i) (fieldTag (s.withGlobals globals) i) :=
  .get_bind fun _ _ h => .ite (by rw [h.fieldStep]) (.throw_bind _)
    (.set { modifyPending_shifted h _ with fieldStep := rfl })

theorem parallel_fieldLine (i : Nat) :
    Parallel low gap (fun u => u) (fieldLine s i) (fieldLine (s.withGlobals globals) i) :=
  .get_bind fun _ _ h => .ite (by rw [h.fieldStep]) (.throw_bind _)
    (.set { h with pendingFields := rfl, fieldStep := rfl })

/-- So data sections are read alike. -/
theorem parallel_fields (i : Nat) :
    Parallel low gap (fun u => u) (fields s i) (fields (s.withGlobals globals) i) := by
  refine .bind (parallel_fieldLine i) fun _ => parallel_modifyTop fun hb => ?_
  have hall : ∀ (names : List String) {b b' : Block}, b.Renames (shift low gap) b' →
      Block.Renames (shift low gap)
        { b with objects := names.foldl (fun o n => o.insert n (.extVar n)) b.objects }
        { b' with objects := names.foldl (fun o n => o.insert n (.extVar n)) b'.objects } := by
    intro names
    induction names with
    | nil => exact fun hb => hb
    | cons n ns ih => exact fun hb => ih (hb.bind n (.extVar n))
  rw [hb.contract?]
  exact hall _ hb

/-- **Every action of the grammar does the same behind other blocks.** -/
theorem parallel_act (a : Grammar.Action) (i : Nat) :
    Parallel low gap (fun u => u) (act s a i) (act (s.withGlobals globals) a i) := by
  cases a with
  | none => exact .pure rfl
  | nameBlock => exact parallel_nameBlock i
  | param | var => exact .get_bind fun w w' h => parallel_wait _ i h
  | paramType | paramTail => exact parallel_declareParams _ _ i
  | result => exact parallel_result i
  | segment => exact parallel_segment i
  | «if» => exact parallel_wrapTop (fun _ => rfl) i
  | «else» => exact parallel_elseBranch i
  | «while» =>
    exact .bind (parallel_wrapTop (fun _ => rfl) i) fun _ => .modify fun w w' h =>
      h.modifyBlock h.parent fun hb => hb.emit rfl
  | «return» | «continue» | «break» | raise | assign => exact parallel_emit rfl _
  | varType => exact parallel_varType i
  | assignVar => exact parallel_assignVar i
  | data => exact parallel_dataSection i
  | settings => exact parallel_inContract _ i
  | constName => exact .modify fun w w' h => { h with constName := rfl }
  | constValue => exact parallel_constValue i
  | field => exact parallel_field i
  | fieldType => exact parallel_fieldType i
  | fieldTag => exact parallel_fieldTag i
  | fieldComma => exact parallel_fieldComma i
  | fieldLine => exact parallel_fieldLine i
  | fields => exact parallel_fields i

end actions

/-! ### Units -/

section units

variable {low gap : Nat} {s : Source} {globals : Dict Binding}

/-- A jump that waits for its end is the renamed one. -/
theorem dangling_moved (code : Array Instr) (body : BlockId) :
    dangling (code.map (Instr.rename (shift low gap))) (shift low gap body)
      = dangling code body := by
  have hops : ∀ code : Array Instr, ((code.map (Instr.rename (shift low gap))).back?).map Instr.op
      = ((code.back?).map Instr.op).map (Op.rename (shift low gap)) := by
    intro code
    rw [Array.back?_map, Option.map_map, Option.map_map]
    rfl
  have hbody : ∀ id : BlockId, (shift low gap id == shift low gap body) = (id == body) :=
    fun id => by
    rw [Bool.eq_iff_iff, beq_iff_eq, beq_iff_eq, shift_inj]
  unfold dangling
  rw [hops, ← Array.map_pop, hops]
  rcases (code.back?).map Instr.op with _ | op
  · rfl
  · cases op with
    | «continue» =>
      rcases (code.pop.back?).map Instr.op with _ | op
      · rfl
      · cases op with
        | «while» id => exact hbody id
        | _ => rfl
    | _ => rfl

/-- Blocks are closed alike. -/
theorem parallel_closeBlock (i : Nat) :
    Parallel low gap (fun u => u) (closeBlock s i) (closeBlock (s.withGlobals globals) i) := by
  refine .get_bind fun w w' h => ?_
  have hinner := h.inner
  rcases hw : w.inner with _ | ⟨child, rest⟩ <;> rw [hw] at hinner <;> rw [hinner]
  · exact .throw _
  · have hclosed : Work.Shifted low gap { w with inner := rest }
        { w' with inner := rest.map (shift low gap) } := { h with inner := rfl }
    rw [List.map_cons]
    dsimp only
    rw [hclosed.topBlock.code, Array.back?_map, dangling_moved]
    rcases hcode : (Work.block { w with inner := rest }
      (Work.top { w with inner := rest })).code.back?
      with _ | repeats
    · exact .set hclosed
    · refine .ite Iff.rfl (.set ?_) (.set hclosed)
      refine Work.Shifted.modifyBlock (hclosed.modifyTop fun hb => hb.withCode ?_) rfl fun hb =>
        hb.emit rfl
      rw [hb.code, Array.map_pop]

/-- The expression of an entry is compiled alike. -/
theorem parallel_entryExpression (hs : s.Agrees low gap globals) (f : Grammar.Flags) (i : Nat) :
    Parallel low gap (fun i => i) (entryExpression s f i)
    (entryExpression (s.withGlobals globals) f i) := by
  -- Whether an expression has added code is seen by a size, which renaming keeps.
  have hsize : ∀ {w w' v v' : Work}, w.Shifted low gap w' → v.Shifted low gap v' →
      (w'.block v'.top).code.size = (w.block v.top).code.size := fun {w w' v v'} h hv => by
    rw [hv.top, (h.block v.top).code, Array.size_map]
  have hrest : Parallel low gap (fun i => i)
      (do
        let before := ((← get).block (← get).top).code.size
        let stop ← expression s f.toBlock (if f.toFork then i else i + 1)
        if f.mustEval && ((← get).block (← get).top).code.size == before then
          failAt s .missingExpression i
        return stop)
      (do
        let before := ((← get).block (← get).top).code.size
        let stop ← expression (s.withGlobals globals) f.toBlock (if f.toFork then i else i + 1)
        if f.mustEval && ((← get).block (← get).top).code.size == before then
          failAt s .missingExpression i
        return stop) := by
    refine .get_bind fun w w' h => .get_bind fun v v' hv =>
      .bind (parallel_expression hs _ _) fun stop =>
      .get_bind fun u u' hu => .get_bind fun t t' ht => ?_
    dsimp only
    rw [hsize h hv, hsize hu ht]
    exact .ite Iff.rfl (.throw_bind _) (.pure rfl)
  exact .ite Iff.rfl (.bind (parallel_emit rfl _) fun _ => hrest) hrest

/-- What an entry does is the same in both. -/
theorem parallel_endEntry (f : Grammar.Flags) (a : Grammar.Action) (next : Grammar.State)
    (here fork behind : Nat) : Parallel low gap (fun c => c) (endEntry s f a next here fork behind)
      (endEntry (s.withGlobals globals) f a next here fork behind) := by
  -- the state behind depends on whether a block is open, and not on which
  have hact : Parallel low gap (fun c => c)
      (do
        let state := stateBehind f next (← get).inner.isEmpty
        act s a here
        return { state := state, fork := fork, position := behind } : Compiling Cursor)
      (do
        let state := stateBehind f next (← get).inner.isEmpty
        act (s.withGlobals globals) a here
        return { state := state, fork := fork, position := behind }) := by
    refine .get_bind fun w w' h => ?_
    rw [show w'.inner.isEmpty = w.inner.isEmpty by rw [h.inner, List.isEmpty_map]]
    exact .bind (parallel_act a here) fun _ => .pure rfl
  have hpop : Parallel low gap (fun c => c)
      (do
        if f.pop then closeBlock s here
        let state := stateBehind f next (← get).inner.isEmpty
        act s a here
        return { state := state, fork := fork, position := behind } : Compiling Cursor)
      (do
        if f.pop then closeBlock (s.withGlobals globals) here
        let state := stateBehind f next (← get).inner.isEmpty
        act (s.withGlobals globals) a here
        return { state := state, fork := fork, position := behind }) :=
    .ite Iff.rfl (.bind (parallel_closeBlock here) fun _ => hact) hact
  exact .ite Iff.rfl (.bind (.modify fun _ _ h => h.openBlock) fun _ => hpop) hpop

/-- One step of the reader does the same in both. -/
theorem parallel_advance (hs : s.Agrees low gap globals) (k : Kind) (c : Cursor) :
    Parallel low gap (fun c => c) (advance s k c) (advance (s.withGlobals globals) k c) := by
  cases hentry : Grammar.entry c.state k with
  | fail expected =>
    unfold advance
    rw [hentry]
    exact .throw _
  | go next f a =>
    cases hstay : f.stay with
    | true =>
      unfold advance
      rw [hentry]
      dsimp only
      rw [hstay]
      exact .pure rfl
    | false =>
      rw [advance_eq hentry hstay, advance_eq hentry hstay]
      refine .bind (g := fun i => i) ?_ fun behind => parallel_endEntry f a _ _ _ behind
      exact .ite Iff.rfl (parallel_entryExpression hs f _) (.pure rfl)

/-- So does a whole reading. -/
theorem parallel_readAll (hs : s.Agrees low gap globals) (fuel : Nat) (c : Cursor) :
    Parallel low gap (fun u => u) (readAll s fuel c) (readAll (s.withGlobals globals) fuel c) := by
  induction fuel generalizing c with
  | zero =>
    rw [readAll, readAll, s.kind?_withGlobals]
    cases s.kind? c.position with
    | none => exact .pure rfl
    | some k => exact .throw _
  | succ fuel ih =>
    rw [readAll, readAll, s.kind?_withGlobals]
    cases s.kind? c.position with
    | none => exact .pure rfl
    | some k => exact .bind (parallel_advance hs k c) fun c' => ih c'

/-- Conditions write in both or in neither. -/
theorem conditionsWrite_shifted {w w' : Work} (h : w.Shifted low gap w') (contract : BlockId) :
    conditionsWrite w'.arena (shift low gap contract) = conditionsWrite w.arena contract := by
  have hobjects := (h.block contract).objects "conditions"
  have hcontract := (h.block contract).contract?
  change ((w'.block _).contract?.isSome
    && (((w'.block _).objects.get? "conditions").bind Binding.block?).any
    fun id => (w'.block id).canWrite) = ((w.block contract).contract?.isSome &&
      (((w.block contract).objects.get? "conditions").bind Binding.block?).any fun id =>
      (w.block id).canWrite)
  rw [hcontract, hobjects]
  rcases (w.block contract).objects.get? "conditions" with _ | v
  · rfl
  · cases v with
    | contract id | func id => exact congrArg (_ && ·) (h.block id).canWrite
    | ext | var | extVar => rfl

/-- **A unit is compiled to the same behind other blocks.** -/
theorem parallel_unit (hs : s.Agrees low gap globals) :
    Parallel low gap (fun u => u) (unit s) (unit (s.withGlobals globals)) := by
  refine .bind (parallel_readAll hs _ {}) fun _ => .get_bind fun w w' h => ?_
  have hany : (w'.block w'.root).children.any (conditionsWrite w'.arena)
      = (w.block w.root).children.any (conditionsWrite w.arena) := by
    rw [h.root, (h.block w.root).children, Array.any_map]
    congr 1
    exact funext fun c => conditionsWrite_shifted h c
  refine .ite (by rw [h.inner, List.isEmpty_map]) (.throw_bind _)
    (.ite (by rw [hany]) (.throw _) (.pure rfl))

end units

end Compile

/-- **A text that compiles also compiles behind other blocks**, to the same code but for the numbers
of blocks, if the names that it mentions stand for the same. -/
theorem Arena.compile_shifted {low gap : Nat} {a a' b : Arena}
    (ha : a.Shifted low gap a') {scope : Scope} {globals : Dict Binding} {text : String}
    {root : BlockId} (hnames : ∀ lexemes,
      Lexeme.read text = .ok lexemes → (scope.source lexemes).Agrees low gap globals)
    (h : a.compile scope text = .ok (root, b)) :
    ∃ b', a'.compile { scope with globals := globals } text = .ok (a'.size, b') ∧
    b.Shifted low gap b' := by
  obtain ⟨rfl, lexemes, w, hread, hunit, rfl⟩ := Arena.unit_of_compile h
  have hroot : a'.size = shift low gap a.size := by rw [shift_of_le ha.le, ha.size]
  have hstart : Compile.Work.Shifted low gap { arena := a.push { parent := none }, root := a.size }
      { arena := a'.push { parent := none }, root := a'.size } :=
    ⟨ha.push (.empty _), hroot, rfl, rfl, rfl, rfl, rfl⟩
  have hparallel := Compile.parallel_unit (hnames lexemes hread) hstart
  rw [hunit] at hparallel
  cases hunit' : Compile.unit ((scope.source lexemes).withGlobals globals)
      { arena := a'.push { parent := none }, root := a'.size } with
  | error e w' =>
    rw [hunit'] at hparallel
    cases hparallel
  | ok u w' =>
    rw [hunit'] at hparallel
    cases hparallel
    rename_i hw
    exact ⟨w'.arena, Arena.compile_eq_ok.2 (Arena.compileUnit_of_ok hread hunit'), hw.arena⟩

end Covenant
