import Covenant.Proofs.Compile.Spreads
import Covenant.Proofs.Machine.Scopes
import Covenant.Proofs.Machine.Views

/-!
# Which call spreads its last argument

The machine has one mark that the next call is to spread its last argument. `...` sets it, and any
call takes it away. Where the code of all blocks has nothing to spread in front of statements and at
its end (`Context.Settles`), the mark is what the code of the innermost block says
(`Machine.Minds`): it is set by the `...` in front, not by what ran in calls or in blocks within. So
every block and contract that is active lies on an instruction behind which nothing is to be spread
(`Frame.LiesOn`), and loops begin at their labels.

Each step keeps this (`Exec.minds_step`), and so does a run (`Transition.minds`).
-/

namespace Covenant

open Covenant.Computation

/-! ### What the code says -/

theorem eq_take_append_of_getElem? {os : List Op} {pc : Nat} {op : Op} (h : os[pc]? = some op) :
    os = os.take pc ++ op :: os.drop (pc + 1) := by
  obtain ⟨hlt, rfl⟩ := List.getElem?_eq_some_iff.1 h
  rw [List.getElem_cons_drop, List.take_append_drop]

/-- Whether the next call is to spread its last argument at a position in the code of a block. -/
def Context.spreadAt (c : Context) (id : BlockId) (pc : Nat) : Bool :=
  Compile.spreadBehind false ((c.block id).ops.take pc)

/-- Whether nothing is to be spread in front of statements and at the end of code. -/
structure Context.Settles (c : Context) : Prop where
  statement : ∀ id pc op, (c.block id).ops[pc]? = some op → op.isStatement = true →
    c.spreadAt id pc = false
  finish : ∀ id pc, (c.block id).ops[pc]? = none → c.spreadAt id pc = false

section

variable {c : Context} {id : BlockId} {pc : Nat} {op : Op}

theorem Context.spreadAt_succ (h : (c.block id).ops[pc]? = some op) :
    c.spreadAt id (pc + 1) = op.spreadBehind (c.spreadAt id pc) := by
  rw [spreadAt, List.take_add_one, h, Option.toList_some, Compile.spreadBehind_concat, spreadAt]

theorem Context.spreadAt_succ_of_isCall (h : (c.block id).ops[pc]? = some op)
    (hop : op.isCall = true) :
    c.spreadAt id (pc + 1) = false := by
  rw [spreadAt_succ h, Op.spreadBehind_of_isCall hop]

theorem Context.Settles.spreadAt_succ (hc : c.Settles) (h : (c.block id).ops[pc]? = some op)
    (hop : op.isStatement = true) : c.spreadAt id (pc + 1) = false := by
  rw [Context.spreadAt_succ h, Op.spreadBehind_of_isStatement hop, hc.statement id pc op h hop]

end

/-- Going on to the next instruction leaves open what is to be spread. -/
theorem Op.spreadBehind_of_advances {op : Op} (h : op.advances = true) (b : Bool) :
    op.spreadBehind b = b := by
  cases op <;> first | rfl | cases h

/-! ### Frames in order -/

namespace Frame

/-- A frame without operands and values: a block with its position and its open loops, or a
contract. -/
def course : Frame → Frame
  | .block a =>
    .block {
      block := a.block, pc := a.pc, slots := #[], base := 0, role := a.role, labels := a.labels }
  | .contract k => .contract k

/-- Whether the block below goes on behind its instruction when a block of some role has ended. -/
def goesOn : Frame → Bool
  | .block a => a.role != .entry && a.role != .section
  | .contract k => k.via.isSome

/-- Whether a frame can lie on another one: a block goes on behind its instruction, where nothing is
to be spread. -/
def LiesOn (c : Context) (f : Frame) : Frame → Prop
  | .block a => f.goesOn = true ∧ c.spreadAt a.block (a.pc + 1) = false
  | .contract _ => True

/-- Whether the open loops of a block begin at labels. -/
def Labelled (c : Context) : Frame → Prop
  | .block a => ∀ l ∈ a.labels, (c.block a.block).ops[l]? = some .label
  | .contract _ => True

/-- Whether the next call is to spread its last argument, as the code of the innermost block
says. -/
def due (c : Context) : List Frame → Option Status → Bool
  | .block a :: _, none => c.spreadAt a.block a.pc
  | _, _ => false

/-- Whether frames lie on each other, and loops begin at labels. -/
structure InOrder (c : Context) (fs : List Frame) : Prop where
  labels : ∀ f ∈ fs, f.Labelled c
  chain : fs.IsChain (LiesOn c)

variable {c : Context} {f : Frame} {fs gs : List Frame}

theorem liesOn_course (f g : Frame) : LiesOn c f.course g.course ↔ LiesOn c f g := by
  cases f <;> cases g <;> exact Iff.rfl

theorem labelled_course (f : Frame) : f.course.Labelled c ↔ f.Labelled c := by
  cases f <;> exact Iff.rfl

theorem inOrder_course : InOrder c (fs.map course) ↔ InOrder c fs := by
  have hlabels : (∀ f ∈ fs.map course, f.Labelled c) ↔ ∀ f ∈ fs, f.Labelled c := by
    simp only [List.forall_mem_map, labelled_course]
  have hchain : (fs.map course).IsChain (LiesOn c) ↔ fs.IsChain (LiesOn c) := by
    simp only [List.isChain_map, liesOn_course]
  exact ⟨fun h => ⟨hlabels.1 h.labels, hchain.1 h.chain⟩,
    fun h => ⟨hlabels.2 h.labels, hchain.2 h.chain⟩⟩

theorem due_course (fs : List Frame) (ending : Option Status) :
    due c (fs.map course) ending = due c fs ending := by
  rcases fs with _ | ⟨a | k, fs⟩ <;> cases ending <;> rfl

/-- Setting a variable does not change where the blocks are. -/
theorem map_course_setSlot (v : VarRef) (x : Value) (fs : List Frame) :
    (setSlot v x fs).map course = fs.map course := by
  induction fs with
  | nil => rfl
  | cons f fs ih =>
    cases f with
    | block a =>
      rw [setSlot]
      split
      · rfl
      · rw [List.map_cons, List.map_cons, ih]
    | contract k =>
      rw [setSlot, List.map_cons, List.map_cons, ih]

namespace InOrder

theorem nil (c : Context) : InOrder c [] := ⟨fun _ hf => absurd hf List.not_mem_nil, .nil⟩

theorem cons (h : InOrder c fs) (hf : f.Labelled c) (hbelow : ∀ g ∈ fs.head?, LiesOn c f g) :
    InOrder c (f :: fs) :=
  ⟨List.forall_mem_cons.2 ⟨hf, h.labels⟩, List.isChain_cons.2 ⟨hbelow, h.chain⟩⟩

theorem tail (h : InOrder c (f :: fs)) : InOrder c fs :=
  ⟨(List.forall_mem_cons.1 h.labels).2, (List.isChain_cons.1 h.chain).2⟩

theorem head (h : InOrder c (f :: fs)) : ∀ g ∈ fs.head?, LiesOn c f g :=
  (List.isChain_cons.1 h.chain).1

/-- The innermost frame is another one that ends in the same way. -/
theorem replace {g : Frame} (h : InOrder c (f :: fs)) (hg : g.Labelled c)
    (hon : g.goesOn = f.goesOn) :
    InOrder c (g :: fs) := by
  refine h.tail.cons hg fun f' hf' => ?_
  have hlies := h.head f' hf'
  cases f' with
  | block a => exact ⟨hon.trans hlies.1, hlies.2⟩
  | contract k => trivial

end InOrder

end Frame

/-! ### Machines in order -/

namespace Machine

/-- How far a machine has come, without what its blocks work on. -/
def course (m : Machine) : List Frame × Option Status := (m.frames.map Frame.course, m.ending)

/-- How far a machine has come, and whether the next call is to spread its last argument. -/
def progress (m : Machine) : (List Frame × Option Status) × Bool := (m.course, m.spread)

/-- Whether the next call is to spread its last argument if and only if the code says so. -/
structure Minds (c : Context) (m : Machine) : Prop where
  frames : Frame.InOrder c m.frames
  spread : m.spread = Frame.due c m.frames m.ending

/-- Whether nothing is to be spread, now and where the innermost block goes on behind its
instruction. -/
structure Rests (c : Context) (m : Machine) : Prop where
  frames : Frame.InOrder c m.frames
  spread : m.spread = false
  behind : ∀ a rest, m.frames = .block a :: rest → c.spreadAt a.block (a.pc + 1) = false

variable {c : Context} {m m' : Machine} {a : Activation} {k : ContractCall} {rest : List Frame}

/-- Where the blocks are is beside all values. -/
theorem aside_course : Aside course where
  stack _ _ := rfl
  heap _ _ := rfl
  env _ _ := rfl
  cost _ _ := rfl
  ticks _ _ := rfl
  mem _ _ := rfl
  slots m v x := by rw [course, Frame.map_course_setSlot, course]

theorem aside_progress : Aside progress where
  stack _ _ := rfl
  heap _ _ := rfl
  env _ _ := rfl
  cost _ _ := rfl
  ticks _ _ := rfl
  mem _ _ := rfl
  slots m v x := congrArg (·, m.spread) (aside_course.slots m v x)

/-- A block that has come as far as another one in some machine. -/
theorem block_of_course (h : m'.course = m.course) (hm' : m'.frames = .block a :: rest) :
    ∃ b fs, m.frames = .block b :: fs ∧ b.block = a.block ∧ b.pc = a.pc ∧ b.labels = a.labels := by
  have hframes := congrArg Prod.fst h
  rw [course, hm', List.map_cons] at hframes
  obtain ⟨g, fs, hm, hg, -⟩ := List.map_eq_cons_iff.1 hframes.symm
  cases g with
  | block b =>
    obtain ⟨hblock, hpc, -, -, -, hlabels, -⟩ := Activation.mk.inj (Frame.block.inj hg)
    exact ⟨b, fs, hm, hblock, hpc, hlabels⟩
  | contract k => cases hg

theorem inOrder_of_course (h : m'.course = m.course) (hm : Frame.InOrder c m.frames) :
    Frame.InOrder c m'.frames := by
  have hframes : m'.frames.map Frame.course = m.frames.map Frame.course := congrArg Prod.fst h
  exact Frame.inOrder_course.1 (hframes ▸ Frame.inOrder_course.2 hm)

theorem Minds.congr (hm : m.Minds c) (h : m'.progress = m.progress) : m'.Minds c := by
  have hcourse : m'.course = m.course := congrArg Prod.fst h
  refine ⟨inOrder_of_course hcourse hm.frames, (congrArg Prod.snd h).trans (hm.spread.trans ?_)⟩
  rw [← Frame.due_course, ← Frame.due_course m'.frames]
  exact (congrArg (fun p => Frame.due c p.1 p.2) hcourse).symm

theorem Rests.of_course (hm : m.Rests c) (h : m'.course = m.course) (hspread : m'.spread = false) :
    m'.Rests c := by
  refine ⟨inOrder_of_course h hm.frames, hspread, fun a rest hframes => ?_⟩
  obtain ⟨b, fs, hb, hblock, hpc, -⟩ := block_of_course h hframes
  rw [← hblock, ← hpc]
  exact hm.behind b fs hb

theorem Rests.congr (hm : m.Rests c) (h : m'.progress = m.progress) : m'.Rests c :=
  hm.of_course (congrArg Prod.fst h) ((congrArg Prod.snd h).trans hm.spread)

theorem Rests.of_nil (hframes : m.frames = []) (hspread : m.spread = false) : m.Rests c := by
  refine ⟨hframes ▸ .nil c, hspread, fun a rest h => ?_⟩
  cases hframes.symm.trans h

/-- Where nothing is to be spread and no block is innermost that goes on, the code says so. -/
theorem Rests.minds (hm : m.Rests c) (h : m.ending = none → ∀ a rest, m.frames ≠ .block a :: rest) :
    m.Minds c := by
  refine ⟨hm.frames, hm.spread.trans ?_⟩
  rcases hframes : m.frames with _ | ⟨a | k, rest⟩
  · rfl
  · cases hending : m.ending with
    | none => exact absurd hframes (h hending a rest)
    | some status => rfl
  · rfl

/-- A block or contract that is started by an instruction lies on its block. -/
theorem Rests.inOrder_cons {f : Frame} (hm : m.Rests c) (hf : f.Labelled c)
    (hon : ∀ a rest, m.frames = .block a :: rest → f.goesOn = true) :
    Frame.InOrder c (f :: m.frames) := by
  refine hm.frames.cons hf fun g hg => ?_
  obtain ⟨rest, hrest⟩ := List.head?_eq_some_iff.1 hg
  cases g with
  | block a => exact ⟨hon a rest hrest, hm.behind a rest hrest⟩
  | contract k => trivial

/-- What lies below the innermost frame rests. -/
theorem rests_below {f : Frame} {fs : List Frame} (h : Frame.InOrder c (f :: fs))
    (hframes : m.frames = fs) (hspread : m.spread = false) : m.Rests c := by
  refine ⟨hframes ▸ h.tail, hspread, fun a rest hm => ?_⟩
  exact (h.head (.block a) (by rw [← hframes, hm]; rfl)).2

/-- A block below a frame goes on when this has ended. -/
theorem goesOn_of_inOrder {f : Frame} {fs : List Frame} (h : Frame.InOrder c (f :: fs)) :
    ∀ a rest, fs = .block a :: rest → f.goesOn = true := by
  rintro a rest rfl
  exact (h.head (.block a) rfl).1

end Machine

namespace Exec

variable {α β : Type} {c : Context} {m m' : Machine} {a : Activation} {rest : List Frame} {op : Op}

/-! ### What leaves the progress -/

/-- Whether a computation leaves a machine where it is, and whether the next call is to spread. -/
abbrev Halts (x : Exec α) : Prop := Preserves Machine.progress x

theorem Preserves.bind_ok {σ : Type} {view : Machine → σ} {x : Exec α} {f : α → Exec β} {b : β}
    (hx : Preserves view x) (h : (x >>= f) m = .ok b m') :
    ∃ a m₁, view m₁ = view m ∧ x m = .ok a m₁ ∧ f a m₁ = .ok b m' := by
  obtain ⟨a, m₁, hm₁, hrest⟩ := bind_eq_ok h
  exact ⟨a, m₁, hx.of_ok hm₁, hm₁, hrest⟩

theorem halts_ofExcept (r : Except Fault α) : Halts (ofExcept r) := .ofExcept r

theorem halts_checkDepth (c : Context) : Halts (checkDepth c) :=
  .get_bind fun _ => .ite (.fail _) (.pure _)

theorem halts_deliver (e : Extension) (results : List Value) : Halts (deliver e results) := by
  unfold deliver
  split
  · exact .get_bind fun _ => .bind (.ofExcept _) fun _ =>
      .bind (preserves_charge Machine.aside_progress _)
      fun _ => preserves_pushAll Machine.aside_progress _
  · exact preserves_pushAll Machine.aside_progress _

/-- Changing the innermost block leaves its progress, if it leaves its position and its loops. -/
theorem halts_modifyTop {f : Activation → Activation}
    (hf : ∀ a, (Frame.block (f a)).course = (Frame.block a).course) : Halts (modifyTop f) := by
  refine .modify fun m => ?_
  split
  · rename_i a rest hframes
    rw [Machine.progress, Machine.progress, Machine.course, Machine.course,
      hframes, List.map_cons, hf, List.map_cons]
  · rfl

/-! ### What takes the mark away -/

/-- Whether nothing is to be spread behind a computation. -/
def Clears (x : Exec α) : Prop := ∀ m a m', x m = .ok a m' → m'.spread = false

namespace Clears

variable {x : Exec α} {f : α → Exec β}

theorem bind (hf : ∀ a, Clears (f a)) : Clears (x >>= f) := by
  intro m b m' h
  obtain ⟨a, m₁, -, h⟩ := bind_eq_ok h
  exact hf a m₁ b m' h

theorem bind_halts (hx : Clears x) (hf : ∀ a, Halts (f a)) : Clears (x >>= f) := by
  intro m b m' h
  obtain ⟨a, m₁, hm₁, h⟩ := bind_eq_ok h
  exact (congrArg Prod.snd ((hf a).of_ok h)).trans (hx m a m₁ hm₁)

theorem throw_bind (e : Stop) : Clears ((throw e : Exec α) >>= f) := fun _ _ _ h => by cases h

theorem fail (e : Fault) : Clears (Exec.fail e : Exec α) := fun _ _ _ h => by cases h

theorem ite {p : Prop} [Decidable p] {y : Exec α} (hx : Clears x) (hy : Clears y) :
    Clears (if p then x else y) := by
  split
  · exact hx
  · exact hy

end Clears

theorem clears_off : Clears (modify fun m => { m with spread := false } : Exec PUnit) := by
  intro m a m' h
  cases h
  rfl

theorem clears_takeArgs (count : Nat) : Clears (takeArgs count) := by
  refine .bind fun args => .bind fun _ => .bind_halts clears_off fun _ => ?_
  split
  · exact .get_bind fun _ => .pure _
  · exact .pure _

theorem clears_takeFixed (count : Nat) : Clears (takeFixed count) :=
  .bind_halts clears_off fun _ => preserves_popN Machine.aside_progress count

/-- A function that is called has taken its arguments. -/
theorem clears_callSlots (c : Context) (id : BlockId) (count : Option Nat) :
    Clears (callSlots c id count) := by
  refine .ite (.throw_bind _) ?_
  split
  · exact .fail _
  · rename_i f _
    refine .bind fun named => ?_
    have hbind := preserves_bindArgs Machine.aside_progress c id f named
    cases count with
    | some n =>
      exact .bind_halts (clears_takeArgs n) fun args =>
        .bind (preserves_variadicArgs Machine.aside_progress f args) hbind
    | none => exact .bind_halts (clears_takeFixed _) hbind

/-- So has an extension. -/
theorem clears_extensionParams (e : Extension) (count : Option Nat) :
    Clears (extensionParams e count) := by
  cases count with
  | none =>
    exact .bind_halts (clears_takeFixed _) fun vs => .ite (.fail_bind _) (preserves_checkArgs e vs)
  | some n =>
    exact .bind_halts (clears_takeArgs n) fun vs => .ite (.fail_bind _) (preserves_checkArgs e vs)

/-! ### Going on -/

/-- The innermost block moves to a position, where the code says what is to be spread. -/
theorem minds_modifyTop {f : Activation → Activation} (hm : Frame.InOrder c m.frames)
    (hframes : m.frames = .block a :: rest) (hblock : (f a).block = a.block)
    (hrole : (f a).role = a.role) (hlabels : ∀ l ∈ (f a).labels, (c.block a.block).ops[l]?
      = some .label)
    (hspread : m.spread = Frame.due c (.block (f a) :: rest) m.ending)
    (h : modifyTop f m = .ok () m') :
    m'.Minds c := by
  rw [modifyTop_eq hframes] at h
  cases h
  rw [hframes] at hm
  refine ⟨hm.replace ?_ (by rw [Frame.goesOn, hrole]; rfl), hspread⟩
  rw [Frame.Labelled, hblock]
  exact hlabels

/-- The innermost block goes on with the next instruction. -/
theorem minds_advance (hm : Frame.InOrder c m.frames) (hframes : m.frames = .block a :: rest)
    (hending : m.ending = none) (hspread : m.spread = c.spreadAt a.block (a.pc + 1))
    (h : advance m = .ok () m') : m'.Minds c := by
  refine minds_modifyTop hm hframes rfl rfl (fun l hl => ?_) (by rw [hending]; exact hspread) h
  exact hm.labels (.block a) (hframes ▸ List.mem_cons_self ..) l hl

/-- A block that goes on where nothing is to be spread. -/
theorem minds_onward {f : Activation → Activation} (hm : m.Rests c)
    (hblock : ∀ a, (f a).block = a.block) (hrole : ∀ a, (f a).role = a.role)
    (hlabels : ∀ a, (f a).labels ⊆ a.labels) (hpc : ∀ a rest, m.frames = .block a :: rest →
    c.spreadAt a.block (f a).pc = false)
    (h : modifyTop f m = .ok () m') : m'.Minds c := by
  rcases hframes : m.frames with _ | ⟨a | k, rest⟩
  case cons.block =>
    refine minds_modifyTop hm.frames hframes (hblock a) (hrole a) (fun l hl => ?_) ?_ h
    · exact hm.frames.labels (.block a) (hframes ▸ List.mem_cons_self ..) l (hlabels a hl)
    · rw [hm.spread]
      cases m.ending with
      | none => rw [Frame.due, hblock, hpc a rest hframes]
      | some status => rfl
  all_goals
    unfold modifyTop at h
    rw [modify_apply, hframes] at h
    cases h
    exact hm.minds fun _ a rest h => by cases hframes.symm.trans h

/-- The block below goes on behind its instruction. -/
theorem minds_behind (hm : m.Rests c) (h : advance m = .ok () m') : m'.Minds c :=
  minds_onward (f := fun a => { a with pc := a.pc + 1 }) hm (fun _ => rfl) (fun _ => rfl)
    (fun _ _ hl => hl) hm.behind h

/-- In front of the code of a block nothing is to be spread. -/
theorem minds_enterBlock {id : BlockId} {given : List Value} {role : Role} (hm : m.Rests c)
    (hon : ∀ a rest, m.frames = .block a :: rest → (role != .entry && role != .section) = true)
    (h : enterBlock c id given role m = .ok () m') : m'.Minds c := by
  unfold enterBlock at h
  split at h
  · cases h
  · obtain ⟨vs, m₁, hprogress, -, h⟩ := (preserves_defaults Machine.aside_progress _).bind_ok h
    cases h
    have hm₁ := hm.congr hprogress
    refine ⟨hm₁.inOrder_cons (fun l hl => absurd hl List.not_mem_nil) fun a rest hframes => ?_, ?_⟩
    · obtain ⟨b, fs, hb, -⟩ := Machine.block_of_course (congrArg Prod.fst hprogress) hframes
      exact hon b fs hb
    · rw [hm₁.spread]
      cases m₁.ending <;> rfl

theorem halts_startArgs (id : BlockId) (params : List Value) : Halts (startArgs c id params) := by
  unfold startArgs
  split
  · exact .pure params
  · refine .ite (.bind (preserves_variadicArgs Machine.aside_progress _ params)
      fun _ => halts_ofExcept _)
      (.ite (.bind (.pure params) fun _ => halts_ofExcept _)
        (.bind (.fail _) fun _ => halts_ofExcept _))

/-- A function starts with the mark as its code has it at its beginning, which is not set. -/
theorem minds_start {id : BlockId} {params : List Value} {role : Role} (hm : m.Rests c)
    (hon : ∀ a rest, m.frames = .block a :: rest → (role != .entry && role != .section) = true)
    (h : start c id params role m = .ok () m') : m'.Minds c := by
  obtain ⟨args, m₁, hargs, h⟩ := start_eq_ok h
  have hprogress := (halts_startArgs id params).of_ok hargs
  refine minds_enterBlock (hm.congr hprogress) (fun a rest hframes => ?_) h
  obtain ⟨b, fs, hb, -⟩ := Machine.block_of_course (congrArg Prod.fst hprogress) hframes
  exact hon b fs hb

/-! ### Calls -/

/-- A call takes the mark away, and the caller lies behind the call, where nothing is to be
spread. -/
theorem minds_callFunc {id : BlockId} {count : Option Nat} (hm : m.Minds c)
    (hbehind : ∀ a rest, m.frames = .block a :: rest → c.spreadAt a.block (a.pc + 1) = false)
    (h : callFunc c id count m = .ok () m') : m'.Minds c := by
  rw [callFunc_eq] at h
  obtain ⟨slots, m₁, hslots, h⟩ := bind_eq_ok h
  have hcourse : m₁.course = m.course :=
    (preserves_callSlots Machine.aside_course (fun _ _ => rfl) c id count).of_ok hslots
  have hm₁ : m₁.Rests c := by
    refine ⟨Machine.inOrder_of_course hcourse hm.frames,
      clears_callSlots c id count _ _ _ hslots, ?_⟩
    intro a rest hframes
    obtain ⟨b, fs, hb, hblock, hpc, -⟩ := Machine.block_of_course hcourse hframes
    rw [← hblock, ← hpc]
    exact hbehind b fs hb
  obtain ⟨-, m₂, h₂, -, h⟩ := (preserves_pay Machine.aside_progress _ _).bind_ok h
  obtain ⟨-, m₃, h₃, -, h⟩ := (halts_checkDepth c).bind_ok h
  exact minds_enterBlock (hm₁.congr (h₃.trans h₂)) (fun _ _ _ => rfl) h

/-- In front of a contract nothing is to be spread. -/
theorem minds_callContract {name names : String} {values : List Value} {via : Option Extension}
    (hm : m.Rests c) (hon : ∀ a rest, m.frames = .block a :: rest → via.isSome = true)
    (h : callContract c name names values via m = .ok () m') : m'.Minds c := by
  rw [callContract_eq] at h
  obtain ⟨p, m₁, h₁, -, h⟩ := (preserves_contractParams Machine.aside_progress c _).bind_ok h
  obtain ⟨-, m₂, h₂, -, h⟩ := (preserves_pay Machine.aside_progress _ _).bind_ok h
  cases h
  have hm₂ := hm.congr (h₂.trans h₁)
  refine ⟨hm₂.inOrder_cons trivial fun a rest hframes => ?_, hm₂.spread⟩
  obtain ⟨b, fs, hb, -⟩ := Machine.block_of_course (congrArg Prod.fst (h₂.trans h₁)) hframes
  exact hon b fs hb

/-- An extension leaves the mark as it is, and a contract that it calls starts without one. -/
theorem minds_behave {e : Extension} {args : List Value} (hm : m.Rests c)
    (h : behave c e args m = .ok () m') : m'.Minds c := by
  unfold behave at h
  cases hbehaviour : e.behaviour with
  | host run =>
    simp only [hbehaviour] at h
    obtain ⟨reply, m₁, h₁, -, h⟩ := (preserves_host Machine.aside_progress run args).bind_ok h
    cases reply with
    | values vs =>
      obtain ⟨-, m₂, h₂, -, h⟩ := (halts_deliver e vs).bind_ok h
      exact minds_behind (hm.congr (h₂.trans h₁)) h
    | fault f => cases h
    | crash => cases h
  | execContract =>
    simp only [hbehaviour] at h
    exact minds_callContract hm (fun _ _ _ => rfl) h
  | callContract =>
    simp only [hbehaviour] at h
    obtain ⟨h₀, m₁, hget, h⟩ := bind_eq_ok h
    cases hget
    obtain ⟨state, m₂, h₂, -, h⟩ := (halts_ofExcept _).bind_ok h
    exact minds_callContract (hm.congr h₂) (fun _ _ _ => rfl) h

/-- A call of an extension takes the mark away in the same way. -/
theorem minds_callExtension {e : Extension} {count : Option Nat} (hm : m.Minds c)
    (hbehind : ∀ a rest, m.frames = .block a :: rest → c.spreadAt a.block (a.pc + 1) = false)
    (h : callExtension c e count m = .ok () m') : m'.Minds c := by
  rw [callExtension_eq, extensionArgs_eq] at h
  simp only [bind_assoc, pure_bind] at h
  obtain ⟨args, m₁, hargs, h⟩ := bind_eq_ok h
  have hcourse : m₁.course = m.course :=
    (preserves_extensionParams Machine.aside_course (fun _ _ => rfl) e count).of_ok hargs
  have hm₁ : m₁.Rests c := by
    refine ⟨Machine.inOrder_of_course hcourse hm.frames,
      clears_extensionParams e count _ _ _ hargs, ?_⟩
    intro a rest hframes
    obtain ⟨b, fs, hb, hblock, hpc, -⟩ := Machine.block_of_course hcourse hframes
    rw [← hblock, ← hpc]
    exact hbehind b fs hb
  obtain ⟨-, m₂, h₂, -, h⟩ := (preserves_pay Machine.aside_progress _ _).bind_ok h
  obtain ⟨-, m₃, h₃, -, h⟩ := (halts_checkDepth c).bind_ok h
  exact minds_behave (hm₁.congr (h₃.trans h₂)) h

/-! ### Ends -/

/-- Behind a label nothing is to be spread. -/
theorem spreadAt_jump (hc : c.Settles) (hlabels : (Frame.block a).Labelled c)
    (hbehind : c.spreadAt a.block (a.pc + 1) = false) : c.spreadAt a.block (jump a).pc = false := by
  unfold jump
  cases hlabel : a.labels with
  | nil => exact hbehind
  | cons l ls => exact hc.spreadAt_succ (hlabels l (hlabel ▸ List.mem_cons_self ..)) rfl

/-- Behind a block the mark is not set, be it that the code goes on, that a loop begins again or
that a function returns. -/
theorem minds_continueBehind (hc : c.Settles) {role : Role} {base : Nat}
    {status : Status} (hm : m.Rests c) (hon : ∀ a rest, m.frames = .block a :: rest →
    (role != .entry && role != .section) = true) (h :
    continueBehind role base status m = .ok () m') : m'.Minds c := by
  -- the block below is ending, too
  have hends : ∀ status, (modify fun m => { m with ending := some status } : Exec PUnit) m
    = .ok () m' →
      m'.Minds c := by
    intro status h
    cases h
    exact Machine.Rests.minds ⟨hm.frames, hm.spread, hm.behind⟩ nofun
  have hjump : ∀ {f : Activation → Activation}, (∀ a, (f a).block = a.block) →
    (∀ a, (f a).role = a.role) →
      (∀ a, (f a).labels ⊆ a.labels) → (∀ a, (f a).pc = a.pc + 1 ∨ (f a).pc = (jump a).pc) →
      modifyTop f m = .ok () m' → m'.Minds c := by
    intro f hblock hrole hlabels hpc h
    refine minds_onward hm hblock hrole hlabels (fun a rest hframes => ?_) h
    rcases hpc a with hpc | hpc
    · rw [hpc]
      exact hm.behind a rest hframes
    · rw [hpc]
      exact spreadAt_jump hc (hm.frames.labels _ (hframes ▸ List.mem_cons_self ..))
        (hm.behind a rest hframes)
  cases role with
  | entry =>
    cases h
    exact hm.minds fun _ a rest hframes => by cases hon a rest hframes
  | «section» =>
    obtain ⟨m₀, m₁, hget, h⟩ := bind_eq_ok h
    cases hget
    by_cases hsize : m.stack.size < base
    · rw [if_pos hsize] at h
      cases h
    · rw [if_neg hsize] at h
      cases h
      exact (hm.minds fun _ a rest hframes => by cases hon a rest hframes).congr rfl
  | branch =>
    cases status with
    | normal => exact minds_behind hm h
    | «return» | «continue» | «break» => exact hends _ h
  | loop =>
    cases status with
    | «return» => exact hends _ h
    | «break» =>
      exact hjump (f := leaveLoop) (fun _ => rfl) (fun _ => rfl)
        (fun a => List.tail_subset a.labels)
        (fun _ => .inl rfl) h
    | normal | «continue» =>
      refine hjump (fun a => ?_) (fun a => ?_) (fun a => ?_) (fun _ => .inr rfl) h <;> unfold jump
      · split <;> rfl
      · split <;> rfl
      · split <;> exact fun _ hl => hl
  | call => exact minds_behind hm h

/-- A block ends where nothing is to be spread. -/
theorem minds_leave (hc : c.Settles) {status : Status} (hm : Frame.InOrder c m.frames)
    (hspread : m.spread = false) (hframes : m.frames = .block a :: rest)
    (h : leave c status m = .ok () m') : m'.Minds c := by
  rw [leave_eq c status hframes] at h
  rw [hframes] at hm
  -- The flag is down when a block ends, and only the frames below it matter behind.
  have hgoes : ∀ {m₁ : Machine}, m₁.progress = (dropBlock a rest m).progress → ∀ status,
      continueBehind a.role a.base status m₁ = .ok () m' → m'.Minds c := by
    intro m₁ hprogress status h
    have hrests : (dropBlock a rest m).Rests c := Machine.rests_below hm rfl hspread
    refine minds_continueBehind hc (hrests.congr hprogress) ?_ h
    intro b fs hb
    obtain ⟨b', fs', hb', -⟩ := Machine.block_of_course (congrArg Prod.fst hprogress) hb
    exact Machine.goesOn_of_inOrder hm b' fs' hb'
  have htruncate : ∀ status, (truncate a.base >>= fun _ => continueBehind a.role a.base status)
      (dropBlock a rest m) = .ok () m' → m'.Minds c := by
    intro status h
    obtain ⟨-, m₁, h₁, -, h⟩ := (preserves_truncate Machine.aside_progress a.base).bind_ok h
    exact hgoes h₁ _ h
  unfold behindBlock at h
  cases hf : (c.block a.block).func? with
  | none =>
    simp only [hf] at h
    split at h
    · exact htruncate _ h
    · exact hgoes rfl _ h
  | some f =>
    simp only [hf] at h
    split at h
    · obtain ⟨-, m₁, h₁, -, h⟩ := (preserves_keepResults Machine.aside_progress f a.base).bind_ok h
      exact hgoes h₁ _ h
    · exact htruncate _ h

/-! ### Steps -/

/-- The next instruction depends on nothing but the course. -/
theorem nextOp?_of_course (h : m'.course = m.course) (hop : nextOp? c m = some op) :
    nextOp? c m' = some op := by
  obtain ⟨a, rest, i, hframes, hending, hcode, rfl⟩ := nextOp?_eq_some hop
  obtain ⟨b, fs, hb, hblock, hpc, -⟩ := Machine.block_of_course h.symm hframes
  have hending' : m'.ending = none := (congrArg Prod.snd h).trans hending
  rw [nextOp?, hb, hending']
  show ((c.block b.block).code[b.pc]?).map Instr.op = _
  rw [hblock, hpc, hcode, Option.map_some]

/-- What comes next is what a machine has come to. -/
theorem nextOp?_congr (h : m'.course = m.course) : nextOp? c m' = nextOp? c m :=
  Option.ext fun _ => ⟨nextOp?_of_course h.symm, nextOp?_of_course h⟩

/-- **An instruction keeps that the mark is what the code says.** -/
theorem minds_perform (hc : c.Settles) (hm : m.Minds c) (hop : nextOp? c m = some op)
    (h : perform c op m = .ok () m') : m'.Minds c := by
  obtain ⟨a, rest, i, hframes, hending, hcode, rfl⟩ := nextOp?_eq_some hop
  have hhere : (c.block a.block).ops[a.pc]? = some i.op := by
    rw [Block.ops, List.getElem?_map, Array.getElem?_toList, hcode, Option.map_some]
  have hspread : m.spread = c.spreadAt a.block a.pc := by
    rw [hm.spread, hframes, hending, Frame.due]
  generalize i.op = op at hhere h
  -- what comes behind an instruction that goes on
  have hadvance : ∀ {m₁ : Machine}, m₁.course = m.course →
    m₁.spread = c.spreadAt a.block (a.pc + 1) →
      advance m₁ = .ok () m' → m'.Minds c := by
    intro m₁ hcourse hspread h
    obtain ⟨b, fs, hb, hblock, hpc, -⟩ := Machine.block_of_course hcourse.symm hframes
    refine minds_advance (Machine.inOrder_of_course hcourse hm.frames) hb
      ((congrArg Prod.snd hcourse).trans hending) ?_ h
    rw [hblock, hpc]
    exact hspread
  have hbehind : c.spreadAt a.block (a.pc + 1) = false →
      ∀ b fs, m.frames = .block b :: fs → c.spreadAt b.block (b.pc + 1) = false := by
    intro hnone b fs hb
    cases hframes.symm.trans hb
    exact hnone
  -- a statement leaves nothing to spread
  have hrests : ∀ {m₁ : Machine}, m₁.progress = m.progress →
    op.isStatement = true → m₁.Rests c := by
    intro m₁ hprogress hstatement
    refine Machine.Rests.congr ⟨hm.frames, ?_,
      hbehind (hc.spreadAt_succ hhere hstatement)⟩ hprogress
    rw [hspread, hc.statement _ _ _ hhere hstatement]
  have hcall : ∀ {f : Callee} {count : Option Nat} {m₁ : Machine}, m₁.progress = m.progress →
      op.isCall = true → call c f count m₁ = .ok () m' → m'.Minds c := by
    intro f count m₁ hprogress hop h
    have hm₁ : ∀ b fs, m₁.frames = .block b :: fs → c.spreadAt b.block (b.pc + 1) = false := by
      intro b fs hb
      obtain ⟨b', fs', hb', hblock, hpc, -⟩ :=
        Machine.block_of_course (congrArg Prod.fst hprogress) hb
      rw [← hblock, ← hpc]
      exact hbehind (Context.spreadAt_succ_of_isCall hhere hop) b' fs' hb'
    cases f with
    | func id => exact minds_callFunc (hm.congr hprogress) hm₁ h
    | ext e => exact minds_callExtension (hm.congr hprogress) hm₁ h
  have hleave : ∀ status, op.isStatement = true → leave c status m = .ok () m' → m'.Minds c := by
    intro status hstatement h
    exact minds_leave hc hm.frames (hrests rfl hstatement).spread hframes h
  -- Most instructions change nothing that the mark depends on and go on; the rest go on elsewhere.
  by_cases hadvances : op.advances = true
  · obtain ⟨x, hx, hpreserves⟩ := perform_advances c hadvances
    rw [hx] at h
    obtain ⟨-, m₁, h₁, -, h⟩ := (hpreserves Machine.aside_progress).bind_ok h
    refine hadvance (congrArg Prod.fst h₁) ?_ h
    rw [Context.spreadAt_succ hhere, Op.spreadBehind_of_advances hadvances, ← hspread]
    exact congrArg Prod.snd h₁
  cases op with
  | callExtend name =>
    obtain ⟨count, m₁, h₁, -, h⟩ := (preserves_popCount Machine.aside_progress).bind_ok h
    cases hname : c.registry.objects.get? name with
    | none =>
      rw [hname] at h
      cases h
    | some b =>
      simp only [hname] at h
      cases b with
      | ext e => exact hcall (f := .ext e) h₁ rfl (show call c (.ext e) (some count) m₁ = _ from h)
      | contract | func | var | extVar => cases h
  | call f => exact hcall rfl rfl h
  | callVariadic f =>
    obtain ⟨count, m₁, h₁, -, h⟩ := (preserves_popCount Machine.aside_progress).bind_ok h
    exact hcall h₁ rfl h
  | «return» | «continue» | «break» => exact hleave _ rfl h
  | unwrapArr =>
    obtain ⟨u, m₁, hm₁, h⟩ := bind_eq_ok h
    have hcourse : m₁.course = m.course := by
      cases hm₁
      rfl
    have hset : m₁.spread = true := by
      cases hm₁
      rfl
    exact hadvance hcourse (by rw [hset, Context.spreadAt_succ hhere]; rfl) h
  | error level =>
    obtain ⟨v, m₁, -, h⟩ := bind_eq_ok h
    cases h
  | «if» body =>
    obtain ⟨v, m₁, h₁, -, h⟩ := (preserves_pop Machine.aside_progress).bind_ok h
    obtain ⟨m₁', m₂, hget, h⟩ := bind_eq_ok h
    cases hget
    have hcond : Halts (modifyTop fun a => { a with lastCond := v.truthy m₁.heap }) :=
      halts_modifyTop fun _ => rfl
    obtain ⟨-, m₃, h₃, -, h⟩ := hcond.bind_ok h
    have hm₃ := hrests (h₃.trans h₁) rfl
    split at h
    · exact minds_enterBlock hm₃ (fun _ _ _ => rfl) h
    · exact minds_behind hm₃ h
  | «else» body =>
    rw [perform_else hframes] at h
    split at h
    · exact minds_behind (hrests rfl rfl) h
    · exact minds_enterBlock (hrests rfl rfl) (fun _ _ _ => rfl) h
  | «while» body =>
    obtain ⟨v, m₁, h₁, -, h⟩ := (preserves_pop Machine.aside_progress).bind_ok h
    obtain ⟨m₁', m₂, hget, h⟩ := bind_eq_ok h
    cases hget
    have hm₁ := hrests h₁ rfl
    split at h
    · exact minds_enterBlock hm₁ (fun _ _ _ => rfl) h
    · exact minds_onward (f := leaveLoop) hm₁ (fun _ => rfl) (fun _ => rfl)
        (fun a => List.tail_subset a.labels) hm₁.behind h
  | label =>
    refine minds_modifyTop hm.frames hframes rfl rfl (fun l hl => ?_) ?_ h
    · rcases List.mem_cons.1 hl with rfl | hl
      · exact hhere
      · exact hm.frames.labels (.block a) (hframes ▸ List.mem_cons_self ..) l hl
    · rw [(hrests rfl rfl).spread, hending, Frame.due, hc.spreadAt_succ hhere rfl]
  | assignVar ts =>
    exact minds_onward (f := fun a => { a with targets := ts, pc := a.pc + 1 }) (hrests rfl rfl)
      (fun _ => rfl) (fun _ => rfl) (fun _ _ hl => hl) (hrests rfl rfl).behind h
  | assign =>
    rw [perform_assign hframes] at h
    have htargets : Halts (modifyTop fun a => { a with targets := [] }) :=
      halts_modifyTop fun _ => rfl
    obtain ⟨-, m₁, h₁, -, h⟩ := htargets.bind_ok h
    obtain ⟨values, m₂, h₂, -, h⟩ := (preserves_popN Machine.aside_progress _).bind_ok h
    obtain ⟨-, m₃, h₃, -, h⟩ := (preserves_assignAll Machine.aside_progress c _ values).bind_ok h
    exact minds_behind (hrests (h₃.trans (h₂.trans h₁)) rfl) h
  | push | var | extendVar | funcName | mapInit | arrayInit | index | setIndex | unary | binary =>
    exact absurd rfl hadvances

/-- Going on with a contract, or ending it. -/
theorem minds_resume {k : ContractCall} (hm : m.Minds c) (hframes : m.frames = .contract k :: rest)
    (h : resume c k rest m = .ok () m') : m'.Minds c := by
  have horder : Frame.InOrder c (.contract k :: rest) := hframes ▸ hm.frames
  have hspread : m.spread = false := by
    rw [hm.spread, hframes]
    rfl
  -- The next section starts, or the contract is over and the block that called it goes on.
  cases hsections : k.sections with
  | cons s ss =>
    rw [resume_cons c rest m hsections] at h
    have hrests : Machine.Rests c
      { m with frames := .contract { k with sections := ss } :: rest } :=
      ⟨horder.replace (g := .contract { k with sections := ss }) trivial rfl, hspread, nofun⟩
    exact minds_start hrests nofun h
  | nil =>
    rw [resume_nil c rest m hsections] at h
    have hrests : (finished k rest m).Rests c := Machine.rests_below horder rfl hspread
    unfold behindContract at h
    cases hvia : k.via with
    | none =>
      rw [hvia] at h
      refine (hrests.minds fun _ a fs hfs => ?_).congr
        ((preserves_push Machine.aside_progress _).of_ok h)
      have hon := Machine.goesOn_of_inOrder horder a fs hfs
      rw [Frame.goesOn, hvia] at hon
      cases hon
    | some e =>
      simp only [hvia] at h
      obtain ⟨-, m₁, h₁, -, h⟩ := (halts_deliver e _).bind_ok h
      exact minds_behind (hrests.congr h₁) h

/-- **A step keeps that the mark is what the code says.** -/
theorem minds_step (hc : c.Settles) (hm : m.Minds c) (h : step c m = .ok () m') : m'.Minds c := by
  cases ahead c m with
  | done _ hstep =>
    rw [hstep] at h
    cases h
    exact hm
  | resumes k rest hframes hstep =>
    rw [hstep] at h
    exact minds_resume hm hframes h
  | leaves a rest status hframes hends hstep =>
    rw [hstep] at h
    refine minds_leave hc hm.frames ?_ hframes h
    rw [hm.spread, hframes]
    rcases hends with hending | ⟨hending, hcode, -⟩
    · rw [hending]
      rfl
    · -- Behind its last instruction a block has no flag due.
      have hend : (c.block a.block).ops[a.pc]? = none := by
        rw [Block.ops, List.getElem?_map, Array.getElem?_toList, hcode, Option.map_none]
      rw [hending, Frame.due, hc.finish _ _ hend]
  | runs a rest i hframes hending hcode hstep =>
    rw [hstep] at h
    obtain ⟨-, m₁, h₁, -, h⟩ := (preserves_tick Machine.aside_progress c).bind_ok h
    have hop : nextOp? c m₁ = some i.op := by
      rw [nextOp?_congr (congrArg Prod.fst h₁), nextOp?, hframes, hending]
      exact congrArg (Option.map Instr.op) hcode
    exact minds_perform hc (hm.congr h₁) hop h

/-- A run starts where nothing is to be spread. -/
theorem minds_launch {l : Launch} (hframes : m.frames = []) (hspread : m.spread = false)
    (h : l.start c m = .ok () m') : m'.Minds c := by
  have hrests : m.Rests c := .of_nil hframes hspread
  cases l with
  | func id params => exact minds_start hrests (fun a rest hm => by cases hframes.symm.trans hm) h
  | contract state name params =>
    exact minds_callContract hrests (fun a rest hm => by cases hframes.symm.trans hm) h

end Exec

/-- **In every run the mark is what the code of the innermost block says**, if nothing is to be
spread in front of statements and at the end of code. -/
theorem Transition.minds {c : Context} {l : Launch} {m₀ m m' : Machine}
    {q : Option Request} (hc : c.Settles) (hframes : m₀.frames = []) (hspread : m₀.spread = false)
    (h : Transition c l m₀ m q (.ok () m')) :
    m'.Minds c := by
  generalize hr : (EStateM.Result.ok () m' : EStateM.Result Stop Machine Unit) = r at h
  induction h generalizing m' with
  | start => exact Exec.minds_launch hframes hspread hr.symm
  | step _ _ ih => exact Exec.minds_step hc (ih rfl) hr.symm

/-! ### The arguments of calls -/

namespace Value

/-- What stands for a value that is spread: the elements of an array. -/
def elements (h : Heap) : Value → List Value
  | .array r => (h.items r).toList
  | v => [v]

end Value

namespace Compile

/-- The values of some arguments, with the elements of those that are written with `...`. -/
def spreadOut (h : Heap) (es : List Phrase) (vs : List Value) : List Value :=
  (es.zip vs).flatMap fun p => if p.1.tails then p.2.elements h else [p.2]

/-- Arguments that are not written with `...` are not spread. -/
theorem spreadOut_of_none {h : Heap} {es : List Phrase} {vs : List Value}
    (hlength : vs.length = es.length) (hnone : es.any Phrase.tails = false) :
    spreadOut h es vs = vs := by
  induction es generalizing vs with
  | nil =>
    rw [List.length_eq_zero_iff.1 hlength]
    rfl
  | cons e es ih =>
    rw [List.any_cons, Bool.or_eq_false_iff] at hnone
    obtain ⟨v, vs, rfl⟩ := List.exists_cons_of_length_eq_add_one hlength
    rw [spreadOut, List.zip_cons_cons, List.flatMap_cons, hnone.1, if_neg Bool.false_ne_true,
      List.singleton_append]
    exact congrArg _ (ih (Nat.succ.inj hlength) hnone.2)

/-- If only the last argument is written with `...`, only this is spread. -/
theorem spreadOut_of_last {h : Heap} {es : List Phrase} {vs : List Value}
    (hlength : vs.length = es.length) (hlast : es.dropLast.any Phrase.tails = false)
    (xs : List Value) :
    xs ++ spreadOut h es vs = if lastTails es then
      (xs ++ vs).dropLast ++ (xs ++ vs).getLast?.elim [] (Value.elements h) else xs ++ vs := by
  rcases List.eq_nil_or_concat es with rfl | ⟨es, e, rfl⟩
  · rw [List.length_eq_zero_iff.1 hlength]
    rfl
  · rw [List.concat_eq_append] at hlength hlast ⊢
    rcases List.eq_nil_or_concat vs with rfl | ⟨vs, v, rfl⟩
    · rw [List.length_append] at hlength
      cases hlength
    · rw [List.concat_eq_append] at hlength ⊢
      rw [List.length_append, List.length_append] at hlength
      have hlength' : vs.length = es.length := Nat.add_right_cancel hlength
      rw [List.dropLast_concat] at hlast
      rw [spreadOut, List.zip_append hlength'.symm, List.flatMap_append,
        show List.flatMap _ (es.zip vs) = spreadOut h es vs from rfl,
        spreadOut_of_none hlength' hlast, ← List.append_assoc, ← List.append_assoc,
        List.getLast?_concat, List.dropLast_concat, lastTails,
        List.getLast?_concat, Option.any_some]
      rw [List.zip_cons_cons, List.zip_nil_left, List.flatMap_singleton]
      split
      · rfl
      · rw [List.append_assoc]

end Compile

namespace Exec

variable {m m₁ : Machine} {args : List Value} {count : Nat}

/-- Taking arguments spreads the last one if the mark is set. -/
theorem takeArgs_of_popN (h : popN count m = .ok args m₁) :
    takeArgs count m = .ok
      (if m.spread then args.dropLast ++ args.getLast?.elim [] (Value.elements m.heap) else args)
      { m₁ with spread := false } := by
  obtain ⟨s, -, -, rfl⟩ := stack_of_popN h
  unfold takeArgs
  rw [bind_of_ok h, get_bind_apply, modify_bind_apply]
  dsimp only
  cases m.spread with
  | false => rfl
  | true =>
    rcases List.eq_nil_or_concat args with rfl | ⟨args, v, rfl⟩
    · rfl
    · rw [List.concat_eq_append, List.getLast?_concat, List.dropLast_concat]
      cases v <;> rfl

end Exec

open Compile Exec in
/-- Whether a machine takes the arguments of a call as they are written: with whatever operands on
the stack, those with `...` count as their elements, and no others. Other operands may be taken
together with them. -/
def TakesAsWritten (arguments : List Phrase) (m : Machine) : Prop :=
  ∀ stack xs vs m₁, vs.length = arguments.length →
    popN (xs.length + vs.length) { m with stack := stack } = .ok (xs ++ vs) m₁ →
    takeArgs (xs.length + vs.length) { m with stack := stack }
      = .ok (xs ++ spreadOut m.heap arguments vs) { m₁ with spread := false }

open Compile Exec in
/-- **Only what is written with `...` is spread.** The code of a host's blocks can be read as
expressions, and it has their calls. However it is made up of expressions: if each `...` is behind
the last argument of a call, with no call in the segments that follow it, then in every run every
call that counts its arguments takes those that are written with `...` in its own list as their
elements, and no others. -/
theorem Session.Reachable.spreads_own {s : Session} (h : s.Reachable) :
    (∀ id, ∃ ts, ReadAs (s.registry.block id).ops ts) ∧
      ∀ ts : BlockId → List Passage, (∀ id, MadeOf (s.registry.block id).ops (ts id)) →
        (∀ id, ∀ t ∈ ts id, t.placed = true) → ∀ x : s.Execution,
          ∀ op, nextOp? x.context x.machine = some op → op.isCall = true →
            ∃ a rest, x.machine.frames = .block a :: rest ∧
            ∃ u ∈ (ts a.block).flatMap Passage.calls,
              (∃ front, (s.registry.block a.block).ops.take (a.pc + 1) = front ++ u.ops) ∧
                TakesAsWritten u.arguments x.machine := by
  refine ⟨h.legible, fun ts hts hplaced x op hop hcall => ?_⟩
  have hfinds := fun id => (hts id).finds (hplaced id)
  have hsettles : x.context.Settles := by
    refine ⟨fun id pc op hop hstatement => ?_, fun id pc hnone => ?_⟩
    · exact (hfinds id).2.2 _ op _ (eq_take_append_of_getElem? hop) hstatement
    · rw [Context.spreadAt, List.take_of_length_le (List.getElem?_eq_none_iff.1 hnone)]
      exact (hfinds id).2.1
  obtain ⟨a, rest, i, hframes, hending, hcode, rfl⟩ := nextOp?_eq_some hop
  have hhere : (x.context.block a.block).ops[a.pc]? = some i.op := by
    rw [Block.ops, List.getElem?_map, Array.getElem?_toList, hcode, Option.map_some]
  obtain ⟨u, hu, hplaced, hfront, hspreads⟩ :=
    (hfinds a.block).1 _ _ _ (eq_take_append_of_getElem? hhere) hcall
  -- the mark is what the code in front of the call says
  have hmark : x.machine.spread = u.spreads := by
    rw [(x.transition.minds hsettles rfl rfl).spread, hframes, hending]
    exact hspreads
  refine ⟨a, rest, hframes, u, hu, ?_, fun stack xs vs m₁ hlength hpop => ?_⟩
  · obtain ⟨front, hfront⟩ := hfront
    refine ⟨front, .trans ?_ hfront⟩
    rw [List.take_add_one]
    exact congrArg (_ ++ Option.toList ·) hhere
  · rw [takeArgs_of_popN hpop, hmark, Phrase.spreads,
      ← spreadOut_of_last hlength (Phrase.tails_of_placed hplaced)]

/-! ### Runs -/

section runs

open Compile Exec Launch

/-- Whether two instructions are the same, for some that are without literals and blocks. -/
def Op.same : Op → Op → Bool
  | .push .nil, .push .nil => true
  | .push (.int n), .push (.int k) => n == k
  | .var v, .var w => v == w
  | .funcName x n, .funcName y k => (x, n) == (y, k)
  | .call (.func id), .call (.func id') => id == id'
  | .callVariadic (.func id), .callVariadic (.func id') => id == id'
  | .assignVar ts, .assignVar us => ts == us
  | .assign, .assign | .setIndex, .setIndex | .unwrapArr, .unwrapArr | .return, .return => true
  | _, _ => false

/-- Whether two lists of instructions are the same. -/
def Op.sameAll : List Op → List Op → Bool
  | [], [] => true
  | o :: os, o' :: os' => o.same o' && sameAll os os'
  | _, _ => false

theorem Op.eq_of_same {o o' : Op} (h : o.same o' = true) : o = o' := by
  unfold same at h
  split at h <;> first | rfl | cases h | rw [beq_iff_eq.1 h] | cases beq_iff_eq.1 h; rfl

theorem Op.eq_of_sameAll {os os' : List Op} (h : sameAll os os' = true) : os = os' := by
  fun_induction sameAll os os' with
  | case1 => rfl
  | case2 o os o' os' ih =>
    rw [Bool.and_eq_true] at h
    rw [eq_of_same h.1, ih h.2]
  | case3 => cases h

/-- A session whose function passes an array with `...`, behind another argument. -/
def pairPassed : Session := callingSession
  ("func n(xs ...) array \x7b return xs \x7d\n" ++
    "func main array \x7b var a array\n a[0] = 1\n return n(7, a...) \x7d")

/-- How its code is read. -/
def pairRead : BlockId → List Passage
  | 1 => [.sentence { last := some (.atom [.ident "xs"] (.var ⟨1, 0⟩)) }, .statement .return]
  | 2 => [
    .sentence {
      leads := [.target (.atom [.ident "a"] (.var ⟨2, 0⟩)) [.atom [] (.const (.int 0))]]
      last := some (.atom [] (.const (.int 1))) },
    .sentence {
      last := some (.call (.ident "n") []
        [.atom [] (.const (.int 7)), .spread (.atom [.ident "a"] (.var ⟨2, 0⟩))] [] []
        (.counted (.func 1) 2)) },
    .statement .return]
  | _ => []

/-- Whether a passage that is an instruction of a statement is one. -/
def Passage.isWellFormed : Passage → Bool
  | .statement op => op.isStatement
  | .sentence _ => true

/-- What is checked of the code of a session, given how it is read. -/
def madeOfCheck (s : Session) (ts : BlockId → List Passage) : Prop :=
  s.registry.arena.size = 3 ∧ ∀ id < 3, (ts id).all Passage.isWellFormed = true ∧
    Op.sameAll ((ts id).flatMap Passage.ops) (s.registry.block id).ops = true

instance (s : Session) (ts : BlockId → List Passage) : Decidable (madeOfCheck s ts) :=
  inferInstanceAs (Decidable (_ ∧ _))

/-- Code that passes the check is made up of the passages. -/
theorem madeOfCheck_sound {s : Session} {ts : BlockId → List Passage} (h : madeOfCheck s ts)
    (hnone : ∀ id, ts (id + 3) = []) (id : BlockId) : MadeOf (s.registry.block id).ops (ts id) := by
  obtain ⟨hsize, hblocks⟩ := h
  rcases Nat.lt_or_ge id 3 with hlt | hge
  · refine ⟨Op.eq_of_sameAll (hblocks id hlt).2, fun op hop => ?_⟩
    exact List.all_eq_true.1 (hblocks id hlt).1 _ hop
  · obtain ⟨k, rfl⟩ := Nat.exists_eq_add_of_le' hge
    rw [hnone, Registry.block, Arena.block_of_le (hsize ▸ hge)]
    exact ⟨rfl, fun _ h => absurd h List.not_mem_nil⟩

/-- The elements of the array that is written with `...` are passed, behind the other argument. -/
theorem pairPassed_spread : ∃ m q m' m₁,
    Transition (pairPassed.context none fun _ => 0) (func 2 []) emptyMachine m q (.ok () m') ∧
      (m'.heap.items 0)[0]? = some (.int 1) ∧ takeArgs 2 { m' with stack := #[.int 7, .array 0] }
        = .ok (.int 7 :: (m'.heap.items 0).toList) m₁ := by
  obtain ⟨hcheck, hsteps⟩ : madeOfCheck pairPassed pairRead ∧
      ((func 2 []).machineAfter (pairPassed.context none fun _ => 0) 8 emptyMachine).any (fun m =>
        (nextOp? (pairPassed.context none fun _ => 0) m).any Op.isCall &&
          ((m.heap.items 0)[0]?).any (Value.isInt 1)) = true := by
    simp only [pairPassed, callingSession, Session.perform_compile, String.toList_append,
      String.reduceToList]
    decide +kernel
  obtain ⟨m, q, m', htrans, hchecks⟩ := machineAfter_sound hsteps
  rw [Bool.and_eq_true, Option.any_eq_true] at hchecks
  obtain ⟨⟨op, hop, hcall⟩, hitem⟩ := hchecks
  have hplaced : ∀ id, ∀ t ∈ pairRead id, t.placed = true := by
    intro id
    unfold pairRead
    split <;> exact List.all_eq_true.1 (by decide)
  obtain ⟨-, hspreads⟩ := (reachable_callingSession _).spreads_own (s := pairPassed)
  let x : pairPassed.Execution := {
    allowance := none, clock := fun _ => 0, launch := func 2 []
    env := .empty, heap := .empty, cost := 10000
    before := m, request := q, machine := m', transition := htrans }
  obtain ⟨a, rest, -, u, hu, -, htake⟩ :=
    hspreads pairRead (madeOfCheck_sound hcheck fun _ => rfl) hplaced x op hop hcall
  -- The call is the only one of the program, and its arguments are `7` and `a...`.
  have harguments : u.arguments
      = [.atom [] (.const (.int 7)), .spread (.atom [.ident "a"] (.var ⟨2, 0⟩))] := by
    unfold pairRead at hu
    split at hu
    · cases hu
    · rw [List.mem_singleton.1 (show u ∈ [_] from hu)]
      rfl
    · cases hu
  rw [harguments] at htake
  have htaken : takeArgs 2 { m' with stack := #[.int 7, .array 0] }
      = .ok (.int 7 :: ((m'.heap.items 0).toList ++ [])) _ :=
    htake #[.int 7, .array 0] [] [.int 7, .array 0] _ rfl rfl
  rw [List.append_nil] at htaken
  exact ⟨m, q, m', _, htrans, Value.eq_int_of_isInt hitem, htaken⟩

/-- A session that assigns an array with `...` and passes another one. -/
def strayPassed : Session := callingSession
  ("func n(xs ...) array \x7b return xs \x7d\n" ++
    "func main array \x7b var a array\n var b array\n a[0] = 1\n b = a...\n return n(b) \x7d")

/-- How its code is read. -/
def strayRead : BlockId → List Passage
  | 1 => [.sentence { last := some (.atom [.ident "xs"] (.var ⟨1, 0⟩)) }, .statement .return]
  | 2 => [
    .sentence {
      leads := [.target (.atom [.ident "a"] (.var ⟨2, 0⟩)) [.atom [] (.const (.int 0))]]
      last := some (.atom [] (.const (.int 1))) },
    .statement (.assignVar [.var ⟨2, 1⟩]),
    .sentence { last := some (.spread (.atom [.ident "a"] (.var ⟨2, 0⟩))) },
    .statement .assign,
    .sentence {
      last := some (.call (.ident "n") [] [.atom [.ident "b"] (.var ⟨2, 1⟩)] []
        [] (.counted (.func 1) 1)) },
    .statement .return]
  | _ => []

/-- **A `...` that is written elsewhere spreads the argument of the next call**: the array `b` is
not written with `...` in the only call of the program, and its elements are passed instead of
it. -/
theorem stray_spread_taken :
    (∀ id, MadeOf (strayPassed.registry.block id).ops (strayRead id)) ∧
      (∀ id, ∀ u ∈ (strayRead id).flatMap Passage.calls, u.spreads = false) ∧
      ∃ m q m' m₁, Transition (strayPassed.context none fun _ => 0)
      (func 2 []) emptyMachine m q (.ok () m') ∧
        (nextOp? (strayPassed.context none fun _ => 0) m').any Op.isCall = true ∧
        (m'.heap.items 0)[0]? = some (.int 1) ∧
        takeArgs 1 { m' with stack := #[.array 0] } = .ok (m'.heap.items 0).toList m₁ := by
  obtain ⟨hcheck, hsteps⟩ : madeOfCheck strayPassed strayRead ∧
      ((func 2 []).machineAfter (strayPassed.context none fun _ => 0) 10 emptyMachine).any (fun m =>
        (nextOp? (strayPassed.context none fun _ => 0) m).any Op.isCall && m.spread &&
          ((m.heap.items 0)[0]?).any (Value.isInt 1)) = true := by
    simp only [strayPassed, callingSession, Session.perform_compile, String.toList_append,
      String.reduceToList]
    decide +kernel
  obtain ⟨m, q, m', htrans, hchecks⟩ := machineAfter_sound hsteps
  rw [Bool.and_eq_true, Bool.and_eq_true] at hchecks
  obtain ⟨⟨hcall, hmark⟩, hitem⟩ := hchecks
  have htaken := takeArgs_of_popN (m := { m' with stack := #[.array 0] })
    (show popN 1 _ = .ok [.array 0] _ from rfl)
  -- No call that is read here spreads, but the flag of an earlier `...` is up.
  rw [if_pos hmark] at htaken
  refine ⟨madeOfCheck_sound hcheck fun _ => rfl, fun id u hu => ?_, m, q, m', _, htrans, hcall,
    Value.eq_int_of_isInt hitem, htaken⟩
  unfold strayRead at hu
  split at hu
  · cases hu
  · rw [List.mem_singleton.1 (show u ∈ [_] from hu)]
    rfl
  · cases hu

end runs

end Covenant
