import Covenant.Compile.Unit
import Covenant.Proofs.Arena
import Covenant.Proofs.Computation
import Covenant.Proofs.Dict
import Mathlib.Logic.Relation

/-!
# What the compiler does to the arena

The compiler changes the arena in few ways: it opens a block inside the innermost open one, closes
the innermost one, changes one of the open blocks, or marks all of them as writing. `Edit` says once
what these changes can be, and `unit_edits` that compiling a unit is a sequence of them. What every
unit keeps of the arena follows by looking at the edits.

A block that is opened becomes the body of a control statement of the block around it, or gets a
name in there (`Edit.control`, `Edit.declares`); it keeps what it is from then on. A change of a
block (`BlockEdit`) keeps its place in the tree of blocks and its standing. It may bind new names to
variables that it adds, and bind the fields of the data section; it may add a data field that is no
system variable; it may add assignments, whose targets are variables that can be found or `$` names
that are no system variables; and it may add reads of variables and calls of functions that can be
found. Where a call may change the database, all open blocks are marked by then (`Admits`).

A variable or a parameter waits for its type under a name that is not taken (`Work.Waiting`), so it
takes no name from another one when it is declared.
-/

namespace Covenant

namespace Compile

open Covenant.Computation

/-! ### Edits -/

/-- Whether no identifier of a source is empty. -/
def Source.Spelled (s : Source) : Prop := ∀ i, s.kind? i = some .ident → s.name i ≠ ""

namespace Work

/-- Whether all open blocks are marked as writing. -/
def Marked (w : Work) : Prop := ∀ id ∈ w.opened, (w.block id).standing.Marked

/-- Whether a function can be found: its name is bound in an open block or globally. -/
def Finds (s : Source) (w : Work) (g : BlockId) : Prop :=
  (∃ id ∈ w.opened, ∃ x, (w.block id).objects.get? x = some (.func g)) ∨
    ∃ x, s.globals.get? x = some (.func g)

/-- Whether the names that wait for their type are different, and new in the innermost block. -/
structure Waiting (w : Work) : Prop where
  distinct : w.pending.Nodup
  fresh : ∀ x ∈ w.pending, (w.block w.top).objects.get? x = none

theorem Waiting.of_nil {w : Work} (h : w.pending = []) : w.Waiting := by
  constructor
  · rw [h]
    exact .nil
  · rw [h]
    exact fun x hx => absurd hx List.not_mem_nil

end Work

/-- A variable that is found belongs to a block that was searched. -/
theorem owner_mem_of_findVarIn {w : Work} {name : String} {ids : List BlockId} {v : VarRef}
    (h : w.findVarIn name ids = some (.var v)) : v.owner ∈ ids := by
  induction ids with
  | nil => cases h
  | cons id ids ih =>
    unfold Work.findVarIn at h
    split at h
    · cases h
      exact List.mem_cons_self ..
    · cases h
    · cases h
    · exact List.mem_cons_of_mem _ (ih h)

theorem owner_mem_of_findVar {w : Work} {name : String} {v : VarRef}
    (h : w.findVar name = some (.var v)) : v.owner ∈ w.opened :=
  owner_mem_of_findVarIn h

/-- Whether an assignment may write to a target. -/
def Assignable (w : Work) (t : Target) : Prop :=
  (∃ name, t = .extend name ∧ Name.isSystem name = false) ∨ ∃ name, w.findVar name = some t

/-- Whether a change of a block may bind a name to something: to a variable that it adds, or to a
field. -/
def Bound (b b' : Block) : Binding → Prop
  | .var i => b.vars.size ≤ i ∧ i < b'.vars.size
  | .extVar name => name ∈ b.fieldNames
  | _ => False

/-- Whether a change of a block may add an instruction. -/
structure Admits (s : Source) (w : Work) (id : BlockId) (op : Op) : Prop where
  vars : ∀ v ∈ op.vars, id = w.top ∧ ∃ x, w.findVar x = some (.var v)
  writes : ∀ e, op.extension? = some e → e.canWrite = true → w.Marked
  calls : ∀ g, op.func? = some g →
    id = w.top ∧ w.Finds s g ∧ ((w.block g).canWrite = true → w.Marked)
  body? : op.body? = none

/-- The variables that an instruction reads belong to open blocks. -/
theorem Admits.owners {s : Source} {w : Work} {id : BlockId} {op : Op} (h : Admits s w id op) :
    ∀ b ∈ op.owners, b ∈ w.opened := by
  intro b hb
  rw [Op.owners_eq] at hb
  obtain ⟨v, hv, rfl⟩ := List.mem_map.1 hb
  obtain ⟨-, x, hx⟩ := h.vars v hv
  exact owner_mem_of_findVar hx

/-- What a single change makes of the commands of a block: a statement or an expression adds to
them, an assignment gets one more target, and the command that repeats a loop moves into its
body. -/
inductive Grows (s : Source) (w : Work) : List Op → List Op → Prop
  | statement {os : List Op} {op : Op} : op.isStatement = true → Grows s w os (os ++ [op])
  | targets {os : List Op} {ts ts' : List Target} : Grows s w (os ++ [.assignVar ts])
    (os ++ [.assignVar ts'])
  | moves {os : List Op} : Grows s w (os ++ [.continue]) os
  | expression {os : List Op} {w₀ : Work} {blockFollows : Bool} {fuel start stop : Nat} {y : Yard}
      {code : Array Instr} : takeAll s blockFollows fuel {} start w₀ = .ok (y, stop) w →
      finish s y stop = .ok code → Grows s w os (os ++ code.toList.map Instr.op)

/-- A change of an open block. Names are bound in the innermost block only, and never in the
unit. -/
structure BlockEdit (s : Source) (w : Work) (id : BlockId) (b b' : Block) : Prop where
  parent : b'.parent = b.parent
  children : b'.children = b.children
  standing : b'.standing = b.standing
  name : b'.name = b.name
  targets : ∀ t ∈ b'.targets, t ∈ b.targets ∨ id = w.top ∧ Assignable w t
  code : ∀ i ∈ b'.code, i ∈ b.code ∨ Admits s w id i.op
  grows : Relation.ReflTransGen (Grows s w) b.ops b'.ops
  objects : ∀ x v, b'.objects.get? x = some v → b.objects.get? x = some v ∨ Bound b b' v
  /-- A name stays bound to what it is bound to, unless a data field takes it. -/
  kept : ∀ x v, b.objects.get? x = some v → x ∉ b.fieldNames → b'.objects.get? x = some v
  vars : b.vars.size ≤ b'.vars.size
  names : b'.objects = b.objects ∨ id = w.top ∧ w.inner ≠ []
  fields : ∀ x ∈ b'.fieldNames, x ∈ b.fieldNames ∨ Name.isSystem x = false
  fits : b.Fits → b'.Fits
  spelled : s.Spelled → b.Spelled → b'.Spelled
  indexed : b.Indexed → b'.Indexed
  variadic : b.Variadic → b'.Variadic

/-- Whether a new block may get a header and its name be bound to something. The name is new in the
block around it, and contracts are declared directly in a unit. -/
structure Declares (w : Work) (x : String) (info : BlockInfo) (v : Binding) : Prop where
  fresh : (w.block w.top).objects.get? x = none
  name : Block.name { parent := none, info := info } = x
  header : (∃ f : FuncInfo, info = .func f ∧
      (f.canWrite = false ∧ f.segments = none ∧ f.chain = none) ∧ v = .func w.arena.size) ∨
    ∃ c : ContractInfo, info = .contract c ∧ c.canWrite = false ∧ c.data = none ∧
      v = .contract w.arena.size ∧ w.inner = []

/-- A change of the work. -/
inductive Edit (s : Source) : Work → Work → Prop
  /-- Names and settings that wait do not matter. -/
  | note {w w' : Work} : w'.arena = w.arena → w'.root = w.root → w'.inner = w.inner → Edit s w w'
  | block {w : Work} {id : BlockId} {f : Block → Block} : id ∈ w.opened →
      BlockEdit s w id (w.block id) (f (w.block id)) → Edit s w (w.modifyBlock id f)
  | marks (w : Work) : Edit s w w.setWritable
  | opens (w : Work) : Edit s w w.openBlock
  /-- Opens the body of a control statement. -/
  | control (w : Work) {op : BlockId → Op} (line : Nat) : (∀ id, (op id).body? = some id) →
      Edit s w (w.openBlock.modifyBlock w.top (·.emit ⟨op w.arena.size, line⟩))
  /-- Opens a function or a contract. -/
  | declares {w : Work} {info : BlockInfo} {v : Binding} (x : String) : Declares w x info v →
      Edit s w ((w.openBlock.modifyBlock w.arena.size fun b => { b with info := info }).modifyBlock
        w.top fun b => { b with objects := b.objects.insert x v })
  | closes (w : Work) : Edit s w { w with inner := w.inner.tail }

/-- Changes of the work, one after the other. -/
abbrev Edits (s : Source) : Work → Work → Prop := Relation.ReflTransGen (Edit s)

/-- Changes of the work that open and close no block. -/
structure Alters (s : Source) (w w' : Work) : Prop where
  edits : Edits s w w'
  inner : w'.inner = w.inner
  size : w'.arena.size = w.arena.size

/-- Changes of the work that open and close no block and leave the names that wait for their
type. -/
structure Changes (s : Source) (w w' : Work) : Prop extends Alters s w w' where
  pending : w'.pending = w.pending

variable {s : Source} {w w' w'' : Work}

/-- No change takes a block away. -/
theorem Edit.size_le (h : Edit s w w') : w.arena.size ≤ w'.arena.size := by
  cases h with
  | note harena => exact Nat.le_of_eq (congrArg Array.size harena).symm
  | block | marks | closes => simp
  | opens | control | declares => simp

theorem Edits.size_le (h : Edits s w w') : w.arena.size ≤ w'.arena.size := by
  induction h with
  | refl => exact Nat.le_refl _
  | tail _ hedit ih => exact Nat.le_trans ih hedit.size_le

namespace Alters

theorem refl (s : Source) (w : Work) : Alters s w w := ⟨.refl, rfl, rfl⟩

theorem trans (h : Alters s w w') (h' : Alters s w' w'') : Alters s w w'' :=
  ⟨h.edits.trans h'.edits, h'.inner.trans h.inner, h'.size.trans h.size⟩

theorem note (harena : w'.arena = w.arena) (hroot : w'.root = w.root)
    (hinner : w'.inner = w.inner) :
    Alters s w w' :=
  ⟨.single (.note harena hroot hinner), hinner, congrArg Array.size harena⟩

theorem block {id : BlockId} {f : Block → Block} (hid : id ∈ w.opened)
    (h : BlockEdit s w id (w.block id) (f (w.block id))) : Alters s w (w.modifyBlock id f) :=
  ⟨.single (.block hid h), rfl, w.size_modifyBlock id f⟩

end Alters

namespace Changes

theorem refl (s : Source) (w : Work) : Changes s w w := ⟨.refl s w, rfl⟩

theorem trans (h : Changes s w w') (h' : Changes s w' w'') : Changes s w w'' :=
  ⟨h.toAlters.trans h'.toAlters, h'.pending.trans h.pending⟩

theorem note (harena : w'.arena = w.arena) (hroot : w'.root = w.root) (hinner : w'.inner = w.inner)
    (hpending : w'.pending = w.pending) : Changes s w w' :=
  ⟨.note harena hroot hinner, hpending⟩

theorem marks (s : Source) (w : Work) : Changes s w w.setWritable :=
  ⟨⟨.single (.marks w), w.inner_setWritable, w.size_setWritable⟩, w.pending_setWritable⟩

theorem block {id : BlockId} {f : Block → Block} (hid : id ∈ w.opened)
    (h : BlockEdit s w id (w.block id) (f (w.block id))) : Changes s w (w.modifyBlock id f) :=
  ⟨.block hid h, rfl⟩

end Changes

/-! ### Steps of compilation -/

/-- Whether a step of compilation that succeeds leads to an answer and a work with a property. -/
def Leads {α : Type} (w : Work) (x : Compiling α) (Q : α → Work → Prop) : Prop :=
  ∀ a w', x w = .ok a w' → Q a w'

/-- Whether a step of compilation leads to an answer and a work with a property, or fails behind
edits of some work. -/
structure Tends {α : Type} (s : Source) (w₀ w : Work) (x : Compiling α) (Q : α → Work → Prop) :
    Prop where
  leads : Leads w x Q
  fails : ∀ e w', x w = .error e w' → Edits s w₀ w'

/-- Whether a step of compilation makes changes, and leads to an answer and a work with a property
if it succeeds. -/
abbrev Yields {α : Type} (s : Source) (w : Work) (x : Compiling α) (Q : α → Work → Prop) : Prop :=
  Tends s w w x fun a w' => Changes s w w' ∧ Q a w'

/-- Whether a step of compilation makes changes. -/
abbrev Amends {α : Type} (s : Source) (w : Work) (x : Compiling α) : Prop :=
  Yields s w x fun _ _ => True

section steps

variable {α β : Type} {s : Source} {w₀ w w' : Work} {x : Compiling α} {k : α → Compiling β}
  {P Q : α → Work → Prop} {R : β → Work → Prop}

namespace Leads

theorem pure {a : α} (h : Q a w) : Leads w (pure a) Q := by
  intro b w' hb
  cases hb
  exact h

theorem throw (e : Error) : Leads w (throw e : Compiling α) Q := by
  intro b w' hb
  cases hb

theorem bind (hx : Leads w x P) (hk : ∀ a w', P a w' → Leads w' (k a) R) :
    Leads w (x >>= k) R := by
  intro b w'' hb
  obtain ⟨a, w', ha, hrest⟩ := bind_eq_ok hb
  exact hk a w' (hx a w' ha) b w'' hrest

theorem throw_bind (e : Error) : Leads w ((MonadExcept.throw e : Compiling α) >>= k) R := by
  intro b w' hb
  cases hb

theorem get {k : Work → Compiling β} (h : Leads w (k w) R) : Leads w (get >>= k) R :=
  h

theorem modify {Q : PUnit → Work → Prop} {f : Work → Work} (h : Q ⟨⟩ (f w)) :
    Leads w (modify f : Compiling PUnit) Q := by
  intro b w' hb
  cases hb
  exact h

theorem set {Q : PUnit → Work → Prop} (h : Q ⟨⟩ w') : Leads w (set w' : Compiling PUnit) Q := by
  intro b w'' hb
  cases hb
  exact h

theorem lift {r : Except Error α} (h : ∀ a, r = .ok a → Q a w) :
    Leads w (liftM r : Compiling α) Q := by
  cases r with
  | error e => exact throw e
  | ok a => exact pure (h a rfl)

theorem ite {c : Prop} [Decidable c] {y : Compiling α} (hx : c → Leads w x Q)
    (hy : ¬ c → Leads w y Q) : Leads w (if c then x else y) Q := by
  split
  · exact hx ‹_›
  · exact hy ‹_›

end Leads

namespace Tends

theorem pure {a : α} (h : Q a w) : Tends s w₀ w (pure a) Q :=
  ⟨.pure h, fun _ _ he => by cases he⟩

theorem throw (e : Error) (h : Edits s w₀ w) : Tends s w₀ w (throw e : Compiling α) Q := by
  refine ⟨.throw e, fun e' w' he => ?_⟩
  cases he
  exact h

theorem bind (hx : Tends s w₀ w x P) (hk : ∀ a w', P a w' → Tends s w₀ w' (k a) R) :
    Tends s w₀ w (x >>= k) R := by
  refine ⟨hx.leads.bind fun a w' ha => (hk a w' ha).leads, fun e w'' he => ?_⟩
  rcases bind_eq_error he with hfirst | ⟨a, w', ha, hrest⟩
  · exact hx.fails e w'' hfirst
  · exact (hk a w' (hx.leads a w' ha)).fails e w'' hrest

theorem throw_bind (e : Error) (h : Edits s w₀ w) :
    Tends s w₀ w ((MonadExcept.throw e : Compiling α) >>= k) R :=
  bind (P := fun _ _ => False) (throw e h) fun _ _ h => h.elim

theorem get {k : Work → Compiling β} (h : Tends s w₀ w (k w) R) : Tends s w₀ w (get >>= k) R :=
  ⟨h.leads, h.fails⟩

theorem modify {Q : PUnit → Work → Prop} {f : Work → Work} (h : Q ⟨⟩ (f w)) :
    Tends s w₀ w (modify f : Compiling PUnit) Q :=
  ⟨.modify h, fun _ _ he => by cases he⟩

theorem set {Q : PUnit → Work → Prop} (h : Q ⟨⟩ w') :
    Tends s w₀ w (set w' : Compiling PUnit) Q :=
  ⟨.set h, fun _ _ he => by cases he⟩

theorem ite {c : Prop} [Decidable c] {y : Compiling α} (hx : c → Tends s w₀ w x Q)
    (hy : ¬ c → Tends s w₀ w y Q) : Tends s w₀ w (if c then x else y) Q := by
  split
  · exact hx ‹_›
  · exact hy ‹_›

theorem imp (h : Tends s w₀ w x P) (hQ : ∀ a w', P a w' → Q a w') : Tends s w₀ w x Q :=
  ⟨fun a w' ha => hQ a w' (h.leads a w' ha), h.fails⟩

theorem and_eq (h : Tends s w₀ w x Q) : Tends s w₀ w x fun a w' => x w = .ok a w' ∧ Q a w' :=
  ⟨fun a w' ha => ⟨ha, h.leads a w' ha⟩, h.fails⟩

/-- What edits have led to goes on from there. -/
theorem behind {w₁ : Work} (h : Tends s w₁ w x Q) (hedits : Edits s w₀ w₁) : Tends s w₀ w x Q :=
  ⟨h.leads, fun e w' he => hedits.trans (h.fails e w' he)⟩

end Tends

namespace Yields

theorem pure {a : α} (h : Q a w) : Yields s w (pure a) Q := Tends.pure ⟨.refl s w, h⟩

theorem throw (e : Error) : Yields s w (throw e : Compiling α) Q := Tends.throw e .refl

theorem failAt (f : Fault) (i : Nat) : Yields s w (failAt s f i : Compiling α) Q := throw _

theorem bind (hx : Yields s w x P) (hk : ∀ a w', Changes s w w' → P a w' → Yields s w' (k a) R) :
    Yields s w (x >>= k) R :=
  Tends.bind hx fun a w' h => ((hk a w' h.1 h.2).behind h.1.edits).imp fun _ _ hrest =>
    ⟨h.1.trans hrest.1, hrest.2⟩

theorem get {k : Work → Compiling β} (h : Yields s w (k w) R) : Yields s w (get >>= k) R :=
  Tends.get h

theorem set {Q : PUnit → Work → Prop} (h : Changes s w w') (hQ : Q ⟨⟩ w') :
    Yields s w (set w' : Compiling PUnit) Q :=
  Tends.set ⟨h, hQ⟩

theorem modify {Q : PUnit → Work → Prop} {f : Work → Work} (h : Changes s w (f w))
    (hQ : Q ⟨⟩ (f w)) : Yields s w (modify f : Compiling PUnit) Q :=
  Tends.modify ⟨h, hQ⟩

theorem lift {r : Except Error α} (h : ∀ a, r = .ok a → Q a w) :
    Yields s w (liftM r : Compiling α) Q := by
  cases r with
  | error e => exact throw e
  | ok a => exact pure (h a rfl)

theorem ite {c : Prop} [Decidable c] {y : Compiling α} (hx : c → Yields s w x Q)
    (hy : ¬ c → Yields s w y Q) : Yields s w (if c then x else y) Q :=
  Tends.ite hx hy

theorem throw_bind (e : Error) : Yields s w ((MonadExcept.throw e : Compiling α) >>= k) R :=
  Tends.throw_bind e .refl

end Yields

end steps

/-! ### Changes of blocks -/

section blocks

variable {s : Source} {w : Work} {id : BlockId} {b : Block}

theorem top_mem_opened (w : Work) : w.top ∈ w.opened := by
  rw [Work.top, Work.opened]
  cases w.inner with
  | nil => exact List.mem_cons_self ..
  | cons id ids => exact List.mem_cons_self ..

theorem parent_mem_opened (w : Work) : w.parent ∈ w.opened := by
  rw [Work.parent, Work.opened]
  rcases w.inner with _ | ⟨id, _ | ⟨id', ids⟩⟩ <;> simp

theorem Admits.inert {op : Op} (h : op.Inert)
    (hvars : ∀ v ∈ op.vars, id = w.top ∧ ∃ x, w.findVar x = some (.var v)) : Admits s w id op := by
  refine ⟨hvars, fun e he => ?_, fun g hg => ?_, h.body?⟩
  · rw [h.extension?] at he
    cases he
  · rw [h.func?] at hg
    cases hg

theorem Admits.silent {op : Op} (h : op.Silent) : Admits s w id op :=
  .inert h.toInert fun v hv => absurd hv (by rw [h.vars]; exact List.not_mem_nil)

namespace BlockEdit

/-- To leave a block as it is. -/
theorem refl (s : Source) (w : Work) (id : BlockId) (b : Block) : BlockEdit s w id b b where
  parent := rfl
  children := rfl
  standing := rfl
  name := rfl
  targets _ h := .inl h
  code _ h := .inl h
  grows := .refl
  objects _ _ h := .inl h
  kept _ _ h _ := h
  vars := Nat.le_refl _
  names := .inl rfl
  fields _ h := .inl h
  fits h := h
  spelled _ h := h
  indexed h := h
  variadic h := h

/-- Two changes in a row, if the first one declares no fields. -/
theorem trans {b' b'' : Block} (h : BlockEdit s w id b b') (h' : BlockEdit s w id b' b'')
    (hnames : b'.fieldNames = b.fieldNames) : BlockEdit s w id b b'' where
  parent := h'.parent.trans h.parent
  children := h'.children.trans h.children
  standing := h'.standing.trans h.standing
  name := h'.name.trans h.name
  targets t ht := (h'.targets t ht).elim (h.targets t) .inr
  code i hi := (h'.code i hi).elim (h.code i) .inr
  grows := h.grows.trans h'.grows
  objects x v hv := by
    -- A name is bound before, by the first change or by the second.
    rcases h'.objects x v hv with hold | hbound
    · refine (h.objects x v hold).imp_right fun hbound => ?_
      cases v with
      | var i => exact ⟨hbound.1, Nat.lt_of_lt_of_le hbound.2 h'.vars⟩
      | _ => exact hbound
    · refine .inr ?_
      cases v with
      | var i => exact ⟨Nat.le_trans h.vars hbound.1, hbound.2⟩
      | extVar y => rwa [Bound, hnames] at hbound
      | _ => exact hbound
  kept x v hx hfield := h'.kept x v (h.kept x v hx hfield) (hnames ▸ hfield)
  vars := Nat.le_trans h.vars h'.vars
  names := h'.names.elim (fun heq => h.names.imp_left heq.trans) .inr
  fields x hx := (h'.fields x hx).elim (h.fields x) .inr
  fits hb := h'.fits (h.fits hb)
  spelled hs hb := h'.spelled hs (h.spelled hs hb)
  indexed hb := h'.indexed (h.indexed hb)
  variadic hb := h'.variadic (h.variadic hb)

/-- To add code to a block. -/
theorem code_of {code : Array Instr}
    (h : ∀ i ∈ code, i ∈ b.code ∨ i.op.targets = [] ∧ Admits s w id i.op)
    (hgrows : Grows s w b.ops (Block.ops { b with code := code })) :
    BlockEdit s w id b { b with code := code } := by
  refine { refl s w id b with
    targets := fun t ht => .inl ?_, code := fun i hi => ?_, grows := .single hgrows }
  · obtain ⟨i, hi, hit⟩ := Block.mem_targets.1 ht
    rcases h i hi with hold | ⟨hnone, -⟩
    · exact Block.mem_targets.2 ⟨i, hold, hit⟩
    · rw [hnone] at hit
      exact absurd hit List.not_mem_nil
  · exact (h i hi).imp_right And.right

theorem emit {op : Op} (h : op.Silent) (hop : op.isStatement = true) (line : Nat) :
    BlockEdit s w id b (b.emit ⟨op, line⟩) := by
  refine code_of (fun i hi => ?_) (b.ops_emit ⟨op, line⟩ ▸ .statement hop)
  rcases Array.mem_push.1 hi with hold | rfl
  · exact .inl hold
  · exact .inr ⟨h.targets, .silent h⟩

/-- To give a block its header. -/
theorem info {info : BlockInfo} (hstanding : Block.standing { b with info := info } = b.standing)
    (hname : Block.name { b with info := info } = b.name)
    (h : ∀ x ∈ Block.fieldNames { b with info := info },
      x ∈ b.fieldNames ∨ Name.isSystem x = false) (hfits : b.Fits →
        Block.Fits { b with info := info })
    (hspelled : s.Spelled → b.Spelled → Block.Spelled { b with info := info })
    (hvariadic : b.Variadic → Block.Variadic { b with info := info }) :
    BlockEdit s w id b { b with info := info } :=
  { refl s w id b with
    standing := hstanding, name := hname, fields := h, fits := hfits, spelled := hspelled
    variadic := hvariadic }

/-- Declaring a variable under a name that is not taken. -/
theorem declare {x : String} (hx : b.objects.get? x = none) (t : Ty) (hid : id = w.top)
    (hinner : w.inner ≠ []) : BlockEdit s w id b (b.declare x t) := by
  have hvars : b.vars.size < (b.declare x t).vars.size := by simp [Block.declare]
  refine { refl s w id b with
    objects := fun y u hu => ?_, kept := fun y u hu _ => ?_, vars := Nat.le_of_lt hvars
    names := .inr ⟨hid, hinner⟩
    fits := fun hb => hb.of_func? rfl (Nat.le_of_lt hvars), spelled := fun _ hb => hb.of_func? rfl
    indexed := fun hb => hb.declare x t, variadic := fun hb => hb.of_func? rfl }
  · rw [Block.declare, Dict.get?_insert] at hu
    split at hu
    · rw [← Option.some.inj hu]
      exact .inr ⟨Nat.le_refl _, hvars⟩
    · exact .inl hu
  · rw [Block.declare, Dict.get?_insert, if_neg]
    · exact hu
    · rintro rfl
      cases hx.symm.trans hu

/-- To change the header of a function without its name and its mark. -/
theorem modifyFunc {f : FuncInfo → FuncInfo} (hf : ∀ i, (f i).canWrite = i.canWrite)
    (hname : ∀ i, (f i).name = i.name)
    (hfits : ∀ i, b.func? = some i → i.Fits b.vars.size → (f i).Fits b.vars.size)
    (hspelled : s.Spelled → ∀ i, b.func? = some i → i.Spelled → (f i).Spelled)
    (hvariadic : ∀ i, i.variadic = true → (f i).variadic = true) :
    BlockEdit s w id b (b.modifyFunc f) := by
  have hstanding := Block.standing_modifyFunc hf b
  have hname' := Block.name_modifyFunc hname b
  rw [Block.modifyFunc] at hstanding hname' ⊢
  split at hstanding
  · rename_i i hi
    rw [hi] at hname'
    refine info hstanding hname' (fun x hx => absurd hx List.not_mem_nil)
      (fun hb => ?_) (fun hs hb => ?_)
      fun hb => ?_
    · have hblock := hb.modifyFunc hfits
      rwa [Block.modifyFunc, hi] at hblock
    · have hblock := hb.modifyFunc (hspelled hs)
      rwa [Block.modifyFunc, hi] at hblock
    · have hblock := hb.modifyFunc hvariadic
      rwa [Block.modifyFunc, hi] at hblock
  · exact refl s w id b

/-- To change a contract without its name and its mark. -/
theorem modifyContract {f : ContractInfo → ContractInfo} (hf : ∀ c, (f c).canWrite = c.canWrite)
    (hname : ∀ c, (f c).name = c.name)
    (h : ∀ c, b.info = .contract c → ∀ x ∈ ((f c).data.getD []).map Field.name,
      x ∈ (c.data.getD []).map Field.name ∨ Name.isSystem x = false) :
    BlockEdit s w id b (b.modifyContract f) := by
  have hstanding := Block.standing_modifyContract hf b
  have hname' := Block.name_modifyContract hname b
  rw [Block.modifyContract] at hstanding hname' ⊢
  split at hstanding
  · rename_i c hc
    rw [hc] at hname'
    refine info hstanding hname' (fun x hx => ?_) (fun _ => .of_func?_eq_none rfl) (fun _ _ =>
      .of_func?_eq_none rfl) fun hb => ?_
    · have hnames : b.fieldNames = (c.data.getD []).map Field.name := by
        rw [Block.fieldNames, Block.contract?, hc]
        rfl
      rw [hnames]
      exact h c hc x hx
    · have hblock := hb.modifyContract f
      rwa [Block.modifyContract, hc] at hblock
  · exact refl s w id b

end BlockEdit

end blocks

/-! ### Actions of the grammar -/

section actions

variable {s : Source} {w w' : Work} {f : Block → Block}

namespace Changes

theorem top (h : BlockEdit s w w.top (w.block w.top) (f (w.block w.top))) :
    Changes s w (w.modifyTop f) :=
  .block (top_mem_opened w) h

theorem parent (h : BlockEdit s w w.parent (w.block w.parent) (f (w.block w.parent))) :
    Changes s w (w.modifyBlock w.parent f) :=
  .block (parent_mem_opened w) h

end Changes

theorem amends_emit {op : Op} (h : op.Silent) (hop : op.isStatement = true) (line : Nat) :
    Amends s w (emit op line) :=
  .modify (.top (.emit h hop line)) trivial

/-- Whether a work comes from another one by an edit that opens a block, and changes behind that. -/
def Entered (s : Source) (w w' : Work) : Prop :=
  ∃ w₁, Edit s w w₁ ∧ w₁.inner = w.arena.size :: w.inner ∧ w₁.arena.size = w.arena.size + 1 ∧
    w₁.pending = w.pending ∧ Changes s w₁ w'

namespace Entered

theorem of_edit (hedit : Edit s w w') (hinner : w'.inner = w.arena.size :: w.inner)
    (hsize : w'.arena.size = w.arena.size + 1) (hpending : w'.pending = w.pending) :
    Entered s w w' :=
  ⟨w', hedit, hinner, hsize, hpending, .refl s w'⟩

theorem edits (h : Entered s w w') : Edits s w w' := by
  obtain ⟨w₁, hedit, -, -, -, hchanges⟩ := h
  exact .head hedit hchanges.edits

theorem inner (h : Entered s w w') : w'.inner = w.arena.size :: w.inner := by
  obtain ⟨w₁, -, hinner, -, -, hchanges⟩ := h
  exact hchanges.inner.trans hinner

theorem pending (h : Entered s w w') : w'.pending = w.pending := by
  obtain ⟨w₁, -, -, -, hpending, hchanges⟩ := h
  exact hchanges.pending.trans hpending

theorem changes {w'' : Work} (h : Entered s w w') (h' : Changes s w' w'') : Entered s w w'' := by
  obtain ⟨w₁, hedit, hinner, hsize, hpending, hchanges⟩ := h
  exact ⟨w₁, hedit, hinner, hsize, hpending, hchanges.trans h'⟩

end Entered

/-- Whether a step of compilation goes on from a block that has just been opened: the two together
make one edit, which may be followed by changes. -/
def Enters (s : Source) (w : Work) (x : Compiling Unit) : Prop :=
  Tends s w w.openBlock x fun _ w' => Entered s w w'

theorem Enters.failing (s : Source) (w : Work) : Edits s w w.openBlock := .single (.opens w)

/-- A block that has just been opened becomes the body of a control statement. -/
theorem enters_wrapTop {op : BlockId → Op} (hop : ∀ id, (op id).body? = some id) (i : Nat) :
    Enters s w (wrapTop op s i) := by
  refine Tends.modify (.of_edit ?_ rfl ?_ rfl)
  · rw [Work.parent_openBlock, Work.top_openBlock]
    exact .control w _ hop
  · rw [Work.size_modifyBlock, Work.size_openBlock]

/-- A block that has just been opened gets its name. -/
theorem enters_nameBlock {i : Nat}
    (hcontract : w.inner = [] ∨ s.kind? (i - 1) ≠ some (.keyword .contract)) :
    Enters s w (nameBlock s i) := by
  -- functions and contracts differ in their headers only: both are opened, named and bound
  have hname : ∀ info x v, ¬ (w.openBlock.block w.openBlock.parent).objects.contains x = true →
      (Block.name { parent := none, info := info } = x) →
      ((∃ f : FuncInfo, info = .func f ∧
          (f.canWrite = false ∧ f.segments = none ∧ f.chain = none) ∧ v = .func w.arena.size) ∨
        ∃ c : ContractInfo, info = .contract c ∧ c.canWrite = false ∧ c.data = none ∧
          v = .contract w.arena.size ∧ w.inner = []) →
      Edit s w ((w.openBlock.modifyTop fun b => { b with info := info }).modifyBlock
        w.openBlock.parent fun b => { b with objects := b.objects.insert x v }) := by
    intro info x v hfresh hx hv
    rw [Work.parent_openBlock] at hfresh ⊢
    refine .declares x ⟨?_, hx, hv⟩
    rwa [Dict.contains_eq, Work.objects_openBlock, Bool.not_eq_true, Option.isSome_eq_false_iff,
      Option.isNone_iff_eq_none] at hfresh
  have hsize : ∀ (f g : Block → Block), ((w.openBlock.modifyTop f).modifyBlock w.openBlock.parent
      g).arena.size = w.arena.size + 1 := by
    intro f g
    rw [Work.size_modifyBlock, Work.modifyTop, Work.size_modifyBlock, Work.size_openBlock]
  refine .get ?_
  dsimp only
  split
  · rename_i hkind
    refine .ite (fun _ => .throw_bind _ (Enters.failing s w)) fun hfresh =>
      .set (.of_edit (hname _ _ _ hfresh rfl ?_) rfl (hsize _ _) rfl)
    refine .inr ⟨_, rfl, rfl, rfl, rfl, hcontract.resolve_right fun hne => hne ?_⟩
    simpa using (Bool.and_eq_true_iff.1 hkind).2
  · exact .ite (fun _ => .throw_bind _ (Enters.failing s w)) fun hfresh =>
      .set (.of_edit (hname _ _ _ hfresh rfl (.inl ⟨_, rfl, ⟨rfl, rfl, rfl⟩, rfl⟩))
        rfl (hsize _ _) rfl)

/-- A name that is not taken may wait for its type. -/
theorem Work.Waiting.push (h : w.Waiting) {x : String} (hx : ¬ taken w x = true) :
    Work.Waiting { w with pending := w.pending ++ [x] } := by
  rw [taken, Bool.or_eq_true, not_or, Dict.contains_eq, Bool.not_eq_true,
    Option.isSome_eq_false_iff, Option.isNone_iff_eq_none, List.contains_iff_mem] at hx
  constructor
  · refine List.nodup_append.2 ⟨h.distinct, List.pairwise_singleton _ _,
      fun y hy z hz heq => hx.2 ?_⟩
    rwa [← List.mem_singleton.1 hz, ← heq]
  · intro y hy
    rcases List.mem_append.1 hy with hold | hnew
    · exact h.fresh y hold
    · rw [List.mem_singleton.1 hnew]
      exact hx.1

/-- Noting a parameter or a variable that waits for its type. -/
theorem tends_wait (h : w.Waiting) {f : Fault} (x : String) (i : Nat) :
    Tends s w w (do
      if taken w x then failAt s f i
      set { w with pending := w.pending ++ [x] } : Compiling Unit)
      fun _ w' => Alters s w w' ∧ w'.Waiting :=
  .ite (fun _ => .throw_bind _ .refl) fun hx => .set ⟨.note rfl rfl rfl, h.push hx⟩

theorem addParam_canWrite (f : FuncInfo) (t : Ty) (slot : Nat) (variadic : Bool) :
    (addParam f t slot variadic).canWrite = f.canWrite := by
  unfold addParam
  split <;> rfl

/-- A parameter of a segment is bound to the variable that it is declared as. -/
theorem addParam_fits {f : FuncInfo} {n : Nat} (h : f.Fits n) (t : Ty)
    {slot : Nat} (hslot : slot < n) (variadic : Bool) : (addParam f t slot variadic).Fits n := by
  unfold addParam
  split
  · exact h
  · rename_i c _
    refine h.insert rfl fun i hi => ?_
    rcases List.mem_append.1 hi with hi | hi
    · cases hget : (f.segments.getD .empty).get? c with
      | none =>
        rw [hget] at hi
        exact absurd hi List.not_mem_nil
      | some g =>
        rw [hget] at hi
        cases hsegments : f.segments with
        | none =>
          rw [hsegments, Option.getD_none, Dict.get?_empty] at hget
          cases hget
        | some segments =>
          rw [hsegments] at hget
          exact h segments hsegments c g hget i hi
    · exact List.mem_singleton.1 hi ▸ hslot

theorem addParam_spelled {f : FuncInfo} (h : f.Spelled) (t : Ty) (slot : Nat) (variadic : Bool) :
    (addParam f t slot variadic).Spelled := by
  unfold addParam
  split
  · exact ⟨h.chain, h.segments⟩
  · rename_i c hc
    exact h.insert (fun hempty => h.chain (hempty ▸ hc)) rfl (.inl rfl)

theorem addParam_variadic {f : FuncInfo} (h : f.variadic = true) (t : Ty)
    (slot : Nat) (variadic : Bool) :
    (addParam f t slot variadic).variadic = true := by
  unfold addParam
  split
  · exact Bool.or_eq_true_iff.2 (.inl h)
  · exact h

theorem addParam_name (f : FuncInfo) (t : Ty) (slot : Nat) (variadic : Bool) :
    (addParam f t slot variadic).name = f.name := by
  unfold addParam
  split <;> rfl

/-- Declaring a parameter under a name that is not taken takes no other name. -/
theorem yields_declareParam (hinner : w.inner ≠ []) {name : String}
    (hname : (w.block w.top).objects.get? name = none) (t : Ty) (variadic : Bool) (i : Nat) :
    Yields s w (declareParam s t variadic i name) fun _ w' => ∀ x ≠ name,
      (w.block w.top).objects.get? x = none → (w'.block w'.top).objects.get? x = none := by
  refine .get (.bind (P := fun _ w' => ∀ x ≠ name, (w.block w.top).objects.get? x = none →
    (w'.block w'.top).objects.get? x = none) (.set ?_ ?_) fun _ w' _ hw' =>
      .ite (fun _ => .failAt _ i) fun _ => .pure hw')
  · refine .top (.trans (.declare hname t rfl hinner)
      (.modifyFunc (fun f => addParam_canWrite f _ _ _)
      (fun f => addParam_name f _ _ _) (fun f _ hf => addParam_fits hf t ?_ variadic)
      (fun _ f _ hf =>
        addParam_spelled hf t _ variadic) fun f hf => addParam_variadic hf t _ variadic) rfl)
    simp [Block.declare]
  · intro x hx hfresh
    rw [Work.modifyTop, Work.top_modifyBlock, Work.block, Work.modifyBlock, Arena.block_modify]
    split
    · rw [Block.objects_modifyFunc, Block.declare, Dict.get?_insert, if_neg (Ne.symm hx)]
      exact hfresh
    · exact hfresh

/-- Parameters are declared one after the other, under names that the block does not have. -/
theorem amends_declareEach (hinner : w.inner ≠ []) (t : Ty) (variadic : Bool) (i : Nat)
    {names : List String} (hdistinct : names.Nodup)
    (hfresh : ∀ x ∈ names, (w.block w.top).objects.get? x = none) :
    Amends s w (names.forM (declareParam s t variadic i)) := by
  induction names generalizing w with
  | nil => exact .pure trivial
  | cons name names ih =>
    obtain ⟨hnew, hdistinct⟩ := List.nodup_cons.1 hdistinct
    obtain ⟨hname, hfresh⟩ := List.forall_mem_cons.1 hfresh
    refine .bind (yields_declareParam hinner hname t variadic i) fun _ w' hw' htaken => ?_
    exact ih (hw'.inner ▸ hinner) hdistinct fun x hx =>
      htaken x (fun heq => hnew (heq ▸ hx)) (hfresh x hx)

/-- So are all that wait, and then none does. -/
theorem tends_declareParams (hinner : w.inner ≠ []) (hwait : w.Waiting) (t : Ty) (variadic : Bool)
    (i : Nat) : Tends s w w (declareParams s t variadic i) fun _ w' =>
      Alters s w w' ∧ w'.pending = [] := by
  have hnote : Alters s w { w with pending := [] } := .note rfl rfl rfl
  refine .get (.bind (P := fun _ w' => w' = { w with pending := [] }) (.set rfl) fun _ w' hw' => ?_)
  subst hw'
  refine .ite (fun _ => .throw_bind _ hnote.edits) fun _ => ?_
  refine ((amends_declareEach (w := { w with pending := [] }) hinner t variadic i hwait.distinct
    hwait.fresh).behind hnote.edits).imp fun _ w' h => ?_
  exact ⟨hnote.trans h.1.toAlters, h.1.pending⟩

theorem amends_result (i : Nat) : Amends s w (result s i) := by
  unfold result
  split
  · exact .modify (.top (.modifyFunc (fun _ => rfl) (fun _ => rfl) (fun _ _ h => h)
      (fun _ _ _ h => ⟨h.chain, h.segments⟩) fun _ h => h)) trivial
  · exact .pure trivial

/-- A segment is added to the header, under a name. -/
theorem amends_segment {i : Nat} (hkind : s.kind? i = some .ident) : Amends s w (segment s i) := by
  refine .get ?_
  dsimp only
  split
  · exact .pure trivial
  · rename_i f hf
    refine .ite (fun _ => .throw_bind _) fun _ =>
      .set (.top (.modifyFunc (fun _ => rfl) (fun _ => rfl)
      (fun f' hf' h => ?_) (fun hs f' hf' h => ?_) fun _ h => h)) trivial
    · cases hf.symm.trans hf'
      exact h.insert rfl fun i hi => absurd hi List.not_mem_nil
    · cases hf.symm.trans hf'
      exact h.insert (hs i hkind) rfl (.inr rfl)

/-- Variables are declared under names that the block does not have. -/
theorem declareAll_edit (hinner : w.inner ≠ []) (t : Ty) {names : List String}
    (hdistinct : names.Nodup) {b : Block} (hfresh : ∀ x ∈ names, b.objects.get? x = none) :
    BlockEdit s w w.top b (names.foldl (fun b name => b.declare name t) b) := by
  induction names generalizing b with
  | nil => exact .refl s w w.top b
  | cons x xs ih =>
    obtain ⟨hnew, hdistinct⟩ := List.nodup_cons.1 hdistinct
    obtain ⟨hx, hfresh⟩ := List.forall_mem_cons.1 hfresh
    refine .trans (.declare hx t rfl hinner) (ih hdistinct fun y hy => ?_) rfl
    rw [Block.declare, Dict.get?_insert, if_neg]
    · exact hfresh y hy
    · rintro rfl
      exact hnew hy

theorem tends_varType (hinner : w.inner ≠ []) (hwait : w.Waiting) (i : Nat) :
    Tends s w w (varType s i) fun _ w' => Alters s w w' ∧ w'.pending = [] := by
  have hdeclared : Alters s w (w.modifyTop fun b =>
      w.pending.foldl (fun b name => b.declare name (typeAt s i)) b) :=
    .block (top_mem_opened w) (declareAll_edit hinner (typeAt s i) hwait.distinct hwait.fresh)
  exact .modify ⟨hdeclared.trans (.note rfl rfl rfl), rfl⟩

theorem mem_of_mem_pop {α : Type} {xs : Array α} {x : α} (h : x ∈ xs.pop) : x ∈ xs := by
  rw [← Array.mem_toList_iff, Array.toList_pop] at h
  exact Array.mem_toList_iff.1 ((List.dropLast_sublist _).subset h)

theorem Admits.assignVar {id : BlockId} (ts : List Target) : Admits s w id (.assignVar ts) :=
  ⟨fun _ hv => absurd hv List.not_mem_nil, fun _ he => (by cases he),
    fun _ hg => (by cases hg), rfl⟩

/-- A target that can be assigned to is added to an assignment. -/
theorem addTarget_edit {id : BlockId} {b : Block} {t : Target} (hid : id = w.top)
    (h : Assignable w t) (line : Nat) : BlockEdit s w id b (addTarget b t line) := by
  rw [addTarget]
  split
  · -- an assignment has been begun: the target goes into its last instruction
    rename_i targets l hback
    refine { BlockEdit.refl s w id b with
      targets := fun u hu => ?_, code := fun i hi => ?_, grows := .single ?_ }
    · obtain ⟨i, hi, hiu⟩ := Block.mem_targets.1 hu
      rcases Array.mem_push.1 hi with hold | rfl
      · exact .inl (Block.mem_targets.2 ⟨i, mem_of_mem_pop hold, hiu⟩)
      · rcases List.mem_append.1 hiu with hold | hnew
        · exact .inl (Block.mem_targets.2 ⟨_, Array.mem_of_back? hback, hold⟩)
        · rw [List.mem_singleton.1 hnew]
          exact .inr ⟨hid, h⟩
    · rcases Array.mem_push.1 hi with hold | rfl
      · exact .inl (mem_of_mem_pop hold)
      · exact .inr (.assignVar _)
    · obtain ⟨code, hcode⟩ := Array.back?_eq_some_iff.1 hback
      have hops : b.ops = code.toList.map Instr.op ++ [.assignVar targets] := by
        rw [Block.ops, hcode]
        simp
      rw [hops, Block.ops, hcode, Array.pop_push, Array.toList_push, List.map_append]
      exact .targets
  · -- the target begins an assignment
    refine { BlockEdit.refl s w id b with
      targets := fun u hu => ?_, code := fun i hi => ?_
      grows := .single (b.ops_emit ⟨.assignVar [t], line⟩ ▸ .statement rfl) }
    · obtain ⟨i, hi, hiu⟩ := Block.mem_targets.1 hu
      rcases Array.mem_push.1 hi with hold | rfl
      · exact .inl (Block.mem_targets.2 ⟨i, hold, hiu⟩)
      · rw [List.mem_singleton.1 hiu]
        exact .inr ⟨hid, h⟩
    · rcases Array.mem_push.1 hi with hold | rfl
      · exact .inl hold
      · exact .inr (.assignVar _)

/-- A name in front of an assignment becomes a target. -/
theorem amends_assignVar (i : Nat) : Amends s w (assignVar s i) := by
  have hset : ∀ t, Assignable w t →
      Amends s w (set (w.modifyTop fun b => addTarget b t (s.line i)) : Compiling PUnit) :=
    fun t ht => .set (.top (addTarget_edit rfl ht _)) trivial
  refine .get (.ite (fun _ => .ite (fun _ => .throw_bind _) fun hsys => ?_) fun _ => ?_)
  · exact hset _ (.inl ⟨_, rfl, Bool.eq_false_iff.2 hsys⟩)
  · split
    · exact hset _ (.inr ⟨_, ‹_›⟩)
    · exact .throw_bind _

theorem amends_inContract (f : Fault) (i : Nat) : Amends s w (inContract s f i) :=
  .get (.ite (fun _ => .failAt f i) fun _ => .pure trivial)

theorem amends_dataSection (i : Nat) : Amends s w (dataSection s i) := by
  refine .bind (amends_inContract _ i) fun _ w _ _ => ?_
  have hdata : Changes s w (w.modifyTop fun b =>
      b.modifyContract fun c => { c with data := some (c.data.getD []) }) :=
    .top (.modifyContract (fun _ => rfl) (fun _ => rfl) fun c _ x hx => .inl hx)
  exact .modify (hdata.trans (.note rfl rfl rfl rfl)) trivial

theorem amends_constValue (i : Nat) : Amends s w (constValue s i) := by
  refine .bind (amends_inContract _ i) fun _ w _ _ => ?_
  have hsettings : ∀ value, Changes s w (w.modifyTop fun b => b.modifyContract fun c =>
      { c with settings := c.settings.insert (w.constName.getD "") value }) :=
    fun value => .top (.modifyContract (fun _ => rfl) (fun _ => rfl) fun c _ x hx => .inl hx)
  exact .modify ((hsettings _).trans (.note rfl rfl rfl rfl)) trivial

/-- A field is added to the section that is being read. -/
theorem changes_addField {name : String} (hsys : Name.isSystem name = false) {fields : List Field}
    (hfields : ((w.block w.top).contract?).bind (·.data) = some fields) :
    Changes s w (w.modifyTop fun b => b.modifyContract fun c =>
      { c with data := some (fields ++ [{ name := name }]) }) := by
  refine .top (.modifyContract (fun _ => rfl) (fun _ => rfl) fun c hc x hx => ?_)
  have hdata : c.data = some fields := by
    rw [Block.contract?, hc] at hfields
    exact hfields
  rw [hdata]
  simp only [Option.getD_some, List.map_append, List.mem_append, List.map_cons, List.map_nil,
    List.mem_singleton] at hx
  rcases hx with hold | rfl
  · exact .inl hold
  · exact .inr hsys

/-- A name in a data section adds a field. -/
theorem amends_field (i : Nat) : Amends s w (field s i) := by
  refine .get ?_
  cases w.fieldStep with
  | name | type | tag => exact .throw_bind _
  | start | comma =>
    refine .ite (fun _ => .throw_bind _) fun hsys => ?_
    dsimp only
    split
    · exact .pure trivial
    · rename_i fields hfields
      exact .set ((changes_addField (Bool.eq_false_iff.2 hsys) hfields).trans
        (.note rfl rfl rfl rfl)) trivial

theorem amends_fieldComma (i : Nat) : Amends s w (fieldComma s i) :=
  .get (.ite (fun _ => .throw_bind _) fun _ => .set (.note rfl rfl rfl rfl) trivial)

/-- Changes of fields at some places keep the names. -/
theorem map_name_modifyFields (positions : List Nat) {f : Field → Field}
    (hf : ∀ x, (f x).name = x.name) (fields : List Field) :
    (modifyFields positions f fields).map Field.name = fields.map Field.name := by
  apply List.ext_getElem
  · simp [modifyFields]
  · intro j _ _
    simp only [modifyFields, List.getElem_map, List.getElem_mapIdx]
    split
    · exact hf _
    · rfl

/-- Fields that wait get their type or their tag. -/
theorem changes_modifyPending {f : Field → Field} (hf : ∀ x, (f x).name = x.name) :
    Changes s w (modifyPending w f) := by
  refine .top (.modifyContract (fun _ => rfl) (fun _ => rfl) fun c _ x hx => .inl ?_)
  cases hc : c.data with
  | none =>
    simp only [hc] at hx
    exact hx
  | some fields =>
    simp only [hc, Option.map_some, Option.getD_some, map_name_modifyFields _ hf] at hx
    exact hx

theorem amends_fieldType (i : Nat) : Amends s w (fieldType s i) := by
  refine .get (.ite (fun _ => .throw_bind _) fun _ => .set ?_ trivial)
  refine (changes_modifyPending ?_).trans (.note rfl rfl rfl rfl)
  exact fun _ => rfl

theorem amends_fieldTag (i : Nat) : Amends s w (fieldTag s i) := by
  refine .get (.ite (fun _ => .throw_bind _) fun _ => .set ?_ trivial)
  refine (changes_modifyPending ?_).trans (.note rfl rfl rfl rfl)
  exact fun _ => rfl

theorem amends_fieldLine (i : Nat) : Amends s w (fieldLine s i) :=
  .get (.ite (fun _ => .throw_bind _) fun _ => .set (.note rfl rfl rfl rfl) trivial)

/-- A data section is begun, continued or ended. -/
theorem amends_fields (hinner : w.inner ≠ []) (i : Nat) : Amends s w (fields s i) := by
  refine .bind (amends_fieldLine i) fun _ w hw _ => .modify (.top ?_) trivial
  -- each field is bound under its name, and nothing else
  have hall : ∀ (names : List String) (o : Dict Binding) x,
      (names.foldl (fun o n => o.insert n (.extVar n)) o).get? x
        = if x ∈ names then some (.extVar x) else o.get? x := by
    intro names
    induction names with
    | nil => exact fun _ _ => rfl
    | cons n ns ih =>
      intro o x
      rw [List.foldl_cons, ih, Dict.get?_insert]
      by_cases hx : x ∈ ns
      · rw [if_pos hx, if_pos (List.mem_cons_of_mem _ hx)]
      · by_cases hn : n = x
        · rw [if_neg hx, if_pos hn, if_pos (hn ▸ List.mem_cons_self ..), hn]
        · rw [if_neg hx, if_neg hn, if_neg fun hin => (List.mem_cons.1 hin).elim (hn ∘ Eq.symm) hx]
  refine { BlockEdit.refl s w w.top (w.block w.top) with
    objects := fun x v hv => ?_, kept := fun x v hv hfield => ?_
    names := .inr ⟨rfl, hw.inner ▸ hinner⟩
    indexed := fun hb => hb.of_objects (Nat.le_refl _) fun x i hx => ?_ }
  · rw [hall] at hv
    split at hv
    · rw [← Option.some.inj hv]
      exact .inr ‹_›
    · exact .inl hv
  · exact (hall _ _ x).trans ((if_neg hfield).trans hv)
  · rw [hall] at hx
    split at hx
    · cases hx
    · exact hx

/-- Whether an action is about the block that has just been opened. -/
def ofOpened : Grammar.Action → Bool
  | .nameBlock | .if | .else | .while => true
  | _ => false

/-- Whether an action notes a name that waits for its type. -/
def notes : Grammar.Action → Bool
  | .param | .var => true
  | _ => false

/-- Whether an action gives the waiting names their type. -/
def settles : Grammar.Action → Bool
  | .paramType | .paramTail | .varType => true
  | _ => false

/-- Every action of the grammar table that is about neither a new block nor a name that waits makes
changes. -/
theorem amends_act {a : Grammar.Action} (ha : ofOpened a = false) (hnotes : notes a = false)
    (hsettles : settles a = false) (hinner : w.inner ≠ []) {i : Nat}
    (hsegment : a = .segment → s.kind? i = some .ident) : Amends s w (act s a i) := by
  cases a with
  | nameBlock | «if» | «else» | «while» => cases ha
  | param | var => cases hnotes
  | paramType | paramTail | varType => cases hsettles
  | none => exact .pure trivial
  | result => exact amends_result i
  | segment => exact amends_segment (hsegment rfl)
  | «return» | «continue» | «break» | raise | assign =>
    exact amends_emit ⟨⟨rfl, rfl, rfl, rfl⟩, rfl⟩ rfl _
  | assignVar => exact amends_assignVar i
  | data => exact amends_dataSection i
  | settings => exact amends_inContract _ i
  | constName => exact .modify (.note rfl rfl rfl rfl) trivial
  | constValue => exact amends_constValue i
  | field => exact amends_field i
  | fieldType => exact amends_fieldType i
  | fieldTag => exact amends_fieldTag i
  | fieldComma => exact amends_fieldComma i
  | fieldLine => exact amends_fieldLine i
  | fields => exact amends_fields hinner i

/-- Noting a name leaves names that may wait. -/
theorem tends_notes {a : Grammar.Action} (ha : notes a = true) (hwait : w.Waiting) (i : Nat) :
    Tends s w w (act s a i) fun _ w' => Alters s w w' ∧ w'.Waiting := by
  cases a with
  | param | var => exact .get (tends_wait hwait _ i)
  | _ => cases ha

/-- Giving the waiting names their type leaves none. -/
theorem tends_settles {a : Grammar.Action} (ha : settles a = true) (hinner : w.inner ≠ [])
    (hwait : w.Waiting) (i : Nat) :
    Tends s w w (act s a i) fun _ w' => Alters s w w' ∧ w'.pending = [] := by
  cases a with
  | paramType | paramTail => exact tends_declareParams hinner hwait _ _ i
  | varType => exact tends_varType hinner hwait i
  | _ => cases ha

/-- The action of a control statement makes its body of the block that has just been opened. -/
theorem enters_control {a : Grammar.Action} (ha : a = .if ∨ a = .else ∨ a = .while) (i : Nat) :
    Enters s w (act s a i) := by
  rcases ha with rfl | rfl | rfl
  · exact enters_wrapTop (fun _ => rfl) i
  · refine .get ?_
    split
    · exact enters_wrapTop (fun _ => rfl) i
    · exact .throw _ (Enters.failing s w)
  · -- the jump back waits behind the loop
    exact .bind (enters_wrapTop (fun _ => rfl) i) fun _ w' h =>
      .modify (h.changes (.parent (.emit ⟨⟨rfl, rfl, rfl, rfl⟩, rfl⟩ rfl _)))

end actions

end Compile

end Covenant
