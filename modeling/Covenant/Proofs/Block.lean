import Covenant.Block
import Covenant.Proofs.Dict

/-!
# What blocks refer to

The targets, extensions and blocks that instructions name, and the `Standing` of a block: whether it
is a function, a contract or neither, and whether it is marked as one that may change the database.
Most changes of a block keep its standing. They also keep that the chained segments of a function
bind variables that the block has (`Block.Fits`) and have names (`Block.Spelled`), that a function
collects what is left of its arguments (`Block.Variadic`), and that names of variables stand for
different ones (`Block.Indexed`).
-/

namespace Covenant

/-! ### Instructions -/

mutual

/-- The blocks whose variables an element of a literal names. -/
def Item.owners : Item → List BlockId
  | .const _ => []
  | .extend _ => []
  | .var v => [v.owner]
  | .map entries => Item.ownersOfEntries entries
  | .array items => Item.ownersOfAll items

/-- The blocks whose variables the elements of an array name. -/
def Item.ownersOfAll : List Item → List BlockId
  | [] => []
  | i :: is => i.owners ++ Item.ownersOfAll is

/-- The blocks whose variables the elements of a map name. -/
def Item.ownersOfEntries : List (String × Item) → List BlockId
  | [] => []
  | (_, i) :: is => i.owners ++ Item.ownersOfEntries is

/-- The variables that an element of a literal names. -/
def Item.vars : Item → List VarRef
  | .const _ => []
  | .extend _ => []
  | .var v => [v]
  | .map entries => Item.varsOfEntries entries
  | .array items => Item.varsOfAll items

/-- The variables that the elements of an array name. -/
def Item.varsOfAll : List Item → List VarRef
  | [] => []
  | i :: is => i.vars ++ Item.varsOfAll is

/-- The variables that the elements of a map name. -/
def Item.varsOfEntries : List (String × Item) → List VarRef
  | [] => []
  | (_, i) :: is => i.vars ++ Item.varsOfEntries is

end

mutual

theorem Item.owners_eq : ∀ i : Item, i.owners = i.vars.map VarRef.owner
  | .const _ => rfl
  | .extend _ => rfl
  | .var _ => rfl
  | .map entries => Item.ownersOfEntries_eq entries
  | .array items => Item.ownersOfAll_eq items

theorem Item.ownersOfAll_eq : ∀ is : List Item,
    Item.ownersOfAll is = (Item.varsOfAll is).map VarRef.owner
  | [] => rfl
  | i :: is => by
    rw [Item.ownersOfAll, Item.varsOfAll, List.map_append, Item.owners_eq i, Item.ownersOfAll_eq is]

theorem Item.ownersOfEntries_eq : ∀ is : List (String × Item),
    Item.ownersOfEntries is = (Item.varsOfEntries is).map VarRef.owner
  | [] => rfl
  | (_, i) :: is => by
    rw [Item.ownersOfEntries, Item.varsOfEntries, List.map_append, Item.owners_eq i,
      Item.ownersOfEntries_eq is]

end

namespace Op

/-- The blocks whose variables an instruction reads. -/
def owners : Op → List BlockId
  | .var v => [v.owner]
  | .mapInit entries => Item.ownersOfEntries entries
  | .arrayInit items => Item.ownersOfAll items
  | _ => []

/-- The variables that an instruction reads. -/
def vars : Op → List VarRef
  | .var v => [v]
  | .mapInit entries => Item.varsOfEntries entries
  | .arrayInit items => Item.varsOfAll items
  | _ => []

theorem owners_eq (op : Op) : op.owners = op.vars.map VarRef.owner := by
  cases op with
  | mapInit entries => exact Item.ownersOfEntries_eq entries
  | arrayInit items => exact Item.ownersOfAll_eq items
  | _ => rfl

/-- The targets an instruction sets for the next assignment. -/
def targets : Op → List Target
  | .assignVar ts => ts
  | _ => []

/-- The extension that an instruction calls. -/
def extension? : Op → Option Extension
  | .call (.ext e) => some e
  | .callVariadic (.ext e) => some e
  | _ => none

/-- The function that an instruction calls. -/
def func? : Op → Option BlockId
  | .call (.func id) => some id
  | .callVariadic (.func id) => some id
  | _ => none

/-- The body of a control statement. -/
def body? : Op → Option BlockId
  | .if body | .else body | .while body => some body
  | _ => none

/-- The block that an instruction starts when it runs. -/
def starts? : Op → Option BlockId
  | .if body | .else body | .while body => some body
  | .call (.func id) | .callVariadic (.func id) => some id
  | _ => none

/-- Whether an instruction is one of a statement and not of an expression. -/
def isStatement : Op → Bool
  | .return | .continue | .break | .if _ | .else _ | .while _ | .label | .assignVar _
  | .assign | .error _ => true
  | _ => false

theorem isStatement_of_body? {op : Op} {id : BlockId} (h : op.body? = some id) :
    op.isStatement = true := by
  cases op with
  | «if» | «else» | «while» => rfl
  | _ => cases h

/-- What an instruction starts is the body of a statement or a function. -/
theorem starts?_eq_some {op : Op} {id : BlockId} (h : op.starts? = some id) :
    op.body? = some id ∨ op.func? = some id := by
  cases op with
  | «if» | «else» | «while» => exact .inl h
  | call f | callVariadic f =>
    cases f with
    | func => exact .inr h
    | ext => cases h
  | _ => cases h

/-- Whether an instruction names neither targets nor anything that it runs. -/
structure Inert (op : Op) : Prop where
  targets : op.targets = []
  extension? : op.extension? = none
  func? : op.func? = none
  body? : op.body? = none

/-- Whether an instruction names nothing, variables included. -/
structure Silent (op : Op) : Prop extends Inert op where
  vars : op.vars = []

/-- A control statement names nothing but its body. -/
theorem of_body? {op : Op} {id : BlockId} (h : op.body? = some id) :
    op.owners = [] ∧ op.targets = [] ∧ op.extension? = none ∧ op.func? = none := by
  cases op with
  | «if» | «else» | «while» => exact ⟨rfl, rfl, rfl, rfl⟩
  | _ => cases h

end Op

namespace Block

/-- The commands of a block. -/
def ops (b : Block) : List Op := b.code.toList.map Instr.op

theorem ops_emit (b : Block) (i : Instr) : (b.emit i).ops = b.ops ++ [i.op] := by
  rw [ops, emit, Array.toList_push, List.map_append]
  rfl

/-- The targets of all assignments of a block. -/
def targets (b : Block) : List Target := b.code.toList.flatMap fun i => i.op.targets

/-- The names of the fields of a block's data section. -/
def fieldNames (b : Block) : List String :=
  (((b.contract?).bind (·.data)).getD []).map Field.name

theorem mem_targets {b : Block} {t : Target} :
    t ∈ b.targets ↔ ∃ i ∈ b.code, t ∈ i.op.targets := by
  simp [targets]

end Block

/-! ### Standings -/

/-- What a block is the body of, and whether it is marked as one that may change the database. -/
inductive Standing where
  | plain
  | func (writes : Bool)
  | contract (writes : Bool)
deriving DecidableEq, Repr

namespace Standing

/-- Whether the mark is set. -/
def writes : Standing → Bool
  | plain => false
  | func w => w
  | contract w => w

/-- The standing with the mark set. Where there is neither a function nor a contract, there is no
mark to set. -/
def mark : Standing → Standing
  | plain => plain
  | func _ => func true
  | contract _ => contract true

/-- Whether setting the mark changes nothing. -/
def Marked (s : Standing) : Prop := s.mark = s

/-- Whether a block is a function. -/
def IsFunc (s : Standing) : Prop := ∃ w, s = func w

theorem marked_mark (s : Standing) : s.mark.Marked := by
  cases s <;> rfl

theorem Marked.mark {s : Standing} (h : s.Marked) : s.mark.Marked := by
  rw [h]
  exact h

theorem Marked.writes {s : Standing} (h : s.Marked) (hs : s.IsFunc) : s.writes = true := by
  obtain ⟨w, rfl⟩ := hs
  cases h
  rfl

theorem isFunc_mark {s : Standing} : s.mark.IsFunc ↔ s.IsFunc := by
  cases s <;> simp [mark, IsFunc]

theorem of_mark_eq_contract {s : Standing} {w : Bool} (h : s.mark = contract w) :
    ∃ w', s = contract w' := by
  cases s with
  | plain | func => cases h
  | contract w' => exact ⟨w', rfl⟩

end Standing

namespace Block

/-- The standing of a block. -/
def standing (b : Block) : Standing :=
  match b.info with
  | .plain => .plain
  | .func f => .func f.canWrite
  | .contract c => .contract c.canWrite

theorem canWrite_eq (b : Block) : b.canWrite = b.standing.writes := by
  obtain ⟨_, info, _, _, _, _⟩ := b
  cases info <;> rfl

theorem standing_of_func? {b : Block} {f : FuncInfo} (h : b.func? = some f) :
    b.standing = .func f.canWrite := by
  obtain ⟨_, info, _, _, _, _⟩ := b
  cases info <;> cases h
  rfl

theorem standing_of_contract? {b : Block} {c : ContractInfo} (h : b.contract? = some c) :
    b.standing = .contract c.canWrite := by
  obtain ⟨_, info, _, _, _, _⟩ := b
  cases info <;> cases h
  rfl

theorem contract_of_standing {b : Block} {w : Bool} (h : b.standing = .contract w) :
    ∃ c, b.info = .contract c := by
  obtain ⟨_, info, _, _, _, _⟩ := b
  cases info with
  | plain | func => cases h
  | contract c => exact ⟨c, rfl⟩

theorem standing_setWritable (b : Block) : b.setWritable.standing = b.standing.mark := by
  obtain ⟨_, info, _, _, _, _⟩ := b
  cases info <;> rfl

theorem setWritable_setWritable (b : Block) : b.setWritable.setWritable = b.setWritable := by
  obtain ⟨_, info, _, _, _, _⟩ := b
  cases info <;> rfl

/-- Marking a block changes its header only. -/
theorem setWritable_eq (b : Block) : b.setWritable = { b with info := b.setWritable.info } := by
  obtain ⟨_, info, _, _, _, _⟩ := b
  cases info <;> rfl

theorem standing_modifyFunc {f : FuncInfo → FuncInfo} (hf : ∀ i, (f i).canWrite = i.canWrite)
    (b : Block) : (b.modifyFunc f).standing = b.standing := by
  obtain ⟨_, info, _, _, _, _⟩ := b
  cases info with
  | func i => exact congrArg Standing.func (hf i)
  | plain | contract => rfl

theorem standing_modifyContract {f : ContractInfo → ContractInfo}
    (hf : ∀ c, (f c).canWrite = c.canWrite) (b : Block) :
    (b.modifyContract f).standing = b.standing := by
  obtain ⟨_, info, _, _, _, _⟩ := b
  cases info with
  | contract c => exact congrArg Standing.contract (hf c)
  | plain | func => rfl

theorem name_setWritable (b : Block) : b.setWritable.name = b.name := by
  obtain ⟨_, info, _, _, _, _⟩ := b
  cases info <;> rfl

theorem name_modifyFunc {f : FuncInfo → FuncInfo} (hf : ∀ i, (f i).name = i.name) (b : Block) :
    (b.modifyFunc f).name = b.name := by
  obtain ⟨_, info, _, _, _, _⟩ := b
  cases info with
  | func i => exact hf i
  | plain | contract => rfl

theorem objects_modifyFunc (f : FuncInfo → FuncInfo) (b : Block) :
    (b.modifyFunc f).objects = b.objects := by
  obtain ⟨_, info, _, _, _, _⟩ := b
  cases info <;> rfl

theorem name_modifyContract {f : ContractInfo → ContractInfo} (hf : ∀ c, (f c).name = c.name)
    (b : Block) : (b.modifyContract f).name = b.name := by
  obtain ⟨_, info, _, _, _, _⟩ := b
  cases info with
  | contract c => exact hf c
  | plain | func => rfl

end Block

/-! ### Chained segments -/

/-- Whether the chained segments of a function bind some of its first variables. -/
def FuncInfo.Fits (f : FuncInfo) (n : Nat) : Prop :=
  ∀ segments, f.segments = some segments → segments.All fun g => ∀ i ∈ g.offsets, i < n

/-- Whether the chained segments of a function bind variables that it has. -/
def Block.Fits (b : Block) : Prop := ∀ f, b.func? = some f → f.Fits b.vars.size

theorem FuncInfo.Fits.mono {f : FuncInfo} {m n : Nat} (h : f.Fits m) (hle : m ≤ n) : f.Fits n :=
  fun segments hsegments =>
    (h segments hsegments).imp fun _ hg i hi => Nat.lt_of_lt_of_le (hg i hi) hle

/-- Which segments a function has when another one is set or changed. -/
theorem FuncInfo.Fits.insert {f f' : FuncInfo} {n : Nat} (h : f.Fits n)
    {name : String} {g : Segment}
    (hf' : f'.segments = some ((f.segments.getD .empty).insert name g))
    (hg : ∀ i ∈ g.offsets, i < n) :
    f'.Fits n := by
  intro segments hsegments
  cases hf'.symm.trans hsegments
  refine Dict.All.insert ?_ hg name
  cases hold : f.segments with
  | none => exact .empty
  | some old => exact h old hold

namespace Block.Fits

variable {b b' : Block}

theorem of_func? (h : b.Fits) (hfunc : b'.func? = b.func?) (hvars : b.vars.size ≤ b'.vars.size) :
    b'.Fits :=
  fun f hf => (h f (hfunc.symm.trans hf)).mono hvars

theorem of_func?_eq_none (h : b.func? = none) : b.Fits := by
  intro f hf
  cases h.symm.trans hf

/-- A change of the header keeps that a block fits if it does for the header. -/
theorem modifyFunc (h : b.Fits) {f : FuncInfo → FuncInfo}
    (hf : ∀ i, b.func? = some i → i.Fits b.vars.size → (f i).Fits b.vars.size) :
    (b.modifyFunc f).Fits := by
  intro g hg
  obtain ⟨_, info, _, _, _, _⟩ := b
  cases info with
  | func i =>
    cases hg
    exact hf i rfl (h i rfl)
  | plain | contract => cases hg

theorem modifyContract (h : b.Fits) (f : ContractInfo → ContractInfo) :
    (b.modifyContract f).Fits := by
  refine h.of_func? ?_ ?_ <;> obtain ⟨_, info, _, _, _, _⟩ := b <;> cases info
  · rfl
  · rfl
  · rfl
  all_goals exact Nat.le_refl _

/-- A mark keeps that a block fits. -/
theorem setWritable (h : b.Fits) : b.setWritable.Fits := by
  intro g hg
  obtain ⟨_, info, _, _, _, _⟩ := b
  cases info with
  | func i =>
    cases hg
    exact h i rfl
  | plain | contract => cases hg

theorem setId (h : b.Fits) (id : Nat) : (b.setId id).Fits :=
  (h.modifyFunc (f := fun i => { i with id := id }) fun _ _ hi => hi).modifyContract _

end Block.Fits

/-- Whether the chained segments of a function have names. -/
structure FuncInfo.Spelled (f : FuncInfo) : Prop where
  chain : f.chain ≠ some ""
  segments : ∀ segments, f.segments = some segments → segments.get? "" = none

/-- Whether a block has no chained segments but those with a name. -/
def Block.Spelled (b : Block) : Prop := ∀ f, b.func? = some f → f.Spelled

/-- Which segments a function has when one with a name is set or changed. -/
theorem FuncInfo.Spelled.insert {f f' : FuncInfo} (h : f.Spelled)
    {name : String} (hname : name ≠ "") {g : Segment}
    (hf' : f'.segments = some ((f.segments.getD .empty).insert name g))
    (hchain : f'.chain = f.chain ∨ f'.chain = some name) : f'.Spelled := by
  refine ⟨fun hempty => ?_, fun segments hsegments => ?_⟩
  · rcases hchain with hchain | hchain
    · exact h.chain (hchain.symm.trans hempty)
    · exact hname (Option.some.inj (hchain.symm.trans hempty))
  · cases hf'.symm.trans hsegments
    rw [Dict.get?_insert, if_neg hname]
    cases hold : f.segments with
    | none => exact Dict.get?_empty _
    | some old => exact h.segments old hold

namespace Block.Spelled

variable {b b' : Block}

theorem of_func? (h : b.Spelled) (hfunc : b'.func? = b.func?) : b'.Spelled :=
  fun f hf => h f (hfunc.symm.trans hf)

theorem of_func?_eq_none (h : b.func? = none) : b.Spelled := by
  intro f hf
  cases h.symm.trans hf

theorem modifyFunc (h : b.Spelled) {f : FuncInfo → FuncInfo}
    (hf : ∀ i, b.func? = some i → i.Spelled → (f i).Spelled) : (b.modifyFunc f).Spelled := by
  intro g hg
  obtain ⟨_, info, _, _, _, _⟩ := b
  cases info with
  | func i =>
    cases hg
    exact hf i rfl (h i rfl)
  | plain | contract => cases hg

theorem modifyContract (h : b.Spelled) (f : ContractInfo → ContractInfo) :
    (b.modifyContract f).Spelled := by
  refine h.of_func? ?_
  obtain ⟨_, info, _, _, _, _⟩ := b
  cases info <;> rfl

theorem setWritable (h : b.Spelled) : b.setWritable.Spelled := by
  intro g hg
  obtain ⟨_, info, _, _, _, _⟩ := b
  cases info with
  | func i =>
    cases hg
    exact ⟨(h i rfl).chain, (h i rfl).segments⟩
  | plain | contract => cases hg

theorem setId (h : b.Spelled) (id : Nat) : (b.setId id).Spelled :=
  (h.modifyFunc (f := fun i => { i with id := id }) fun _ _ hi =>
    ⟨hi.chain, hi.segments⟩).modifyContract _

end Block.Spelled

/-- Whether a block is a function that collects what is left of its arguments. -/
def Block.Variadic (b : Block) : Prop := ∃ f, b.func? = some f ∧ f.variadic = true

namespace Block.Variadic

variable {b b' : Block}

theorem of_func? (h : b.Variadic) (hfunc : b'.func? = b.func?) : b'.Variadic := by
  obtain ⟨f, hf, hvariadic⟩ := h
  exact ⟨f, hfunc.trans hf, hvariadic⟩

theorem modifyFunc (h : b.Variadic) {f : FuncInfo → FuncInfo}
    (hf : ∀ i, i.variadic = true → (f i).variadic = true) : (b.modifyFunc f).Variadic := by
  obtain ⟨i, hi, hvariadic⟩ := h
  obtain ⟨_, info, _, _, _, _⟩ := b
  cases info with
  | func j =>
    cases hi
    exact ⟨f i, rfl, hf i hvariadic⟩
  | plain | contract => cases hi

theorem modifyContract (h : b.Variadic) (f : ContractInfo → ContractInfo) :
    (b.modifyContract f).Variadic := by
  refine h.of_func? ?_
  obtain ⟨_, info, _, _, _, _⟩ := b
  cases info <;> rfl

theorem setWritable (h : b.Variadic) : b.setWritable.Variadic := by
  obtain ⟨i, hi, hvariadic⟩ := h
  obtain ⟨_, info, _, _, _, _⟩ := b
  cases info with
  | func j =>
    cases hi
    exact ⟨_, rfl, hvariadic⟩
  | plain | contract => cases hi

theorem setId (h : b.Variadic) (id : Nat) : (b.setId id).Variadic :=
  (h.modifyFunc (f := fun i => { i with id := id }) fun _ hi => hi).modifyContract _

end Block.Variadic

/-! ### Variables -/

/-- Whether the names of a block's variables stand for variables that it has, and different names
for different ones. -/
def Block.Indexed (b : Block) : Prop :=
  (∀ x i, b.objects.get? x = some (.var i) → i < b.vars.size) ∧
    ∀ x y i, b.objects.get? x = some (.var i) → b.objects.get? y = some (.var i) → x = y

namespace Block.Indexed

variable {b b' : Block}

/-- A block whose variables all have been there before under their names. -/
theorem of_objects (h : b.Indexed) (hvars : b.vars.size ≤ b'.vars.size)
    (hobjects : ∀ x i, b'.objects.get? x = some (.var i) → b.objects.get? x = some (.var i)) :
    b'.Indexed :=
  ⟨fun x i hx => Nat.lt_of_lt_of_le (h.1 x i (hobjects x i hx)) hvars,
    fun x y i hx hy => h.2 x y i (hobjects x i hx) (hobjects y i hy)⟩

theorem of_eq (h : b.Indexed) (hvars : b'.vars = b.vars) (hobjects : b'.objects = b.objects) :
    b'.Indexed :=
  h.of_objects (Nat.le_of_eq (congrArg Array.size hvars.symm)) fun x i hx => by rwa [hobjects] at hx

/-- Binding a name to something that is no variable. -/
theorem insert (h : b.Indexed) {x : String} {v : Binding} (hv : ∀ i, v ≠ .var i) :
    Indexed { b with objects := b.objects.insert x v } := by
  refine h.of_objects (Nat.le_refl _) fun y i hy => ?_
  rw [Dict.get?_insert] at hy
  split at hy
  · exact absurd (Option.some.inj hy) (hv i)
  · exact hy

/-- A variable that is declared is none that a name has stood for. -/
theorem declare (h : b.Indexed) (x : String) (t : Ty) : (b.declare x t).Indexed := by
  have hsize : (b.declare x t).vars.size = b.vars.size + 1 := by simp [Block.declare]
  have hcases : ∀ y i, (b.declare x t).objects.get? y = some (.var i) →
      (x = y ∧ i = b.vars.size) ∨ b.objects.get? y = some (.var i) ∧ i < b.vars.size := by
    intro y i hy
    rw [Block.declare, Dict.get?_insert] at hy
    split at hy
    · rename_i hxy
      exact .inl ⟨hxy, (Binding.var.inj (Option.some.inj hy)).symm⟩
    · exact .inr ⟨hy, h.1 y i hy⟩
  refine ⟨fun y i hy => ?_, fun y z i hy hz => ?_⟩
  · rcases hcases y i hy with ⟨-, rfl⟩ | ⟨-, hlt⟩ <;> omega
  · rcases hcases y i hy with ⟨rfl, hi⟩ | ⟨hold, hlt⟩ <;>
      rcases hcases z i hz with ⟨rfl, hj⟩ | ⟨hold', hlt'⟩
    · rfl
    · omega
    · omega
    · exact h.2 y z i hold hold'

theorem modifyFunc (h : b.Indexed) (f : FuncInfo → FuncInfo) : (b.modifyFunc f).Indexed := by
  obtain ⟨_, info, _, _, _, _⟩ := b
  cases info <;> exact h

theorem modifyContract (h : b.Indexed) (f : ContractInfo → ContractInfo) :
    (b.modifyContract f).Indexed := by
  obtain ⟨_, info, _, _, _, _⟩ := b
  cases info <;> exact h

theorem setWritable (h : b.Indexed) : b.setWritable.Indexed := by
  obtain ⟨_, info, _, _, _, _⟩ := b
  cases info <;> exact h

end Block.Indexed

end Covenant
