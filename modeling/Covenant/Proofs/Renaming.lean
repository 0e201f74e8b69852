import Covenant.Proofs.Block
import Covenant.Proofs.Computation

/-!
# Other numbers for blocks

Blocks name each other by number. `Op.rename` gives the blocks that an instruction names other
numbers, and `Block.Renames` says that a block is another one but for that. What compiles or runs a
block never looks at the numbers themselves, so that it does the same under all of them: the two
computations are carried out side by side (`Computation.Carries`).
-/

namespace Covenant

/-! ### Two computations side by side -/

namespace Computation

variable {ε σ τ α β γ δ : Type} {R : σ → τ → Prop} {g : α → β}

/-- Whether two computations have both failed in the same way, or both have succeeded, where what
the second answers with is made from what the first one does. Their states are related. -/
inductive Alike (R : σ → τ → Prop) (g : α → β) :
    EStateM.Result ε σ α → EStateM.Result ε τ β → Prop
  | ok (a : α) {s : σ} {t : τ} : R s t → Alike R g (.ok a s) (.ok (g a) t)
  | error (e : ε) {s : σ} {t : τ} : R s t → Alike R g (.error e s) (.error e t)

/-- Whether a computation does in related states what another one does. -/
def Carries (R : σ → τ → Prop) (g : α → β) (x : EStateM ε σ α) (y : EStateM ε τ β) : Prop :=
  ∀ ⦃s : σ⦄ ⦃t : τ⦄, R s t → Alike R g (x s) (y t)

namespace Carries

variable {x : EStateM ε σ α} {y : EStateM ε τ β} {h : γ → δ}

theorem pure {a : α} {b : β} (hab : b = g a) :
    Carries R g (pure a : EStateM ε σ α) (pure b : EStateM ε τ β) := by
  intro s t hst
  rw [hab]
  exact .ok a hst

theorem throw (e : ε) : Carries R g (throw e : EStateM ε σ α) (throw e : EStateM ε τ β) :=
  fun _ _ hst => .error e hst

theorem bind {k : α → EStateM ε σ γ} {k' : β → EStateM ε τ δ} (hx : Carries R g x y)
    (hk : ∀ a, Carries R h (k a) (k' (g a))) : Carries R h (x >>= k) (y >>= k') := by
  intro s t hst
  change Alike R h (EStateM.bind x k s) (EStateM.bind y k' t)
  unfold EStateM.bind
  have hxy := hx hst
  cases hs : x s <;> cases ht : y t <;> rw [hs, ht] at hxy <;> cases hxy
  · rename_i a s' t' hst'
    exact hk a hst'
  · rename_i e s' t' hst'
    exact .error e hst'

theorem throw_bind {k : α → EStateM ε σ γ} {k' : β → EStateM ε τ δ} (e : ε) :
    Carries R h ((MonadExcept.throw e : EStateM ε σ α) >>= k)
      ((MonadExcept.throw e : EStateM ε τ β) >>= k') :=
  fun _ _ hst => .error e hst

theorem get_bind {k : σ → EStateM ε σ γ} {k' : τ → EStateM ε τ δ}
    (hk : ∀ s t, R s t → Carries R h (k s) (k' t)) : Carries R h (get >>= k) (get >>= k') :=
  fun s t hst => hk s t hst hst

theorem set {s' : σ} {t' : τ} (hst' : R s' t') :
    Carries R (fun u => u) (set s' : EStateM ε σ PUnit) (set t' : EStateM ε τ PUnit) :=
  fun _ _ _ => .ok PUnit.unit hst'

theorem modify {f : σ → σ} {f' : τ → τ} (hf : ∀ s t, R s t → R (f s) (f' t)) :
    Carries R (fun u => u) (modify f : EStateM ε σ PUnit) (modify f' : EStateM ε τ PUnit) :=
  fun s t hst => .ok PUnit.unit (hf s t hst)

theorem ite {p p' : Prop} [Decidable p] [Decidable p'] {x' : EStateM ε σ α} {y' : EStateM ε τ β}
    (hp : p' ↔ p) (hx : Carries R g x y) (hx' : Carries R g x' y') :
    Carries R g (if p then x else x') (if p' then y else y') := by
  by_cases h : p
  · rw [if_pos h, if_pos (hp.2 h)]
    exact hx
  · rw [if_neg h, if_neg fun h' => h (hp.1 h')]
    exact hx'

end Carries

end Computation

/-! ### Code -/

/-- The variable of a block with another number. -/
def VarRef.rename (ρ : BlockId → BlockId) (v : VarRef) : VarRef := { v with owner := ρ v.owner }

/-- The target of an assignment, where blocks have other numbers. -/
def Target.rename (ρ : BlockId → BlockId) : Target → Target
  | .var v => .var (v.rename ρ)
  | .extend name => .extend name

mutual

/-- An element of a literal, where blocks have other numbers. -/
def Item.rename (ρ : BlockId → BlockId) : Item → Item
  | .const c => .const c
  | .var v => .var (v.rename ρ)
  | .extend name => .extend name
  | .map entries => .map (Item.renameEntries ρ entries)
  | .array items => .array (Item.renameAll ρ items)

/-- The elements of an array, where blocks have other numbers. -/
def Item.renameAll (ρ : BlockId → BlockId) : List Item → List Item
  | [] => []
  | i :: is => i.rename ρ :: Item.renameAll ρ is

/-- The entries of a map, where blocks have other numbers. -/
def Item.renameEntries (ρ : BlockId → BlockId) : List (String × Item) → List (String × Item)
  | [] => []
  | (k, i) :: is => (k, i.rename ρ) :: Item.renameEntries ρ is

end

/-- What a call instruction calls, where blocks have other numbers. -/
def Callee.rename (ρ : BlockId → BlockId) : Callee → Callee
  | .func id => .func (ρ id)
  | .ext e => .ext e

/-- A command, where blocks have other numbers. -/
def Op.rename (ρ : BlockId → BlockId) : Op → Op
  | .var v => .var (v.rename ρ)
  | .call f => .call (f.rename ρ)
  | .callVariadic f => .callVariadic (f.rename ρ)
  | .if body => .if (ρ body)
  | .else body => .else (ρ body)
  | .while body => .while (ρ body)
  | .assignVar targets => .assignVar (targets.map (Target.rename ρ))
  | .mapInit entries => .mapInit (Item.renameEntries ρ entries)
  | .arrayInit items => .arrayInit (Item.renameAll ρ items)
  | op => op

/-- An instruction, where blocks have other numbers. -/
def Instr.rename (ρ : BlockId → BlockId) (i : Instr) : Instr := { i with op := i.op.rename ρ }

/-- What a name stands for, where blocks have other numbers. -/
def Binding.rename (ρ : BlockId → BlockId) : Binding → Binding
  | .contract id => .contract (ρ id)
  | .func id => .func (ρ id)
  | v => v

theorem Op.opcode_rename (ρ : BlockId → BlockId) (op : Op) : (op.rename ρ).opcode = op.opcode := by
  cases op <;> rfl

/-! ### Numbers that do not matter -/

section Congr

variable {ρ σ : BlockId → BlockId}

theorem VarRef.rename_congr {v : VarRef} (h : ρ v.owner = σ v.owner) : v.rename ρ = v.rename σ := by
  rw [VarRef.rename, VarRef.rename, h]

mutual

theorem Item.rename_congr : ∀ i : Item, (∀ id ∈ i.owners, ρ id = σ id) → i.rename ρ = i.rename σ
  | .const _, _ => rfl
  | .extend _, _ => rfl
  | .var _, h => congrArg Item.var (VarRef.rename_congr (h _ (List.mem_singleton_self _)))
  | .map entries, h => congrArg Item.map (Item.renameEntries_congr entries h)
  | .array items, h => congrArg Item.array (Item.renameAll_congr items h)

theorem Item.renameAll_congr : ∀ is : List Item, (∀ id ∈ Item.ownersOfAll is, ρ id = σ id) →
    Item.renameAll ρ is = Item.renameAll σ is
  | [], _ => rfl
  | i :: is, h => congrArg₂ List.cons
    (Item.rename_congr i fun id hid => h id (List.mem_append_left _ hid))
    (Item.renameAll_congr is fun id hid => h id (List.mem_append_right _ hid))

theorem Item.renameEntries_congr : ∀ is : List (String × Item),
    (∀ id ∈ Item.ownersOfEntries is, ρ id = σ id) →
    Item.renameEntries ρ is = Item.renameEntries σ is
  | [], _ => rfl
  | (k, i) :: is, h => congrArg₂ List.cons
    (congrArg (Prod.mk k) (Item.rename_congr i fun id hid => h id (List.mem_append_left _ hid)))
    (Item.renameEntries_congr is fun id hid => h id (List.mem_append_right _ hid))

end

/-- Whether two ways to give other numbers agree on all numbers that an instruction names. -/
structure Op.AgreeOn (ρ σ : BlockId → BlockId) (op : Op) : Prop where
  body : ∀ id, op.body? = some id → ρ id = σ id
  func : ∀ id, op.func? = some id → ρ id = σ id
  reads : ∀ id ∈ op.owners, ρ id = σ id
  assigns : ∀ v, .var v ∈ op.targets → ρ v.owner = σ v.owner

theorem Op.AgreeOn.rename_eq {op : Op} (h : op.AgreeOn ρ σ) : op.rename ρ = op.rename σ := by
  cases op with
  | var => exact congrArg Op.var (VarRef.rename_congr (h.reads _ (List.mem_singleton_self _)))
  | call f | callVariadic f =>
    cases f with
    | func id => rw [Op.rename, Op.rename, Callee.rename, Callee.rename, h.func id rfl]
    | ext e => rfl
  | «if» body | «else» body | «while» body => rw [Op.rename, Op.rename, h.body body rfl]
  | assignVar targets =>
    refine congrArg Op.assignVar (List.map_congr_left fun t ht => ?_)
    cases t with
    | var v => exact congrArg Target.var (VarRef.rename_congr (h.assigns v ht))
    | extend name => rfl
  | mapInit entries => exact congrArg Op.mapInit (Item.renameEntries_congr entries h.reads)
  | arrayInit items => exact congrArg Op.arrayInit (Item.renameAll_congr items h.reads)
  | _ => rfl

end Congr

mutual

theorem Item.rename_id : ∀ i : Item, i.rename (fun id => id) = i
  | .const _ => rfl
  | .extend _ => rfl
  | .var _ => rfl
  | .map entries => congrArg Item.map (Item.renameEntries_id entries)
  | .array items => congrArg Item.array (Item.renameAll_id items)

theorem Item.renameAll_id : ∀ is : List Item, Item.renameAll (fun id => id) is = is
  | [] => rfl
  | i :: is => congrArg₂ List.cons (Item.rename_id i) (Item.renameAll_id is)

theorem Item.renameEntries_id :
    ∀ is : List (String × Item), Item.renameEntries (fun id => id) is = is
  | [] => rfl
  | (k, i) :: is =>
    congrArg₂ List.cons (congrArg (Prod.mk k) (Item.rename_id i)) (Item.renameEntries_id is)

end

theorem Op.rename_id (op : Op) : op.rename (fun id => id) = op := by
  cases op with
  | call f | callVariadic f => cases f <;> rfl
  | assignVar targets =>
    refine congrArg Op.assignVar (List.map_id'' (fun t => ?_) targets)
    cases t <;> rfl
  | mapInit entries => exact congrArg Op.mapInit (Item.renameEntries_id entries)
  | arrayInit items => exact congrArg Op.arrayInit (Item.renameAll_id items)
  | _ => rfl

theorem Binding.rename_id (v : Binding) : v.rename (fun id => id) = v := by
  cases v <;> rfl

/-! ### Blocks -/

/-- Whether a block is another one, where blocks have other numbers. -/
structure Block.Renames (ρ : BlockId → BlockId) (b b' : Block) : Prop where
  parent : b'.parent = b.parent.map ρ
  info : b'.info = b.info
  objects : ∀ x, b'.objects.get? x = (b.objects.get? x).map (Binding.rename ρ)
  vars : b'.vars = b.vars
  code : b'.code = b.code.map (Instr.rename ρ)
  children : b'.children = b.children.map ρ

namespace Block.Renames

variable {ρ : BlockId → BlockId} {b b' : Block}

/-- A block is itself where all numbers stay. -/
theorem refl (b : Block) : b.Renames (fun id => id) b where
  parent := Option.map_id'.symm
  info := rfl
  objects x := by
    rw [show Binding.rename (fun id => id) = id from funext Binding.rename_id, Option.map_id, id]
  vars := rfl
  code := by
    have hsame : Instr.rename (fun id => id) = id := by
      funext i
      rw [Instr.rename, Op.rename_id, id]
    rw [hsame, Array.map_id]
  children := (Array.map_id' _).symm

theorem func? (h : b.Renames ρ b') : b'.func? = b.func? := by rw [Block.func?, Block.func?, h.info]

theorem contract? (h : b.Renames ρ b') : b'.contract? = b.contract? := by
  rw [Block.contract?, Block.contract?, h.info]

theorem name (h : b.Renames ρ b') : b'.name = b.name := by rw [Block.name, Block.name, h.info]

theorem canWrite (h : b.Renames ρ b') : b'.canWrite = b.canWrite := by
  rw [Block.canWrite, Block.canWrite, h.info]

theorem contains (h : b.Renames ρ b') (x : String) :
    b'.objects.contains x = b.objects.contains x := by
  rw [Dict.contains_eq, Dict.contains_eq, h.objects, Option.isSome_map]

theorem empty (ρ : BlockId → BlockId) : Block.Renames ρ { parent := none } { parent := none } where
  parent := rfl
  info := rfl
  objects x := by rw [Dict.get?_empty, Option.map_none]
  vars := rfl
  code := Array.map_empty.symm
  children := Array.map_empty.symm

theorem withInfo (h : b.Renames ρ b') (info : BlockInfo) :
    Block.Renames ρ { b with info := info } { b' with info := info } :=
  ⟨h.parent, rfl, h.objects, h.vars, h.code, h.children⟩

theorem modifyFunc (h : b.Renames ρ b') (f : FuncInfo → FuncInfo) :
    (b.modifyFunc f).Renames ρ (b'.modifyFunc f) := by
  unfold Block.modifyFunc
  rw [h.info]
  split
  · exact h.withInfo _
  · exact h

theorem modifyContract (h : b.Renames ρ b') (f : ContractInfo → ContractInfo) :
    (b.modifyContract f).Renames ρ (b'.modifyContract f) := by
  unfold Block.modifyContract
  rw [h.info]
  split
  · exact h.withInfo _
  · exact h

theorem setWritable (h : b.Renames ρ b') : b.setWritable.Renames ρ b'.setWritable := by
  unfold Block.setWritable
  rw [h.info]
  split
  · exact h.withInfo _
  · exact h.withInfo _
  · exact h

theorem bind (h : b.Renames ρ b') (x : String) (v : Binding) :
    Block.Renames ρ { b with objects := b.objects.insert x v }
      { b' with objects := b'.objects.insert x (v.rename ρ) } where
  parent := h.parent
  info := h.info
  objects y := by
    rw [Dict.get?_insert, Dict.get?_insert, h.objects]
    split <;> rfl
  vars := h.vars
  code := h.code
  children := h.children

theorem declare (h : b.Renames ρ b') (x : String) (t : Ty) :
    (b.declare x t).Renames ρ (b'.declare x t) := by
  have hbind := h.bind x (.var b.vars.size)
  unfold Block.declare
  rw [h.vars]
  exact ⟨hbind.parent, hbind.info, hbind.objects, rfl, hbind.code, hbind.children⟩

theorem withCode (h : b.Renames ρ b') {code code' : Array Instr}
    (hcode : code' = code.map (Instr.rename ρ)) :
    Block.Renames ρ { b with code := code } { b' with code := code' } :=
  ⟨h.parent, h.info, h.objects, h.vars, hcode, h.children⟩

theorem emit (h : b.Renames ρ b') {i i' : Instr} (hi : i' = i.rename ρ) :
    (b.emit i).Renames ρ (b'.emit i') :=
  h.withCode (by rw [h.code, hi, Array.map_push])

theorem pushChild (h : b.Renames ρ b') {c c' : BlockId} (hc : c' = ρ c) :
    Block.Renames ρ { b with children := b.children.push c }
      { b' with children := b'.children.push c' } :=
  ⟨h.parent, h.info, h.objects, h.vars, h.code, by rw [h.children, hc, Array.map_push]⟩

/-- The last command of a block. -/
theorem back? (h : b.Renames ρ b') :
    (b'.code.back?).map Instr.op = ((b.code.back?).map Instr.op).map (Op.rename ρ) := by
  rw [h.code, Array.back?_map, Option.map_map, Option.map_map]
  rfl

end Block.Renames

end Covenant
