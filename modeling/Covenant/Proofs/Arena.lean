import Covenant.Compile.Work
import Covenant.Proofs.Block
import Mathlib.Tactic.Common

/-!
# Changes of the arena

What a block of the arena is after another block has been changed or added, and the same for the
compiler's work.
-/

namespace Covenant

namespace Arena

/-- The block of a number is in the arena, or empty. -/
theorem block_mem_or (a : Arena) (id : BlockId) :
    a.block id ∈ a.toList ∨ a.block id = { parent := none } := by
  rw [Arena.block, Array.getD_eq_getD_getElem?]
  cases h : a[id]? with
  | none => exact .inr rfl
  | some b => exact .inl (Array.mem_toList_iff.2 (Array.mem_of_getElem? h))

theorem block_of_le {a : Arena} {b : BlockId} (h : a.size ≤ b) :
    a.block b = { parent := none } := by
  rw [Arena.block, Array.getD_eq_getD_getElem?, Array.getElem?_eq_none h]
  rfl

/-- A change of one block leaves the others alone. -/
theorem block_modify (a : Arena) (i j : BlockId) (f : Block → Block) :
    Arena.block (a.modify i f) j = if i = j ∧ j < a.size then f (a.block j) else a.block j := by
  unfold Arena.block
  rw [Array.getD_eq_getD_getElem?, Array.getD_eq_getD_getElem?, Array.getElem?_modify]
  by_cases h : i = j
  · subst h
    rw [if_pos rfl]
    by_cases hi : i < a.size
    · rw [if_pos ⟨rfl, hi⟩, Array.getElem?_eq_getElem hi]
      rfl
    · rw [if_neg fun h => hi h.2, Array.getElem?_eq_none (Nat.le_of_not_lt hi)]
      rfl
  · rw [if_neg h, if_neg fun h' => h h'.1]

theorem block_modify_self {a : Arena} {i : BlockId} (h : i < a.size) (f : Block → Block) :
    Arena.block (a.modify i f) i = f (a.block i) := by
  rw [block_modify, if_pos ⟨rfl, h⟩]

theorem block_modify_of_ne (a : Arena) {i j : BlockId} (h : i ≠ j) (f : Block → Block) :
    Arena.block (a.modify i f) j = a.block j := by
  rw [block_modify, if_neg fun h' => h h'.1]

/-- A new block has the number behind all others. -/
theorem block_push (a : Arena) (b : Block) (j : BlockId) :
    Arena.block (a.push b) j = if j = a.size then b else a.block j := by
  unfold Arena.block
  rw [Array.getD_eq_getD_getElem?, Array.getD_eq_getD_getElem?, Array.getElem?_push]
  by_cases h : j = a.size
  · rw [if_pos h, if_pos h]
    rfl
  · rw [if_neg h, if_neg h]

theorem block_push_of_lt {a : Arena} {j : BlockId} (h : j < a.size) (b : Block) :
    Arena.block (a.push b) j = a.block j := by
  rw [block_push, if_neg (Nat.ne_of_lt h)]

/-- Two changes that agree on the block they change are one. -/
theorem modify_congr {a : Arena} {i : BlockId} {f g : Block → Block}
    (h : f (a.block i) = g (a.block i)) : a.modify i f = a.modify i g := by
  apply Array.ext_getElem?
  intro j
  rw [Array.getElem?_modify, Array.getElem?_modify]
  by_cases hij : i = j
  · subst hij
    rw [if_pos rfl, if_pos rfl]
    by_cases hi : i < a.size
    · have hblock : a.block i = a[i] := by
        rw [Arena.block, Array.getD_eq_getD_getElem?, Array.getElem?_eq_getElem hi]
        rfl
      rw [Array.getElem?_eq_getElem hi, Option.map_some, Option.map_some, ← hblock, h]
    · rw [Array.getElem?_eq_none (Nat.le_of_not_lt hi)]
      rfl
  · rw [if_neg hij, if_neg hij]

theorem modify_self (a : Arena) (i : BlockId) : a.modify i (fun b => b) = a := by
  apply Array.ext_getElem?
  intro j
  rw [Array.getElem?_modify]
  split
  · exact Option.map_id'
  · rfl

/-- Two changes of one block are one change. -/
theorem modify_modify (a : Arena) (i : BlockId) (f g : Block → Block) :
    (a.modify i f).modify i g = a.modify i (g ∘ f) := by
  apply Array.ext_getElem?
  intro j
  rw [Array.getElem?_modify, Array.getElem?_modify, Array.getElem?_modify]
  by_cases hij : i = j
  · rw [if_pos hij, if_pos hij, if_pos hij, Option.map_map]
  · rw [if_neg hij, if_neg hij, if_neg hij]

/-! ### All blocks -/

/-- Whether all blocks have a property, and so has the empty block that other numbers stand for. -/
def Every (P : Block → Prop) (a : Arena) : Prop := ∀ id, P (a.block id)

namespace Every

variable {a : Arena} {P : Block → Prop}

/-- What holds of all blocks that are there, and of the empty one for the others. -/
theorem of_getElem? (hempty : P { parent := none })
    (h : ∀ (i : Nat) (b : Block), a[i]? = some b → P b) :
    a.Every P := by
  intro id
  rw [Arena.block, Array.getD_eq_getD_getElem?]
  cases hb : a[id]? with
  | none => exact hempty
  | some b => exact h id b hb

theorem push (h : a.Every P) {b : Block} (hb : P b) : Arena.Every P (a.push b) := by
  intro id
  rw [Arena.block_push]
  split
  · exact hb
  · exact h id

/-- A change of one block keeps what holds of all if it does for this block. -/
theorem modify (h : a.Every P) {id : BlockId} {f : Block → Block}
    (hf : P (a.block id) → P (f (a.block id))) : Arena.Every P (a.modify id f) := by
  intro j
  rw [Arena.block_modify]
  split
  · rename_i hj
    rw [← hj.1]
    exact hf (h id)
  · exact h j

/-- What holds of all blocks holds of the first ones. -/
theorem take (h : a.Every P) (hempty : P { parent := none }) (n : Nat) :
    Arena.Every P (a.take n) := by
  refine of_getElem? hempty fun i b hb => ?_
  have hold : a[i]? = some b := by
    simp only [Array.take_eq_extract, Array.getElem?_extract] at hb
    split at hb
    · rwa [Nat.zero_add] at hb
    · cases hb
  have hblock := h i
  rw [Arena.block, Array.getD_eq_getD_getElem?, hold] at hblock
  exact hblock

end Every

end Arena

namespace Compile.Work

theorem modifyBlock_congr {w : Work} {id : BlockId} {f g : Block → Block}
    (h : f (w.block id) = g (w.block id)) : w.modifyBlock id f = w.modifyBlock id g := by
  rw [modifyBlock, modifyBlock, Arena.modify_congr h]

theorem modifyBlock_modifyBlock (w : Work) (id : BlockId) (f g : Block → Block) :
    (w.modifyBlock id f).modifyBlock id g = w.modifyBlock id (g ∘ f) := by
  rw [modifyBlock, modifyBlock, modifyBlock, Arena.modify_modify]

@[simp] theorem size_modifyBlock (w : Work) (id : BlockId) (f : Block → Block) :
    (w.modifyBlock id f).arena.size = w.arena.size := by
  simp [modifyBlock]

@[simp] theorem inner_modifyBlock (w : Work) (id : BlockId) (f : Block → Block) :
    (w.modifyBlock id f).inner = w.inner := rfl

@[simp] theorem root_modifyBlock (w : Work) (id : BlockId) (f : Block → Block) :
    (w.modifyBlock id f).root = w.root := rfl

theorem every_modifyBlock {P : Block → Prop} {w : Work} (h : w.arena.Every P) {id : BlockId}
    {f : Block → Block} (hf : P (w.block id) → P (f (w.block id))) :
    (w.modifyBlock id f).arena.Every P :=
  h.modify hf

@[simp] theorem pending_modifyBlock (w : Work) (id : BlockId) (f : Block → Block) :
    (w.modifyBlock id f).pending = w.pending := rfl

theorem block_modifyBlock_self {w : Work} {id : BlockId} (h : id < w.arena.size)
    (f : Block → Block) : (w.modifyBlock id f).block id = f (w.block id) :=
  Arena.block_modify_self h f

theorem block_modifyBlock_of_ne (w : Work) {id j : BlockId} (h : id ≠ j) (f : Block → Block) :
    (w.modifyBlock id f).block j = w.block j :=
  Arena.block_modify_of_ne w.arena h f

@[simp] theorem top_modifyBlock (w : Work) (id : BlockId) (f : Block → Block) :
    (w.modifyBlock id f).top = w.top := rfl

@[simp] theorem size_openBlock (w : Work) : w.openBlock.arena.size = w.arena.size + 1 := by
  simp [openBlock]

@[simp] theorem inner_openBlock (w : Work) : w.openBlock.inner = w.arena.size :: w.inner := rfl

@[simp] theorem top_openBlock (w : Work) : w.openBlock.top = w.arena.size := rfl

@[simp] theorem root_openBlock (w : Work) : w.openBlock.root = w.root := rfl

@[simp] theorem pending_openBlock (w : Work) : w.openBlock.pending = w.pending := rfl

theorem block_openBlock (w : Work) {id : BlockId} (h : id < w.arena.size) (hne : id ≠ w.top) :
    w.openBlock.block id = w.block id := by
  show Arena.block (Array.modify _ _ _) _ = _
  rw [Arena.block_modify_of_ne _ (Ne.symm hne), Arena.block_push_of_lt h]
  rfl

/-- Opening a block notes it among the children of the block around it. -/
theorem block_openBlock_top {w : Work} (h : w.top < w.arena.size) :
    w.openBlock.block w.top
      = { w.block w.top with children := (w.block w.top).children.push w.arena.size } := by
  show Arena.block (Array.modify _ _ _) _ = _
  rw [Arena.block_modify_self (by simpa using Nat.lt_succ_of_lt h), Arena.block_push_of_lt h]
  rfl

theorem block_openBlock_new {w : Work} (h : w.top < w.arena.size) :
    w.openBlock.block w.arena.size = { parent := some w.top } := by
  show Arena.block (Array.modify _ _ _) _ = _
  rw [Arena.block_modify_of_ne _ (Nat.ne_of_lt h), Arena.block_push, if_pos rfl]

/-- Opening a block binds no names. -/
theorem objects_openBlock (w : Work) (id : BlockId) :
    (w.openBlock.block id).objects = (w.block id).objects := by
  show (Arena.block (Array.modify _ _ _) id).objects = (Arena.block w.arena id).objects
  have hpush : (Arena.block (w.arena.push { parent := some w.top }) id).objects
      = (Arena.block w.arena id).objects := by
    rw [Arena.block_push]
    split
    · rename_i hid
      rw [Arena.block_of_le (Nat.le_of_eq hid.symm)]
    · rfl
  rw [Arena.block_modify]
  split
  · exact hpush
  · exact hpush

/-- The block around a block that has just been opened. -/
@[simp] theorem parent_openBlock (w : Work) : w.openBlock.parent = w.top := by
  unfold parent top
  cases h : w.inner with
  | nil => simp only [inner_openBlock, h, root_openBlock, List.head?_nil, Option.getD_none]
  | cons id ids => simp only [inner_openBlock, h, List.head?_cons, Option.getD_some]

@[simp] theorem opened_openBlock (w : Work) : w.openBlock.opened = w.arena.size :: w.opened := rfl

/-- Changing some blocks in the same way, where it does not matter how often a block is changed. -/
theorem foldl_modifyBlock {f : Block → Block} (htwice : ∀ b, f (f b) = f b)
    (hempty : f { parent := none } = { parent := none }) (ids : List BlockId) (w : Work) :
    (ids.foldl (fun w id => w.modifyBlock id f) w).inner = w.inner ∧
      (ids.foldl (fun w id => w.modifyBlock id f) w).root = w.root ∧
      (ids.foldl (fun w id => w.modifyBlock id f) w).arena.size = w.arena.size ∧
      ∀ j, (ids.foldl (fun w id => w.modifyBlock id f) w).block j
        = if j ∈ ids then f (w.block j) else w.block j := by
  induction ids generalizing w with
  | nil => exact ⟨rfl, rfl, rfl, fun j => rfl⟩
  | cons id ids ih =>
    obtain ⟨hinner, hroot, hsize, hblock⟩ := ih (w.modifyBlock id f)
    refine ⟨hinner, hroot, hsize.trans (size_modifyBlock ..), fun j => (hblock j).trans ?_⟩
    by_cases hj : j = id
    · subst hj
      -- An id may be listed twice, or stand behind the end; `htwice` and `hempty` are for these.
      have hself : (w.modifyBlock j f).block j = f (w.block j) := by
        by_cases hlt : j < w.arena.size
        · exact block_modifyBlock_self hlt f
        · have hout : w.block j = { parent := none } := by
            rw [block, Arena.block, Array.getD_eq_getD_getElem?,
              Array.getElem?_eq_none (Nat.le_of_not_lt hlt)]
            rfl
          rw [hout, hempty, block, modifyBlock, Arena.block_modify, if_neg fun h => hlt h.2]
          exact hout
      rw [hself, htwice, ite_self, if_pos (List.mem_cons_self ..)]
    · rw [block_modifyBlock_of_ne w (Ne.symm hj)]
      simp only [List.mem_cons, hj, false_or]

theorem pending_foldl_modifyBlock (f : Block → Block) (ids : List BlockId) (w : Work) :
    (ids.foldl (fun w id => w.modifyBlock id f) w).pending = w.pending := by
  induction ids generalizing w with
  | nil => rfl
  | cons id ids ih => exact ih (w.modifyBlock id f)

/-- Marking changes the open blocks. -/
theorem block_setWritable (w : Work) (j : BlockId) : w.setWritable.block j
    = if j ∈ w.opened then (w.block j).setWritable else w.block j :=
  (foldl_modifyBlock Block.setWritable_setWritable rfl w.opened w).2.2.2 j

@[simp] theorem inner_setWritable (w : Work) : w.setWritable.inner = w.inner :=
  (foldl_modifyBlock Block.setWritable_setWritable rfl w.opened w).1

@[simp] theorem root_setWritable (w : Work) : w.setWritable.root = w.root :=
  (foldl_modifyBlock Block.setWritable_setWritable rfl w.opened w).2.1

@[simp] theorem size_setWritable (w : Work) : w.setWritable.arena.size = w.arena.size :=
  (foldl_modifyBlock Block.setWritable_setWritable rfl w.opened w).2.2.1

@[simp] theorem pending_setWritable (w : Work) : w.setWritable.pending = w.pending :=
  pending_foldl_modifyBlock Block.setWritable w.opened w

@[simp] theorem opened_setWritable (w : Work) : w.setWritable.opened = w.opened := by
  rw [opened, inner_setWritable, root_setWritable, opened]

@[simp] theorem top_setWritable (w : Work) : w.setWritable.top = w.top := by
  rw [top, inner_setWritable, root_setWritable, top]

end Compile.Work

end Covenant
