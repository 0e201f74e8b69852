import Covenant.Proofs.Compile.Marks
import Covenant.Proofs.Structured.Unit

/-!
# Names that a unit declares

A unit binds the names of its contracts and functions in its root block, and a name that is bound
there stays bound to the same block (`Declaring.kept`). So the contracts and functions of a unit
have different names, and the unit knows every one of them by its name (`Titled`).

A unit that starts with a function's header declares that function first (`readAll_header`).
-/

namespace Covenant

namespace Block

/-- What the name of a contract or function is bound to. -/
def binding? (b : Block) (self : BlockId) : Option Binding :=
  match b.info with
  | .func _ => some (.func self)
  | .contract _ => some (.contract self)
  | .plain => none

theorem block?_of_binding? {b : Block} {self : BlockId} {v : Binding}
    (h : b.binding? self = some v) :
    v.block? = some self := by
  unfold binding? at h
  split at h <;> cases h <;> rfl

theorem binding?_congr {b b' : Block} (h : b'.standing = b.standing) (self : BlockId) :
    b'.binding? self = b.binding? self := by
  obtain ⟨_, info, _, _, _, _⟩ := b
  obtain ⟨_, info', _, _, _, _⟩ := b'
  cases info <;> cases info' <;> first | rfl | cases h

theorem binding?_setWritable (b : Block) (self : BlockId) :
    b.setWritable.binding? self = b.binding? self := by
  obtain ⟨_, info, _, _, _, _⟩ := b
  cases info <;> rfl

theorem header?_eq_some {b : Block} {self : BlockId} {x : String} {id : Nat} {v : Binding}
    (h : b.header? self = some (x, id, v)) : b.name = x ∧ b.binding? self = some v := by
  obtain ⟨_, info, _, _, _, _⟩ := b
  cases info <;> cases h <;> exact ⟨rfl, rfl⟩

end Block

namespace Compile

open Covenant.Computation

variable {a : Arena} {s : Source} {w w' : Work}

/-! ### One edit -/

/-- What an edit does to the declarations of a unit: names stay bound, blocks keep their titles, and
at most one child is added, which is known by its name if it has one. That happens where a block is
opened in the unit itself. -/
structure Declaring (w w' : Work) : Prop where
  root : w'.root = w.root
  outside : w'.root ∉ w'.inner
  size : w.arena.size ≤ w'.arena.size
  kept : ∀ x v, (w.block w.root).objects.get? x = some v →
    (w'.block w'.root).objects.get? x = some v
  title : ∀ c < w.arena.size,
    (w'.block c).name = (w.block c).name ∧ (w'.block c).binding? c = (w.block c).binding? c
  children : (w'.block w'.root).children = (w.block w.root).children ∧
      (w'.arena.size = w.arena.size ∨ w.inner ≠ []) ∨
    (w'.block w'.root).children = (w.block w.root).children.push w.arena.size ∧
      (w'.arena.size ≠ w.arena.size ∧ w.inner = []) ∧
      ∀ v, (w'.block w.arena.size).binding? w.arena.size = some v →
        (w'.block w'.root).objects.get? (w'.block w.arena.size).name = some v

namespace Declaring

/-- Changing a block that keeps its title, and the names and children of the unit. -/
theorem modify {id : BlockId} {f : Block → Block} (hroot : w.root ∉ w.inner)
    (hname : (f (w.block id)).name = (w.block id).name)
    (hstanding : (f (w.block id)).standing = (w.block id).standing)
    (hchildren : (f (w.block id)).children = (w.block id).children)
    (hobjects : id = w.root → (f (w.block id)).objects = (w.block id).objects) :
    Declaring w (w.modifyBlock id f) := by
  have hblock := w.block_modifyBlock_cases id f
  have hunit : ((w.modifyBlock id f).block w.root).objects = (w.block w.root).objects ∧
      ((w.modifyBlock id f).block w.root).children = (w.block w.root).children := by
    rcases hblock w.root with hb | ⟨rfl, hb⟩ <;> rw [hb]
    · exact ⟨rfl, rfl⟩
    · exact ⟨hobjects rfl, hchildren⟩
  have hsize := w.size_modifyBlock id f
  refine ⟨rfl, hroot, Nat.le_of_eq hsize.symm, fun x v hx => ?_, fun c hc => ?_,
    .inl ⟨hunit.2, .inl hsize⟩⟩
  · rw [Work.root_modifyBlock, hunit.1]
    exact hx
  · rcases hblock c with hb | ⟨rfl, hb⟩ <;> rw [hb]
    · exact ⟨rfl, rfl⟩
    · exact ⟨hname, Block.binding?_congr hstanding _⟩

/-- Opening a block with a header. Where it is opened in the unit itself, it becomes known by its
name. -/
theorem opens {info : BlockInfo} {f : Block → Block} (hroot : w.root ∉ w.inner)
    (htop : w.top < w.arena.size) (hunit : w.root < w.arena.size)
    (hinfo : ∀ b, (f b).info = b.info) (hchildren : ∀ b, (f b).children = b.children)
    (hkept : ∀ b, b.objects = (w.block w.top).objects → ∀ x v,
      (w.block w.top).objects.get? x = some v → (f b).objects.get? x = some v)
    (hnew : ∀ b, b.objects = (w.block w.top).objects → ∀ v,
      Block.binding? { parent := none, info := info } w.arena.size = some v →
        (f b).objects.get? (Block.name { parent := none, info := info }) = some v) :
    Declaring w ((w.openAs info).modifyBlock w.top f) := by
  have hold : ∀ j < w.arena.size, ∃ children, (w.openAs info).block j
      = { w.block j with children := children } ∧ (j ≠ w.top → children = (w.block j).children) ∧
        (j = w.top → children = (w.block j).children.push w.arena.size) := by
    intro j hj
    rw [Work.openAs, Work.block_modifyBlock_of_ne _ (Nat.ne_of_gt hj)]
    by_cases hid : j = w.top
    · subst hid
      exact ⟨_, Work.block_openBlock_top htop, fun hne => absurd rfl hne, fun _ => rfl⟩
    · exact ⟨_, Work.block_openBlock w hj hid, fun _ => rfl, fun heq => absurd heq hid⟩
  have hsize : w.top < (w.openAs info).arena.size := by
    rw [Work.size_openAs]
    exact Nat.lt_succ_of_lt htop
  have hnewBlock : ((w.openAs info).modifyBlock w.top f).block w.arena.size
      = { parent := some w.top, info := info } := by
    rw [Work.block_modifyBlock_of_ne _ (Nat.ne_of_lt htop), Work.openAs,
      Work.block_modifyBlock_self (by simp), Work.block_openBlock_new htop]
  have hgrown : ((w.openAs info).modifyBlock w.top f).arena.size = w.arena.size + 1 := by
    rw [Work.size_modifyBlock, Work.size_openAs]
  refine ⟨rfl, ?_, hgrown ▸ Nat.le_succ _, fun x v hx => ?_, fun c hc => ?_, ?_⟩
  · show w.root ∉ w.arena.size :: w.inner
    exact List.not_mem_cons_of_ne_of_not_mem (Nat.ne_of_lt hunit) hroot
  · show (((w.openAs info).modifyBlock w.top f).block w.root).objects.get? x = some v
    obtain ⟨children, hb, -⟩ := hold w.root hunit
    by_cases hid : w.top = w.root
    · rw [← hid, Work.block_modifyBlock_self hsize]
      rw [← hid] at hb hx
      exact hkept _ (by rw [hb]) x v hx
    · rw [Work.block_modifyBlock_of_ne _ hid, hb]
      exact hx
  · obtain ⟨children, hb, -⟩ := hold c hc
    by_cases hid : w.top = c
    · subst hid
      rw [Work.block_modifyBlock_self hsize, hb]
      unfold Block.name Block.binding?
      rw [hinfo]
      exact ⟨rfl, rfl⟩
    · rw [Work.block_modifyBlock_of_ne _ hid, hb]
      exact ⟨rfl, rfl⟩
  · show (((w.openAs info).modifyBlock w.top f).block w.root).children = _ ∧ _ ∨
      (((w.openAs info).modifyBlock w.top f).block w.root).children = _ ∧ _
    obtain ⟨children, hb, hother, htopChildren⟩ := hold w.root hunit
    by_cases hid : w.top = w.root
    · -- only in the unit itself is the innermost block the unit's
      have hinner : w.inner = [] := by
        by_contra hne
        obtain ⟨c, cs, hcs⟩ := List.exists_cons_of_ne_nil hne
        rw [Work.top, hcs] at hid
        rw [hcs, ← hid] at hroot
        exact hroot (List.mem_cons_self ..)
      refine .inr ⟨?_, ⟨by omega, hinner⟩, fun v hv => ?_⟩
      · rw [← hid, Work.block_modifyBlock_self hsize, hchildren]
        rw [← hid] at hb htopChildren
        rw [hb]
        exact htopChildren rfl
      · rw [hnewBlock] at hv ⊢
        show (((w.openAs info).modifyBlock w.top f).block w.root).objects.get? _ = some v
        rw [← hid, Work.block_modifyBlock_self hsize]
        rw [← hid] at hb
        exact hnew _ (by rw [hb]) v hv
    · refine .inl ⟨?_, .inr fun hinner => hid (by rw [Work.top, hinner]; rfl)⟩
      rw [Work.block_modifyBlock_of_ne _ hid, hb]
      exact hother (Ne.symm hid)

/-- A mark declares nothing. -/
theorem setWritable (hroot : w.root ∉ w.inner) : Declaring w w.setWritable := by
  have hsame : ∀ j, (w.setWritable.block j).objects = (w.block j).objects ∧
      (w.setWritable.block j).children = (w.block j).children ∧
      (w.setWritable.block j).name = (w.block j).name ∧
      (w.setWritable.block j).binding? j = (w.block j).binding? j := by
    intro j
    rw [Work.block_setWritable]
    split
    · rw [Block.name_setWritable, Block.binding?_setWritable, Block.setWritable_eq]
      exact ⟨rfl, rfl, rfl, rfl⟩
    · exact ⟨rfl, rfl, rfl, rfl⟩
  refine ⟨w.root_setWritable, ?_, Nat.le_of_eq w.size_setWritable.symm, fun x v hx => ?_,
    fun c _ => (hsame c).2.2, .inl ⟨?_, .inl w.size_setWritable⟩⟩
  · rwa [Work.root_setWritable, Work.inner_setWritable]
  · rw [Work.root_setWritable, (hsame w.root).1]
    exact hx
  · rw [Work.root_setWritable]
    exact (hsame w.root).2.1

/-- An edit declares in the innermost block only, and the root where that is innermost. -/
theorem edit (h : Beside a w) (hroot : w.root ∉ w.inner) (hedit : Edit s w w') :
    Declaring w w' := by
  have htop := (h.opened w.top (top_mem_opened w)).2
  have hunit := (h.opened w.root (List.mem_append_right _ (List.mem_singleton.2 rfl))).2
  cases hedit with
  | note harena hrootEq hinner =>
    have hblock : w'.block = w.block := by
      funext id
      rw [Work.block, Work.block, harena]
    refine ⟨hrootEq, by rwa [hrootEq, hinner], by rw [harena], fun x v hx => ?_,
      fun c _ => by
        rw [hblock]; exact ⟨rfl, rfl⟩, .inl ⟨by rw [hblock, hrootEq], .inl (by rw [harena])⟩⟩
    rw [hblock, hrootEq]
    exact hx
  | @block id f hid hblock =>
    refine modify hroot hblock.name hblock.standing hblock.children fun hunit => ?_
    refine hblock.names.resolve_right fun hnames => hroot ?_
    -- names are bound in the innermost block, which is not the unit if anything is open in it
    rw [← hunit, hnames.1, Work.top]
    obtain ⟨c, cs, hcs⟩ := List.exists_cons_of_ne_nil hnames.2
    rw [hcs]
    exact List.mem_cons_self ..
  | marks => exact setWritable hroot
  | opens =>
    have h : Declaring w ((w.openAs .plain).modifyBlock w.top fun b => b) :=
      opens hroot htop hunit (fun _ => rfl) (fun _ => rfl) (fun b hb x v hx => by rwa [hb])
        fun _ _ v hv => by cases hv
    rwa [Work.openAs_plain htop, Work.modifyBlock, Arena.modify_self] at h
  | @control op line hop =>
    have h : Declaring w ((w.openAs .plain).modifyBlock w.top (·.emit ⟨op w.arena.size, line⟩)) :=
      opens hroot htop hunit (fun _ => rfl) (fun _ => rfl)
        (fun b hb x v hx => by rwa [Block.emit, hb]) fun _ _ v hv => by cases hv
    rwa [Work.openAs_plain htop] at h
  | @declares info v x hv =>
    refine opens (f := fun b => { b with objects := b.objects.insert x v }) hroot htop hunit
      (fun _ => rfl) (fun _ => rfl) (fun b hb y u hu => ?_) fun b hb u hu => ?_
    · rw [hb, Dict.get?_insert, if_neg]
      · exact hu
      · rintro rfl
        cases hv.fresh.symm.trans hu
    · rw [Dict.get?_insert, if_pos hv.name.symm]
      rcases hv.header with ⟨f, rfl, -, rfl⟩ | ⟨c, rfl, -, -, rfl, -⟩ <;> cases hu <;> rfl
  | closes => exact ⟨rfl, fun hin => hroot (List.mem_of_mem_tail hin),
    Nat.le_refl _, fun _ _ hx => hx,
      fun _ _ => ⟨rfl, rfl⟩, .inl ⟨rfl, .inl rfl⟩⟩

end Declaring

/-! ### All edits -/

/-- Whether a unit under way knows its contracts and functions by their names. -/
structure Titled (a : Arena) (w : Work) : Prop where
  beside : Beside a w
  outside : w.root ∉ w.inner
  named : ∀ c ∈ (w.block w.root).children, ∀ v, (w.block c).binding? c = some v →
    (w.block w.root).objects.get? (w.block c).name = some v
  distinct : (w.block w.root).children.toList.Nodup

namespace Titled

theorem root_lt (h : Titled a w) : a.size ≤ w.root ∧ w.root < w.arena.size :=
  h.beside.opened w.root (List.mem_append_right _ (List.mem_singleton.2 rfl))

theorem lt (h : Titled a w) {c : BlockId} (hc : c ∈ (w.block w.root).children) : c < w.arena.size :=
  (h.beside.children w.root h.root_lt.1 c hc).2

/-- Names of the root stay those of its blocks. -/
theorem edit (h : Titled a w) (hedit : Edit s w w') : Titled a w' := by
  have hd := Declaring.edit h.beside h.outside hedit
  have hold : ∀ c ∈ (w.block w.root).children, ∀ v, (w'.block c).binding? c = some v →
      (w'.block w'.root).objects.get? (w'.block c).name = some v := by
    intro c hc v hv
    obtain ⟨hname, hbinding⟩ := hd.title c (h.lt hc)
    rw [hbinding] at hv
    rw [hname]
    exact hd.kept _ v (h.named c hc v hv)
  refine ⟨h.beside.edit hedit, hd.outside, ?_, ?_⟩
  · rcases hd.children with ⟨hsame, -⟩ | ⟨hmore, -, hnew⟩
    · rw [hsame]
      exact hold
    · rw [hmore]
      intro c hc
      rcases Array.mem_push.1 hc with hc | rfl
      · exact hold c hc
      · exact hnew
  · rcases hd.children with ⟨hsame, -⟩ | ⟨hmore, -⟩
    · rw [hsame]
      exact h.distinct
    · rw [hmore, Array.toList_push]
      refine List.nodup_append.2 ⟨h.distinct, List.pairwise_singleton _ _, fun c hc d hd heq => ?_⟩
      rw [heq, List.mem_singleton.1 hd] at hc
      exact Nat.lt_irrefl _ (h.lt (Array.mem_toList_iff.1 hc))

theorem edits (h : Titled a w) (hedits : Edits s w w') : Titled a w' := by
  induction hedits with
  | refl => exact h
  | tail _ hedit ih => exact ih.edit hedit

theorem root_eq (h : Titled a w) (hedits : Edits s w w') : w'.root = w.root := by
  induction hedits with
  | refl => rfl
  | tail hold hedit ih =>
    have hbefore := h.edits hold
    exact (Declaring.edit hbefore.beside hbefore.outside hedit).root.trans ih

/-- A name that a unit has bound stays bound to the same block. -/
theorem kept (h : Titled a w) (hedits : Edits s w w') {x : String} {v : Binding}
    (hx : (w.block w.root).objects.get? x = some v) :
    (w'.block w'.root).objects.get? x = some v := by
  induction hedits with
  | refl => exact hx
  | tail hold hedit ih =>
    have hbefore := h.edits hold
    exact (Declaring.edit hbefore.beside hbefore.outside hedit).kept x v ih

/-- A unit that is about to be compiled. -/
theorem start (a : Arena) : Titled a { arena := a.push { parent := none }, root := a.size } := by
  have hempty : Arena.block (a.push { parent := none }) a.size = { parent := none } := by
    rw [Arena.block_push, if_pos rfl]
  refine ⟨.start a, List.not_mem_nil, fun c hc => ?_, ?_⟩
  · rw [Work.block, hempty] at hc
    exact absurd hc (Array.not_mem_empty c)
  · rw [Work.block, hempty]
    exact List.nodup_nil

end Titled

/-! ### What a unit has bound -/

/-- A name that an edit binds in the unit is that of a block that it opens there. -/
theorem bound_edit (h : Beside a w) (hroot : w.root ∉ w.inner) (hedit : Edit s w w') {x : String}
    {v : Binding} (hx : (w'.block w'.root).objects.get? x = some v) :
    (w.block w.root).objects.get? x = some v ∨ (w'.arena.size ≠ w.arena.size ∧ w.inner = []) ∧
      (w'.block w.arena.size).name = x ∧
      (w'.block w.arena.size).binding? w.arena.size = some v := by
  have htop := (h.opened w.top (top_mem_opened w)).2
  have hunit := (h.opened w.root (List.mem_append_right _ (List.mem_singleton.2 rfl))).2
  cases hedit with
  | note harena hrootEq hinner =>
    rw [Work.block, harena, hrootEq] at hx
    exact .inl hx
  | @block id f hid hblock =>
    refine .inl ?_
    by_cases heq : id = w.root
    · rw [Work.root_modifyBlock, heq, Work.block_modifyBlock_self hunit, ← heq] at hx
      rcases hblock.names with hnames | ⟨htopEq, hinner⟩
      · rwa [hnames, heq] at hx
      · -- the innermost block is not the unit if anything is open in it
        obtain ⟨c, cs, hcs⟩ := List.exists_cons_of_ne_nil hinner
        rw [heq, Work.top, hcs] at htopEq
        exact absurd (hcs ▸ htopEq ▸ List.mem_cons_self ..) hroot
    · rwa [Work.root_modifyBlock, Work.block_modifyBlock_of_ne w heq] at hx
  | marks =>
    rw [Work.root_setWritable, Work.block_setWritable] at hx
    split at hx
    · rw [Block.setWritable_eq] at hx
      exact .inl hx
    · exact .inl hx
  | opens =>
    rw [Work.root_openBlock, Work.objects_openBlock] at hx
    exact .inl hx
  | @control op line hop =>
    refine .inl ?_
    rw [Work.root_modifyBlock, Work.root_openBlock] at hx
    by_cases heq : w.top = w.root
    · rw [heq, Work.block_modifyBlock_self
        (by rw [Work.size_openBlock]; exact Nat.lt_succ_of_lt hunit)]
        at hx
      rwa [Block.emit, Work.objects_openBlock] at hx
    · rwa [Work.block_modifyBlock_of_ne _ heq, Work.objects_openBlock] at hx
  | @declares info u y hv =>
    have hnew : w.arena.size ≠ w.root := Nat.ne_of_gt hunit
    have hold : ((w.openAs info).block w.root).objects = (w.block w.root).objects := by
      rw [Work.openAs, Work.block_modifyBlock_of_ne _ hnew, Work.objects_openBlock]
    change (((w.openAs info).modifyBlock w.top _).block w.root).objects.get? x = _ at hx
    by_cases heq : w.top = w.root
    · have hinner : w.inner = [] := by
        by_contra hne
        obtain ⟨c, cs, hcs⟩ := List.exists_cons_of_ne_nil hne
        rw [Work.top, hcs] at heq
        exact absurd (hcs ▸ heq ▸ List.mem_cons_self ..) hroot
      rw [heq, Work.block_modifyBlock_self
        (by rw [Work.size_openAs]; exact Nat.lt_succ_of_lt hunit), Dict.get?_insert, hold] at hx
      split at hx
      · rename_i hxy
        refine .inr ⟨⟨?_, hinner⟩, ?_⟩
        · show ((w.openAs info).modifyBlock w.top _).arena.size ≠ _
          rw [Work.size_modifyBlock, Work.size_openAs]
          exact Nat.succ_ne_self _
        · have hblock : ((w.openAs info).modifyBlock w.top fun b =>
              { b with objects := b.objects.insert y u }).block w.arena.size
                = { parent := some w.top, info := info } := by
            rw [Work.block_modifyBlock_of_ne _ (Nat.ne_of_lt htop), Work.openAs,
              Work.block_modifyBlock_self (by simp), Work.block_openBlock_new htop]
          rw [← Option.some.inj hx]
          refine ⟨(congrArg Block.name hblock).trans (hv.name.trans hxy),
            (congrArg (Block.binding? · w.arena.size) hblock).trans ?_⟩
          rcases hv.header with ⟨f, rfl, -, rfl⟩ | ⟨c, rfl, -, -, rfl, -⟩ <;> rfl
      · exact .inl hx
    · rw [Work.block_modifyBlock_of_ne _ heq, hold] at hx
      exact .inl hx
  | closes => exact .inl hx

/-- Whether a unit has bound no names but those of its contracts and functions. -/
def Work.Owns (w : Work) : Prop := ∀ x v, (w.block w.root).objects.get? x = some v →
  ∃ c ∈ (w.block w.root).children, (w.block c).name = x ∧ (w.block c).binding? c = some v

namespace Titled

/-- The blocks of a unit stay its own. -/
theorem owns_edit (h : Titled a w) (howns : w.Owns) (hedit : Edit s w w') : w'.Owns := by
  have hd := Declaring.edit h.beside h.outside hedit
  intro x v hx
  rcases bound_edit h.beside h.outside hedit hx with hold | ⟨⟨hsize, hinner⟩, hnew⟩
  · obtain ⟨c, hc, hname, hbinding⟩ := howns x v hold
    obtain ⟨hname', hbinding'⟩ := hd.title c (h.lt hc)
    refine ⟨c, ?_, hname'.trans hname, hbinding'.trans hbinding⟩
    rcases hd.children with ⟨hsame, -⟩ | ⟨hmore, -⟩
    · exact hsame ▸ hc
    · exact hmore ▸ Array.mem_push_of_mem _ hc
  · rcases hd.children with ⟨-, hsame⟩ | ⟨hmore, -⟩
    · exact absurd hinner (hsame.resolve_left hsize)
    · exact ⟨w.arena.size, hmore ▸ Array.mem_push_self, hnew⟩

theorem owns (h : Titled a w) (howns : w.Owns) (hedits : Edits s w w') : w'.Owns := by
  induction hedits with
  | refl => exact howns
  | tail hold hedit ih => exact (h.edits hold).owns_edit ih hedit

end Titled

/-- A unit that is about to be compiled has bound nothing. -/
theorem Work.owns_start (a : Arena) :
    Work.Owns { arena := a.push { parent := none }, root := a.size } := by
  intro x v hx
  rw [block, Arena.block_push, if_pos rfl, Dict.get?_empty] at hx
  cases hx

/-! ### What a unit has declared -/

/-- Whether a unit has declared the same contracts and functions in two works. -/
structure Keeps (w w' : Work) : Prop where
  children : (w'.block w'.root).children = (w.block w.root).children
  title : ∀ c ∈ (w.block w.root).children,
    (w'.block c).name = (w.block c).name ∧ (w'.block c).binding? c = (w.block c).binding? c

namespace Keeps

theorem refl (w : Work) : Keeps w w := ⟨rfl, fun _ _ => ⟨rfl, rfl⟩⟩

theorem trans {w'' : Work} (h : Keeps w w') (h' : Keeps w' w'') : Keeps w w'' := by
  refine ⟨h'.children.trans h.children, fun c hc => ?_⟩
  have hc' : c ∈ (w'.block w'.root).children := h.children ▸ hc
  exact ⟨(h'.title c hc').1.trans (h.title c hc).1, (h'.title c hc').2.trans (h.title c hc).2⟩

end Keeps

namespace Titled

/-- A unit declares something only where a block is opened in it. -/
theorem keeps_edit (h : Titled a w) (hedit : Edit s w w')
    (hsame : w'.arena.size = w.arena.size ∨ w.inner ≠ []) : Keeps w w' := by
  have hd := Declaring.edit h.beside h.outside hedit
  refine ⟨?_, fun c hc => hd.title c (h.lt hc)⟩
  rcases hd.children with ⟨hchildren, -⟩ | ⟨-, ⟨hsize, hinner⟩, -⟩
  · exact hchildren
  · exact absurd hinner (hsame.resolve_left hsize)

/-- Edits that add no block declare nothing. -/
theorem keeps (h : Titled a w) (hedits : Edits s w w') (hsize : w'.arena.size = w.arena.size) :
    Keeps w w' := by
  induction hedits with
  | refl => exact .refl w
  | tail hold hedit ih =>
    have hbefore := h.edits hold
    have hfirst := Edits.size_le hold
    have hlast := hedit.size_le
    exact (ih (by omega)).trans (hbefore.keeps_edit hedit (.inl (by omega)))

/-- Opening a block inside another one declares nothing. -/
theorem keeps_entered (h : Titled a w) (hentered : Entered s w w') (hinner : w.inner ≠ []) :
    Keeps w w' := by
  obtain ⟨w₁, hedit, -, -, -, hchanges⟩ := hentered
  exact (h.keeps_edit hedit (.inr hinner)).trans
    ((h.edit hedit).keeps hchanges.edits hchanges.size)

/-- Opening a block in the unit itself declares it behind what has been declared before. -/
theorem children_entered (h : Titled a w) (hentered : Entered s w w') (hinner : w.inner = []) :
    (w'.block w'.root).children = (w.block w.root).children.push w.arena.size ∧
      ∀ c ∈ (w.block w.root).children,
        (w'.block c).name = (w.block c).name ∧ (w'.block c).binding? c
          = (w.block c).binding? c := by
  obtain ⟨w₁, hedit, -, hsize, -, hchanges⟩ := hentered
  have hd := Declaring.edit h.beside h.outside hedit
  have hkeeps := (h.edit hedit).keeps hchanges.edits hchanges.size
  have hmore : (w₁.block w₁.root).children = (w.block w.root).children.push w.arena.size := by
    rcases hd.children with ⟨-, hsame⟩ | ⟨hmore, -⟩
    · rcases hsame with hsame | hne
      · omega
      · exact absurd hinner hne
    · exact hmore
  refine ⟨hkeeps.children.trans hmore, fun c hc => ?_⟩
  have htitle := hd.title c (h.lt hc)
  have hc' : c ∈ (w₁.block w₁.root).children := by
    rw [hmore]
    exact Array.mem_push.2 (.inl hc)
  exact ⟨(hkeeps.title c hc').1.trans htitle.1, (hkeeps.title c hc').2.trans htitle.2⟩

end Titled

/-! ### The header of a function -/

/-- The name of a function that starts a unit has been bound by one edit. -/
theorem edit_named (a : Arena) (x : String) :
    Edit s (Structured.blank a) (Structured.named a x) ∧
      ((Structured.named a x).block a.size).objects.get? x = some (.func (a.size + 1)) := by
  have hsize : (Structured.blank a).arena.size = a.size + 1 := by simp [Structured.blank]
  refine ⟨?_, ?_⟩
  · have hdeclares : Declares (Structured.blank a) x (.func { name := x, id := 0 })
        (.func (Structured.blank a).arena.size) := by
      refine ⟨?_, rfl, .inl ⟨_, rfl, ⟨rfl, rfl, rfl⟩, rfl⟩⟩
      rw [show (Structured.blank a).top = a.size from rfl, Structured.block_blank, Dict.get?_empty]
    rw [Structured.named, Work.modifyTop, Work.top_openBlock, ← hsize]
    exact .declares x hdeclares
  · have hlt : a.size < ((Structured.blank a).openBlock.modifyTop fun b =>
        { b with info := .func { name := x, id := 0 } }).arena.size := by
      rw [Work.modifyTop, Work.size_modifyBlock, Work.size_openBlock, hsize]
      exact Nat.lt_succ_of_lt (Nat.lt_succ_self _)
    rw [Structured.named, Work.block_modifyBlock_self hlt, Dict.get?_insert, if_pos rfl]

/-- A unit that compiles ends with the work that reading its lexemes leaves. -/
theorem leads_unit (s : Source) (w : Work) :
    Leads w (unit s) fun _ w' => readAll s (4 * (s.lexemes.size + 1)) {} w = .ok () w' :=
  .bind (P := fun _ w' => readAll s (4 * (s.lexemes.size + 1)) {} w = .ok () w') (fun _ _ h => h)
    fun _ _ h => .get (.ite (fun _ => .throw_bind _) fun _ =>
      .ite (fun _ => .throw _) fun _ => .pure h)

/-- A unit that starts with a function's header goes on behind the header. -/
theorem readAll_of_header {x : String} {rest : List Token}
    (hts : Structured.TokensAt s 0 (.keyword .func :: .ident x :: rest))
    (hrun : readAll s (4 * (s.lexemes.size + 1)) {} (Structured.blank a) = .ok () w) :
    ∃ fuel fork, readAll s fuel ⟨.funcParams, fork, 2⟩ (Structured.named a x) = .ok () w := by
  obtain ⟨fork, k, hk, hread⟩ := Structured.reads_named a hts 0
  obtain ⟨fuel, hfuel⟩ := Nat.exists_eq_add_of_le' (show k ≤ 4 * (s.lexemes.size + 1) by omega)
  rw [hfuel] at hrun
  exact ⟨fuel, fork, (hread fuel).symm.trans hrun⟩

end Compile

/-- **A unit knows its contracts and functions by their names**, and notes none of them twice. -/
theorem Arena.compile_titled {a a' : Arena} {scope : Scope} {text : String} {root : BlockId}
    (h : a.compile scope text = .ok (root, a')) :
    (∀ c ∈ (a'.block root).children, ∀ v, (a'.block c).binding? c = some v →
        (a'.block root).objects.get? (a'.block c).name = some v) ∧
      (a'.block root).children.toList.Nodup := by
  obtain ⟨rfl, lexemes, -, w, rfl, -, hedits, -⟩ := compile_edits h
  have htitled := (Compile.Titled.start a).edits hedits
  have hroot : w.root = a.size := (Compile.Titled.start a).root_eq hedits
  rw [← hroot]
  exact ⟨htitled.named, htitled.distinct⟩

/-- **A unit that starts with the header of a function binds the function's name** to its first
block. -/
theorem Arena.compile_header {a a' : Arena} {scope : Scope} {text x : String} {root : BlockId}
    {lexemes : Array Lexeme} (h : a.compile scope text = .ok (root, a'))
    (hread : Lexeme.read text = .ok lexemes)
    (hheader : [.keyword .func, .ident x] <+: lexemes.toList.map Lexeme.token) :
    (a'.block root).objects.get? x = some (.func (a.size + 1)) := by
  obtain ⟨rfl, lexemes', w, hread', hunit, rfl⟩ := unit_of_compile h
  cases hread.symm.trans hread'
  obtain ⟨rest, hrest⟩ := hheader
  obtain ⟨fuel, fork, hrun⟩ :=
    Compile.readAll_of_header (s := scope.source lexemes) (x := x) hrest.symm
    (Compile.leads_unit _ _ () w hunit)
  obtain ⟨hedit, hname⟩ := Compile.edit_named (s := scope.source lexemes) a x
  have htitled := (Compile.Titled.start a).edit hedit
  have hedits := (Compile.tends_readAll fuel (c := ⟨.funcParams, fork, 2⟩)
    ⟨.refl, .of_pending (List.cons_ne_nil _ _) rfl _⟩).leads () w hrun
  have hroot := htitled.root_eq hedits
  have hkept := htitled.kept hedits hname
  rwa [hroot] at hkept

end Covenant
