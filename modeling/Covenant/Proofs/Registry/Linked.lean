import Covenant.Proofs.Registry.Writes

/-!
# Numbers of blocks

Names, instructions and contracts refer to blocks by their numbers, and a rollback drops blocks.
Whatever a host does, what its names refer to is there (`Session.Reachable.linked`), and the chained
segments of its functions bind variables that the functions have (`Session.Reachable.fits`). The
blocks that instructions and contracts start are there, too, as is known from the marks
(`Registry.Known.lt_of_starts`).
-/

namespace Covenant

/-! ### Chained segments -/

namespace Compile

/-- Every edit keeps that segments bind variables which are there. -/
theorem editInvariant_fits (s : Source) : EditInvariant s Block.Fits where
  empty _ := .of_func?_eq_none rfl
  children _ hb := hb
  mark := Block.Fits.setWritable
  control _ _ hb := hb
  header hv hb := by
    rcases hv.header with ⟨f, rfl, ⟨-, hsegments, -⟩, -⟩ | ⟨c, rfl, -⟩
    · intro g hg segments hg'
      cases hg
      cases hsegments.symm.trans hg'
    · exact .of_func?_eq_none rfl
  name _ hb := hb
  change _ hedit hb := hedit.fits hb

end Compile

/-- The segments of a function bind variables that it has, whatever is compiled and changed. -/
theorem Block.Fits.invariant : BlockInvariant Block.Fits where
  empty := .of_func?_eq_none rfl
  unit ha hunit := Compile.EditInvariant.compile ha hunit fun _ _ => Compile.editInvariant_fits _
  setId id hb := hb.setId id
  hidden hb := hb.modifyFunc fun _ _ hi => hi

/-- **The chained segments of a host's functions bind variables that the functions have.** -/
theorem Session.Reachable.fits {s : Session} (h : s.Reachable) (id : BlockId) :
    (s.registry.block id).Fits :=
  h.every Block.Fits.invariant id

/-! ### Names -/

/-- Whether what a name stands for has a property, if it is a block. -/
def Binding.Within (P : BlockId → Prop) (v : Binding) : Prop := ∀ id, v.block? = some id → P id

/-- Whether what a name stands for is one of the first blocks, if it is a block. -/
def Binding.Below (n : Nat) (v : Binding) : Prop := v.Within (· < n)

theorem Binding.within_ext (P : BlockId → Prop) (e : Extension) : Binding.Within P (.ext e) := by
  intro id hid
  cases hid

namespace Registry

variable {r r' : Registry}

/-- Whether the blocks that names stand for are there, now and behind every rollback. -/
structure Linked (r : Registry) : Prop where
  now : r.objects.All (Binding.Below r.arena.size)
  points : ∀ p ∈ r.savepoints, p.objects.All (Binding.Below p.blocks)

theorem linked_iff : r.Linked ↔ r.Throughout fun _ p => p.objects.All (Binding.Below p.blocks) :=
  ⟨fun h => ⟨h.now, h.points⟩, fun h => ⟨h.now, h.points⟩⟩

theorem new_linked (limits : Limits) (extensions : List Extension) :
    (Registry.new limits extensions).Linked := by
  have hall : ∀ r : Registry, r.Linked → (extensions.foldl extend r).Linked := by
    induction extensions with
    | nil => exact fun _ h => h
    | cons e es ih => exact fun r h => ih _ ⟨h.now.insert (Binding.within_ext _ e) _, h.points⟩
  exact hall _ ⟨.empty, nofun⟩

/-- A block with a header is there. -/
theorem lt_size_of_header {child : BlockId} {x : String × Nat × Binding}
    (h : (r.block child).header? child = some x) : child < r.arena.size := by
  by_contra hle
  rw [block, Arena.block_of_le (Nat.le_of_not_lt hle)] at h
  cases h

/-- The name of a block that is entered comes to stand for it, the other names for what they did. -/
theorem enter_within {P : BlockId → Prop} (h : r.objects.All (Binding.Within P)) {child : BlockId}
    (hchild : P child) : (r.enter child).objects.All (Binding.Within P) := by
  unfold enter
  split
  · exact h
  · rename_i name id binding hheader
    refine h.insert (fun j hj => ?_) name
    have hself : j = child := by
      unfold Block.header? at hheader
      split at hheader <;> cases hheader <;> cases hj <;> rfl
    exact hself ▸ hchild

/-- The names that blocks are entered under stand for allowed blocks. -/
theorem foldl_enter_within {P : BlockId → Prop} {ids : List BlockId} (hids : ∀ id ∈ ids, P id)
    (h : r.objects.All (Binding.Within P)) :
    (ids.foldl enter r).objects.All (Binding.Within P) := by
  induction ids generalizing r with
  | nil => exact h
  | cons id ids ih =>
    obtain ⟨hid, hids⟩ := List.forall_mem_cons.1 hids
    exact ih hids (enter_within h hid)

/-- A unit that compiles leaves names for what they stood for before, and for its own blocks. -/
theorem compile_within {P : BlockId → Prop} (h : r.objects.All (Binding.Within P)) {state : UInt32}
    {text : String} (hcompile : r.compile state text = .ok r')
    (hnew : ∀ id, r.arena.size ≤ id → id < r'.arena.size → P id) :
    r'.objects.All (Binding.Within P) := by
  obtain ⟨root, arena, hunit, rfl⟩ := compile_eq_ok.1 hcompile
  obtain ⟨rfl, w, rfl, hbeside⟩ := Arena.compile_beside hunit
  have hsize := (foldl_enter_keeps { r with arena := w.arena }
    (w.block r.arena.size).children.toList).2.2.1
  rw [enterUnit, ← Array.foldl_toList] at hnew ⊢
  refine foldl_enter_within (fun id hid => ?_) h
  obtain ⟨hlow, hhigh⟩ := hbeside.children _ (Nat.le_refl _) id (Array.mem_toList_iff.1 hid)
  exact hnew id hlow (Nat.lt_of_lt_of_eq hhigh hsize.symm)

/-- Compiling a unit binds names to blocks that are there. -/
theorem compile_linked (h : r.Linked) {state : UInt32} {text : String}
    (hcompile : r.compile state text = .ok r') : r'.Linked := by
  have hgrew := compile_grew hcompile
  have hold : r.objects.All (Binding.Below r'.arena.size) :=
    h.now.imp fun v hv id hid => Nat.lt_of_lt_of_le (hv id hid) hgrew.arena.le
  exact ⟨compile_within hold hcompile fun _ _ hid => hid, hgrew.savepoints ▸ h.points⟩

/-- A condition is linked when it is compiled. -/
theorem compileEval_linked (h : r.Linked) {state : UInt32} {text : String} {id : BlockId}
    (hcompile : r.compileEval state text = .ok (id, r')) : r'.Linked := by
  have hgrew := compileEval_grew hcompile
  refine ⟨?_, hgrew.savepoints ▸ h.points⟩
  have hobjects : r'.objects = r.objects := by
    rcases compileEval_cases hcompile with rfl | ⟨arena, -, -, rfl⟩ <;> rfl
  rw [hobjects]
  exact h.now.imp fun v hv id hid => Nat.lt_of_lt_of_le (hv id hid) hgrew.arena.le

end Registry

namespace Session

variable {s : Session}

/-- Every operation leaves a linked registry. -/
theorem perform_linked (hsound : s.registry.Sound) (h : s.registry.Linked) (op : Operation) :
    (s.perform op).registry.Linked := by
  have heval : ∀ state text, (s.compileEval state text).2.registry.Linked := by
    intro state text
    rcases s.compileEval_registry state text with hsame | ⟨id, hcompile⟩
    · exact (congrArg Registry.Linked hsame).mpr h
    · exact Registry.compileEval_linked h hcompile
  cases op with
  | extend e => exact ⟨h.now.insert (Binding.within_ext _ e) _, h.points⟩
  | compile state text =>
    show (s.compile state text).2.registry.Linked
    rcases s.compile_registry state text with hsame | hcompile
    · exact (congrArg Registry.Linked hsame).mpr h
    · exact Registry.compile_linked h hcompile
  | compileEval state text => exact heval state text
  | evalIf state text =>
    rcases evalIf_registry s state text with hsame | hsame
    · exact (congrArg Registry.Linked hsame).mpr h
    · exact (congrArg Registry.Linked hsame).mpr (heval state text)
  | savepoint => exact Registry.linked_iff.2 (Registry.linked_iff.1 h).savepoint
  | rollback => exact Registry.linked_iff.2 ((Registry.linked_iff.1 h).rollback hsound)
  | release => exact Registry.linked_iff.2 (Registry.linked_iff.1 h).release
  | run | runContract | provide => exact h
  | configure => exact ⟨h.now, h.points⟩

/-- **The names of a host's registry stand for blocks that are there.** -/
theorem Reachable.linked (h : s.Reachable) : s.registry.Linked := by
  induction h with
  | new limits extensions => exact Registry.new_linked limits extensions
  | perform op hs ih => exact perform_linked hs.sound ih op

end Session

/-! ### What is started -/

namespace Registry

variable {r : Registry} {b c id : BlockId}

/-- The blocks that instructions start are there. -/
theorem Known.lt_of_starts (h : r.Known) {i : Instr} (hi : i ∈ (r.block b).code)
    (hop : i.op.starts? = some id) : id < r.arena.size := by
  have hplaced := h.now.marks.code b i hi
  rcases Op.starts?_eq_some hop with hbody | hfunc
  · exact Arena.lt_size_of_parent (hplaced.body id hbody).1
  · exact Arena.lt_size_of_isFunc (hplaced.callee id hfunc).1

/-- The sections of contracts are there. -/
theorem Known.lt_of_section (h : r.Known) (hc : (r.block c).contract?.isSome)
    (hid : id ∈ Exec.sectionsOf (r.block c)) : id < r.arena.size := by
  obtain ⟨info, hinfo⟩ := Option.isSome_iff_exists.1 hc
  rw [Exec.sectionsOf, List.mem_filterMap] at hid
  obtain ⟨x, -, hx⟩ := hid
  split at hx
  · rename_i f hf
    cases hx
    exact Arena.lt_size_of_isFunc (h.now.sections c _ (Block.standing_of_contract? hinfo) x id hf).1
  · cases hx

/-- The contracts that can be called are there. -/
theorem Linked.lt_of_qualified (h : r.Linked) {name : String}
    (hname : r.qualified? name = some id) :
    id < r.arena.size := by
  unfold qualified? at hname
  split at hname
  · rename_i id' hget
    cases hname
    exact h.now name _ hget id rfl
  · cases hname

end Registry

end Covenant
