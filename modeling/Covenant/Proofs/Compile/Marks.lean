import Covenant.Proofs.Compile.Growth
import Mathlib.Data.List.Chain

/-!
# Marks of writing blocks

A call that may change the database marks all blocks that are open. When a function is called, its
mark is read once, though it may be set later if the function is still open. What the marks say in
the end rests on the nesting of blocks (`Arena.Within`):

* everything around a call of a writing extension is marked;
* everything around a call of a marked function is marked, but for what lies within that function:
  such a call was read before the mark was set;
* a function is called only where it can be seen, so that the functions around it lie around the
  call.

The compiler keeps this (`Compile.Sound`). It follows that no chain of calls leads from a function
that is not marked, and lies in no other function, to a call of a writing extension (`Arena.Safe`).
-/

namespace Covenant

namespace Arena

variable {a a' : Arena} {b c f g : BlockId} {op : Op}

/-! ### Blocks within blocks -/

/-- Whether a block is another one or lies within it. -/
def Within (a : Arena) : BlockId → BlockId → Prop :=
  Relation.ReflTransGen fun c p => (a.block c).parent = some p

theorem lt_size_of_parent (h : (a.block b).parent = some c) : b < a.size := by
  by_contra hle
  rw [block_of_le (Nat.le_of_not_lt hle)] at h
  cases h

theorem lt_size_of_isFunc (h : (a.block b).standing.IsFunc) : b < a.size := by
  by_contra hle
  rw [block_of_le (Nat.le_of_not_lt hle)] at h
  obtain ⟨m, hm⟩ := h
  cases hm

theorem lt_size_of_mem_code {i : Instr} (h : i ∈ (a.block b).code) : b < a.size := by
  by_contra hle
  rw [block_of_le (Nat.le_of_not_lt hle)] at h
  exact absurd h (Array.not_mem_empty i)

namespace Within

theorem total (hf : a.Within b f) (hg : a.Within b g) : a.Within f g ∨ a.Within g f :=
  Relation.ReflTransGen.total_of_right_unique
    (fun _ _ _ h h' => Option.some.inj (h.symm.trans h')) hf hg

theorem le (holder : ∀ id p, (a.block id).parent = some p → p < id) (h : a.Within b f) : f ≤ b := by
  induction h with
  | refl => exact Nat.le_refl _
  | tail _ hparent ih => exact Nat.le_trans (Nat.le_of_lt (holder _ _ hparent)) ih

/-- Blocks lie within each other as before if they keep their parents. -/
theorem of_agree (holder : ∀ id p, (a.block id).parent = some p → p < id)
    (hparent : ∀ id < a.size, (a'.block id).parent = (a.block id).parent) (hb : b < a.size) :
    a'.Within b f ↔ a.Within b f := by
  constructor
  · intro h
    induction h using Relation.ReflTransGen.head_induction_on with
    | refl => exact .refl
    | head hp _ ih =>
      rw [hparent _ hb] at hp
      exact .head hp (ih (Nat.lt_trans (holder _ _ hp) hb))
  · intro h
    induction h using Relation.ReflTransGen.head_induction_on with
    | refl => exact .refl
    | head hp _ ih =>
      refine .head ?_ (ih (Nat.lt_trans (holder _ _ hp) hb))
      rw [hparent _ hb]
      exact hp

end Within

/-! ### Calls and marks -/

/-- What is known of an instruction of a block: the body of a control statement lies in the block, a
function that is called can be seen, and what may change the database has left its mark. -/
structure Placed (a : Arena) (b : BlockId) (op : Op) : Prop where
  body : ∀ c, op.body? = some c → (a.block c).parent = some b ∧ (a.block c).standing = .plain
  callee : ∀ g, op.func? = some g → (a.block g).standing.IsFunc ∧
    ∀ f, a.Within g f → f ≠ g → (a.block f).standing.IsFunc → a.Within b f
  ext : ∀ e, op.extension? = some e → e.canWrite = true →
    ∀ f, a.Within b f → (a.block f).standing.Marked
  func : ∀ g, op.func? = some g → (a.block g).standing.writes = true →
    ∀ f, a.Within b f → (a.block f).standing.Marked ∨ a.Within f g ∧ f ≠ g

/-- Whether the marks of an arena can be relied on. -/
structure Marks (a : Arena) : Prop where
  older : ∀ id p, (a.block id).parent = some p → p < id
  code : ∀ id, ∀ i ∈ (a.block id).code, a.Placed id i.op

/-- What is known of an instruction stays so when blocks are added, and when blocks are changed that
keep their place and standing. -/
theorem Placed.of_agree (h : a.Placed b op)
    (holder : ∀ id p, (a.block id).parent = some p → p < id)
    (hparent : ∀ id < a.size, (a'.block id).parent = (a.block id).parent)
    (hstanding : ∀ id < a.size, (a'.block id).standing = (a.block id).standing) (hb : b < a.size) :
    a'.Placed b op := by
  -- A path upwards stays below the old size, where parents and kinds agree.
  have hwithin : ∀ {b f}, b < a.size → (a'.Within b f ↔ a.Within b f) :=
    fun hb => Within.of_agree holder hparent hb
  have hlt : ∀ {b f}, b < a.size → a.Within b f → f < a.size :=
    fun hb hf => Nat.lt_of_le_of_lt (hf.le holder) hb
  refine ⟨fun c hc => ?_, fun g hg => ?_, fun e he hwrite f hf => ?_, fun g hg hwrite f hf => ?_⟩
  · obtain ⟨hbody, hplain⟩ := h.body c hc
    have hc := lt_size_of_parent hbody
    exact ⟨(hparent c hc).trans hbody, (hstanding c hc).trans hplain⟩
  · obtain ⟨hfunc, hseen⟩ := h.callee g hg
    have hg := lt_size_of_isFunc hfunc
    refine ⟨(hstanding g hg).symm ▸ hfunc, fun f hf hne hf' => (hwithin hb).2 ?_⟩
    rw [hwithin hg] at hf
    rw [hstanding f (hlt hg hf)] at hf'
    exact hseen f hf hne hf'
  · rw [hwithin hb] at hf
    rw [hstanding f (hlt hb hf)]
    exact h.ext e he hwrite f hf
  · have hg' := lt_size_of_isFunc (h.callee g hg).1
    rw [hstanding g hg'] at hwrite
    rw [hwithin hb] at hf
    rw [hstanding f (hlt hb hf), hwithin (hlt hb hf)]
    exact h.func g hg hwrite f hf

/-- Blocks lie within each other as before if all keep their parents. -/
theorem within_congr (hparent : ∀ id, (a'.block id).parent = (a.block id).parent) :
    a'.Within = a.Within := by
  unfold Within
  congr 1
  funext c p
  exact congrArg (· = some p) (hparent c)

/-- What is known of an instruction stays so when some blocks are marked together with all around
them. A function of which the mark is set may only be called from within. -/
theorem Placed.mark (h : a.Placed b op) {ids : List BlockId}
    (hparent : ∀ id, (a'.block id).parent = (a.block id).parent)
    (hstanding : ∀ id, (a'.block id).standing
      = if id ∈ ids then (a.block id).standing.mark else (a.block id).standing)
    (haround : ∀ id ∈ ids, ∀ f, a.Within id f → f ∈ ids)
    (hinside : ∀ g, op.func? = some g → g ∈ ids → a.Within b g) : a'.Placed b op := by
  have hfunc : ∀ id, (a'.block id).standing.IsFunc ↔ (a.block id).standing.IsFunc := by
    intro id
    rw [hstanding]
    split
    · exact Standing.isFunc_mark
    · exact Iff.rfl
  have hmarked : ∀ id, (a.block id).standing.Marked → (a'.block id).standing.Marked := by
    intro id hid
    rw [hstanding]
    split
    · exact hid.mark
    · exact hid
  have hwithin := within_congr hparent
  refine ⟨fun c hc => ?_, fun g hg => ?_, fun e he hwrite f hf => ?_, fun g hg hwrite f hf => ?_⟩
  · obtain ⟨hbody, hplain⟩ := h.body c hc
    refine ⟨(hparent c).trans hbody, (hstanding c).trans ?_⟩
    rw [hplain]
    exact ite_self _
  · rw [hwithin]
    obtain ⟨hcallee, hseen⟩ := h.callee g hg
    exact ⟨(hfunc g).2 hcallee, fun f hf hne hf' => hseen f hf hne ((hfunc f).1 hf')⟩
  · rw [hwithin] at hf
    exact hmarked f (h.ext e he hwrite f hf)
  · rw [hwithin] at hf ⊢
    by_cases hmark : g ∈ ids
    · have hout : a.Within g f → (a'.block f).standing.Marked := by
        intro hgf
        rw [hstanding, if_pos (haround g hmark f hgf)]
        exact Standing.marked_mark _
      -- of what lies around the call, all that is not within the function is marked now
      rcases hf.total (hinside g hg hmark) with hinner | houter
      · rcases eq_or_ne f g with rfl | hne
        · exact .inl (hout .refl)
        · exact .inr ⟨hinner, hne⟩
      · exact .inl (hout houter)
    · rw [hstanding, if_neg hmark] at hwrite
      exact (h.func g hg hwrite f hf).imp_left (hmarked f)

/-! ### Chains of calls -/

/-- Whether a block lies in a function, and all functions around it are unmarked. -/
structure Safe (a : Arena) (b : BlockId) : Prop where
  func : ∃ f, a.Within b f ∧ (a.block f).standing.IsFunc
  unmarked : ∀ f, a.Within b f → (a.block f).standing.IsFunc → (a.block f).standing.writes = false

/-- A block in which everything around is marked is not safe. -/
theorem Safe.not_marked (h : a.Safe b) : ¬ ∀ f, a.Within b f → (a.block f).standing.Marked := by
  intro hmarked
  obtain ⟨f, hf, hfunc⟩ := h.func
  have hwrites := (hmarked f hf).writes hfunc
  rw [h.unmarked f hf hfunc] at hwrites
  cases hwrites

/-- A safe block calls no extension that may change the database. -/
theorem Safe.extension (hb : a.Safe b) (h : a.Placed b op) {e : Extension}
    (he : op.extension? = some e) : e.canWrite = false := by
  by_contra hwrite
  exact hb.not_marked (h.ext e he (by simpa using hwrite))

/-- A function that a safe block calls is unmarked: the call would lie within the function
otherwise. -/
theorem Safe.callee (hb : a.Safe b) (h : a.Placed b op) (hg : op.func? = some g) :
    (a.block g).standing.writes = false := by
  by_contra hwrite
  have hwrite' : (a.block g).standing.writes = true := by simpa using hwrite
  obtain ⟨f, hf, hfunc⟩ := hb.func
  rcases h.func g hg hwrite' f hf with hmarked | ⟨hinside, -⟩
  · have hwrites := hmarked.writes hfunc
    rw [hb.unmarked f hf hfunc] at hwrites
    cases hwrites
  · rw [hb.unmarked g (hf.trans hinside) (h.callee g hg).1] at hwrite'
    cases hwrite'

/-- **What a safe block starts is safe.** -/
theorem Safe.starts (hb : a.Safe b) (h : a.Placed b op) (hc : op.starts? = some c) : a.Safe c := by
  rcases Op.starts?_eq_some hc with hbody | hfunc
  · -- around the body of a control statement there are the same functions
    obtain ⟨hparent, hplain⟩ := h.body c hbody
    refine ⟨?_, fun f hf hfunc => ?_⟩
    · obtain ⟨f, hf, hfunc⟩ := hb.func
      exact ⟨f, .head hparent hf, hfunc⟩
    · rcases hf.cases_head with rfl | ⟨p, hp, hf⟩
      · obtain ⟨m, hm⟩ := hfunc
        rw [hplain] at hm
        cases hm
      · rw [hparent] at hp
        cases hp
        exact hb.unmarked f hf hfunc
  · obtain ⟨hisFunc, hseen⟩ := h.callee c hfunc
    refine ⟨⟨c, .refl, hisFunc⟩, fun f hf hf' => ?_⟩
    by_cases hself : f = c
    · rw [hself]
      exact hb.callee h hfunc
    · exact hb.unmarked f (hseen f hf hself hf') hf'

/-- Whether a block lies in no function but itself. -/
def Outermost (a : Arena) (b : BlockId) : Prop :=
  ∀ f, a.Within b f → f ≠ b → ¬ (a.block f).standing.IsFunc

/-- Whether global functions are functions that lie in no other one. -/
def Globals (a : Arena) (objects : Dict Binding) : Prop :=
  ∀ x g, objects.get? x = some (.func g) → (a.block g).standing.IsFunc ∧ a.Outermost g

theorem Precedes.block (h : a.Precedes a') (hb : b < a.size) : a'.block b = a.block b := by
  rw [Arena.block, Arena.block, Array.getD_eq_getD_getElem?, Array.getD_eq_getD_getElem?, h b hb]

theorem Precedes.within (h : a.Precedes a')
    (holder : ∀ id p, (a'.block id).parent = some p → p < id) (hb : b < a.size) :
    a'.Within b f ↔ a.Within b f := by
  refine Within.of_agree (fun id p hp => ?_) (fun id hid => by rw [h.block hid]) hb
  rw [← h.block (lt_size_of_parent hp)] at hp
  exact holder id p hp

/-- Adding blocks leaves global functions in their place. -/
theorem Globals.grow {objects : Dict Binding} (h : a.Globals objects) (hkept : a.Precedes a')
    (holder : ∀ id p, (a'.block id).parent = some p → p < id) : a'.Globals objects := by
  intro x g hx
  obtain ⟨hfunc, hnone⟩ := h x g hx
  have hg := lt_size_of_isFunc hfunc
  refine ⟨(hkept.block hg).symm ▸ hfunc, fun f hf hne => ?_⟩
  have hf' : f < a.size := Nat.lt_of_le_of_lt (hf.le holder) hg
  rw [hkept.within holder hg] at hf
  rw [hkept.block hf']
  exact hnone f hf hne

end Arena

/-! ### Units under way -/

namespace Compile

namespace Work

variable {w : Work}

theorem head?_opened (w : Work) : w.opened.head? = some w.top := by
  unfold opened top
  cases w.inner <;> rfl

/-- Opens a block with a header. -/
def openAs (w : Work) (info : BlockInfo) : Work :=
  w.openBlock.modifyBlock w.arena.size fun b => { b with info := info }

@[simp] theorem opened_openAs (w : Work) (info : BlockInfo) :
    (w.openAs info).opened = w.arena.size :: w.opened := rfl

@[simp] theorem root_openAs (w : Work) (info : BlockInfo) : (w.openAs info).root = w.root := rfl

@[simp] theorem size_openAs (w : Work) (info : BlockInfo) :
    (w.openAs info).arena.size = w.arena.size + 1 := by
  rw [openAs, size_modifyBlock, size_openBlock]

/-- A block is the new one, or as before but for its children. -/
theorem block_openAs (info : BlockInfo) (h : w.top < w.arena.size) (j : BlockId) :
    j = w.arena.size ∧ (w.openAs info).block j = { parent := some w.top, info := info } ∨
      j ≠ w.arena.size ∧ ∃ children, (w.openAs info).block j
        = { w.block j with children := children } ∧
        ∀ c, c ∈ children ↔ c ∈ (w.block j).children ∨ j = w.top ∧ c = w.arena.size := by
  by_cases hnew : j = w.arena.size
  · subst hnew
    refine .inl ⟨rfl, ?_⟩
    rw [openAs, block_modifyBlock_self (by simp), block_openBlock_new h]
  · refine .inr ⟨hnew, ?_⟩
    rw [openAs, block_modifyBlock_of_ne _ (Ne.symm hnew)]
    by_cases htop : j = w.top
    · subst htop
      exact ⟨_, block_openBlock_top h, fun c => by simp⟩
    · refine ⟨_, ?_, fun c => ⟨.inl, fun hc => hc.resolve_right fun h => htop h.1⟩⟩
      show Arena.block (Array.modify _ _ _) _ = _
      rw [Arena.block_modify_of_ne _ (Ne.symm htop), Arena.block_push, if_neg hnew]
      rfl

theorem openAs_plain (h : w.top < w.arena.size) : w.openAs .plain = w.openBlock := by
  rw [openAs, modifyBlock_congr (g := fun b => b) (by rw [block_openBlock_new h]), modifyBlock,
    Arena.modify_self]

/-- A block is the one that is changed, or as it was. -/
theorem block_modifyBlock_cases (w : Work) (id : BlockId) (f : Block → Block) (b : BlockId) :
    (w.modifyBlock id f).block b = w.block b ∨ id = b ∧
    (w.modifyBlock id f).block b = f (w.block id) := by
  by_cases hb : id = b
  · subst hb
    rcases Nat.lt_or_ge id w.arena.size with hlt | hle
    · exact .inr ⟨rfl, block_modifyBlock_self hlt f⟩
    · refine .inl ?_
      rw [block, block, Arena.block_of_le hle, Arena.block_of_le (by rwa [size_modifyBlock])]
  · exact .inl (block_modifyBlock_of_ne w hb f)

end Work

/-- What edits keep of the blocks that are there: their place, and that they are marked. -/
structure Kept (w w' : Work) : Prop where
  size : w.arena.size ≤ w'.arena.size
  parent : ∀ id < w.arena.size, (w'.block id).parent = (w.block id).parent
  marked : ∀ id < w.arena.size, (w.block id).standing.Marked → (w'.block id).standing.Marked

namespace Kept

variable {a : Arena} {s : Source} {w w' w'' : Work} {id : BlockId}

theorem refl (w : Work) : Kept w w := ⟨Nat.le_refl _, fun _ _ => rfl, fun _ _ h => h⟩

theorem trans (h : Kept w w') (h' : Kept w' w'') : Kept w w'' := by
  have hlt : ∀ {id}, id < w.arena.size → id < w'.arena.size :=
    fun hid => Nat.lt_of_lt_of_le hid h.size
  exact ⟨Nat.le_trans h.size h'.size,
    fun id hid => (h'.parent id (hlt hid)).trans (h.parent id hid), fun id hid hmarked =>
    h'.marked id (hlt hid) (h.marked id hid hmarked)⟩

/-- A change of a block keeps all others, and the block if its parent and its standing stay. -/
theorem modify {f : Block → Block} (hparent : (f (w.block id)).parent = (w.block id).parent)
    (hstanding : (f (w.block id)).standing = (w.block id).standing) :
    Kept w (w.modifyBlock id f) := by
  have hblock := w.block_modifyBlock_cases id f
  refine ⟨Nat.le_of_eq (Work.size_modifyBlock ..).symm, fun j hj => ?_, fun j hj hmarked => ?_⟩
  · rcases hblock j with hb | ⟨rfl, hb⟩ <;> rw [hb]
    exact hparent
  · rcases hblock j with hb | ⟨rfl, hb⟩ <;> rw [hb]
    · exact hmarked
    · rwa [hstanding]

/-- A mark does not change what blocks are. -/
theorem setWritable (w : Work) : Kept w w.setWritable := by
  refine ⟨Nat.le_of_eq (Work.size_setWritable w).symm, fun id _ => ?_, fun id _ hmarked => ?_⟩ <;>
    rw [Work.block_setWritable] <;> split
  · rw [Block.setWritable_eq]
  · rfl
  · rw [Block.standing_setWritable]
    exact hmarked.mark
  · exact hmarked

/-- A block that is opened is new, and those that were there are kept. -/
theorem openAs (h : w.top < w.arena.size) (info : BlockInfo) : Kept w (w.openAs info) := by
  have hblock : ∀ id < w.arena.size, ∃ children,
      (w.openAs info).block id = { w.block id with children := children } := by
    intro id hid
    obtain ⟨hnew, -⟩ | ⟨-, children, hb, -⟩ := Work.block_openAs info h id
    · exact absurd hnew (Nat.ne_of_lt hid)
    · exact ⟨children, hb⟩
  refine ⟨by simp, fun id hid => ?_, fun id hid hmarked => ?_⟩
  · obtain ⟨children, hb⟩ := hblock id hid
    rw [hb]
  · obtain ⟨children, hb⟩ := hblock id hid
    rw [hb]
    exact hmarked

theorem openBlock (h : w.top < w.arena.size) : Kept w w.openBlock :=
  Work.openAs_plain h ▸ openAs h .plain

/-- An edit keeps what blocks are. -/
theorem edit (h : Beside a w) (hedit : Edit s w w') : Kept w w' := by
  have htop := (h.opened w.top (top_mem_opened w)).2
  cases hedit with
  | note harena =>
    have hblock : w'.block = w.block := by
      funext id
      rw [Work.block, Work.block, harena]
    exact ⟨Nat.le_of_eq (congrArg Array.size harena.symm), fun _ _ => by rw [hblock],
      fun _ _ h => by rwa [hblock]⟩
  | block _ hblock => exact modify hblock.parent hblock.standing
  | marks => exact setWritable w
  | opens => exact openBlock htop
  | control => exact (openBlock htop).trans (modify rfl rfl)
  | declares => exact (openAs htop _).trans (modify rfl rfl)
  | closes => exact ⟨Nat.le_refl _, fun _ _ => rfl, fun _ _ h => h⟩

theorem edits (h : Beside a w) (hedits : Edits s w w') : Kept w w' := by
  induction hedits with
  | refl => exact refl w
  | tail hold hedit ih => exact ih.trans (edit (h.edits hold) hedit)

end Kept

/-- What is known of a unit under way behind an arena. -/
structure Sound (a : Arena) (w : Work) : Prop where
  beside : Beside a w
  marks : w.arena.Marks
  root : w.root = a.size
  rootParent : (w.block w.root).parent = none
  rootPlain : (w.block w.root).standing = .plain
  /-- Every open block is the parent of the one that was opened inside it. -/
  chain : w.opened.IsChain fun c p => (w.block c).parent = some p
  children : ∀ id p, a.size ≤ p → ((w.block id).parent = some p ↔ id ∈ (w.block p).children)
  contracts : ∀ id m, a.size ≤ id → (w.block id).standing = .contract m →
    (w.block id).parent = some w.root
  bound : ∀ id, a.size ≤ id → ∀ x g, (w.block id).objects.get? x = some (.func g) →
    (w.block g).parent = some id ∧ (w.block g).standing.IsFunc
  /-- An open function is called from within only. -/
  inside : ∀ id, ∀ i ∈ (w.block id).code, ∀ g, i.op.func? = some g → g ∈ w.opened →
    w.arena.Within id g
  /-- What lies around a marked block is marked with it. -/
  outward : ∀ id p, a.size ≤ id → (w.block id).parent = some p →
    (w.block id).standing.writes = true → (w.block p).standing.Marked

namespace Sound

variable {a : Arena} {s : Source} {w w' : Work} {id f g : BlockId}

theorem lt_size (h : Sound a w) (hid : id ∈ w.opened) : id < w.arena.size :=
  (h.beside.opened id hid).2

/-- The open blocks are the innermost one and those around it. -/
theorem mem_opened_iff (h : Sound a w) : f ∈ w.opened ↔ w.arena.Within w.top f := by
  have hall : ∀ inner : List BlockId,
      (inner ++ [w.root]).IsChain (fun c p => (w.block c).parent = some p) →
      (f ∈ inner ++ [w.root] ↔ w.arena.Within (inner.head?.getD w.root) f) := by
    intro inner
    -- the open blocks form a chain of parents, which is climbed from the innermost one
    induction inner with
    | nil =>
      intro _
      constructor
      · intro hf
        rw [List.mem_singleton.1 hf]
        exact .refl
      · intro hf
        rcases hf.cases_head with rfl | ⟨p, hp, -⟩
        · exact List.mem_singleton.2 rfl
        · -- nothing is around the root
          cases h.rootParent.symm.trans hp
    | cons c rest ih =>
      intro hchain
      have hhead : (w.block c).parent = some (rest.head?.getD w.root) := by
        cases rest with
        | nil => exact (List.isChain_cons_cons.1 hchain).1
        | cons c' rest' => exact (List.isChain_cons_cons.1 hchain).1
      have hrest := ih hchain.tail
      constructor
      · intro hf
        rcases List.mem_cons.1 hf with rfl | hf
        · exact .refl
        · exact .head hhead (hrest.1 hf)
      · intro hf
        rcases hf.cases_head with rfl | ⟨p, hp, hf⟩
        · exact List.mem_cons_self ..
        · cases hhead.symm.trans hp
          exact List.mem_cons_of_mem _ (hrest.2 hf)
  exact hall w.inner h.chain

theorem opened_of_within (h : Sound a w) (hid : id ∈ w.opened) (hf : w.arena.Within id f) :
    f ∈ w.opened :=
  h.mem_opened_iff.2 ((h.mem_opened_iff.1 hid).trans hf)

/-- The functions around a function that can be found lie around the innermost block. -/
theorem visible (h : Sound a w) (hglobals : a.Globals s.globals) (hg : w.Finds s g) :
    ((w.block g).standing.IsFunc ∧
      ∀ f, w.arena.Within g f → f ≠ g → (w.block f).standing.IsFunc → w.arena.Within w.top f) ∧
    (g ∈ w.opened → w.arena.Within w.top g) := by
  refine ⟨?_, h.mem_opened_iff.1⟩
  rcases hg with ⟨id, hid, x, hx⟩ | ⟨x, hx⟩
  · obtain ⟨hparent, hfunc⟩ := h.bound id (h.beside.opened id hid).1 x g hx
    refine ⟨hfunc, fun f hf hne _ => ?_⟩
    rcases hf.cases_head with rfl | ⟨p, hp, hf⟩
    · exact absurd rfl hne
    · cases hparent.symm.trans hp
      exact (h.mem_opened_iff.1 hid).trans hf
  · -- a global function is one of the blocks before the unit, which it leaves alone
    obtain ⟨hfunc, hnone⟩ := hglobals.grow h.beside.kept h.marks.older x g hx
    exact ⟨hfunc, fun f hf hne hf' => absurd hf' (hnone f hf hne)⟩

/-- An instruction that may be added fits in. -/
theorem placed (h : Sound a w) (hglobals : a.Globals s.globals) (hid : id ∈ w.opened) {op : Op}
    (hop : Admits s w id op) : w.arena.Placed id op ∧
      ∀ g, op.func? = some g → g ∈ w.opened → w.arena.Within id g := by
  have hmarked : w.Marked → ∀ f, w.arena.Within id f → (w.block f).standing.Marked :=
    fun hmarked f hf => hmarked f (h.opened_of_within hid hf)
  refine ⟨⟨fun c hc => ?_, fun g hg => ?_, fun e he hwrite => hmarked (hop.writes e he hwrite),
    fun g hg hwrite f hf => ?_⟩, fun g hg hopen => ?_⟩
  · rw [hop.body?] at hc
    cases hc
  · obtain ⟨rfl, hfinds, -⟩ := hop.calls g hg
    exact (h.visible hglobals hfinds).1
  · obtain ⟨-, -, hmark⟩ := hop.calls g hg
    exact .inl (hmarked (hmark ((Block.canWrite_eq _).trans hwrite)) f hf)
  · obtain ⟨rfl, hfinds, -⟩ := hop.calls g hg
    exact (h.visible hglobals hfinds).2 hopen

/-! #### What the edits keep -/

/-- Changing an open block in its place keeps what is known, if what is added to it fits in. -/
theorem modify (h : Sound a w) {f : Block → Block} (hid : id ∈ w.opened)
    (hbeside : Beside a (w.modifyBlock id f))
    (hparent : (f (w.block id)).parent = (w.block id).parent)
    (hchildren : (f (w.block id)).children = (w.block id).children)
    (hstanding : (f (w.block id)).standing = (w.block id).standing)
    (hcode : ∀ i ∈ (f (w.block id)).code, i ∈ (w.block id).code ∨ w.arena.Placed id i.op ∧
      ∀ g, i.op.func? = some g → g ∈ w.opened → w.arena.Within id g)
    (hobjects : ∀ x g, (f (w.block id)).objects.get? x = some (.func g) →
      (w.block id).objects.get? x = some (.func g) ∨
        (w.block g).parent = some id ∧ (w.block g).standing.IsFunc) :
    Sound a (w.modifyBlock id f) := by
  have hlt := h.lt_size hid
  -- what is around a block and what it stands for depend on parents and standings, which stay
  have hblock : ∀ j, (w.modifyBlock id f).block j = w.block j ∨
      j = id ∧ (w.modifyBlock id f).block j = f (w.block id) := by
    intro j
    by_cases hj : id = j
    · subst hj
      exact .inr ⟨rfl, Work.block_modifyBlock_self hlt f⟩
    · exact .inl (Work.block_modifyBlock_of_ne w hj f)
  have hparents : ∀ j, ((w.modifyBlock id f).block j).parent = (w.block j).parent := by
    intro j
    rcases hblock j with hj | ⟨rfl, hj⟩ <;> rw [hj]
    exact hparent
  have hstandings : ∀ j, ((w.modifyBlock id f).block j).standing = (w.block j).standing := by
    intro j
    rcases hblock j with hj | ⟨rfl, hj⟩ <;> rw [hj]
    exact hstanding
  have hplaced : ∀ j, ∀ i ∈ ((w.modifyBlock id f).block j).code, w.arena.Placed j i.op ∧
      ∀ g, i.op.func? = some g → g ∈ w.opened → w.arena.Within j g := by
    intro j i hi
    rcases hblock j with hj | ⟨rfl, hj⟩ <;> rw [hj] at hi
    · exact ⟨h.marks.code j i hi, h.inside j i hi⟩
    · rcases hcode i hi with hold | hnew
      · exact ⟨h.marks.code j i hold, h.inside j i hold⟩
      · exact hnew
  have hsize : ∀ {j}, ∀ i ∈ ((w.modifyBlock id f).block j).code, j < w.arena.size := by
    intro j i hi
    have hj := Arena.lt_size_of_mem_code hi
    rwa [Work.size_modifyBlock] at hj
  have hwithin : ∀ {j f'}, j < w.arena.size →
      ((w.modifyBlock id f).arena.Within j f' ↔ w.arena.Within j f') :=
    fun hj => Arena.Within.of_agree h.marks.older (fun j _ => hparents j) hj
  -- code and names are looked at block by block: those of the changed one are old or allowed
  exact {
    beside := hbeside
    marks.older j p hp := h.marks.older j p ((hparents j).symm.trans hp)
    marks.code j i hi := (hplaced j i hi).1.of_agree h.marks.older (fun j _ => hparents j)
      (fun j _ => hstandings j) (hsize i hi)
    root := h.root
    rootParent := (hparents w.root).trans h.rootParent
    rootPlain := (hstandings w.root).trans h.rootPlain
    chain := h.chain.imp fun c p hp => (hparents c).trans hp
    children j p hp := by
      rw [hparents, h.children j p hp]
      rcases hblock p with hp | ⟨rfl, hp⟩ <;> rw [hp]
      rw [hchildren]
    contracts j m hj hm := (hparents j).trans (h.contracts j m hj ((hstandings j).symm.trans hm))
    bound j hj x g hx := by
      rw [hparents, hstandings]
      rcases hblock j with hj' | ⟨rfl, hj'⟩ <;> rw [hj'] at hx
      · exact h.bound j hj x g hx
      · exact (hobjects x g hx).elim (h.bound j hj x g) id
    inside j i hi g hg hopen := (hwithin (hsize i hi)).2 ((hplaced j i hi).2 g hg hopen)
    outward j p hj hp hwrite := by
      rw [hparents] at hp
      rw [hstandings] at hwrite ⊢
      exact h.outward j p hj hp hwrite }

/-- Marking the open blocks keeps what is known, for an open function is called from within only. -/
theorem setWritable (h : Sound a w) : Sound a w.setWritable := by
  have hsame : ∀ j, w.setWritable.block j
    = { w.block j with info := (w.setWritable.block j).info } := by
    intro j
    rw [Work.block_setWritable]
    split
    · exact Block.setWritable_eq _
    · rfl
  have hparents : ∀ j, (w.setWritable.block j).parent = (w.block j).parent := fun j => by rw [hsame]
  have hcode : ∀ j, (w.setWritable.block j).code = (w.block j).code := fun j => by rw [hsame]
  have hstandings : ∀ j, (w.setWritable.block j).standing
      = if j ∈ w.opened then (w.block j).standing.mark else (w.block j).standing := by
    intro j
    rw [Work.block_setWritable]
    split
    · exact Block.standing_setWritable _
    · rfl
  exact {
    beside := h.beside.setWritable
    marks.older j p hp := h.marks.older j p ((hparents j).symm.trans hp)
    marks.code j i hi := by
      change i ∈ (w.setWritable.block j).code at hi
      rw [hcode] at hi
      exact (h.marks.code j i hi).mark hparents hstandings (fun _ hid _ => h.opened_of_within hid)
        (h.inside j i hi)
    root := by rw [Work.root_setWritable, h.root]
    rootParent := by rw [Work.root_setWritable, hparents, h.rootParent]
    rootPlain := by
      rw [Work.root_setWritable, hstandings, h.rootPlain]
      exact ite_self _
    chain := by
      rw [Work.opened_setWritable]
      exact h.chain.imp fun c p hp => (hparents c).trans hp
    children j p hp := by
      rw [hparents, hsame]
      exact h.children j p hp
    contracts j m hj hm := by
      rw [Work.root_setWritable, hparents]
      rw [hstandings] at hm
      split at hm
      · obtain ⟨m', hm'⟩ := Standing.of_mark_eq_contract hm
        exact h.contracts j m' hj hm'
      · exact h.contracts j m hj hm
    bound j hj x g hx := by
      rw [hsame] at hx
      obtain ⟨hparent, hfunc⟩ := h.bound j hj x g hx
      refine ⟨(hparents g).trans hparent, ?_⟩
      rw [hstandings]
      split
      · exact Standing.isFunc_mark.2 hfunc
      · exact hfunc
    inside j i hi g hg hopen := by
      rw [hcode] at hi
      rw [Work.opened_setWritable] at hopen
      rw [Arena.within_congr hparents]
      exact h.inside j i hi g hg hopen
    outward j p hj hp hwrite := by
      rw [hparents] at hp
      rw [hstandings] at hwrite ⊢
      split at hwrite
      · -- the block is open, and so is what lies around it
        rename_i hopen
        rw [if_pos (h.opened_of_within hopen (.single hp))]
        exact Standing.marked_mark _
      · have hmarked := h.outward j p hj hp hwrite
        split
        · exact hmarked.mark
        · exact hmarked }

/-- Opening a block with a header keeps what is known, if a contract is opened in the unit
itself. -/
theorem openAs (h : Sound a w) {info : BlockInfo}
    (hcontract : ∀ c, info = .contract c → w.inner = [])
    (hfresh : (Block.standing { parent := some w.top, info := info }).writes = false) :
    Sound a (w.openAs info) := by
  have hbeside : Beside a (w.openAs info) :=
    h.beside.opens.modify (List.mem_cons_self ..) rfl fun _ _ hv => .inl hv
  have htop := h.lt_size (top_mem_opened w)
  have hblock := Work.block_openAs info htop
  have hparents : ∀ j ≠ w.arena.size, ((w.openAs info).block j).parent = (w.block j).parent := by
    intro j hj
    obtain ⟨hnew, -⟩ | ⟨-, children, hb, -⟩ := hblock j
    · exact absurd hnew hj
    · rw [hb]
  have hstandings : ∀ j ≠ w.arena.size,
      ((w.openAs info).block j).standing = (w.block j).standing := by
    intro j hj
    obtain ⟨hnew, -⟩ | ⟨-, children, hb, -⟩ := hblock j
    · exact absurd hnew hj
    · rw [hb]
      rfl
  have hcode : ∀ j, ∀ i ∈ ((w.openAs info).block j).code, i ∈ (w.block j).code := by
    intro j i hi
    obtain ⟨-, hb⟩ | ⟨-, children, hb, -⟩ := hblock j <;> rw [hb] at hi
    · exact absurd hi (Array.not_mem_empty i)
    · exact hi
  have hparent : ∀ j p, ((w.openAs info).block j).parent = some p →
      j = w.arena.size ∧ p = w.top ∨ (w.block j).parent = some p := by
    intro j p hp
    obtain ⟨rfl, hb⟩ | ⟨-, children, hb, -⟩ := hblock j <;> rw [hb] at hp
    · exact .inl ⟨rfl, (Option.some.inj hp).symm⟩
    · exact .inr hp
  have hnew : ((w.openAs info).block w.arena.size).parent = some w.top := by
    obtain ⟨-, hb⟩ | ⟨hold, -⟩ := hblock w.arena.size
    · rw [hb]
    · exact absurd rfl hold
  have hne : ∀ {j}, j < w.arena.size → j ≠ w.arena.size := Nat.ne_of_lt
  have hroot : w.root ≠ w.arena.size :=
    hne (h.lt_size (List.mem_append_right _ (List.mem_singleton.2 rfl)))
  refine {
    beside := hbeside
    marks.older := fun j p hp => ?older
    marks.code := fun j i hi => ?code
    root := h.root
    rootParent := (hparents _ hroot).trans h.rootParent
    rootPlain := (hstandings _ hroot).trans h.rootPlain
    chain := ?chain
    children := fun j p hp => ?children
    contracts := fun j m hj hm => ?contracts
    bound := fun j hj x g hx => ?bound
    inside := fun j i hi g hg hopen => ?inside
    outward := fun j p hj hp hwrite => ?outward }
  case older =>
    rcases hparent j p hp with ⟨rfl, rfl⟩ | hp
    · exact htop
    · exact h.marks.older j p hp
  case code =>
    have hi := hcode j i hi
    exact (h.marks.code j i hi).of_agree h.marks.older (fun j hj => hparents j (hne hj))
      (fun j hj => hstandings j (hne hj)) (Arena.lt_size_of_mem_code hi)
  case chain =>
    have hchain : w.opened.IsChain fun c p => ((w.openAs info).block c).parent = some p :=
      h.chain.imp fun c p hp => (hparents c (hne (Arena.lt_size_of_parent hp))).trans hp
    rw [Work.opened_openAs]
    refine hchain.cons fun p hp => ?_
    rw [Work.head?_opened, Option.mem_some_iff] at hp
    rw [hnew, hp]
  case children =>
    obtain ⟨rfl, hb⟩ | ⟨-, children, hb, hchildren⟩ := hblock p <;> rw [hb]
    · -- nothing lies in the new block
      refine ⟨fun hj => ?_, fun hj => absurd hj (Array.not_mem_empty j)⟩
      rcases hparent j _ hj with ⟨-, heq⟩ | hj
      · exact absurd heq.symm (hne htop)
      · exact absurd (h.marks.older j _ hj)
          (Nat.not_lt.2 (Nat.le_of_lt (Arena.lt_size_of_parent hj)))
    · rw [hchildren, ← h.children j p hp]
      constructor
      · intro hj
        exact (hparent j p hj).symm.imp_right fun hnew => ⟨hnew.2, hnew.1⟩
      · rintro (hj | ⟨rfl, rfl⟩)
        · exact (hparents j (hne (Arena.lt_size_of_parent hj))).trans hj
        · exact hnew
  case contracts =>
    obtain ⟨rfl, hb⟩ | ⟨-, children, hb, -⟩ := hblock j <;> rw [hb] at hm ⊢
    · obtain ⟨c, hc⟩ := Block.contract_of_standing hm
      rw [Work.top, hcontract c hc]
      rfl
    · exact h.contracts j m hj hm
  case bound =>
    obtain ⟨-, hb⟩ | ⟨-, children, hb, -⟩ := hblock j <;> rw [hb] at hx
    · rw [Dict.get?_empty] at hx
      cases hx
    · obtain ⟨hg, hfunc⟩ := h.bound j hj x g hx
      have hg' := hne (Arena.lt_size_of_parent hg)
      exact ⟨(hparents g hg').trans hg, (hstandings g hg').symm ▸ hfunc⟩
  case inside =>
    have hi := hcode j i hi
    have hg' := Arena.lt_size_of_isFunc ((h.marks.code j i hi).callee g hg).1
    rcases List.mem_cons.1 hopen with rfl | hopen
    · exact absurd hg' (Nat.lt_irrefl _)
    · exact (Arena.Within.of_agree h.marks.older (fun j hj => hparents j (hne hj))
        (Arena.lt_size_of_mem_code hi)).2 (h.inside j i hi g hg hopen)
  case outward =>
    obtain ⟨-, hb⟩ | ⟨hold, children, hb, -⟩ := hblock j
    · -- a block is opened without a mark
      rw [hb, hfresh] at hwrite
      cases hwrite
    · rw [hb] at hp hwrite
      have hp' := Nat.lt_trans (h.marks.older j p hp) (Arena.lt_size_of_parent hp)
      rw [hstandings p (hne hp')]
      exact h.outward j p hj hp hwrite

theorem openBlock (h : Sound a w) : Sound a w.openBlock := by
  rw [← Work.openAs_plain (h.lt_size (top_mem_opened w))]
  exact h.openAs (fun c hc => by cases hc) rfl

/-- A sound work is sound without its innermost block, whose uses are noted by then. -/
theorem closes (h : Sound a w) (hbeside : Beside a { w with inner := w.inner.tail }) :
    Sound a { w with inner := w.inner.tail } := by
  have hsub : ∀ id ∈ w.inner.tail ++ [w.root], id ∈ w.inner ++ [w.root] := by
    intro id hid
    rcases List.mem_append.1 hid with hinner | hroot
    · exact List.mem_append_left _ (List.mem_of_mem_tail hinner)
    · exact List.mem_append_right _ hroot
  refine { h with
    beside := hbeside, chain := ?_
    inside := fun id i hi g hg hopen => h.inside id i hi g hg (hsub g hopen) }
  have hchain := h.chain
  unfold Work.opened at hchain ⊢
  cases hinner : w.inner with
  | nil =>
    rw [hinner] at hchain
    exact hchain
  | cons id ids =>
    rw [hinner] at hchain
    exact hchain.tail

/-- **Every edit keeps what is known.** -/
theorem edit (h : Sound a w) (hglobals : a.Globals s.globals) (hedit : Edit s w w') :
    Sound a w' := by
  have hbeside := h.beside.edit hedit
  have htop := h.lt_size (top_mem_opened w)
  cases hedit with
  | note harena hroot hinner =>
    obtain ⟨arena, root, inner⟩ := w
    obtain ⟨arena', root', inner'⟩ := w'
    cases harena
    cases hroot
    cases hinner
    exact { h with beside := hbeside }
  | block hid hblock =>
    refine h.modify hid hbeside hblock.parent hblock.children hblock.standing (fun i hi => ?_)
      fun x g hx => .inl ?_
    · exact (hblock.code i hi).imp_right (h.placed hglobals hid)
    · exact (hblock.objects x _ hx).resolve_right fun hbound => hbound
  | marks => exact h.setWritable
  | opens => exact h.openBlock
  | @control op line hop =>
    obtain ⟨-, -, hext, hfunc⟩ := Op.of_body? (hop w.arena.size)
    refine h.openBlock.modify (List.mem_cons_of_mem _ (top_mem_opened w)) hbeside rfl rfl rfl
      (fun i hi => ?_) fun _ _ hx => .inl hx
    rcases Array.mem_push.1 hi with hold | rfl
    · exact .inl hold
    · have hnew := Work.block_openBlock_new htop
      refine .inr ⟨⟨fun c hc => ?_, fun g hg => ?_, fun e he => ?_, fun g hg => ?_⟩, fun g hg => ?_⟩
      · cases (hop _).symm.trans hc
        change (w.openBlock.block _).parent = _ ∧ (w.openBlock.block _).standing = _
        rw [hnew]
        exact ⟨rfl, rfl⟩
      · cases hfunc.symm.trans hg
      · cases hext.symm.trans he
      · cases hfunc.symm.trans hg
      · cases hfunc.symm.trans hg
  | @declares info v x hv =>
    have hopened : Sound a (w.openAs info) := by
      rcases hv.header with ⟨f, rfl, hfresh, -⟩ | ⟨c, rfl, hfresh, -, -, hinner⟩
      · exact h.openAs (fun c hc => by cases hc) hfresh.1
      · exact h.openAs (fun _ _ => hinner) hfresh
    refine hopened.modify (List.mem_cons_of_mem _ (top_mem_opened w)) hbeside rfl rfl rfl
      (fun i hi => .inl hi) fun y g hy => ?_
    rw [Dict.get?_insert] at hy
    split at hy
    · -- the name is bound to the block that has just been opened
      refine .inr ?_
      rcases hv.header with ⟨f, rfl, -, rfl⟩ | ⟨-, -, -, -, rfl, -⟩
      · cases hy
        obtain ⟨-, hb⟩ | ⟨hnew, -⟩ := Work.block_openAs (.func f) htop w.arena.size
        · rw [hb]
          exact ⟨rfl, _, rfl⟩
        · exact absurd rfl hnew
      · cases hy
    · exact .inl hy
  | closes => exact h.closes hbeside

theorem edits (h : Sound a w) (hglobals : a.Globals s.globals) (hedits : Edits s w w') :
    Sound a w' := by
  induction hedits with
  | refl => exact h
  | tail _ hedit ih => exact ih.edit hglobals hedit

/-- A unit that is about to be compiled. -/
theorem start (ha : a.Marks) : Sound a { arena := a.push { parent := none }, root := a.size } := by
  -- an empty block looks like none
  have hblock : ∀ id, Arena.block (a.push { parent := none }) id = a.block id := by
    intro id
    rw [Arena.block_push]
    split
    · rename_i hid
      rw [hid, Arena.block_of_le (Nat.le_refl _)]
    · rfl
  have hbehind : ∀ {id}, a.size ≤ id →
      Arena.block (a.push { parent := none }) id = { parent := none } :=
    fun hid => (hblock _).trans (Arena.block_of_le hid)
  exact {
    beside := .start a
    marks.older id p hp := by
      rw [hblock] at hp
      exact ha.older id p hp
    marks.code id i hi := by
      rw [hblock] at hi
      exact (ha.code id i hi).of_agree ha.older (fun id _ => congrArg Block.parent (hblock id))
        (fun id _ => congrArg Block.standing (hblock id)) (Arena.lt_size_of_mem_code hi)
    root := rfl
    rootParent := congrArg Block.parent (hbehind (Nat.le_refl _))
    rootPlain := congrArg Block.standing (hbehind (Nat.le_refl _))
    chain := .singleton _
    children id p hp := by
      have hnone : (a.block id).parent ≠ some p := fun hid =>
        absurd hp (Nat.not_le.2 (Nat.lt_trans (ha.older id p hid) (Arena.lt_size_of_parent hid)))
      rw [Work.block, Work.block, hblock, hbehind hp]
      exact ⟨fun h => absurd h hnone, fun h => absurd h (Array.not_mem_empty id)⟩
    contracts id m hid hm := by
      rw [Work.block, hbehind hid] at hm
      cases hm
    bound id hid x g hx := by
      rw [Work.block, hbehind hid, Dict.get?_empty] at hx
      cases hx
    inside id i hi g hg hopen := by
      rw [Work.block, hblock] at hi
      have hlt := Arena.lt_size_of_isFunc ((ha.code id i hi).callee g hg).1
      rw [List.mem_singleton.1 hopen] at hlt
      exact absurd hlt (Nat.lt_irrefl _)
    outward id p hid _ hwrite := by
      rw [Work.block, hbehind hid] at hwrite
      cases hwrite }

end Sound

end Compile

end Covenant
