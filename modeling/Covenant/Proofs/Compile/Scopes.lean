import Covenant.Proofs.Compile.Names

/-!
# Where names can be seen

A variable that code reads or assigns belongs to a block around the code, where a name stands for
it. A function that code calls is one of a block around the code, or one of a unit. So what lies
around the function lies around the call, too, except for the unit, which declares no variables and
is never run (`Arena.Scoped`).

Every edit keeps this. Blocks stay where they are and keep what they declare (`Arena.Enlarges`), and
what is added to the innermost block is looked up among the open blocks, which lie around it
(`Compile.Scoping.edit`).
-/

namespace Covenant

/-! ### What blocks keep -/

namespace Block

/-- Whether the code of a block reads a variable or assigns to it. -/
def Mentions (b : Block) (v : VarRef) : Prop := (∃ i ∈ b.code, v ∈ i.op.vars) ∨ .var v ∈ b.targets

/-- Whether names stand for variables that are there. -/
def Places (b : Block) : Prop := ∀ x i, b.objects.get? x = some (.var i) → i < b.vars.size

/-- Whether a block is in the same place as another one, of the same kind, and declares what it
declares. The names of a contract may be taken by its data section. -/
structure Grows (b b' : Block) : Prop where
  parent : b'.parent = b.parent
  kind : b'.standing.mark = b.standing.mark
  vars : b.vars.size ≤ b'.vars.size
  names : b.contract? = none → ∀ x i, b.objects.get? x = some (.var i) →
    b'.objects.get? x = some (.var i)

theorem contract?_eq_none_iff {b : Block} :
    b.contract? = none ↔ b.standing.mark ≠ .contract true := by
  obtain ⟨_, info, _, _, _, _⟩ := b
  cases info <;> simp [contract?, standing, Standing.mark]

theorem isFunc_iff {b : Block} : b.standing.IsFunc ↔ b.standing.mark = .func true := by
  cases h : b.standing <;> simp [Standing.mark, Standing.IsFunc]

theorem plain_iff {b : Block} : b.standing = .plain ↔ b.standing.mark = .plain := by
  cases h : b.standing <;> simp [Standing.mark]

theorem fieldNames_of_contract? {b : Block} (h : b.contract? = none) : b.fieldNames = [] := by
  rw [fieldNames, h]
  rfl

/-- A block that is no contract is a function or has no header. -/
theorem standing_of_not_contract {b : Block} (h : b.contract? = none) :
    b.standing.IsFunc ∨ b.standing = .plain := by
  obtain ⟨_, info, _, _, _, _⟩ := b
  cases info with
  | plain => exact .inr rfl
  | func f => exact .inl ⟨_, rfl⟩
  | contract c => cases h

/-- The code alone decides what is mentioned. -/
theorem Mentions.congr {b b' : Block} {v : VarRef} (hcode : b'.code = b.code) (h : b'.Mentions v) :
    b.Mentions v := by
  rwa [Mentions, targets, hcode] at h

namespace Grows

variable {b b' b'' : Block}

theorem refl (b : Block) : b.Grows b := ⟨rfl, rfl, Nat.le_refl _, fun _ _ _ h => h⟩

theorem contract? (h : b.Grows b') : b'.contract? = none ↔ b.contract? = none := by
  rw [contract?_eq_none_iff, contract?_eq_none_iff, h.kind]

theorem isFunc (h : b.Grows b') : b'.standing.IsFunc ↔ b.standing.IsFunc := by
  rw [isFunc_iff, isFunc_iff, h.kind]

theorem plain (h : b.Grows b') : b'.standing = .plain ↔ b.standing = .plain := by
  rw [plain_iff, plain_iff, h.kind]

theorem trans (h : b.Grows b') (h' : b'.Grows b'') : b.Grows b'' :=
  ⟨h'.parent.trans h.parent, h'.kind.trans h.kind, h.vars.trans h'.vars,
    fun hb x i hx => h'.names (h.contract?.2 hb) x i (h.names hb x i hx)⟩

theorem children (b : Block) (children : Array BlockId) : b.Grows { b with children := children } :=
  ⟨rfl, rfl, Nat.le_refl _, fun _ _ _ h => h⟩

theorem emit (b : Block) (i : Instr) : b.Grows (b.emit i) :=
  ⟨rfl, rfl, Nat.le_refl _, fun _ _ _ h => h⟩

/-- Binding a name that is new. -/
theorem bind {x : String} (hx : b.objects.get? x = none) (v : Binding) :
    b.Grows { b with objects := b.objects.insert x v } := by
  refine ⟨rfl, rfl, Nat.le_refl _, fun _ y i hy => ?_⟩
  rw [Dict.get?_insert, if_neg]
  · exact hy
  · rintro rfl
    cases hx.symm.trans hy

/-- Changing the header, but not the kind of a block. -/
theorem header {info : BlockInfo}
    (h : (Block.standing { b with info := info }).mark = b.standing.mark) :
    b.Grows { b with info := info } :=
  ⟨rfl, h, Nat.le_refl _, fun _ _ _ h => h⟩

end Grows

end Block

namespace Arena

variable {a a' a'' : Arena} {b f g : BlockId} {v : VarRef}

/-- Whether the blocks of an arena are in another one, in their place and with what they declare. -/
structure Enlarges (a a' : Arena) : Prop where
  size : a.size ≤ a'.size
  block : ∀ id < a.size, (a.block id).Grows (a'.block id)

theorem Enlarges.refl (a : Arena) : a.Enlarges a := ⟨Nat.le_refl _, fun _ _ => .refl _⟩

theorem Enlarges.trans (h : a.Enlarges a') (h' : a'.Enlarges a'') : a.Enlarges a'' :=
  ⟨h.size.trans h'.size, fun id hid =>
    (h.block id hid).trans (h'.block id (Nat.lt_of_lt_of_le hid h.size))⟩

/-- A change of a block that grows enlarges the arena. -/
theorem Enlarges.modify {f : Block → Block} {id : BlockId}
    (h : (a.block id).Grows (f (a.block id))) :
    a.Enlarges (a.modify id f) := by
  refine ⟨Nat.le_of_eq Array.size_modify.symm, fun j hj => ?_⟩
  rw [Arena.block_modify]
  split
  · rename_i hj
    exact hj.1 ▸ h
  · exact .refl _

/-! ### Scopes -/

/-- Whether a block can be run: it is a function, or the body of a control statement. -/
def Runnable (a : Arena) (b : BlockId) : Prop :=
  (a.block b).standing.IsFunc ∨ (a.block b).standing = .plain ∧ (a.block b).parent ≠ none

/-- Whether a block is that of a unit. -/
def IsUnit (a : Arena) (b : BlockId) : Prop :=
  (a.block b).standing = .plain ∧ (a.block b).parent = none

theorem IsUnit.not_runnable (h : a.IsUnit b) : ¬ a.Runnable b := by
  rintro (⟨m, hm⟩ | ⟨-, hparent⟩)
  · cases h.1.symm.trans hm
  · exact hparent h.2

/-- Whether a variable can be seen from a block: it belongs to a block around it, and a name stands
for it there. -/
structure Sees (a : Arena) (b : BlockId) (v : VarRef) : Prop where
  within : a.Within b v.owner
  inner : (a.block v.owner).parent ≠ none
  place : v.index < (a.block v.owner).vars.size
  name : (a.block v.owner).contract? = none →
    ∃ x, (a.block v.owner).objects.get? x = some (.var v.index)

/-- A block with variables can be run, unless it is a contract. -/
theorem Sees.runnable (h : a.Sees b v) (hv : (a.block v.owner).contract? = none) :
    a.Runnable v.owner :=
  (Block.standing_of_not_contract hv).imp_right fun hplain => ⟨hplain, h.inner⟩

/-- Whether what lies around a function lies around a block, too, as far as it can be run. -/
def Meets (a : Arena) (b g : BlockId) : Prop :=
  ∀ f, a.Within g f → f ≠ g → a.Runnable f → a.Within b f

/-- Whether code mentions variables that it can see, and calls functions from within what lies
around them. -/
structure Scoped (a : Arena) : Prop where
  vars : ∀ b v, (a.block b).Mentions v → a.Sees b v
  calls : ∀ b, ∀ i ∈ (a.block b).code, ∀ g, i.op.func? = some g → a.Meets b g

theorem lt_size_of_mentions (h : (a.block b).Mentions v) : b < a.size := by
  rcases h with ⟨i, hi, -⟩ | htarget
  · exact lt_size_of_mem_code hi
  · obtain ⟨i, hi, -⟩ := Block.mem_targets.1 htarget
    exact lt_size_of_mem_code hi

/-- A function with nothing around it that can be run. -/
structure Alone (a : Arena) (g : BlockId) : Prop where
  func : (a.block g).standing.IsFunc
  around : ∀ f, a.Within g f → f ≠ g → ¬ a.Runnable f

/-- A function of a unit. -/
structure TopLevel (a : Arena) (g : BlockId) : Prop where
  func : (a.block g).standing.IsFunc
  unit : ∃ p, (a.block g).parent = some p ∧ a.IsUnit p

/-- A function that lies in a unit, or in a block in there that cannot be run itself. -/
theorem Alone.of_parent {p : BlockId} (hfunc : (a.block g).standing.IsFunc)
    (hparent : (a.block g).parent = some p)
    (hp : a.IsUnit p ∨ ¬ a.Runnable p ∧ ∃ q, (a.block p).parent = some q ∧ a.IsUnit q) :
    a.Alone g := by
  have hunit : ∀ {q f}, a.IsUnit q → a.Within q f → ¬ a.Runnable f := by
    intro q f hq hf
    rcases hf.cases_head with rfl | ⟨q', hq', -⟩
    · exact hq.not_runnable
    · cases hq.2.symm.trans hq'
  refine ⟨hfunc, fun f hf hne => ?_⟩
  rcases hf.cases_head with rfl | ⟨p', hp', hf⟩
  · exact absurd rfl hne
  · cases hparent.symm.trans hp'
    rcases hp with hp | ⟨hp, q, hq, hqUnit⟩
    · exact hunit hp hf
    · rcases hf.cases_head with rfl | ⟨q', hq', hf⟩
      · exact hp
      · cases hq.symm.trans hq'
        exact hunit hqUnit hf

theorem TopLevel.alone (h : a.TopLevel g) : a.Alone g := by
  obtain ⟨p, hp, hunit⟩ := h.unit
  exact .of_parent h.func hp (.inl hunit)

theorem Alone.meets (h : a.Alone g) (b : BlockId) : a.Meets b g :=
  fun f hf hne hrun => absurd hrun (h.around f hf hne)

namespace Enlarges

variable (h : a.Enlarges a') (holder : ∀ id p, (a.block id).parent = some p → p < id)

include h

theorem runnable (hb : b < a.size) : a'.Runnable b ↔ a.Runnable b := by
  have hgrows := h.block b hb
  rw [Runnable, Runnable, hgrows.isFunc, hgrows.plain, hgrows.parent]

theorem isUnit (hb : b < a.size) (hunit : a.IsUnit b) : a'.IsUnit b := by
  have hgrows := h.block b hb
  exact ⟨hgrows.plain.2 hunit.1, hgrows.parent.trans hunit.2⟩

include holder

theorem within (hb : b < a.size) : a'.Within b f ↔ a.Within b f :=
  Within.of_agree holder (fun id hid => (h.block id hid).parent) hb

/-- What a block sees it sees in a larger arena, too. -/
theorem sees (hb : b < a.size) (hv : a.Sees b v) : a'.Sees b v := by
  have howner : v.owner < a.size := Nat.lt_of_le_of_lt (hv.within.le holder) hb
  have hgrows := h.block v.owner howner
  refine ⟨(h.within holder hb).2 hv.within, hgrows.parent ▸ hv.inner,
    Nat.lt_of_lt_of_le hv.place hgrows.vars, fun hcontract => ?_⟩
  have hcontract := hgrows.contract?.1 hcontract
  obtain ⟨x, hx⟩ := hv.name hcontract
  exact ⟨x, hgrows.names hcontract x _ hx⟩

theorem meets (hb : b < a.size) (hg : g < a.size) (hmeets : a.Meets b g) : a'.Meets b g := by
  intro f hf hne hrun
  rw [h.within holder hg] at hf
  rw [h.runnable (Nat.lt_of_le_of_lt (hf.le holder) hg)] at hrun
  exact (h.within holder hb).2 (hmeets f hf hne hrun)

theorem alone (hg : a.Alone g) : a'.Alone g := by
  have hlt := lt_size_of_isFunc hg.func
  refine ⟨(h.block g hlt).isFunc.2 hg.func, fun f hf hne => ?_⟩
  rw [h.within holder hlt] at hf
  rw [h.runnable (Nat.lt_of_le_of_lt (hf.le holder) hlt)]
  exact hg.around f hf hne

theorem topLevel (hg : a.TopLevel g) : a'.TopLevel g := by
  have hlt := lt_size_of_isFunc hg.func
  obtain ⟨p, hp, hunit⟩ := hg.unit
  exact ⟨(h.block g hlt).isFunc.2 hg.func, p, (h.block g hlt).parent.trans hp,
    h.isUnit ((holder g p hp).trans hlt) hunit⟩

end Enlarges

/-- Scopes stay when blocks are changed in their place and keep their code. -/
theorem Scoped.enlarge (h : a.Scoped) (hmarks : a.Marks) (hgrows : a.Enlarges a')
    (hcode : ∀ b, (a'.block b).code = (a.block b).code) : a'.Scoped := by
  refine ⟨fun b v hv => ?_, fun b i hi g hg => ?_⟩
  · have hv := hv.congr (hcode b)
    exact hgrows.sees hmarks.older (lt_size_of_mentions hv) (h.vars b v hv)
  · rw [hcode] at hi
    exact hgrows.meets hmarks.older (lt_size_of_mem_code hi)
      (lt_size_of_isFunc ((hmarks.code b i hi).callee g hg).1) (h.calls b i hi g hg)

/-- What lies in an arena lies there as before when blocks are added. -/
theorem Precedes.enlarges (h : a.Precedes a') : a.Enlarges a' :=
  ⟨h.le, fun _ hid => h.block hid ▸ .refl _⟩

end Arena

/-! ### Units under way -/

namespace Compile

variable {a : Arena} {s : Source} {w w' : Work} {b g id : BlockId} {v : VarRef} {x : String}

/-- Every edit keeps that names stand for variables that are there. -/
theorem editInvariant_places (s : Source) : EditInvariant s Block.Places where
  empty p x i hx := by
    rw [Dict.get?_empty] at hx
    cases hx
  children _ hb := hb
  mark hb := by
    rw [Block.setWritable_eq]
    exact hb
  control _ _ hb := hb
  header _ hb := hb
  name {w x info v b} hv hb y i hy := by
    rw [Dict.get?_insert] at hy
    split at hy
    · rcases hv.header with ⟨f, -, -, rfl⟩ | ⟨c, -, -, -, rfl, -⟩ <;> cases hy
    · exact hb y i hy
  change _ hedit hb x i hx := by
    rcases hedit.objects x _ hx with hold | hbound
    · exact Nat.lt_of_lt_of_le (hb x i hold) hedit.vars
    · exact hbound.2

/-- A variable that is found is bound to its name in a block that was searched. -/
theorem objects_of_findVarIn {ids : List BlockId} (h : w.findVarIn x ids = some (.var v)) :
    (w.block v.owner).objects.get? x = some (.var v.index) := by
  induction ids with
  | nil => cases h
  | cons id ids ih =>
    unfold Work.findVarIn at h
    split at h
    · cases h
      assumption
    · cases h
    · cases h
    · exact ih h

namespace Work

/-- Opening a block leaves the code of all blocks. -/
theorem code_openAs (h : w.top < w.arena.size) (info : BlockInfo) (b : BlockId) :
    ((w.openAs info).block b).code = (w.block b).code := by
  obtain ⟨rfl, hb⟩ | ⟨-, children, hb, -⟩ := block_openAs info h b
  · rw [hb, block, Arena.block_of_le (Nat.le_refl _)]
  · rw [hb]

theorem code_openBlock (h : w.top < w.arena.size) (b : BlockId) :
    (w.openBlock.block b).code = (w.block b).code := by
  rw [← openAs_plain h]
  exact code_openAs h .plain b

/-- Changing a block leaves the code of all others. -/
theorem code_modifyBlock (w : Work) (id : BlockId) (f : Block → Block) (b : BlockId) :
    ((w.modifyBlock id f).block b).code = (w.block b).code ∨
      b = id ∧ ((w.modifyBlock id f).block b).code = (f (w.block id)).code :=
  (w.block_modifyBlock_cases id f b).imp (congrArg Block.code) fun h =>
    ⟨h.1.symm, congrArg Block.code h.2⟩

end Work

/-- What an edit adds to the code of a block: the targets of assignments are looked up, the bodies
of control statements are new, and other instructions are admitted. -/
theorem code_edit (hedit : Edit s w w') (htop : w.top < w.arena.size) (b : BlockId) :
    (∀ t ∈ (w'.block b).targets, t ∈ (w.block b).targets ∨ b = w.top ∧ Assignable w t) ∧
      ∀ i ∈ (w'.block b).code, i ∈ (w.block b).code ∨ i.op.body?.isSome ∨ Admits s w b i.op := by
  have hsame : (w'.block b).code = (w.block b).code →
      (∀ t ∈ (w'.block b).targets, t ∈ (w.block b).targets ∨ b = w.top ∧ Assignable w t) ∧
        ∀ i ∈ (w'.block b).code, i ∈ (w.block b).code ∨ i.op.body?.isSome ∨ Admits s w b i.op := by
    intro hcode
    rw [Block.targets, Block.targets, hcode]
    exact ⟨fun t ht => .inl ht, fun i hi => .inl hi⟩
  -- Three edits touch code: those of one block, the body of a
  -- control statement, and the name of a new block.
  cases hedit with
  | note harena =>
    refine hsame ?_
    rw [Work.block, Work.block, harena]
  | @block id f hid hblock =>
    rcases Work.code_modifyBlock w id f b with hcode | ⟨rfl, hcode⟩
    · exact hsame hcode
    · refine ⟨fun t ht => hblock.targets t ?_,
        fun i hi => (hblock.code i (hcode ▸ hi)).imp_right .inr⟩
      rwa [Block.targets, hcode] at ht
  | marks =>
    refine hsame ?_
    rw [Work.block_setWritable]
    split
    · rw [Block.setWritable_eq]
    · rfl
  | opens => exact hsame (Work.code_openBlock htop b)
  | @control op line hop =>
    have hopen := Work.code_openBlock htop
    rcases Work.code_modifyBlock w.openBlock w.top (·.emit ⟨op w.arena.size, line⟩) b
      with hcode | ⟨rfl, hcode⟩
    · exact hsame (hcode.trans (hopen b))
    · rw [Block.emit, hopen] at hcode
      refine ⟨fun t ht => .inl ?_, fun i hi => ?_⟩
      · obtain ⟨i, hi, hit⟩ := Block.mem_targets.1 ht
        rw [hcode] at hi
        rcases Array.mem_push.1 hi with hold | rfl
        · exact Block.mem_targets.2 ⟨i, hold, hit⟩
        · rw [(Op.of_body? (hop _)).2.1] at hit
          exact absurd hit List.not_mem_nil
      · rw [hcode] at hi
        rcases Array.mem_push.1 hi with hold | rfl
        · exact .inl hold
        · exact .inr (.inl (Option.isSome_iff_exists.2 ⟨_, hop _⟩))
  | @declares info v x hv =>
    have hopen := Work.code_openAs htop info
    rcases Work.code_modifyBlock (w.openAs info) w.top
      (fun b => { b with objects := b.objects.insert x v }) b with hcode | ⟨rfl, hcode⟩
    · exact hsame (hcode.trans (hopen b))
    · exact hsame (hcode.trans (hopen _))
  | closes => exact hsame rfl

theorem enlarges_modifyBlock {f : Block → Block} (h : (w.block id).Grows (f (w.block id))) :
    w.arena.Enlarges (w.modifyBlock id f).arena := .modify h

/-- Every edit leaves the blocks in their place, with what they declare. -/
theorem enlarges_edit (hedit : Edit s w w') (htop : w.top < w.arena.size) :
    w.arena.Enlarges w'.arena := by
  have hopenAs : ∀ info, w.arena.Enlarges (w.openAs info).arena := by
    intro info
    refine ⟨by rw [Work.size_openAs]; exact Nat.le_succ _, fun id hid => ?_⟩
    obtain ⟨hnew, -⟩ | ⟨-, children, hb, -⟩ := Work.block_openAs info htop id
    · exact absurd hnew (Nat.ne_of_lt hid)
    · show (w.block id).Grows ((w.openAs info).block id)
      rw [hb]
      exact .children _ children
  have hopen : w.arena.Enlarges w.openBlock.arena := by
    rw [← Work.openAs_plain htop]
    exact hopenAs .plain
  cases hedit with
  | note harena => exact harena ▸ .refl _
  | block hid hblock =>
    refine enlarges_modifyBlock ⟨hblock.parent, congrArg Standing.mark hblock.standing, hblock.vars,
      fun hb x i hx => hblock.kept x _ hx ?_⟩
    exact Block.fieldNames_of_contract? hb ▸ List.not_mem_nil
  | marks =>
    refine ⟨Nat.le_of_eq w.size_setWritable.symm, fun id _ => ?_⟩
    show (w.block id).Grows (w.setWritable.block id)
    rw [Work.block_setWritable]
    split
    · rw [Block.setWritable_eq]
      refine .header ?_
      rw [← Block.setWritable_eq, Block.standing_setWritable]
      cases (w.block id).standing <;> rfl
    · exact .refl _
  | opens => exact hopen
  | @control op line hop => exact hopen.trans (enlarges_modifyBlock (.emit _ _))
  | @declares info v x hv =>
    refine (hopenAs info).trans (enlarges_modifyBlock (.bind ?_ v))
    -- the block around the new one has the names that it had before
    obtain ⟨hnew, -⟩ | ⟨-, children, hb, -⟩ := Work.block_openAs info htop w.top
    · exact absurd hnew (Nat.ne_of_lt htop)
    · show ((w.openAs info).block w.top).objects.get? x = none
      rw [hb]
      exact hv.fresh
  | closes => exact .refl _

/-- What is known of scopes in a unit under way. -/
structure Scoping (a : Arena) (w : Work) : Prop where
  sound : Sound a w
  scopes : w.arena.Scoped
  places : w.arena.Every Block.Places
  titled : Titled a w
  owns : w.Owns

namespace Sound

/-- Every block that is open in a unit lies in another one. -/
theorem parent_of_inner (h : Sound a w) (hb : b ∈ w.inner) : (w.block b).parent ≠ none := by
  have hall : ∀ inner : List BlockId, b ∈ inner →
      (inner ++ [w.root]).IsChain (fun c p => (w.block c).parent = some p) →
      (w.block b).parent ≠ none := by
    intro inner hb hchain
    induction inner with
    | nil => exact absurd hb List.not_mem_nil
    | cons c rest ih =>
      rcases List.mem_cons.1 hb with rfl | hb
      · cases rest with
        | nil =>
          rw [(List.isChain_cons_cons.1 hchain).1]
          exact Option.some_ne_none _
        | cons c' rest' =>
          rw [(List.isChain_cons_cons.1 hchain).1]
          exact Option.some_ne_none _
      · exact ih hb hchain.tail
  exact hall w.inner hb h.chain

theorem isUnit_root (h : Sound a w) : w.arena.IsUnit w.root := ⟨h.rootPlain, h.rootParent⟩

end Sound

namespace Scoping

/-- A variable that is found can be seen from the innermost block. -/
theorem sees_of_findVar (h : Scoping a w) (hx : w.findVar x = some (.var v)) :
    w.arena.Sees w.top v := by
  have hopened := owner_mem_of_findVar hx
  have hbound := objects_of_findVarIn hx
  have hinner : v.owner ∈ w.inner := by
    rcases List.mem_append.1 hopened with hinner | hroot
    · exact hinner
    · -- a unit binds the names of contracts and functions only
      rw [List.mem_singleton.1 hroot] at hbound
      obtain ⟨c, -, -, hc⟩ := h.owns x _ hbound
      cases Block.block?_of_binding? hc
  exact ⟨h.sound.mem_opened_iff.1 hopened, h.sound.parent_of_inner hinner,
    h.places v.owner x v.index hbound, fun _ => ⟨x, hbound⟩⟩

/-- A function that is found is one of a block around the innermost one, or of a unit. -/
theorem meets_of_finds (h : Scoping a w) (hglobals : ∀ x g, s.globals.get? x = some (.func g) →
    a.TopLevel g) (ha : a.Marks) (hg : w.Finds s g) : w.arena.Meets w.top g := by
  rcases hg with ⟨id, hid, x, hx⟩ | ⟨x, hx⟩
  · obtain ⟨hparent, -⟩ := h.sound.bound id (h.sound.beside.opened id hid).1 x g hx
    intro f hf hne _
    rcases hf.cases_head with rfl | ⟨p, hp, hf⟩
    · exact absurd rfl hne
    · cases hparent.symm.trans hp
      exact (h.sound.mem_opened_iff.1 hid).trans hf
  · exact (h.sound.beside.kept.enlarges.topLevel ha.older (hglobals x g hx)).alone.meets w.top

/-- **Every edit keeps scopes.** -/
theorem edit (h : Scoping a w) (ha : a.Marks) (hglobals : a.Globals s.globals)
    (hunits : ∀ x g, s.globals.get? x = some (.func g) → a.TopLevel g) (hedit : Edit s w w') :
    Scoping a w' := by
  have htop := h.sound.lt_size (top_mem_opened w)
  have hgrows := enlarges_edit hedit htop
  have holder := h.sound.marks.older
  have hcode := code_edit hedit htop
  refine ⟨h.sound.edit hglobals hedit, ⟨fun b v hv => ?_, fun b i hi g hg => ?_⟩,
    (editInvariant_places s).edit h.places hedit, h.titled.edit hedit,
    h.titled.owns_edit h.owns hedit⟩
  · -- a variable of new code, or of a new target, has been found from the innermost block
    have hsees : (w.block b).Mentions v ∨ b = w.top ∧ ∃ x, w.findVar x = some (.var v) := by
      rcases hv with ⟨i, hi, hiv⟩ | htarget
      · rcases (hcode b).2 i hi with hold | hbody | hadmits
        · exact .inl (.inl ⟨i, hold, hiv⟩)
        · obtain ⟨c, hc⟩ := Option.isSome_iff_exists.1 hbody
          have howners := (Op.of_body? hc).1
          rw [Op.owners_eq, List.map_eq_nil_iff] at howners
          rw [howners] at hiv
          exact absurd hiv List.not_mem_nil
        · exact .inr (hadmits.vars v hiv)
      · rcases (hcode b).1 _ htarget with hold | ⟨hb, hassign⟩
        · exact .inl (.inr hold)
        · rcases hassign with ⟨name, heq, -⟩ | hfind
          · cases heq
          · exact .inr ⟨hb, hfind⟩
    rcases hsees with hold | ⟨rfl, x, hx⟩
    · exact hgrows.sees holder (Arena.lt_size_of_mentions hold) (h.scopes.vars b v hold)
    · exact hgrows.sees holder htop (h.sees_of_findVar hx)
  · -- so has a function that new code calls
    have hmeets : g < w.arena.size ∧ b < w.arena.size ∧ w.arena.Meets b g := by
      rcases (hcode b).2 i hi with hold | hbody | hadmits
      · exact ⟨Arena.lt_size_of_isFunc ((h.sound.marks.code b i hold).callee g hg).1,
          Arena.lt_size_of_mem_code hold, h.scopes.calls b i hold g hg⟩
      · obtain ⟨c, hc⟩ := Option.isSome_iff_exists.1 hbody
        cases (Op.of_body? hc).2.2.2.symm.trans hg
      · obtain ⟨rfl, hfinds, -⟩ := hadmits.calls g hg
        exact ⟨Arena.lt_size_of_isFunc (h.sound.visible hglobals hfinds).1.1, htop,
          h.meets_of_finds hunits ha hfinds⟩
    exact hgrows.meets holder hmeets.2.1 hmeets.1 hmeets.2.2

theorem edits (h : Scoping a w) (ha : a.Marks) (hglobals : a.Globals s.globals)
    (hunits : ∀ x g, s.globals.get? x = some (.func g) → a.TopLevel g) (hedits : Edits s w w') :
    Scoping a w' := by
  induction hedits with
  | refl => exact h
  | tail _ hedit ih => exact ih.edit ha hglobals hunits hedit

/-- A unit that is about to be compiled. -/
theorem start (ha : a.Marks) (hscoped : a.Scoped) (hplaces : a.Every Block.Places) :
    Scoping a { arena := a.push { parent := none }, root := a.size } := by
  have hempty : Block.Places { parent := none } :=
    (editInvariant_places ⟨#[], .empty, 0, false⟩).empty none
  refine ⟨.start ha, hscoped.enlarge ha ((Arena.Precedes.refl a).push _).enlarges fun b => ?_,
    hplaces.push hempty, .start a, Work.owns_start a⟩
  rw [Arena.block_push]
  split
  · rename_i hb
    rw [hb, Arena.block_of_le (Nat.le_refl _)]
  · rfl

end Scoping

end Compile

/-- **In a unit, code mentions what it can see.** The functions that a unit declares lie in the
unit, and nothing that can be run lies around those of its contracts. -/
theorem Arena.Scoped.compile {a a' : Arena} {scope : Scope} (h : a.Scoped) (ha : a.Marks)
    (hplaces : a.Every Block.Places) (hglobals : a.Globals scope.globals)
    (hunits : ∀ x g, scope.globals.get? x = some (.func g) → a.TopLevel g) {text : String}
    {root : BlockId} (hcompile : a.compile scope text = .ok (root, a')) :
    a'.Scoped ∧ a.Precedes a' ∧ a'.IsUnit root ∧
      (∀ c ∈ (a'.block root).children, (a'.block c).parent = some root) ∧
      ∀ c, a.size ≤ c → (a'.block c).contract? ≠ none →
        ∀ x g, (a'.block c).objects.get? x = some (.func g) → a'.Alone g := by
  obtain ⟨rfl, lexemes, -, w, rfl, -, hedits, -⟩ := Arena.compile_edits hcompile
  have hscoping := (Compile.Scoping.start ha h hplaces).edits ha hglobals hunits hedits
  have hsound := hscoping.sound
  have hunit := hsound.isUnit_root
  refine ⟨hscoping.scopes, hsound.beside.kept, hsound.root ▸ hunit, fun c hc => ?_,
    fun c hc hcontract x g hx => ?_⟩
  · exact (hsound.children c a.size (Nat.le_refl _)).2 hc
  · obtain ⟨hparent, hfunc⟩ := hsound.bound c hc x g hx
    obtain ⟨info, hinfo⟩ := Option.ne_none_iff_exists'.1 hcontract
    have hstanding := Block.standing_of_contract? hinfo
    refine .of_parent hfunc hparent (.inr ⟨?_, w.root, hsound.contracts c _ hc hstanding, hunit⟩)
    rintro (⟨m, hm⟩ | ⟨hplain, -⟩)
    · cases hstanding.symm.trans hm
    · cases hstanding.symm.trans hplain

end Covenant
