import Covenant.Proofs.Registry.Linked

/-!
# No number dangles

Blocks, names, stable numbers, compiled conditions and savepoints all refer to blocks by their
numbers, and a unit that fails and a rollback both cut the arena. No number is left behind that
stands for nothing (`Session.Reachable.closed`): a unit only refers to its own blocks and to what
was there before it (`Compile.edit_closed`), and what a savepoint holds lies below the size it
remembers, so that each of the arenas a host can return to is closed in itself
(`Registry.Closed.points`).
-/

namespace Covenant

/-! ### References -/

/-- Whether a block refers to the block with a number: by its place, by a name, or in its code,
where control statements name their bodies, calls their functions, and variables, also those in
literals, the blocks that declare them. -/
inductive Block.Refers (b : Block) : BlockId → Prop
  | parent {p : BlockId} : b.parent = some p → b.Refers p
  | child {c : BlockId} : c ∈ b.children → b.Refers c
  | name {x : String} {v : Binding} {id : BlockId} : b.objects.get? x = some v →
      v.block? = some id → b.Refers id
  | body {i : Instr} {id : BlockId} : i ∈ b.code → i.op.body? = some id → b.Refers id
  | func {i : Instr} {id : BlockId} : i ∈ b.code → i.op.func? = some id → b.Refers id
  | reads {i : Instr} {id : BlockId} : i ∈ b.code → id ∈ i.op.owners → b.Refers id
  | assigns {v : VarRef} : .var v ∈ b.targets → b.Refers v.owner

namespace Block

/-- Whether all blocks that a block refers to have a property. -/
def Within (P : BlockId → Prop) (b : Block) : Prop := ∀ id, b.Refers id → P id

/-- Whether a block refers to the first blocks only. -/
def Below (n : Nat) (b : Block) : Prop := b.Within (· < n)

theorem Below.mono {b : Block} {m n : Nat} (h : b.Below m) (hle : m ≤ n) : b.Below n :=
  fun id hid => Nat.lt_of_lt_of_le (h id hid) hle

namespace Within

variable {b b' : Block} {P : BlockId → Prop}

/-- An empty block refers to nothing. -/
theorem empty (P : BlockId → Prop) : Block.Within P { parent := none } := by
  intro id hid
  cases hid with
  | parent h => cases h
  | child h => exact absurd h (Array.not_mem_empty id)
  | name h =>
    rw [Dict.get?_empty] at h
    cases h
  | body h | func h | reads h => exact absurd h (Array.not_mem_empty _)
  | assigns h => exact absurd h List.not_mem_nil

/-- The header of a block refers to nothing. -/
theorem info (h : b.Within P) (info : BlockInfo) : Block.Within P { b with info := info } := by
  intro id hid
  cases hid with
  | parent hp => exact h _ (.parent hp)
  | child hc => exact h _ (.child hc)
  | name hx hv => exact h _ (.name hx hv)
  | body hi hop => exact h _ (.body hi hop)
  | func hi hop => exact h _ (.func hi hop)
  | reads hi hop => exact h _ (.reads hi hop)
  | assigns hv => exact h _ (.assigns hv)

theorem of_info (h : b.Within P) (hinfo : b' = { b with info := b'.info }) : b'.Within P := by
  rw [hinfo]
  exact h.info _

theorem setId (h : b.Within P) (n : Nat) : (b.setId n).Within P := by
  refine h.of_info ?_
  obtain ⟨_, info, _, _, _, _⟩ := b
  cases info <;> rfl

theorem modifyFunc (h : b.Within P) (f : FuncInfo → FuncInfo) : (b.modifyFunc f).Within P := by
  refine h.of_info ?_
  obtain ⟨_, info, _, _, _, _⟩ := b
  cases info <;> rfl

/-- A block may get a child that is allowed. -/
theorem pushChild (h : b.Within P) {c : BlockId} (hc : P c) :
    Block.Within P { b with children := b.children.push c } := by
  intro id hid
  cases hid with
  | parent hp => exact h _ (.parent hp)
  | child hin =>
    rcases Array.mem_push.1 hin with hold | rfl
    · exact h _ (.child hold)
    · exact hc
  | name hx hv => exact h _ (.name hx hv)
  | body hi hop => exact h _ (.body hi hop)
  | func hi hop => exact h _ (.func hi hop)
  | reads hi hop => exact h _ (.reads hi hop)
  | assigns hv => exact h _ (.assigns hv)

/-- A name may be bound to what is allowed. -/
theorem bind (h : b.Within P) {v : Binding} (hv : Binding.Within P v) (x : String) :
    Block.Within P { b with objects := b.objects.insert x v } := by
  intro id hid
  cases hid with
  | parent hp => exact h _ (.parent hp)
  | child hc => exact h _ (.child hc)
  | name hy hu =>
    rw [Dict.get?_insert] at hy
    split at hy
    · rw [← Option.some.inj hy] at hu
      exact hv id hu
    · exact h _ (.name hy hu)
  | body hi hop => exact h _ (.body hi hop)
  | func hi hop => exact h _ (.func hi hop)
  | reads hi hop => exact h _ (.reads hi hop)
  | assigns hv => exact h _ (.assigns hv)

/-- A control statement refers to its body. -/
theorem emitControl (h : b.Within P) {op : Op} {c : BlockId} (hop : op.body? = some c) (hc : P c)
    (line : Nat) : (b.emit ⟨op, line⟩).Within P := by
  -- The new instruction refers to its body and to nothing else.
  obtain ⟨howners, htargets, -, hfunc⟩ := Op.of_body? hop
  intro id hid
  cases hid with
  | parent hp => exact h _ (.parent hp)
  | child hc => exact h _ (.child hc)
  | name hx hv => exact h _ (.name hx hv)
  | body hi hbody =>
    rcases Array.mem_push.1 hi with hold | rfl
    · exact h _ (.body hold hbody)
    · cases hop.symm.trans hbody
      exact hc
  | func hi hcall =>
    rcases Array.mem_push.1 hi with hold | rfl
    · exact h _ (.func hold hcall)
    · cases hfunc.symm.trans hcall
  | reads hi hread =>
    rcases Array.mem_push.1 hi with hold | rfl
    · exact h _ (.reads hold hread)
    · rw [howners] at hread
      exact absurd hread List.not_mem_nil
  | assigns hv =>
    obtain ⟨i, hi, hiv⟩ := Block.mem_targets.1 hv
    rcases Array.mem_push.1 hi with hold | rfl
    · exact h _ (.assigns (Block.mem_targets.2 ⟨i, hold, hiv⟩))
    · rw [htargets] at hiv
      exact absurd hiv List.not_mem_nil

end Within

end Block

/-- Whether all blocks of an arena refer to blocks that are there. -/
def Arena.Closed (a : Arena) : Prop := a.Every (Block.Below a.size)

theorem Arena.closed_empty : Arena.Closed #[] :=
  .of_getElem? (.empty _) fun i b hb => by simp at hb

/-- Whether the blocks of an arena from some number on refer only to blocks that have a property. -/
def Arena.UnitWithin (n : Nat) (P : BlockId → Prop) (a : Arena) : Prop :=
  ∀ id, n ≤ id → (a.block id).Within P

namespace Arena.UnitWithin

variable {a : Arena} {n : Nat} {P : BlockId → Prop}

/-- A change of one block keeps what the blocks of a unit refer to. -/
theorem modify (h : a.UnitWithin n P) {id : BlockId} {f : Block → Block}
    (hf : (a.block id).Within P → (f (a.block id)).Within P) :
    Arena.UnitWithin n P (a.modify id f) := by
  intro j hj
  rw [Arena.block_modify]
  split
  · rename_i heq
    obtain ⟨rfl, -⟩ := heq
    exact hf (h id hj)
  · exact h j hj

/-- An empty block behind an arena refers to nothing. -/
theorem push_empty (a : Arena) (P : BlockId → Prop) :
    Arena.UnitWithin a.size P (a.push { parent := none }) := by
  intro id hid
  rw [Arena.block_push]
  split
  · exact .empty P
  · rw [Arena.block_of_le hid]
    exact .empty P

end Arena.UnitWithin

/-! ### Units -/

namespace Compile

variable {a : Arena} {s : Source} {w w' : Work} {id : BlockId} {P : BlockId → Prop}

/-- Opening a block refers to the new block and to the innermost one. -/
theorem openBlock_within (hbeside : Beside a w) (h : w.arena.UnitWithin a.size P) (htop : P w.top)
    (hnew : P w.arena.size) : w.openBlock.arena.UnitWithin a.size P := by
  intro j hj
  change (w.openBlock.block j).Within P
  rcases hbeside.block_openBlock_cases j with heq | heq | heq <;> rw [heq]
  · intro id hid
    cases hid with
    | parent hp =>
      cases hp
      exact htop
    | child hc => exact absurd hc (Array.not_mem_empty id)
    | name hx =>
      rw [Dict.get?_empty] at hx
      cases hx
    | body hi | func hi | reads hi => exact absurd hi (Array.not_mem_empty _)
    | assigns hv => exact absurd hv List.not_mem_nil
  · exact h j hj
  · exact (h j hj).pushChild hnew

/-- A change of a block refers to open blocks and to what the block or a name refers to already. -/
theorem blockEdit_within (hopened : ∀ c ∈ w.opened, P c ∧ (w.block c).Within P)
    (hglobals : s.globals.All (Binding.Within P)) {b b' : Block} (hb : b.Within P)
    (hedit : BlockEdit s w id b b') : b'.Within P := by
  intro c hc
  cases hc with
  | parent hp => exact hb _ (.parent (hedit.parent ▸ hp))
  | child hin => exact hb _ (.child (hedit.children ▸ hin))
  | name hx hv =>
    rcases hedit.objects _ _ hx with hold | hbound
    · exact hb _ (.name hold hv)
    · rename_i v
      cases v with
      | contract | func | ext => exact hbound.elim
      | var | extVar => cases hv
  | body hi hop =>
    rcases hedit.code _ hi with hold | hnew
    · exact hb _ (.body hold hop)
    · cases hnew.body?.symm.trans hop
  | func hi hop =>
    rcases hedit.code _ hi with hold | hnew
    · exact hb _ (.func hold hop)
    · obtain ⟨-, hfinds, -⟩ := hnew.calls _ hop
      -- A call is resolved in an opened block or among what the contracts share.
      rcases hfinds with ⟨g, hg, x, hx⟩ | ⟨x, hx⟩
      · exact (hopened g hg).2 _ (.name hx rfl)
      · exact hglobals x _ hx _ rfl
  | reads hi hop =>
    rcases hedit.code _ hi with hold | hnew
    · exact hb _ (.reads hold hop)
    · exact (hopened _ (hnew.owners _ hop)).1
  | assigns hv =>
    rcases hedit.targets _ hv with hold | hnew
    · exact hb _ (.assigns hold)
    · rcases hnew.2 with ⟨name, heq, -⟩ | ⟨name, hfind⟩
      · cases heq
      · exact (hopened _ (owner_mem_of_findVar hfind)).1

/-- **The blocks of a unit refer only to its own blocks and to what the names before it stand
for.** -/
theorem edit_within (hbeside : Beside a w) (hnew : ∀ id, a.size ≤ id → id < w'.arena.size → P id)
    (h : w.arena.UnitWithin a.size P) (hglobals : s.globals.All (Binding.Within P))
    (hedit : Edit s w w') :
    w'.arena.UnitWithin a.size P := by
  have hopened : ∀ c ∈ w.opened, P c := fun c hc =>
    hnew c (hbeside.opened c hc).1 (Nat.lt_of_lt_of_le (hbeside.opened c hc).2 hedit.size_le)
  -- A block that is opened is the last of the arena, so it belongs to the unit.
  have hopen : w.arena.size < w'.arena.size → P w.arena.size ∧
    w.openBlock.arena.UnitWithin a.size P := by
    intro hlt
    have hsize := hnew _ hbeside.kept.le hlt
    exact ⟨hsize, openBlock_within hbeside h (hopened _ (top_mem_opened w)) hsize⟩
  have hmodify : ∀ {w : Work} {id : BlockId} {f : Block → Block}, w.arena.UnitWithin a.size P →
      ((w.block id).Within P → (f (w.block id)).Within P) →
      (w.modifyBlock id f).arena.UnitWithin a.size P := fun h hf => h.modify hf
  cases hedit with
  | note harena => exact harena ▸ h
  | block _ hblock =>
    exact hmodify h fun hb =>
      blockEdit_within (fun c hc => ⟨hopened c hc, h c (hbeside.opened c hc).1⟩) hglobals hb hblock
  | marks =>
    intro id hid
    change (w.setWritable.block id).Within P
    rw [Work.block_setWritable]
    split
    · exact (h id hid).of_info (Block.setWritable_eq _)
    · exact h id hid
  | opens => exact (hopen (by simp)).2
  | control line hop =>
    obtain ⟨hself, hopen⟩ := hopen (by simp)
    exact hmodify hopen fun hb => hb.emitControl (hop _) hself _
  | @declares info v x hv =>
    obtain ⟨hself, hopen⟩ := hopen (by simp)
    refine hmodify (hmodify hopen fun hb => hb.info info) fun hb => hb.bind ?_ x
    intro c hc
    have heq : c = w.arena.size := by
      rcases hv.header with ⟨f, -, -, rfl⟩ | ⟨k, -, -, -, rfl, -⟩ <;>
        exact (Option.some.inj hc).symm
    rw [heq]
    exact hself
  | closes => exact h

/-- Edits refer to what is in the unit, to what is new and to what the globals refer to. -/
theorem edits_within (hbeside : Beside a w) (hnew : ∀ id, a.size ≤ id → id < w'.arena.size → P id)
    (h : w.arena.UnitWithin a.size P) (hglobals : s.globals.All (Binding.Within P))
    (hedits : Edits s w w') :
    w'.arena.UnitWithin a.size P := by
  induction hedits with
  | refl => exact h
  | tail hold hedit ih =>
    have hbefore := ih fun id hlow hlt => hnew id hlow (Nat.lt_of_lt_of_le hlt hedit.size_le)
    exact edit_within (hbeside.edits hold) hnew hbefore hglobals hedit

/-- **Every edit keeps an arena closed**, if the global names refer to what is before the unit. -/
theorem edits_closed (hbeside : Beside a w) (h : w.arena.Closed)
    (hglobals : s.globals.All (Binding.Below a.size)) (hedits : Edits s w w') :
    w'.arena.Closed := by
  have hbehind := hbeside.edits hedits
  have hsize := Edits.size_le hedits
  have hnames : s.globals.All (Binding.Within (· < w'.arena.size)) :=
    hglobals.imp fun v hv id hid => Nat.lt_of_lt_of_le (hv id hid) hbehind.kept.le
  intro id
  rcases Nat.lt_or_ge id a.size with hold | hnew
  · -- the blocks before the unit are what they were
    have hsame : w'.arena.block id = w.arena.block id :=
      (hbehind.kept.block hold).trans (hbeside.kept.block hold).symm
    rw [hsame]
    exact (h id).mono hsize
  · exact edits_within hbeside (fun _ _ hlt => hlt)
      (fun id _ => (h id).mono hsize) hnames hedits id hnew

end Compile

/-- The blocks of a unit refer to its own blocks and to what names stand for. -/
theorem Arena.compile_unitWithin {a a' : Arena} {scope : Scope} {P : BlockId → Prop}
    (hglobals : scope.globals.All (Binding.Within P)) {text : String} {root : BlockId}
    (hcompile : a.compile scope text = .ok (root, a'))
    (hnew : ∀ id, a.size ≤ id → id < a'.size → P id) : a'.UnitWithin a.size P := by
  obtain ⟨-, _, -, w, rfl, -, hedits, -⟩ := Arena.compile_edits hcompile
  exact Compile.edits_within (.start a) hnew (.push_empty a P) hglobals hedits

/-- **A unit keeps an arena closed.** -/
theorem Arena.Closed.compile {a a' : Arena} (h : a.Closed) {scope : Scope}
    (hglobals : scope.globals.All (Binding.Below a.size)) {text : String} {root : BlockId}
    (hcompile : a.compile scope text = .ok (root, a')) : a'.Closed := by
  obtain ⟨-, _, -, w, rfl, -, hedits, -⟩ := Arena.compile_edits hcompile
  refine Compile.edits_closed (.start a) ?_ hglobals hedits
  rw [Arena.Closed, Array.size_push]
  exact Arena.Every.push (fun id => (h id).mono (Nat.le_succ _)) (.empty _)

/-! ### Registries -/

namespace Registry

variable {r r' : Registry}

/-- Whether blocks and stable numbers refer to blocks that are there, now and behind every
rollback. -/
structure Held (r : Registry) : Prop where
  now : r.arena.Closed
  children : ∀ id ∈ r.children, id < r.arena.size
  points : ∀ p ∈ r.savepoints, Arena.Closed (r.arena.take p.blocks) ∧
    ∀ id ∈ p.children, id < p.blocks

theorem held_iff : r.Held ↔ r.Throughout fun a p => a.Closed ∧ ∀ id ∈ p.children, id < p.blocks :=
  ⟨fun h => ⟨⟨h.now, h.children⟩, h.points⟩, fun h => ⟨h.now.1, h.now.2, h.points⟩⟩

theorem new_held (limits : Limits) (extensions : List Extension) :
    (Registry.new limits extensions).Held := by
  have hall : ∀ r : Registry, r.Held → (extensions.foldl extend r).Held := by
    induction extensions with
    | nil => exact fun _ h => h
    | cons e es ih => exact fun r h => ih _ ⟨h.now, h.children, h.points⟩
  exact hall _ ⟨Arena.closed_empty, by simp, by simp⟩

/-- A block that is entered gets a stable number, which refers to it. -/
theorem enter_held (h : r.arena.Closed) (hchildren : ∀ id ∈ r.children, id < r.arena.size)
    (child : BlockId) : (r.enter child).arena.Closed ∧
      ∀ id ∈ (r.enter child).children, id < (r.enter child).arena.size := by
  unfold enter
  split
  · exact ⟨h, hchildren⟩
  · rename_i name id binding hheader
    have hchild := lt_size_of_header hheader
    have hclosed : ∀ n, Arena.Closed (r.arena.modify child (·.setId n)) := by
      intro n
      rw [Arena.Closed, Array.size_modify]
      exact Arena.Every.modify h fun hb => hb.setId n
    refine ⟨hclosed _, fun j hj => ?_⟩
    show j < (Array.modify _ _ _).size
    rw [Array.size_modify]
    cases hid : r.stableId? name with
    | none =>
      rw [hid] at hj
      rcases Array.mem_push.1 hj with hold | rfl
      · exact hchildren j hold
      · exact hchild
    | some n =>
      rw [hid] at hj
      -- A name that was there keeps its number, and its child is replaced.
      rcases Array.mem_or_eq_of_mem_setIfInBounds hj with hold | rfl
      · exact hchildren j hold
      · exact hchild

/-- Blocks of a unit are entered, and all that is referred to is there. -/
theorem foldl_enter_held (ids : List BlockId) (h : r.arena.Closed)
    (hchildren : ∀ id ∈ r.children, id < r.arena.size) : (ids.foldl enter r).arena.Closed ∧
      ∀ id ∈ (ids.foldl enter r).children, id < (ids.foldl enter r).arena.size := by
  induction ids generalizing r with
  | nil => exact ⟨h, hchildren⟩
  | cons id ids ih =>
    obtain ⟨hclosed, hbelow⟩ := enter_held h hchildren id
    exact ih hclosed hbelow

/-- A unit that is compiled refers to what is there. -/
theorem compile_held (hsound : r.Sound) (hlinked : r.Linked) (h : r.Held) {state : UInt32}
    {text : String} (hcompile : r.compile state text = .ok r') : r'.Held := by
  have hpoints := (held_iff.1 h).points_grew hsound (compile_grew hcompile)
  obtain ⟨root, arena, hunit, rfl⟩ := compile_eq_ok.1 hcompile
  have hglobals : (r.scope state).globals.All (Binding.Below r.arena.size) := hlinked.now
  have hclosed : arena.Closed := h.now.compile hglobals hunit
  obtain ⟨-, w, rfl, hbeside⟩ := Arena.compile_beside hunit
  obtain ⟨hnow, hchildren⟩ := foldl_enter_held (r := { r with arena := w.arena })
    (w.arena.block root).children.toList hclosed
    fun id hid => Nat.lt_of_lt_of_le (h.children id hid) hbeside.kept.le
  rw [Array.foldl_toList] at hnow hchildren
  exact ⟨hnow, hchildren, hpoints⟩

/-- So does a condition. -/
theorem compileEval_held (hsound : r.Sound) (hlinked : r.Linked) (h : r.Held) {state : UInt32}
    {text : String} {id : BlockId} (hcompile : r.compileEval state text = .ok (id, r')) :
    r'.Held := by
  have hgrew := compileEval_grew hcompile
  have hpoints := (held_iff.1 h).points_grew hsound hgrew
  rcases compileEval_cases hcompile with rfl | ⟨arena, hunit, rfl, rfl⟩
  · exact h
  · have hglobals : (r.scope state).globals.All (Binding.Below r.arena.size) := hlinked.now
    have hclosed : arena.Closed := h.now.compile hglobals hunit
    refine ⟨?_, fun id hid => Nat.lt_of_lt_of_le (h.children id hid) hgrew.arena.le, hpoints⟩
    show Arena.Every (Block.Below (Array.modify _ _ _).size) _
    rw [Array.size_modify]
    exact Arena.Every.modify hclosed fun hb => hb.modifyFunc _

end Registry

namespace Session

variable {s : Session}

/-- So does what any operation leaves. -/
theorem perform_held (hsound : s.registry.Sound) (hlinked : s.registry.Linked)
    (h : s.registry.Held) (op : Operation) : (s.perform op).registry.Held := by
  have heval : ∀ state text, (s.compileEval state text).2.registry.Held := by
    intro state text
    rcases s.compileEval_registry state text with hsame | ⟨id, hcompile⟩
    · exact (congrArg Registry.Held hsame).mpr h
    · exact Registry.compileEval_held hsound hlinked h hcompile
  cases op with
  | extend e => exact ⟨h.now, h.children, h.points⟩
  | compile state text =>
    rcases s.compile_registry state text with hsame | hcompile
    · exact (congrArg Registry.Held hsame).mpr h
    · exact Registry.compile_held hsound hlinked h hcompile
  | compileEval state text => exact heval state text
  | evalIf state text =>
    rcases evalIf_registry s state text with hsame | hsame
    · exact (congrArg Registry.Held hsame).mpr h
    · exact (congrArg Registry.Held hsame).mpr (heval state text)
  | savepoint => exact Registry.held_iff.2 (Registry.held_iff.1 h).savepoint
  | rollback => exact Registry.held_iff.2 ((Registry.held_iff.1 h).rollback hsound)
  | release => exact Registry.held_iff.2 (Registry.held_iff.1 h).release
  | run | runContract | provide => exact h
  | configure => exact ⟨h.now, h.children, h.points⟩

theorem Reachable.held (h : s.Reachable) : s.registry.Held := by
  induction h with
  | new limits extensions => exact Registry.new_held limits extensions
  | perform op hs ih => exact perform_held hs.sound hs.linked ih op

end Session

/-- Whether no number of a registry dangles: all that blocks, names, stable numbers and compiled
conditions refer to is in the arena, and all that a savepoint holds lies below the size it
remembers, which the arena still has. A block is older than the blocks in it. -/
structure Registry.Closed (r : Registry) : Prop where
  blocks : ∀ b id, (r.block b).Refers id → id < r.arena.size
  older : ∀ id p, (r.block id).parent = some p → p < id
  objects : ∀ x v id, r.objects.get? x = some v → v.block? = some id → id < r.arena.size
  children : ∀ id ∈ r.children, id < r.arena.size
  evals : ∀ e ∈ r.evals, e.2 < r.arena.size
  savepoints : ∀ p ∈ r.savepoints, p.blocks ≤ r.arena.size ∧
    (∀ x v id, p.objects.get? x = some v → v.block? = some id → id < p.blocks) ∧
    ∀ id ∈ p.children, id < p.blocks

/-- **No number of a host's registry dangles**, whatever the host has compiled, kept and dropped. -/
theorem Session.Reachable.closed {s : Session} (h : s.Reachable) : s.registry.Closed where
  blocks := h.held.now
  older := h.known.now.marks.older
  objects x v id hx hv := h.linked.now x v hx id hv
  children := h.held.children
  evals := h.sound.evals
  savepoints p hp := ⟨h.sound.marks p hp, fun x v id hx hv => h.linked.points p hp x v hx id hv,
    (h.held.points p hp).2⟩

/-- Numbers behind a failed unit, a condition and a rollback to the first of two savepoints. -/
theorem Session.Reachable.closed_behind_rollback :
    let ops := [.compile 1 "func f int \x7b return 1 \x7d", .savepoint,
      .compile 1 "func g \x7b f() \x7d",
      .savepoint, .compile 1 "contract X \x7b action \x7b g() \x7d \x7d", .compile 1 "func h \x7b",
      .evalIf 1 "f() == 1", .rollback]
    (Session.new.performAll ops).Reachable ∧ (Session.new.performAll ops).registry.Closed := by
  intro ops
  have hreachable : (Session.new.performAll ops).Reachable := Reachable.start.performAll ops
  exact ⟨hreachable, hreachable.closed⟩

end Covenant
