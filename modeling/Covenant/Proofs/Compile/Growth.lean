import Covenant.Proofs.Compile.Outcome
import Covenant.Proofs.Compile.Units

/-!
# A unit is compiled beside what is there

Compiling a unit adds blocks at the end of the arena and changes none of the blocks before them
(`Arena.compile_beside`). The blocks that a unit opens, those it notes as children and those it
binds names to are all its own (`Beside`); every edit keeps this.
-/

namespace Covenant

namespace Arena

/-- Whether an arena starts with the blocks of another one. -/
def Precedes (a a' : Arena) : Prop := ∀ i < a.size, a'[i]? = a[i]?

namespace Precedes

variable {a a' a'' : Arena}

theorem refl (a : Arena) : a.Precedes a := fun _ _ => rfl

theorem le (h : a.Precedes a') : a.size ≤ a'.size := by
  by_contra hlt
  have hget := h a'.size (Nat.lt_of_not_le hlt)
  rw [Array.getElem?_eq_none (Nat.le_refl _),
    Array.getElem?_eq_getElem (Nat.lt_of_not_le hlt)] at hget
  cases hget

theorem trans (h : a.Precedes a') (h' : a'.Precedes a'') : a.Precedes a'' :=
  fun i hi => (h' i (Nat.lt_of_lt_of_le hi h.le)).trans (h i hi)

theorem push (h : a.Precedes a') (b : Block) : a.Precedes (a'.push b) := by
  intro i hi
  rw [Array.getElem?_push, if_neg (Nat.ne_of_lt (Nat.lt_of_lt_of_le hi h.le))]
  exact h i hi

theorem modify (h : a.Precedes a') {id : BlockId} (hid : a.size ≤ id) (f : Block → Block) :
    a.Precedes (a'.modify id f) := by
  intro i hi
  rw [Array.getElem?_modify, if_neg (Nat.ne_of_gt (Nat.lt_of_lt_of_le hi hid))]
  exact h i hi

theorem take (h : a.Precedes a') {n : Nat} (hn : a.size ≤ n) : a.Precedes (a'.take n) := by
  intro i hi
  have hin : i < a'.size := Nat.lt_of_lt_of_le hi h.le
  have hcut : (a'.take n)[i]? = a'[i]? := by
    have hmin : i < min n a'.size := Nat.lt_min.2 ⟨Nat.lt_of_lt_of_le hi hn, hin⟩
    simp [Array.take_eq_extract, hin, hmin]
  exact hcut.trans (h i hi)

/-- Cutting an arena back to the blocks it started with gives these. -/
theorem take_size (h : a.Precedes a') : a'.take a.size = a := by
  have hsize : (a'.take a.size).size = a.size := by
    have := h.le
    simp only [Array.take_eq_extract, Array.size_extract]
    omega
  apply Array.ext_getElem?
  intro i
  rcases Nat.lt_or_ge i a.size with hi | hi
  · exact h.take (Nat.le_refl _) i hi
  · rw [Array.getElem?_eq_none hi, Array.getElem?_eq_none (Nat.le_trans (Nat.le_of_eq hsize) hi)]

end Precedes

end Arena

namespace Compile

/-- Whether all that a unit opens and refers to lies behind an arena that it leaves alone. -/
structure Beside (a : Arena) (w : Work) : Prop where
  kept : a.Precedes w.arena
  opened : ∀ id ∈ w.opened, a.size ≤ id ∧ id < w.arena.size
  children : ∀ id, a.size ≤ id → ∀ c ∈ (w.block id).children, a.size ≤ c ∧ c < w.arena.size
  bound : ∀ id, a.size ≤ id → ∀ x v, (w.block id).objects.get? x = some v →
    ∀ c, v.block? = some c → a.size ≤ c ∧ c < w.arena.size

namespace Beside

variable {a : Arena} {s : Source} {w w' : Work}

/-- Changing an open block stays beside the arena, if names are bound anew to open blocks only. -/
theorem modify (h : Beside a w) {id : BlockId} {f : Block → Block} (hid : id ∈ w.opened)
    (hchildren : (f (w.block id)).children = (w.block id).children)
    (hobjects : ∀ x v, (f (w.block id)).objects.get? x = some v →
      (w.block id).objects.get? x = some v ∨ ∀ c, v.block? = some c → c ∈ w.opened) :
    Beside a (w.modifyBlock id f) := by
  obtain ⟨hlow, hhigh⟩ := h.opened id hid
  refine ⟨h.kept.modify hlow f, ?_, ?_, ?_⟩
  · rw [Work.size_modifyBlock]
    exact h.opened
  · intro j hj c hc
    rw [Work.size_modifyBlock]
    by_cases hij : id = j
    · subst hij
      rw [Work.block_modifyBlock_self hhigh, hchildren] at hc
      exact h.children id hj c hc
    · rw [Work.block_modifyBlock_of_ne w hij] at hc
      exact h.children j hj c hc
  · intro j hj x v hv c hc
    rw [Work.size_modifyBlock]
    by_cases hij : id = j
    · subst hij
      rw [Work.block_modifyBlock_self hhigh] at hv
      rcases hobjects x v hv with hold | hbound
      · exact h.bound id hj x v hold c hc
      · exact h.opened c (hbound c hc)
    · rw [Work.block_modifyBlock_of_ne w hij] at hv
      exact h.bound j hj x v hv c hc

/-- A mark lies beside the arena, as only what is open gets it. -/
theorem setWritable (h : Beside a w) : Beside a w.setWritable := by
  have hall : ∀ (ids : List BlockId) (w : Work), Beside a w → (∀ id ∈ ids, id ∈ w.opened) →
      Beside a (ids.foldl (fun w id => w.modifyBlock id Block.setWritable) w) := by
    intro ids
    induction ids with
    | nil => exact fun _ h _ => h
    | cons id ids ih =>
      intro w h hids
      obtain ⟨hid, hids⟩ := List.forall_mem_cons.1 hids
      refine ih _ (h.modify hid ?_ fun x v hv => .inl ?_) hids
      · rw [Block.setWritable_eq]
      · rwa [Block.setWritable_eq] at hv
  exact hall w.opened w h fun _ h => h

/-- The block that opening a block leaves with a number. -/
theorem block_openBlock_cases (h : Beside a w) (id : BlockId) :
    w.openBlock.block id = { parent := some w.top } ∨
      w.openBlock.block id = w.block id ∨
      w.openBlock.block id
        = { w.block id with children := (w.block id).children.push w.arena.size } := by
  have htop := (h.opened w.top (top_mem_opened w)).2
  by_cases hnew : id = w.arena.size
  · subst hnew
    exact .inl (Work.block_openBlock_new htop)
  · by_cases hid : id = w.top
    · subst hid
      exact .inr (.inr (Work.block_openBlock_top htop))
    · refine .inr (.inl ?_)
      show Arena.block (Array.modify _ _ _) _ = _
      rw [Arena.block_modify_of_ne _ (Ne.symm hid), Arena.block_push, if_neg hnew]
      rfl

/-- A block that is opened lies beside it. -/
theorem opens (h : Beside a w) : Beside a w.openBlock := by
  obtain ⟨hlow, hhigh⟩ := h.opened w.top (top_mem_opened w)
  have hgrow : ∀ c, a.size ≤ c ∧ c < w.arena.size → a.size ≤ c ∧ c < w.openBlock.arena.size := by
    intro c hc
    rw [Work.size_openBlock]
    exact ⟨hc.1, Nat.lt_succ_of_lt hc.2⟩
  have hnew : a.size ≤ w.arena.size ∧ w.arena.size < w.openBlock.arena.size := by
    rw [Work.size_openBlock]
    exact ⟨h.kept.le, Nat.lt_succ_self _⟩
  refine ⟨(h.kept.push _).modify hlow _, ?_, ?_, ?_⟩
  · intro id hid
    rcases List.mem_cons.1 hid with rfl | hold
    · exact hnew
    · exact hgrow id (h.opened id hold)
  · intro id hid c hc
    -- A block is new, left alone, or the parent of the new one.
    rcases h.block_openBlock_cases id with hb | hb | hb <;> rw [hb] at hc
    · exact absurd hc (Array.not_mem_empty c)
    · exact hgrow c (h.children id hid c hc)
    · rcases Array.mem_push.1 hc with hold | rfl
      · exact hgrow c (h.children id hid c hold)
      · exact hnew
  · intro id hid x v hv c hc
    rcases h.block_openBlock_cases id with hb | hb | hb <;> rw [hb] at hv
    · rw [Dict.get?_empty] at hv
      cases hv
    · exact hgrow c (h.bound id hid x v hv c hc)
    · exact hgrow c (h.bound id hid x v hv c hc)

/-- Every edit stays beside the arena. -/
theorem edit (h : Beside a w) (hedit : Edit s w w') : Beside a w' := by
  cases hedit with
  | note harena hroot hinner =>
    have hblock : w'.block = w.block := by
      funext id
      rw [Work.block, Work.block, harena]
    have hopened : w'.opened = w.opened := by
      rw [Work.opened, Work.opened, hinner, hroot]
    refine ⟨harena ▸ h.kept, ?_, ?_, ?_⟩
    · rw [hopened, harena]
      exact h.opened
    · rw [hblock, harena]
      exact h.children
    · rw [hblock, harena]
      exact h.bound
  | block hid hblock =>
    refine h.modify hid hblock.children fun x v hv =>
      (hblock.objects x v hv).imp_right fun hbound => ?_
    cases v with
    | contract | func | ext => exact absurd hbound id
    | var | extVar => exact fun c hc => by cases hc
  | marks => exact h.setWritable
  | opens => exact h.opens
  | control =>
    exact h.opens.modify (List.mem_cons_of_mem _ (top_mem_opened w)) rfl fun _ _ hv => .inl hv
  | @declares info v x hv =>
    have hinfo : Beside a (w.openBlock.modifyBlock w.arena.size fun b => { b with info := info }) :=
      h.opens.modify (List.mem_cons_self ..) rfl fun _ _ hv => .inl hv
    refine hinfo.modify (List.mem_cons_of_mem _ (top_mem_opened w)) rfl fun y u hu => ?_
    rw [Dict.get?_insert] at hu
    split at hu
    · -- the name is bound to the block that has just been opened
      refine .inr fun c hc => ?_
      rw [← Option.some.inj hu] at hc
      have hself : c = w.arena.size := by
        rcases hv.header with ⟨f, -, -, rfl⟩ | ⟨k, -, -, -, rfl, -⟩ <;>
          exact (Option.some.inj hc).symm
      rw [hself]
      exact List.mem_cons_self ..
    · exact .inl hu
  | closes =>
    refine ⟨h.kept, fun id hid => h.opened id ?_, h.children, h.bound⟩
    rcases List.mem_append.1 hid with hinner | hroot
    · exact List.mem_append_left _ (List.mem_of_mem_tail hinner)
    · exact List.mem_append_right _ hroot

theorem edits (h : Beside a w) (hedits : Edits s w w') : Beside a w' := by
  induction hedits with
  | refl => exact h
  | tail _ hedit ih => exact ih.edit hedit

/-- A unit that is about to be compiled. -/
theorem start (a : Arena) : Beside a { arena := a.push { parent := none }, root := a.size } := by
  have hempty : ∀ id, a.size ≤ id →
      Arena.block (a.push { parent := none }) id = { parent := none } := by
    intro id hid
    rw [Arena.block_push]
    split
    · rfl
    · exact Arena.block_of_le hid
  refine ⟨(Arena.Precedes.refl a).push _, ?_, ?_, ?_⟩
  · intro id hid
    obtain rfl : id = a.size := List.mem_singleton.1 hid
    rw [Array.size_push]
    exact ⟨Nat.le_refl _, Nat.lt_succ_self _⟩
  · intro id hid c hc
    rw [Work.block, hempty id hid] at hc
    exact absurd hc (Array.not_mem_empty c)
  · intro id hid x v hv
    rw [Work.block, hempty id hid, Dict.get?_empty] at hv
    cases hv

end Beside

end Compile

/-! ### What every block keeps -/

namespace Compile

/-- A property that new blocks have and that every edit keeps of every block. -/
structure EditInvariant (s : Source) (P : Block → Prop) : Prop where
  empty : ∀ p, P { parent := p }
  children : ∀ {b : Block} (children : Array BlockId), P b → P { b with children := children }
  mark : ∀ {b : Block}, P b → P b.setWritable
  control : ∀ {b : Block} {op : Op} {c : BlockId} (line : Nat), op.body? = some c → P b →
    P (b.emit ⟨op, line⟩)
  header : ∀ {w : Work} {x : String} {info : BlockInfo} {v : Binding} {b : Block},
    Declares w x info v → P b → P { b with info := info }
  name : ∀ {w : Work} {x : String} {info : BlockInfo} {v : Binding} {b : Block},
    Declares w x info v → P b → P { b with objects := b.objects.insert x v }
  change : ∀ {w : Work} {id : BlockId} {b b' : Block}, w.arena.Every P → BlockEdit s w id b b' →
    P b → P b'

namespace EditInvariant

variable {s : Source} {P : Block → Prop} {w w' : Work}

theorem openBlock (hP : EditInvariant s P) (h : w.arena.Every P) : w.openBlock.arena.Every P :=
  (Arena.Every.push h (hP.empty _)).modify fun hb => hP.children _ hb

/-- What every block has after each change of a block is kept by an edit. -/
theorem edit (hP : EditInvariant s P) (h : w.arena.Every P) (hedit : Edit s w w') :
    w'.arena.Every P := by
  cases hedit with
  | note harena => exact harena ▸ h
  | block _ hblock => exact Arena.Every.modify h fun hb => hP.change h hblock hb
  | marks =>
    intro id
    change P (w.setWritable.block id)
    rw [Work.block_setWritable]
    split
    · exact hP.mark (h id)
    · exact h id
  | opens => exact hP.openBlock h
  | control line hop =>
    exact Work.every_modifyBlock (hP.openBlock h) fun hb => hP.control line (hop _) hb
  | @declares info v x hv =>
    have hinfo : (w.openBlock.modifyBlock w.arena.size fun b =>
        { b with info := info }).arena.Every P :=
      Work.every_modifyBlock (hP.openBlock h) fun hb => hP.header hv hb
    exact Work.every_modifyBlock hinfo fun hb => hP.name hv hb
  | closes => exact h

theorem edits (hP : EditInvariant s P) (h : w.arena.Every P) (hedits : Edits s w w') :
    w'.arena.Every P := by
  induction hedits with
  | refl => exact h
  | tail _ hedit ih => exact hP.edit ih hedit

end EditInvariant

end Compile

/-- A unit that compiles has been edited into the arena, from a block of its own on. In the end
nothing is open, and the `conditions` of no contract are marked. -/
theorem Arena.compile_edits {a a' : Arena} {scope : Scope} {text : String} {root : BlockId}
    (h : a.compile scope text = .ok (root, a')) :
    root = a.size ∧ ∃ lexemes, Lexeme.read text = .ok lexemes ∧ ∃ w : Compile.Work, w.arena = a' ∧
      Compile.unit (scope.source lexemes)
        { arena := a.push { parent := none }, root := a.size } = .ok () w ∧
      Compile.Edits (scope.source lexemes)
        { arena := a.push { parent := none }, root := a.size } w ∧
      w.inner = [] ∧ ∀ c ∈ (w.block w.root).children, Compile.conditionsWrite w.arena c
        = false := by
  obtain ⟨hroot, lexemes, w, hread, hunit, rfl⟩ := unit_of_compile h
  exact ⟨hroot, lexemes, hread, w, rfl, hunit, (Compile.tends_unit rfl rfl).leads () w hunit⟩

/-- A unit keeps what every block has and what every edit keeps. -/
theorem Compile.EditInvariant.compile {P : Block → Prop} {a a' : Arena}
    {scope : Scope} {text : String} {root : BlockId} (ha : a.Every P)
    (h : a.compile scope text = .ok (root, a')) (hP : ∀ lexemes, Lexeme.read text = .ok lexemes →
    EditInvariant (scope.source lexemes) P) :
    a'.Every P := by
  obtain ⟨-, lexemes, hread, w, rfl, -, hedits, -⟩ := Arena.compile_edits h
  have hstart : Arena.Every P (a.push { parent := none }) := ha.push ((hP lexemes hread).empty none)
  exact (hP lexemes hread).edits hstart hedits

/-- **A unit is compiled beside the arena.** -/
theorem Arena.compile_beside {a a' : Arena} {scope : Scope} {text : String} {root : BlockId}
    (h : a.compile scope text = .ok (root, a')) :
    root = a.size ∧ ∃ w : Compile.Work, w.arena = a' ∧ Compile.Beside a w := by
  obtain ⟨hroot, lexemes, -, w, harena, -, hedits, -⟩ := compile_edits h
  exact ⟨hroot, w, harena, (Compile.Beside.start a).edits hedits⟩

/-- **A unit that does not compile leaves the arena as it was**, wherever the compiler stops: what
it has changed by then are blocks of the unit, and these are dropped. -/
theorem Arena.compileUnit_fails {a a' : Arena} {scope : Scope} {text : String} {e : Error}
    (h : a.compileUnit scope text = (.error e, a')) : a' = a := by
  rcases compileUnit_cases a scope text with
    ⟨e', -, heq⟩ | ⟨lexemes, -, ⟨w, -, heq⟩ | ⟨e', w, hunit, heq⟩⟩ <;> cases heq.symm.trans h
  · rfl
  · have hedits := (Compile.tends_unit rfl rfl).fails e' w hunit
    exact ((Compile.Beside.start a).edits hedits).kept.take_size

end Covenant
