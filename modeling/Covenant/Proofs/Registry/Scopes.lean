import Covenant.Proofs.Compile.Scopes
import Covenant.Proofs.Registry.Linked

/-!
# Scopes in a registry

What code mentions and calls can be seen from where the code is, whatever a host compiles, keeps and
drops (`Session.Reachable.lexical`), and the functions that are known by global names are those of
units (`Session.Reachable.topLevel`).

Both are properties of the blocks together with the names that go with them. Such a property holds
in every registry of a host if compiling keeps it, for what a savepoint has noted has it too, and a
rollback returns to that (`TableInvariant`).
-/

namespace Covenant

/-! ### What blocks and names keep -/

/-- Whether a property of blocks and global names holds in an empty registry, and extensions, units
and conditions keep it. -/
structure TableInvariant (Q : Arena → Dict Binding → Prop) : Prop where
  empty : Q #[] .empty
  extend : ∀ {a : Arena} {objects : Dict Binding} (e : Extension), Q a objects →
    Q a (objects.insert e.name (.ext e))
  compile : ∀ {s : Session} {r : Registry} {state : UInt32} {text : String}, s.Reachable →
    Q s.registry.arena s.registry.objects → s.registry.compile state text = .ok r →
    Q r.arena r.objects
  condition : ∀ {s : Session} {r : Registry} {state : UInt32} {text : String} {id : BlockId},
    s.Reachable → Q s.registry.arena s.registry.objects →
      s.registry.compileEval state text = .ok (id, r) → Q r.arena r.objects

/-- Whether a property of blocks and global names holds now and behind every rollback. -/
structure Registry.Stands (Q : Arena → Dict Binding → Prop) (r : Registry) : Prop where
  now : Q r.arena r.objects
  points : ∀ p ∈ r.savepoints, Q (r.arena.take p.blocks) p.objects

theorem Registry.stands_iff {Q : Arena → Dict Binding → Prop} {r : Registry} :
    r.Stands Q ↔ r.Throughout fun a p => Q a p.objects :=
  ⟨fun h => ⟨h.now, h.points⟩, fun h => ⟨h.now, h.points⟩⟩

namespace TableInvariant

variable {Q : Arena → Dict Binding → Prop} {r r' : Registry} {s : Session}

theorem new (hQ : TableInvariant Q) (limits : Limits) (extensions : List Extension) :
    (Registry.new limits extensions).Stands Q := by
  have hall : ∀ r : Registry, r.Stands Q → (extensions.foldl Registry.extend r).Stands Q := by
    induction extensions with
    | nil => exact fun _ h => h
    | cons e es ih => exact fun r h => ih _ ⟨hQ.extend e h.now, h.points⟩
  exact hall _ ⟨hQ.empty, fun p hp => absurd hp List.not_mem_nil⟩

/-- What is behind the savepoints stays when blocks are added. -/
theorem grew (hsound : r.Sound) (h : r.Stands Q) (hgrew : r.Grew r')
    (hnow : Q r'.arena r'.objects) :
    r'.Stands Q :=
  ⟨hnow, (Registry.stands_iff.1 h).points_grew hsound hgrew⟩

theorem compileEval (hQ : TableInvariant Q) (hs : s.Reachable) (h : s.registry.Stands Q)
    (state : UInt32) (text : String) : (s.compileEval state text).2.registry.Stands Q := by
  rcases s.compileEval_registry state text with hsame | ⟨id, hcompile⟩
  · exact hsame ▸ h
  · exact grew hs.sound h (Registry.compileEval_grew hcompile) (hQ.condition hs h.now hcompile)

/-- What tables keep holds behind every operation. -/
theorem perform (hQ : TableInvariant Q) (hs : s.Reachable) (h : s.registry.Stands Q)
    (op : Operation) : (s.perform op).registry.Stands Q := by
  cases op with
  | extend e => exact ⟨hQ.extend e h.now, h.points⟩
  | compile state text =>
    show (s.compile state text).2.registry.Stands Q
    rcases s.compile_registry state text with hsame | hcompile
    · exact hsame ▸ h
    · exact grew hs.sound h (Registry.compile_grew hcompile) (hQ.compile hs h.now hcompile)
  | compileEval state text => exact hQ.compileEval hs h state text
  | evalIf state text =>
    rcases Session.evalIf_registry s state text with hsame | hsame
    · exact hsame ▸ h
    · exact hsame ▸ hQ.compileEval hs h state text
  | savepoint => exact Registry.stands_iff.2 (Registry.stands_iff.1 h).savepoint
  | rollback => exact Registry.stands_iff.2 ((Registry.stands_iff.1 h).rollback hs.sound)
  | release => exact Registry.stands_iff.2 (Registry.stands_iff.1 h).release
  | run | runContract | provide => exact h
  | configure => exact ⟨h.now, h.points⟩

end TableInvariant

/-- **The blocks and names of a host's registry have what compiling keeps.** -/
theorem Session.Reachable.table {Q : Arena → Dict Binding → Prop} {s : Session} (h : s.Reachable)
    (hQ : TableInvariant Q) : Q s.registry.arena s.registry.objects := by
  have hstands : s.registry.Stands Q := by
    induction h with
    | new limits extensions => exact hQ.new limits extensions
    | perform op hs ih => exact hQ.perform hs ih op
  exact hstands.now

/-! ### Places of variables -/

/-- The places of variables are kept by all edits of a block. -/
theorem Block.Places.invariant : BlockInvariant Block.Places where
  empty x i hx := by
    rw [Dict.get?_empty] at hx
    cases hx
  unit ha hunit := Compile.EditInvariant.compile ha hunit fun _ _ => Compile.editInvariant_places _
  setId {b} id hb := by
    obtain ⟨_, info, _, _, _, _⟩ := b
    cases info <;> exact hb
  hidden {b} hb := by
    obtain ⟨_, info, _, _, _, _⟩ := b
    cases info <;> exact hb

/-! ### Scopes -/

/-- What is known of scopes: code mentions what it can see, global functions are those of units, and
nothing that can be run lies around the functions of contracts. -/
structure Arena.Lexical (a : Arena) (objects : Dict Binding) : Prop where
  scopes : a.Scoped
  sections : ∀ c, (a.block c).contract? ≠ none → ∀ x g,
    (a.block c).objects.get? x = some (.func g) → a.Alone g
  globals : ∀ x g, objects.get? x = some (.func g) → a.TopLevel g

namespace Registry

variable {r r' : Registry}

/-- Changing the header of a block, but not its kind, keeps what is known of scopes. -/
theorem lexical_header {a : Arena} {objects : Dict Binding} {f : Block → Block}
    (h : a.Lexical objects) (hmarks : a.Marks) (hf : ∀ b, f b = { b with info := (f b).info })
    (hkind : ∀ b, (f b).standing = b.standing) (id : BlockId) :
    a.Enlarges (a.modify id f) ∧ Arena.Lexical (a.modify id f) objects := by
  have hgrows : a.Enlarges (a.modify id f) := by
    refine .modify ?_
    rw [hf]
    refine .header ?_
    rw [← hf, hkind]
  have hsame : ∀ b, (Arena.block (a.modify id f) b).code = (a.block b).code ∧
      (Arena.block (a.modify id f) b).objects = (a.block b).objects ∧
      ((Arena.block (a.modify id f) b).contract? = none ↔ (a.block b).contract? = none) := by
    intro b
    rw [Arena.block_modify]
    split
    · rw [Block.contract?_eq_none_iff, Block.contract?_eq_none_iff, hkind, hf]
      exact ⟨rfl, rfl, Iff.rfl⟩
    · exact ⟨rfl, rfl, Iff.rfl⟩
  refine ⟨hgrows, h.scopes.enlarge hmarks hgrows fun b => (hsame b).1, fun c hc x g hx => ?_,
    fun x g hx => hgrows.topLevel hmarks.older (h.globals x g hx)⟩
  rw [Ne, (hsame c).2.2] at hc
  rw [(hsame c).2.1] at hx
  exact hgrows.alone hmarks.older (h.sections c hc x g hx)

/-- Entering a function of a unit keeps what is known of scopes. -/
theorem enter_lexical (hmarks : r.arena.Marks) (h : r.arena.Lexical r.objects) {child p : BlockId}
    (hparent : (r.block child).parent = some p) (hunit : r.arena.IsUnit p) :
    (r.enter child).arena.Lexical (r.enter child).objects ∧
      r.arena.Enlarges (r.enter child).arena ∧ (r.enter child).arena.Marks := by
  unfold enter
  split
  · exact ⟨h, .refl _, hmarks⟩
  · rename_i name id binding hheader
    have hheaders := fun n => lexical_header (f := (·.setId n)) h hmarks
      (by rintro ⟨_, info, _, _, _, _⟩; cases info <;> rfl)
      (by rintro ⟨_, info, _, _, _, _⟩; cases info <;> rfl) child
    dsimp only
    refine ⟨⟨(hheaders _).2.scopes, (hheaders _).2.sections, fun x g hx => ?_⟩, (hheaders _).1,
      (alike_setId r.arena child _).marks hmarks⟩
    rw [Dict.get?_insert] at hx
    split at hx
    · -- the name of the block comes to stand for it
      refine (hheaders _).1.topLevel hmarks.older ?_
      have hself := (Block.header?_eq_some hheader).2
      rw [Option.some.inj hx] at hself
      have hg := Block.block?_of_binding? hself
      cases hg
      refine ⟨?_, p, hparent, hunit⟩
      show (r.block child).standing.IsFunc
      unfold Block.binding? at hself
      unfold Block.standing
      split at hself
      · rename_i f hinfo
        rw [hinfo]
        exact ⟨_, rfl⟩
      · cases hself
      · cases hself
    · exact (hheaders _).2.globals x g hx

/-- Blocks of a unit are entered where all units see them. -/
theorem foldl_enter_lexical (ids : List BlockId) {p : BlockId} (hmarks : r.arena.Marks)
    (h : r.arena.Lexical r.objects) (hids : ∀ id ∈ ids, (r.block id).parent = some p)
    (hunit : r.arena.IsUnit p) : (ids.foldl enter r).arena.Lexical (ids.foldl enter r).objects := by
  induction ids generalizing r with
  | nil => exact h
  | cons id ids ih =>
    obtain ⟨hid, hids⟩ := List.forall_mem_cons.1 hids
    obtain ⟨hlexical, hgrows, hmarks'⟩ := enter_lexical hmarks h hid hunit
    have hp : p < r.arena.size := (hmarks.older id p hid).trans (Arena.lt_size_of_parent hid)
    refine ih hmarks' hlexical (fun j hj => ?_) (hgrows.isUnit hp hunit)
    have hj := hids j hj
    exact ((hgrows.block j (Arena.lt_size_of_parent hj)).parent).trans hj

/-- There is nothing to be seen at first. -/
theorem new_lexical : Arena.Lexical #[] .empty := by
  have hblock : ∀ id, Arena.block #[] id = { parent := none } := fun id =>
    Arena.block_of_le (Nat.zero_le id)
  refine ⟨⟨fun b v hv => ?_, fun b i hi => ?_⟩, fun c hc => ?_, fun x g hx => ?_⟩
  · exact absurd (Arena.lt_size_of_mentions hv) (Nat.not_lt_zero b)
  · exact absurd (Arena.lt_size_of_mem_code hi) (Nat.not_lt_zero b)
  · rw [hblock] at hc
    exact absurd rfl hc
  · rw [Dict.get?_empty] at hx
    cases hx

/-- A unit keeps what is known of scopes. -/
theorem compile_lexical {s : Session} (hs : s.Reachable)
    (h : s.registry.arena.Lexical s.registry.objects) {state : UInt32} {text : String}
    {root : BlockId} {arena : Arena}
    (hunit : s.registry.arena.compile (s.registry.scope state) text = .ok (root, arena)) :
    arena.Marks ∧ arena.Lexical s.registry.objects ∧ arena.IsUnit root ∧
      ∀ c ∈ (arena.block root).children, (arena.block c).parent = some root := by
  have hknown : s.registry.arena.Known (s.registry.scope state).globals := hs.known.now
  have hmarks := hknown.marks
  obtain ⟨hscopes, hkept, hroot, hchildren, hnew⟩ := h.scopes.compile hmarks
    (hs.every Block.Places.invariant) hknown.globals h.globals hunit
  have hgrows := hkept.enlarges
  refine ⟨(hknown.compile hunit).1.marks, ⟨hscopes, fun c hc x g hx => ?_, fun x g hx => ?_⟩, hroot,
    hchildren⟩
  · rcases Nat.lt_or_ge c s.registry.arena.size with hlt | hle
    · rw [hkept.block hlt] at hc hx
      exact hgrows.alone hmarks.older (h.sections c hc x g hx)
    · exact hnew c hle hc x g hx
  · exact hgrows.topLevel hmarks.older (h.globals x g hx)

/-- What is known of scopes in a host's registry is kept. -/
theorem lexical_invariant : TableInvariant Arena.Lexical where
  empty := new_lexical
  extend e h := by
    refine { h with globals := fun x g hx => ?_ }
    rw [Dict.get?_insert] at hx
    split at hx
    · cases hx
    · exact h.globals x g hx
  compile {s r state text} hs h hcompile := by
    obtain ⟨root, arena, hunit, rfl⟩ := compile_eq_ok.1 hcompile
    obtain ⟨hmarks, hlexical, hroot, hchildren⟩ := compile_lexical hs h hunit
    rw [enterUnit, ← Array.foldl_toList]
    exact foldl_enter_lexical (r := { s.registry with arena := arena }) _ hmarks hlexical
      (fun id hid => hchildren id (Array.mem_toList_iff.1 hid)) hroot
  condition {s r state text id} hs h hcompile := by
    rcases compileEval_cases hcompile with rfl | ⟨arena, hunit, rfl, rfl⟩
    · exact h
    · obtain ⟨hmarks, hlexical, -⟩ := compile_lexical hs h hunit
      have hheader := lexical_header
        (f := fun b => b.modifyFunc fun f => { f with hidden := true }) hlexical hmarks
        (by rintro ⟨_, info, _, _, _, _⟩; cases info <;> rfl)
        (Block.standing_modifyFunc fun _ => rfl)
      exact (hheader _).2

end Registry

namespace Session

variable {s : Session}

/-- **In a host's registry, code mentions what it can see**, whatever the host compiles and
drops. -/
theorem Reachable.lexical (h : s.Reachable) : s.registry.arena.Lexical s.registry.objects :=
  h.table Registry.lexical_invariant

/-- The functions that a host can look up are those of units. -/
theorem Reachable.topLevel (h : s.Reachable) {name : String} {g : BlockId}
    (hg : s.registry.func? name = some g) : s.registry.arena.TopLevel g := by
  unfold Registry.func? at hg
  split at hg
  · rename_i id hname
    cases hg
    exact h.lexical.globals name _ hname
  · cases hg

end Session

end Covenant
