import Covenant.Library.Sample
import Covenant.Proofs.Compile.Uses
import Covenant.Proofs.Registry.Rollback

/-!
# Conditions lead to no write

Units are compiled one after the other, and a function may call functions of earlier units. The
marks of writing functions can be relied on throughout (`Registry.Known`), whatever a host does and
whatever it returns to. So no chain of calls that were bound when they were compiled leads from the
`conditions` of a contract to an instruction that calls a writing extension, or to a block that
calls a contract which was marked as writing when the call was compiled
(`Session.conditions_lead_to_no_write`).

`Session.Logged` keeps the calls of contracts for this, as `Arena.uses` notes them.
-/

namespace Covenant

namespace Arena

variable {a a' a'' : Arena} {b c f g : BlockId} {u : Use}

/-! ### Arenas with the same marks -/

/-- Whether the blocks of two arenas have the same place, names, code and standing. -/
structure Alike (a a' : Arena) : Prop where
  size : a'.size = a.size
  parent : ∀ id, (a'.block id).parent = (a.block id).parent
  standing : ∀ id, (a'.block id).standing = (a.block id).standing
  objects : ∀ id, (a'.block id).objects = (a.block id).objects
  code : ∀ id, (a'.block id).code = (a.block id).code

namespace Alike

theorem refl (a : Arena) : a.Alike a :=
  ⟨rfl, fun _ => rfl, fun _ => rfl, fun _ => rfl, fun _ => rfl⟩

theorem trans (h : a.Alike a') (h' : a'.Alike a'') : a.Alike a'' :=
  ⟨h'.size.trans h.size, fun id => (h'.parent id).trans (h.parent id),
    fun id => (h'.standing id).trans (h.standing id),
    fun id => (h'.objects id).trans (h.objects id), fun id => (h'.code id).trans (h.code id)⟩

/-- Changing a header without its standing keeps everything else. -/
theorem header {f : Block → Block} (hf : ∀ b, f b = { b with info := (f b).info })
    (hstanding : ∀ b, (f b).standing = b.standing) (id : BlockId) : a.Alike (a.modify id f) := by
  refine ⟨Array.size_modify, fun j => ?_, fun j => ?_, fun j => ?_, fun j => ?_⟩ <;>
    rw [block_modify] <;> split
  · rw [hf]
  · rfl
  · exact hstanding _
  · rfl
  · rw [hf]
  · rfl
  · rw [hf]
  · rfl

theorem within (h : a.Alike a') : a'.Within = a.Within := within_congr h.parent

theorem outermost (h : a.Alike a') (hb : a.Outermost b) : a'.Outermost b := by
  intro f hf hne
  rw [h.within] at hf
  rw [h.standing]
  exact hb f hf hne

theorem globals (h : a.Alike a') {objects : Dict Binding} (ha : a.Globals objects) :
    a'.Globals objects := by
  intro x g hx
  obtain ⟨hfunc, hout⟩ := ha x g hx
  exact ⟨(h.standing g).symm ▸ hfunc, h.outermost hout⟩

theorem marks (h : a.Alike a') (ha : a.Marks) : a'.Marks := by
  refine ⟨fun id p hp => ha.older id p ((h.parent id).symm.trans hp), fun id i hi => ?_⟩
  rw [h.code] at hi
  exact (ha.code id i hi).of_agree ha.older (fun id _ => h.parent id) (fun id _ => h.standing id)
    (lt_size_of_mem_code hi)

theorem noted (h : a.Alike a') (hu : u.Noted a) : u.Noted a' := by
  refine ⟨h.size ▸ hu.1, fun hwrite f hf => ?_⟩
  rw [h.within] at hf
  rw [h.standing]
  exact hu.2 hwrite f hf

end Alike

/-! ### Arenas that start alike -/

theorem take_precedes (a : Arena) (n : Nat) : Arena.Precedes (a.take n) a := by
  intro i hi
  have hcut : i < min n a.size := by simpa [Array.take_eq_extract] using hi
  simp [Array.take_eq_extract, hcut, (Nat.lt_min.1 hcut).2]

theorem size_take {n : Nat} (hn : n ≤ a.size) : (a.take n).size = n := by
  simp only [Array.take_eq_extract, Array.size_extract]
  omega

namespace Precedes

/-- What lies in both arenas can be cut out of either. -/
theorem take_eq (h : a.Precedes a') {n : Nat} (hn : n ≤ a.size) : a'.take n = a.take n := by
  have hcut := ((take_precedes a n).trans h).take_size
  rwa [size_take hn] at hcut

theorem symm_of_le (h : a.Precedes a') (hle : a'.size ≤ a.size) : a'.Precedes a :=
  fun i hi => (h i (Nat.lt_of_lt_of_le hi hle)).symm

theorem outermost (h : a.Precedes a') (holder : ∀ id p, (a'.block id).parent = some p → p < id)
    (hb : b < a.size) (hout : a.Outermost b) : a'.Outermost b := by
  intro f hf hne
  have hf' : f < a.size := Nat.lt_of_le_of_lt (hf.le holder) hb
  rw [h.within holder hb] at hf
  rw [h.block hf']
  exact hout f hf hne

/-- Calls of contracts in blocks that are there are noted as before when blocks are added. -/
theorem noted_iff (h : a.Precedes a')
    (holder : ∀ id p, (a'.block id).parent = some p → p < id) (hu : u.block < a.size) :
    u.Noted a' ↔ u.Noted a := by
  have hmarked : ∀ f, a'.Within u.block f → a'.block f = a.block f :=
    fun f hf => h.block (Nat.lt_of_le_of_lt (hf.le holder) hu)
  constructor
  · rintro ⟨-, hnoted⟩
    refine ⟨hu, fun hwrite f hf => ?_⟩
    rw [← h.within holder hu] at hf
    exact hmarked f hf ▸ hnoted hwrite f hf
  · rintro ⟨-, hnoted⟩
    refine ⟨Nat.lt_of_lt_of_le hu h.le, fun hwrite f hf => ?_⟩
    rw [hmarked f hf]
    exact hnoted hwrite f ((h.within holder hu).1 hf)

end Precedes

/-! ### Contracts and their sections -/

/-- What is known of an arena and the global names that go with it: the marks can be relied on, and
the functions of a contract lie in no other function, are marked only if the contract is, and are
not marked if they are its `conditions`. -/
structure Known (a : Arena) (objects : Dict Binding) : Prop where
  marks : a.Marks
  globals : a.Globals objects
  sections : ∀ c m, (a.block c).standing = .contract m → ∀ x f,
    (a.block c).objects.get? x = some (.func f) → (a.block f).standing.IsFunc ∧ a.Outermost f ∧
      ((a.block f).standing.writes = true → m = true)
  conditions : ∀ c m, (a.block c).standing = .contract m → ∀ f,
    (a.block c).objects.get? "conditions" = some (.func f) → (a.block f).standing.writes = false

/-- A function that lies in no other one is safe if it is not marked. -/
theorem Outermost.safe (h : a.Outermost f) (hfunc : (a.block f).standing.IsFunc)
    (hwrites : (a.block f).standing.writes = false) : a.Safe f := by
  refine ⟨⟨f, .refl, hfunc⟩, fun g hg hgfunc => ?_⟩
  by_cases hself : g = f
  · rwa [hself]
  · exact absurd hgfunc (h g hg hself)

namespace Known

variable {objects : Dict Binding}

/-- The `conditions` of a contract are safe. -/
theorem safe_conditions (h : a.Known objects) {m : Bool} (hc : (a.block c).standing = .contract m)
    (hf : (a.block c).objects.get? "conditions" = some (.func f)) : a.Safe f := by
  obtain ⟨hfunc, hout, -⟩ := h.sections c m hc _ f hf
  exact hout.safe hfunc (h.conditions c m hc f hf)

/-- Blocks that are alike are known alike. -/
theorem alike (h : a.Known objects) (halike : a.Alike a') : a'.Known objects := by
  refine ⟨halike.marks h.marks, halike.globals h.globals, fun c m hc x f hf => ?_,
    fun c m hc f hf => ?_⟩
  · rw [halike.standing] at hc
    rw [halike.objects] at hf
    obtain ⟨hfunc, hout, hwrites⟩ := h.sections c m hc x f hf
    rw [halike.standing]
    exact ⟨hfunc, halike.outermost hout, hwrites⟩
  · rw [halike.standing] at hc ⊢
    rw [halike.objects] at hf
    exact h.conditions c m hc f hf

/-- Names that stand for no function can be bound freely. -/
theorem insert (h : a.Known objects) {name : String} {v : Binding}
    (hv : ∀ g, v = .func g → (a.block g).standing.IsFunc ∧ a.Outermost g) :
    a.Known (objects.insert name v) := by
  refine { h with globals := fun x g hx => ?_ }
  rw [Dict.get?_insert] at hx
  split at hx
  · exact hv g (Option.some.inj hx)
  · exact h.globals x g hx

/-- **A unit keeps what is known,** and what it declares lies in no function. -/
theorem compile {scope : Scope} (h : a.Known scope.globals) {text : String} {root : BlockId}
    (hcompile : a.compile scope text = .ok (root, a')) :
    a'.Known scope.globals ∧ (∀ c ∈ (a'.block root).children, a'.Outermost c) ∧
      ∀ u ∈ a.uses scope text, u.Noted a' := by
  obtain ⟨w, rfl, rfl, hsound, hnoted, hconditions⟩ := compile_sound h.marks h.globals hcompile
  have hkept := hsound.beside.kept
  have holder := hsound.marks.older
  -- nothing lies around the contracts and functions of the unit but its root
  have houtermost : ∀ c, (w.block c).parent = some w.root → w.arena.Outermost c := by
    intro c hc g hg hne hfunc
    rcases hg.cases_head with rfl | ⟨p, hp, hg⟩
    · exact hne rfl
    · cases hc.symm.trans hp
      rcases hg.cases_head with rfl | ⟨p', hp', -⟩
      · obtain ⟨m, hm⟩ := hfunc
        cases hsound.rootPlain.symm.trans hm
      · cases hsound.rootParent.symm.trans hp'
  have hchild : ∀ c, c ∈ (w.block w.root).children ↔ (w.block c).parent = some w.root :=
    fun c => (hsound.children c w.root (Nat.le_of_eq hsound.root.symm)).symm
  refine ⟨⟨hsound.marks, h.globals.grow hkept holder, fun c m hc x f hf => ?_,
    fun c m hc f hf => ?_⟩, fun c hc => houtermost c ((hchild c).1 hc), hnoted⟩
  · rcases Nat.lt_or_ge c a.size with hlt | hle
    · rw [hkept.block hlt] at hc hf
      obtain ⟨hfunc, hout, hwrites⟩ := h.sections c m hc x f hf
      have hf' := lt_size_of_isFunc hfunc
      rw [hkept.block hf']
      exact ⟨hfunc, hkept.outermost holder hf' hout, hwrites⟩
    · obtain ⟨hparent, hfunc⟩ := hsound.bound c hle x f hf
      have hcontract := hsound.contracts c m hle hc
      refine ⟨hfunc, fun g hg hne hgfunc => ?_, fun hwrites => ?_⟩
      · rcases hg.cases_head with rfl | ⟨p, hp, hg⟩
        · exact hne rfl
        · cases hparent.symm.trans hp
          by_cases hself : g = c
          · obtain ⟨m', hm'⟩ := hgfunc
            rw [hself] at hm'
            cases hc.symm.trans hm'
          · exact houtermost c hcontract g hg hself hgfunc
      · have hf' : a.size ≤ f := Nat.le_of_lt (Nat.lt_of_le_of_lt hle (holder f c hparent))
        have hmarked := hsound.outward f c hf' hparent hwrites
        change (w.block c).standing = .contract m at hc
        rw [hc] at hmarked
        cases hmarked
        rfl
  · rcases Nat.lt_or_ge c a.size with hlt | hle
    · rw [hkept.block hlt] at hc hf
      rw [hkept.block (lt_size_of_isFunc (h.sections c m hc _ f hf).1)]
      exact h.conditions c m hc f hf
    · have hread := hconditions c ((hchild c).2 (hsound.contracts c m hle hc))
      obtain ⟨info, hinfo⟩ := Block.contract_of_standing hc
      have hcontract : (w.arena.block c).contract?.isSome = true := by
        rw [Block.contract?, hinfo]
        rfl
      rw [Compile.conditionsWrite, hcontract, hf] at hread
      rw [← Block.canWrite_eq]
      exact hread

end Known

end Arena

/-! ### Registries -/

namespace Registry

variable {r r' : Registry}

/-- Whether a property of the blocks and of what a savepoint notes about them holds now and behind
every rollback. -/
structure Throughout (P : Arena → Savepoint → Prop) (r : Registry) : Prop where
  now : P r.arena ⟨r.objects, r.children, r.arena.size⟩
  points : ∀ p ∈ r.savepoints, P (r.arena.take p.blocks) p

namespace Throughout

variable {P : Arena → Savepoint → Prop}

/-- What is behind the savepoints stays when blocks are added. -/
theorem points_grew (hsound : r.Sound) (h : r.Throughout P) (hgrew : r.Grew r') :
    ∀ p ∈ r'.savepoints, P (r'.arena.take p.blocks) p := by
  intro p hp
  rw [hgrew.savepoints] at hp
  rw [hgrew.arena.take_eq (hsound.marks p hp)]
  exact h.points p hp

/-- A savepoint notes what holds now. -/
theorem savepoint (h : r.Throughout P) : r.savepoint.Throughout P := by
  refine ⟨h.now, List.forall_mem_cons.2 ⟨?_, h.points⟩⟩
  show P (r.arena.take r.arena.size) _
  rw [(Arena.Precedes.refl r.arena).take_size]
  exact h.now

/-- A rollback returns to what the latest savepoint has noted. -/
theorem rollback (hsound : r.Sound) (h : r.Throughout P) : (r.rollback?.getD r).Throughout P := by
  unfold rollback?
  split
  · exact h
  · rename_i p rest hpoints
    have hp : p ∈ r.savepoints := hpoints ▸ List.mem_cons_self ..
    have hsize : (r.arena.take p.blocks).size = p.blocks := Arena.size_take (hsound.marks p hp)
    have hordered := hsound.ordered
    rw [hpoints, List.pairwise_cons] at hordered
    refine ⟨?_, fun q hq => ?_⟩
    · show P (r.arena.take p.blocks) ⟨p.objects, p.children, (r.arena.take p.blocks).size⟩
      rw [hsize]
      exact h.points p hp
    · -- a deeper savepoint lies below this one, so that cutting the arena here does not reach it
      show P ((r.arena.take p.blocks).take q.blocks) q
      rw [← (Arena.take_precedes r.arena p.blocks).take_eq (hsize.symm ▸ hordered.1 q hq)]
      exact h.points q (hpoints ▸ List.mem_cons_of_mem _ hq)

theorem release (h : r.Throughout P) : (r.release?.getD r).Throughout P := by
  unfold release?
  split
  · exact h
  · rename_i hpoints
    exact ⟨h.now, fun p hp => h.points p (hpoints ▸ List.mem_cons_of_mem _ hp)⟩

end Throughout

/-- What is known of a registry now and behind every rollback. -/
structure Known (r : Registry) : Prop where
  now : r.arena.Known r.objects
  points : ∀ p ∈ r.savepoints, Arena.Known (r.arena.take p.blocks) p.objects

theorem known_iff : r.Known ↔ r.Throughout fun a p => a.Known p.objects :=
  ⟨fun h => ⟨h.now, h.points⟩, fun h => ⟨h.now, h.points⟩⟩

/-- Whether a registry is known to be sound behind a change, and the calls of contracts in what was
compiled, if anything was, have left their marks. -/
def Keeps (r : Registry) (us : List Use) (r' : Registry) : Prop :=
  r'.Known ∧ (r.arena.size < r'.arena.size → ∀ u ∈ us, u.Noted r'.arena)

theorem Known.stays (h : r'.Known) (harena : r'.arena = r.arena) (us : List Use) : r.Keeps us r' :=
  ⟨h, fun hlt => absurd (harena ▸ hlt) (Nat.lt_irrefl _)⟩

theorem alike_setId (a : Arena) (child : BlockId) (id : Nat) :
    a.Alike (a.modify child (·.setId id)) := by
  refine .header ?_ ?_ child <;> rintro ⟨_, info, _, _, _, _⟩ <;> cases info <;> rfl

theorem alike_hidden (a : Arena) (child : BlockId) :
    a.Alike (a.modify child (·.modifyFunc fun f => { f with hidden := true })) := by
  refine .header ?_ ?_ child <;> rintro ⟨_, info, _, _, _, _⟩ <;> cases info <;> rfl

/-- Entering a block that lies in no function keeps what is known. -/
theorem enter_known (h : r.arena.Known r.objects) {child : BlockId}
    (hchild : r.arena.Outermost child) :
    (r.enter child).arena.Known (r.enter child).objects ∧ r.arena.Alike (r.enter child).arena := by
  unfold enter
  split
  · exact ⟨h, .refl _⟩
  · rename_i name id binding hheader
    dsimp only
    have halike := alike_setId r.arena child
    refine ⟨(h.alike (halike _)).insert fun g hg => ?_, halike _⟩
    subst hg
    have hfunc : child = g ∧ (r.arena.block child).standing.IsFunc := by
      unfold Block.header? at hheader
      unfold Block.standing
      split at hheader <;> rename_i hinfo
      · cases hheader
        change (r.arena.block child).info = _ at hinfo
        rw [hinfo]
        exact ⟨rfl, _, rfl⟩
      · cases hheader
      · cases hheader
    rw [← hfunc.1, (halike _).standing]
    exact ⟨hfunc.2, (halike _).outermost hchild⟩

/-- Outermost blocks can be entered. -/
theorem foldl_enter_known (ids : List BlockId) (h : r.arena.Known r.objects)
    (hids : ∀ id ∈ ids, r.arena.Outermost id) :
    (ids.foldl enter r).arena.Known (ids.foldl enter r).objects ∧
      r.arena.Alike (ids.foldl enter r).arena := by
  induction ids generalizing r with
  | nil => exact ⟨h, .refl _⟩
  | cons id ids ih =>
    obtain ⟨hid, hids⟩ := List.forall_mem_cons.1 hids
    obtain ⟨hknown, halike⟩ := enter_known h hid
    obtain ⟨hknown', halike'⟩ := ih hknown fun id hid => halike.outermost (hids id hid)
    exact ⟨hknown', halike.trans halike'⟩

/-- Compiling a unit keeps what is known, and its calls of contracts have left their marks. -/
theorem compile_known (hsound : r.Sound) (h : r.Known) {state : UInt32} {text : String}
    (hcompile : r.compile state text = .ok r') :
    r.Keeps (r.arena.uses (r.scope state) text) r' := by
  have hpoints := (known_iff.1 h).points_grew hsound (compile_grew hcompile)
  obtain ⟨root, arena, hunit, rfl⟩ := compile_eq_ok.1 hcompile
  have hnow : r.arena.Known (r.scope state).globals := h.now
  obtain ⟨hknown, hout, hnoted⟩ := hnow.compile hunit
  obtain ⟨hentered, halike⟩ := foldl_enter_known (r := { r with arena := arena })
    (arena.block root).children.toList hknown fun c hc => hout c (Array.mem_toList_iff.1 hc)
  rw [Array.foldl_toList] at hentered halike
  exact ⟨⟨hentered, hpoints⟩, fun _ u hu => halike.noted (hnoted u hu)⟩

/-- The same for a condition. -/
theorem compileEval_known (hsound : r.Sound) (h : r.Known) {state : UInt32} {text : String}
    {id : BlockId} (hcompile : r.compileEval state text = .ok (id, r')) :
    r.Keeps (r.arena.uses (r.scope state) (wrapCondition text)) r' := by
  have hpoints := (known_iff.1 h).points_grew hsound (compileEval_grew hcompile)
  rcases compileEval_cases hcompile with rfl | ⟨arena, hunit, rfl, rfl⟩
  · exact h.stays rfl _
  · have hnow : r.arena.Known (r.scope state).globals := h.now
    obtain ⟨hknown, -, hnoted⟩ := hnow.compile hunit
    have halike := alike_hidden arena (r.arena.size + 1)
    exact ⟨⟨hknown.alike halike, hpoints⟩, fun _ u hu => halike.noted (hnoted u hu)⟩

/-- There is nothing unknown at first. -/
theorem new_known (limits : Limits) (extensions : List Extension) :
    (Registry.new limits extensions).Known := by
  have hall : ∀ r : Registry, r.Known → (extensions.foldl extend r).Known := by
    induction extensions with
    | nil => exact fun _ h => h
    | cons e es ih => exact fun r h => ih _ ⟨h.now.insert (by simp), h.points⟩
  have hblock : ∀ id, Arena.block #[] id = { parent := none } := fun id =>
    Arena.block_of_le (Nat.zero_le id)
  refine hall _ ⟨⟨⟨fun id p hp => ?_, fun id i hi => ?_⟩, fun x g hx => ?_, fun c m hc => ?_,
    fun c m hc => ?_⟩, by simp⟩
  · rw [hblock] at hp
    cases hp
  · rw [hblock] at hi
    exact absurd hi (Array.not_mem_empty i)
  · rw [Dict.get?_empty] at hx
    cases hx
  · rw [hblock] at hc
    cases hc
  · rw [hblock] at hc
    cases hc

end Registry

/-! ### Sessions -/

/-- The calls of contracts in what an operation compiles. -/
def Operation.uses (r : Registry) : Operation → List Use
  | .compile state text => r.arena.uses (r.scope state) text
  | .compileEval state text | .evalIf state text =>
    r.arena.uses (r.scope state) (Registry.wrapCondition text)
  | _ => []

namespace Session

variable {s : Session} {us : List Use}

/-- The calls of contracts that are in the registry behind an operation: those of what it compiles
come to those that were there, and a rollback drops those of the blocks it drops. -/
def log (s : Session) (us : List Use) (op : Operation) : List Use :=
  if s.registry.arena.size < (s.perform op).registry.arena.size then us ++ op.uses s.registry
  else us.filter fun u => u.block < (s.perform op).registry.arena.size

/-- Sessions that a host can come to, with the calls of contracts in their registry. -/
inductive Logged : Session → List Use → Prop
  | new (limits : Limits) (extensions : List Extension) (env : Dict Value) (heap : Heap) :
      Logged { registry := .new limits extensions, env := env, heap := heap } []
  | perform {s : Session} {us : List Use} (op : Operation) :
      Logged s us → Logged (s.perform op) (s.log us op)

theorem Logged.reachable (h : s.Logged us) : s.Reachable := by
  induction h with
  | new limits extensions env heap => exact .new limits extensions env heap
  | perform op _ ih => exact .perform op ih

theorem Reachable.logged (h : s.Reachable) : ∃ us, s.Logged us := by
  induction h with
  | new limits extensions env heap => exact ⟨[], .new limits extensions env heap⟩
  | perform op _ ih =>
    obtain ⟨us, hus⟩ := ih
    exact ⟨_, .perform op hus⟩

/-- An operation adds blocks or drops some. -/
theorem perform_precedes (s : Session) (op : Operation) :
    s.registry.arena.Precedes (s.perform op).registry.arena ∨
      (s.perform op).registry.arena.Precedes s.registry.arena := by
  by_cases hback : op = .rollback
  · subst hback
    refine .inr ?_
    show (s.registry.rollback?.getD s.registry).arena.Precedes _
    unfold Registry.rollback?
    split
    · exact .refl _
    · exact Arena.take_precedes _ _
  · refine .inl ?_
    cases op with
    | rollback => exact absurd rfl hback
    | savepoint => exact .refl _
    | release =>
      show s.registry.arena.Precedes (s.registry.release?.getD s.registry).arena
      unfold Registry.release?
      split <;> exact .refl _
    | _ => exact (perform_grew s (by simp) (by simp) (by simp)).arena

/-- **Every operation keeps what is known.** -/
theorem perform_known (hsound : s.registry.Sound) (h : s.registry.Known) (op : Operation) :
    s.registry.Keeps (op.uses s.registry) (s.perform op).registry := by
  have heval : ∀ state text, s.registry.Keeps
      (s.registry.arena.uses (s.registry.scope state) (Registry.wrapCondition text))
      (s.compileEval state text).2.registry := by
    intro state text
    rcases s.compileEval_registry state text with hsame | ⟨id, hcompile⟩
    · exact hsame ▸ h.stays rfl _
    · exact Registry.compileEval_known hsound h hcompile
  -- Compiling adds what is known; the rest leaves the arena, or takes back what a savepoint kept.
  cases op with
  | extend e =>
    have hknown : (s.registry.extend e).Known := ⟨h.now.insert (by simp), h.points⟩
    exact hknown.stays rfl _
  | compile state text =>
    show s.registry.Keeps _ (s.compile state text).2.registry
    rcases s.compile_registry state text with hsame | hcompile
    · exact hsame ▸ h.stays rfl _
    · exact Registry.compile_known hsound h hcompile
  | compileEval state text => exact heval state text
  | evalIf state text =>
    show s.registry.Keeps _ (s.evalIf state text).2.registry
    rcases evalIf_registry s state text with hsame | hsame <;> rw [hsame]
    · exact h.stays rfl _
    · exact heval state text
  | savepoint => exact (Registry.known_iff.2 (Registry.known_iff.1 h).savepoint).stays rfl _
  | rollback =>
    exact ⟨Registry.known_iff.2 ((Registry.known_iff.1 h).rollback hsound),
      fun _ u hu => absurd hu List.not_mem_nil⟩
  | release =>
    exact ⟨Registry.known_iff.2 (Registry.known_iff.1 h).release,
      fun _ u hu => absurd hu List.not_mem_nil⟩
  | run | runContract | provide => exact h.stays rfl _
  | configure limits lateCalls extensionCost contractPrice =>
    have hknown : Registry.Known
        { s.registry with limits, lateCalls, extensionCost, contractPrice } := ⟨h.now, h.points⟩
    exact hknown.stays rfl _

/-- The marks of a host's registry can be relied on. -/
theorem Reachable.known (h : s.Reachable) : s.registry.Known := by
  induction h with
  | new limits extensions => exact Registry.new_known limits extensions
  | perform op hs ih => exact (perform_known hs.sound ih op).1

/-- The calls of contracts in a host's registry have left their marks. -/
theorem Logged.noted (h : s.Logged us) : ∀ u ∈ us, u.Noted s.registry.arena := by
  induction h with
  | new => exact fun u hu => absurd hu List.not_mem_nil
  | @perform s us op hs ih =>
    intro u hu
    have hreachable := hs.reachable
    obtain ⟨hknown, hnoted⟩ := perform_known hreachable.sound hreachable.known op
    unfold log at hu
    split at hu
    · rename_i hgrew
      rcases List.mem_append.1 hu with hu | hu
      · have hprecedes := (perform_precedes s op).resolve_right
          fun hback => absurd hback.le (Nat.not_le.2 hgrew)
        exact (hprecedes.noted_iff hknown.now.marks.older (ih u hu).1).2 (ih u hu)
      · exact hnoted hgrew u hu
    · -- what is left is the start of what was there
      rename_i hgrew
      obtain ⟨hu, hblock⟩ := List.mem_filter.1 hu
      have hprecedes : (s.perform op).registry.arena.Precedes s.registry.arena :=
        (perform_precedes s op).elim (fun h => h.symm_of_le (Nat.not_lt.1 hgrew)) id
      exact (hprecedes.noted_iff hreachable.known.now.marks.older (of_decide_eq_true hblock)).1
        (ih u hu)

end Session

/-! ### Chains of bound calls -/

/-- Whether a block has an instruction that starts another one: the body of a control statement, or
a function to which a call was bound when it was compiled. -/
def Arena.Starts (a : Arena) (b c : BlockId) : Prop := ∃ i ∈ (a.block b).code, i.op.starts? = some c

instance (a : Arena) (b c : BlockId) : Decidable (a.Starts b c) :=
  decidable_of_iff ((a.block b).code.any (fun i => i.op.starts? == some c) = true)
    (by simp [Arena.Starts, Array.any_eq_true, Array.mem_iff_getElem])

/-- What is safe leads to what is safe only. -/
theorem Arena.Safe.leads {a : Arena} (hmarks : a.Marks) {b c : BlockId} (hb : a.Safe b)
    (h : Relation.ReflTransGen a.Starts b c) : a.Safe c := by
  induction h with
  | refl => exact hb
  | tail _ hstarts ih =>
    obtain ⟨i, hi, hop⟩ := hstarts
    exact ih.starts (hmarks.code _ i hi) hop

/-- **No chain of bound calls leads from the conditions of a contract to a write**: neither to an
instruction that calls an extension which may change the database, nor to a call of a contract that
was marked when the call was compiled. -/
theorem Session.conditions_lead_to_no_write {s : Session} {us : List Use} (h : s.Logged us)
    {c f b : BlockId} {info : ContractInfo} (hc : (s.registry.block c).contract? = some info)
    (hf : (s.registry.block c).objects.get? "conditions" = some (.func f))
    (hb : Relation.ReflTransGen s.registry.arena.Starts f b) :
    (∀ i ∈ (s.registry.block b).code, ∀ e, i.op.extension? = some e → e.canWrite = false) ∧
      ∀ u ∈ us, u.block = b → u.writes = false := by
  have hknown := h.reachable.known.now
  have hsafe : s.registry.arena.Safe b :=
    (hknown.safe_conditions (Block.standing_of_contract? hc) hf).leads hknown.marks hb
  refine ⟨fun i hi e he => hsafe.extension (hknown.marks.code b i hi) he, fun u hu hub => ?_⟩
  by_contra hwrites
  have hmarked := (h.noted u hu).2 (by simpa using hwrites)
  rw [hub] at hmarked
  exact hsafe.not_marked hmarked

/-- Whether a binding is that of some function. -/
def Binding.isFunc (id : BlockId) : Binding → Bool
  | .func f => f == id
  | _ => false

theorem Binding.eq_func_of_isFunc {v : Option Binding} {id : BlockId}
    (h : v.any (isFunc id) = true) : v = some (.func id) := by
  rcases v with _ | (_ | f | _ | _ | _) <;> simp [isFunc] at h
  rw [h]

namespace Session

/-- A host with extensions that write. -/
def writingHost : Session := { registry := .new {} (Library.contracts ++ Library.sampleEffects) }

/-- A function that reads, one that writes, and a contract that calls the latter. -/
def writingContract : Operation := .compile 1
  ("func g int \x7b return 1 \x7d\nfunc w \x7b DBInsert() \x7d\n" ++
    "contract Y \x7b action \x7b w() \x7d \x7d")

/-- A contract that calls the first function in its conditions and the other contract in its
action. -/
def checkingContract : Operation := .compile 1
  ("contract X \x7b conditions \x7b if true \x7b g() \x7d \x7d action \x7b Y() \x7d \x7d")

/-- A contract whose action calls a writing contract has conditions that lead to a function of an
earlier unit and to no write. -/
theorem checkingContract_leads_to_no_write :
    let s := (writingHost.perform writingContract).perform checkingContract
    let us := (writingHost.perform writingContract).log (writingHost.log [] writingContract)
      checkingContract
    s.registry.arena.Starts 7 8 ∧ s.registry.arena.Starts 8 1 ∧
      us = [⟨9, "@1Y", true⟩] ∧
      (∀ i ∈ (s.registry.block 1).code, ∀ e, i.op.extension? = some e → e.canWrite = false) ∧
      ∀ u ∈ us, u.block = 1 → u.writes = false := by
  intro s us
  have hlogged : s.Logged us := .perform _ (.perform _ (.new {} _ .empty .empty))
  obtain ⟨hcontract, hfunc, hbranch, hcall, hus⟩ : ((s.registry.block 6).contract?).isSome = true ∧
      ((s.registry.block 6).objects.get? "conditions").any (Binding.isFunc 7) = true ∧
      s.registry.arena.Starts 7 8 ∧ s.registry.arena.Starts 8 1 ∧ us = [⟨9, "@1Y", true⟩] := by
    decide +kernel
  obtain ⟨info, hinfo⟩ := Option.isSome_iff_exists.1 hcontract
  have hconditions : (s.registry.block 6).objects.get? "conditions" = some (.func 7) :=
    Binding.eq_func_of_isFunc hfunc
  exact ⟨hbranch, hcall, hus, conditions_lead_to_no_write hlogged hinfo hconditions
    ((Relation.ReflTransGen.single hbranch).tail hcall)⟩

end Session

end Covenant
