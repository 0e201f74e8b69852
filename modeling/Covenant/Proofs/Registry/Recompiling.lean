import Covenant.Proofs.Compile.Renaming
import Covenant.Proofs.Machine.Renaming
import Covenant.Proofs.Registry.Closure

/-!
# Compiling a condition again

A condition that is found compiled could as well be compiled again: as long as the names in it stand
for what they stood for, its blocks come out the same, only behind more blocks
(`Registry.recompiled`), and a run does not tell (`Registry.run_recompiled`). In between, other
units were added, whose blocks are none of the condition's: since a condition is entered under no
name, nothing but its own blocks ever refers to these (`Arena.Apart`).
-/

namespace Covenant

/-! ### Blocks that nothing else refers to -/

/-- Whether a block is none of those from `low` up to `high`. -/
def Outside (low high id : Nat) : Prop := id < low ∨ high ≤ id

/-- Whether nothing refers to the blocks from `low` up to `high` but these blocks themselves. -/
structure Arena.Apart (low high : Nat) (a : Arena) (objects : Dict Binding) : Prop where
  blocks : ∀ id, Outside low high id → (a.block id).Within (Outside low high)
  names : objects.All (Binding.Within (Outside low high))

namespace Arena

variable {a a' : Arena} {low high : Nat} {objects objects' : Dict Binding}

/-- Blocks and names that were there before some blocks refer to none of these. -/
theorem Closed.apart (h : a.Closed) (hnames : objects.All (Binding.Below a.size))
    (hlow : a.size ≤ low) (hsame : ∀ id, Outside low high id → a'.block id = a.block id) :
    a'.Apart low high objects where
  blocks id hid c hc := .inl (Nat.lt_of_lt_of_le (h id c (hsame id hid ▸ hc)) hlow)
  names x v hv id hid := .inl (Nat.lt_of_lt_of_le (hnames x v hv id hid) hlow)

/-- A unit refers to its own blocks and to what names stand for. -/
theorem Apart.grow (h : a.Apart low high objects) (hkept : a.Precedes a')
    (hunit : a'.UnitWithin a.size (Outside low high))
    (hnames : objects'.All (Binding.Within (Outside low high))) : a'.Apart low high objects' where
  blocks id hid := by
    rcases Nat.lt_or_ge id a.size with hold | hnew
    · rw [hkept.block hold]
      exact h.blocks id hid
    · exact hunit id hnew
  names := hnames

end Arena

namespace Registry

variable {r r' : Registry} {low high : Nat}

/-- Whether nothing refers to the blocks from `low` up to `high` but these blocks themselves, now
and behind every rollback. -/
def Spares (low high : Nat) (r : Registry) : Prop :=
  r.Throughout fun a p => a.Apart low high p.objects

/-- Nothing refers to a condition that has just been compiled. -/
theorem spares_of_compileEval (hlinked : r.Linked) (h : r.Held) {state : UInt32} {text : String}
    {id : BlockId} (hsound : r.Sound) (hcompile : r.compileEval state text = .ok (id, r')) :
    r'.Spares r.arena.size r'.arena.size := by
  have hgrew := compileEval_grew hcompile
  have hobjects : r'.objects = r.objects := by
    rcases compileEval_cases hcompile with rfl | ⟨arena, -, -, rfl⟩ <;> rfl
  have hpoints : r.Throughout fun a p => a.Apart r.arena.size r'.arena.size p.objects := by
    refine ⟨h.now.apart hlinked.now (Nat.le_refl _) fun _ _ => rfl, fun p hp => ?_⟩
    have hsize := Arena.size_take (hsound.marks p hp)
    exact (h.points p hp).1.apart (hsize.symm ▸ hlinked.points p hp)
      (hsize.symm ▸ hsound.marks p hp)
      fun _ _ => rfl
  refine ⟨?_, hpoints.points_grew hsound hgrew⟩
  refine h.now.apart (hobjects ▸ hlinked.now) (Nat.le_refl _) fun id hid => ?_
  rcases hid with hold | hhigh
  · exact hgrew.arena.block hold
  · rw [Arena.block_of_le hhigh, Arena.block_of_le (Nat.le_trans hgrew.arena.le hhigh)]

/-- To enter blocks changes nothing that the blocks of a unit refer to. -/
theorem foldl_enter_unitWithin {n : Nat} {P : BlockId → Prop} (ids : List BlockId)
    (h : r.arena.UnitWithin n P) : (ids.foldl enter r).arena.UnitWithin n P := by
  induction ids generalizing r with
  | nil => exact h
  | cons id ids ih =>
    refine ih ?_
    unfold enter
    split
    · exact h
    · exact h.modify fun hb => hb.setId _

/-- A unit that is compiled does not refer to spared blocks. -/
theorem compile_spares (hsound : r.Sound) (h : r.Spares low high) (hhigh : high ≤ r.arena.size)
    {state : UInt32} {text : String} (hcompile : r.compile state text = .ok r') :
    r'.Spares low high := by
  have hgrew := compile_grew hcompile
  have hnew : ∀ n id, r.arena.size ≤ id → id < n → Outside low high id :=
    fun _ _ hid _ => .inr (Nat.le_trans hhigh hid)
  refine ⟨h.now.grow hgrew.arena ?_ ?_, h.points_grew hsound hgrew⟩
  · obtain ⟨root, arena, hunit, rfl⟩ := compile_eq_ok.1 hcompile
    rw [enterUnit, ← Array.foldl_toList]
    exact foldl_enter_unitWithin _ (Arena.compile_unitWithin h.now.names hunit (hnew _))
  · exact compile_within h.now.names hcompile (hnew _)

/-- Nor does a condition. -/
theorem compileEval_spares (hsound : r.Sound) (h : r.Spares low high) (hhigh : high ≤ r.arena.size)
    {state : UInt32} {text : String} {id : BlockId}
    (hcompile : r.compileEval state text = .ok (id, r')) :
    r'.Spares low high := by
  have hgrew := compileEval_grew hcompile
  have hpoints := h.points_grew hsound hgrew
  rcases compileEval_cases hcompile with rfl | ⟨arena, hunit, rfl, rfl⟩
  · exact h
  · have hwithin := Arena.compile_unitWithin h.now.names hunit
      fun _ hid _ => .inr (Nat.le_trans hhigh hid)
    exact ⟨h.now.grow hgrew.arena (hwithin.modify fun hb => hb.modifyFunc _) h.now.names, hpoints⟩

end Registry

/-- Nothing comes to refer to blocks that are there and that nothing else refers to. -/
theorem Session.perform_spares {s : Session} {low high : Nat} (hsound : s.registry.Sound)
    (h : s.registry.Spares low high) (hhigh : high ≤ s.registry.arena.size) (op : Operation) :
    (s.perform op).registry.Spares low high := by
  have heval : ∀ state text, (s.compileEval state text).2.registry.Spares low high := by
    intro state text
    rcases s.compileEval_registry state text with hsame | ⟨id, hcompile⟩
    · exact hsame ▸ h
    · exact Registry.compileEval_spares hsound h hhigh hcompile
  cases op with
  | extend e => exact ⟨⟨h.now.blocks, h.now.names.insert (Binding.within_ext _ e) _⟩, h.points⟩
  | compile state text =>
    show (s.compile state text).2.registry.Spares low high
    rcases s.compile_registry state text with hsame | hcompile
    · exact hsame ▸ h
    · exact Registry.compile_spares hsound h hhigh hcompile
  | compileEval state text => exact heval state text
  | evalIf state text =>
    rcases evalIf_registry s state text with hsame | hsame
    · exact hsame ▸ h
    · exact hsame ▸ heval state text
  | savepoint => exact Registry.Throughout.savepoint h
  | rollback => exact Registry.Throughout.rollback hsound h
  | release => exact Registry.Throughout.release h
  | run | runContract | provide => exact h
  | configure => exact ⟨h.now, h.points⟩

/-! ### Numbers behind more blocks -/

/-- The numbers of blocks where those from `low` up to `high` are compiled again behind `top`
blocks: these move there, and the numbers from there on, which stand for nothing, make room for
them. -/
def relocate (low high top id : Nat) : Nat :=
  if low ≤ id ∧ id < high then id + (top - low) else if top ≤ id then id + (high - low) else id

section Relocate

variable {low high top id id' : Nat}

theorem relocate_of_outside (hid : Outside low high id) (htop : id < top) :
    relocate low high top id = id := by
  rw [relocate, if_neg fun h => hid.elim (Nat.not_lt.2 h.1) (Nat.not_le.2 h.2),
    if_neg (Nat.not_le.2 htop)]

theorem relocate_of_top_le (hid : top ≤ id) (htop : high ≤ top) :
    relocate low high top id = id + (high - low) := by
  rw [relocate, if_neg fun h => Nat.not_le.2 h.2 (Nat.le_trans htop hid), if_pos hid]

/-- Below their end, the blocks from `low` on have moved up. -/
theorem relocate_of_lt (hid : id < high) (htop : high ≤ top) :
    relocate low high top id = shift low (top - low) id := by
  rcases Nat.lt_or_ge id low with hold | hunit
  · rw [relocate_of_outside (.inl hold) (Nat.lt_of_lt_of_le hid htop), shift_of_lt hold]
  · rw [relocate, if_pos ⟨hunit, hid⟩, shift_of_le hunit]

/-- A block is one of those that move, or behind all blocks, or stays where it is. -/
theorem relocate_cases (low : Nat) (htop : high ≤ top) (id : Nat) :
    (low ≤ id ∧ id < high ∧ relocate low high top id = id + (top - low)) ∨
      (top ≤ id ∧ relocate low high top id = id + (high - low)) ∨
      Outside low high id ∧ id < top ∧ relocate low high top id = id := by
  rcases Nat.lt_or_ge id top with hlt | hge
  · rcases Nat.lt_or_ge id low with hlow | hlow
    · exact .inr (.inr ⟨.inl hlow, hlt, relocate_of_outside (.inl hlow) hlt⟩)
    · rcases Nat.lt_or_ge id high with hhigh | hhigh
      · exact .inl ⟨hlow, hhigh, by rw [relocate_of_lt hhigh htop, shift_of_le hlow]⟩
      · exact .inr (.inr ⟨.inr hhigh, hlt, relocate_of_outside (.inr hhigh) hlt⟩)
  · exact .inr (.inl ⟨hge, relocate_of_top_le hge htop⟩)

theorem relocate_inj (hlow : low ≤ high) (htop : high ≤ top)
    (h : relocate low high top id = relocate low high top id') : id = id' := by
  rcases relocate_cases low htop id with ⟨_, _, heq⟩ | ⟨_, heq⟩ | ⟨hout, _, heq⟩ <;>
    rcases relocate_cases low htop id' with ⟨_, _, heq'⟩ | ⟨_, heq'⟩ | ⟨hout', _, heq'⟩ <;>
    rw [heq, heq'] at h <;> omega

theorem le_relocate (hlow : low ≤ high) (htop : high ≤ top) :
    top + (high - low) ≤ relocate low high top id ↔ top ≤ id := by
  rcases relocate_cases low htop id with ⟨_, _, heq⟩ | ⟨_, heq⟩ | ⟨_, _, heq⟩ <;>
    rw [heq] <;> omega

end Relocate

/-- Only the numbers matter that a block refers to. -/
theorem Block.Renames.congr {ρ σ : BlockId → BlockId} {b b' : Block} (h : b.Renames ρ b')
    (hsame : b.Within fun id => ρ id = σ id) : b.Renames σ b' where
  parent := by
    rw [h.parent]
    cases hp : b.parent with
    | none => rfl
    | some p => exact congrArg some (hsame p (.parent hp))
  info := h.info
  objects x := by
    rw [h.objects]
    cases hx : b.objects.get? x with
    | none => rfl
    | some v =>
      refine congrArg some ?_
      cases v with
      | contract id => exact congrArg Binding.contract (hsame id (.name hx rfl))
      | func id => exact congrArg Binding.func (hsame id (.name hx rfl))
      | _ => rfl
  vars := h.vars
  code := by
    rw [h.code]
    refine Array.map_congr_left fun i hi => ?_
    -- An instruction refers to its body, the function it calls and the owners of its variables.
    have hagree : i.op.AgreeOn ρ σ :=
      { body := fun id hid => hsame id (.body hi hid)
        func := fun id hid => hsame id (.func hi hid)
        reads := fun id hid => hsame id (.reads hi hid)
        assigns := fun v hv => hsame v.owner (.assigns (Block.mem_targets.2 ⟨i, hi, hv⟩)) }
    rw [Instr.rename, Instr.rename, hagree.rename_eq]
  children := by
    rw [h.children]
    exact Array.map_congr_left fun c hc => hsame c (.child hc)

/-- A block that refers only to blocks whose numbers stay is the same. -/
theorem Block.Renames.of_fixed {ρ : BlockId → BlockId} {b : Block}
    (h : b.Within fun id => ρ id = id) :
    b.Renames ρ b :=
  (Block.Renames.refl b).congr fun id hid => (h id hid).symm

theorem Binding.rename_of_fixed {ρ : BlockId → BlockId} {v : Binding}
    (h : v.Within fun id => ρ id = id) :
    v.rename ρ = v := by
  cases v with
  | contract id => exact congrArg Binding.contract (h id rfl)
  | func id => exact congrArg Binding.func (h id rfl)
  | _ => rfl

/-- Where an arena is closed, the same blocks with more behind them refer to each other by the same
numbers. -/
theorem Arena.Closed.shifted {a a' : Arena} (h : a.Closed) (hkept : a.Precedes a') :
    a.Shifted a.size (a'.size - a.size) a' where
  le := Nat.le_refl _
  size := (Nat.add_sub_cancel' hkept.le).symm
  block id := by
    rcases Nat.lt_or_ge id a.size with hold | hnew
    · rw [shift_of_lt hold, hkept.block hold]
      exact .of_fixed fun c hc => shift_of_lt (h id c hc) _
    · have hbehind : a'.size ≤ shift a.size (a'.size - a.size) id := by
        rw [shift_of_le hnew]
        omega
      rw [Arena.block_of_le hnew, Arena.block_of_le hbehind]
      exact .empty _

/-! ### Compiling again -/

namespace Registry

variable {r₀ r₁ r : Registry} {state : UInt32} {text : String} {id : BlockId}

/-- The registry without compiled conditions. -/
def uncached (r : Registry) : Registry := { r with evals := [] }

/-- A condition that compiles without compiled conditions is a new unit. -/
theorem uncached_compileCondition (h : r.uncached.compileCondition state text = (.ok id, r₁)) :
    ∃ arena, checkBraces text = .ok () ∧
      r.arena.compile (r.scope state) (wrapCondition text) = .ok (r.arena.size, arena) ∧
      id = r.arena.size + 1 ∧ r₁ = r.uncached.conditionAdded state text arena := by
  rcases compileCondition_cases r.uncached state text with
    ⟨id', hfound, -⟩ | ⟨-, ⟨e, heq⟩ | ⟨arena, hbraces, hcompile, heq⟩⟩
  · cases hfound
  · cases heq.symm.trans h
  · cases heq.symm.trans h
    exact ⟨arena, hbraces, hcompile, rfl, rfl⟩

/-- Without filed conditions, a condition is compiled as the unit that it is wrapped in. -/
theorem uncached_compileCondition_of_compile {arena : Arena} (hbraces : checkBraces text = .ok ())
    (hcompile : r.arena.compile (r.scope state) (wrapCondition text) = .ok (r.arena.size, arena)) :
    r.uncached.compileCondition state text
      = (.ok (r.arena.size + 1), r.uncached.conditionAdded state text arena) := by
  have hunit : r.uncached.arena.compileUnit (r.uncached.scope state) (wrapCondition text)
      = (.ok r.arena.size, arena) := Arena.compile_eq_ok.1 hcompile
  unfold compileCondition
  dsimp only
  rw [show r.uncached.evals.lookup (conditionKey state text) = none from rfl, hbraces, hunit]
  dsimp only
  rw [eval_of_compile hcompile]
  rfl

/-- Whether a condition means the same in two registries: they settle calls of unknown names alike,
and all names in the function around the condition stand for the same in both, taken as they are and
as names of contracts of the ecosystem, and so does the name of the function that calls contracts by
name. -/
structure AgreeOn (r₀ r : Registry) (state : UInt32) (text : String) : Prop where
  lateCalls : r.lateCalls = r₀.lateCalls
  runner : r.objects.get? "ExecContract" = r₀.objects.get? "ExecContract"
  names : ∀ lexemes, Lexeme.read (wrapCondition text) = .ok lexemes → ∀ l ∈ lexemes,
    ∀ name, l.token = .ident name → r.objects.get? name = r₀.objects.get? name ∧
      r.objects.get? (Name.qualify state.toNat name) = r₀.objects.get?
      (Name.qualify state.toNat name)

/-- Behind a unit that is compiled again, blocks and names are the same but for the numbers of its
blocks. -/
theorem renames_of_shifted {a₁ arena : Arena} {evals : List (UInt64 × BlockId)}
    (hlow : low ≤ a₁.size) (hclosed₁ : a₁.Closed) (hkept : a₁.Precedes r.arena)
    (hclosed : r.arena.Closed) (hnames : r.objects.All (Binding.Below r.arena.size))
    (hspares : r.Spares low a₁.size) (hagain : r.arena.Precedes arena)
    (hshifted : a₁.Shifted low (r.arena.size - low) arena) :
    r.Renames (relocate low a₁.size r.arena.size) { r with arena := arena, evals := evals } := by
  have hsize : arena.size = r.arena.size + (a₁.size - low) := by
    have := hshifted.size
    have := hkept.le
    omega
  have hstays : ∀ c, Outside low a₁.size c → c < r.arena.size →
      relocate low a₁.size r.arena.size c = c := fun c hout hlt => relocate_of_outside hout hlt
  refine ⟨fun id id' => relocate_inj hlow hkept.le, fun id => ?_, fun id => ?_,
    fun x => ?_, rfl, rfl, rfl⟩
  · change arena.size ≤ _ ↔ _
    rw [hsize]
    exact le_relocate hlow hkept.le
  · change Block.Renames _ (r.arena.block id) (arena.block _)
    rcases relocate_cases low hkept.le id with ⟨hunit, hlt, heq⟩ | ⟨hge, heq⟩ | ⟨hout, hlt, heq⟩
    · -- a block of the unit refers to blocks below its end
      rw [heq, ← shift_of_le hunit, hkept.block hlt]
      exact (hshifted.block id).congr fun c hc => (relocate_of_lt (hclosed₁ id c hc) hkept.le).symm
    · rw [heq, Arena.block_of_le hge, Arena.block_of_le (hsize ▸ Nat.add_le_add_right hge _)]
      exact .empty _
    · -- another block refers to none of the unit
      rw [heq, hagain.block hlt]
      exact .of_fixed fun c hc => hstays c (hspares.now.blocks id hout c hc) (hclosed id c hc)
  · change r.objects.get? x = _
    cases hx : r.objects.get? x with
    | none => rfl
    | some v =>
      refine (congrArg some (Binding.rename_of_fixed fun c hc => ?_)).symm
      exact hstays c (hspares.now.names x v hx c hc) (hnames x v hx c hc)

/-- **A condition that was compiled before compiles again**, where it means the same and the blocks
of then are still there. The registry is the same as before but for the numbers of the condition's
blocks. -/
theorem recompiled (hclosed₀ : r₀.arena.Closed)
    (hnames₀ : r₀.objects.All (Binding.Below r₀.arena.size))
    (h : r₀.uncached.compileCondition state text = (.ok id, r₁)) (hkept : r₁.arena.Precedes r.arena)
    (hclosed : r.arena.Closed) (hnames : r.objects.All (Binding.Below r.arena.size))
    (hspares : r.Spares r₀.arena.size r₁.arena.size) (hagree : r₀.AgreeOn r state text) :
    ∃ r', r.uncached.compileCondition state text = (.ok (r.arena.size + 1), r') ∧
      r.Renames (relocate r₀.arena.size r₁.arena.size r.arena.size) r' ∧
      relocate r₀.arena.size r₁.arena.size r.arena.size id = r.arena.size + 1 := by
  obtain ⟨a₁, hbraces, hcompile, rfl, rfl⟩ := uncached_compileCondition h
  obtain ⟨-, w, rfl, hbeside⟩ := Arena.compile_beside hcompile
  obtain ⟨hlow, hhigh⟩ := hbeside.bound _ (Nat.le_refl _) "eval" _ (eval_of_compile hcompile) _ rfl
  have hold : r₀.arena.Precedes r.arena := (hbeside.kept.modify hlow _).trans hkept
  have htop := hold.le
  -- the names of then refer to blocks of then, which have not moved
  have hfixed : ∀ x, (r₀.objects.get? x).map (Binding.rename (shift r₀.arena.size
      (r.arena.size - r₀.arena.size))) = r₀.objects.get? x := by
    intro x
    cases hx : r₀.objects.get? x with
    | none => rfl
    | some v => exact congrArg some (Binding.rename_of_fixed fun c hc =>
      shift_of_lt (hnames₀ x v hx c hc) _)
  have hsource : ∀ lexemes, Lexeme.read (wrapCondition text) = .ok lexemes →
      ((r₀.scope state).source lexemes).Agrees r₀.arena.size
      (r.arena.size - r₀.arena.size) r.objects := by
    intro lexemes hread
    have hlexeme : ∀ i name, ((r₀.scope state).source lexemes).token? i = some (.ident name) →
        ∃ l ∈ lexemes, l.token = .ident name := by
      intro i name hname
      obtain ⟨l, hl, htoken⟩ := Option.map_eq_some_iff.1 hname
      exact ⟨l, Array.mem_of_getElem? hl, htoken⟩
    refine ⟨hagree.runner.trans (hfixed _).symm, fun i name hname => ?_, fun i name hname => ?_⟩
    · obtain ⟨l, hl, htoken⟩ := hlexeme i name hname
      exact (hagree.names lexemes hread l hl name htoken).1.trans (hfixed _).symm
    · obtain ⟨l, hl, htoken⟩ := hlexeme i name hname
      exact (hagree.names lexemes hread l hl name htoken).2.trans (hfixed _).symm
  obtain ⟨arena, hagain, hshifted⟩ := Arena.compile_shifted (hclosed₀.shifted hold) hsource hcompile
  have hscope : { r₀.scope state with globals := r.objects } = r.scope state := by
    rw [scope, scope, hagree.lateCalls]
  rw [hscope] at hagain
  obtain ⟨-, w', rfl, hbeside'⟩ := Arena.compile_beside hagain
  have hsize : (r₀.uncached.conditionAdded state text w.arena).arena.size = w.arena.size :=
    Array.size_modify
  have hself : shift r₀.arena.size (r.arena.size - r₀.arena.size) (r₀.arena.size + 1)
    = r.arena.size + 1 := by
    rw [shift_of_le hlow]
    omega
  refine ⟨_, uncached_compileCondition_of_compile hbraces hagain,
    renames_of_shifted ?_ ?_ hkept hclosed
    hnames hspares (hbeside'.kept.modify (Nat.le_succ _) _) ?_, ?_⟩
  · exact hsize.symm ▸ hbeside.kept.le
  · change Arena.Every (Block.Below (Array.size (Array.modify _ _ _))) _
    rw [Array.size_modify]
    exact Arena.Every.modify (hclosed₀.compile hnames₀ hcompile) fun hb => hb.modifyFunc _
  · have hhidden : Arena.Shifted r₀.arena.size (r.arena.size - r₀.arena.size)
        (w.arena.modify (r₀.arena.size + 1) (·.modifyFunc fun f => { f with hidden := true }))
        (w'.arena.modify (r.arena.size + 1) (·.modifyFunc fun f => { f with hidden := true })) :=
      hshifted.modify hself.symm fun hb => hb.modifyFunc _
    exact hhidden
  · rw [relocate_of_lt (hsize.symm ▸ hhigh) hkept.le, hself]

end Registry

end Covenant
