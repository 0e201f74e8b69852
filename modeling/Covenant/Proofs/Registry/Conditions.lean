import Covenant.Proofs.Registry.Recompiling

/-!
# Conditions that were compiled before

A condition is compiled once and found again by a checksum of its text and ecosystem. What is found
is what that first compilation gave: it was made against the names and settings of its time, and no
block that was there then has changed since (`Session.condition_is_first_compile`). As long as the
names in the condition stand for what they stood for then, it runs as if it were compiled anew.
Nothing but a rollback drops a condition, so that a function that is declared again is not called by
the conditions that were compiled before (`Session.condition_calls_old_function`).

The invariant is `Registry.Filed`: the compilation that a condition comes from is found among the
sessions before, a savepoint has a mark below the condition's block or above all of its unit, and no
other block and no name refers to its blocks (`Registry.Spares`).
-/

namespace Covenant

/-! ### Runs read no compiled conditions -/

namespace Context

/-- The context whose registry has other compiled conditions. -/
def withEvals (c : Context) (evals : List (UInt64 × BlockId)) : Context :=
  { c with registry := { c.registry with evals := evals } }

end Context

namespace Exec

variable (c : Context) (evals : List (UInt64 × BlockId))

/-- Assignments do not look at filed conditions. -/
theorem assignAll_withEvals (targets : List Target) (values : List Value) :
    assignAll (c.withEvals evals) targets values = assignAll c targets values := by
  induction targets generalizing values with
  | nil => rfl
  | cons t ts ih =>
    cases values with
    | nil => rfl
    | cons v vs =>
      simp only [assignAll, ih]
      rfl

theorem perform_withEvals (op : Op) : perform (c.withEvals evals) op = perform c op := by
  cases op with
  | assign =>
    simp only [perform, assignAll_withEvals]
  | _ => rfl

theorem step_withEvals : step (c.withEvals evals) = step c := by
  unfold step
  simp only [perform_withEvals]
  rfl

theorem loop_withEvals (fuel : Nat) : loop (c.withEvals evals) fuel = loop c fuel := by
  induction fuel with
  | zero => rfl
  | succ fuel ih => simp only [loop, step_withEvals, ih]

end Exec

/-- Nor does an error on its way out. -/
theorem Registry.unwind_withEvals (r : Registry) (evals : List (UInt64 × BlockId)) (fs : List Frame)
    (line : Option Nat) (e : Error) (m : Machine) :
    unwind { r with evals := evals } fs line e m = r.unwind fs line e m := by
  induction fs generalizing line e m with
  | nil => rfl
  | cons f fs ih =>
    cases f with
    | contract k => exact ih ..
    | block a =>
      have hname : traceName? { r with evals := evals } a.block = r.traceName? a.block := rfl
      simp only [unwind, ih, hname]
      rfl

/-- So a run does not look at them. -/
theorem Run.func_withEvals (r : Registry) (evals : List (UInt64 × BlockId)) (id : BlockId)
    (params : List Value) (env : Dict Value) (h : Heap) :
    Run.func { r with evals := evals } id params env h = Run.func r id params env h := by
  have hloop : ∀ (clock : Nat → Nat) (allowance : Option Nat) (fuel : Nat),
      Exec.loop ⟨{ r with evals := evals }, allowance, clock⟩ fuel
        = Exec.loop ⟨r, allowance, clock⟩ fuel :=
    fun clock allowance fuel => Exec.loop_withEvals ⟨r, allowance, clock⟩ evals fuel
  unfold Run.func Run.execute
  simp only [hloop, Registry.unwind_withEvals]
  rfl
/-! ### Where a compiled condition comes from -/

namespace Registry

/-- A condition that is not found compiles as it does without compiled conditions. -/
theorem compileCondition_uncached {r r' : Registry} {state : UInt32} {text : String} {id : BlockId}
    (hfresh : r.evals.lookup (conditionKey state text) = none)
    (h : r.compileCondition state text = (.ok id, r')) :
    r.uncached.compileCondition state text = (.ok id, { r' with
      evals := [(conditionKey state text, id)] }) := by
  rcases compileCondition_cases r state text with
    ⟨id', hfound, -⟩ | ⟨-, ⟨e, heq⟩ | ⟨arena, hbraces, hcompile, heq⟩⟩
  · cases hfresh.symm.trans hfound
  · cases heq.symm.trans h
  · cases heq.symm.trans h
    exact uncached_compileCondition_of_compile hbraces hcompile

/-- The function of a condition that is not found stands behind the root of its unit. -/
theorem id_of_fresh {r r' : Registry} {state : UInt32} {text : String} {id : BlockId}
    (hfresh : r.evals.lookup (conditionKey state text) = none)
    (h : r.compileCondition state text = (.ok id, r')) : id = r.arena.size + 1 := by
  rcases compileCondition_cases r state text with
    ⟨id', hfound, -⟩ | ⟨-, ⟨e, heq⟩ | ⟨arena, -, -, heq⟩⟩
  · cases hfresh.symm.trans hfound
  · cases heq.symm.trans h
  · exact (Except.ok.inj (congrArg Prod.fst (heq.symm.trans h))).symm

/-- Whether a compiled condition is in the state in which a session before has left it: the session,
in which it was not there, the operation that has compiled it, what has been done since, the
ecosystem and text, and the registry that the compilation gives without compiled conditions. -/
structure FiledFrom (s : Session) (e : UInt64 × BlockId) (s₀ : Session) (op : Operation)
    (ops : List Operation) (state : UInt32) (text : String) (r₁ : Registry) : Prop where
  reachable : s₀.Reachable
  since : s = (s₀.perform op).performAll ops
  key : conditionKey state text = e.1
  fresh : s₀.registry.evals.lookup (conditionKey state text) = none
  first : s₀.registry.compileCondition state text = (.ok e.2, (s₀.perform op).registry)
  compiled : s₀.registry.uncached.compileCondition state text = (.ok e.2, r₁)
  kept : r₁.arena.Precedes s.registry.arena
  marks : ∀ p ∈ s.registry.savepoints, e.2 < p.blocks → r₁.arena.size ≤ p.blocks
  spares : s.registry.Spares s₀.registry.arena.size r₁.arena.size

/-- Whether every compiled condition comes from a session before. -/
def Filed (s : Session) : Prop :=
  ∀ e ∈ s.registry.evals, ∃ s₀ op ops state text r₁, FiledFrom s e s₀ op ops state text r₁

section FiledFrom

variable {s s₀ : Session} {e : UInt64 × BlockId} {first op : Operation} {ops : List Operation}
  {state : UInt32} {text : String} {r₁ : Registry}

/-- An operation that keeps the blocks keeps what is known of a condition. -/
theorem FiledFrom.perform (h : FiledFrom s e s₀ first ops state text r₁) (hs : s.Reachable)
    (hkept : r₁.arena.Precedes (s.perform op).registry.arena)
    (hmarks : ∀ p ∈ (s.perform op).registry.savepoints,
      p ∈ s.registry.savepoints ∨ r₁.arena.size ≤ p.blocks) :
    FiledFrom (s.perform op) e s₀ first (ops ++ [op]) state text r₁ where
  reachable := h.reachable
  since := by
    rw [h.since, Session.performAll, Session.performAll, List.foldl_append]
    rfl
  key := h.key
  fresh := h.fresh
  first := h.first
  compiled := h.compiled
  kept := hkept
  marks p hp hlow := (hmarks p hp).elim (fun hold => h.marks p hold hlow) id
  spares := Session.perform_spares hs.sound h.spares h.kept.le op

/-- An operation that adds to the registry keeps what is known of a condition. -/
theorem FiledFrom.grew (h : FiledFrom s e s₀ first ops state text r₁) (hs : s.Reachable)
    (hgrew : s.registry.Grew (s.perform op).registry) :
    FiledFrom (s.perform op) e s₀ first (ops ++ [op]) state text r₁ :=
  h.perform hs (h.kept.trans hgrew.arena) fun _ hp => .inl (hgrew.savepoints ▸ hp)

end FiledFrom

/-- A condition that is compiled anew comes from the session itself. -/
theorem filedFrom_of_compiled {s s' : Session} (hs : s.Reachable) {state : UInt32} {text : String}
    {id : BlockId} {op : Operation} (hop : s' = s.perform op)
    (hfresh : s.registry.evals.lookup (conditionKey state text) = none)
    (hcompiled : s.registry.compileCondition state text = (.ok id, s'.registry)) :
    FiledFrom s' (conditionKey state text, id) s op [] state text
      { s'.registry with evals := [(conditionKey state text, id)] } where
  reachable := hs
  since := hop
  key := by dsimp only
  fresh := hfresh
  first := hop ▸ hcompiled
  compiled := compileCondition_uncached hfresh hcompiled
  kept := .refl _
  marks := by
    intro p hp hlow
    -- a savepoint that is open was opened before the block was there
    have hgrew : s.registry.Grew s'.registry := compileEval_grew (succeeded_eq_ok.2 hcompiled)
    have hmark := hs.sound.marks p (hgrew.savepoints ▸ hp)
    have hid : s.registry.arena.size + 1 = id := (id_of_fresh hfresh hcompiled).symm
    exact absurd hlow (Nat.not_lt.2 (hid ▸ Nat.le_succ_of_le hmark))
  spares := spares_of_compileEval hs.linked hs.held hs.sound (succeeded_eq_ok.2 hcompiled)

/-- Compiling a unit compiles no condition. -/
theorem compile_evals {r r' : Registry} {state : UInt32} {text : String}
    (h : r.compile state text = .ok r') : r'.evals = r.evals := by
  obtain ⟨root, arena, -, rfl⟩ := compile_eq_ok.1 h
  rw [enterUnit, ← Array.foldl_toList]
  exact (foldl_enter_keeps { r with arena := arena } _).1

end Registry

namespace Session

open Registry

variable {s s' : Session}

/-- A condition that is there behind an operation was there before, or is compiled by the
operation. -/
theorem evals_perform (s : Session) (op : Operation) :
    ∀ e ∈ (s.perform op).registry.evals, e ∈ s.registry.evals ∨ ∃ state text,
      s.registry.evals.lookup (conditionKey state text) = none ∧ conditionKey state text = e.1 ∧
        s.registry.compileCondition state text = (.ok e.2, (s.perform op).registry) := by
  -- A condition is filed only by compiling it, behind a miss.
  have heval : ∀ state text, ∀ e ∈ (s.compileEval state text).2.registry.evals,
      e ∈ s.registry.evals ∨ s.registry.evals.lookup (conditionKey state text) = none ∧
        conditionKey state text = e.1 ∧ s.registry.compileCondition state text
          = (.ok e.2, (s.compileEval state text).2.registry) := by
    intro state text
    unfold compileEval
    rcases s.registry.compileCondition_cases state text with
      ⟨id, -, heq⟩ | ⟨hfresh, ⟨e, heq⟩ | ⟨arena, -, -, heq⟩⟩ <;> rw [heq]
    · exact fun _ he => .inl he
    · exact fun _ he => .inl he
    · intro e he
      rcases List.mem_cons.1 he with rfl | he
      · exact .inr ⟨hfresh, by dsimp only, by dsimp only⟩
      · exact .inl he
  intro e he
  cases op with
  | compile state text =>
    rcases s.compile_registry state text with hsame | hcompile
    · exact .inl (hsame ▸ he)
    · exact .inl (compile_evals hcompile ▸ he)
  | compileEval state text => exact (heval state text e he).imp_right fun h => ⟨state, text, h⟩
  | evalIf state text =>
    rcases evalIf_registry s state text with hsame | hsame
    · exact .inl (hsame ▸ he)
    · refine (heval state text e (hsame ▸ he)).imp_right fun h => ⟨state, text, ?_⟩
      exact ⟨h.1, h.2.1, h.2.2.trans (by rw [← hsame]; rfl)⟩
  | rollback =>
    refine .inl ?_
    change e ∈ (s.registry.rollback?.getD s.registry).evals at he
    unfold rollback? at he
    split at he
    · exact he
    · exact (List.mem_filter.1 he).1
  | release =>
    refine .inl ?_
    change e ∈ (s.registry.release?.getD s.registry).evals at he
    unfold release? at he
    split at he <;> exact he
  | extend | run | runContract | savepoint | provide | configure => exact .inl he

/-- A condition that stays keeps the blocks of its unit, and the marks of the savepoints that are
opened behind it are above them. -/
theorem filedFrom_perform (hs : s.Reachable) {e : UInt64 × BlockId}
    {s₀ : Session} {first : Operation} {ops : List Operation} {state : UInt32}
    {text : String} {r₁ : Registry} (h : FiledFrom s e s₀ first ops state text r₁) (op : Operation)
    (he : e ∈ (s.perform op).registry.evals) :
    FiledFrom (s.perform op) e s₀ first (ops ++ [op]) state text r₁ := by
  cases op with
  | savepoint =>
    refine h.perform hs h.kept fun p hp => ?_
    rcases List.mem_cons.1 hp with rfl | hp
    · exact .inr h.kept.le
    · exact .inl hp
  | rollback =>
    have hkept : r₁.arena.Precedes (s.registry.rollback?.getD s.registry).arena ∧
        ∀ p ∈ (s.registry.rollback?.getD s.registry).savepoints, p ∈ s.registry.savepoints := by
      change e ∈ (s.registry.rollback?.getD s.registry).evals at he
      unfold rollback? at he ⊢
      split at he
      · exact ⟨h.kept, fun _ hp => hp⟩
      · rename_i p rest hpoints
        -- A condition that survives the rollback was compiled
        -- before the savepoint, so it is not cut off.
        have hlow : e.2 < p.blocks := by simpa using (List.mem_filter.1 he).2
        have hmark := h.marks p (hpoints ▸ List.mem_cons_self ..) hlow
        exact ⟨h.kept.take hmark, fun q hq => hpoints ▸ List.mem_cons_of_mem _ hq⟩
    exact h.perform hs hkept.1 fun p hp => .inl (hkept.2 p hp)
  | release =>
    have hkept : (s.registry.release?.getD s.registry).arena = s.registry.arena ∧
        ∀ p ∈ (s.registry.release?.getD s.registry).savepoints, p ∈ s.registry.savepoints := by
      unfold release?
      split
      · exact ⟨rfl, fun _ hp => hp⟩
      · rename_i p rest hpoints
        exact ⟨rfl, fun q hq => hpoints ▸ List.mem_cons_of_mem _ hq⟩
    exact h.perform hs (hkept.1 ▸ h.kept) fun p hp => .inl (hkept.2 p hp)
  | _ =>
    exact h.grew hs (s.perform_grew (by simp) (by simp) (by simp))

/-- **Every compiled condition comes from a session before.** -/
theorem Reachable.filed (h : s.Reachable) : Filed s := by
  induction h with
  | new limits extensions env heap =>
    have hnone : (Registry.new limits extensions).evals = [] := by
      have hall : ∀ r : Registry, (extensions.foldl Registry.extend r).evals = r.evals := by
        induction extensions with
        | nil => exact fun _ => rfl
        | cons e es ih => exact fun r => ih _
      exact hall _
    intro e he
    rw [hnone] at he
    cases he
  | @perform s op hs ih =>
    intro e he
    rcases evals_perform s op e he with hold | ⟨state, text, hfresh, hkey, hcompiled⟩
    · obtain ⟨s₀, first, ops, state, text, r₁, hfiled⟩ := ih e hold
      exact ⟨s₀, first, ops ++ [op], state, text, r₁, filedFrom_perform hs hfiled op he⟩
    · have hfiled := filedFrom_of_compiled hs rfl hfresh hcompiled
      rw [hkey] at hfiled
      exact ⟨s, op, [], state, text, _, hfiled⟩

/-- What a session `s` answers to a condition with, the block `id` of the session `s'` behind it, if
it comes from a session `s₀`. There a condition with the same checksum was not found; it was
compiled there, or is now, to the same block, as it would be without compiled conditions. -/
structure FirstCompile (s s' : Session) (state : UInt32) (text : String)
    (id : BlockId) (s₀ : Session) (state₀ : UInt32) (text₀ : String) (r₁ : Registry) : Prop where
  reachable : s₀.Reachable
  key : conditionKey state₀ text₀ = conditionKey state text
  fresh : s₀.registry.evals.lookup (conditionKey state₀ text₀) = none
  since : s₀ = s ∨ ∃ op ops, s = (s₀.perform op).performAll ops ∧
    s₀.registry.compileCondition state₀ text₀ = (.ok id, (s₀.perform op).registry)
  compiled : s₀.registry.uncached.compileCondition state₀ text₀ = (.ok id, r₁)
  /-- Every block of then is what it was. -/
  kept : ∀ b < r₁.arena.size, s'.registry.block b = r₁.block b
  /-- The same condition runs as if it were compiled anew, if it means the same in both sessions. -/
  alike : state₀ = state → text₀ = text → s₀.registry.AgreeOn s.registry state text →
    ∃ id' r', s.registry.uncached.compileCondition state text = (.ok id', r') ∧
      ∀ params env heap, Run.func s'.registry id params env heap = Run.func r' id' params env heap
  /-- A condition that is not found is compiled in the session as it is. -/
  anew : s.registry.evals.lookup (conditionKey state text) = none →
    s₀ = s ∧ state₀ = state ∧ text₀ = text ∧
      ∀ params env heap, Run.func s'.registry id params env heap = Run.func r₁ id params env heap

/-- A condition that is not found is compiled in the session as it is. -/
theorem firstCompile_of_fresh (hs : s.Reachable) {state : UInt32} {text : String} {id : BlockId}
    (hfresh : s.registry.evals.lookup (conditionKey state text) = none)
    (hcompiled : s.registry.compileCondition state text = (.ok id, s'.registry)) :
    FirstCompile s s' state text id s state text
      { s'.registry with evals := [(conditionKey state text, id)] } where
  reachable := hs
  key := by dsimp only
  fresh := hfresh
  since := .inl rfl
  compiled := compileCondition_uncached hfresh hcompiled
  kept _ _ := rfl
  alike _ _ _ := ⟨_, _, compileCondition_uncached hfresh hcompiled,
    fun _ _ _ => (Run.func_withEvals ..).symm⟩
  anew _ := ⟨rfl, rfl, rfl, fun _ _ _ => (Run.func_withEvals ..).symm⟩

/-- A condition that is found is what it was when it was compiled. -/
theorem firstCompile_of_found (hs : s.Reachable) {state : UInt32} {text : String} {id : BlockId}
    (hfound : s.registry.evals.lookup (conditionKey state text) = some id)
    (hregistry : s'.registry = s.registry) :
    ∃ s₀ state₀ text₀ r₁, FirstCompile s s' state text id s₀ state₀ text₀ r₁ := by
  obtain ⟨before, behind, hevals, -⟩ := List.lookup_eq_some_iff.1 hfound
  have hmem : (conditionKey state text, id) ∈ s.registry.evals := hevals ▸ by simp
  obtain ⟨s₀, op, ops, state₀, text₀, r₁, hfiled⟩ := hs.filed _ hmem
  have hkey := hfiled.key
  have hfirst := hfiled.first
  have hcompiled := hfiled.compiled
  dsimp only at hkey hfirst hcompiled
  refine ⟨s₀, state₀, text₀, r₁, hfiled.reachable, hkey, hfiled.fresh,
    .inr ⟨op, ops, hfiled.since, hfirst⟩, hcompiled, fun b hb => ?_, ?_, fun hnone => ?_⟩
  · exact hregistry ▸ hfiled.kept.block hb
  · rintro rfl rfl hagree
    obtain ⟨r', hagain, hrenames, hid⟩ := Registry.recompiled hfiled.reachable.held.now
      hfiled.reachable.linked.now hcompiled hfiled.kept hs.held.now
      hs.linked.now hfiled.spares hagree
    refine ⟨_, r', hagain, fun params env heap => ?_⟩
    rw [hregistry, ← hid]
    exact (Run.func_renames hrenames id params env heap).symm
  · cases hfound.symm.trans hnone

/-- **A condition is what its first compilation gave.** Where a condition is found that was compiled
before, a condition with the same checksum compiles to it in a session before, without compiled
conditions, and every block of then is what it was. If it is the same condition and means what it
meant then, it runs as if it were compiled anew. A condition that is not found compiles in the
session as it is, and runs as it would without compiled conditions. -/
theorem condition_is_first_compile (hs : s.Reachable) {state : UInt32}
    {text : String} {id : BlockId} (h : s.compileEval state text = (.ok id, s')) :
    ∃ s₀ state₀ text₀ r₁, FirstCompile s s' state text id s₀ state₀ text₀ r₁ := by
  have hcompiled : s.registry.compileCondition state text = (.ok id, s'.registry) := by
    unfold compileEval at h
    cases hc : s.registry.compileCondition state text with
    | mk result r =>
      rw [hc] at h
      cases h
      rfl
  rcases s.registry.compileCondition_cases state text with
    ⟨id₁, hfound, heq⟩ | ⟨hfresh, -⟩
  · obtain ⟨hid, hregistry⟩ := Prod.mk.inj (heq.symm.trans hcompiled)
    cases hid
    exact firstCompile_of_found hs hfound hregistry.symm
  · exact ⟨s, state, text, _, firstCompile_of_fresh hs hfresh hcompiled⟩

/-- A session in which a function is declared again behind a condition that calls it. -/
def declaredAgain : Session := Session.new.performAll
  [.compile 1 "func f int \x7b return 1 \x7d", .compileEval 1 "f() == 1",
    .compile 1 "func f int \x7b return 2 \x7d"]

theorem declaredAgain_reachable : declaredAgain.Reachable := Reachable.start.performAll _

/-- The session behind a condition that compiles. -/
theorem compileEval_of_toOption {s : Session} {state : UInt32} {text : String} {id : BlockId}
    (h : (s.compileEval state text).1.toOption = some id) :
    s.compileEval state text = (.ok id, (s.compileEval state text).2) := by
  cases hr : s.compileEval state text with
  | mk result s' =>
    rw [hr] at h
    cases result with
    | error e => cases h
    | ok id' =>
      cases h
      rfl

/-- A condition that is found again, and one that compiles anew. -/
theorem condition_found_and_anew : declaredAgain.Reachable ∧
    (∃ s', declaredAgain.compileEval 1 "f() == 1" = (.ok 3, s') ∧
      ∃ s₀ state₀ text₀ r₁, FirstCompile declaredAgain s' 1 "f() == 1" 3 s₀ state₀ text₀ r₁) ∧
    ∃ s' r₁, declaredAgain.compileEval 1 "f() == 2" = (.ok 7, s') ∧
      declaredAgain.registry.evals.lookup (conditionKey 1 "f() == 2") = none ∧
      declaredAgain.registry.uncached.compileCondition 1 "f() == 2" = (.ok 7, r₁) ∧
      Run.func s'.registry 7 [] .empty .empty = Run.func r₁ 7 [] .empty .empty := by
  obtain ⟨hfound, hanew, hfresh⟩ : (declaredAgain.compileEval 1 "f() == 1").1.toOption = some 3 ∧
      (declaredAgain.compileEval 1 "f() == 2").1.toOption = some 7 ∧
      declaredAgain.registry.evals.lookup (conditionKey 1 "f() == 2") = none := by
    simp only [declaredAgain, performAll, List.foldl_cons, List.foldl_nil, perform_compile,
      String.reduceToList]
    decide +kernel
  refine ⟨declaredAgain_reachable, ⟨_, compileEval_of_toOption hfound,
    condition_is_first_compile declaredAgain_reachable (compileEval_of_toOption hfound)⟩, ?_⟩
  obtain ⟨s₀, state₀, text₀, r₁, hfirst⟩ :=
    condition_is_first_compile declaredAgain_reachable (compileEval_of_toOption hanew)
  obtain ⟨hs, hstate, htext, hrun⟩ := hfirst.anew hfresh
  have hcompiled := hfirst.compiled
  rw [hs, hstate, htext] at hcompiled
  exact ⟨_, r₁, compileEval_of_toOption hanew, hfresh, hcompiled, hrun [] .empty .empty⟩

/-- **A condition calls the function that it was compiled against**, where the same condition would
call the one of today if it were compiled anew. -/
theorem condition_calls_old_function : declaredAgain.Reachable ∧
    (declaredAgain.compileEval 1 "f() == 1").1.toOption = some 3 ∧
    (declaredAgain.registry.uncached.compileCondition 1 "f() == 1").1.toOption = some 7 ∧
    (Run.func (declaredAgain.compileEval 1 "f() == 1").2.registry 3 [] .empty
      .empty).result.toOption.map (·.map (Value.truthy .empty)) = some [true] ∧
    (Run.func (declaredAgain.registry.uncached.compileCondition 1 "f() == 1").2 7 [] .empty
      .empty).result.toOption.map (·.map (Value.truthy .empty)) = some [false] := by
  refine ⟨declaredAgain_reachable, ?_⟩
  simp only [declaredAgain, performAll, List.foldl_cons, List.foldl_nil, perform_compile,
    String.reduceToList]
  decide +kernel

end Session

end Covenant
