import Covenant.Proofs.Compile.Names
import Covenant.Proofs.Lexeme.Growth

/-!
# Operations of the host

What a host can do with a session, one operation after the other: it registers extensions, compiles
units and conditions, runs functions, contracts and conditions, opens and closes savepoints, and
changes the environment and the settings in between. An operation that fails counts too.

Every operation but those on savepoints only adds to the registry (`Session.perform_grew`), and
adding never changes a block that was there (`Registry.Grew`).
-/

namespace Covenant

/-! ### Adding to a registry -/

namespace Registry

variable {r r' r'' : Registry}

/-- Whether a registry is another one with blocks added at the end and compiled conditions that are
among the added blocks. -/
structure Grew (r r' : Registry) : Prop where
  arena : r.arena.Precedes r'.arena
  evals : ∃ new, r'.evals = new ++ r.evals ∧ ∀ e ∈ new, r.arena.size ≤ e.2 ∧ e.2 < r'.arena.size
  savepoints : r'.savepoints = r.savepoints

/-- A registry with the same blocks, compiled conditions and savepoints. -/
theorem Grew.of_eq (harena : r'.arena = r.arena) (hevals : r'.evals = r.evals)
    (hsavepoints : r'.savepoints = r.savepoints) : r.Grew r' :=
  ⟨harena ▸ .refl _, ⟨[], hevals, by simp⟩, hsavepoints⟩

theorem Grew.refl (r : Registry) : r.Grew r := .of_eq rfl rfl rfl

theorem extend_grew (r : Registry) (e : Extension) : r.Grew (r.extend e) := .of_eq rfl rfl rfl

/-- Entering a block changes the arena at that block only. -/
theorem enter_keeps (r : Registry) (child : BlockId) :
    (r.enter child).evals = r.evals ∧ (r.enter child).savepoints = r.savepoints ∧
      (r.enter child).arena.size = r.arena.size ∧
      ∀ a : Arena, a.size ≤ child → a.Precedes r.arena → a.Precedes (r.enter child).arena := by
  unfold enter
  split
  · exact ⟨rfl, rfl, rfl, fun _ _ h => h⟩
  · exact ⟨rfl, rfl, Array.size_modify, fun _ hchild h => h.modify hchild _⟩

/-- Entering the blocks of a unit changes the arena at these only. -/
theorem foldl_enter_keeps (r : Registry) (ids : List BlockId) :
    (ids.foldl enter r).evals = r.evals ∧ (ids.foldl enter r).savepoints = r.savepoints ∧
      (ids.foldl enter r).arena.size = r.arena.size ∧
      ∀ a : Arena, (∀ id ∈ ids, a.size ≤ id) → a.Precedes r.arena →
        a.Precedes (ids.foldl enter r).arena := by
  induction ids generalizing r with
  | nil => exact ⟨rfl, rfl, rfl, fun _ _ h => h⟩
  | cons id ids ih =>
    obtain ⟨hevals, hsavepoints, hsize, harena⟩ := enter_keeps r id
    obtain ⟨hevals', hsavepoints', hsize', harena'⟩ := ih (r.enter id)
    refine ⟨hevals'.trans hevals, hsavepoints'.trans hsavepoints, hsize'.trans hsize, ?_⟩
    intro a hids ha
    exact harena' a (fun i hi => hids i (List.mem_cons_of_mem _ hi))
      (harena a (hids id (List.mem_cons_self ..)) ha)

/-- Compiling a unit adds to the registry. -/
theorem compile_grew {state : UInt32} {text : String} (h : r.compile state text = .ok r') :
    r.Grew r' := by
  obtain ⟨root, arena, hcompile, rfl⟩ := compile_eq_ok.1 h
  obtain ⟨rfl, w, rfl, hw⟩ := Arena.compile_beside hcompile
  have hchildren : ∀ id ∈ (w.block r.arena.size).children.toList, r.arena.size ≤ id :=
    fun id hid => (hw.children _ (Nat.le_refl _) id (Array.mem_toList_iff.1 hid)).1
  obtain ⟨hevals, hsavepoints, -, harena⟩ := foldl_enter_keeps { r with arena := w.arena }
    (w.block r.arena.size).children.toList
  rw [enterUnit, ← Array.foldl_toList]
  exact ⟨harena _ hchildren hw.kept, ⟨[], hevals, by simp⟩, hsavepoints⟩

/-- A unit compiles, or leaves the registry as it was. -/
theorem compileUnit_cases (r : Registry) (state : UInt32) (text : String) :
    (∃ e, r.compileUnit state text = (.error e, r)) ∨
      ∃ r', r.compileUnit state text = (.ok (), r') ∧ r.compile state text = .ok r' := by
  unfold compile compileUnit
  rcases hunit : r.arena.compileUnit (r.scope state) text with ⟨e | root, arena⟩
  · rw [Arena.compileUnit_fails hunit]
    exact .inl ⟨e, rfl⟩
  · exact .inr ⟨_, rfl, rfl⟩

/-- The unit around a condition declares the function `eval`. -/
theorem eval_of_compile {a a' : Arena} {scope : Scope} {text : String} {root : BlockId}
    (h : a.compile scope (wrapCondition text) = .ok (root, a')) :
    (a'.block root).objects.get? "eval" = some (.func (a.size + 1)) := by
  obtain ⟨-, lexemes, w, hread, -⟩ := Arena.unit_of_compile h
  obtain ⟨rest, hrest⟩ := Lexeme.read_wrapCondition hread
  exact Arena.compile_header h hread ⟨[.type .bool, .punct .lcurly, .keyword .return] ++ rest,
    hrest⟩

/-- What is left of a condition that compiles anew: the arena of its unit, in which its function
stays out of error traces, and the condition's key. -/
def conditionAdded (r : Registry) (state : UInt32) (text : String) (arena : Arena) : Registry :=
  { r with
    arena := arena.modify (r.arena.size + 1) (·.modifyFunc fun f => { f with hidden := true })
    evals := (conditionKey state text, r.arena.size + 1) :: r.evals }

/-- A condition was compiled before, or compiles as a unit, or leaves the registry as it was. -/
theorem compileCondition_cases (r : Registry) (state : UInt32) (text : String) :
    (∃ id, r.evals.lookup (conditionKey state text) = some id ∧
        r.compileCondition state text = (.ok id, r)) ∨
      r.evals.lookup (conditionKey state text) = none ∧
        ((∃ e, r.compileCondition state text = (.error e, r)) ∨
          ∃ arena, checkBraces text = .ok () ∧
            r.arena.compile (r.scope state) (wrapCondition text) = .ok (r.arena.size, arena) ∧
            r.compileCondition state text
              = (.ok (r.arena.size + 1), r.conditionAdded state text arena)) := by
  unfold compileCondition
  dsimp only
  cases hlookup : r.evals.lookup (conditionKey state text) with
  | some id => exact .inl ⟨id, rfl, rfl⟩
  | none =>
    refine .inr ⟨rfl, ?_⟩
    cases hbraces : checkBraces text with
    | error e => exact .inl ⟨e, rfl⟩
    | ok =>
      rcases hunit : r.arena.compileUnit (r.scope state) (wrapCondition text) with ⟨e | root, arena⟩
      · rw [Arena.compileUnit_fails hunit]
        exact .inl ⟨_, rfl⟩
      · have hcompile := Arena.compile_eq_ok.2 hunit
        -- The wrapper is the first block behind the arena and its function the second.
        obtain ⟨rfl, -⟩ := Arena.compile_beside hcompile
        have heval := eval_of_compile hcompile
        dsimp only
        rw [heval]
        exact .inr ⟨arena, rfl, hcompile, rfl⟩

/-- A condition that compiles was compiled before, or is the function of a new unit. -/
theorem compileEval_cases {state : UInt32} {text : String} {id : BlockId}
    (h : r.compileEval state text = .ok (id, r')) :
    r' = r ∨ ∃ arena,
      r.arena.compile (r.scope state) (wrapCondition text) = .ok (r.arena.size, arena) ∧
        id = r.arena.size + 1 ∧ r' = r.conditionAdded state text arena := by
  have h := succeeded_eq_ok.1 h
  rcases compileCondition_cases r state text with
    ⟨id', -, heq⟩ | ⟨-, ⟨e, heq⟩ | ⟨arena, -, hcompile, heq⟩⟩ <;> cases heq.symm.trans h
  · exact .inl rfl
  · exact .inr ⟨arena, hcompile, rfl, rfl⟩

/-- Compiling a condition adds to the registry. -/
theorem compileEval_grew {state : UInt32} {text : String} {id : BlockId}
    (h : r.compileEval state text = .ok (id, r')) : r.Grew r' := by
  rcases compileEval_cases h with rfl | ⟨arena, hcompile, rfl, rfl⟩
  · exact .refl _
  · obtain ⟨-, w, rfl, hw⟩ := Arena.compile_beside hcompile
    obtain ⟨hlow, hhigh⟩ := hw.bound _ (Nat.le_refl _) "eval" _ (eval_of_compile hcompile) _ rfl
    refine ⟨hw.kept.modify hlow _, ⟨[(_, _)], rfl, ?_⟩, rfl⟩
    intro e he
    rw [List.mem_singleton.1 he]
    show _ ∧ _ < (Array.modify _ _ _).size
    rw [Array.size_modify]
    exact ⟨hlow, hhigh⟩

end Registry

/-! ### Operations -/

/-- What a host does with a session. -/
inductive Operation where
  | extend (e : Extension)
  | compile (state : UInt32) (text : String)
  | compileEval (state : UInt32) (text : String)
  | evalIf (state : UInt32) (text : String)
  | run (id : BlockId) (params : List Value)
  | runContract (state : UInt32) (name : String) (params : Dict Value)
  | savepoint
  | rollback
  | release
  /-- Changes the environment and its arrays and maps. -/
  | provide (env : Dict Value) (heap : Heap)
  /-- Changes the limits, whether names may be unknown, and what calls cost. -/
  | configure (limits : Limits) (lateCalls : Bool) (extensionCost : String → Option Int)
      (contractPrice : String → Option Int)

namespace Session

/-- The session that an operation leaves, successful or not. -/
def perform (s : Session) : Operation → Session
  | .extend e => { s with registry := s.registry.extend e }
  | .compile state text => (s.compile state text).2
  | .compileEval state text => (s.compileEval state text).2
  | .evalIf state text => (s.evalIf state text).2
  | .run id params => (s.run id params).2
  | .runContract state name params => (s.runContract state name params).2
  | .savepoint => { s with registry := s.registry.savepoint }
  | .rollback => { s with registry := s.registry.rollback?.getD s.registry }
  | .release => { s with registry := s.registry.release?.getD s.registry }
  | .provide env heap => { s with env := env, heap := heap }
  | .configure limits lateCalls extensionCost contractPrice =>
    { s with registry := { s.registry with limits, lateCalls, extensionCost, contractPrice } }

/-- The session that some operations leave. -/
def performAll (s : Session) (ops : List Operation) : Session := ops.foldl perform s

/-- Sessions that a host can come to. -/
inductive Reachable : Session → Prop
  | new (limits : Limits) (extensions : List Extension) (env : Dict Value) (heap : Heap) :
      Reachable { registry := .new limits extensions, env := env, heap := heap }
  | perform {s : Session} (op : Operation) : Reachable s → Reachable (s.perform op)

/-- A host can come to a session with the standard library. -/
theorem Reachable.start : Session.new.Reachable := .new {} Library.standard .empty .empty

theorem Reachable.performAll {s : Session} (h : s.Reachable) (ops : List Operation) :
    (s.performAll ops).Reachable := by
  induction ops generalizing s with
  | nil => exact h
  | cons op ops ih => exact ih (.perform op h)

/-- Compiling a unit leaves the registry as it was, or as a unit that compiles leaves it. -/
theorem compile_registry (s : Session) (state : UInt32) (text : String) :
    (s.compile state text).2.registry = s.registry ∨
      s.registry.compile state text = .ok (s.compile state text).2.registry := by
  unfold compile
  rcases s.registry.compileUnit_cases state text with ⟨e, heq⟩ | ⟨r, heq, hcompile⟩ <;> rw [heq]
  · exact .inl rfl
  · exact .inr hcompile

/-- Compiling a condition leaves the registry as it was, or as a condition that compiles leaves
it. -/
theorem compileEval_registry (s : Session) (state : UInt32) (text : String) :
    (s.compileEval state text).2.registry = s.registry ∨
      ∃ id, s.registry.compileEval state text
        = .ok (id, (s.compileEval state text).2.registry) := by
  unfold compileEval Registry.compileEval
  rcases s.registry.compileCondition_cases state text with
    ⟨id, -, heq⟩ | ⟨-, ⟨e, heq⟩ | ⟨arena, -, -, heq⟩⟩ <;> rw [heq]
  · exact .inl rfl
  · exact .inl rfl
  · exact .inr ⟨_, rfl⟩

/-- The session behind a unit, by the characters of its text. -/
def compileChars (s : Session) (state : UInt32) (cs : List Char) : Session :=
  let r := s.registry
  match Reader.run (cs.length + 1) {} ⟨1, 1⟩ (cs ++ ['\n']) with
  | .error _ => s
  | .ok reader =>
    match Compile.unit ((r.scope state).source reader.lexemes)
      { arena := r.arena.push { parent := none }, root := r.arena.size } with
    | .ok () w => { s with registry := { r with arena := w.arena }.enterUnit r.arena.size }
    | .error _ w => { s with registry := { r with arena := w.arena.take r.arena.size } }

/-- What a unit makes of a session rests on the characters of its text alone. A list of characters
is computed with faster than the text. -/
theorem perform_compile (s : Session) (state : UInt32) (text : String) :
    s.perform (.compile state text) = s.compileChars state text.toList := by
  unfold perform compile Registry.compileUnit Arena.compileUnit Lexeme.read compileChars
  dsimp only
  rw [List.length_append, List.length_singleton]
  cases Reader.run (text.toList.length + 1) {} ⟨1, 1⟩ (text.toList ++ ['\n']) with
  | error e => rfl
  | ok reader =>
    dsimp only [Except.map]
    cases Compile.unit ((s.registry.scope state).source reader.lexemes)
      { arena := s.registry.arena.push { parent := none }, root := s.registry.arena.size } with
    | ok u w => rfl
    | error e w => rfl

theorem compile_grew (s : Session) (state : UInt32) (text : String) :
    s.registry.Grew (s.compile state text).2.registry := by
  rcases s.compile_registry state text with h | h
  · exact h ▸ .refl _
  · exact Registry.compile_grew h

theorem compileEval_grew (s : Session) (state : UInt32) (text : String) :
    s.registry.Grew (s.compileEval state text).2.registry := by
  rcases s.compileEval_registry state text with h | ⟨id, h⟩
  · exact h ▸ .refl _
  · exact Registry.compileEval_grew h

/-- **A failed compile changes nothing**: where a unit or a condition does not compile, blocks,
names, stable numbers, compiled conditions and savepoints are what they were. -/
theorem failed_compile_changes_nothing (s : Session) (state : UInt32) (text : String) (e : Error) :
    ((s.compile state text).1 = .error e → (s.compile state text).2 = s) ∧
      ((s.compileEval state text).1 = .error e → (s.compileEval state text).2 = s) := by
  constructor
  · unfold compile
    rcases s.registry.compileUnit_cases state text with ⟨e', heq⟩ | ⟨r, heq, -⟩ <;> rw [heq]
    · exact fun _ => rfl
    · intro h
      cases h
  · unfold compileEval
    rcases s.registry.compileCondition_cases state text with
      ⟨id, -, heq⟩ | ⟨-, ⟨e', heq⟩ | ⟨arena, -, -, heq⟩⟩ <;> rw [heq]
    · exact fun _ => rfl
    · exact fun _ => rfl
    · intro h
      cases h

/-- A unit that fails behind a contract and a function, and a condition that calls no function. -/
theorem failed_unit_changes_nothing :
    let s := Session.new.perform (.compile 1 "func f int \x7b return 1 \x7d")
    let text := "contract X \x7b action \x7b f() \x7d \x7d func g \x7b h() \x7d"
    (∃ e, (s.compile 1 text).1 = .error e ∧ (s.compile 1 text).2 = s) ∧
      ∃ e, (s.compileEval 1 "f() == h()").1 = .error e ∧ (s.compileEval 1 "f() == h()").2 = s := by
  intro s text
  have hfails : ∀ {α : Type} {x : Except Error α}, x.isOk = false → ∃ e, x = .error e := by
    intro α x hx
    cases x with
    | error e => exact ⟨e, rfl⟩
    | ok => cases hx
  obtain ⟨e, he⟩ := hfails (x := (s.compile 1 text).1) (by decide +kernel)
  obtain ⟨e', he'⟩ := hfails (x := (s.compileEval 1 "f() == h()").1) (by decide +kernel)
  exact ⟨⟨e, he, (failed_compile_changes_nothing s 1 text e).1 he⟩,
    ⟨e', he', (failed_compile_changes_nothing s 1 "f() == h()" e').2 he'⟩⟩

/-- Running a condition changes no more of the registry than compiling it. -/
theorem evalIf_registry (s : Session) (state : UInt32) (text : String) :
    (s.evalIf state text).2.registry = s.registry ∨
      (s.evalIf state text).2.registry = (s.compileEval state text).2.registry := by
  unfold evalIf
  split
  · exact .inl rfl
  · have heval : (s.eval state text).2.registry = (s.compileEval state text).2.registry := by
      unfold eval
      split
      · rename_i h
        rw [h]
      · rename_i h
        rw [h]
        rfl
    exact .inr heval

theorem evalIf_grew (s : Session) (state : UInt32) (text : String) :
    s.registry.Grew (s.evalIf state text).2.registry := by
  rcases evalIf_registry s state text with h | h
  · exact h ▸ .refl _
  · exact h ▸ compileEval_grew s state text

/-- Every operation but those on savepoints adds to the registry. -/
theorem perform_grew (s : Session) {op : Operation} (hsavepoint : op ≠ .savepoint)
    (hrollback : op ≠ .rollback) (hrelease : op ≠ .release) :
    s.registry.Grew (s.perform op).registry := by
  cases op with
  | savepoint => exact absurd rfl hsavepoint
  | rollback => exact absurd rfl hrollback
  | release => exact absurd rfl hrelease
  | extend e => exact Registry.extend_grew _ e
  | compile state text => exact compile_grew s state text
  | compileEval state text => exact compileEval_grew s state text
  | evalIf state text => exact evalIf_grew s state text
  | run | runContract | provide => exact .refl _
  | configure => exact .of_eq rfl rfl rfl

end Session

/-! ### What every block keeps -/

/-- Whether a property of blocks holds of an empty block, and units and the registry keep it. -/
structure BlockInvariant (P : Block → Prop) : Prop where
  empty : P { parent := none }
  unit : ∀ {a a' : Arena} {scope : Scope} {text : String} {root : BlockId}, a.Every P →
    a.compile scope text = .ok (root, a') → a'.Every P
  setId : ∀ {b : Block} (id : Nat), P b → P (b.setId id)
  hidden : ∀ {b : Block}, P b → P (b.modifyFunc fun f => { f with hidden := true })

namespace BlockInvariant

variable {P : Block → Prop} {r r' : Registry} {s : Session}

theorem enter (hP : BlockInvariant P) (h : r.arena.Every P) (child : BlockId) :
    (r.enter child).arena.Every P := by
  unfold Registry.enter
  split
  · exact h
  · exact h.modify fun hb => hP.setId _ hb

/-- What new units and marks keep of all blocks holds behind a compilation. -/
theorem compile (hP : BlockInvariant P) (h : r.arena.Every P) {state : UInt32} {text : String}
    (hcompile : r.compile state text = .ok r') : r'.arena.Every P := by
  obtain ⟨root, arena, hunit, rfl⟩ := Registry.compile_eq_ok.1 hcompile
  have hall : ∀ (ids : List BlockId) (r : Registry), r.arena.Every P →
      (ids.foldl Registry.enter r).arena.Every P := by
    intro ids
    induction ids with
    | nil => exact fun _ h => h
    | cons id ids ih => exact fun r h => ih _ (hP.enter h id)
  rw [Registry.enterUnit, ← Array.foldl_toList]
  exact hall _ _ (hP.unit h hunit)

theorem compileEval (hP : BlockInvariant P) (h : r.arena.Every P) {state : UInt32} {text : String}
    {id : BlockId} (hcompile : r.compileEval state text = .ok (id, r')) : r'.arena.Every P := by
  rcases Registry.compileEval_cases hcompile with rfl | ⟨arena, hunit, -, rfl⟩
  · exact h
  · exact (hP.unit h hunit).modify hP.hidden

/-- So it does behind any operation. -/
theorem perform (hP : BlockInvariant P) (h : s.registry.arena.Every P) (op : Operation) :
    (s.perform op).registry.arena.Every P := by
  -- `evalIf` compiles a condition too, so what compiling one keeps is shown for both operations.
  have heval : ∀ state text, (s.compileEval state text).2.registry.arena.Every P := by
    intro state text
    rcases s.compileEval_registry state text with hsame | ⟨id, hcompile⟩
    · exact hsame ▸ h
    · exact hP.compileEval h hcompile
  cases op with
  | compile state text =>
    show (s.compile state text).2.registry.arena.Every P
    rcases s.compile_registry state text with hsame | hcompile
    · exact hsame ▸ h
    · exact hP.compile h hcompile
  | compileEval state text => exact heval state text
  | evalIf state text =>
    rcases Session.evalIf_registry s state text with hsame | hsame
    · exact hsame ▸ h
    · exact hsame ▸ heval state text
  | rollback =>
    show (s.registry.rollback?.getD s.registry).arena.Every P
    unfold Registry.rollback?
    split
    · exact h
    · exact h.take hP.empty _
  | release =>
    show (s.registry.release?.getD s.registry).arena.Every P
    unfold Registry.release?
    split <;> exact h
  | extend | run | runContract | savepoint | provide | configure => exact h

end BlockInvariant

/-- **All blocks of a host's registry have what empty blocks have and compiling keeps.** -/
theorem Session.Reachable.every {P : Block → Prop} {s : Session} (h : s.Reachable)
    (hP : BlockInvariant P) : s.registry.arena.Every P := by
  induction h with
  | new limits extensions =>
    have hall : ∀ r : Registry, (extensions.foldl Registry.extend r).arena = r.arena := by
      induction extensions with
      | nil => exact fun _ => rfl
      | cons e es ih => exact fun r => ih _
    show Arena.Every P (Registry.new limits extensions).arena
    rw [Registry.new, hall]
    exact .of_getElem? hP.empty fun i b hb => by simp at hb
  | perform op _ ih => exact hP.perform ih op

end Covenant
