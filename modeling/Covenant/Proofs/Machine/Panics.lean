import Covenant.Proofs.Machine.SystemVariables

/-!
# What a panic of the host leaves behind

A host function can answer a call, fail, or panic. A failure goes out through the frames of the run
and restores the environments of the contracts among them. A panic is caught where the run was
started, and leaves the environment as it was then: with the marker of every contract that was
active, with what they have bound, and without the variables of their callers.

To compare the two, `Registry.failing` replaces every panic of a host function by a failure. The two
runs are the same up to the panic (`Exec.step_spared`), and so the environments that they hand back
differ by the contracts that were active then (`Launch.env_behind_panic`). They are the same if none
was, and need not be the same otherwise (`Launch.panic_leaves_marker`).
-/

namespace Covenant

open Covenant.Computation

/-! ### Failing instead of panicking -/

/-- A dictionary with other values. -/
def Dict.map {α β : Type} (f : α → β) (d : Dict α) : Dict β where
  entries := d.entries.map fun p => (p.1, f p.2)
  index := d.index
  index_eq := by
    intro key i
    rw [d.index_eq, Array.getElem?_map, Option.map_map]
    rfl

/-- To look up a key in a mapped dictionary is to look it up and map what is found. -/
theorem Dict.get?_map {α β : Type} (f : α → β) (d : Dict α) (key : String) :
    (d.map f).get? key = (d.get? key).map f := by
  unfold get? map
  dsimp only
  split
  · rfl
  · rw [Array.getElem?_map, Option.map_map, Option.map_map]
    rfl

/-- What a host function that panics answers instead. -/
def Reply.spared (f : Fault) : Reply → Reply
  | .crash => .fault f
  | reply => reply

/-- The extension that fails where it panics. -/
def Extension.failing (f : Fault) (e : Extension) : Extension :=
  match e.behaviour with
  | .host run =>
    { e with behaviour := .host fun args host =>
        ((run args host).1.spared f, (run args host).2) }
  | _ => e

/-- The instruction whose extension fails where it panics. -/
def Op.failing (f : Fault) : Op → Op
  | .call (.ext e) => .call (.ext (e.failing f))
  | .callVariadic (.ext e) => .callVariadic (.ext (e.failing f))
  | op => op

/-- The block whose extensions fail where they panic. -/
def Block.failing (f : Fault) (b : Block) : Block :=
  { b with code := b.code.map fun i => { i with op := i.op.failing f } }

/-- What a name stands for, if extensions fail where they panic. -/
def Binding.failing (f : Fault) : Binding → Binding
  | .ext e => .ext (e.failing f)
  | b => b

/-- The registry whose extensions fail where they panic. -/
def Registry.failing (f : Fault) (r : Registry) : Registry :=
  { r with
    arena := r.arena.map (Block.failing f)
    objects := r.objects.map (Binding.failing f) }

/-- The context of a run whose extensions fail where they panic. -/
def Context.failing (f : Fault) (c : Context) : Context :=
  { c with registry := c.registry.failing f }

section

variable (f : Fault)

/-- The blocks of the registry with failing instead of panicking functions. -/
theorem Registry.block_failing (r : Registry) (id : BlockId) :
    (r.failing f).block id = (r.block id).failing f := by
  unfold Registry.block Registry.failing Arena.block
  dsimp only
  rw [Array.getD_eq_getD_getElem?, Array.getD_eq_getD_getElem?, Array.getElem?_map]
  cases r.arena[id]? with
  | none => simp [Block.failing]
  | some b => rfl

theorem Context.block_failing (c : Context) (id : BlockId) :
    (c.failing f).block id = (c.block id).failing f := c.registry.block_failing f id

theorem Context.size_failing (c : Context) :
    (c.failing f).registry.arena.size = c.registry.arena.size := Array.size_map

/-- It has the same names. -/
theorem Registry.qualified?_failing (r : Registry) (name : String) :
    (r.failing f).qualified? name = r.qualified? name := by
  unfold qualified? failing
  dsimp only
  rw [Dict.get?_map]
  cases r.objects.get? name with
  | none => rfl
  | some b => cases b <;> rfl

/-- A failure has the same trace. -/
theorem Registry.unwind_failing (r : Registry) (fs : List Frame) (line : Option Nat) (e : Error)
    (m : Machine) : (r.failing f).unwind fs line e m = r.unwind fs line e m := by
  have hname : ∀ id, (r.failing f).traceName? id = r.traceName? id := by
    intro id
    unfold traceName?
    simp only [block_failing]
    rfl
  have hline : ∀ a, (r.failing f).lineAt a = r.lineAt a := by
    intro a
    unfold lineAt
    rw [block_failing, Block.failing]
    dsimp only
    rw [Array.getElem?_map, Option.map_map]
    rfl
  fun_induction Registry.unwind r fs line e m with
  | case1 => rfl
  | case2 k fs line e m ih => exact ih
  | case3 a fs line e m name hname' ih =>
    rw [unwind, hname, hname', hline]
    exact ih
  | case4 a fs line e m hnone ih =>
    rw [unwind, hname, hnone, hline]
    exact ih

end

/-! ### Runs up to a panic -/

namespace Exec

variable {α β : Type} {f : Fault}

/-- Whether a computation is the same as another one, or fails where the other one breaks off. -/
def Spared (f : Fault) (x x' : Exec α) : Prop := ∀ m, x' m = x m ∨
  ∃ m', x m = .error .crash m' ∧ x' m = .error (.fault f) m'

namespace Spared

variable {x x' : Exec α} {k k' : α → Exec β}

theorem refl (x : Exec α) : Spared f x x := fun _ => .inl rfl

theorem of_eq (h : x' = x) : Spared f x x' := fun m => .inl (congrFun h m)

/-- Two parts are spared together: if the first one fails in both runs, the second is not begun in
either. -/
theorem bind (hx : Spared f x x') (hk : ∀ a, Spared f (k a) (k' a)) :
    Spared f (x >>= k) (x' >>= k') := by
  intro m
  rcases hx m with hsame | ⟨m', hx, hx'⟩
  · cases hr : x m with
    | ok a m' =>
      rw [bind_of_ok hr, bind_of_ok (hsame.trans hr)]
      exact hk a m'
    | error e m' =>
      rw [bind_of_error hr, bind_of_error (hsame.trans hr)]
      exact .inl rfl
  · exact .inr ⟨m', bind_of_error hx, bind_of_error hx'⟩

end Spared

variable (f) (c : Context)

theorem enterBlock_failing : enterBlock (c.failing f) = enterBlock c := by
  funext id given role
  unfold enterBlock
  rw [c.size_failing, c.block_failing]
  rfl

theorem start_failing : start (c.failing f) = start c := by
  funext id params role
  unfold start
  rw [c.size_failing, c.block_failing, enterBlock_failing]
  rfl

theorem leave_failing : leave (c.failing f) = leave c := by
  funext status
  unfold leave
  simp only [c.block_failing]
  rfl

theorem callFunc_failing : callFunc (c.failing f) = callFunc c := by
  funext id count
  unfold callFunc
  rw [c.size_failing, c.block_failing, enterBlock_failing]
  rfl

theorem callContract_failing : callContract (c.failing f) = callContract c := by
  funext name names values via
  unfold callContract
  simp only [c.size_failing, c.block_failing]
  rw [show (c.failing f).registry.qualified? name = c.registry.qualified? name from
    c.registry.qualified?_failing f name]
  rfl

theorem assignVar_failing : assignVar (c.failing f) = assignVar c := by
  funext v x
  unfold assignVar
  rw [c.block_failing]
  rfl

/-- Assignments do not look at extensions. -/
theorem assignAll_failing (ts : List Target) (xs : List Value) :
    assignAll (c.failing f) ts xs = assignAll c ts xs := by
  induction ts generalizing xs with
  | nil => rfl
  | cons t ts ih =>
    cases xs with
    | nil => rfl
    | cons x xs =>
      rw [assignAll, assignAll, ih]
      cases t with
      | extend name => rfl
      | var v => exact congrArg (· v x >>= fun _ => assignAll c ts xs) (assignVar_failing f c)

theorem resume_failing : resume (c.failing f) = resume c := by
  funext k rest
  unfold resume
  rw [start_failing]

variable {f c}

/-- A host function that panics fails instead. -/
theorem spared_callHost (e : Extension) (run : List Value → Host → Reply × Host)
    (args : List Value) : Spared f (callHost e run args) (callHost e
      (fun args host => ((run args host).1.spared f, (run args host).2)) args) := by
  intro m
  unfold callHost
  rw [bind_of_ok (modifyGet_apply _ m), bind_of_ok (modifyGet_apply _ m)]
  dsimp only
  rcases run args ⟨m.heap, m.env, m.cost⟩ with ⟨reply, host⟩
  cases reply with
  | values vs => exact .inl rfl
  | fault f => exact .inl rfl
  | crash => exact .inr ⟨_, rfl, rfl⟩

theorem failing_of_host {e : Extension} {run : List Value → Host → Reply × Host}
    (h : e.behaviour = .host run) : e.failing f = { e with
      behaviour := .host (fun args host => ((run args host).1.spared f, (run args host).2)) } := by
  unfold Extension.failing
  rw [h]

theorem failing_of_not_host {e : Extension} (h : ∀ run, e.behaviour ≠ .host run) :
    e.failing f = e := by
  unfold Extension.failing
  split
  · exact absurd ‹_› (h _)
  · rfl

/-- An extension does the same, but for the way in which it breaks off. -/
theorem spared_behave (e : Extension) (args : List Value) :
    Spared f (behave c e args) (behave (c.failing f) (e.failing f) args) := by
  cases hbehaviour : e.behaviour with
  | host run =>
    have hfailing := failing_of_host (f := f) hbehaviour
    unfold behave
    rw [hbehaviour, hfailing]
    exact spared_callHost e run args
  | execContract | callContract =>
    rw [failing_of_not_host fun run h => by rw [hbehaviour] at h; cases h]
    unfold behave callContractIn
    rw [hbehaviour, callContract_failing]
    exact .refl _

/-- Arguments are gathered by the header of an extension, which is the same. -/
theorem extensionArgs_failing (e : Extension) (count : Option Nat) :
    extensionArgs (c.failing f) (e.failing f) count = extensionArgs c e count := by
  cases hbehaviour : e.behaviour with
  | host run =>
    rw [failing_of_host hbehaviour]
    rfl
  | execContract | callContract =>
    rw [failing_of_not_host fun run h => by rw [hbehaviour] at h; cases h]
    rfl

theorem spared_callExtension (e : Extension) (count : Option Nat) :
    Spared f (callExtension c e count) (callExtension (c.failing f) (e.failing f) count) := by
  rw [callExtension_eq, callExtension_eq, extensionArgs_failing]
  exact .bind (.refl _) fun args => spared_behave e args

/-! ### Instructions and steps -/

/-- Every instruction does the same, but for the way in which it breaks off. -/
theorem spared_perform (op : Op) :
    Spared f (perform c op) (perform (c.failing f) (op.failing f)) := by
  cases op with
  | callExtend name =>
    refine .bind (.refl _) fun count => ?_
    -- A name is looked up at run time, so what is bound to it fails in the same way.
    have hname : (c.failing f).registry.objects.get? name
        = (c.registry.objects.get? name).map (Binding.failing f) :=
      Dict.get?_map (Binding.failing f) c.registry.objects name
    rw [hname]
    cases c.registry.objects.get? name with
    | none => exact .refl _
    | some b =>
      cases b with
      | ext e => exact spared_callExtension e _
      | contract | func | var | extVar => exact .refl _
  | call g =>
    cases g with
    | func id => exact .of_eq (congrFun (congrFun (callFunc_failing f c) id) none)
    | ext e => exact spared_callExtension e none
  | callVariadic g =>
    cases g with
    | func id =>
      exact .bind (.refl _) fun count =>
        .of_eq (congrFun (congrFun (callFunc_failing f c) id) (some count))
    | ext e => exact .bind (.refl _) fun count => spared_callExtension e (some count)
  | «return» | «continue» | «break» => exact .of_eq (congrFun (leave_failing f c) _)
  | «if» body | «else» body | «while» body =>
    unfold perform Op.failing
    dsimp only
    rw [enterBlock_failing]
    exact .refl _
  | assign =>
    unfold perform Op.failing
    simp only [assignAll_failing]
    exact .refl _
  | push | var | extendVar | label | error | funcName | unwrapArr | mapInit | arrayInit | index
  | setIndex | unary | binary | assignVar => exact .refl _

/-- **Steps are the same up to a panic.** -/
theorem spared_step : Spared f (step c) (step (c.failing f)) := by
  unfold step
  rw [resume_failing, leave_failing]
  refine .bind (.refl _) fun m => ?_
  split
  · exact .refl _
  · exact .refl _
  · refine .bind (.refl _) fun m => ?_
    split
    · exact .refl _
    · rw [c.block_failing, Block.failing]
      dsimp only
      rw [Array.getElem?_map]
      split
      · rename_i hnone
        rw [hnone]
        exact .refl _
      · rename_i i hcode
        rw [hcode]
        exact .bind (.refl _) fun _ => spared_perform i.op

/-- So does a whole run. -/
theorem spared_loop (fuel : Nat) : Spared f (loop c fuel) (loop (c.failing f) fuel) := by
  induction fuel with
  | zero => exact .refl _
  | succ fuel ih =>
    unfold loop
    refine .bind (.refl _) fun m => ?_
    split
    · exact .refl _
    · exact .bind spared_step fun _ => ih

end Exec

/-! ### Runs -/

namespace Launch

/-- So does the start of a run. -/
theorem spared_start {f : Fault} {c : Context} (l : Launch) :
    Exec.Spared f (l.start c) (l.start (c.failing f)) := by
  cases l with
  | func id params =>
    exact .of_eq (congrFun (congrFun (congrFun (Exec.start_failing f c) id) params) .entry)
  | contract state name params =>
    unfold start Exec.callContractIn
    rw [Exec.callContract_failing]
    exact .refl _

/-- **What a panic leaves behind.** A run in which no host function panics is the same if they fail
instead. Otherwise the environment that is handed back is the one that the host function left; if it
fails instead, the contracts that were active are restored. So both hand back the same environment
if no contract was active. -/
theorem env_behind_panic (r : Registry) (f : Fault) (l : Launch) (env : Dict Value) (h : Heap)
    (clock : Nat → Nat) :
    l.run (r.failing f) env h clock = l.run r env h clock ∨
      ∃ m q m', l.Makes r env h clock m q (.error .crash m') ∧
        (l.run r env h clock).result = .error (.of .runtimePanic) ∧
        (l.run r env h clock).env = Run.settle m'.env m'.cost ∧
        (l.run (r.failing f) env h clock).env
          = Run.settle (restoreAll m'.calls m'.env) m'.cost ∧
        (m'.calls = [] →
          (l.run (r.failing f) env h clock).env = (l.run r env h clock).env) := by
  have hbudget : Run.budget (r.failing f) env h = Run.budget r env h := rfl
  unfold Launch.run Run.execute
  rw [hbudget]
  split
  · exact .inl rfl
  · exact .inl rfl
  · rename_i cost allowance hcost hallowance
    dsimp only [EStateM.run]
    have hspared : Exec.Spared f
        (l.start { registry := r, allowance := allowance, clock := clock } >>= fun _ =>
          Exec.loop { registry := r, allowance := allowance, clock := clock } (Run.fuel cost))
        (l.start { registry := r.failing f, allowance := allowance, clock := clock } >>= fun _ =>
          Exec.loop { registry := r.failing f, allowance := allowance, clock := clock }
            (Run.fuel cost)) :=
      .bind l.spared_start fun _ => Exec.spared_loop (Run.fuel cost)
    rcases hspared { heap := h, env := env, cost := cost } with hsame | ⟨m', hcrash, hfault⟩
    · refine .inl ?_
      rw [hsame]
      simp only [Registry.unwind_failing]
    · have hconcludes := l.concludes { registry := r, allowance := allowance, clock := clock }
        { heap := h, env := env, cost := cost } (Run.fuel cost)
      rw [hcrash] at hconcludes
      rw [hcrash, hfault]
      -- the step that panics leaves the same machine in both runs; only the way back differs
      cases hconcludes with
      | @fails m _ q _ htrans =>
        have hunwind : ((r.failing f).unwind m'.frames none (.of f) m').2.env
            = restoreAll m'.calls m'.env := unwind_frames_env ..
        refine .inr ⟨m, q, m', ⟨cost, allowance, hcost, hallowance, htrans⟩, rfl, rfl, ?_, ?_⟩
        · dsimp only
          rw [hunwind, Registry.cost_unwind]
        · intro hnone
          dsimp only
          rw [hunwind, Registry.cost_unwind, hnone, restoreAll_nil]

/-- A contract that calls a host function that panics. -/
def panicsInContract : Session :=
  { registry := .new {} [{ name := "Crash", params := [], results := []
                           behaviour := .host fun _ host => (.crash, host) }] : Session }.perform
    (.compile 1 "contract X \x7b action \x7b Crash() \x7d \x7d")

/-- The environment of a caller with a variable of its own. -/
def callerEnv : Dict Value := .ofList [("x", .int 5)]

/-- **A panic leaves the marker of the contract behind**, and the caller's variables are gone. Had
the host function failed instead, they would be as before. -/
theorem panic_leaves_marker :
    panicsInContract.Reachable ∧
      ((contract 1 "X" .empty).run panicsInContract.registry callerEnv .empty fun _ => 0).env.get?
        "loop_@1X" ≠ none ∧
      ((contract 1 "X" .empty).run panicsInContract.registry callerEnv .empty fun _ => 0).env.get?
        "x" = none ∧
      ((contract 1 "X" .empty).run (panicsInContract.registry.failing (.extension "")) callerEnv
        .empty fun _ => 0).env.get? "loop_@1X" = none ∧
      ((contract 1 "X" .empty).run (panicsInContract.registry.failing (.extension "")) callerEnv
        .empty fun _ => 0).env.get? "x" = some (.int 5) := by
  obtain ⟨hmarker, hgone, hfree, hkept⟩ :
      (((contract 1 "X" .empty).run panicsInContract.registry callerEnv .empty fun _ => 0).env.get?
        "loop_@1X").isSome = true ∧
      (((contract 1 "X" .empty).run panicsInContract.registry callerEnv .empty fun _ => 0).env.get?
        "x").isNone = true ∧
      (((contract 1 "X" .empty).run (panicsInContract.registry.failing (.extension "")) callerEnv
        .empty fun _ => 0).env.get? "loop_@1X").isNone = true ∧
      (((contract 1 "X" .empty).run (panicsInContract.registry.failing (.extension "")) callerEnv
        .empty fun _ => 0).env.get? "x").any (Value.isInt 5) = true := by
    simp only [panicsInContract, Session.perform_compile, String.reduceToList]
    decide +kernel
  exact ⟨.perform _ (.new {} _ .empty .empty), Option.isSome_iff_ne_none.1 hmarker,
    Option.isNone_iff_eq_none.1 hgone, Option.isNone_iff_eq_none.1 hfree,
    Value.eq_int_of_isInt hkept⟩

end Launch

end Covenant
