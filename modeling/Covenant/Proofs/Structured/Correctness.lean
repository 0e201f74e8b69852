import Covenant.Proofs.Machine.Equations
import Covenant.Proofs.Structured.Simulation
import Covenant.Proofs.Structured.Unit
import Mathlib

/-!
# Structured programs compile correctly

Every spelling of a scoped function compiles in every registry, and runs of the compiled function
answer as the reference semantics does unless a limit stops them (`Func.runs_of_writtenAs`).

A run has as many steps as it needs: each instruction costs something, and the steps that are no
instructions close the blocks that instructions open.
-/

namespace Covenant.Structured

open Covenant.Computation

/-! ### Runs and their outcomes -/

/-- Whether a run gives the results, or the fault, of the reference semantics. -/
def Gives (o : Outcome (List Value)) : Except Fault (List Value × Heap) → Prop
  | .ok (values, heap) => o.result = .ok values ∧ o.heap = heap
  | .error f => ∃ e, o.result = .error e ∧ e.fault = f

/-- The context of a run of a registry. -/
def contextOf (r : Registry) (allowance : Option Nat) : Context :=
  { registry := r, allowance := allowance, clock := fun _ => 0 }

section execute

variable {r : Registry} {start : Context → Exec Unit} {h : Heap} {cost : Int}
  {allowance : Option Nat} {m : Machine}

variable (start) in
/-- What a run answers if its steps succeed. -/
theorem execute_ok (hb : Run.budget r env h = .ok cost) (ha : Run.allowance env h = .ok allowance)
    (hrun : (start (contextOf r allowance) >>= fun _ =>
      Exec.loop (contextOf r allowance) (Run.fuel cost)) { heap := h, env := env, cost := cost }
        = .ok () m) : Gives (Run.execute r start env h) (.ok (m.stack.toList, m.heap)) := by
  have hrun' : (do start (contextOf r allowance)
                   Exec.loop (contextOf r allowance) (Run.fuel cost) : Exec Unit).run
      { heap := h, env := env, cost := cost } = .ok () m := hrun
  simp only [contextOf] at hrun'
  simp [Gives, Run.execute, hb, ha, hrun']

/-- What a run answers if its steps fail. -/
theorem execute_fault {f : Fault} (hb : Run.budget r env h = .ok cost)
    (ha : Run.allowance env h = .ok allowance)
    (hrun : (start (contextOf r allowance) >>= fun _ =>
      Exec.loop (contextOf r allowance) (Run.fuel cost)) { heap := h, env := env, cost := cost }
        = .error (.fault f) m) : Gives (Run.execute r start env h) (.error f) := by
  have hrun' : (do start (contextOf r allowance)
                   Exec.loop (contextOf r allowance) (Run.fuel cost) : Exec Unit).run
      { heap := h, env := env, cost := cost } = .error (.fault f) m := hrun
  simp only [contextOf] at hrun'
  refine ⟨_, ?_, r.fault_unwind m.frames none (.of f) m⟩
  simp [Run.execute, hb, ha, hrun']

/-- What a run reports that stops. -/
theorem execute_stop {e : Stop} (hb : Run.budget r env h = .ok cost)
    (ha : Run.allowance env h = .ok allowance)
    (hrun : (start (contextOf r allowance) >>= fun _ =>
      Exec.loop (contextOf r allowance) (Run.fuel cost)) { heap := h, env := env, cost := cost }
        = .error e m) : Gives (Run.execute r start env h) (.error (reported e)) := by
  have hrun' : (do start (contextOf r allowance)
                   Exec.loop (contextOf r allowance) (Run.fuel cost) : Exec Unit).run
      { heap := h, env := env, cost := cost } = .error e m := hrun
  simp only [contextOf] at hrun'
  cases e with
  | fault f => exact execute_fault hb ha hrun
  | crash | overflow =>
    refine ⟨.of .runtimePanic, ?_, rfl⟩
    simp [Run.execute, hb, ha, hrun']

end execute

/-! ### Starting a function -/

/-- Checked parameters are as many as those that were given. -/
theorem length_checkParams {i : Nat} {types : List Ty} {args args' : List Value}
    (h : checkParams i types args = .ok args') : args'.length = args.length := by
  induction types generalizing i args args' with
  | nil =>
    rw [checkParams] at h
    · cases h
      rfl
    · simp
  | cons t ts ih =>
    cases args with
    | nil =>
      rw [checkParams] at h
      · cases h
        rfl
      · simp
    | cons v vs =>
      -- A parameter that is accepted takes one argument and leaves one value.
      have hcons : ∀ w, (checkParams (i + 1) ts vs >>= fun ws => pure (w :: ws)) = .ok args' →
          args'.length = (v :: vs).length := by
        intro w hw
        cases hrest : checkParams (i + 1) ts vs with
        | error g =>
          rw [hrest] at hw
          cases hw
        | ok ws =>
          rw [hrest] at hw
          cases hw
          rw [List.length_cons, List.length_cons, ih hrest]
      unfold checkParams at h
      dsimp only at h
      split at h
      · exact hcons _ h
      · split at h
        · exact hcons _ h
        · cases h

/-- The memory meter when a function has started. -/
def Func.startMem (f : Func) (args : List Value) (h : Heap) : Int :=
  Exec.sizeOf (h.defaults f.body.types).2 (args ++ (h.defaults f.body.types).1).toArray

theorem values_start {f : Func} {args : List Value} (hlen : args.length = f.params.length)
    (fresh : List Value) :
    Scope.values ⟨(f.params.zip args).map fun p => ⟨p.1.1, p.1.2, p.2⟩, fresh⟩ = args ++ fresh := by
  rw [Scope.values, List.map_map]
  congr 1
  exact List.map_snd_zip (by omega)

section start

variable {f : Func} {r : Registry} {id : BlockId} {info : FuncInfo} {c : Context}

/-- The block of a known function is entered with the parameters in its first variables. -/
theorem Func.Known.enterBlock_apply (hk : f.Known r id info) (hc : c.registry.arena = r.arena)
    {args : List Value} (hlen : args.length = f.params.length) (env : Dict Value) (h : Heap)
    (cost : Int) :
    Exec.enterBlock c id args .entry { heap := h, env := env, cost := cost }
      = .ok () (metered (machineOf [⟨entered id .entry, false⟩] (f.start args h)
          (f.startMem args h) #[]) env cost 0) := by
  have hle : ¬ c.registry.arena.size ≤ id := by
    rw [hc]
    exact Nat.not_le.2 hk.lt
  have hvars : (c.block id).vars.toList.drop args.length = f.body.types := by
    rw [block_eq hc, show Arena.block r.arena id = r.block id from rfl, hk.vars, hlen,
      ← List.length_map Prod.snd, List.drop_left]
  simp [Exec.enterBlock, Role.calls, hle, hvars, metered, machineOf,
    Exec.defaults, bind, EStateM.bind, modify_apply, modifyGet_apply, Func.start, framesOf, slotsOf,
    values_start hlen, entered, Func.startMem]

/-- A function starts when its arguments are right. -/
theorem Func.Known.start_apply (hk : f.Known r id info) (hc : c.registry.arena = r.arena)
    (args : List Value) (env : Dict Value) (h : Heap) (cost : Int) :
    Exec.start c id args .entry { heap := h, env := env, cost := cost }
      = if args.length ≠ f.params.length then
          .error (.fault (.wrongParams f.name f.params.length))
          { heap := h, env := env, cost := cost }
        else
          match checkParams 1 (f.params.map Prod.snd) args with
          | .error e => .error (.fault e) { heap := h, env := env, cost := cost }
          | .ok args => .ok () (metered (machineOf [⟨entered id .entry, false⟩] (f.start args h)
              (f.startMem args h) #[]) env cost 0) := by
  have hle : ¬ c.registry.arena.size ≤ id := by
    rw [hc]
    exact Nat.not_le.2 hk.lt
  have hfunc : (c.block id).func? = some info := by
    rw [block_eq hc, show Arena.block r.arena id = r.block id from rfl, Block.func?, hk.isFunc]
  have hlen : info.params.length = f.params.length := by rw [hk.params, List.length_map]
  -- The checks come in this order: the number of arguments, then their types.
  by_cases hargs : args.length = f.params.length
  · cases hcheck : checkParams 1 (f.params.map Prod.snd) args with
    | error e =>
      simp [Exec.start, hle, hfunc, hk.variadic, hargs, hk.params, hcheck, bind, EStateM.bind,
        pure, EStateM.pure, ofExcept_apply]
    | ok args' =>
      have henter := hk.enterBlock_apply hc ((length_checkParams hcheck).trans hargs) env h cost
      simp [Exec.start, hle, hfunc, hk.variadic, hargs, hk.params, hcheck, bind, EStateM.bind,
        pure, EStateM.pure, ofExcept_apply, henter]
  · simp [Exec.start, hle, hfunc, hk.variadic, hlen, hargs, hk.name, bind, EStateM.bind, Exec.fail,
      throw_apply]

/-! ### Leaving a function -/

/-- A function that is left keeps the value it returns. -/
theorem Func.Known.does_leave (hk : f.Known r id info) {p : Place} (hp : p.act.block = id)
    (hbase : p.act.base = 0) (hrole : p.act.role = .entry) (e : Ending) (τ : State)
    (mem : Int) : Does r.arena (Exec.leave · e.status) (machineOf [p] τ mem e.stack)
      (machineOf [] (τ.behind p.wraps) (memBehind τ p.wraps mem) e.stack) := by
  intro c hc env cost ticks
  have hfunc : (c.block p.act.block).func? = some info := by
    rw [block_eq hc, hp, show Arena.block r.arena id = r.block id from rfl, Block.func?, hk.isFunc]
  have hwant : info.results.length = 1 := by
    rw [hk.results]
    rfl
  simp only [Exec.leave, bind, EStateM.bind, get_apply, modify_apply, metered, machineOf, framesOf,
    hfunc, hbase, hrole]
  cases e with
  | «return» v =>
    simp only [Ending.status, Ending.stack, Exec.keepResults, bind, hwant]
    rfl
  | _ => rfl

/-- What the machine of a started function comes to. -/
def Reaches (A : Arena) (limit : Nat) (m : Machine) : Option Result → Prop
  | none => ∃ loads m', limit ≤ loads.length ∧ Leads A m loads (.ok m')
  | some (.error f) => ∃ loads, Leads A m loads (.error f)
  | some (.ok (e, τ)) =>
    ∃ loads mem, Leads A m loads (.ok (machineOf [] (τ.behind false) mem e.stack))

/-- The machine that has entered it matches the state that the function starts in. -/
theorem Func.Known.matches_start (hk : f.Known r id info) {args : List Value}
    (hlen : args.length = f.params.length) (h : Heap) :
    Matches r.arena [⟨id, f.params.map Prod.fst⟩] [⟨entered id .entry, false⟩]
      (f.start args h).scopes := by
  have hle : f.params.length ≤ args.length := by omega
  have hnames : ((f.params.zip args).map fun p => (⟨p.1.1, p.1.2, p.2⟩ : Variable)).map
    Variable.name
      = f.params.map Prod.fst := by
    conv_rhs => rw [← List.map_fst_zip hle]
    rw [List.map_map, List.map_map]
    rfl
  have htypes : ((f.params.zip args).map fun p => (⟨p.1.1, p.1.2, p.2⟩ : Variable)).map Variable.ty
      = f.params.map Prod.snd := by
    conv_rhs => rw [← List.map_fst_zip hle]
    rw [List.map_map, List.map_map]
    rfl
  have hmatch := Matches.scope (A := r.arena) (a := entered id .entry) (s :=
    ⟨(f.params.zip args).map fun p => ⟨p.1.1, p.1.2, p.2⟩, (h.defaults f.body.types).1⟩) rfl
    (fun l hl => absurd hl List.not_mem_nil) (hk.vars.trans (by rw [← htypes]))
    (length_defaults h f.body.types).symm .nil
  rw [hnames] at hmatch
  exact hmatch

/-- What quits the function leaves no frame. -/
theorem Func.Known.reaches_of_quits (hk : f.Known r id info) {Γ : List Level} {m : Machine}
    {e : Ending} {τ : State}
    (h : Quits r.arena Γ ⟨entered id .entry, false⟩ [] m e τ) : ∃ loads mem,
      Leads r.arena m loads (.ok (machineOf [] (τ.behind false) mem e.stack)) := by
  obtain ⟨-, loads, mem, q, hnear, hleads⟩ := h
  have hleave := hk.does_leave hnear.block hnear.base hnear.role e τ mem
  rw [hnear.wraps] at hleave
  exact ⟨loads, _, hleads _ hleave (by simp [machineOf])⟩

/-- The machine of a started function does what the reference semantics says. -/
theorem Func.Known.reaches (hk : f.Known r id info) {args : List Value}
    (hlen : args.length = f.params.length) (h : Heap) (limit : Nat) :
    Reaches r.arena limit (machineOf [⟨entered id .entry, false⟩] (f.start args h)
      (f.startMem args h) #[]) (f.body.exec limit (f.start args h)) := by
  have hat : CodeAt r.arena ⟨entered id .entry, false⟩ (opsOf (r.block id).code) :=
    List.prefix_refl _
  have hty : (r.block id).vars.toList.drop (f.params.map Prod.fst).length = f.body.types := by
    rw [hk.vars, List.length_map, ← List.length_map Prod.snd, List.drop_left]
  obtain ⟨l', ha⟩ := Body.simulates r.arena limit f.body _ _ _ _ _ _ (f.startMem args h)
    (hk.matches_start hlen h) rfl hk.code hat hty
  match f.body.exec limit (f.start args h), ha with
  | none, ha => exact ha
  | some (.error g), ha => exact ha
  | some (.ok (.normal, τ)), ha =>
    obtain ⟨loads, mem, q, hlike, hpc, -, hleads⟩ := ha
    have hnone : (opsOf (r.arena.block q.act.block).code)[q.act.pc]? = none := by
      rw [hlike.block, hpc]
      exact List.getElem?_eq_none (Nat.le_add_left ..)
    have hleave := hk.does_leave hlike.block hlike.base hlike.role .normal τ mem
    rw [hlike.wraps] at hleave
    exact ⟨_, _, hleads.trans (leads_end hnone hleave (by simp [machineOf]))⟩
  | some (.ok (.break, τ)), ha => exact hk.reaches_of_quits ha
  | some (.ok (.continue, τ)), ha => exact hk.reaches_of_quits ha
  | some (.ok (.return v, τ)), ha => exact hk.reaches_of_quits ha

end start

/-! ### The steps of a run -/

section run

variable {A : Arena} {c : Context} {m m' : Machine} {loads : List Int} {cost : Int} {f : Fault}

theorem one_le_pow2 (n : Nat) : 1 ≤ Number.pow2 n := Nat.one_le_two_pow

/-- A run that the limits allow has enough steps. -/
theorem Fits.steps_le {k : Nat} (h : Fits c cost 0 loads) (hm : m.frames.length = 1)
    (hk : k ≤ 2 * loads.length + m.frames.length) : k ≤ Run.fuel cost := by
  have hpow := one_le_pow2 60
  rw [Run.fuel]
  by_cases hnil : loads = []
  · subst hnil
    simp only [List.length_nil] at hk
    omega
  · have := h.length_lt hnil
    omega

/-- A run that can pay for all its instructions comes to the end. -/
theorem Leads.loop_ok (h : Leads A m loads (.ok m')) (hc : c.registry.arena = A)
    (hcost : InCounter cost) (hm : m.frames.length = 1) (hm' : m'.frames = [])
    (hfit : Fits c cost 0 loads) (env : Dict Value) :
    ∃ cost' ticks, Exec.loop c (Run.fuel cost) (metered m env cost 0)
      = .ok () (metered m' env cost' ticks) := by
  obtain ⟨k, hk, hloop⟩ := (h c hc env cost 0 hcost).1 hfit
  obtain ⟨fuel, hfuel⟩ := Nat.exists_eq_add_of_le' (hfit.steps_le hm (show k ≤ _ by omega))
  refine ⟨cost - loads.length, 0 + loads.length, ?_⟩
  rw [hfuel, hloop]
  exact Exec.loop_nil fuel (by exact hm')

theorem Leads.loop_fault (h : Leads A m loads (.error f)) (hc : c.registry.arena = A)
    (hcost : InCounter cost) (hm : m.frames.length = 1) (hfit : Fits c cost 0 loads)
    (env : Dict Value) :
    ∃ m', Exec.loop c (Run.fuel cost) (metered m env cost 0) = .error (.fault f) m' := by
  obtain ⟨k, m', hk, hloop⟩ := (h c hc env cost 0 hcost).1 hfit
  obtain ⟨fuel, hfuel⟩ := Nat.exists_eq_add_of_le' (hfit.steps_le hm hk)
  exact ⟨m', by rw [hfuel, hloop]⟩

/-- One that cannot stops at a limit. -/
theorem Leads.loop_limit {r : Except Fault Machine} (h : Leads A m loads r)
    (hc : c.registry.arena = A) (hcost : InCounter cost) (hm : m.frames.length = 1)
    (hfit : ¬ Fits c cost 0 loads) (env : Dict Value) :
    ∃ e m', IsLimit c.allowance cost (reported e) ∧
      Exec.loop c (Run.fuel cost) (metered m env cost 0) = .error e m' := by
  obtain ⟨k, e, m', hlimit, hk, hloop⟩ := (h c hc env cost 0 hcost).2 hfit
  have hle : k ≤ Run.fuel cost := by
    have hpow : 2 ≤ Number.pow2 60 := Nat.pow_le_pow_right (Nat.le_succ 1) (by decide : 1 ≤ 60)
    rw [Run.fuel]
    omega
  obtain ⟨fuel, hfuel⟩ := Nat.exists_eq_add_of_le' hle
  exact ⟨e, m', hlimit, by rw [hfuel, hloop]⟩

/-- A run without time limit fits if the cost covers its instructions and no memory is above the
ceiling. -/
theorem fits_of_le {mem ticks} (hnone : c.allowance = none) (hlen : (loads.length : Int) < cost)
    (hmem : ∀ load ∈ loads, load ≤ mem) (hle : mem ≤ c.limits.maxMem) :
    Fits c cost ticks loads := by
  induction loads generalizing cost ticks with
  | nil => trivial
  | cons load loads ih =>
    rw [List.length_cons] at hlen
    have htime : ∀ ms, c.allowance = some ms → c.clock (ticks + 1) < ms := by simp [hnone]
    refine ⟨by omega, htime, ?_, ih (by omega) fun x hx => hmem x (List.mem_cons_of_mem _ hx)⟩
    exact Int.le_trans (hmem load (List.mem_cons_self ..)) hle

end run

/-! ### Correctness -/

section correctness

variable {f : Func} {r : Registry} {id : BlockId} {info : FuncInfo}

/-- Whether no run of a function gets to its first instruction. -/
def Func.Refused (f : Func) (r : Registry) (id : BlockId) (args : List Value) (h : Heap)
    (g : Fault) : Prop :=
  (∀ limit, f.run limit args h = some (.error g)) ∧
    ∀ r' : Registry, r'.arena = r.arena → ∀ env cost allowance, Run.budget r' env h = .ok cost →
      Run.allowance env h = .ok allowance → Gives (Run.func r' id args env h) (.error g)

/-- The machine in which a function starts with checked arguments. -/
def Func.machine (f : Func) (id : BlockId) (args : List Value) (h : Heap) : Machine :=
  machineOf [⟨entered id .entry, false⟩] (f.start args h) (f.startMem args h) #[]

/-- Whether the runs of a function start it with checked arguments. -/
structure Func.Started (f : Func) (r : Registry) (id : BlockId) (args checked : List Value)
    (h : Heap) : Prop where
  length : checked.length = f.params.length
  answered : ∀ limit, f.run limit args h = answered (f.body.exec limit (f.start checked h))
  start : ∀ c : Context, c.registry.arena = r.arena → ∀ env cost,
    (Exec.start c id args .entry >>= fun _ => Exec.loop c (Run.fuel cost))
        { heap := h, env := env, cost := cost }
      = Exec.loop c (Run.fuel cost) (metered (f.machine id checked h) env cost 0)

/-- A function that refuses its arguments fails as its run says. -/
theorem Func.refused_of_start {args : List Value} {h : Heap} {g : Fault}
    (hrun : ∀ limit, f.run limit args h = some (.error g))
    (hstart : ∀ c : Context, c.registry.arena = r.arena → ∀ env cost,
      Exec.start c id args .entry { heap := h, env := env, cost := cost }
        = .error (.fault g) { heap := h, env := env, cost := cost }) : f.Refused r id args h g := by
  refine ⟨hrun, fun r' hr env cost allowance hb ha => ?_⟩
  refine execute_fault hb ha (m := { heap := h, env := env, cost := cost }) ?_
  rw [bind, Monad.toBind, EStateM.instMonad]
  simp only [EStateM.bind, hstart (contextOf r' allowance) hr]

/-- Wrong arguments stop a run as they stop the reference semantics, and right arguments start the
function. -/
theorem Func.Known.refused_or_started (hk : f.Known r id info) (args : List Value) (h : Heap) :
    (∃ g, f.Refused r id args h g) ∨ ∃ checked, f.Started r id args checked h := by
  by_cases hlen : args.length = f.params.length
  · have hnot := not_not_intro hlen
    cases hcheck : checkParams 1 (f.params.map Prod.snd) args with
    | error g =>
      refine Or.inl ⟨g, Func.refused_of_start (fun limit => ?_) fun c hc env cost => ?_⟩
      · rw [Func.run, if_neg hnot, hcheck]
      · rw [hk.start_apply hc, if_neg hnot, hcheck]
    | ok checked =>
      refine Or.inr ⟨checked, (length_checkParams hcheck).trans hlen, fun limit => ?_,
        fun c hc env cost => ?_⟩
      · rw [Func.run, if_neg hnot, hcheck]
      · rw [bind, Monad.toBind, EStateM.instMonad]
        simp only [EStateM.bind, hk.start_apply hc, if_neg hnot, hcheck, Func.machine]
  · refine Or.inl ⟨.wrongParams f.name f.params.length, Func.refused_of_start (fun limit => ?_)
      fun c hc env cost => ?_⟩
    · rw [Func.run, if_pos hlen]
    · rw [hk.start_apply hc, if_pos hlen]

namespace Func.Started

variable {args checked : List Value} {h : Heap} {r' : Registry} {env : Dict Value} {cost : Int}
  {allowance : Option Nat} {loads : List Int}

theorem gives_limit (hs : f.Started r id args checked h) {result : Except Fault Machine}
    (hleads : Leads r.arena (f.machine id checked h) loads result) (hr : r'.arena = r.arena)
    (hb : Run.budget r' env h = .ok cost) (ha : Run.allowance env h = .ok allowance)
    (hfit : ¬ Fits (contextOf r' allowance) cost 0 loads) :
    ∃ g, IsLimit allowance cost g ∧ Gives (Run.func r' id args env h) (.error g) := by
  obtain ⟨e, m', hlimit, hloop⟩ := hleads.loop_limit hr (Run.inCounter_budget hb) rfl hfit env
  exact ⟨_, hlimit, execute_stop hb ha ((hs.start _ hr env cost).trans hloop)⟩

theorem gives_fault (hs : f.Started r id args checked h) {g : Fault}
    (hleads : Leads r.arena (f.machine id checked h) loads (.error g)) (hr : r'.arena = r.arena)
    (hb : Run.budget r' env h = .ok cost) (ha : Run.allowance env h = .ok allowance)
    (hfit : Fits (contextOf r' allowance) cost 0 loads) :
    Gives (Run.func r' id args env h) (.error g) := by
  obtain ⟨m', hloop⟩ := hleads.loop_fault hr (Run.inCounter_budget hb) rfl hfit env
  exact execute_fault hb ha ((hs.start _ hr env cost).trans hloop)

/-- A started function that comes to its end gives its results. -/
theorem gives_results (hs : f.Started r id args checked h) {τ : State} {mem : Int}
    {st : Array Value} (hleads : Leads r.arena (f.machine id checked h) loads
      (.ok (machineOf [] τ mem st))) (hr : r'.arena = r.arena)
    (hb : Run.budget r' env h = .ok cost) (ha : Run.allowance env h = .ok allowance)
    (hfit : Fits (contextOf r' allowance) cost 0 loads) :
    Gives (Run.func r' id args env h) (.ok (st.toList, τ.heap)) := by
  obtain ⟨cost', ticks, hloop⟩ := hleads.loop_ok hr (Run.inCounter_budget hb) rfl rfl hfit env
  have hrun := (hs.start (contextOf r' allowance) hr env cost).trans hloop
  exact execute_ok (fun c => Exec.start c id args .entry) hb ha hrun

end Func.Started

theorem answered_ok (e : Ending) (τ : State) :
    answered (some (.ok (e, τ))) = some (.ok (e.stack.toList, (τ.behind false).heap)) := by
  cases e <;> rfl

/-- What the reference semantics answers is what a run gives when the limits allow its loads, and
when they do not the run ends with a limit. -/
theorem Func.Known.run_some (hk : f.Known r id info) {limit : Nat} {args : List Value} {h : Heap}
    {answer : Except Fault (List Value × Heap)} (hrun : f.run limit args h = some answer) :
    ∃ loads, ∀ r' : Registry, r'.arena = r.arena → ∀ env cost allowance,
      Run.budget r' env h = .ok cost → Run.allowance env h = .ok allowance →
      (Fits (contextOf r' allowance) cost 0 loads → Gives (Run.func r' id args env h) answer) ∧
      (¬ Fits (contextOf r' allowance) cost 0 loads → ∃ g, IsLimit allowance cost g ∧
        Gives (Run.func r' id args env h) (.error g)) := by
  rcases hk.refused_or_started args h with ⟨g, href, hgives⟩ | ⟨checked, hs⟩
  · obtain rfl : .error g = answer := Option.some.inj ((href limit).symm.trans hrun)
    exact ⟨[], fun r' hr env cost allowance hb ha =>
      ⟨fun _ => hgives r' hr env cost allowance hb ha, fun hnot => absurd trivial hnot⟩⟩
  · rw [hs.answered] at hrun
    have hreach := hk.reaches hs.length h limit
    match f.body.exec limit (f.start checked h), hrun, hreach with
    | none, hrun, _ => cases hrun
    | some (.error g), hrun, ⟨loads, hleads⟩ =>
      cases hrun
      exact ⟨loads, fun r' hr env cost allowance hb ha =>
        ⟨hs.gives_fault hleads hr hb ha, hs.gives_limit hleads hr hb ha⟩⟩
    | some (.ok (e, τ)), hrun, ⟨loads, mem, hleads⟩ =>
      rw [answered_ok] at hrun
      cases hrun
      exact ⟨loads, fun r' hr env cost allowance hb ha =>
        ⟨hs.gives_results hleads hr hb ha, hs.gives_limit hleads hr hb ha⟩⟩

/-- A loop that needs more iterations than the budget has units makes a run end with a limit. -/
theorem Func.Known.run_none (hk : f.Known r id info) {limit : Nat} {args : List Value} {h : Heap}
    {env : Dict Value} {cost : Int} {allowance : Option Nat} (hrun : f.run limit args h = none)
    (hb : Run.budget r env h = .ok cost) (ha : Run.allowance env h = .ok allowance)
    (hpos : 0 < limit) (hcost : cost < limit) :
    ∃ g, IsLimit allowance cost g ∧ Gives (Run.func r id args env h) (.error g) := by
  rcases hk.refused_or_started args h with ⟨g, href, -⟩ | ⟨checked, hs⟩
  · rw [href limit] at hrun
    cases hrun
  · rw [hs.answered] at hrun
    have hreach := hk.reaches hs.length h limit
    match f.body.exec limit (f.start checked h), hrun, hreach with
    | none, _, ⟨loads, m', hle, hleads⟩ =>
      refine hs.gives_limit hleads rfl hb ha fun hfit => ?_
      have := hfit.length_lt (List.ne_nil_of_length_pos (by omega))
      omega
    | some (.error g), hrun, _ => cases hrun
    | some (.ok (e, τ)), hrun, _ =>
      rw [answered_ok] at hrun
      cases hrun

/-- **Correctness of the compiler on structured programs**: every spelling of a scoped function
compiles, whatever has been compiled before. A run of the compiled function gives the results, or
the fault, of the reference semantics, unless it ends with the fault of a limit; and it does not end
with one when the budget and the memory are large enough for what the reference semantics does. -/
theorem Func.runs_of_writtenAs {text : String} (hs : f.isScoped = true) (htext : f.WrittenAs text)
    (r : Registry) (state : UInt32) :
    ∃ r' id, r.compile state text = .ok r' ∧ r'.func? f.name = some id ∧
      (∀ args h env cost allowance, Run.budget r' env h = .ok cost →
        Run.allowance env h = .ok allowance →
        (∃ g, IsLimit allowance cost g ∧ Gives (Run.func r' id args env h) (.error g)) ∨
          ∃ limit answer, f.run limit args h = some answer ∧
            Gives (Run.func r' id args env h) answer) ∧
      ∀ args h limit answer, f.run limit args h = some answer → ∃ (steps : Nat) (mem : Int),
        ∀ limits env cost, Run.budget { r' with limits := limits } env h = .ok cost →
          Run.allowance env h = .ok none → steps < cost → mem ≤ limits.maxMem →
          Gives (Run.func { r' with limits := limits } id args env h) answer := by
  obtain ⟨r', id, info, hcompile, hk⟩ := Func.compile_of_writtenAs hs htext r state
  refine ⟨r', id, hcompile, hk.found, ?_, ?_⟩
  · intro args h env cost allowance hb ha
    -- With more rounds than the cost, a body without an answer outlasts the cost.
    cases hrun : f.run (cost.toNat + 1) args h with
    | none => exact Or.inl (hk.run_none hrun hb ha (by omega) (by omega))
    | some answer =>
      obtain ⟨loads, hloads⟩ := hk.run_some hrun
      obtain ⟨hgives, hlimit⟩ := hloads r' rfl env cost allowance hb ha
      by_cases hfit : Fits (contextOf r' allowance) cost 0 loads
      · exact Or.inr ⟨_, answer, hrun, hgives hfit⟩
      · exact Or.inl (hlimit hfit)
  · intro args h limit answer hrun
    obtain ⟨loads, hloads⟩ := hk.run_some hrun
    -- The finitely many loads of the meter have a bound, and their number is that of the steps.
    obtain ⟨mem, hmem⟩ := loads.toFinset.exists_le
    refine ⟨loads.length, mem, fun limits env cost hb ha hsteps hle => ?_⟩
    refine (hloads { r' with limits := limits } rfl env cost none hb ha).1 ?_
    exact fits_of_le rfl hsteps (fun load hload => hmem load (List.mem_toFinset.2 hload)) hle

end correctness

/-- A function that counts down to zero. It counts its steps, and notes before each what is left. -/
def countdown : Func where
  name := "count"
  params := [("n", .int)]
  result := .int
  body :=
    .cons (.declare [(["steps"], .int), (["seen"], .array)])
    (.cons (.while (.binary .great (.operand (.var "n"))
        (.operand (.literal ⟨['0'], .int 0, .number rfl rfl rfl⟩)))
      (.cons (.assign ["n", "steps", "seen"]
        [.binary .sub (.operand (.var "n"))
          (.operand (.literal ⟨['1'], .int 1, .number rfl rfl rfl⟩)),
          .binary .add (.operand (.var "steps"))
            (.operand (.literal ⟨['1'], .int 1, .number rfl rfl rfl⟩)),
          .operand (.array (.cons (.var "seen") (.cons (.map (.cons (.name "left") (.var "n") .nil))
            .nil)))]) .nil))
    (.cons (.return (.operand (.var "steps"))) .nil))

/-- A spelling of the function. -/
def countdownText : String :=
  " func count ( n int ) int \x7b var steps int seen array \n while n > 0 \x7b n , steps , seen = "
    ++
    "n - 1 , steps + 1 , [ seen , \x7b left : n \x7d ] \x7d \n return steps \x7d"

/-- The text spells the function. -/
theorem writtenAs_countdown : countdown.WrittenAs countdownText := by
  have hwords : ∃ ws, countdown.Written ws ∧ (∀ w ∈ ws, w.IsValid) ∧
      countdownText.toList = ws.flatMap fun w => ' ' :: w.text := by
    refine ⟨_, ⟨0, 0, _,
      ⟨0, 1, _, _, rfl, ⟨0, 1, _, _, ⟨_, ⟨0, 0, _, _, rfl, ⟨0, rfl⟩, .inl rfl, rfl⟩,
      rfl⟩, ⟨0, 0, _, _, rfl, ⟨0, rfl⟩, .inl rfl, rfl⟩, .inr Nat.one_pos, rfl⟩,
      .inr Nat.one_pos, rfl⟩, rfl⟩, ?_, ?_⟩
    · decide
    · decide +kernel
  obtain ⟨ws, hwritten, hvalid, htext⟩ := hwords
  exact ⟨ws, hwritten, htext ▸ spells_spaced hvalid⟩

/-- The heap behind two steps: the array that the variable starts with, and a map and an array for
each step. -/
def countdownHeap : Heap where
  cells := #[.array #[], .map (.ofList [("left", .int 2)]), .array #[.array 0, .map 1],
    .map (.ofList [("left", .int 1)]), .array #[.array 2, .map 3]]

/-- The countdown from two compiles and takes two steps, given enough cost and memory. -/
theorem countdown_runs : ∃ r' id, (Registry.new {} []).compile 1 countdownText = .ok r' ∧
    r'.func? "count" = some id ∧ ∃ (steps : Nat) (mem : Int), ∀ limits env cost,
      Run.budget { r' with limits := limits } env .empty = .ok cost →
      Run.allowance env .empty = .ok none → steps < cost → mem ≤ limits.maxMem →
      Gives (Run.func { r' with limits := limits } id [.int 2] env .empty)
        (.ok ([.int 2], countdownHeap)) := by
  have hrun : countdown.run 3 [.int 2] .empty = some (.ok ([.int 2], countdownHeap)) := by cbv
  obtain ⟨r', id, hcompile, hfound, -, hruns⟩ :=
    Func.runs_of_writtenAs (f := countdown) (by decide) writtenAs_countdown (.new {} []) 1
  exact ⟨r', id, hcompile, hfound, hruns [.int 2] .empty 3 _ hrun⟩

end Covenant.Structured
