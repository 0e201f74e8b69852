import Covenant.Proofs.Machine.Copies
import Covenant.Proofs.Machine.Charges
import Covenant.Proofs.Machine.Shifts
import Covenant.Proofs.Machine.SystemVariables

/-!
# What a contract sees of its caller

A contract that a run is started with is given the system variables of its caller, and nothing else
of the environment. The variables of the caller itself are kept in the call, where nothing looks at
them until the contract has ended, and then the run is over.

So two runs in environments that agree on the system variables are copies of each other, and hand
back the same result, the same heap and the same cost: `Launch.contract_ignores_caller`. They may
take different times, as long as none of them is limited.
-/

namespace Covenant

open Covenant.Computation

/-! ### Clocks -/

namespace Exec

/-- Assignments do not look at the clock. -/
theorem assignAll_clock (c : Context) (clock : Nat → Nat) (ts : List Target) (xs : List Value) :
    assignAll { c with clock := clock } ts xs = assignAll c ts xs := by
  induction ts generalizing xs with
  | nil => rfl
  | cons t ts ih =>
    cases xs with
    | nil => rfl
    | cons x xs =>
      rw [assignAll, assignAll, ih]
      cases t <;> rfl

theorem perform_clock (c : Context) (clock : Nat → Nat) (op : Op) :
    perform { c with clock := clock } op = perform c op := by
  cases op with
  | assign =>
    unfold perform
    simp only [assignAll_clock]
  | _ => rfl

/-- The clock does not matter if the time is not limited. -/
theorem step_clock {c : Context} (hc : c.allowance = none) (clock : Nat → Nat) :
    step { c with clock := clock } = step c := by
  have htick : tick { c with clock := clock } = tick c := by
    unfold tick
    simp only [hc]
    rfl
  unfold step
  simp only [htick, perform_clock]
  rfl

theorem loop_clock {c : Context} (hc : c.allowance = none) (clock : Nat → Nat) (fuel : Nat) :
    loop { c with clock := clock } fuel = loop c fuel := by
  induction fuel with
  | zero => rfl
  | succ fuel ih => rw [loop, loop, ih, step_clock hc]

/-! ### What a run hands back -/

/-- What a run hands back besides the environment: the results or the error, the heap and the
cost. -/
def summary (r : Registry) :
    EStateM.Result Stop Machine Unit → Except Error (List Value) × Heap × Int
  | .ok _ m => (.ok m.stack.toList, m.heap, m.cost)
  | .error (.fault f) m => (.error (r.unwind m.frames none (.of f) m).1, m.heap, m.cost)
  | .error .crash m | .error .overflow m => (.error (.of .runtimePanic), m.heap, m.cost)

/-- The trace of an error does not depend on contracts around it. -/
theorem unwind_around (r : Registry) (fs : List Frame) (ks : List ContractCall) (line : Option Nat)
    (e : Error) (m m' : Machine) :
    (r.unwind (fs ++ ks.map Frame.contract) line e m).1 = (r.unwind fs line e m').1 := by
  induction fs generalizing line e m m' with
  | nil =>
    induction ks generalizing m with
    | nil => rfl
    | cons k ks ih => exact ih _
  | cons f fs ih =>
    cases f with
    | contract k' => exact ih ..
    | block a =>
      rw [List.cons_append, Registry.unwind, Registry.unwind]
      split
      · exact ih ..
      · exact ih ..

/-- A failure hands back the same in every environment. -/
theorem summary_inEnv_error (r : Registry) (e : Stop) (m : Machine) (env : Dict Value) :
    summary r (inEnv env (.error e m)) = summary r (.error e m) := by
  cases e with
  | crash | overflow => rfl
  | fault f => exact Prod.ext (congrArg Except.error (r.unwind_fst ..)) rfl

/-- A failure hands back the same from every copy. -/
theorem summary_copied_error (r : Registry) (e : Stop) (m : Machine) (env : Dict Value)
    (k : ContractCall) :
    summary r (copied env k (.error e m)) = summary r (.error e m) := by
  cases e with
  | crash | overflow => rfl
  | fault f => exact Prod.ext (congrArg Except.error (unwind_around r m.frames [k] none _ _ m)) rfl

variable {c : Context}

/-- **Copies of a machine hand back the same**, however long they run. The contracts around them
were not called by another one, and have the same sections still to run. -/
theorem summary_loop_copy (hhosts : ∀ e, c.registry.Offers e → e.IgnoresEnv)
    (fuel : Nat) {m : Machine} {env env' : Dict Value} {k k' : ContractCall}
    (henv : SameBindings m.env env) (henv' : SameBindings m.env env') (hvia : k.via = none)
    (hvia' : k'.via = none) (hsections : k.sections = k'.sections) :
    summary c.registry (loop c fuel (m.copy env k))
      = summary c.registry (loop c fuel (m.copy env' k')) := by
  have hcopies : ∀ env k, (m.copy env k).frames ≠ [] := fun env k =>
    List.append_ne_nil_of_right_ne_nil _ (List.cons_ne_nil _ _)
  induction fuel generalizing m env env' k k' with
  | zero =>
    rw [loop_zero (hcopies env k), loop_zero (hcopies env' k')]
    exact (summary_copied_error c.registry _ m env k).trans
      (summary_copied_error c.registry _ m env' k').symm
  | succ fuel ih =>
    -- what both copies do is described by what comes of the machine itself
    have hnext : ∀ {r : EStateM.Result Stop Machine Unit} {ks ks' : ContractCall},
        (∃ env₁, SameBindings (left r).env env₁ ∧ step c (m.copy env k) = copied env₁ ks r) →
        (∃ env₁, SameBindings (left r).env env₁ ∧ step c (m.copy env' k') = copied env₁ ks' r) →
        ks.via = none → ks'.via = none → ks.sections = ks'.sections →
        summary c.registry (loop c (fuel + 1) (m.copy env k))
          = summary c.registry (loop c (fuel + 1) (m.copy env' k')) := by
      rintro r ks ks' ⟨env₁, henv₁, hstep⟩ ⟨env₂, henv₂, hstep'⟩ hks hks' hsame
      rw [loop_succ fuel (hcopies env k), loop_succ fuel (hcopies env' k')]
      cases r with
      | error e m' =>
        rw [bind_of_error hstep, bind_of_error hstep']
        exact (summary_copied_error c.registry e m' env₁ ks).trans
          (summary_copied_error c.registry e m' env₂ ks').symm
      | ok u m' =>
        rw [bind_of_ok hstep, bind_of_ok hstep']
        exact ih henv₁ henv₂ hks hks' hsame fun env k =>
          List.append_ne_nil_of_right_ne_nil _ (List.cons_ne_nil _ _)
    by_cases hframes : m.frames = []
    · have hcopy : ∀ env k, (m.copy env k).frames = [.contract k] := fun env k =>
        congrArg (· ++ [Frame.contract k]) hframes
      cases hleft : k.sections with
      | cons s ss =>
        have hleft' : k'.sections = s :: ss := hsections ▸ hleft
        -- the contract around the copies starts its next section
        have hstart : ∀ {env k}, SameBindings m.env env → k.sections = s :: ss →
            ∃ env₁, SameBindings (left (start c s [] .section m)).env env₁ ∧
              step c (m.copy env k)
                = copied env₁ { k with sections := ss } (start c s [] .section m) := by
          intro env k henv hk
          have hnext : { m.copy env k with frames := [.contract { k with sections := ss }] }
              = m.copy env { k with sections := ss } := by
            unfold Machine.copy Machine.within Machine.withEnv
            dsimp only
            rw [hframes, List.nil_append]
          rw [step_of_contract (hcopy env k), resume_cons c [] _ hk, hnext]
          exact repeats_start c s [] .section m env _ henv
        exact hnext (hstart henv hleft) (hstart henv' hleft') hvia hvia' rfl
      | nil =>
        have hleft' : k'.sections = [] := hsections ▸ hleft
        -- the contract around the copies ends, and with it the run
        have hend : ∀ {env k}, SameBindings m.env env → k.sections = [] → k.via = none →
            summary c.registry (loop c (fuel + 1) (m.copy env k))
              = (.ok (m.stack.push ((m.env.get? "result").getD .nil)).toList, m.heap, m.cost) := by
          intro env k henv hk hvia
          have hstep : step c (m.copy env k) = .ok () { finished k [] (m.copy env k) with
              stack := m.stack.push ((m.env.get? "result").getD .nil) } := by
            rw [step_of_contract (hcopy env k), resume_nil c [] _ hk, behindContract, hvia,
              henv.get? "result"]
            rfl
          rw [loop_succ fuel (hcopies env k), bind_of_ok hstep, loop_nil fuel rfl]
          rfl
        rw [hend henv hleft hvia, hend henv' hleft' hvia']
    · exact hnext (step_copy hhosts hframes henv k) (step_copy hhosts hframes henv' k') hvia hvia'
        hsections

/-! ### Starting a contract -/

/-- Charges are paid alike in every environment. -/
theorem pay_withEnv (limits : Limits) (ks : List Charge) (m : Machine) (env : Dict Value) :
    pay limits ks (m.withEnv env) = inEnv env (pay limits ks m) := by
  induction ks generalizing m with
  | nil => rfl
  | cons k ks ih =>
    have hcharge : charge (k.amount limits) (m.withEnv env)
      = inEnv env (charge (k.amount limits) m) := by
      rw [charge_eq, charge_eq, Machine.withEnv]
      dsimp only
      split
      · split <;> rfl
      · rfl
    cases hr : charge (k.amount limits) m with
    | error e m' =>
      rw [hr] at hcharge
      rw [pay, bind_of_error hr, bind_of_error hcharge]
      rfl
    | ok u m' =>
      rw [hr] at hcharge
      rw [pay, bind_of_ok hr, bind_of_ok hcharge]
      exact ih m'

/-- What is seen of the system variables. -/
def systemValue (env : Dict Value) (key : String) : Option Value :=
  if Name.isSystem key then env.get? key else none

/-- What a contract call in two environments that agree on the system variables comes to: a failure
that both share, or two copies of a machine. -/
inductive Called (r r' : EStateM.Result Stop Machine Unit) : Prop
  | fails (e : Stop) (m : Machine) (env : Dict Value) : r = .error e m →
      r' = inEnv env (.error e m) → Called r r'
  | starts (m : Machine) (env env' : Dict Value) (k k' : ContractCall) : r = .ok () (m.copy env k) →
      r' = .ok () (m.copy env' k') → SameBindings m.env env → SameBindings m.env env' →
      k.via = none → k'.via = none → k.sections = k'.sections → Called r r'

/-- **A contract starts as a copy**, whatever its caller has bound. -/
theorem callContract_called (c : Context) (name names : String) (values : List Value) {m : Machine}
    (hm : m.frames = []) {env : Dict Value}
    (henv : ∀ key, Name.isSystem key = true → m.env.get? key = env.get? key) :
    Called (callContract c name names values none m)
      (callContract c name names values none (m.withEnv env)) := by
  have hview : systemValue m.env = systemValue env := by
    funext key
    unfold systemValue
    split
    · exact henv key ‹_›
    · rfl
  have hmarker : Sees systemValue (Name.marker name) := by
    intro env env' h
    have hkey := congrFun h (Name.marker name)
    rwa [systemValue, systemValue, if_pos (Name.isSystem_marker name),
      if_pos (Name.isSystem_marker name)] at hkey
  -- Binding the parameters reads the bindings of the system only, which both callers share.
  have hplain : Plain systemValue (contractParams c ⟨name, Text.fields names, values⟩) :=
    plain_contractParams c hmarker
  obtain ⟨hkept, hparams⟩ := hplain.blind.withEnv hview
  have hidle := hplain.still m
  rw [callContract_eq]
  cases hr : contractParams c ⟨name, Text.fields names, values⟩ m with
  | error e m₁ =>
    rw [hr] at hparams
    rw [bind_of_error hr, bind_of_error hparams]
    exact .fails e m₁ env rfl rfl
  | ok p m₁ =>
    rw [hr] at hparams hkept hidle
    rw [bind_of_ok hr, bind_of_ok hparams]
    have hpay := pay_withEnv c.limits (contractCharges c name) m₁ env
    have hidle' := still_pay c.limits (contractCharges c name) m₁
    have hpaid := keeps_pay (P := fun _ => True) c.limits (contractCharges c name) m₁
    cases hr' : pay c.limits (contractCharges c name) m₁ with
    | error e m₂ =>
      rw [hr'] at hpay
      rw [bind_of_error hr', bind_of_error hpay]
      exact .fails e m₂ env rfl rfl
    | ok u m₂ =>
      rw [hr'] at hpay hidle' hpaid
      rw [bind_of_ok hr', bind_of_ok hpay]
      -- paying starts nothing, so the contract is the first frame of either machine
      have houtline : m₂.outline = [] := by
        have hnone : m.outline = [] := congrArg (List.map Frame.bare) hm
        exact (hidle'.trans hidle).trans hnone
      have hframes : m₂.frames = [] := List.map_eq_nil_iff.1 houtline
      have hsystem : ∀ key, Name.isSystem key = true → m₂.env.get? key = env.get? key := by
        intro key hkey
        rw [← henv key hkey, ← hkept]
        exact hpaid.env key trivial
      have hstarted : ∀ m : Machine, m.frames = [] → started c p.1 name none p.2 m
          = { m with frames := (started c p.1 name none p.2 { m with frames := [] }).frames
                     env := contractEnv m.env p.2 name } := by
        intro m hm
        unfold started
        dsimp only
        rw [hm]
        rfl
      rw [modify_apply, modify_apply, hstarted m₂ hframes, hstarted (m₂.withEnv env) hframes]
      exact .starts { m₂ with env := contractEnv m₂.env p.2 name, frames := [] }
        (contractEnv m₂.env p.2 name) (contractEnv env p.2 name) _ _ rfl rfl (.refl _)
        (.contractEnv hsystem _ _) rfl rfl rfl

end Exec

/-! ### Runs -/

namespace Launch

/-- The start and the steps of a run whose time is not limited. -/
def steps (l : Launch) (r : Registry) (cost : Int) : Exec Unit := do
  l.start { registry := r }
  Exec.loop { registry := r } (Run.fuel cost)

/-- What a run hands back is what its start and its steps end with, whatever the clock says. -/
theorem run_summary {r : Registry} {env : Dict Value} {h : Heap} {cost : Int}
    (hbudget : Run.budget r env h = .ok cost) (hallowance : Run.allowance env h = .ok none)
    (l : Launch) (clock : Nat → Nat) {s : Except Error (List Value) × Heap × Int}
    (hs : Exec.summary r (l.steps r cost { heap := h, env := env, cost := cost }) = s) :
    (l.run r env h clock).result = s.1 ∧ (l.run r env h clock).heap = s.2.1 ∧
      (l.run r env h clock).env.get? "txcost" = some (.int (Int64.ofInt s.2.2)) := by
  subst hs
  -- Without an allowance of time the clock is never read.
  have hclock : (l.start { registry := r, allowance := none, clock := clock } >>= fun _ =>
      Exec.loop { registry := r, allowance := none, clock := clock } (Run.fuel cost))
        = l.steps r cost := by
    have hloop := Exec.loop_clock (c := { registry := r }) rfl clock (Run.fuel cost)
    have hstart : l.start { registry := r, allowance := none, clock := clock }
        = l.start { registry := r } := by cases l <;> rfl
    rw [hstart]
    exact congrArg (fun x : Exec Unit => l.start { registry := r } >>= fun _ => x) hloop
  have hcost : ∀ (env : Dict Value) (cost : Int), (Run.settle env cost).get? "txcost"
      = some (.int (Int64.ofInt cost)) := by
    intro env cost
    rw [Run.settle, Dict.get?_insert, if_pos rfl]
  unfold Launch.run Run.execute
  rw [hbudget, hallowance]
  dsimp only
  rw [hclock, EStateM.run]
  -- The ends of a run: its results, a fault (with its trace), a crash, an overflow.
  rcases l.steps r cost { heap := h, env := env, cost := cost } with ⟨u, m⟩ | ⟨f | _ | _, m⟩
  · exact ⟨rfl, rfl, hcost _ _⟩
  · dsimp only [Exec.summary]
    rw [r.heap_unwind, r.cost_unwind]
    exact ⟨rfl, rfl, hcost _ _⟩
  · exact ⟨rfl, rfl, hcost _ _⟩
  · exact ⟨rfl, rfl, hcost _ _⟩

/-- Where a contract is started does not matter for what the run hands back. -/
theorem summary_contract {r : Registry} (hhosts : ∀ e, r.Offers e → e.IgnoresEnv) (state : UInt32)
    (name : String) (params : Dict Value) (cost : Int) {m : Machine} (hm : m.frames = [])
    {env : Dict Value} (henv : ∀ key, Name.isSystem key = true → m.env.get? key = env.get? key) :
    Exec.summary r ((contract state name params).steps r cost m)
      = Exec.summary r ((contract state name params).steps r cost (m.withEnv env)) := by
  have hcalled : Exec.Called ((contract state name params).start { registry := r } m)
      ((contract state name params).start { registry := r } (m.withEnv env)) :=
    Exec.callContract_called _ _ _ _ hm henv
  unfold steps
  cases hcalled with
  | fails e m env₁ hr hr' =>
    rw [bind_of_error hr, bind_of_error hr']
    exact (Exec.summary_inEnv_error r e m env₁).symm
  | starts m env₁ env₂ k k' hr hr' henv₁ henv₂ hvia hvia' hsections =>
    rw [bind_of_ok hr, bind_of_ok hr']
    exact Exec.summary_loop_copy hhosts _ henv₁ henv₂ hvia hvia' hsections

/-- **A contract does not see the variables of its caller.** A run of a contract in two environments
that agree on the system variables hands back the same value or the same error with the same trace,
the same heap and the same cost. The time of neither run is limited, and no host function looks at
the environment or changes it. -/
theorem contract_ignores_caller {r : Registry} (hhosts : ∀ e, r.Offers e → e.IgnoresEnv)
    (state : UInt32) (name : String) (params : Dict Value) {env env' : Dict Value}
    (henv : ∀ key, Name.isSystem key = true → env.get? key = env'.get? key)
    (htime : env.get? "time_limit" = none) (h : Heap) (clock clock' : Nat → Nat) :
    ((contract state name params).run r env h clock).result
        = ((contract state name params).run r env' h clock').result ∧
      ((contract state name params).run r env h clock).heap
        = ((contract state name params).run r env' h clock').heap ∧
      ((contract state name params).run r env h clock).env.get? "txcost"
        = ((contract state name params).run r env' h clock').env.get? "txcost" := by
  have hcost := henv "txcost" (by decide)
  -- Neither caller sets a limit of time, and both start from the same budget.
  have hallowance : ∀ env : Dict Value, env.get? "time_limit" = none →
      Run.allowance env h = .ok none := by
    intro env htime
    unfold Run.allowance
    rw [htime]
    cases env.get? "gen_block" <;> rfl
  have htime' : env'.get? "time_limit" = none := (henv _ (by decide)).symm.trans htime
  have hbudget' : Run.budget r env' h = Run.budget r env h := by
    unfold Run.budget
    rw [hcost]
  cases hbudget : Run.budget r env h with
  | error f =>
    rw [hbudget] at hbudget'
    unfold Launch.run Run.execute
    rw [hbudget, hbudget']
    exact ⟨rfl, rfl, hcost⟩
  | ok cost =>
    rw [hbudget] at hbudget'
    have hsame := summary_contract hhosts state name params cost
      (m := { heap := h, env := env, cost := cost }) rfl henv
    obtain ⟨hresult, hheap, hleft⟩ := run_summary hbudget (hallowance env htime) _ clock hsame
    obtain ⟨hresult', hheap', hleft'⟩ := run_summary hbudget' (hallowance env' htime')
      (contract state name params) clock' rfl
    exact ⟨hresult.trans hresult'.symm, hheap.trans hheap'.symm, hleft.trans hleft'.symm⟩

/-- A contract that uses a name of its own, and another one that calls it. -/
def ownNames : Session := callingSession
  ("contract Y \x7b action \x7b $n = 5\n $result = $n \x7d \x7d\n" ++
    "contract X \x7b action \x7b $result = Y() + $key_id \x7d \x7d")

/-- The node's variables of the example. -/
def nodeEnv : Dict Value := Dict.empty.insert "key_id" (.int 1)

/-- A caller that has bound the contract's name to a value of another kind is no different from one
that has not. -/
theorem own_names_ignore_caller :
    (∀ e, ownNames.registry.Offers e → e.IgnoresEnv) ∧
      (∀ key, Name.isSystem key = true →
        (nodeEnv.insert "n" (.str "caller")).get? key = nodeEnv.get? key) ∧
      (nodeEnv.insert "n" (.str "caller")).get? "time_limit" = none ∧
      ((contract 1 "X" .empty).run ownNames.registry nodeEnv .empty id).result.toOption.map
        (·.map (Value.isInt 6)) = some [true] ∧
      ((contract 1 "X" .empty).run ownNames.registry (nodeEnv.insert "n" (.str "caller")) .empty
        fun _ => 0).result
          = ((contract 1 "X" .empty).run ownNames.registry nodeEnv .empty id).result := by
  obtain ⟨honly, hresult⟩ : ownNames.registry.offersContractsOnly = true ∧
      ((contract 1 "X" .empty).run ownNames.registry nodeEnv .empty id).result.toOption.map
        (·.map (Value.isInt 6)) = some [true] := by
    simp only [ownNames, callingSession, Session.perform_compile, String.toList_append,
      String.reduceToList]
    decide +kernel
  -- No foreign function is bound, so there is none that could see the environment.
  have hhosts : ∀ e, ownNames.registry.Offers e → e.IgnoresEnv := fun e he run hrun =>
    absurd hrun (e.behaviour_ne_host (Registry.callsContract_of_offers honly he) run)
  have henv : ∀ key, Name.isSystem key = true →
      (nodeEnv.insert "n" (.str "caller")).get? key = nodeEnv.get? key := by
    intro key hkey
    rw [Dict.get?_insert, if_neg]
    rintro rfl
    revert hkey
    decide
  have htime : (nodeEnv.insert "n" (.str "caller")).get? "time_limit" = none := by
    rw [nodeEnv, Dict.get?_insert, Dict.get?_insert, if_neg (by decide), if_neg (by decide),
      Dict.get?_empty]
  exact ⟨hhosts, henv, htime, hresult,
    (contract_ignores_caller hhosts 1 "X" .empty henv htime .empty (fun _ => 0) id).1⟩

end Launch

end Covenant
