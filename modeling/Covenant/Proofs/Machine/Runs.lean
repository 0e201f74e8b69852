import Covenant.Proofs.Machine.Moves

/-!
# Runs and their transitions

A run is started with a function or with a contract (`Launch`), and then makes one step after the
other. `Transition` holds of each of these: the machine before, the contract that is asked for, and
what comes of it. Every transition is a move, and the machine that a run ends with is one that a
transition leaves (`Launch.concludes`).

Whatever contracts are active, restoring the environments of all of them gives the environment from
before the first (`Move.restored`).
-/

namespace Covenant

open Covenant.Computation

open Exec

/-! ### Launches -/

/-- How a run is started. -/
inductive Launch where
  | func (id : BlockId) (params : List Value)
  | contract (state : UInt32) (name : String) (params : Dict Value)

namespace Launch

/-- What a start puts into the machine. -/
def start (l : Launch) (c : Context) : Exec Unit :=
  match l with
  | func id params => Exec.start c id params .entry
  | contract state name params => callContractIn c state name params none

/-- The contract that is asked for. -/
def request? : Launch → Option Request
  | func _ _ => none
  | contract state name params => some (.inState state name params)

/-- The run. -/
def run (l : Launch) (r : Registry) (env : Dict Value) (h : Heap) (clock : Nat → Nat) :
    Outcome (List Value) :=
  Run.execute r l.start env h clock

/-- The runs of a function are those that a session makes. -/
theorem run_func (r : Registry) (id : BlockId) (params : List Value) (env : Dict Value) (h : Heap) :
    (func id params).run r env h (fun _ => 0) = Run.func r id params env h := rfl

/-- A session answers with the last of the values that the run of a contract leaves. -/
theorem run_contract (r : Registry) (state : UInt32) (name : String) (params env : Dict Value)
    (h : Heap) : ((contract state name params).run r env h fun _ => 0).map
      (fun vs => vs.getLast?.getD .nil) = Run.contract r state name params env h := rfl

end Launch

/-- Whether a run fails with a cause. -/
def Outcome.failsWith {α : Type} (o : Outcome α) (f : Fault) : Bool :=
  match o.result with
  | .ok _ => false
  | .error e => e.fault == f

theorem Outcome.error_of_failsWith {α : Type} {o : Outcome α} {f : Fault}
    (h : o.failsWith f = true) :
    ∃ e, o.result = .error e ∧ e.fault = f := by
  unfold failsWith at h
  split at h
  · cases h
  · exact ⟨_, ‹_›, beq_iff_eq.1 h⟩

/-! ### Transitions -/

/-- What a run does: the machine before, the contract that is asked for, and what comes of it. -/
inductive Transition (c : Context) (l : Launch) (m₀ : Machine) :
    Machine → Option Request → EStateM.Result Stop Machine Unit → Prop
  | start : Transition c l m₀ m₀ l.request? (l.start c m₀)
  | step {m m' : Machine} {q : Option Request} : Transition c l m₀ m q (.ok () m') →
      m'.frames ≠ [] → Transition c l m₀ m' (asked (stepRequest c) m') (step c m')

section

variable {c : Context} {l : Launch} {m₀ m : Machine} {q : Option Request}
  {r : EStateM.Result Stop Machine Unit}

theorem Launch.move (hclean : c.registry.arena.Clean) (l : Launch) (hm : m.Clean) :
    Move l.request? m (l.start c m) := by
  cases l with
  | func id params => exact .keeps (keeps_start c id params .entry m)
  | contract state name params => exact moves_callContract hclean _ _ _ _ m hm

/-- **Every transition is a move.** -/
theorem Transition.move (hclean : c.registry.arena.Clean) (hquiet : c.registry.Quiet)
    (hm₀ : m₀.Clean) (h : Transition c l m₀ m q r) : m.Clean ∧ Move q m r := by
  induction h with
  | start => exact ⟨hm₀, l.move hclean hm₀⟩
  | step _ _ ih =>
    have hm := ih.2.clean ih.1
    exact ⟨hm, step_move hclean hquiet _ hm⟩

/-- What a run ends with: it is over, it has had too many steps, or a transition has failed. -/
inductive Concludes (c : Context) (l : Launch) (m₀ : Machine) :
    EStateM.Result Stop Machine Unit → Prop
  | ends {m m' : Machine} {q : Option Request} : Transition c l m₀ m q (.ok () m') →
      m'.frames = [] → Concludes c l m₀ (.ok () m')
  | late {m m' : Machine} {q : Option Request} : Transition c l m₀ m q (.ok () m') →
      Concludes c l m₀ (.error (.fault .outOfSteps) m')
  | fails {m m' : Machine} {q : Option Request} {e : Stop} : Transition c l m₀ m q (.error e m') →
      Concludes c l m₀ (.error e m')

/-- The machine that a run ends with is one that a transition leaves. -/
theorem Concludes.transition (h : Concludes c l m₀ r) :
    ∃ m q r', Transition c l m₀ m q r' ∧ left r' = left r := by
  cases h with
  | ends htrans | late htrans | fails htrans => exact ⟨_, _, _, htrans, rfl⟩

theorem Concludes.frames {m' : Machine} (h : Concludes c l m₀ (.ok () m')) : m'.frames = [] := by
  cases h with
  | ends _ hframes => exact hframes

/-- The steps behind a transition end the run. -/
theorem Transition.loop (fuel : Nat) {m' : Machine} (h : Transition c l m₀ m q (.ok () m')) :
    Concludes c l m₀ (Exec.loop c fuel m') := by
  induction fuel generalizing m m' q with
  | zero =>
    by_cases hframes : m'.frames = []
    · rw [loop_nil 0 hframes]
      exact .ends h hframes
    · rw [loop_zero hframes]
      exact .late h
  | succ fuel ih =>
    by_cases hframes : m'.frames = []
    · rw [loop_nil _ hframes]
      exact .ends h hframes
    · have hstep : Transition c l m₀ m' (asked (stepRequest c) m') (Exec.step c m') :=
        .step h hframes
      rw [loop_succ fuel hframes]
      cases hr : Exec.step c m' with
      | ok u m₁ =>
        rw [hr] at hstep
        rw [bind_of_ok hr]
        exact ih hstep
      | error e m₁ =>
        rw [hr] at hstep
        rw [bind_of_error hr]
        exact .fails hstep

/-- What the start and the steps of a run end with. -/
theorem Launch.concludes (l : Launch) (c : Context) (m₀ : Machine) (fuel : Nat) :
    Concludes c l m₀ ((do l.start c; Exec.loop c fuel : Exec Unit) m₀) := by
  have hstart : Transition c l m₀ m₀ l.request? (l.start c m₀) := .start
  cases hr : l.start c m₀ with
  | ok u m₁ =>
    rw [hr] at hstart
    rw [bind_of_ok hr]
    exact hstart.loop fuel
  | error e m₁ =>
    rw [hr] at hstart
    rw [bind_of_error hr]
    exact .fails hstart

/-! ### Parts of a run -/

/-- The machines that come up from one on while more than some number of frames are active, and the
one in which it is no longer so: what happens until a block has ended that is active at first. -/
inductive During (c : Context) (depth : Nat) (m₀ : Machine) : Machine → Prop
  | start : During c depth m₀ m₀
  | step {m m' : Machine} : During c depth m₀ m → depth < m.frames.length →
      Exec.step c m = .ok () m' → During c depth m₀ m'

/-- The machine behind some steps that are all made while more than some number of frames are
active. -/
def Exec.stepsWithin (c : Context) (depth : Nat) : Nat → Machine → Option Machine
  | 0, m => some m
  | n + 1, m =>
    if depth < m.frames.length then
      match Exec.step c m with
      | .ok _ m' => stepsWithin c depth n m'
      | .error _ _ => none
    else none

/-- The steps that the check makes are steps of the run. -/
theorem During.of_stepsWithin {depth n : Nat} {m₁ m' : Machine} (hm : During c depth m₁ m)
    (h : Exec.stepsWithin c depth n m = some m') : During c depth m₁ m' := by
  induction n generalizing m with
  | zero =>
    cases h
    exact hm
  | succ n ih =>
    rw [Exec.stepsWithin] at h
    split at h
    · rename_i hactive
      split at h
      · exact ih (hm.step hactive ‹_›) h
      · cases h
    · cases h

/-- The machines of a run come up behind its start. -/
theorem Transition.during {m' : Machine} (h : Transition c l m₀ m q (.ok () m')) :
    ∃ m₁, l.start c m₀ = .ok () m₁ ∧ During c 0 m₁ m' := by
  generalize hr : (EStateM.Result.ok () m' : EStateM.Result Stop Machine Unit) = r at h
  induction h generalizing m' with
  | start => exact ⟨m', hr.symm, .start⟩
  | @step m m₂ q _ hframes ih =>
    obtain ⟨m₁, hstart, hduring⟩ := ih rfl
    exact ⟨m₁, hstart, hduring.step (List.length_pos_iff.2 hframes) hr.symm⟩

/-- What comes up behind the start of a run is part of it. -/
theorem Transition.of_during {m₁ m' : Machine} (hstart : l.start c m₀ = .ok () m₁)
    (h : During c 0 m₁ m') : ∃ m q, Transition c l m₀ m q (.ok () m') := by
  induction h with
  | start =>
    refine ⟨m₀, l.request?, ?_⟩
    rw [← hstart]
    exact .start
  | @step m m' _ hactive hstep ih =>
    obtain ⟨m₂, q, htrans⟩ := ih
    refine ⟨m, asked (stepRequest c) m, ?_⟩
    rw [← hstep]
    exact htrans.step (List.length_pos_iff.1 hactive)

/-- The machine behind some steps of a run. -/
def Launch.machineAfter (l : Launch) (c : Context) (n : Nat) (m₀ : Machine) : Option Machine :=
  match l.start c m₀ with
  | .ok _ m => Exec.stepsWithin c 0 n m
  | .error _ _ => none

/-- A machine that passes a test behind some steps is one of the run. -/
theorem Launch.machineAfter_sound {n : Nat} {p : Machine → Bool}
    (h : (l.machineAfter c n m₀).any p = true) :
    ∃ m q m', Transition c l m₀ m q (.ok () m') ∧ p m' = true := by
  obtain ⟨m', hm', hp⟩ := (Option.any_eq_true _ _).1 h
  unfold Launch.machineAfter at hm'
  cases hstart : l.start c m₀ with
  | ok u m₁ =>
    rw [hstart] at hm'
    obtain ⟨m, q, htrans⟩ := Transition.of_during hstart (During.start.of_stepsWithin hm')
    exact ⟨m, q, m', htrans, hp⟩
  | error e m₁ =>
    rw [hstart] at hm'
    cases hm'

/-- Whether all machines that come up while more than some number of frames are active pass a
test. -/
def Exec.always (c : Context) (depth : Nat) (p : Machine → Bool) : Nat → Machine → Bool
  | 0, m => m.frames.length ≤ depth
  | fuel + 1, m =>
    m.frames.length ≤ depth || (p m &&
      match Exec.step c m with
      | .ok _ m' => always c depth p fuel m'
      | .error _ _ => true)

/-- A property that the check has seen up to the end of a call holds in every machine of the
call. -/
theorem During.always {depth fuel : Nat} {p : Machine → Bool}
    (hp : Exec.always c depth p fuel m₀ = true) (h : During c depth m₀ m) :
    depth < m.frames.length → p m = true := by
  have hactive : ∀ {m : Machine} {fuel : Nat}, Exec.always c depth p fuel m = true →
      depth < m.frames.length → p m = true ∧ ∀ m', Exec.step c m = .ok () m' →
        ∃ fuel, Exec.always c depth p fuel m' = true := by
    intro m fuel hp hdepth
    cases fuel with
    | zero =>
      have hle := of_decide_eq_true hp
      omega
    | succ fuel =>
      rw [Exec.always, decide_eq_false (by omega), Bool.false_or, Bool.and_eq_true] at hp
      refine ⟨hp.1, fun m' hstep => ⟨fuel, ?_⟩⟩
      rw [hstep] at hp
      exact hp.2
  have hfuel : ∃ fuel, Exec.always c depth p fuel m = true := by
    induction h with
    | start => exact ⟨fuel, hp⟩
    | step _ hdepth hstep ih =>
      obtain ⟨fuel, hp⟩ := ih
      exact (hactive hp hdepth).2 _ hstep
  obtain ⟨fuel, hp⟩ := hfuel
  exact fun hdepth => (hactive hp hdepth).1

/-- Whether all machines of a run pass a test while something is active. -/
def Launch.always (l : Launch) (c : Context) (p : Machine → Bool) (fuel : Nat) (m₀ : Machine) :
    Bool :=
  match l.start c m₀ with
  | .ok _ m => Exec.always c 0 p fuel m
  | .error _ _ => true

theorem Launch.always_sound {p : Machine → Bool} {fuel : Nat} (hp : l.always c p fuel m₀ = true)
    {m' : Machine} (h : Transition c l m₀ m q (.ok () m')) (hframes : m'.frames ≠ []) :
    p m' = true := by
  obtain ⟨m₁, hstart, hduring⟩ := h.during
  rw [Launch.always, hstart] at hp
  exact hduring.always hp (List.length_pos_iff.2 hframes)

/-! ### Restoring -/

/-- Giving up some frames restores the environments of their contracts. -/
theorem Machine.env_iterate_giveUp (n : Nat) (m : Machine) :
    (Machine.giveUp^[n] m).env = restoreAll ((m.frames.take n).filterMap Frame.call?) m.env := by
  induction n generalizing m with
  | zero => rfl
  | succ n ih =>
    rw [Function.iterate_succ_apply, ih, Machine.frames_giveUp]
    rcases hframes : m.frames with _ | ⟨a | k, rest⟩ <;> simp only [Machine.giveUp, hframes]
    · simp
    · rfl
    · rfl

/-- Taking an error out through some frames restores the environments of their contracts. -/
theorem unwind_env (r : Registry) (fs : List Frame) (line : Option Nat) (e : Error) (m : Machine) :
    (r.unwind fs line e m).2.env = restoreAll
    ((m.frames.take fs.length).filterMap Frame.call?) m.env := by
  rw [Registry.unwind_snd, Machine.env_iterate_giveUp]

/-- Taking an error out through all frames restores the environments of all active contracts. -/
theorem unwind_frames_env (r : Registry) (line : Option Nat) (e : Error) (m : Machine) :
    (r.unwind m.frames line e m).2.env = restoreAll m.calls m.env := by
  rw [unwind_env, List.take_length]
  rfl

/-- **What a move does is undone by restoring.** Of the active contracts, those above some outer
ones are restored. A name is then bound as it would have been before the move, unless it is a system
variable that the move gives to a contract. -/
theorem Move.restored (h : Move q m r) {above base : List ContractCall}
    (hcalls : m.calls = above ++ base) (habove : above ≠ [] ∨ base = []) :
    ∃ above', (left r).calls = above' ++ base ∧ ∀ key, (Name.isSystem key = true ∨ above ≠ []) →
      (Name.isSystem key = true → ∀ q' m', q = some q' → r = .ok () m' →
        q'.params.get? key = none) →
      (restoreAll above' (left r).env).get? key = (restoreAll above m.env).get? key := by
  cases h with
  | keeps hkept =>
    refine ⟨above, hkept.calls.trans hcalls, fun key _ _ => ?_⟩
    exact get?_restoreAll_congr above fun _ => hkept.env key trivial
  | writes _ hkept =>
    refine ⟨above, hkept.calls.trans hcalls, fun key hkey _ => get?_restoreAll_congr above ?_⟩
    rintro (hsys | rfl)
    · exact hkept.env key hsys
    · exact hkept.env key (hkey.resolve_right fun h => h rfl)
  | starts q' k m' hq hr hstarts =>
    subst hr
    refine ⟨k :: above, ?_, fun key _ hgiven => ?_⟩
    · rw [List.cons_append, ← hcalls]
      exact hstarts.calls
    · rw [restoreAll_cons]
      exact get?_restoreAll_congr above fun _ =>
        hstarts.restores key fun hsys => hgiven hsys q' m' hq rfl
  | ends k _ hends =>
    have hk := hends.calls
    rw [hcalls] at hk
    cases above with
    | nil =>
      -- no contract is active, so none can end
      obtain rfl : base = [] := habove.resolve_left fun h => h rfl
      cases hk
    | cons k' above =>
      obtain ⟨rfl, hrest⟩ := List.cons.inj hk
      refine ⟨above, hrest.symm, fun key _ _ => ?_⟩
      rw [restoreAll_cons]
      exact get?_restoreAll_congr above fun _ => hends.env key

end

/-! ### Checking what a run asks for -/

/-- Whether all contracts that are asked for pass a test until a machine comes up at which to
stop. -/
def Exec.asksOnly (c : Context) (stop : Machine → Bool) (p : Request → Bool) : Nat → Machine → Bool
  | 0, m => stop m
  | fuel + 1, m =>
    stop m || ((asked (stepRequest c) m).all p &&
      match step c m with
      | .ok _ m' => asksOnly c stop p fuel m'
      | .error _ _ => true)

/-- What a step asks for before the machine at which to stop passes the test, and so do the steps
behind it. -/
theorem Exec.asksOnly_step {c : Context} {stop : Machine → Bool} {p : Request → Bool} {fuel : Nat}
    {m : Machine} (h : asksOnly c stop p fuel m = true) (hgo : stop m = false) :
    (asked (stepRequest c) m).all p = true ∧
      ∀ m', step c m = .ok () m' → ∃ fuel, asksOnly c stop p fuel m' = true := by
  cases fuel with
  | zero =>
    rw [asksOnly, hgo] at h
    cases h
  | succ fuel =>
    rw [asksOnly, hgo, Bool.false_or, Bool.and_eq_true] at h
    refine ⟨h.1, fun m' hm' => ⟨fuel, ?_⟩⟩
    rw [hm'] at h
    exact h.2

namespace Launch

variable {c : Context} {l : Launch} {p : Request → Bool} {m₀ : Machine}

/-- Whether all contracts that a run asks for pass a test. -/
def asksOnly (l : Launch) (c : Context) (p : Request → Bool) (fuel : Nat) (m₀ : Machine) : Bool :=
  l.request?.all p &&
    match l.start c m₀ with
    | .ok _ m => Exec.asksOnly c (·.frames.isEmpty) p fuel m
    | .error _ _ => true

/-- What the check sees of the contracts that are asked for holds of every transition. -/
theorem asksOnly_sound {fuel : Nat} (h : l.asksOnly c p fuel m₀ = true) {m : Machine}
    {q : Option Request} {r : EStateM.Result Stop Machine Unit} (htrans : Transition c l m₀ m q r) :
    q.all p = true ∧
      ∀ m', r = .ok () m' → ∃ fuel, Exec.asksOnly c (·.frames.isEmpty) p fuel m' = true := by
  induction htrans with
  | start =>
    rw [asksOnly, Bool.and_eq_true] at h
    refine ⟨h.1, fun m' hm' => ⟨fuel, ?_⟩⟩
    rw [hm'] at h
    exact h.2
  | @step m m' q _ hframes ih =>
    obtain ⟨fuel, hfuel⟩ := ih.2 m' rfl
    exact asksOnly_step hfuel (by simpa using hframes)

/-- A transition of the run that is carried out in an environment. -/
def Makes (l : Launch) (r : Registry) (env : Dict Value) (h : Heap) (clock : Nat → Nat)
    (m : Machine) (q : Option Request) (result : EStateM.Result Stop Machine Unit) : Prop :=
  ∃ cost allowance, Run.budget r env h = .ok cost ∧ Run.allowance env h = .ok allowance ∧
    Transition { registry := r, allowance := allowance, clock := clock } l
      { heap := h, env := env, cost := cost } m q result

/-- Whether all contracts that a run in an environment asks for pass a test. -/
def asksOnlyIn (l : Launch) (r : Registry) (env : Dict Value) (h : Heap) (clock : Nat → Nat)
    (p : Request → Bool) (fuel : Nat) : Bool :=
  match Run.budget r env h, Run.allowance env h with
  | .ok cost, .ok allowance =>
    l.asksOnly { registry := r, allowance := allowance, clock := clock } p fuel
      { heap := h, env := env, cost := cost }
  | _, _ => true

theorem asksOnlyIn_sound {r : Registry} {env : Dict Value} {h : Heap} {clock : Nat → Nat}
    {fuel : Nat} (hasks : l.asksOnlyIn r env h clock p fuel = true) {m : Machine}
    {q : Option Request} {result : EStateM.Result Stop Machine Unit}
    (hmakes : l.Makes r env h clock m q result) : q.all p = true := by
  obtain ⟨cost, allowance, hcost, hallowance, htrans⟩ := hmakes
  rw [asksOnlyIn, hcost, hallowance] at hasks
  exact (asksOnly_sound hasks htrans).1

end Launch

end Covenant
