import Covenant.Proofs.Machine.Metering
import Covenant.Proofs.Machine.Twins

/-!
# What a run makes of another budget

If neither the code nor the host looks at the cost that is left, a run does the same with every
budget that covers what it spends, and stops at the limit with every other one, unless the counter
cannot hold what the first charge leaves of it (`Launch.run_budget_threshold`). Two runs are
followed step by step (`Exec.step_agrees`). They are given different numbers of steps, so that the
second one needs a reason to end by itself: its potential falls with every step, as the first one's
does.
-/

namespace Covenant

open Covenant.Computation

open Exec Charge

/-! ### What assignments write to -/

section

variable {c : Context} {l : Launch} {m₀ m m' : Machine} {q : Option Request}
  {r : EStateM.Result Stop Machine Unit}

/-- An instruction brings no assignment to a system variable into the frames, as there is none in
the code. -/
theorem Shift.clean (hclean : c.registry.arena.Clean) {id : BlockId} {i : Instr}
    (hi : i ∈ (c.block id).code) {a : Activation} {rest fs : List Frame}
    (h : Shift c i.op a rest fs) (hframes : ∀ f ∈ Frame.block a :: rest, f.Clean) :
    ∀ f ∈ fs, f.Clean := by
  cases h with
  | stay => exact hframes
  | leave => exact fun f hf => hframes f (List.mem_cons_of_mem _ hf)
  | aim ts hts =>
    refine List.forall_mem_cons.2 ⟨fun t ht => ?_, (List.forall_mem_cons.1 hframes).2⟩
    rcases hts with rfl | hop
    · exact absurd ht List.not_mem_nil
    · exact (hclean id).targets t (Block.mem_targets.2 ⟨i, hi, by rw [hop]; exact ht⟩)
  | enter b _ htargets =>
    refine List.forall_mem_cons.2 ⟨fun t ht => ?_, hframes⟩
    rw [htargets] at ht
    exact absurd ht List.not_mem_nil
  | call k _ _ htidy => exact List.forall_mem_cons.2 ⟨htidy, hframes⟩

/-- A step leaves no assignment to a system variable in the frames. -/
theorem Turn.clean (hclean : c.registry.arena.Clean) (h : Turn c m m') (hm : m.Clean) :
    m'.Clean := by
  rw [Machine.clean_iff] at hm ⊢
  rw [Machine.outline] at hm
  cases h with
  | instruction a rest i hframes _ hcode hshift =>
    rw [hframes] at hm
    exact hshift.clean hclean (Array.mem_of_getElem? hcode) hm
  | leave a rest hframes _ houtline =>
    rw [hframes] at hm
    rw [houtline]
    exact (List.forall_mem_cons.1 hm).2
  | «section» k rest s ss b hframes _ _ htargets houtline =>
    rw [hframes] at hm
    obtain ⟨hk, hrest⟩ := List.forall_mem_cons.1 hm
    rw [houtline]
    refine List.forall_mem_cons.2 ⟨fun t ht => ?_, List.forall_mem_cons.2 ⟨hk, hrest⟩⟩
    rw [htargets] at ht
    exact absurd ht List.not_mem_nil
  | finish k rest hframes _ houtline =>
    rw [hframes] at hm
    rw [houtline]
    exact (List.forall_mem_cons.1 hm).2

/-- A run starts without such assignments. -/
theorem Launch.start_clean (hm : m.Clean) (h : l.start c m = .ok () m') : m'.Clean := by
  rw [Machine.clean_iff] at hm ⊢
  cases l with
  | func id params =>
    obtain ⟨b, -, htargets, houtline⟩ :=
      outline_start (show Exec.start c id params .entry m = _ from h)
    rw [houtline]
    refine List.forall_mem_cons.2 ⟨fun t ht => ?_, hm⟩
    rw [htargets] at ht
    exact absurd ht List.not_mem_nil
  | contract state name params =>
    obtain ⟨k, -, -, htidy, houtline, -⟩ := outline_callContract h
    rw [houtline]
    exact List.forall_mem_cons.2 ⟨htidy, hm⟩

/-- No assignment of a run is to a system variable, whatever its host functions do. -/
theorem Transition.clean (hclean : c.registry.arena.Clean) (hm₀ : m₀.Clean)
    (h : Transition c l m₀ m q r) : ∀ m', r = .ok () m' → m'.Clean := by
  induction h with
  | start => exact fun m' hm' => Launch.start_clean hm₀ hm'
  | @step m m' q _ hframes ih =>
    exact fun m'' hm'' => (step_turn hm'' hframes).clean hclean (ih m' rfl)

theorem Machine.Clean.txcost_not_mem (hm : m.Clean) {a : Activation} {rest : List Frame}
    (hframes : m.frames = .block a :: rest) : .extend "txcost" ∉ a.targets := by
  intro hmem
  have hfree : Name.isSystem "txcost" = false :=
    hm (.block a) (hframes ▸ List.mem_cons_self ..) _ hmem
  exact absurd hfree (by decide)

end

/-! ### Steps -/

namespace Exec

variable {c : Context} {m m' : Machine} {gap : Int}

/-- Only a step with an instruction pays for one. -/
theorem nextOp?_of_mem_stepBill (h : .instruction ∈ stepBill c m) :
    ∃ op, nextOp? c m = some op := by
  unfold stepBill at h
  unfold nextOp?
  split at h
  · exact absurd h List.not_mem_nil
  · split at h
    · exact (isCall_queryCharges (c := c) _ _ _ _ h).elim
    · exact absurd h List.not_mem_nil
  · rename_i a rest hframes
    cases hending : m.ending with
    | some status =>
      rw [hending] at h
      exact absurd h List.not_mem_nil
    | none =>
      cases hcode : (c.block a.block).code[a.pc]? with
      | none =>
        simp only [hending, hcode] at h
        exact absurd h List.not_mem_nil
      | some i => exact ⟨i.op, by simp only [hframes, hcode, Option.map_some]⟩

/-- The potential falls with every step of a twin, too. -/
theorem twin_potential (hm : StepIgnoresCost c m)
    (hbill : ∀ k ∈ stepBill c m, 0 ≤ k.amount c.limits) (hframes : m.frames ≠ [])
    (h : step c m = .ok () m') (hcost : m'.cost ≤ m.cost) {μ μ' : Meter} (hμ : Twin gap m μ)
    (hμ' : Twin gap m' μ') (hpos : stepBill c m = [] ∧ m'.cost = m.cost ∨ 0 < μ'.cost) :
    (m'.withMeter μ').potential < (m.withMeter μ).potential := by
  have h₁ := hμ.cost
  have h₂ := hμ'.cost
  change m'.weight + 6 * μ'.cost.toNat < m.weight + 6 * μ.cost.toNat
  rcases (step_turn h hframes).weight_lt with hweight | ⟨hweight, hmem⟩
  · omega
  · obtain ⟨op, hop⟩ := nextOp?_of_mem_stepBill hmem
    have hlt := step_cost_lt hm hop hbill h
    omega

end Exec

/-! ### Runs -/

namespace Launch

variable {c : Context} {l : Launch} {m₀ m m' m'' : Machine} {q : Option Request} {gap : Int}

/-- Whether nothing in a run looks at the cost that is left: no instruction reads `txcost`, and no
extension that is called looks at one of the two. -/
def IgnoresCost (l : Launch) (c : Context) (m₀ : Machine) : Prop :=
  ∀ m q m', Transition c l m₀ m q (.ok () m') → ∀ op, nextOp? c m' = some op →
    "txcost" ∉ op.reads ∧ ∀ e, c.callee? op = some e → e.IgnoresCost

/-- A run ignores the cost if no code of its registry reads `txcost`, and all extensions ignore
it. -/
theorem IgnoresCost.of_registry
    (hreads : ∀ id, ∀ i ∈ (c.registry.block id).code, "txcost" ∉ i.op.reads)
    (hoffers : ∀ e, c.registry.Offers e → e.IgnoresCost) : l.IgnoresCost c m₀ := by
  intro m q m' _ op hop
  refine ⟨?_, fun e he => hoffers e (offers_of_callee hop he)⟩
  obtain ⟨a, rest, i, -, -, hcode, rfl⟩ := nextOp?_eq_some hop
  exact hreads _ i (Array.mem_of_getElem? hcode)

theorem IgnoresCost.step (h : l.IgnoresCost c m₀) (hclean : c.registry.arena.Clean)
    (hm₀ : m₀.Clean) (htrans : Transition c l m₀ m q (.ok () m')) : StepIgnoresCost c m' where
  reads op hop := (h m q m' htrans op hop).1
  callee op e hop := (h m q m' htrans op hop).2 e
  targets _ _ hframes := (htrans.clean hclean hm₀ m' rfl).txcost_not_mem hframes

/-- What the steps of a run that succeeds do in a twin. It may be given more or fewer steps than the
run, but enough of them for its potential. -/
theorem IgnoresCost.loop (gap : Int) (h : l.IgnoresCost c m₀) (hc : c.allowance = none)
    (hclean : c.registry.arena.Clean) (hm₀ : m₀.Clean) {fuel : Nat}
    (htrans : Transition c l m₀ m q (.ok () m'))
    (hbill : ∀ k ∈ loopBill c fuel m', 0 ≤ k.amount c.limits)
    (hloop : loop c fuel m' = .ok () m'') :
    m''.cost ≤ m'.cost ∧ ∀ μ fuel', Twin gap m' μ → (m'.withMeter μ).potential ≤ fuel' →
      Mirrors c.limits gap (loopBill c fuel m') m' m'' μ.cost ()
        (Exec.loop c fuel' (m'.withMeter μ)) := by
  induction fuel generalizing m m' q with
  | zero =>
    by_cases hframes : m'.frames = []
    · rw [loop_nil _ hframes] at hloop
      cases hloop
      exact ⟨Int.le_refl _, fun μ fuel' hμ _ =>
        .inl ⟨μ, loop_nil fuel' hframes, hμ, .inl ⟨rfl, rfl⟩⟩⟩
    · rw [loop_zero hframes] at hloop
      cases hloop
  | succ fuel ih =>
    by_cases hframes : m'.frames = []
    · rw [loop_nil _ hframes] at hloop
      cases hloop
      exact ⟨Int.le_refl _, fun μ fuel' hμ _ => .inl
        ⟨μ, loop_nil fuel' hframes, hμ, .inl ⟨loopBill_nil _ hframes, rfl⟩⟩⟩
    have hm' := h.step hclean hm₀ htrans
    rw [loop_succ _ hframes] at hloop
    obtain ⟨_, m₁, hm₁, hrest⟩ := bind_eq_ok hloop
    rw [loopBill_succ _ hframes, Bill.after_of_ok hm₁] at hbill ⊢
    obtain ⟨hstep, hbill'⟩ := List.forall_mem_append.1 hbill
    -- one step, and by the induction hypothesis the rest of the run
    obtain ⟨hcost, htwin⟩ := @step_agrees gap m' c hc hm' hstep () m₁ hm₁
    have htrans₁ := Transition.step htrans hframes
    rw [hm₁] at htrans₁
    obtain ⟨hcost', htwin'⟩ := ih htrans₁ hbill' hrest
    refine ⟨Int.le_trans hcost' hcost, fun μ fuel' hμ hfuel => ?_⟩
    have hweight : 0 < m'.weight := Machine.weight_pos hframes
    have hpotential : m'.weight ≤ (m'.withMeter μ).potential := Nat.le_add_right ..
    obtain ⟨n, rfl⟩ : ∃ n, fuel' = n + 1 := ⟨fuel' - 1, by omega⟩
    rw [loop_succ n (show (m'.withMeter μ).frames ≠ [] from hframes)]
    refine (htwin μ hμ).bind hμ hcost' fun μ₁ hμ₁ hpos => htwin' μ₁ n hμ₁ ?_
    have hfalls := twin_potential hm' hstep hframes hm₁ hcost hμ hμ₁ hpos
    omega

theorem agrees_start (hbill : ∀ k ∈ l.startBill c m, 0 ≤ k.amount c.limits) :
    Agrees c.limits gap (l.startBill c m) (l.start c) m := by
  cases l with
  | func id params => exact (blind_start c id params .entry).agrees m
  | contract state name params => exact agrees_callContract none hbill

/-- **A run that succeeds, in a twin.** It does the same if what it spends is covered, and stops at
a charge otherwise. -/
theorem IgnoresCost.run (h : l.IgnoresCost c m₀) (hc : c.allowance = none)
    (hclean : c.registry.arena.Clean) (hm₀ : m₀.frames = [])
    (hbill : ∀ k ∈ l.charges c m₀, 0 ≤ k.amount c.limits)
    (hrun : (do l.start c; Exec.loop c (Run.fuel m₀.cost) : Exec Unit) m₀ = .ok () m)
    {μ : Meter} (hμ : Twin gap m₀ μ) :
    Mirrors c.limits gap (l.charges c m₀) m₀ m μ.cost ()
      ((do l.start c; Exec.loop c (Run.fuel μ.cost) : Exec Unit) (m₀.withMeter μ)) := by
  have hclean₀ : m₀.Clean := by
    rw [Machine.Clean, hm₀]
    exact fun f hf => absurd hf List.not_mem_nil
  obtain ⟨_, m₁, hstart, hloop⟩ := bind_eq_ok hrun
  rw [charges, bill, Bill.after_of_ok hstart] at hbill ⊢
  obtain ⟨hbill₀, hbill₁⟩ := List.forall_mem_append.1 hbill
  obtain ⟨hcost₁, htwin₁⟩ := @agrees_start c l m₀ gap hbill₀ () m₁ hstart
  have htrans : Transition c l m₀ m₀ l.request? (l.start c m₀) := .start
  rw [hstart] at htrans
  obtain ⟨hcost, htwin⟩ := h.loop gap hc hclean hclean₀ htrans hbill₁ hloop
  refine (htwin₁ μ hμ).bind hμ hcost fun μ₁ hμ₁ _ => htwin μ₁ _ hμ₁ ?_
  -- the steps that the twin is given are enough for it
  have h₀ := hμ.cost
  have h₁ := hμ₁.cost
  have hweight := Launch.start_weight_le hstart
  have hweight₀ : m₀.weight = 0 := by
    rw [Machine.weight, hm₀]
    rfl
  have hpow : 5 ≤ Number.pow2 60 := by decide
  change m₁.weight + 6 * μ₁.cost.toNat ≤ Number.pow2 60 + 8 * μ.cost.toNat
  omega

end Launch

/-! ### Outcomes -/

namespace Launch

variable {r : Registry} {env : Dict Value} {h : Heap} {clock : Nat → Nat} {c : Context}
  {m₀ : Machine} {l : Launch}

/-- A run that is ready and whose steps succeed answers with what is on the stack. -/
theorem run_of_ok (hready : ready r env h clock = some (c, m₀)) {m : Machine}
    (hrun : (do l.start c; Exec.loop c (Run.fuel m₀.cost) : Exec Unit) m₀ = .ok () m) :
    l.run r env h clock = ⟨.ok m.stack.toList, Run.settle m.env m.cost, m.heap⟩ := by
  obtain ⟨cost, allowance, hbudget, hallowance, rfl, rfl⟩ := ready_eq_some hready
  unfold Launch.run Run.execute
  rw [hbudget, hallowance]
  dsimp only [EStateM.run]
  rw [hrun]

/-- A run that is ready and whose steps fail fails with the same cause. -/
theorem run_of_fault (hready : ready r env h clock = some (c, m₀)) {m : Machine} {f : Fault}
    (hrun : (do l.start c; Exec.loop c (Run.fuel m₀.cost) : Exec Unit) m₀ = .error (.fault f) m) :
    ∃ e, (l.run r env h clock).result = .error e ∧ e.fault = f := by
  obtain ⟨cost, allowance, hbudget, hallowance, rfl, rfl⟩ := ready_eq_some hready
  unfold Launch.run Run.execute
  rw [hbudget, hallowance]
  dsimp only [EStateM.run]
  rw [hrun]
  exact ⟨_, rfl, Registry.fault_unwind ..⟩

/-- If a run succeeds, so do its steps. -/
theorem ok_of_run (hready : ready r env h clock = some (c, m₀)) {results : List Value}
    (hrun : (l.run r env h clock).result = .ok results) : ∃ m,
      (do l.start c; Exec.loop c (Run.fuel m₀.cost) : Exec Unit) m₀ = .ok () m := by
  obtain ⟨cost, allowance, hbudget, hallowance, rfl, rfl⟩ := ready_eq_some hready
  unfold Launch.run Run.execute at hrun
  rw [hbudget, hallowance] at hrun
  dsimp only [EStateM.run] at hrun
  split at hrun
  · rename_i m hend
    exact ⟨m, hend⟩
  · cases hrun
  · cases hrun
  · cases hrun

theorem hideCost_settle (env : Dict Value) (cost : Int) :
    hideCost (Run.settle env cost) = hideCost env :=
  Dict.erase_insert_self ..

/-- A run that succeeds, has no time limit, does not look at the cost that is left and has no
negative charges. It starts with `m₀` in the context `c` and spends a positive amount. -/
structure Spends (l : Launch) (r : Registry) (env : Dict Value) (h : Heap) (clock : Nat → Nat)
    (c : Context) (m₀ : Machine) (results : List Value) (spent : Int) : Prop where
  ready : Launch.ready r env h clock = some (c, m₀)
  untimed : c.allowance = none
  ignores : l.IgnoresCost c m₀
  charges_nonneg : ∀ k ∈ l.charges c m₀, 0 ≤ k.amount c.limits
  succeeds : (l.run r env h clock).result = .ok results
  spent_eq : spent = m₀.cost - (l.final c m₀).cost
  spent_pos : 0 < spent

/-- **A budget is enough if and only if it covers what the run spends.** Let a run succeed that does
not look at the cost that is left, has no time limit, and has no negative charges. With any other
budget that is larger than what it spent, it has the same results and leaves the same heap and the
same environment, with the rest of the budget as `txcost`. With a budget that is not larger, it
fails at the limit if the counter can hold what the first charge leaves of the budget. -/
theorem run_budget_threshold {s : Session} (hs : s.Reachable) {l : Launch} {env : Dict Value}
    {h : Heap} {clock : Nat → Nat} {c : Context} {m₀ : Machine} {results : List Value} {spent : Int}
    (hrun : l.Spends s.registry env h clock c m₀ results spent) (env' : Dict Value)
    (henv : hideCost env' = hideCost env) {budget : Int}
    (hbudget : Run.budget s.registry env' h = .ok budget) :
    (spent < budget → (l.run s.registry env' h clock).result = .ok results ∧
      (l.run s.registry env' h clock).heap = (l.run s.registry env h clock).heap ∧
      hideCost (l.run s.registry env' h clock).env = hideCost (l.run s.registry env h clock).env ∧
      ∃ n, (l.run s.registry env' h clock).env.get? "txcost" = some (.int n) ∧
        n.toInt = budget - spent) ∧
    (budget ≤ spent → (∀ k ∈ (l.charges c m₀).head?, InCounter (budget - k.amount c.limits)) →
      ∃ e, (l.run s.registry env' h clock).result = .error e ∧ e.fault = .costLimit) := by
  obtain ⟨hready, htime, hignores, hcharges, hrun, hspent, hpos⟩ := hrun
  obtain ⟨m, hm⟩ := ok_of_run hready hrun
  have hfinal : l.final c m₀ = m := by rw [final, hm]; rfl
  have hready' : ready s.registry env' h clock
      = some (c, m₀.withMeter ⟨env', budget, 0⟩) := by
    obtain ⟨cost, allowance, -, hallowance, rfl, rfl⟩ := ready_eq_some hready
    have hallowance' : Run.allowance env' h = .ok allowance := by
      rw [← hallowance, Run.allowance, Run.allowance,
        Dict.get?_eq_of_erase_eq henv (show "gen_block" ≠ "txcost" by decide),
        Dict.get?_eq_of_erase_eq henv (show "time_limit" ≠ "txcost" by decide)]
    rw [ready, hbudget, hallowance']
    rfl
  have hm₀ : m₀.frames = [] ∧ m₀.env = env ∧ m₀.ticks = 0 ∧ c.registry = s.registry := by
    obtain ⟨cost, allowance, -, -, rfl, rfl⟩ := ready_eq_some hready
    exact ⟨rfl, rfl, rfl, rfl⟩
  -- Both runs start alike but for their budgets, and the gap between these stays as it is.
  have hcounter := Run.inCounter_budget hbudget
  have htwin : Twin (budget - m₀.cost) m₀ ⟨env', budget, 0⟩ :=
    ⟨by rw [hm₀.2.1]; exact henv.symm, by change budget = _; omega, hm₀.2.2.1.symm,
      (inCounter_of_ready hready).2, hcounter.2⟩
  rw [hfinal] at hspent
  rcases hignores.run htime (hm₀.2.2.2 ▸ hs.clean) hm₀.1 hcharges hm htwin with
    ⟨μ, hm', hμ, hpaid⟩ | ⟨⟨e, m₂, hm₂, hstop⟩, hover⟩
  · have hcost := hμ.cost
    have hleft : 0 < μ.cost := hpaid.resolve_left fun h => by omega
    refine ⟨fun hlt => ?_, fun hle => by omega⟩
    rw [run_of_ok hready hm] at hrun ⊢
    rw [run_of_ok hready' hm', hideCost_settle, hideCost_settle]
    refine ⟨hrun, rfl, hμ.env.symm, Int64.ofInt μ.cost, ?_, ?_⟩
    · rw [Run.settle, Dict.get?_insert, if_pos rfl]
      rfl
    · rw [toInt_ofInt ⟨by omega, hμ.bounds.2⟩]
      omega
  · refine ⟨fun hlt => by omega, fun _ hfits => ?_⟩
    cases hstop with
    | limit => exact run_of_fault hready' hm₂
    | overflow k hhead hlow =>
      -- the counter can hold what the first charge leaves
      have hge := (hfits k hhead).1
      have hlow : budget - k.amount c.limits < _ := hlow
      omega

/-! ### An example -/

/-- Whether neither the code of a registry nor its extensions, which only call contracts, ask for
the cost that is left. -/
def neverAsks (r : Registry) : Bool :=
  r.offersOnly (fun e => e.callsContract && !e.auto.contains "txcost") &&
    r.arena.toList.all fun b => b.code.toList.all fun i => !i.op.reads.contains "txcost"

/-- A run ignores the cost if nothing in the registry asks for it. -/
theorem ignoresCost_of_neverAsks (hasks : neverAsks c.registry = true) : l.IgnoresCost c m₀ := by
  rw [neverAsks, Bool.and_eq_true] at hasks
  refine .of_registry (fun id i hi => ?_) fun e he => ?_
  · rcases c.registry.arena.block_mem_or id with hmem | hempty
    · have hall := List.all_eq_true.1 (List.all_eq_true.1 hasks.2 _ hmem) i
        (Array.mem_toList_iff.2 hi)
      simpa using hall
    · rw [Registry.block, hempty] at hi
      exact absurd hi (Array.not_mem_empty i)
  · have hpass := Registry.offersOnly_sound hasks.1 he
    rw [Bool.and_eq_true] at hpass
    exact ⟨by simpa using hpass.2, fun run hrun => absurd hrun (e.behaviour_ne_host hpass.1 run)⟩

/-- The environment of the example with a budget. -/
def hostBudget (n : Int64) : Dict Value := hostEnv.insert "txcost" (.int n)

/-- Two nested calls spend 231: a budget of 232 leaves 1, and one of 231 is used up. -/
theorem nested_calls_budget_threshold :
    nestedCalls.Reachable ∧ nestedCalls.registry.limits = {} ∧
      (func 5 []).IgnoresCost { registry := nestedCalls.registry } hostMachine ∧
      (∀ k ∈ (func 5 []).charges { registry := nestedCalls.registry } hostMachine,
        0 ≤ k.amount nestedCalls.registry.limits) ∧
      (231 : Int) = hostMachine.cost
        - ((func 5 []).final { registry := nestedCalls.registry } hostMachine).cost ∧
      ∃ results,
        ((func 5 []).run nestedCalls.registry hostEnv .empty fun _ => 0).result = .ok results ∧
        ((func 5 []).run nestedCalls.registry (hostBudget 232) .empty fun _ => 0).result
          = .ok results ∧
        ((func 5 []).run nestedCalls.registry (hostBudget 232) .empty fun _ => 0).env.get? "txcost"
          = some (.int 1) ∧
        ∃ e, ((func 5 []).run nestedCalls.registry (hostBudget 231) .empty fun _ => 0).result
          = .error e ∧ e.fault = .costLimit := by
  have hreachable : nestedCalls.Reachable := reachable_callingSession _
  obtain ⟨hlimits, hasks, hfirst, hnonneg, hspent, hok⟩ : nestedCalls.registry.limits = {} ∧
      neverAsks nestedCalls.registry = true ∧
      ((func 5 []).charges { registry := nestedCalls.registry } hostMachine).head?
        = some .instruction ∧
      ((func 5 []).charges { registry := nestedCalls.registry } hostMachine).all
        (fun k => decide (0 ≤ k.amount {})) = true ∧
      (231 : Int) = hostMachine.cost
        - ((func 5 []).final { registry := nestedCalls.registry } hostMachine).cost ∧
      ((func 5 []).run nestedCalls.registry hostEnv .empty fun _ => 0).result.isOk = true := by
    simp only [nestedCalls, callingSession, Session.perform_compile, String.toList_append,
      String.reduceToList]
    decide +kernel
  -- from here on the compiled text does not matter
  generalize nestedCalls = s at hreachable hlimits hasks hfirst hnonneg hspent hok ⊢
  have hcharges : ∀ k ∈ (func 5 []).charges { registry := s.registry } hostMachine,
      0 ≤ k.amount s.registry.limits := by
    intro k hk
    rw [hlimits]
    simpa using List.all_eq_true.1 hnonneg k hk
  have hignores : (func 5 []).IgnoresCost { registry := s.registry } hostMachine :=
    ignoresCost_of_neverAsks hasks
  have hbudget : ∀ n, Run.budget s.registry (hostBudget n) .empty = .ok n.toInt := by
    intro n
    rw [Run.budget, hostBudget, Dict.get?_insert, if_pos rfl]
    rfl
  obtain ⟨results, hresults⟩ : ∃ results,
      ((func 5 []).run s.registry hostEnv .empty fun _ => 0).result = .ok results := by
    cases hresult : ((func 5 []).run s.registry hostEnv .empty fun _ => 0).result with
    | ok results => exact ⟨results, rfl⟩
    | error e =>
      rw [hresult] at hok
      cases hok
  have hspends : (func 5 []).Spends s.registry hostEnv .empty (fun _ => 0)
      { registry := s.registry } hostMachine results 231 :=
    ⟨ready_hostEnv hlimits, rfl, hignores, hcharges, hresults, hspent, by decide⟩
  have hthreshold := fun n =>
    run_budget_threshold hreachable hspends (hostBudget n) (Dict.erase_insert_self ..) (hbudget n)
  obtain ⟨hsame, -, -, n, hleft, hn⟩ := (hthreshold 232).1 (by decide)
  obtain rfl : n = 1 := by
    rw [← Int64.ofInt_toInt n, hn]
    rfl
  refine ⟨hreachable, hlimits, hignores, hcharges, hspent, results, hresults, hsame, hleft,
    (hthreshold 231).2 (by decide) fun k hk => ?_⟩
  cases hfirst.symm.trans hk
  exact (by decide : InCounter (230 : Int))

/-- **With the least budget the counter overflows**: the first instruction cannot be paid for, and
the run breaks off instead of failing at the limit. -/
theorem least_budget_panics : ∃ e,
    ((func 5 []).run nestedCalls.registry (hostBudget (-9223372036854775808)) .empty
      fun _ => 0).result
      = .error e ∧ e.fault = .runtimePanic := by
  refine Outcome.error_of_failsWith ?_
  simp only [nestedCalls, callingSession, Session.perform_compile, String.toList_append,
    String.reduceToList]
  decide +kernel

end Launch

end Covenant
