import Covenant.Proofs.Machine.Charges
import Covenant.Proofs.Machine.SystemVariables
import Mathlib.Tactic.Ring

/-!
# Exact metering

The bill of a whole run is made of the bills of its steps. What is left of the budget behind a run,
whether it fails or not, is the budget less the sum of the bill (`Launch.metered_run`).

If nothing on the bill is negative, the cost never rises and falls with every instruction. The
budget then bounds the run. An instruction pays for the frames that it adds, so that the `potential`
of a machine, six times the cost that is left and a weight for each frame, falls with every step.
Hence a run ends before the steps that it is given are used up, and more of them would change
nothing.
-/

namespace Covenant

open Exec Charge

/-! ### The bill of a run -/

namespace Exec

variable {c : Context}

/-- The bill of the steps of a run. -/
def loopBill (c : Context) : Nat → Machine → List Charge
  | 0, _ => []
  | fuel + 1, m =>
    match m.frames with
    | [] => []
    | _ => stepBill c m ++ Bill.after (step c) (fun _ => loopBill c fuel) m

theorem loopBill_nil (fuel : Nat) {m : Machine} (h : m.frames = []) : loopBill c fuel m = [] := by
  cases fuel with
  | zero => rfl
  | succ fuel => rw [loopBill, h]

theorem loopBill_succ (fuel : Nat) {m : Machine} (h : m.frames ≠ []) :
    loopBill c (fuel + 1) m
      = stepBill c m ++ Bill.after (step c) (fun _ => loopBill c fuel) m := by
  rw [loopBill]
  cases hframes : m.frames with
  | nil => exact absurd hframes h
  | cons f fs => rfl

/-- A run of some steps pays the bill of each, one after the other. -/
theorem metered_loop (hsteady : ∀ e, c.registry.Offers e → e.Steady) (fuel : Nat) :
    Metered c.limits (loopBill c fuel) (loop c fuel) := by
  induction fuel with
  | zero =>
    refine .bind_free .get fun m => ?_
    split
    · exact (Blind.pure ()).metered
    · exact (Plain.fail _).blind.metered
  | succ fuel ih =>
    intro m
    by_cases h : m.frames = []
    · rw [loop_nil _ h, loopBill_nil _ h]
      exact (Blind.pure ()).metered m
    · rw [loop_succ _ h, loopBill_succ _ h]
      exact (metered_step hsteady).bind (fun _ => ih) m

end Exec

namespace Launch

/-- The bill of the start of a run. -/
def startBill (c : Context) : Launch → Bill
  | func _ _ => fun _ => []
  | contract state name params => contractBill c (.inState state name params)

/-- The bill of a run. -/
def bill (l : Launch) (c : Context) (fuel : Nat) : Bill := fun m =>
  l.startBill c m ++ Bill.after (l.start c) (fun _ => loopBill c fuel) m

variable {c : Context}

theorem metered_start (l : Launch) (c : Context) :
    Metered c.limits (l.startBill c) (l.start c) := by
  cases l with
  | func id params => exact (blind_start c id params .entry).metered
  | contract state name params => exact metered_callContract c _ _ _ _

/-- **A run agrees with its bill.** -/
theorem metered_run (hsteady : ∀ e, c.registry.Offers e → e.Steady) (l : Launch) (fuel : Nat) :
    Metered c.limits (l.bill c fuel) (do l.start c; Exec.loop c fuel) :=
  (l.metered_start c).bind fun _ => metered_loop hsteady fuel

end Launch

/-! ### Charges of calls -/

/-- Whether a charge is one for a call. What the host asks for is what it has set for the name. -/
def Charge.IsCall (c : Context) : Charge → Prop
  | instruction => False
  | surcharge n => ∃ name, c.registry.extensionCost name = some n
  | price n => ∃ name, c.registry.contractPrice name = some n
  | _ => True

namespace Exec

variable {c : Context}

theorem mem_after {α : Type} {x : Exec α} {b : α → Bill} {m : Machine} {P : Charge → Prop}
    (h : ∀ a m', ∀ k ∈ b a m', P k) : ∀ k ∈ Bill.after x b m, P k := by
  unfold Bill.after
  split
  · exact h _ _
  · exact fun k hk => absurd hk List.not_mem_nil

/-- What is attempted is among the charges. -/
theorem mem_of_mem_attempted {limits : Limits} {cost : Int} {k : Charge} {ks : List Charge}
    (h : k ∈ attempted limits cost ks) : k ∈ ks := by
  induction ks generalizing cost with
  | nil => exact h
  | cons k' ks ih =>
    rw [attempted] at h
    rcases List.mem_cons.1 h with rfl | h
    · exact List.mem_cons_self ..
    · split at h
      · exact List.mem_cons_of_mem _ (ih h)
      · exact absurd h List.not_mem_nil

/-- The charges for the results of a host are those of a call. -/
theorem isCall_queryCharges (e : Extension) (results : List Value) (h : Heap) :
    ∀ k ∈ queryCharges e results h, k.IsCall c := by
  intro k hk
  unfold queryCharges at hk
  split at hk
  · split at hk
    · rw [List.mem_singleton.1 hk]
      trivial
    · exact absurd hk List.not_mem_nil
  · exact absurd hk List.not_mem_nil

theorem isCall_contractBill (q : Request) (m : Machine) : ∀ k ∈ contractBill c q m, k.IsCall c := by
  refine mem_after fun _ _ k hk => ?_
  rcases List.mem_cons.1 (mem_of_mem_attempted hk) with rfl | hk
  · trivial
  · obtain ⟨n, hn, rfl⟩ := List.mem_map.1 (Option.toList_map .. ▸ hk)
    exact ⟨q.name, Option.mem_toList.1 hn⟩

/-- So are all charges for an extension. -/
theorem isCall_extensionBill (e : Extension) (count : Option Nat) (m : Machine) :
    ∀ k ∈ extensionBill c e count m, k.IsCall c := by
  refine mem_after fun args m₁ k hk => ?_
  rcases List.mem_append.1 hk with hk | hk
  · rcases List.mem_cons.1 (mem_of_mem_attempted hk) with rfl | hk
    · trivial
    · obtain ⟨n, hn, rfl⟩ := List.mem_map.1 (Option.toList_map .. ▸ hk)
      exact ⟨e.name, Option.mem_toList.1 hn⟩
  · refine mem_after (fun _ m₂ => mem_after fun _ m₃ k hk => ?_) k hk
    unfold behaveBill at hk
    split at hk
    · dsimp only at hk
      unfold replyCharges at hk
      split at hk
      · exact isCall_queryCharges _ _ _ k hk
      · exact absurd hk List.not_mem_nil
    · split at hk
      · exact isCall_contractBill _ _ k hk
      · exact absurd hk List.not_mem_nil

/-- What an instruction is charged with is for calls. -/
theorem isCall_opBill (op : Op) (m : Machine) : ∀ k ∈ opBill c op m, k.IsCall c := by
  have hnil : ∀ k ∈ ([] : List Charge), k.IsCall c := fun k hk => absurd hk List.not_mem_nil
  have hcall : ∀ id count m, ∀ k ∈ callBill c id count m, k.IsCall c := fun id count m =>
    mem_after fun _ _ k hk => by rw [List.mem_singleton.1 hk]; trivial
  unfold opBill
  split
  · rename_i name
    refine mem_after fun count m => ?_
    rcases c.registry.objects.get? name with _ | (_ | _ | e | _ | _)
    case some.ext => exact isCall_extensionBill e _ m
    all_goals exact hnil
  · exact hcall _ _ m
  · exact isCall_extensionBill _ _ m
  · exact mem_after fun _ _ => hcall _ _ _
  · exact mem_after fun _ _ => isCall_extensionBill _ _ _
  · exact hnil

/-- A step is charged for calls only, or for one instruction and calls behind it. -/
theorem stepBill_cases (c : Context) (m : Machine) :
    (∀ k ∈ stepBill c m, k.IsCall c) ∨
      ∃ ks, stepBill c m = .instruction :: ks ∧ ∀ k ∈ ks, k.IsCall c := by
  have hnil : ∀ k ∈ ([] : List Charge), k.IsCall c := fun k hk => absurd hk List.not_mem_nil
  unfold stepBill
  split
  · exact .inl hnil
  · split
    · exact .inl (isCall_queryCharges _ _ _)
    · exact .inl hnil
  · split
    · exact .inl hnil
    · split
      · exact .inl hnil
      · exact .inr ⟨_, rfl, mem_after fun _ => isCall_opBill _⟩

end Exec

namespace Charge

variable {c : Context} {limits : Limits} {ks : List Charge}

/-- Charges for calls are no charges for instructions. -/
theorem count_instruction_of_isCall (h : ∀ k ∈ ks, k.IsCall c) : ks.count .instruction = 0 :=
  List.count_eq_zero.2 fun hmem => h .instruction hmem

/-- What is not negative sums up to at least the number of instructions. -/
theorem count_le_total (h : ∀ k ∈ ks, 0 ≤ k.amount limits) :
    (ks.count .instruction : Int) ≤ total limits ks := by
  induction ks with
  | nil => exact Int.le_refl 0
  | cons k ks ih =>
    obtain ⟨hk, hrest⟩ := List.forall_mem_cons.1 h
    have hks := ih hrest
    rw [total_cons, List.count_cons]
    split
    · rename_i heq
      have hone : k.amount limits = 1 := by
        rw [eq_of_beq heq]
        rfl
      omega
    · omega

end Charge

/-! ### The potential -/

/-- How many steps a frame takes to end without running instructions: one for a block, and for a
contract also one for the start and one for the end of each section. -/
def Frame.weight : Frame → Nat
  | .block _ => 1
  | .contract k => 2 * k.sections.length + 1

theorem Frame.weight_bare (f : Frame) : f.bare.weight = f.weight := by
  cases f <;> rfl

namespace Machine

/-- The weight of all active frames. -/
def weight (m : Machine) : Nat := (m.frames.map Frame.weight).sum

/-- What bounds the steps that a machine can still make. -/
def potential (m : Machine) : Nat := m.weight + 6 * m.cost.toNat

theorem weight_eq (m : Machine) : m.weight = (m.outline.map Frame.weight).sum := by
  rw [outline, List.map_map, weight]
  exact congrArg (fun f => (m.frames.map f).sum) (funext fun f => (Frame.weight_bare f).symm)

/-- A machine with frames has some weight. -/
theorem weight_pos {m : Machine} (h : m.frames ≠ []) : 0 < m.weight := by
  obtain ⟨f, fs, hframes⟩ := List.exists_cons_of_ne_nil h
  have hf : 0 < f.weight := by
    cases f with
    | block a => exact Nat.one_pos
    | contract k => exact Nat.succ_pos _
  rw [weight, hframes, List.map_cons, List.sum_cons]
  omega

end Machine

section

variable {c : Context} {m m' : Machine}

theorem length_sectionsOf_le (b : Block) : (sectionsOf b).length ≤ 2 :=
  List.length_filterMap_le ..

/-- An instruction adds at most one contract with two sections. -/
theorem Shift.weight_le {op : Op} {a : Activation} {rest fs : List Frame}
    (h : Shift c op a rest fs) :
    (fs.map Frame.weight).sum ≤ ((Frame.block a :: rest).map Frame.weight).sum + 5 := by
  cases h with
  | stay => exact Nat.le_add_right ..
  | aim ts _ =>
    simp only [List.map_cons, List.sum_cons, Frame.weight]
    omega
  | enter b _ _ =>
    simp only [List.map_cons, List.sum_cons, Frame.weight]
    omega
  | leave =>
    simp only [List.map_cons, List.sum_cons, Frame.weight]
    omega
  | call k id hsections _ =>
    have hlength := length_sectionsOf_le (c.block id)
    simp only [List.map_cons, List.sum_cons, Frame.weight, hsections]
    omega

/-- A step takes off weight, or starts an instruction. -/
theorem Turn.weight_lt (h : Turn c m m') :
    m'.weight < m.weight ∨ m'.weight ≤ m.weight + 5 ∧ .instruction ∈ stepBill c m := by
  rw [m.weight_eq, m'.weight_eq, Machine.outline.eq_1 m]
  cases h with
  | instruction a rest i hframes hending hcode hshift =>
    refine .inr ⟨?_, ?_⟩
    · rw [hframes]
      exact hshift.weight_le
    · rw [stepBill, hframes]
      simp only [hending, hcode]
      exact List.mem_cons_self ..
  | leave a rest hframes _ houtline =>
    rw [hframes, houtline]
    simp [Frame.weight, Frame.bare]
  | «section» k rest s ss b hframes hsections _ _ houtline =>
    rw [hframes, houtline]
    simp only [List.map_cons, List.sum_cons, Frame.weight, Frame.bare, hsections, List.length_cons]
    omega
  | finish k rest hframes _ houtline =>
    rw [hframes, houtline]
    simp [Frame.weight, Frame.bare]

/-- **The potential falls with every step**, if nothing on its bill is negative. -/
theorem Exec.step_potential (hsteady : ∀ e, c.registry.Offers e → e.Steady)
    (hbill : ∀ k ∈ stepBill c m, 0 ≤ k.amount c.limits) (hm : m.frames ≠ [])
    (h : step c m = .ok () m') : m'.potential < m.potential := by
  have hcharged := metered_step hsteady m
  rw [h] at hcharged
  have hcost := hcharged.ok.2
  have htotal := count_le_total hbill
  unfold Machine.potential
  rcases (step_turn h hm).weight_lt with hweight | ⟨hweight, hmem⟩
  · omega
  · have hcount : 0 < (stepBill c m).count .instruction := List.count_pos_iff.2 hmem
    have hpos : 0 < m'.cost := (hcharged.paid () m' rfl).resolve_left (List.ne_nil_of_mem hmem)
    omega

/-- More steps than the potential allows for change nothing. -/
theorem Exec.loop_stable (hsteady : ∀ e, c.registry.Offers e → e.Steady) {fuel fuel' : Nat}
    (hbill : ∀ k ∈ loopBill c fuel m, 0 ≤ k.amount c.limits) (hm : m.potential ≤ fuel)
    (h : fuel ≤ fuel') : loop c fuel' m = loop c fuel m := by
  induction fuel generalizing m fuel' with
  | zero =>
    -- Without potential there is no frame left to run.
    have hframes : m.frames = [] := by
      by_contra hne
      have hweight := Machine.weight_pos hne
      unfold Machine.potential at hm
      omega
    rw [loop_nil _ hframes, loop_nil _ hframes]
  | succ fuel ih =>
    by_cases hframes : m.frames = []
    · rw [loop_nil _ hframes, loop_nil _ hframes]
    · obtain ⟨fuel', rfl⟩ : ∃ n, fuel' = n + 1 := ⟨fuel' - 1, by omega⟩
      rw [loopBill_succ _ hframes] at hbill
      obtain ⟨hstep, hrest⟩ := List.forall_mem_append.1 hbill
      rw [loop_succ _ hframes, loop_succ _ hframes]
      change EStateM.bind (step c) _ m = EStateM.bind (step c) _ m
      rw [EStateM.bind, EStateM.bind]
      rw [Bill.after] at hrest
      cases hr : step c m with
      | error e m₁ => rfl
      | ok u m₁ =>
        rw [hr] at hrest
        have hpotential := step_potential hsteady hstep hframes hr
        exact ih hrest (by omega) (by omega)

end

/-! ### Runs -/

section

variable {c : Context} {l : Launch} {m₀ m : Machine} {q : Option Request}
  {r : EStateM.Result Stop Machine Unit} {fuel : Nat}

/-- A run starts with one block or one contract. -/
theorem Launch.start_weight_le {m' : Machine} (h : l.start c m = .ok () m') :
    m'.weight ≤ m.weight + 5 := by
  rw [m.weight_eq, m'.weight_eq]
  cases l with
  | func id params =>
    obtain ⟨b, -, -, houtline⟩ := outline_start (show Exec.start c id params .entry m = _ from h)
    rw [houtline]
    simp only [List.map_cons, List.sum_cons, Frame.weight]
    omega
  | contract state name params =>
    obtain ⟨k, id, hsections, -, houtline, -⟩ := outline_callContract h
    have hlength := length_sectionsOf_le (c.block id)
    rw [houtline]
    simp only [List.map_cons, List.sum_cons, Frame.weight, hsections]
    omega

/-- A run starts with fewer steps to make than it is given. -/
theorem Launch.start_covered (hbill : ∀ k ∈ l.bill c fuel m₀, 0 ≤ k.amount c.limits)
    (hm₀ : m₀.frames = []) (hfuel : 6 * m₀.cost.toNat + 5 ≤ fuel) {m' : Machine}
    (h : l.start c m₀ = .ok () m') :
    m'.potential ≤ fuel ∧ ∀ k ∈ loopBill c fuel m', 0 ≤ k.amount c.limits := by
  obtain ⟨hstart, hrest⟩ := List.forall_mem_append.1 hbill
  constructor
  · have hweight := Launch.start_weight_le h
    have hweight₀ : m₀.weight = 0 := by
      rw [Machine.weight, hm₀]
      rfl
    have hcharged := l.metered_start c m₀
    rw [h] at hcharged
    have hcost := hcharged.ok.2
    have htotal := count_le_total hstart
    unfold Machine.potential
    omega
  · rw [Bill.after, h] at hrest
    exact hrest

/-- **Every transition agrees with a part of the run's bill**, and the steps that are left suffice
for what follows it. -/
theorem Transition.charged (hsteady : ∀ e, c.registry.Offers e → e.Steady)
    (hbill : ∀ k ∈ l.bill c fuel m₀, 0 ≤ k.amount c.limits) (hm₀ : m₀.frames = [])
    (hfuel : 6 * m₀.cost.toNat + 5 ≤ fuel) (h : Transition c l m₀ m q r) :
    (∃ ks, Charged c.limits ks m r ∧ ks.count .instruction ≤ 1 ∧
        ∀ k ∈ ks, 0 ≤ k.amount c.limits) ∧
      ∀ m', r = .ok () m' → ∃ left, m'.potential ≤ left ∧
        ∀ k ∈ loopBill c left m', 0 ≤ k.amount c.limits := by
  induction h with
  | start =>
    obtain ⟨hstart, -⟩ := List.forall_mem_append.1 hbill
    refine ⟨⟨_, l.metered_start c m₀, ?_, hstart⟩, fun m' hm' =>
      ⟨fuel, Launch.start_covered hbill hm₀ hfuel hm'⟩⟩
    cases l with
    | func id params => exact Nat.zero_le _
    | contract state name params =>
      rw [Launch.startBill, count_instruction_of_isCall (isCall_contractBill _ m₀)]
      exact Nat.zero_le _
  | @step m m' q _ hframes ih =>
    obtain ⟨left, hleft, hloop⟩ := ih.2 m' rfl
    -- The bill of the loop still covers one step as there is a frame to run.
    obtain ⟨n, rfl⟩ : ∃ n, left = n + 1 := by
      have hweight := Machine.weight_pos hframes
      unfold Machine.potential at hleft
      exact ⟨left - 1, by omega⟩
    rw [loopBill_succ _ hframes] at hloop
    obtain ⟨hstep, hrest⟩ := List.forall_mem_append.1 hloop
    refine ⟨⟨_, metered_step hsteady m', ?_, hstep⟩, fun m'' hm'' => ⟨n, ?_, ?_⟩⟩
    · rcases stepBill_cases c m' with hcalls | ⟨ks, hks, hcalls⟩
      · rw [count_instruction_of_isCall hcalls]
        exact Nat.zero_le _
      · rw [hks, List.count_cons_self, count_instruction_of_isCall hcalls]
    · have hpotential := step_potential hsteady hstep hframes hm''
      omega
    · rw [Bill.after, hm''] at hrest
      exact hrest

/-- **The budget bounds the instructions of a run.** -/
theorem Transition.ticks_le (hsteady : ∀ e, c.registry.Offers e → e.Steady)
    (hbill : ∀ k ∈ l.bill c fuel m₀, 0 ≤ k.amount c.limits) (hm₀ : m₀.frames = [])
    (hticks₀ : m₀.ticks = 0) (hfuel : 6 * m₀.cost.toNat + 5 ≤ fuel)
    (h : Transition c l m₀ m q r) : ((left r).ticks : Int) ≤ max m₀.cost 1 ∧
      ∀ m', r = .ok () m' → m'.cost + m'.ticks ≤ m₀.cost ∧ (m'.ticks = 0 ∨ 0 < m'.cost) := by
  have hcharged := fun {m q r} (h : Transition c l m₀ m q r) =>
    (h.charged hsteady hbill hm₀ hfuel).1
  -- what a transition does to the two counters
  have hnext : ∀ {m q r}, Transition c l m₀ m q r → m.cost + m.ticks ≤ m₀.cost →
      (m.ticks = 0 ∨ 0 < m.cost) → ((left r).ticks : Int) ≤ max m₀.cost 1 ∧
        ∀ m', r = .ok () m' → m'.cost + m'.ticks ≤ m₀.cost ∧ (m'.ticks = 0 ∨ 0 < m'.cost) := by
    intro m q r h hsum hpos
    obtain ⟨ks, hpart, hone, hks⟩ := hcharged h
    have htotal := count_le_total hks
    have hticks := hpart.ticks
    refine ⟨by omega, fun m' hm' => ?_⟩
    rw [hm'] at hpart hticks
    have hcost := hpart.ok.2
    have hticks' : m'.ticks = m.ticks + ks.count .instruction := hticks
    refine ⟨by omega, ?_⟩
    rcases hpart.paid () m' rfl with rfl | hleft
    · simp only [total_nil, List.count_nil] at hcost hticks'
      omega
    · exact .inr hleft
  induction h with
  | start => exact hnext .start (by omega) (.inl hticks₀)
  | @step m m' q hlast hframes ih =>
    obtain ⟨hsum, hpos⟩ := ih.2 m' rfl
    exact hnext (.step hlast hframes) hsum hpos

end

namespace Charge

/-- What the host asked for calls of extensions. -/
def surcharges (ks : List Charge) : Int := (ks.map fun k => match k with
  | surcharge n => n
  | _ => 0).sum

/-- What queries reported. -/
def queries (ks : List Charge) : Int := (ks.map fun k => match k with
  | query n => n
  | _ => 0).sum

/-- The prices of contracts. -/
def prices (ks : List Charge) : Int := (ks.map fun k => match k with
  | price n => n
  | _ => 0).sum

/-- The sum of a bill by what it is for. -/
theorem total_eq (limits : Limits) (ks : List Charge) :
    total limits ks = ks.count .instruction + limits.costCall * ks.count .function
      + (limits.costExtend * ks.count .extension + surcharges ks) + queries ks
      + (limits.costContract * ks.count .contract + prices ks) := by
  induction ks with
  | nil => simp [surcharges, queries, prices]
  | cons k ks ih =>
    rw [total_cons, ih]
    cases k <;> simp [amount, surcharges, queries, prices] <;> ring

end Charge

/-- Whether calls cost nothing negative in a registry. -/
structure Registry.NonNegative (r : Registry) : Prop where
  costCall : 0 ≤ r.limits.costCall
  costExtend : 0 ≤ r.limits.costExtend
  costContract : 0 ≤ r.limits.costContract
  extensionCost : ∀ name n, r.extensionCost name = some n → 0 ≤ n
  contractPrice : ∀ name n, r.contractPrice name = some n → 0 ≤ n

/-- No charge is negative if no price of the registry is. -/
theorem Charge.amount_nonneg {c : Context} (hr : c.registry.NonNegative) {k : Charge}
    (hk : k = .instruction ∨ k.IsCall c) (hquery : ∀ n, k = .query n → 0 ≤ n) :
    0 ≤ k.amount c.limits := by
  cases k with
  | instruction => exact Int.one_nonneg
  | function => exact hr.costCall
  | extension => exact hr.costExtend
  | contract => exact hr.costContract
  | query n => exact hquery n rfl
  | surcharge n =>
    obtain ⟨name, hname⟩ := hk.resolve_left (by simp)
    exact hr.extensionCost name n hname
  | price n =>
    obtain ⟨name, hname⟩ := hk.resolve_left (by simp)
    exact hr.contractPrice name n hname

namespace Launch

/-- Everything on the bill of a run is an instruction or a call. -/
theorem isCall_bill (l : Launch) (c : Context) (fuel : Nat) (m : Machine) :
    ∀ k ∈ l.bill c fuel m, k = .instruction ∨ k.IsCall c := by
  have hstep : ∀ m, ∀ k ∈ stepBill c m, k = .instruction ∨ k.IsCall c := by
    intro m k hk
    rcases stepBill_cases c m with hcalls | ⟨ks, hks, hcalls⟩
    · exact .inr (hcalls k hk)
    · rw [hks] at hk
      exact (List.mem_cons.1 hk).imp_right (hcalls k)
  have hloop : ∀ fuel m, ∀ k ∈ loopBill c fuel m, k = .instruction ∨ k.IsCall c := by
    intro fuel
    induction fuel with
    | zero => exact fun m k hk => absurd hk List.not_mem_nil
    | succ fuel ih =>
      intro m
      by_cases hframes : m.frames = []
      · rw [loopBill_nil _ hframes]
        exact fun k hk => absurd hk List.not_mem_nil
      · rw [loopBill_succ _ hframes]
        exact List.forall_mem_append.2 ⟨hstep m, mem_after fun _ => ih⟩
  refine List.forall_mem_append.2 ⟨fun k hk => .inr ?_, mem_after fun _ => hloop fuel⟩
  cases l with
  | func id params => exact absurd hk List.not_mem_nil
  | contract state name params => exact isCall_contractBill _ m k hk

/-- The context of a run in an environment and the machine it starts with, which has all of the
budget; nothing if the budget or the time that the run may take is no number. -/
def ready (r : Registry) (env : Dict Value) (h : Heap) (clock : Nat → Nat) :
    Option (Context × Machine) :=
  match Run.budget r env h, Run.allowance env h with
  | .ok cost, .ok allowance =>
    some ({ registry := r, allowance := allowance, clock := clock },
      { heap := h, env := env, cost := cost })
  | _, _ => none

/-- The machine that a run ends with. -/
def final (l : Launch) (c : Context) (m₀ : Machine) : Machine :=
  left ((do l.start c; Exec.loop c (Run.fuel m₀.cost) : Exec Unit) m₀)

/-- All charges of a run. -/
def charges (l : Launch) (c : Context) (m₀ : Machine) : List Charge :=
  l.bill c (Run.fuel m₀.cost) m₀

/-- What a run that is ready starts with. -/
theorem ready_eq_some {r : Registry} {env : Dict Value} {h : Heap} {clock : Nat → Nat} {c : Context}
    {m₀ : Machine} (hready : ready r env h clock = some (c, m₀)) :
    ∃ cost allowance, Run.budget r env h = .ok cost ∧ Run.allowance env h = .ok allowance ∧
      c = { registry := r, allowance := allowance, clock := clock } ∧
      m₀ = { heap := h, env := env, cost := cost } := by
  unfold ready at hready
  split at hready
  · rename_i cost allowance hbudget hallowance
    cases hready
    exact ⟨cost, allowance, hbudget, hallowance, rfl, rfl⟩
  · cases hready

theorem toInt_ofInt {n : Int} (h : InCounter n) : (Int64.ofInt n).toInt = n :=
  Int64.toInt_ofInt_of_le h.1 (Int.lt_of_le_of_lt h.2 (by decide))

theorem inCounter_of_ready {r : Registry} {env : Dict Value} {h : Heap} {clock : Nat → Nat}
    {c : Context} {m₀ : Machine} (hready : ready r env h clock = some (c, m₀)) :
    InCounter m₀.cost := by
  obtain ⟨cost, allowance, hbudget, -, -, rfl⟩ := ready_eq_some hready
  exact Run.inCounter_budget hbudget

/-- A run leaves the cost of its last machine in the environment. -/
theorem get?_txcost_run {r : Registry} {env : Dict Value} {h : Heap} {clock : Nat → Nat}
    {c : Context} {m₀ : Machine} (hready : ready r env h clock = some (c, m₀)) (l : Launch) :
    (l.run r env h clock).env.get? "txcost" = some (.int (Int64.ofInt (l.final c m₀).cost)) := by
  obtain ⟨cost, allowance, hbudget, hallowance, rfl, rfl⟩ := ready_eq_some hready
  have hsettle : ∀ (e : Dict Value) (n : Int),
      (Run.settle e n).get? "txcost" = some (.int (Int64.ofInt n)) := by
    intro e n
    rw [Run.settle, Dict.get?_insert, if_pos rfl]
  unfold Launch.run Run.execute final
  rw [hbudget, hallowance]
  dsimp only [EStateM.run]
  split
  · rename_i m hend
    rw [hsettle, hend]
    rfl
  · rename_i f m hend
    rw [hsettle, hend, Registry.unwind_snd, Machine.cost_iterate_giveUp]
    rfl
  · rename_i m hend
    rw [hsettle, hend]
    rfl
  · rename_i m hend
    rw [hsettle, hend]
    rfl

/-- A run whose counter overflows reports a panic. -/
theorem run_of_overflow {r : Registry} {env : Dict Value} {h : Heap} {clock : Nat → Nat}
    {c : Context} {m₀ m : Machine} {l : Launch} (hready : ready r env h clock = some (c, m₀))
    (hrun : (do l.start c; Exec.loop c (Run.fuel m₀.cost) : Exec Unit) m₀ = .error .overflow m) :
    (l.run r env h clock).result = .error (.of .runtimePanic) := by
  obtain ⟨cost, allowance, hbudget, hallowance, rfl, rfl⟩ := ready_eq_some hready
  unfold Launch.run Run.execute
  rw [hbudget, hallowance]
  dsimp only [EStateM.run]
  rw [hrun]

/-- Whether the counter for the cost overflows in a run. -/
def overflows (l : Launch) (r : Registry) (env : Dict Value) (h : Heap) (clock : Nat → Nat) :
    Bool :=
  match ready r env h clock with
  | none => false
  | some (c, m₀) =>
    match (do l.start c; Exec.loop c (Run.fuel m₀.cost) : Exec Unit) m₀ with
    | .error .overflow _ => true
    | _ => false

/-- What a run is charged, by what it is for. -/
def owed (l : Launch) (c : Context) (m₀ : Machine) : Int :=
  (l.charges c m₀).count .instruction
    + c.limits.costCall * (l.charges c m₀).count .function
    + (c.limits.costExtend * (l.charges c m₀).count .extension + surcharges (l.charges c m₀))
    + queries (l.charges c m₀)
    + (c.limits.costContract * (l.charges c m₀).count .contract + prices (l.charges c m₀))

/-- What is left behind a run, and what it was charged. -/
structure ExactlyMetered (l : Launch) (r : Registry) (env : Dict Value)
    (h : Heap) (clock : Nat → Nat) (c : Context) (m₀ : Machine) : Prop where
  /-- What is left is handed back. -/
  txcost : ∃ n, (l.run r env h clock).env.get? "txcost" = some (.int n) ∧
    n.toInt = (l.final c m₀).cost
  instructions : (l.final c m₀).ticks = (l.charges c m₀).count .instruction
  /-- What is left is the budget less all charges, as long as the counter can hold it. -/
  rest : Fits c.limits m₀.cost (l.charges c m₀) → (l.final c m₀).cost = m₀.cost - l.owed c m₀
  /-- A counter that cannot hold it breaks the run off. -/
  overflow : ¬ Fits c.limits m₀.cost (l.charges c m₀) →
    (l.run r env h clock).result = .error (.of .runtimePanic)

/-- What the budget means for a run without negative charges. -/
structure BoundedByCost (l : Launch) (c : Context) (m₀ : Machine) : Prop where
  /-- The cost never rises and falls with every instruction. -/
  falls : ∀ m q result, Transition c l m₀ m q result → (∀ m', result ≠ .error .overflow m') →
    (left result).cost ≤ m.cost ∧ (m.ticks < (left result).ticks → (left result).cost < m.cost)
  /-- There are at most as many instructions as the budget, or one. -/
  instructions : (l.final c m₀).ticks ≤ max m₀.cost 1
  /-- The run ends by itself: more steps would change nothing. -/
  ends : ∀ fuel, Run.fuel m₀.cost ≤ fuel → (do l.start c; Exec.loop c fuel : Exec Unit) m₀
    = (do l.start c; Exec.loop c (Run.fuel m₀.cost) : Exec Unit) m₀

/-- A run without negative charges is bounded by its budget. -/
theorem boundedByCost {l : Launch} {c : Context} {m₀ : Machine}
    (hsteady : ∀ e, c.registry.Offers e → e.Steady)
    (hbill : ∀ k ∈ l.charges c m₀, 0 ≤ k.amount c.limits) (hframes : m₀.frames = [])
    (hticks : m₀.ticks = 0) : l.BoundedByCost c m₀ := by
  -- each instruction costs something, so the budget bounds the steps of a run
  have hfuel : 6 * m₀.cost.toNat + 5 ≤ Run.fuel m₀.cost := by
    have hpow : 5 ≤ Number.pow2 60 := by decide
    unfold Run.fuel
    omega
  refine ⟨fun m q result htrans hno => ?_, ?_, fun fuel hle => ?_⟩
  · obtain ⟨⟨ks, hpart, -, hks⟩, -⟩ := htrans.charged hsteady hbill hframes hfuel
    have hcost := (hpart.cost hno).2
    have hcount := hpart.ticks
    have htotal := count_le_total hks
    constructor
    · omega
    · intro hlt
      omega
  · obtain ⟨m, q, result, htrans, hleft⟩ := (l.concludes c m₀ (Run.fuel m₀.cost)).transition
    have hle := (htrans.ticks_le hsteady hbill hframes hticks hfuel).1
    rw [hleft] at hle
    exact hle
  · change EStateM.bind (l.start c) _ m₀ = EStateM.bind (l.start c) _ m₀
    rw [EStateM.bind, EStateM.bind]
    cases hstart : l.start c m₀ with
    | error e m₁ => rfl
    | ok u m₁ =>
      obtain ⟨hpotential, hloop⟩ := Launch.start_covered hbill hframes hfuel hstart
      exact loop_stable hsteady hloop hpotential hle

/-- **Exact metering.** What is left behind a run is its budget less the sum of its charges, whether
it fails or not, unless the counter for the cost overflows. If no charge is negative, the cost never
rises and falls with every instruction, the run has at most as many instructions as the budget, or
one, and it ends by itself. -/
theorem run_exactly_metered {r : Registry} (hsteady : ∀ e, r.Offers e → e.Steady) (l : Launch)
    (env : Dict Value) (h : Heap) (clock : Nat → Nat) {c : Context} {m₀ : Machine}
    (hready : ready r env h clock = some (c, m₀)) :
    l.ExactlyMetered r env h clock c m₀ ∧
      (r.NonNegative → (∀ n, .query n ∈ l.charges c m₀ → 0 ≤ n) → l.BoundedByCost c m₀) := by
  have hcounter := inCounter_of_ready hready
  have htxcost := get?_txcost_run hready l
  have hoverflow := fun m => @run_of_overflow r env h clock c m₀ m l hready
  obtain ⟨cost, allowance, -, -, hc, hm₀⟩ := ready_eq_some hready
  obtain rfl : c.registry = r := by rw [hc]
  have hcharged := l.metered_run hsteady (Run.fuel m₀.cost) m₀
  have hticks₀ : m₀.ticks = 0 := by rw [hm₀]
  have hframes₀ : m₀.frames = [] := by rw [hm₀]
  have hticks := hcharged.ticks
  rw [hticks₀, Nat.zero_add] at hticks
  refine ⟨⟨⟨_, htxcost, toInt_ofInt (hcharged.held hcounter)⟩, hticks, fun hfits => ?_,
    fun hnot => ?_⟩, fun hr hquery => ?_⟩
  · refine (hcharged.fits hfits).trans ?_
    rw [total_eq]
    rfl
  · -- a run that does not overflow has charges that fit
    by_contra hpanics
    refine hnot (hcharged.cost fun m hrun => hpanics (hoverflow m hrun)).1
  · -- nothing that is charged is negative, so the charges so far are at most the total
    exact boundedByCost hsteady (fun k hk => amount_nonneg hr (l.isCall_bill c _ m₀ k hk)
      fun n hn => hquery n (hn ▸ hk)) hframes₀ hticks₀

/-- The counter does not overflow in a run without negative charges whose budget is not negative. -/
theorem charges_fit {l : Launch} {c : Context} {m₀ : Machine}
    (hsteady : ∀ e, c.registry.Offers e → e.Steady)
    (hcharges : ∀ k ∈ l.charges c m₀, 0 ≤ k.amount c.limits ∧
      k.amount c.limits ≤ 9223372036854775807)
    (hcost : 0 ≤ m₀.cost) (hcounter : InCounter m₀.cost) :
    Fits c.limits m₀.cost (l.charges c m₀) :=
  fits_of_attempted (l.metered_run hsteady _ m₀).attempts hcharges ⟨hcost, hcounter.2⟩

/-! ### An example -/

/-- A registry whose host asks something for calls of extensions and for one contract. -/
def priced (r : Registry) : Registry :=
  { r with
    extensionCost := fun _ => some 3
    contractPrice := fun name => if name = "@1A" then some 20 else none }

theorem priced_steady {r : Registry} (h : r.offersContractsOnly = true) :
    ∀ e, (priced r).Offers e → e.Steady :=
  fun e he run hrun => absurd hrun (e.behaviour_ne_host (r.callsContract_of_offers h he) run)

/-- The prices of the example are not negative. -/
theorem priced_nonNegative {r : Registry} (h : r.limits = {}) : (priced r).NonNegative := by
  have hlimits : (priced r).limits = {} := h
  refine ⟨?_, ?_, ?_, fun name n hn => ?_, fun name n hn => ?_⟩
  · rw [hlimits]
    decide
  · rw [hlimits]
    decide
  · rw [hlimits]
    decide
  · cases hn
    decide
  · have hn' : (if name = "@1A" then some 20 else none) = some n := hn
    split at hn'
    · cases hn'
      decide
    · cases hn'

/-- The machine that the example starts with. -/
def hostMachine : Machine := { heap := .empty, env := hostEnv, cost := 10000000 }

/-- The run of the example is ready. -/
theorem ready_hostEnv {r : Registry} (h : r.limits = {}) :
    ready r hostEnv .empty (fun _ => 0) = some ({ registry := r }, hostMachine) := by
  have hcost : hostEnv.get? "txcost" = none := by
    have hnone : (hostEnv.get? "txcost").isNone = true := by decide +kernel
    simpa using hnone
  have htime : hostEnv.get? "gen_block" = none := by
    have hnone : (hostEnv.get? "gen_block").isNone = true := by decide +kernel
    simpa using hnone
  rw [ready, Run.budget, Run.allowance, hcost, htime, h]
  rfl

/-- A function that calls a contract that calls another one: each of the two calls is also one of an
extension, for which the host asks something, and one contract has a price. -/
theorem nested_calls_metered :
    (∀ e, (priced nestedCalls.registry).Offers e → e.Steady) ∧
      (priced nestedCalls.registry).NonNegative ∧
      ready (priced nestedCalls.registry) hostEnv .empty (fun _ => 0)
        = some ({ registry := priced nestedCalls.registry }, hostMachine) ∧
      (func 5 []).charges { registry := priced nestedCalls.registry } hostMachine
        = [.instruction, .instruction, .instruction, .instruction, .extension, .surcharge 3,
          .contract, .instruction, .instruction, .instruction, .instruction, .extension,
          .surcharge 3, .contract, .price 20, .instruction, .instruction, .instruction] ∧
      ((func 5 []).run (priced nestedCalls.registry) hostEnv .empty fun _ => 0).env.get? "txcost"
        = some (.int (Int64.ofInt (10000000 - 257))) ∧
      (∀ m q result, Transition { registry := priced nestedCalls.registry } (func 5 [])
        hostMachine m q result → (∀ m', result ≠ .error .overflow m') →
        (left result).cost ≤ m.cost) ∧
      ((func 5 []).final { registry := priced nestedCalls.registry } hostMachine).ticks
        ≤ max (10000000 : Int) 1 := by
  have honly := nestedCalls_offersContractsOnly
  obtain ⟨hlimits, hcharges⟩ : nestedCalls.registry.limits = {} ∧
      (func 5 []).charges { registry := priced nestedCalls.registry } hostMachine
        = [.instruction, .instruction, .instruction, .instruction, .extension, .surcharge 3,
          .contract, .instruction, .instruction, .instruction, .instruction, .extension,
          .surcharge 3, .contract, .price 20, .instruction, .instruction, .instruction] := by
    simp only [nestedCalls, callingSession, Session.perform_compile, String.toList_append,
      String.reduceToList]
    decide +kernel
  -- from here on the compiled text does not matter
  generalize nestedCalls.registry = r at hlimits honly hcharges ⊢
  have hsteady := priced_steady honly
  have hnonneg := priced_nonNegative hlimits
  have hready := ready_hostEnv (show (priced r).limits = {} from hlimits)
  obtain ⟨hmetered, hbounds⟩ :=
    run_exactly_metered hsteady (func 5 []) hostEnv .empty (fun _ => 0) hready
  have hqueries : ∀ n, .query n ∈ (func 5 []).charges { registry := priced r } hostMachine →
      0 ≤ n := by
    intro n hn
    rw [hcharges] at hn
    simp at hn
  have hbounded := hbounds hnonneg hqueries
  have hpriced : ({ registry := priced r } : Context).limits = {} := hlimits
  have hleft : ((func 5 []).final { registry := priced r } hostMachine).cost
      = 10000000 - 257 := by
    refine (hmetered.rest ?_).trans ?_
    · rw [hcharges, hpriced]
      decide
    · rw [owed, hcharges, hpriced]
      decide
  obtain ⟨n, hcost, hn⟩ := hmetered.txcost
  obtain rfl : n = Int64.ofInt (10000000 - 257) := by
    rw [← Int64.ofInt_toInt n, hn, hleft]
  exact ⟨hsteady, hnonneg, hready, hcharges, hcost, fun m q result h hno =>
    (hbounded.falls m q result h hno).1, hbounded.instructions⟩

/-- A function that calls another one, in a host where a call gives cost back. -/
def refundedCall : Session :=
  { registry := .new { costCall := -10 } Library.contracts : Session }.perform (.compile 1
    "func f \x7b \x7d\nfunc main int \x7b f()\n return 1 \x7d")

/-- An environment with the largest budget. -/
def largestBudget : Dict Value := .ofList [("txcost", .int 9223372036854775807)]

/-- **A call that gives cost back can make the counter overflow**: the run breaks off, and what it
leaves is not its budget less its charges. -/
theorem refund_panics :
    (∃ e, ((func 2 []).run refundedCall.registry largestBudget .empty fun _ => 0).result
      = .error e ∧
      e.fault = .runtimePanic) ∧
    ∃ c m₀, ready refundedCall.registry largestBudget .empty (fun _ => 0) = some (c, m₀) ∧
      ((func 2 []).final c m₀).cost ≠ m₀.cost - (func 2 []).owed c m₀ := by
  obtain ⟨hfails, hready, hleft⟩ :
      ((func 2 []).run refundedCall.registry largestBudget .empty fun _ =>
        0).failsWith .runtimePanic = true ∧
      (ready refundedCall.registry largestBudget .empty fun _ => 0).isSome = true ∧
      (ready refundedCall.registry largestBudget .empty fun _ => 0).all (fun x =>
        ((func 2 []).final x.1 x.2).cost != x.2.cost - (func 2 []).owed x.1 x.2) = true := by
    simp only [refundedCall, Session.perform_compile, String.reduceToList]
    decide +kernel
  obtain ⟨⟨c, m₀⟩, hready⟩ := Option.isSome_iff_exists.1 hready
  rw [hready] at hleft
  exact ⟨Outcome.error_of_failsWith hfails, c, m₀, hready, by simpa using hleft⟩

end Launch

end Covenant
