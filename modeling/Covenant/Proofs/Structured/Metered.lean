import Covenant.Proofs.Computation
import Covenant.Machine.Run
import Covenant.Proofs.Machine.Calls
import Covenant.Proofs.Structured.Postfix

/-!
# Runs and their meters

Every instruction costs one unit and is started only while the limits allow it. What instructions do
to the rest of the machine does not depend on the meters, so a run is described without them, by the
readings of the memory meter at each instruction (its *loads*). `Leads` says what a machine comes to
in every context with the same blocks: if the limits allow all loads, it gets where it is said to
get, and if not, it stops with the fault of a limit. Only the least cost that the counter can hold
is not stopped by the limit of the cost: nothing can be charged to it, and the counter overflows.

The bound on the number of steps holds because each instruction opens at most one block, and the
steps that are not instructions close one.
-/

namespace Covenant.Structured

open Covenant.Computation

/-! ### Meters -/

/-- A machine with another environment and other readings of the cost and instruction meters. -/
def metered (m : Machine) (env : Dict Value) (cost : Int) (ticks : Nat) : Machine :=
  { m with env := env, cost := cost, ticks := ticks }

@[simp] theorem frames_metered (m : Machine) (env : Dict Value) (cost : Int) (ticks : Nat) :
    (metered m env cost ticks).frames = m.frames := rfl

@[simp] theorem ending_metered (m : Machine) (env : Dict Value) (cost : Int) (ticks : Nat) :
    (metered m env cost ticks).ending = m.ending := rfl

/-- Whether the limits allow instructions that are started at some loads, one after the other. -/
def Fits (c : Context) : Int → Nat → List Int → Prop
  | _, _, [] => True
  | cost, ticks, load :: loads =>
    1 < cost ∧ (∀ ms, c.allowance = some ms → c.clock (ticks + 1) < ms) ∧ load ≤ c.limits.maxMem ∧
      Fits c (cost - 1) (ticks + 1) loads

/-- What fits can be paid for in two parts. -/
theorem fits_append {c : Context} {cost : Int} {ticks : Nat} {xs ys : List Int} :
    Fits c cost ticks (xs ++ ys)
      ↔ Fits c cost ticks xs ∧ Fits c (cost - xs.length) (ticks + xs.length) ys := by
  induction xs generalizing cost ticks with
  | nil => simp [Fits]
  | cons x xs ih =>
    have hcost : cost - 1 - (xs.length : Int) = cost - ((x :: xs).length : Int) := by
      rw [List.length_cons]
      omega
    have hticks : ticks + 1 + xs.length = ticks + (x :: xs).length := by
      rw [List.length_cons]
      omega
    rw [List.cons_append, Fits, Fits, ih, hcost, hticks]
    simp only [and_assoc]

/-- Allowed instructions leave some of the cost. -/
theorem Fits.length_lt {c : Context} {cost : Int} {ticks : Nat} {loads : List Int}
    (h : Fits c cost ticks loads) (hne : loads ≠ []) : (loads.length : Int) < cost := by
  induction loads generalizing cost ticks with
  | nil => exact absurd rfl hne
  | cons load loads ih =>
    obtain ⟨hcost, -, -, hrest⟩ := h
    by_cases hnil : loads = []
    · subst hnil
      exact hcost
    · have := ih hrest hnil
      rw [List.length_cons]
      omega

/-- What allowed instructions leave of a cost that the counter holds. -/
theorem Fits.inCounter {c : Context} {cost : Int} {ticks : Nat} {loads : List Int}
    (h : Fits c cost ticks loads) (hcost : InCounter cost) : InCounter (cost - loads.length) := by
  obtain ⟨hge, hle⟩ := hcost
  by_cases hnil : loads = []
  · subst hnil
    exact ⟨by simpa using hge, by simpa using hle⟩
  · have hlt := h.length_lt hnil
    exact ⟨by omega, by omega⟩

/-- What a run that stops reports. -/
def reported : Stop → Fault
  | .fault f => f
  | .crash | .overflow => .runtimePanic

/-- What a run with some cost left reports when a limit is reached. -/
inductive IsLimit (allowance : Option Nat) (cost : Int) : Fault → Prop
  | cost : IsLimit allowance cost .costLimit
  | memory : IsLimit allowance cost .memoryLimit
  | time : allowance ≠ none → IsLimit allowance cost .timeLimit
  | counter : cost = -9223372036854775808 → IsLimit allowance cost .runtimePanic

/-- What is reported with something left is reported with more. -/
theorem IsLimit.of_pos {allowance : Option Nat} {cost cost' : Int} {f : Fault}
    (h : IsLimit allowance cost f) (hpos : 0 < cost) : IsLimit allowance cost' f := by
  cases h with
  | cost => exact .cost
  | memory => exact .memory
  | time htime => exact .time htime
  | counter hleast => omega

theorem charge_one {m : Machine} {cost : Int} (hcost : InCounter cost)
    (h : 1 < cost) (env : Dict Value) (ticks : Nat) :
    Exec.charge 1 (metered m env cost ticks) = .ok () (metered m env (cost - 1) ticks) := by
  have hle := hcost.2
  exact Exec.charge_of_pos ⟨by dsimp only [metered]; omega, by dsimp only [metered]; omega⟩
    (by dsimp only [metered]; omega)

/-- The last instruction that could be paid for is not. -/
theorem charge_last {m : Machine} {cost : Int} (hcost : InCounter cost)
    (h : ¬ 1 < cost) (env : Dict Value) (ticks : Nat) (allowance : Option Nat) :
    ∃ e m', IsLimit allowance cost (reported e) ∧
      Exec.charge 1 (metered m env cost ticks) = .error e m' := by
  obtain ⟨hge, hle⟩ := hcost
  rw [Exec.charge_eq]
  by_cases hfits : InCounter (cost - 1)
  · exact ⟨.fault .costLimit, _, .cost, (if_pos hfits).trans (if_pos (show cost - 1 ≤ 0 by omega))⟩
  · have hleast : cost = -9223372036854775808 := by
      by_contra hne
      exact hfits ⟨by omega, by omega⟩
    exact ⟨.overflow, _, .counter hleast, if_neg hfits⟩

/-- What is left of a tick when its cost is paid. -/
def watch (c : Context) : Exec Unit := do
  match c.allowance with
  | some ms => if ms ≤ c.clock (← get).ticks then Exec.fail .timeLimit
  | none => pure ()
  if c.limits.maxMem < (← get).mem then Exec.fail .memoryLimit

theorem tick_eq (c : Context) (m : Machine) (env : Dict Value) (cost : Int) (ticks : Nat) :
    Exec.tick c (metered m env cost ticks)
      = (Exec.charge 1 >>= fun _ => watch c) (metered m env cost (ticks + 1)) := rfl

/-- An instruction that fits is paid for. -/
theorem tick_of_fits {c : Context} {m : Machine} {env : Dict Value} {cost : Int} {ticks : Nat}
    (hcounter : InCounter cost) (h : Fits c cost ticks [m.mem]) :
    Exec.tick c (metered m env cost ticks) = .ok () (metered m env (cost - 1) (ticks + 1)) := by
  obtain ⟨hcost, htime, hmem, -⟩ := h
  have hmem : ¬ c.limits.maxMem < m.mem := Int.not_lt.2 hmem
  rw [tick_eq, bind, Monad.toBind, EStateM.instMonad]
  simp only [EStateM.bind, charge_one hcounter hcost]
  cases ha : c.allowance with
  | none =>
    simp [watch, metered, hmem, ha, bind, EStateM.bind, get_apply,
      pure_apply]
  | some ms =>
    have htime : ¬ ms ≤ c.clock (ticks + 1) := Nat.not_le.2 (htime ms ha)
    simp [watch, metered, hmem, ha, htime, bind, EStateM.bind, get_apply, pure_apply]

/-- One that does not fit stops the run at a limit. -/
theorem tick_of_not_fits {c : Context} {m : Machine} {cost : Int} {ticks : Nat}
    (hcounter : InCounter cost) (h : ¬ Fits c cost ticks [m.mem]) (env : Dict Value) :
    ∃ e m', IsLimit c.allowance cost (reported e) ∧
      Exec.tick c (metered m env cost ticks) = .error e m' := by
  rw [tick_eq, bind, Monad.toBind, EStateM.instMonad]
  -- The cost is spent first, then the time is looked at, then the memory.
  by_cases hcost : 1 < cost
  · simp only [EStateM.bind, charge_one hcounter hcost]
    by_cases htime : ∀ ms, c.allowance = some ms → c.clock (ticks + 1) < ms
    · have hmem : c.limits.maxMem < m.mem := by
        by_contra hmem
        exact h ⟨hcost, htime, Int.not_lt.1 hmem, trivial⟩
      refine ⟨.fault .memoryLimit, metered m env (cost - 1) (ticks + 1), .memory, ?_⟩
      cases ha : c.allowance with
      | none =>
        simp [watch, metered, hmem, ha, bind, EStateM.bind, get_apply, pure, Exec.fail, throw_apply]
      | some ms =>
        have htime : ¬ ms ≤ c.clock (ticks + 1) := Nat.not_le.2 (htime ms ha)
        simp [watch, metered, hmem, ha, htime, bind, EStateM.bind, get_apply,
          pure, Exec.fail, throw_apply]
    · obtain ⟨ms, ha, hms⟩ : ∃ ms, c.allowance = some ms ∧ ms ≤ c.clock (ticks + 1) := by
        obtain ⟨ms, hms⟩ := not_forall.1 htime
        obtain ⟨ha, hlate⟩ := Classical.not_imp.1 hms
        exact ⟨ms, ha, Nat.not_lt.1 hlate⟩
      refine ⟨.fault .timeLimit, metered m env (cost - 1) (ticks + 1), .time (by simp [ha]), ?_⟩
      simp [watch, metered, ha, hms, bind, EStateM.bind, get_apply,
        Exec.fail, throw_apply]
  · obtain ⟨e, m', hlimit, hcharge⟩ :=
      charge_last (m := m) hcounter hcost env (ticks + 1) c.allowance
    exact ⟨e, m', hlimit, by simp only [EStateM.bind, hcharge]⟩

/-! ### Runs -/

/-- What a machine comes to when the limits allow it. -/
def Arrives (c : Context) (m : Machine) (env : Dict Value) (cost : Int)
    (ticks : Nat) (loads : List Int) :
    Except Fault Machine → Prop
  | .ok m' => ∃ k, k + m'.frames.length ≤ 2 * loads.length + m.frames.length ∧ ∀ fuel,
      Exec.loop c (fuel + k) (metered m env cost ticks)
        = Exec.loop c fuel (metered m' env (cost - loads.length) (ticks + loads.length))
  | .error f => ∃ k m', k ≤ 2 * loads.length + m.frames.length ∧ ∀ fuel,
      Exec.loop c (fuel + k) (metered m env cost ticks) = .error (.fault f) m'

/-- What a machine comes to when a limit is reached. -/
def Exceeds (c : Context) (m : Machine) (env : Dict Value) (cost : Int) (ticks : Nat) : Prop :=
  ∃ k e m', IsLimit c.allowance cost (reported e) ∧ k ≤ 2 * cost.toNat
    + 1 + m.frames.length ∧ ∀ fuel, Exec.loop c (fuel + k) (metered m env cost ticks) = .error e m'

/-- What a machine comes to over some instructions, given by their loads. -/
def Leads (A : Arena) (m : Machine) (loads : List Int) (r : Except Fault Machine) : Prop :=
  ∀ c : Context, c.registry.arena = A → ∀ env cost ticks, InCounter cost →
    (Fits c cost ticks loads → Arrives c m env cost ticks loads r) ∧
      (¬ Fits c cost ticks loads → Exceeds c m env cost ticks)

theorem Leads.refl (A : Arena) (m : Machine) : Leads A m [] (.ok m) := by
  intro c _ env cost ticks _
  refine ⟨fun _ => ⟨0, by simp, fun fuel => ?_⟩, fun h => absurd trivial h⟩
  simp

/-- Two stretches of a run, with all that they load. -/
theorem Leads.trans {A : Arena} {m m' : Machine} {xs ys : List Int} {r : Except Fault Machine}
    (h : Leads A m xs (.ok m')) (h' : Leads A m' ys r) : Leads A m (xs ++ ys) r := by
  intro c hc env cost ticks hcounter
  obtain ⟨harrive, hexceed⟩ := h c hc env cost ticks hcounter
  -- If the first part does not fit, the whole fails inside of it.
  by_cases hfit : Fits c cost ticks xs
  · obtain ⟨k, hk, hloop⟩ := harrive hfit
    obtain ⟨harrive', hexceed'⟩ := h' c hc env (cost - xs.length) (ticks + xs.length)
      (hfit.inCounter hcounter)
    by_cases hfit' : Fits c (cost - xs.length) (ticks + xs.length) ys
    · refine ⟨fun _ => ?_, fun hnot => absurd (fits_append.2 ⟨hfit, hfit'⟩) hnot⟩
      have hcost : cost - xs.length - ys.length = cost - (xs ++ ys).length := by
        rw [List.length_append]
        omega
      have hticks : ticks + xs.length + ys.length = ticks + (xs ++ ys).length := by
        rw [List.length_append]
        omega
      cases r with
      | ok m'' =>
        obtain ⟨k', hk', hloop'⟩ := harrive' hfit'
        refine ⟨k' + k, by rw [List.length_append]; omega, fun fuel => ?_⟩
        rw [← Nat.add_assoc, hloop, hloop', hcost, hticks]
      | error f =>
        obtain ⟨k', m'', hk', hloop'⟩ := harrive' hfit'
        refine ⟨k' + k, m'', by rw [List.length_append]; omega, fun fuel => ?_⟩
        rw [← Nat.add_assoc, hloop, hloop']
    · refine ⟨fun hall => absurd (fits_append.1 hall).2 hfit', fun _ => ?_⟩
      obtain ⟨k', e, m'', hlimit, hk', hloop'⟩ := hexceed' hfit'
      -- If only the second does not fit, the first has not used up the cost.
      have hleft : xs = [] ∨ (xs.length : Int) < cost := by
        by_cases hnil : xs = []
        · exact .inl hnil
        · exact .inr (hfit.length_lt hnil)
      refine ⟨k' + k, e, m'', ?_, ?_, fun fuel => ?_⟩
      · rcases hleft with rfl | hlt
        · simpa using hlimit
        · exact hlimit.of_pos (by omega)
      · rcases hleft with rfl | hlt
        · simp only [List.length_nil] at hk hk'
          omega
        · omega
      · rw [← Nat.add_assoc, hloop, hloop']
  · exact ⟨fun hall => absurd (fits_append.1 hall).1 hfit, fun _ => hexceed hfit⟩

/-! ### Single steps -/

/-- What something does in every context with some blocks, whatever the meters say. -/
def Does (A : Arena) (x : Context → Exec Unit) (m m' : Machine) : Prop :=
  ∀ c : Context, c.registry.arena = A → ∀ env cost ticks,
    x c (metered m env cost ticks) = .ok () (metered m' env cost ticks)

/-- With which fault something ends in every context with some blocks. -/
def Fails (A : Arena) (x : Context → Exec Unit) (m : Machine) (f : Fault) : Prop :=
  ∀ c : Context, c.registry.arena = A → ∀ env cost ticks, ∃ m',
    x c (metered m env cost ticks) = .error (.fault f) m'

theorem loop_succ_ok {c : Context} {m m' : Machine} (hne : m.frames ≠ [])
    (h : Exec.step c m = .ok () m') (fuel : Nat) :
    Exec.loop c (fuel + 1) m = Exec.loop c fuel m' := by
  obtain ⟨fr, frs, hframes⟩ := List.exists_cons_of_ne_nil hne
  rw [Exec.loop, bind, Monad.toBind, EStateM.instMonad]
  simp only [EStateM.bind, get_apply, hframes, h]

theorem loop_succ_error {c : Context} {m m' : Machine} {e : Stop} (hne : m.frames ≠ [])
    (h : Exec.step c m = .error e m') (fuel : Nat) : Exec.loop c (fuel + 1) m = .error e m' := by
  obtain ⟨fr, frs, hframes⟩ := List.exists_cons_of_ne_nil hne
  rw [Exec.loop, bind, Monad.toBind, EStateM.instMonad]
  simp only [EStateM.bind, get_apply, hframes, h]

section step

variable {A : Arena} {m m' : Machine} {a : Activation} {fs : List Frame} {op : Op} {f : Fault}

theorem block_eq {c : Context} (hc : c.registry.arena = A) (id : BlockId) :
    c.block id = A.block id := by
  rw [← hc]
  rfl

/-- An instruction runs when its tick has been counted. -/
theorem step_instr {c : Context} (hc : c.registry.arena = A) (hframes : m.frames = .block a :: fs)
    (hending : m.ending = none) (hop : (opsOf (A.block a.block).code)[a.pc]? = some op)
    (env : Dict Value) (cost : Int) (ticks : Nat) : Exec.step c (metered m env cost ticks)
      = (Exec.tick c >>= fun _ => Exec.perform c op) (metered m env cost ticks) := by
  rw [opsOf, List.getElem?_map, Array.getElem?_toList] at hop
  obtain ⟨i, hi, rfl⟩ := Option.map_eq_some_iff.1 hop
  rw [← block_eq hc] at hi
  rw [Exec.step, bind, Monad.toBind, EStateM.instMonad]
  simp only [EStateM.bind, get_apply, frames_metered, hframes,
    ending_metered, hending, hi]

/-- A run whose next instruction does not fit exceeds a limit. -/
theorem exceeds_of_not_fits {c : Context} (hc : c.registry.arena = A)
    {env : Dict Value} {cost : Int} {ticks : Nat} (hcounter : InCounter cost)
    (hframes : m.frames = .block a :: fs) (hending : m.ending = none)
    (hop : (opsOf (A.block a.block).code)[a.pc]? = some op) (h : ¬ Fits c cost ticks [m.mem]) :
    Exceeds c m env cost ticks := by
  obtain ⟨e, m', hlimit, htick⟩ := tick_of_not_fits hcounter h env
  refine ⟨1, e, m', hlimit, by omega, loop_succ_error (by simp [hframes]) ?_⟩
  rw [step_instr hc hframes hending hop, bind, Monad.toBind, EStateM.instMonad]
  simp only [EStateM.bind, htick]

/-- An instruction that succeeds. -/
theorem Leads.instr (hframes : m.frames = .block a :: fs) (hending : m.ending = none)
    (hop : (opsOf (A.block a.block).code)[a.pc]? = some op)
    (h : Does A (Exec.perform · op) m m') (hlen : m'.frames.length ≤ m.frames.length + 1) :
    Leads A m [m.mem] (.ok m') := by
  intro c hc env cost ticks hcounter
  refine ⟨fun hfit => ⟨1, by simp only [List.length_singleton]; omega, fun fuel => ?_⟩,
    exceeds_of_not_fits hc hcounter hframes hending hop⟩
  refine loop_succ_ok (by simp [hframes]) ?_ fuel
  rw [step_instr hc hframes hending hop, bind, Monad.toBind, EStateM.instMonad]
  simp only [EStateM.bind, tick_of_fits hcounter hfit]
  exact h c hc _ _ _

/-- An instruction that fails. -/
theorem Leads.instr_fault (hframes : m.frames = .block a :: fs) (hending : m.ending = none)
    (hop : (opsOf (A.block a.block).code)[a.pc]? = some op) (h : Fails A (Exec.perform · op) m f) :
    Leads A m [m.mem] (.error f) := by
  intro c hc env cost ticks hcounter
  refine ⟨fun hfit => ?_, exceeds_of_not_fits hc hcounter hframes hending hop⟩
  obtain ⟨m', hm'⟩ := h c hc env (cost - 1) (ticks + 1)
  refine ⟨1, m', by simp only [List.length_singleton]; omega, fun fuel => ?_⟩
  refine loop_succ_error (by simp [hframes]) ?_ fuel
  rw [step_instr hc hframes hending hop, bind, Monad.toBind, EStateM.instMonad]
  simp only [EStateM.bind, tick_of_fits hcounter hfit]
  exact hm'

/-- The end of a block that is left without an instruction: the code is over or a status is passed
on. -/
theorem Leads.leave {status : Status} (hframes : m.frames = .block a :: fs)
    (hend : m.ending = some status ∨
      (m.ending = none ∧ status = .normal ∧ (opsOf (A.block a.block).code)[a.pc]? = none))
    (h : Does A (Exec.leave · status) m m') (hlen : m'.frames.length + 1 ≤ m.frames.length) :
    Leads A m [] (.ok m') := by
  intro c hc env cost ticks _
  refine ⟨fun _ => ⟨1, by simp only [List.length_nil]; omega, fun fuel => ?_⟩,
    fun hnot => absurd trivial hnot⟩
  have hstep : Exec.step c (metered m env cost ticks) = Exec.leave c status
    (metered m env cost ticks) := by
    rw [Exec.step, bind, Monad.toBind, EStateM.instMonad]
    rcases hend with hend | ⟨hend, rfl, hcode⟩
    · simp only [EStateM.bind, get_apply, frames_metered, hframes,
        ending_metered, hend]
    · rw [opsOf, List.getElem?_map, Array.getElem?_toList, Option.map_eq_none_iff, ← block_eq hc]
        at hcode
      simp only [EStateM.bind, get_apply, frames_metered, hframes,
        ending_metered, hend, hcode]
  have := loop_succ_ok (c := c) (by simp [hframes]) (hstep.trans (h c hc env cost ticks)) fuel
  simpa using this

end step

end Covenant.Structured
