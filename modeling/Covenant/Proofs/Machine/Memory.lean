import Covenant.Proofs.Machine.Acyclic

/-!
# The memory meter

A run keeps a meter of the memory that its variables take: blocks add the sizes of their variables
when they begin and take them off when they end, and assignments move it by the difference they
make. An assignment to an element moves it by what the container grows. That is right as long as
variables hold the container once; with a container that two variables hold the meter shows less
than there is (`Launch.shared_array_is_counted_once`). Collecting the arguments of a chained segment
does not move it.

So the meter never shows less than the sizes of all live variables in a run in which no write makes
more of a difference to them than to the meter (`Launch.meter_covers_live_variables`). When they
exceed the limit, the next instruction is not carried out (`Exec.step_of_maxMem_lt`).
-/

namespace Covenant

open Covenant.Computation

open Exec

/-! ### Live variables -/

/-- The variables of a frame. -/
def Frame.slots : Frame → List Value
  | .block a => a.slots.toList
  | .contract _ => []

/-- The size of some values. -/
def Heap.total (h : Heap) (vs : List Value) : Int := (vs.map (Value.memSize h)).sum

/-- In how many ways a container is reached from some values. -/
def Heap.ways (h : Heap) (vs : List Value) (container : Value) : Nat :=
  (vs.map fun v => v.ways h container).sum

namespace Machine

/-- The live variables. -/
def slots (m : Machine) : List Value := m.frames.flatMap Frame.slots

/-- The size of all live variables. -/
def live (m : Machine) : Int := m.heap.total m.slots

/-- Whether the next instruction writes into an array or map and that makes more of a difference to
the sizes of the live variables than to the memory meter. -/
def Outgrows (c : Context) (m : Machine) : Prop :=
  ∃ op h p value mem, nextOp? c m = some op ∧ op.Writes c m h p value mem ∧
    mem - m.mem < h.ways m.slots p.container * h.growth p value

end Machine

/-- Whether a host function makes no value larger. -/
def Extension.KeepsSizes (e : Extension) : Prop :=
  ∀ run, e.behaviour = .host run → ∀ args host (v : Value), v.Grounded host.heap →
    v.memSize (run args host).2.heap ≤ v.memSize host.heap

section

variable {m m' : Machine} {h h' : Heap} {vs : List Value}

theorem Frame.slots_fixed (f : Frame) : f.fixed.slots = f.slots := by
  cases f <;> rfl

theorem Frame.mem_values_of_mem_slots {f : Frame} {v : Value} (hv : v ∈ f.slots) :
    v ∈ f.values := by
  cases f with
  | block a => exact hv
  | contract k => cases hv

/-- Which variables are live is said by the fixed parts of the frames. -/
theorem Machine.slots_eq_of_fixed (hframes : m'.frames.map Frame.fixed = m.frames.map Frame.fixed) :
    m'.slots = m.slots := by
  have hfixed : ∀ fs : List Frame, fs.flatMap Frame.slots
    = (fs.map Frame.fixed).flatMap Frame.slots := by
    intro fs
    rw [List.flatMap_map]
    exact congrArg (List.flatMap · fs) (funext fun f => f.slots_fixed.symm)
  rw [slots, slots, hfixed, hframes, ← hfixed]

theorem Machine.Has.slots {P : Heap → Value → Prop} (hm : m.Has P) : ∀ v ∈ m.slots, P m.heap v := by
  intro v hv
  obtain ⟨f, hf, hv⟩ := List.mem_flatMap.1 hv
  exact hm.frames f hf v (Frame.mem_values_of_mem_slots hv)

/-! ### Sizes of many values -/

theorem Heap.total_cons (h : Heap) (v : Value) (vs : List Value) :
    h.total (v :: vs) = v.memSize h + h.total vs := by
  rw [total, total, List.map_cons, List.sum_cons]

theorem Heap.total_append (h : Heap) (us vs : List Value) :
    h.total (us ++ vs) = h.total us + h.total vs := by
  rw [total, total, total, List.map_append, List.sum_append]

/-- What a block adds to the meter are the sizes of its variables. -/
theorem Exec.sizeOf_eq (h : Heap) (slots : Array Value) :
    sizeOf h slots = h.total slots.toList := by
  rw [sizeOf, ← Array.foldl_toList, Value.foldl_add_eq, Int.zero_add, Heap.total]

theorem Heap.total_grow (hvs : ∀ v ∈ vs, v.Grounded h) (hext : h.Extends h') :
    h'.total vs = h.total vs := by
  rw [total, total, List.map_congr_left fun v hv => (hvs v hv).memSize_grow hext]

theorem Heap.total_le (hvs : ∀ v ∈ vs, v.memSize h' ≤ v.memSize h) : h'.total vs ≤ h.total vs :=
  List.sum_le_sum hvs

/-- Storing into a container makes a difference for each way in which the values hold it. -/
theorem Heap.total_store {p : Place} {value : Value} (hc : p.container.Grounded h)
    (hvalue : value.Grounded h) (hnot : ¬ Relation.ReflTransGen h.Inside p.container value)
    (hvs : ∀ v ∈ vs, v.Grounded h) :
    (h.store p value).total vs = h.total vs + h.ways vs p.container * h.growth p value := by
  rw [total, total, ways, ← Value.sum_map_add_mul,
    List.map_congr_left fun v hv => hc.memSize_store hvalue hnot (hvs v hv)]

/-- Assigning to a variable makes the difference of the two values. -/
theorem Heap.total_setSlot {v : VarRef} {x old : Value} {fs : List Frame}
    (hold : Frame.slot? v fs = some old) :
    h.total ((Frame.setSlot v x fs).flatMap Frame.slots)
      = h.total (fs.flatMap Frame.slots) + (x.memSize h - old.memSize h) := by
  fun_induction Frame.setSlot v x fs with
  | case1 => cases hold
  | case2 a fs hblock =>
    rw [Frame.slot?, if_pos hblock, ← Array.getElem?_toList] at hold
    have hset : h.total (a.slots.toList.set v.index x)
        = h.total a.slots.toList + (x.memSize h - old.memSize h) := Value.sum_map_set _ hold x
    simp only [List.flatMap_cons, Heap.total_append, Frame.slots, Array.toList_setIfInBounds, hset]
    omega
  | case3 a fs hblock ih =>
    rw [Frame.slot?, if_neg hblock] at hold
    simp only [List.flatMap_cons, Heap.total_append, ih hold]
    omega
  | case4 k fs ih =>
    rw [Frame.slot?] at hold
    simp only [List.flatMap_cons, Heap.total_append, ih hold]
    omega

end

/-! ### What changes do to the meter -/

/-- All values are grounded, a value that is written does not hold the container, and the write
makes no more of a difference to live variables than to the meter. -/
def Watch.metered (c : Context) : Watch where
  context := c
  values := Value.Grounded
  write m p value mem := p.container.Grounded m.heap ∧ value.Grounded m.heap ∧
    ¬ Relation.ReflTransGen m.heap.Inside p.container value ∧
    m.heap.ways m.slots p.container * m.heap.growth p value ≤ mem - m.mem

section

variable {c : Context} {l : Launch} {m₀ m m' : Machine} {q : Option Request}

/-- A change moves the meter at least as far as the sizes of the live variables. -/
theorem Link.live_le_mem (hsizes : ∀ e, c.registry.Offers e → e.KeepsSizes)
    (h : Link (Watch.metered c) m m') (hm : m.live ≤ m.mem) : m'.live ≤ m'.mem := by
  have hgrounded : ∀ v ∈ m.slots, v.Grounded m.heap := h.before.slots
  cases h.change with
  | quiet hquiet =>
    rw [Machine.live, Machine.slots_eq_of_fixed hquiet.frames,
      Heap.total_grow hgrounded hquiet.heap, hquiet.mem]
    exact hm
  | enter a =>
    show m.heap.total (a.slots.toList ++ m.slots) ≤ m.mem + sizeOf m.heap a.slots
    -- The slots of a block are charged when its frame is pushed.
    rw [Heap.total_append, sizeOf_eq, Int.add_comm]
    exact Int.add_le_add_right hm _
  | assign v x old hold =>
    show m.heap.total ((Frame.setSlot v x m.frames).flatMap Frame.slots) ≤ _
    rw [Heap.total_setSlot hold]
    exact Int.add_le_add_right hm _
  | bind env => exact hm
  | write p value mem hwrite =>
    -- A write adds its growth once for each slot that reaches
    -- the container; `hcovered` bounds this.
    obtain ⟨hcontainer, hvalue, hnot, hcovered⟩ := hwrite
    show (m.heap.store p value).total m.slots ≤ mem
    rw [Heap.total_store hcontainer hvalue hnot hgrounded]
    have hlive : m.heap.total m.slots ≤ m.mem := hm
    omega
  | host e run args he hrun =>
    have hle : (hosted run args m).heap.total m.slots ≤ m.heap.total m.slots :=
      Heap.total_le fun v hv => hsizes e he run hrun args ⟨m.heap, m.env, m.cost⟩ v (hgrounded v hv)
    exact hle.trans hm
  | begin k env => exact hm

theorem Follows.live_le_mem (hsizes : ∀ e, c.registry.Offers e → e.KeepsSizes)
    (h : Follows (Watch.metered c) m m') (hm : m.live ≤ m.mem) : m'.live ≤ m'.mem := by
  induction h with
  | refl => exact hm
  | tail _ hlink ih => exact hlink.live_le_mem hsizes ih

/-- The variables of a block that ends are taken off the meter. -/
theorem Lead.live_le_mem {r : EStateM.Result Stop Machine Unit} (h : Lead c m r m')
    (hm : m.live ≤ m.mem) : m'.live ≤ m'.mem := by
  cases h with
  | stay => exact hm
  | drop a rest status cost ticks hframes =>
    have hlive : m.heap.total (a.slots.toList ++ rest.flatMap Frame.slots) ≤ m.mem := by
      rw [Machine.live, Machine.slots, hframes] at hm
      exact hm
    show m.heap.total (rest.flatMap Frame.slots) ≤ max (m.mem - sizeOf m.heap a.slots) 0
    rw [Heap.total_append] at hlive
    rw [sizeOf_eq]
    omega
  | finish k rest hframes =>
    rw [Machine.live, Machine.slots, hframes] at hm
    exact hm

theorem Watch.metered_holds (hhosts : ∀ e, c.registry.Offers e → e.Keeps Value.Grounded) :
    (Watch.metered c).Holds where
  lasting := Value.Grounded.lasting
  keeps := hhosts
  panics _ _ _ := trivial
  contracts _ _ _ _ := trivial
  writes _ _ _ _ _ hwrite _ hv := hwrite.1.store hwrite.2.1 hwrite.2.2.1 hv

/-- A machine whose next write neither ties a knot nor outgrows the meter is ready for its next
step. -/
theorem Machine.Has.steady_metered (hm : m.Has Value.Grounded) (hfree : ¬ m.TiesKnot c)
    (hcovered : ¬ m.Outgrows c) : m.Steady (Watch.metered c) where
  has := hm
  room := Nat.zero_le _
  base _ _ _ _ _ := Nat.zero_le _
  operands _ _ := Nat.zero_le _
  writes op h p value mem hop hwrites m₁ hheap hframes hmem := by
    subst hheap
    obtain ⟨hcontainer, hvalue, hnot⟩ := hwrites.grounded hm hop hfree
    refine ⟨hcontainer, hvalue, hnot, Int.not_lt.1 fun hlt => hcovered ?_⟩
    rw [hmem, Machine.slots, hframes] at hlt
    exact ⟨op, _, p, value, mem, hop, hwrites, hlt⟩
  assigns _ _ _ _ _ _ := trivial
  holders _ _ := trivial
  starts _ _ _ _ _ := trivial
  sections _ _ _ _ _ _ _ := trivial
  ends _ := trivial

/-- **A step keeps the meter above the sizes of the live variables**, if what it writes does not
outgrow it. -/
theorem Machine.Has.step_live_le_mem (hhosts : ∀ e, c.registry.Offers e → e.Keeps Value.Grounded)
    (hsizes : ∀ e, c.registry.Offers e → e.KeepsSizes) (hm : m.Has Value.Grounded)
    (hfree : ¬ m.TiesKnot c) (hcovered : ¬ m.Outgrows c) (hlive : m.live ≤ m.mem) :
    (left (Exec.step c m)).live ≤ (left (Exec.step c m)).mem := by
  obtain ⟨m₁, hlead, hfollows, -⟩ :=
    step_tame (Watch.metered_holds hhosts) (hm.steady_metered hfree hcovered)
  exact hfollows.live_le_mem hsizes (hlead.live_le_mem hlive)

/-- The meter never shows less than the sizes of the live variables. -/
theorem Transition.live_le_mem (hhosts : ∀ e, c.registry.Offers e → e.Keeps Value.Grounded)
    (hsizes : ∀ e, c.registry.Offers e → e.KeepsSizes) (hm₀ : m₀.Has Value.Grounded)
    (hl : ∀ v ∈ l.values, v.Grounded m₀.heap) (hlive : m₀.live ≤ m₀.mem)
    (hfree : ∀ m q m', Transition c l m₀ m q (.ok () m') → ¬ m'.TiesKnot c)
    (hcovered : ∀ m q m', Transition c l m₀ m q (.ok () m') → ¬ m'.Outgrows c)
    {r : EStateM.Result Stop Machine Unit} (h : Transition c l m₀ m q r) :
    (left r).live ≤ (left r).mem := by
  induction h with
  | start =>
    have hready : m₀.Ready (Watch.metered c) 0 := ⟨hm₀, Nat.zero_le _⟩
    have hstart := l.start_tame (Watch.metered_holds hhosts) hready hl fun _ _ _ _ => trivial
    exact hstart.1.live_le_mem hsizes hlive
  | step htrans _ ih =>
    have hgrounded := htrans.grounded hhosts hm₀ hl hfree
    exact hgrounded.step_live_le_mem hhosts hsizes (hfree _ _ _ htrans) (hcovered _ _ _ htrans) ih

/-- An instruction is not carried out when the meter shows more than the limit. -/
theorem Exec.step_of_maxMem_lt {op : Op} (hop : nextOp? c m = some op) (hcost : 1 < m.cost)
    (hcounter : InCounter m.cost)
    (htime : ∀ ms, c.allowance = some ms → c.clock (m.ticks + 1) < ms)
    (hmem : c.limits.maxMem < m.mem) :
    Exec.step c m
      = .error (.fault .memoryLimit) { m with cost := m.cost - 1, ticks := m.ticks + 1 } := by
  -- An instruction first pays, then looks at the time and then at the memory.
  have hcharge : charge 1 { m with ticks := m.ticks + 1 }
      = .ok () { m with cost := m.cost - 1, ticks := m.ticks + 1 } := by
    have hle := hcounter.2
    exact charge_of_pos ⟨by dsimp only; omega, by dsimp only; omega⟩ (by dsimp only; omega)
  have hcheck : checkLimits c { m with cost := m.cost - 1, ticks := m.ticks + 1 }
      = .error (.fault .memoryLimit) { m with cost := m.cost - 1, ticks := m.ticks + 1 } := by
    have hfail : (if c.limits.maxMem < m.mem then fail .memoryLimit else pure () : Exec Unit)
        { m with cost := m.cost - 1, ticks := m.ticks + 1 }
        = .error (.fault .memoryLimit) { m with cost := m.cost - 1, ticks := m.ticks + 1 } := by
      rw [if_pos hmem]
      rfl
    unfold checkLimits
    cases hallowance : c.allowance with
    | none => exact hfail
    | some ms =>
      change (if ms ≤ c.clock (m.ticks + 1) then _ else _ : Exec Unit) _ = _
      rw [if_neg (Nat.not_le.2 (htime ms hallowance))]
      exact hfail
  have htick : tick c m
      = .error (.fault .memoryLimit) { m with cost := m.cost - 1, ticks := m.ticks + 1 } := by
    rw [tick_eq]
    exact (bind_of_ok hcharge).trans hcheck
  rw [(step_of_nextOp? hop).1, bind_of_error htick]

/-- **The memory meter never shows less than the sizes of all live variables**, in every state of a
run between two instructions; if they exceed the limit, the next instruction is not carried out,
provided that the cost that is left allows one and is a number that the counter holds. This is so as
long as what a write makes of a difference to them is on the meter. -/
theorem Launch.meter_covers_live_variables
    (hhosts : ∀ e, c.registry.Offers e → e.Keeps Value.Grounded)
    (hsizes : ∀ e, c.registry.Offers e → e.KeepsSizes) (hm₀ : ∀ v ∈ m₀.values, v.Grounded m₀.heap)
    (hl : ∀ v ∈ l.values, v.Grounded m₀.heap) (hlive : m₀.live ≤ m₀.mem)
    (hfree : ∀ m q m', Transition c l m₀ m q (.ok () m') → ¬ m'.TiesKnot c)
    (hcovered : ∀ m q m', Transition c l m₀ m q (.ok () m') → ¬ m'.Outgrows c)
    (h : Transition c l m₀ m q (.ok () m')) :
    m'.live ≤ m'.mem ∧ ∀ op, nextOp? c m' = some op → c.limits.maxMem < m'.live → 1 < m'.cost →
      InCounter m'.cost → (∀ ms, c.allowance = some ms → c.clock (m'.ticks + 1) < ms) →
      Exec.step c m' = .error (.fault .memoryLimit)
        { m' with cost := m'.cost - 1, ticks := m'.ticks + 1 } := by
  have hle : m'.live ≤ m'.mem :=
    h.live_le_mem hhosts hsizes (Machine.has_iff.2 hm₀) hl hlive hfree hcovered
  exact ⟨hle, fun op hop hlimit hcost hcounter htime =>
    step_of_maxMem_lt hop hcost hcounter htime (Int.lt_of_lt_of_le hlimit hle)⟩

end

/-! ### Two runs -/

/-- Whether a machine is about to outgrow its meter. -/
def Machine.outgrows (c : Context) (m : Machine) : Bool :=
  match nextOp? c m with
  | some .setIndex =>
    match m.stack.toList.reverse with
    | value :: key :: container :: _ =>
      match m.heap.place c.limits container key value with
      | .ok p =>
        (if m.heap.replacesHolder p container then m.mem
          else max (m.mem + m.heap.growth p value) 0) - m.mem
          < m.heap.ways m.slots p.container * m.heap.growth p value
      | .error _ => false
    | _ => false
  | some (.funcName name count) =>
    match m.stack.toList.reverse.drop count with
    | .map r :: _ =>
      let list := m.heap.newArray (m.stack.toList.reverse.take count).reverse.toArray
      m.mem - m.mem < list.2.ways m.slots (.map r) * list.2.growth (.entry r name) list.1
    | _ => false
  | _ => false

/-- The check finds every step that outgrows the meter. -/
theorem Machine.Outgrows.check {c : Context} {m : Machine} (h : m.Outgrows c) :
    m.outgrows c = true := by
  obtain ⟨op, h, p, value, mem, hop, hwrites, hlt⟩ := h
  rw [outgrows, hop]
  cases hwrites with
  | @index s container key value p hstack hplace =>
    have hreverse : m.stack.toList.reverse = value :: key :: container :: s.reverse := by
      rw [hstack]
      simp
    simp only [hreverse, hplace]
    exact decide_eq_true hlt
  | @segment s args r name hstack =>
    have hreverse : m.stack.toList.reverse = args.reverse ++ .map r :: s.reverse := by
      rw [hstack]
      simp
    have hlength : args.length = args.reverse.length := List.length_reverse.symm
    simp only [hreverse, hlength, List.drop_left, List.take_left, List.reverse_reverse]
    exact decide_eq_true hlt

/-- Whether a computation succeeds. -/
def Exec.succeeds (x : Exec Unit) (m : Machine) : Bool :=
  match x m with
  | .ok _ _ => true
  | .error _ _ => false

theorem Exec.exists_of_succeeds {x : Exec Unit} {m : Machine} (h : x.succeeds m = true) :
    ∃ m', x m = .ok () m' := by
  unfold succeeds at h
  split at h
  · exact ⟨_, ‹_›⟩
  · cases h

namespace Launch

/-- Extensions that only call contracts make no value larger. -/
theorem keepsSizes_of_offersContractsOnly {r : Registry} (h : r.offersContractsOnly = true) :
    ∀ e, r.Offers e → e.KeepsSizes :=
  fun e he run hrun => absurd hrun (e.behaviour_ne_host (r.callsContract_of_offers h he) run)

/-- In a run with a chained call the meter is never below the sizes of the live variables. -/
theorem chainedCall_live_le_mem :
    (∃ m q m', Transition (chainedCall.context none fun _ => 0) (func 3 []) emptyMachine m q
      (.ok () m') ∧ 100 < m'.live) ∧
    ∀ m q m', Transition (chainedCall.context none fun _ => 0) (func 3 []) emptyMachine m q
      (.ok () m') → m'.live ≤ m'.mem := by
  have hhosts : ∀ e, (chainedCall.context none fun _ => 0).registry.Offers e →
      e.Keeps Value.Grounded := keeps_of_offersContractsOnly chainedCall_checks.1 _
  have hsizes : ∀ e, (chainedCall.context none fun _ => 0).registry.Offers e → e.KeepsSizes :=
    keepsSizes_of_offersContractsOnly chainedCall_checks.1
  obtain ⟨hcheck, hsteps⟩ : (func 3 []).always (chainedCall.context none fun _ => 0)
        (fun m => !m.outgrows (chainedCall.context none fun _ => 0)) 60 emptyMachine = true ∧
      ((func 3 []).machineAfter (chainedCall.context none fun _ => 0) 22 emptyMachine).any
        (fun m => 100 < m.live) = true := by
    simp only [chainedCall, callingSession, Session.perform_compile, String.toList_append,
      String.reduceToList]
    decide +kernel
  have hgiven : ∀ v ∈ (func 3 []).values, v.Grounded emptyMachine.heap :=
    fun v hv => absurd hv List.not_mem_nil
  -- No state of the run outgrows what it is charged, by evaluation of all of them.
  have hcovered : ∀ m q m', Transition (chainedCall.context none fun _ => 0)
    (func 3 []) emptyMachine m
      q (.ok () m') → ¬ m'.Outgrows (chainedCall.context none fun _ => 0) := by
    intro m q m' htrans hgrows
    have hframes : m'.frames ≠ [] := by
      obtain ⟨_, _, _, _, _, hop, -⟩ := hgrows
      exact frames_ne_nil_of_nextOp? hop
    have hnot := always_sound hcheck htrans hframes
    rw [hgrows.check] at hnot
    cases hnot
  refine ⟨?_, fun m q m' htrans =>
    (meter_covers_live_variables (c := chainedCall.context none fun _ => 0) hhosts hsizes
      (emptyMachine_values _) hgiven (by decide)
      (fun _ _ _ => chainedCall_ties_none) hcovered htrans).1⟩
  obtain ⟨m, q, m', htrans, hlive⟩ := machineAfter_sound hsteps
  exact ⟨m, q, m', htrans, of_decide_eq_true hlive⟩

/-- A function that lets two variables hold one array and then grows it, with little memory
allowed. -/
def sharedArray : Session :=
  { registry := .new { maxMem := 40 } Library.contracts : Session }.perform (.compile 1
    ("func main int \x7b var a b array\n b = a\n a[0] = \"xxxxxxxxxx\"\n return 1 \x7d"))

/-- **The memory meter can show less than there is**: an array that two variables hold grows, and
only what one of them grows by is added. The variables are larger than the limit, and the run goes
on. -/
theorem shared_array_is_counted_once :
    (∀ e, sharedArray.registry.Offers e → e.Keeps Value.Grounded ∧ e.KeepsSizes) ∧
      ∃ m q m' op, Transition (sharedArray.context none fun _ => 0) (func 1 []) emptyMachine m q
        (.ok () m') ∧ (∀ v ∈ m'.values, v.Grounded m'.heap) ∧ m'.mem < m'.live ∧
        sharedArray.registry.limits.maxMem < m'.live ∧
        nextOp? (sharedArray.context none fun _ => 0) m' = some op ∧
        ∃ m'', Exec.step (sharedArray.context none fun _ => 0) m' = .ok () m'' := by
  obtain ⟨honly, hsteps⟩ : sharedArray.registry.offersContractsOnly = true ∧
      ((func 1 []).machineAfter (sharedArray.context none fun _ => 0) 7 emptyMachine).any
        (fun m => m.values.all (fun v => v.Grounded m.heap) && m.mem < m.live &&
          sharedArray.registry.limits.maxMem < m.live &&
          (nextOp? (sharedArray.context none fun _ => 0) m).isSome &&
          (step (sharedArray.context none fun _ => 0)).succeeds m) = true := by
    simp only [sharedArray, Session.perform_compile, String.reduceToList]
    decide +kernel
  refine ⟨fun e he => ⟨keeps_of_offersContractsOnly honly _ e he,
    keepsSizes_of_offersContractsOnly honly e he⟩, ?_⟩
  obtain ⟨m, q, m', htrans, h⟩ := machineAfter_sound hsteps
  simp only [Bool.and_eq_true, List.all_eq_true, decide_eq_true_eq] at h
  obtain ⟨⟨⟨⟨hgrounded, hmem⟩, hlimit⟩, hop⟩, hstep⟩ := h
  obtain ⟨op, hop⟩ := Option.isSome_iff_exists.1 hop
  exact ⟨m, q, m', op, htrans, hgrounded, hmem, hlimit, hop, exists_of_succeeds hstep⟩

end Launch

end Covenant
