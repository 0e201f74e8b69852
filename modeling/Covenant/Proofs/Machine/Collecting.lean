import Covenant.Proofs.Heap.Apart
import Covenant.Proofs.Machine.Operands
import Covenant.Proofs.Machine.Routing

/-!
# The instructions of a chained call

Besides the code of its arguments, a call of a function with segments has a few instructions of its
own. One puts down the operand that collects the arguments of segments, one behind the arguments of
each segment puts these into it, and the last ones call. Here it is said what each of them does.
What is collected is held in new cells, and the instructions write to no others
(`Heap.holding_collect`); the call starts the function with what it routes to the parameters
(`callFunc_eq_ok`, `callFunc_of_accepts`).

Only a limit stops such an instruction, if the parameters accept the arguments (`Onward`).
-/

namespace Covenant

open Covenant.Computation Structured

variable {c : Context} {m m' : Machine} {h : Heap} {s : Array Value}

/-! ### Behind an instruction -/

namespace Machine

/-- A property of frames that does not look at the place in the code is kept when the innermost
block goes on. -/
theorem map_skip {α : Type} {f : Frame → α}
    (hf : ∀ (a : Activation) n, f (.block { a with pc := a.pc + n }) = f (.block a))
    (n : Nat) (fs : List Frame) :
    (Frame.skip n fs).map f = fs.map f := by
  rcases fs with _ | ⟨a | k, fs⟩
  · rfl
  · exact congrArg (· :: _) (hf a n)
  · rfl

@[simp] theorem spots_behind (m : Machine) (n : Nat) (h : Heap) (s : Array Value) :
    (m.behind n h s).spots = m.spots := map_skip (fun _ _ => rfl) n m.frames

/-- What is known of variables and the environment is known behind instructions. -/
theorem Has.behind {P Q : Heap → Value → Prop} {k : Nat} (hm : m.Has P k)
    (himp : ∀ v, P m.heap v → Q h v) (n : Nat) : (m.behind n h s).Has Q s.size where
  nil := himp _ hm.nil
  stack v hv := by
    have hnone : s.toList.drop s.size = [] :=
      List.drop_eq_nil_of_le (Nat.le_of_eq Array.length_toList)
    exact absurd (hnone ▸ hv : v ∈ []) List.not_mem_nil
  frames f hf v hv := by
    have hvalues : f.values ∈ (Frame.skip n m.frames).map Frame.values := List.mem_map_of_mem hf
    rw [map_skip fun _ _ => rfl] at hvalues
    obtain ⟨g, hg, hgf⟩ := List.mem_map.1 hvalues
    exact himp v (hm.frames g hg v (hgf ▸ hv))
  env := hm.env.imp himp

end Machine

namespace Exec

/-! ### Steps that only limits stop -/

/-- Some steps. -/
def steps (c : Context) : Nat → Exec Unit
  | 0 => pure ()
  | n + 1 => do
    step c
    steps c n

/-- How a run stops because of what it was allowed: a limit is reached, or the counter for the cost
overflows. -/
inductive Limited (c : Context) : Stop → Prop
  | cost : Limited c (.fault .costLimit)
  | memory : Limited c (.fault .memoryLimit)
  | time : c.allowance ≠ none → Limited c (.fault .timeLimit)
  | depth : Limited c (.fault .callDepth)
  | counter : Limited c .overflow

/-- Whether a computation is stopped by a limit. -/
def StopsLimited {α : Type} (c : Context) (x : Exec α) (m : Machine) : Prop :=
  ∃ e m', Limited c e ∧ x m = .error e m'

/-- Whether some steps lead to a machine of some kind, unless a limit stops them. -/
def Onward (c : Context) (n : Nat) (m : Machine) (P : Machine → Prop) : Prop :=
  (∃ m', steps c n m = .ok () m' ∧ P m') ∨ StopsLimited c (steps c n) m

/-- A charge that is not paid reaches the limit of the cost, or the counter overflows. -/
theorem charge_cases (c : Context) (n : Int) (m : Machine) :
    charge n m = .ok () { m with cost := m.cost - n } ∨ StopsLimited c (charge n) m := by
  have hcharge := charge_eq n m
  split at hcharge
  · split at hcharge
    · exact .inr ⟨_, _, .cost, hcharge⟩
    · exact .inl hcharge
  · exact .inr ⟨_, _, .counter, hcharge⟩

/-- What comes behind a computation that is stopped is not begun. -/
theorem StopsLimited.bind {α β : Type} {x : Exec α} {k : α → Exec β} (h : StopsLimited c x m) :
    StopsLimited c (x >>= k) m := by
  obtain ⟨e, m', he, hx⟩ := h
  exact ⟨e, m', he, bind_of_error hx⟩

theorem steps_one (c : Context) : steps c 1 = step c := bind_pure_unit

theorem Onward.imp {n : Nat} {P Q : Machine → Prop} (h : Onward c n m P) (hPQ : ∀ m', P m' → Q m') :
    Onward c n m Q := h.imp_left fun ⟨m', hm', hP⟩ => ⟨m', hm', hPQ m' hP⟩

/-- Limits hold, or the run stops at one of them. -/
theorem checkLimits_cases (c : Context) (m : Machine) :
    checkLimits c m = .ok () m ∨ StopsLimited c (checkLimits c) m := by
  have hmem : (if c.limits.maxMem < m.mem then fail .memoryLimit else pure () : Exec Unit) m
    = .ok () m ∨
      ∃ e m', Limited c e ∧
        (if c.limits.maxMem < m.mem then fail .memoryLimit else pure () : Exec Unit) m
          = .error e m' := by
    split
    · exact .inr ⟨_, _, .memory, rfl⟩
    · exact .inl rfl
  unfold StopsLimited checkLimits
  cases hallowance : c.allowance with
  | none => exact hmem
  | some ms =>
    by_cases hlate : ms ≤ c.clock m.ticks
    · refine .inr ⟨.fault .timeLimit, m, .time (by simp [hallowance]), ?_⟩
      change (if ms ≤ c.clock m.ticks then _ else _ : Exec Unit) m = _
      rw [if_pos hlate]
      rfl
    · change (if ms ≤ c.clock m.ticks then _ else _ : Exec Unit) m = _ ∨
        ∃ e m', _ ∧ (if ms ≤ c.clock m.ticks then _ else _ : Exec Unit) m = _
      rw [if_neg hlate]
      exact hmem

/-- A tick succeeds, or the run stops at a limit. -/
theorem tick_cases (c : Context) (m : Machine) :
    tick c m = .ok () (ticked m) ∨ StopsLimited c (tick c) m := by
  have htick : tick c m = (charge 1 >>= fun _ => checkLimits c) { m with ticks := m.ticks + 1 } :=
    rfl
  rw [StopsLimited, htick]
  rcases charge_cases c 1 { m with ticks := m.ticks + 1 } with hcharge | hstop
  · rw [bind_of_ok hcharge]
    exact checkLimits_cases c _
  · exact .inr hstop.bind

/-- A step performs the next instruction. -/
theorem step_of_faces {op : Op} {ops : List Op} (hfaces : m.Faces c (op :: ops)) :
    step c m = (tick c >>= fun _ => perform c op) m := by
  obtain ⟨a, fs, hframes, hending, post, hpost⟩ := hfaces
  have hop : (opsOf (c.block a.block).code)[a.pc]? = some op := by
    rw [← List.head?_drop, ← hpost]
    rfl
  exact step_instr (m := m) (c := c) rfl hframes hending hop m.env m.cost m.ticks

/-- A step is stopped by a limit, or performs its instruction. -/
theorem step_cases {op : Op} {ops : List Op} (hfaces : m.Faces c (op :: ops)) :
    step c m = perform c op (ticked m) ∨ StopsLimited c (step c) m := by
  rw [StopsLimited, step_of_faces hfaces]
  exact (tick_cases c m).imp bind_of_ok StopsLimited.bind

/-- An instruction that does not fail is stopped by a limit only. -/
theorem onward_of_perform {op : Op} {ops : List Op} {P : Machine → Prop}
    (hfaces : m.Faces c (op :: ops)) (hperform : perform c op (ticked m) = .ok () m') (hP : P m') :
    Onward c 1 m P := by
  rw [Onward, steps_one]
  exact (step_cases hfaces).imp_left fun hstep => ⟨m', hstep.trans hperform, hP⟩

/-- What a step does is what its instruction does. -/
theorem eq_of_perform {op : Op} {ops : List Op} {m₁ : Machine} (hfaces : m.Faces c (op :: ops))
    (hperform : perform c op (ticked m) = .ok () m₁) (hstep : step c m = .ok () m') : m' = m₁ := by
  rw [step_of_faces hfaces] at hstep
  obtain ⟨_, m₂, htick, h⟩ := bind_eq_ok hstep
  rw [show m₂ = ticked m from machine_of_tick htick, hperform] at h
  cases h
  rfl

/-! ### Putting down and collecting -/

theorem perform_push (c : Context) (k : Constant) (m : Machine) :
    perform c (.push k) (ticked m) = .ok () (m.behind 1 m.heap (m.stack.push k.toValue)) :=
  advance_apply { ticked m with stack := m.stack.push k.toValue }

end Exec

namespace Heap

/-- The operand and the heap behind what collects the arguments of a segment. -/
def collect (h : Heap) (operand : Value) (name : String) (vs : List Value) : Value × Heap :=
  let (list, grown) := h.newArray vs.toArray
  match operand with
  | .nil => grown.newMap (.ofList [(name, list)])
  | .map r => (.map r, grown.modifyMap r fun d => d.insert name list)
  | v => (v, h)

/-- Some cells of a heap, and those that another heap has besides. -/
def added (K : Ref → Prop) (h h' : Heap) (r : Ref) :
    Prop := K r ∨ h.cells.size ≤ r ∧ r < h'.cells.size

end Heap

namespace Exec

/-- The arguments of a segment are taken from the stack and go into the map below them, which is
made if it is not there yet. -/
theorem collectSegment_apply {below : Array Value} {operand : Value}
    {vs : List Value} (name : String) (hoperand : operand = .nil ∨ ∃ r, operand = .map r)
    (hstack : m.stack = below.push operand ++ vs.toArray) :
    collectSegment name vs.length m = .ok () { m with
      heap := (m.heap.collect operand name vs).2
      stack := below.push (m.heap.collect operand name vs).1 } := by
  unfold collectSegment
  rw [bind_of_ok (popN_append hstack), get_bind_apply]
  dsimp only
  rw [Array.back?_push]
  rcases hoperand with rfl | ⟨r, rfl⟩
  · refine (bind_of_ok (modifyGet_apply _ _)).trans ((bind_of_ok (modifyGet_apply _ _)).trans ?_)
    rw [modify_apply]
    simp only [Array.pop_push]
    rfl
  · rfl

theorem perform_collect {below : Array Value} {operand : Value} {vs : List Value}
    (c : Context) (name : String) (hoperand : operand = .nil ∨ ∃ r, operand = .map r)
    (hstack : m.stack = below.push operand ++ vs.toArray) :
    perform c (.funcName name vs.length) (ticked m)
      = .ok () (m.behind 1 (m.heap.collect operand name vs).2
      (below.push (m.heap.collect operand name vs).1)) :=
  (bind_of_ok (collectSegment_apply (m := ticked m) name hoperand hstack)).trans (advance_apply _)

end Exec

section holding

variable {K : Ref → Prop} {operand : Value} {named : List (String × List Value)}

theorem Holding.shape (hheld : Holding K h operand named) :
    operand = .nil ∨ ∃ r, operand = .map r := by
  cases hheld with
  | none => exact .inl rfl
  | @some r => exact .inr ⟨r, rfl⟩

theorem Holding.of_map {r : Ref} (hheld : Holding K h operand named) (hr : operand = .map r) :
    K r := by
  cases hheld with
  | none => cases hr
  | some hK => exact Value.map.inj hr ▸ hK

/-- What is held stays with the cells that it is held in. -/
theorem Holding.congr {h' : Heap} (hheld : Holding K h operand named)
    (hcells : ∀ r, K r → h'.cells[r]? = h.cells[r]?) : Holding K h' operand named := by
  cases hheld with
  | none => exact .none
  | some hr hcell hentries hnames =>
    refine .some hr ((hcells _ hr).trans hcell) (fun p hp => ?_) hnames
    obtain ⟨q, hq, hget, harray⟩ := hentries p hp
    exact ⟨q, hq, hget, (hcells q hq).trans harray⟩

namespace Heap

variable {r : Ref} {entries : Dict Value}

theorem cells_collect_nil (h : Heap) (name : String) (vs : List Value) :
    (h.collect .nil name vs).2.cells
      = (h.cells.push (.array vs.toArray)).push
    (.map (Dict.empty.insert name (.array h.cells.size))) := rfl

/-- The cells behind it are those before it, but for the map and the new array. -/
theorem cells_collect_map (hr : h.cells[r]? = some (.map entries)) (name : String)
    (vs : List Value) (k : Nat) :
    (h.collect (.map r) name vs).2.cells[k]? = if r = k then
      some (.map (entries.insert name (.array h.cells.size))) else (h.cells.push
        (.array vs.toArray))[k]? := by
  change ((h.cells.push _).modify r _)[k]? = _
  rw [Array.getElem?_modify]
  split
  · subst_vars
    rw [Array.getElem?_push, if_neg (Nat.ne_of_lt (Array.getElem?_eq_some_iff.1 hr).1), hr]
    rfl
  · rfl

theorem size_collect_map (h : Heap) (r : Ref) (name : String) (vs : List Value) :
    (h.collect (.map r) name vs).2.cells.size = h.cells.size + 1 := by
  change ((h.cells.push _).modify r _).size = _
  rw [Array.size_modify, Array.size_push]

/-- **Collecting the arguments of another segment** changes no cell but the map that holds arguments
already. -/
theorem holding_collect (hheld : Holding K h operand named) (hK : ∀ r, K r → r < h.cells.size)
    {name : String} (hname : name ∉ named.map Prod.fst) (vs : List Value) :
    Holding (added K h (h.collect operand name vs).2) (h.collect operand name vs).2
        (h.collect operand name vs).1 (named ++ [(name, vs)]) ∧
      h.cells.size ≤ (h.collect operand name vs).2.cells.size ∧
      ∀ r < h.cells.size, operand ≠ .map r → (h.collect operand name vs).2.cells[r]?
        = h.cells[r]? := by
  cases hheld with
  | none =>
    -- The list and the map that holds it are both new, and nothing else changes.
    have hoperand : (h.collect .nil name vs).1 = .map (h.cells.size + 1) := by
      simp [collect, newArray, newMap]
    have hsize : (h.collect .nil name vs).2.cells.size = h.cells.size + 2 := by
      simp [cells_collect_nil]
    refine ⟨?_, by omega, fun r hr _ => ?_⟩
    · rw [hoperand]
      have hnew : ∀ k, h.cells.size ≤ k → k < h.cells.size + 2 →
        added K h (h.collect .nil name vs).2 k :=
        fun k hk hlt => .inr ⟨hk, hsize.symm ▸ hlt⟩
      have hmap : (h.collect .nil name vs).2.cells[h.cells.size + 1]?
          = some (.map (Dict.empty.insert name (.array h.cells.size))) := by
        rw [cells_collect_nil, show h.cells.size + 1
          = (h.cells.push (.array vs.toArray)).size by simp]
        exact Array.getElem?_push_size
      refine .some (hnew _ (by omega) (by omega)) hmap (fun p hp => ?_) fun key v hv => ?_
      · obtain rfl := List.mem_singleton.1 hp
        refine ⟨h.cells.size, hnew _ (by omega) (by omega),
          by rw [Dict.get?_insert, if_pos rfl], ?_⟩
        rw [cells_collect_nil, Array.getElem?_push, if_neg (by simp)]
        exact Array.getElem?_push_size
      · rw [Dict.get?_insert] at hv
        split at hv
        · exact List.mem_singleton.2 (Eq.symm ‹_›)
        · cases (Dict.get?_empty key).symm.trans hv
    · rw [cells_collect_nil, Array.getElem?_push, if_neg (by simp; omega),
        Array.getElem?_push, if_neg (by omega)]
  | @some r entries _ hr hcell hentries hnames =>
    -- The list is new. The map gets another entry, which is none of those it had: `hname`.
    have hsize := h.size_collect_map r name vs
    have hnew : added K h (h.collect (.map r) name vs).2 h.cells.size :=
      .inr ⟨Nat.le_refl _, hsize.symm ▸ Nat.lt_succ_self _⟩
    have hkept : ∀ k < h.cells.size, r ≠ k → (h.collect (.map r) name vs).2.cells[k]?
      = h.cells[k]? := by
      intro k hk hne
      rw [cells_collect_map hcell, if_neg hne, Array.getElem?_push, if_neg (Nat.ne_of_lt hk)]
    refine ⟨.some (.inl hr) ((cells_collect_map hcell name vs r).trans (if_pos rfl))
      (fun p hp => ?_)
      fun key v hv => ?_, by omega, fun k hk hne => hkept k hk fun heq => hne (heq ▸ rfl)⟩
    · rcases List.mem_append.1 hp with hp | hp
      · obtain ⟨q, hq, hentry, harray⟩ := hentries p hp
        have hne : r ≠ q := fun heq => by cases hcell.symm.trans (heq ▸ harray)
        have hother : name ≠ p.1 := fun heq => hname (heq ▸ List.mem_map_of_mem hp)
        exact ⟨q, .inl hq, by rw [Dict.get?_insert, if_neg hother, hentry], by
          rw [hkept q (hK q hq) hne, harray]⟩
      · obtain rfl := List.mem_singleton.1 hp
        refine ⟨h.cells.size, hnew, by rw [Dict.get?_insert, if_pos rfl], ?_⟩
        rw [cells_collect_map hcell, if_neg (Nat.ne_of_lt (hK r hr))]
        exact Array.getElem?_push_size
    · rw [List.map_append]
      rw [Dict.get?_insert] at hv
      split at hv
      · exact List.mem_append_right _ (List.mem_singleton.2 (Eq.symm ‹_›))
      · exact List.mem_append_left _ (hnames key v hv)

end Heap

/-- What avoids the cells that hold arguments avoids them when more has been collected. -/
theorem Value.Avoids.added {h' : Heap} {v : Value} (hv : v.Avoids K h)
    (hcells : ∀ r < h.cells.size, ¬ K r → h'.cells[r]? = h.cells[r]?) :
    v.Avoids (Heap.added K h h') h' :=
  hv.of_same hcells fun _ hr hadded => hadded.resolve_right fun hnew => Nat.not_le.2 hr hnew.1

end holding

/-! ### Calling -/

/-- Whether a call has started a function whose arguments were above some operands: these are left,
and the variables of the function are what its arguments and those of its segments route to them. -/
structure Machine.Starts (c : Context) (id : BlockId) (f : FuncInfo) (gs : Dict Segment)
    (below : Array Value) (vs : List Value) (named : List (String × List Value)) (m m' : Machine) :
    Prop where
  stack : m'.stack = below
  heap : m.heap.Extends m'.heap
  env : m'.env = m.env
  frames : ∃ (slots : List Value) (rest : List Frame),
    m'.frames = .block { block := id, slots := slots.toArray, base := below.size, role := .call }
    :: rest ∧
      rest.map Frame.spot = m.spots ∧ Routed (c.block id) f gs m'.heap slots
      (m.passed f.variadic vs) named

namespace Exec

variable {id : BlockId} {f : FuncInfo} {g : Signature} {gs : Dict Segment} {K : Ref →
  Prop} {below : Array Value}
  {operand : Value} {vs slots : List Value} {named : List (String × List Value)}

/-- What a call does when its arguments are bound: it is paid for and counted, and starts the
block. -/
theorem enters_cases (hid : id < c.registry.arena.size)
    (hslots : (c.block id).vars.size ≤ slots.length) (m : Machine) :
    let enters : Exec Unit := do
      pay c.limits [.function]
      checkDepth c
      enterBlock c id slots .call
    enters m = .ok () (entering id slots .call { m with cost := m.cost - c.limits.costCall }) ∨
      StopsLimited c enters m := by
  intro enters
  -- Nothing is padded, since there are values for all variables of the block.
  have henters : enters = (do
      charge c.limits.costCall
      checkDepth c
      modify (entering id slots .call)) := by
    have hpay : pay c.limits [.function] = charge c.limits.costCall :=
      pay_singleton c.limits .function
    rw [← enterBlock_of_le hid hslots, ← hpay]
  rw [StopsLimited, henters]
  rcases charge_cases c c.limits.costCall m with hcharge | hstop
  · rw [bind_of_ok hcharge]
    unfold checkDepth
    rw [bind_assoc, get_bind_apply]
    dsimp only
    split
    · exact .inr ⟨.fault .callDepth, _, .depth, rfl⟩
    · exact .inl rfl
  · exact .inr hstop.bind

section calling

variable (hf : (c.block id).func? = some f) (hgs : f.segments = some gs)
  (hstack : m.stack = (below ++ vs.toArray).push operand) (hheld : Holding K m.heap operand named)
  (hlayout : g.Layout f (c.block id))

include hf hgs hstack hheld hlayout

/-- **A call starts the function** with what its arguments and those of its segments route to the
variables. -/
theorem callFunc_eq_ok (hnamed : ∀ p ∈ named, ∃ t, gs.get? p.1 = some t ∧ t.takes p.2.length = true)
    (hfixed : f.variadic = false → vs.length = f.params.length)
    (h : callFunc c id (counted f.variadic vs.length) m = .ok () m') :
    m.Starts c id f gs below vs named m' := by
  rw [callFunc_eq] at h
  obtain ⟨slots, m₁, hslots, h⟩ := bind_eq_ok h
  rw [callSlots_apply hf hgs hstack hfixed] at hslots
  have hpassed : f.variadic = false → (m.passed f.variadic vs).length = f.params.length :=
    fun hv => by
    rw [Machine.passed, hv]
    exact hfixed hv
  obtain ⟨hgrew, hsize, hrouted⟩ := bindCall_eq_ok (m := { m with stack := below, spread := false })
    hlayout hgs hheld hnamed hpassed hslots
  obtain ⟨heap, hext, rfl⟩ := hgrew
  rcases enters_cases (c.lt_size_of_func? hf) hsize _ with henters | ⟨e, m', -, henters⟩
  · cases henters.symm.trans h
    exact ⟨rfl, hext, rfl, slots, m.frames, rfl, rfl, hrouted⟩
  · cases henters.symm.trans h

/-- Only a limit stops a call whose arguments the parameters accept. -/
theorem callFunc_of_accepts (hvs : Accepts f.variadic f.params (m.passed f.variadic vs))
    (hfixed : f.variadic = false → vs.length = f.params.length)
    (hnamed : ∀ p ∈ named, ∃ t, gs.get? p.1 = some t ∧ Accepts t.variadic t.params p.2) :
    (∃ m', callFunc c id (counted f.variadic vs.length) m = .ok () m') ∨
      StopsLimited c (callFunc c id (counted f.variadic vs.length)) m := by
  obtain ⟨slots, m₁, hslots⟩ :=
    bindCall_of_accepts (m := { m with stack := below, spread := false }) hlayout hgs
    hheld hvs hnamed
  have hpassed : f.variadic = false → (m.passed f.variadic vs).length = f.params.length :=
    fun hv => by
    rw [Machine.passed, hv]
    exact hfixed hv
  have htakes : ∀ p ∈ named, ∃ t, gs.get? p.1 = some t ∧ t.takes p.2.length = true := fun p hp => by
    obtain ⟨t, ht, haccepts⟩ := hnamed p hp
    exact ⟨t, ht, Segment.takes_iff.2 haccepts.fits⟩
  obtain ⟨-, hsize, -⟩ := bindCall_eq_ok (m := { m with stack := below, spread := false })
    hlayout hgs hheld htakes hpassed hslots
  rw [← callSlots_apply hf hgs hstack hfixed] at hslots
  rw [StopsLimited, callFunc_eq, bind_of_ok hslots]
  exact (enters_cases (c.lt_size_of_func? hf) hsize m₁).imp_left fun henters => ⟨_, henters⟩

end calling

/-- The number of arguments that has been pushed is found. -/
theorem popCount_of_push {s : Array Value} {count : Nat} (hcount : count < 2 ^ 64)
    (hstack : m.stack = s.push (.int (.ofNat count))) :
    popCount m = .ok count { m with stack := s } := by
  have hvalue : (Int64.ofNat count).toUInt64.toNat = count := by
    rw [Int64.toUInt64_ofNat']
    exact UInt64.toNat_ofNat_of_lt' hcount
  unfold popCount
  rw [bind_of_ok (pop_of_push hstack), get_bind_apply]
  change EStateM.Result.ok _ _ = _
  rw [hvalue]

open Compile in
/-- The last instructions of a call tell a function that collects what is left the number of the
arguments, and call. -/
theorem steps_calls {variadic : Bool} {count : Nat} (hcount : variadic = true → count < 2 ^ 64)
    (hfaces : m.Faces c ((Ending.of (.func id) variadic count).counting ++
      [(Ending.of (.func id) variadic count).op])) :
    let n := (Ending.of (.func id) variadic count).counting.length
    steps c (n + 1) m = callFunc c id (counted variadic count)
    (ticked (m.behind n m.heap m.stack)) ∨
      StopsLimited c (steps c (n + 1)) m := by
  cases variadic with
  | false =>
    intro n
    -- A function with fixed parameters is called at once, without a count on the stack.
    have hsame : m.behind n m.heap m.stack = m := by
      obtain ⟨_, _, _, frames, _, _, _, _, _, _⟩ := m
      rcases frames with _ | ⟨a | k, frames⟩ <;>
        simp [n, Machine.behind, Frame.skip, Ending.of, Ending.counting, Ending.count?]
    rw [hsame, show n + 1 = 1 from rfl, steps_one]
    exact step_cases hfaces
  | true =>
    intro n
    change (step c >>= fun _ => steps c 1) m = _ ∨ StopsLimited c (step c >>= fun _ => steps c 1) m
    rw [steps_one]
    rcases step_cases hfaces with hpush | hstop
    · rw [perform_push] at hpush
      rw [StopsLimited, bind_of_ok hpush]
      refine (step_cases (hfaces.tail _ _)).imp_left fun hcall => hcall.trans ?_
      exact bind_of_ok (popCount_of_push (hcount rfl) rfl)
    · exact .inr hstop.bind

end Exec

end Covenant
