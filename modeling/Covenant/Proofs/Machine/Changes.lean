import Covenant.Proofs.Heap.Lasting
import Covenant.Proofs.Machine.Twins

/-!
# What the machine changes

Apart from ending blocks and contracts, what the machine does is made of a few kinds of changes
(`Change`): it works on operands and adds cells, writes into an array or map, starts a block,
assigns to a variable, binds names of the environment, calls a host function, or begins a contract.
A computation that makes such changes only is `Exec.Tame`, and there is one lemma about each
function of the machine; those about calls, instructions and steps are in the next module.

What is watched meanwhile is a parameter (`Watch`): a property that all values have, a height of the
operand stack below which nothing is touched, what is known of writes, and what explains that the
run breaks off. So the same lemmas tell what becomes of references, of the memory meter, and of a
caller's operands.
-/

namespace Covenant

open Covenant.Computation

/-! ### Machines -/

/-- The values that a frame holds: a block its variables, a contract what it keeps for its
caller. -/
def Frame.values : Frame → List Value
  | .block a => a.slots.toList
  | .contract k => k.this.toList ++ k.parent.toList ++ k.saved.map Prod.snd

/-- A frame without its position and all that changes while its variables stay. -/
def Frame.fixed : Frame → Frame
  | .block a => .block { block := a.block, slots := a.slots, base := a.base, role := a.role }
  | .contract k => .contract { k with sections := [] }

theorem Frame.values_fixed (f : Frame) : f.fixed.values = f.values := by
  cases f <;> rfl

/-- The value of a variable is one of a frame. -/
theorem Frame.mem_of_slot? {v : VarRef} {x : Value} {fs : List Frame}
    (h : Frame.slot? v fs = some x) :
    ∃ f ∈ fs, x ∈ f.values := by
  fun_induction Frame.slot? v fs with
  | case1 => cases h
  | case2 a fs _ =>
    exact ⟨_, List.mem_cons_self .., Array.mem_toList_iff.2 (Array.mem_of_getElem? h)⟩
  | case3 a fs _ ih =>
    obtain ⟨f, hf, hx⟩ := ih h
    exact ⟨f, List.mem_cons_of_mem _ hf, hx⟩
  | case4 k fs ih =>
    obtain ⟨f, hf, hx⟩ := ih h
    exact ⟨f, List.mem_cons_of_mem _ hf, hx⟩

/-- Assigning to a variable brings no other value into the frames. -/
theorem Frame.mem_setSlot {v : VarRef} {x : Value} {fs : List Frame} {f : Frame} {y : Value}
    (hf : f ∈ Frame.setSlot v x fs) (hy : y ∈ f.values) : y = x ∨ ∃ g ∈ fs, y ∈ g.values := by
  fun_induction Frame.setSlot v x fs with
  | case1 => cases hf
  | case2 a fs _ =>
    rcases List.mem_cons.1 hf with rfl | hf
    · have hy : y ∈ (a.slots.setIfInBounds v.index x).toList := hy
      rw [Array.toList_setIfInBounds] at hy
      exact (List.mem_or_eq_of_mem_set hy).symm.imp_right fun hy => ⟨_, List.mem_cons_self .., hy⟩
    · exact .inr ⟨f, List.mem_cons_of_mem _ hf, hy⟩
  | case3 a fs _ ih | case4 k fs ih =>
    rcases List.mem_cons.1 hf with rfl | hf
    · exact .inr ⟨_, List.mem_cons_self .., hy⟩
    · refine (ih hf).imp_right fun hinside => ?_
      obtain ⟨g, hg, hyg⟩ := hinside
      exact ⟨g, List.mem_cons_of_mem _ hg, hyg⟩

/-- The number of arguments that the latest operand gives. -/
def Machine.count? (m : Machine) : Option Nat :=
  match m.stack.back? with
  | none => none
  | some v => ((v.toInt m.heap).toOption).map fun n => n.toUInt64.toNat

/-- Whether all values of a machine have a property, but for the operands below a height. -/
structure Machine.Has (P : Heap → Value → Prop) (m : Machine) (n : Nat := 0) : Prop where
  nil : P m.heap .nil
  stack : ∀ v ∈ m.stack.toList.drop n, P m.heap v
  frames : ∀ f ∈ m.frames, ∀ v ∈ f.values, P m.heap v
  env : m.env.All (P m.heap)

theorem Machine.Has.of_true (m : Machine) (n : Nat) : m.Has (fun _ _ => True) n :=
  ⟨trivial, fun _ _ => trivial, fun _ _ _ _ => trivial, fun _ _ _ => trivial⟩

/-- The latest operands have the property, if they do not reach below the height. -/
theorem Machine.Has.of_append {P : Heap → Value → Prop} {m : Machine} {n : Nat} (hm : m.Has P n)
    {s vs : List Value} (hstack : m.stack.toList = s ++ vs) (hn : n ≤ s.length) :
    ∀ v ∈ vs, P m.heap v := by
  intro v hv
  refine hm.stack v ?_
  rw [hstack, List.drop_append_of_le_length hn]
  exact List.mem_append_right _ hv

/-! ### Changes -/

/-- Whether a machine differs from another one in operands above a height, new cells, positions in
the code, and counters. -/
structure Quiet (n : Nat) (m m' : Machine) : Prop where
  heap : m.heap.Extends m'.heap
  frames : m'.frames.map Frame.fixed = m.frames.map Frame.fixed
  env : m'.env = m.env
  mem : m'.mem = m.mem
  stack : m'.stack.toList.take n = m.stack.toList.take n

/-- The machine behind a host function. -/
def Exec.hosted (run : List Value → Host → Reply × Host) (args : List Value) (m : Machine) :
    Machine :=
  let host := (run args ⟨m.heap, m.env, m.cost⟩).2
  { m with heap := host.heap, env := host.env, cost := host.cost }

/-- What is watched while the machine runs. -/
structure Watch where
  context : Context
  /-- What is said of all values. -/
  values : Heap → Value → Prop
  /-- The height of the operand stack below which nothing is touched. -/
  floor : Nat := 0
  /-- What is known when a value is written at a place and the memory meter is set. -/
  write : Machine → Place → Value → Int → Prop := fun _ _ _ _ => True
  /-- Which variables may be assigned to. -/
  assigns : VarRef → Prop := fun _ => True
  /-- What explains that the run breaks off. -/
  crash : Prop := True

/-- A kind of change. -/
inductive Change (w : Watch) (m : Machine) : Machine → Prop
  | quiet {m' : Machine} : Quiet w.floor m m' → Change w m m'
  /-- A block becomes the innermost frame, with a value for each of its variables. -/
  | enter (a : Activation) : w.floor ≤ a.base →
      (w.context.block a.block).vars.size ≤ a.slots.size → Change w m
      { m with
        mem := m.mem + Exec.sizeOf m.heap a.slots
        depth := m.depth + a.role.calls
        frames := .block a :: m.frames }
  | assign (v : VarRef) (x old : Value) : Frame.slot? v m.frames = some old →
    w.assigns v → Change w m
      { m with
        mem := m.mem + (x.memSize m.heap - old.memSize m.heap)
        frames := Frame.setSlot v x m.frames }
  | bind (env : Dict Value) : Change w m { m with env := env }
  | write (p : Place) (value : Value) (mem : Int) : w.write m p value mem →
      Change w m { m with heap := m.heap.store p value, mem := mem }
  | host (e : Extension) (run : List Value → Host → Reply × Host) (args : List Value) :
      w.context.registry.Offers e → e.behaviour = .host run → (∀ v ∈ args, w.values m.heap v) →
      Change w m (Exec.hosted run args m)
  /-- A contract becomes the innermost frame. -/
  | begin (k : ContractCall) (env : Dict Value) :
      Change w m
        { m with env := env, depth := m.depth + k.calls, frames := .contract k :: m.frames }

/-- A change that keeps what is said of values. -/
structure Link (w : Watch) (m m' : Machine) : Prop where
  change : Change w m m'
  before : m.Has w.values w.floor
  after : m'.Has w.values w.floor
  lasts : ∀ v, w.values m.heap v → w.values m'.heap v

/-- Some changes in a row. -/
def Follows (w : Watch) : Machine → Machine → Prop := Relation.ReflTransGen (Link w)

/-- Whether the values of a machine have the property that is watched, and some operands lie above
the height that is watched. Where all operands may be taken, the height is zero, and nothing is said
of it. -/
structure Machine.Ready (w : Watch) (k : Nat) (m : Machine) : Prop where
  has : m.Has w.values w.floor
  room : w.floor ≤ m.stack.size - k

variable {w : Watch} {m m' m'' : Machine} {k : Nat}

theorem Machine.Ready.mono {j : Nat} (hm : m.Ready w k) (hj : j ≤ k) : m.Ready w j :=
  ⟨hm.has, hm.room.trans (Nat.sub_le_sub_left hj _)⟩

namespace Quiet

theorem refl (n : Nat) (m : Machine) : Quiet n m m := ⟨.refl _, rfl, rfl, rfl, rfl⟩

/-- The values stay as they are, but for new operands. -/
theorem has {n : Nat} (h : Quiet n m m') {P : Heap → Value → Prop} (hP : Lasting P) (hm : m.Has P n)
    (hstack : ∀ v ∈ m'.stack.toList.drop n, P m'.heap v) : m'.Has P n := by
  refine ⟨hP.grow hm.nil h.heap, hstack, fun f hf v hv => ?_, ?_⟩
  · have hfixed : f.fixed ∈ m.frames.map Frame.fixed := h.frames ▸ List.mem_map_of_mem hf
    obtain ⟨g, hg, hgf⟩ := List.mem_map.1 hfixed
    rw [← f.values_fixed, ← hgf, g.values_fixed] at hv
    exact hP.grow (hm.frames g hg v hv) h.heap
  · rw [h.env]
    exact hm.env.imp fun v hv => hP.grow hv h.heap

end Quiet

namespace Follows

theorem refl (m : Machine) : Follows w m m := Relation.ReflTransGen.refl

theorem trans (h : Follows w m m') (h' : Follows w m' m'') : Follows w m m'' :=
  Relation.ReflTransGen.trans h h'

theorem has (h : Follows w m m') (hm : m.Has w.values w.floor) : m'.Has w.values w.floor := by
  induction h with
  | refl => exact hm
  | tail _ hlink _ => exact hlink.after

theorem lasts (h : Follows w m m') {v : Value} (hv : w.values m.heap v) : w.values m'.heap v := by
  induction h with
  | refl => exact hv
  | tail _ hlink ih => exact hlink.lasts v ih

end Follows

/-- Whether a run that stops has broken off, or reports that another one has. That the counter for
the cost overflows is a matter of the charges and is not meant here. -/
def Stop.IsPanic : Stop → Prop
  | .crash => True
  | .fault f => f = .runtimePanic
  | .overflow => False

/-- Whether a fault reports that something has broken off. -/
def Fault.panics : Fault → Bool
  | .runtimePanic => true
  | _ => false

/-! ### Tame computations -/

namespace Exec

variable {α β : Type} {Q : α → Heap → Prop} {R : β → Heap → Prop} {j l : Nat}

/-- Whether the result of a computation that starts in a machine is reached by changes only. If it
succeeds, some operands are left above the height that is watched and the value is as it should be;
if it breaks off, this has an explanation. -/
def Tame (w : Watch) (m : Machine) (k : Nat) (Q : α → Heap → Prop)
    (r : EStateM.Result Stop Machine α) : Prop :=
  Follows w m (left r) ∧ match r with
    | .ok a m' => w.floor ≤ m'.stack.size - k ∧ Q a m'.heap
    | .error e _ => e.IsPanic → w.crash

/-- What is required of values. -/
def Values (w : Watch) (vs : List Value) (h : Heap) : Prop := ∀ v ∈ vs, w.values h v

namespace Tame

theorem ok {a : α} (hm : m.Ready w k) (ha : Q a m.heap) : Tame w m k Q (.ok a m) :=
  ⟨.refl m, hm.room, ha⟩

theorem refusal {f : Fault} (hf : f ≠ .runtimePanic) : Tame w m k Q (.error (.fault f) m) :=
  ⟨.refl m, fun h => absurd h hf⟩

theorem fault (f : Fault) (hf : f.panics = false) : Tame w m k Q (.error (.fault f) m) := by
  refine refusal fun h => ?_
  rw [h] at hf
  cases hf

theorem crash (h : w.crash) : Tame w m k Q (.error .crash m) := ⟨.refl m, fun _ => h⟩

theorem overflow : Tame w m k Q (.error .overflow m) := ⟨.refl m, False.elim⟩

/-- Two parts in a row, where the second may use how the first has ended. -/
theorem bind_eq {x : Exec α} {f : α → Exec β} (hm : m.Ready w k) (hx : Tame w m j Q (x m))
    (hf : ∀ a m₁, x m = .ok a m₁ → m₁.Ready w j →
      (∀ {v}, w.values m.heap v → w.values m₁.heap v) → Q a m₁.heap → Tame w m₁ l R (f a m₁)) :
    Tame w m l R ((x >>= f) m) := by
  change Tame w m l R (EStateM.bind x f m)
  rw [EStateM.bind]
  cases hr : x m with
  | ok a m₁ =>
    rw [hr] at hx
    obtain ⟨hfollows, hroom, ha⟩ := hx
    obtain ⟨hfollows', hrest⟩ := hf a m₁ hr ⟨hfollows.has hm.has, hroom⟩ hfollows.lasts ha
    exact ⟨hfollows.trans hfollows', hrest⟩
  | error e m₁ =>
    rw [hr] at hx
    exact hx

theorem bind {x : Exec α} {f : α → Exec β} (hm : m.Ready w k) (hx : Tame w m j Q (x m))
    (hf : ∀ a m₁, m₁.Ready w j → (∀ {v}, w.values m.heap v → w.values m₁.heap v) → Q a m₁.heap →
      Tame w m₁ l R (f a m₁)) : Tame w m l R ((x >>= f) m) :=
  bind_eq hm hx fun a m₁ _ => hf a m₁

/-- What comes behind a change of the machine. -/
theorem after {r : EStateM.Result Stop Machine α} {b : β} (hm : m.Ready w k)
    (h : Tame w m j R (.ok b m')) (hr : m'.Ready w j → Tame w m' l Q r) : Tame w m l Q r := by
  obtain ⟨hfollows, hroom, -⟩ := h
  obtain ⟨hfollows', hrest⟩ := hr ⟨hfollows.has hm.has, hroom⟩
  exact ⟨hfollows.trans hfollows', hrest⟩

theorem get_bind {f : Machine → Exec β} (h : Tame w m k R (f m m)) :
    Tame w m k R ((get >>= f) m) := h

theorem ite {p : Prop} [Decidable p] {x y : Exec α} (hx : p → Tame w m k Q (x m))
    (hy : ¬ p → Tame w m k Q (y m)) : Tame w m k Q ((if p then x else y) m) := by
  split
  · exact hx ‹_›
  · exact hy ‹_›

theorem ofExcept {r : Except Fault α} (hm : m.Ready w k) (hr : Gives (fun a => Q a m.heap) r) :
    Tame w m k Q (ofExcept r m) := by
  cases r with
  | ok a => exact .ok hm hr
  | error f => exact .refusal hr

/-- A single change. -/
theorem of_link {r : EStateM.Result Stop Machine α} {a : α} (hr : r = .ok a m') (h : Link w m m')
    (hroom : w.floor ≤ m'.stack.size - k) (ha : Q a m'.heap) : Tame w m k Q r := by
  subst hr
  exact ⟨.single h, hroom, ha⟩

/-- A quiet change. -/
theorem of_quiet (hP : Lasting w.values) {r : EStateM.Result Stop Machine α} {a : α}
    (hr : r = .ok a m') (hm : m.Has w.values w.floor) (h : Quiet w.floor m m')
    (hstack : ∀ v ∈ m'.stack.toList.drop w.floor, w.values m'.heap v)
    (hroom : w.floor ≤ m'.stack.size - k) (ha : Q a m'.heap) : Tame w m k Q r :=
  of_link hr ⟨.quiet h, hm, h.has hP hm hstack, fun _ hv => hP.grow hv h.heap⟩ hroom ha

/-- A quiet change that keeps heap and operands. -/
theorem of_counters (hP : Lasting w.values) {r : EStateM.Result Stop Machine α} {a : α}
    (hr : r = .ok a m') (hm : m.Ready w k) (hheap : m'.heap = m.heap)
    (hframes : m'.frames.map Frame.fixed = m.frames.map Frame.fixed) (henv : m'.env = m.env)
    (hmem : m'.mem = m.mem) (hstack : m'.stack = m.stack) (ha : Q a m.heap) : Tame w m k Q r := by
  have hquiet : Quiet w.floor m m' :=
    ⟨hheap ▸ .refl _, hframes, henv, hmem, by rw [hstack]⟩
  refine of_quiet hP hr hm.has hquiet ?_ (hstack ▸ hm.room) (hheap ▸ ha)
  rw [hstack, hheap]
  exact hm.has.stack

end Tame

/-! ### Operands -/

theorem toList_shrink (stack : Array Value) (height : Nat) :
    (stack.shrink height).toList = stack.toList.take height := by
  rw [Array.shrink_eq_take, Array.take_eq_extract, Array.toList_extract, List.extract_eq_take_drop]
  simp

/-- A function that returns leaves its results above where it began. -/
theorem keepResults_eq_ok {f : FuncInfo} {base : Nat} (h : keepResults f base m = .ok () m') :
    ∃ vs : List Value, vs.length = f.results.length ∧ base ≤ m.stack.size ∧
      m'.stack.toList = m.stack.toList.take base ++ vs ∧ m' = { m with stack := m'.stack } := by
  change (if m.stack.size < base + f.results.length then _ else
    if base + f.results.length < m.stack.size then _ else _ : Exec Unit) m = _ at h
  split at h
  · cases h
  · rename_i hsize
    split at h
    · cases h
      refine ⟨(m.stack.extract (m.stack.size - f.results.length) m.stack.size).toList,
        ?_, by omega, ?_, rfl⟩
      · rw [Array.length_toList, Array.size_extract]
        omega
      · show (List.foldl Array.push (m.stack.shrink base) _).toList = _
        simp
    · cases h
      refine ⟨m.stack.toList.drop base, ?_, by omega, (List.take_append_drop ..).symm, rfl⟩
      rw [List.length_drop, Array.length_toList]
      omega

theorem le_size_of_keepResults {f : FuncInfo} {base : Nat} (h : keepResults f base m = .ok () m') :
    base ≤ m'.stack.size := by
  obtain ⟨vs, -, hbase, hstack, -⟩ := keepResults_eq_ok h
  rw [← Array.length_toList, hstack, List.length_append, List.length_take, Array.length_toList]
  omega

theorem pop_eq_ok {v : Value} (h : m.stack.back? = some v) :
    pop m = .ok v { m with stack := m.stack.pop } := by
  change (match m.stack.back? with
    | none => _
    | some v => _ : Exec Value) m = _
  rw [h]
  rfl

theorem pop_eq_error (h : m.stack.back? = none) : pop m = .error (.fault .stackEmpty) m := by
  change (match m.stack.back? with
    | none => _
    | some v => _ : Exec Value) m = _
  rw [h]
  rfl

/-- An operand that is taken was the latest. -/
theorem stack_of_pop {v : Value} (h : pop m = .ok v m') :
    ∃ s, m.stack.toList = s.toList ++ [v] ∧ m' = { m with stack := s } := by
  cases hback : m.stack.back? with
  | none =>
    rw [pop_eq_error hback] at h
    cases h
  | some u =>
    rw [pop_eq_ok hback] at h
    cases h
    refine ⟨m.stack.pop, ?_, rfl⟩
    obtain ⟨s, hs⟩ := Array.back?_eq_some_iff.1 hback
    rw [hs]
    simp

/-- Operands that are taken were the latest. -/
theorem stack_of_popN {n : Nat} {vs : List Value} (h : popN n m = .ok vs m') :
    ∃ s, m.stack.toList = s.toList ++ vs ∧ vs.length = n ∧ m' = { m with stack := s } := by
  change (if m.stack.size < n then _ else _ : Exec (List Value)) m = _ at h
  split at h
  · cases h
  · rename_i hsize
    cases h
    have hlist : (m.stack.extract (m.stack.size - n) m.stack.size).toList
        = m.stack.toList.drop (m.stack.size - n) := by simp
    refine ⟨m.stack.shrink (m.stack.size - n), ?_, ?_, rfl⟩
    · rw [toList_shrink, hlist, List.take_append_drop]
    · rw [hlist, List.length_drop, Array.length_toList]
      omega

section

variable (hP : Lasting w.values)
include hP

/-- A value that is watched can be pushed. -/
theorem tame_push (hm : m.Ready w k) {v : Value} (hv : w.values m.heap v) :
    Tame w m k (fun _ _ => True) (push v m) := by
  have hroom := hm.room
  have hquiet : Quiet w.floor m { m with stack := m.stack.push v } := by
    refine ⟨.refl _, rfl, rfl, rfl, ?_⟩
    rw [Array.toList_push, List.take_append_of_le_length]
    rw [Array.length_toList]
    omega
  refine .of_quiet hP rfl hm.has hquiet ?_ ?_ trivial
  · intro u hu
    rw [Array.toList_push, List.drop_append_of_le_length (by rw [Array.length_toList]; omega),
      List.mem_append, List.mem_singleton] at hu
    rcases hu with hu | rfl
    · exact hm.has.stack u hu
    · exact hv
  · rw [Array.size_push]
    omega

/-- So can several. -/
theorem tame_pushAll (hm : m.Ready w k) {vs : List Value} (hvs : Values w vs m.heap) :
    Tame w m k (fun _ _ => True) (pushAll vs m) := by
  have hroom := hm.room
  have hstack : (vs.foldl Array.push m.stack).toList = m.stack.toList ++ vs := by simp
  have hquiet : Quiet w.floor m { m with stack := vs.foldl Array.push m.stack } := by
    refine ⟨.refl _, rfl, rfl, rfl, ?_⟩
    rw [hstack, List.take_append_of_le_length]
    rw [Array.length_toList]
    omega
  refine .of_quiet hP rfl hm.has hquiet ?_ ?_ trivial
  · intro u hu
    rw [hstack, List.drop_append_of_le_length (by rw [Array.length_toList]; omega),
      List.mem_append] at hu
    exact hu.elim (hm.has.stack u) (hvs u)
  · rw [← Array.length_toList, hstack, List.length_append, Array.length_toList]
    omega

/-- Dropping operands. -/
theorem tame_shrink {α : Type} {Q : α → Heap → Prop} {a : α}
    (hm : m.Has w.values w.floor) {height : Nat} (hheight : w.floor ≤ height - k)
    (hsize : w.floor ≤ m.stack.size - k) (ha : Q a m.heap) :
    Tame w m k Q (.ok a { m with stack := m.stack.shrink height }) := by
  have hlist := toList_shrink m.stack height
  have hquiet : Quiet w.floor m { m with stack := m.stack.shrink height } := by
    refine ⟨.refl _, rfl, rfl, rfl, ?_⟩
    rw [hlist, List.take_take, Nat.min_eq_left (by omega)]
  refine .of_quiet hP rfl hm hquiet ?_ ?_ ha
  · intro u hu
    rw [hlist, List.drop_take] at hu
    exact hm.stack u (List.mem_of_mem_take hu)
  · rw [Array.size_shrink]
    omega

/-- What is popped is a watched value, if there is one left that may be popped. -/
theorem tame_pop (hm : m.Ready w (k + 1)) : Tame w m k (fun v h => w.values h v) (pop m) := by
  have hroom := hm.room
  cases hback : m.stack.back? with
  | none =>
    rw [pop_eq_error hback]
    exact .fault _ rfl
  | some v =>
    have hpop : m.stack.pop = m.stack.shrink (m.stack.size - 1) := by
      refine Array.ext' ?_
      rw [Array.toList_pop, toList_shrink, List.dropLast_eq_take, Array.length_toList]
    rw [pop_eq_ok hback, hpop]
    refine tame_shrink hP hm.has (by omega) (by omega) ?_
    obtain ⟨s, hs⟩ := Array.back?_eq_some_iff.1 hback
    have hsize : m.stack.size = s.size + 1 := by rw [hs, Array.size_push]
    have hstack : m.stack.toList = s.toList ++ [v] := by rw [hs, Array.toList_push]
    exact hm.has.of_append hstack (by rw [Array.length_toList]; omega) v (List.mem_singleton_self v)

/-- Replacing the latest operand. -/
theorem tame_replaceTop (hm : m.Ready w 1) {v : Value} (hv : w.values m.heap v) :
    Tame w m 0 (fun _ _ => True) (.ok PUnit.unit { m with stack := m.stack.pop.push v }) := by
  have hroom := hm.room
  have hlist : (m.stack.pop.push v).toList = m.stack.toList.take (m.stack.size - 1) ++ [v] := by
    rw [Array.toList_push, Array.toList_pop, List.dropLast_eq_take, Array.length_toList]
  have hlength : (m.stack.toList.take (m.stack.size - 1)).length = m.stack.size - 1 := by
    rw [List.length_take, Array.length_toList]
    omega
  have hquiet : Quiet w.floor m { m with stack := m.stack.pop.push v } := by
    refine ⟨.refl _, rfl, rfl, rfl, ?_⟩
    rw [hlist, List.take_append_of_le_length (by omega), List.take_take, Nat.min_eq_left (by omega)]
  refine .of_quiet hP rfl hm.has hquiet ?_ ?_ trivial
  · intro u hu
    rw [hlist, List.drop_append_of_le_length (by omega), List.drop_take, List.mem_append,
      List.mem_singleton] at hu
    rcases hu with hu | rfl
    · exact hm.has.stack u (List.mem_of_mem_take hu)
    · exact hv
  · rw [Array.size_push, Array.size_pop]
    omega

/-- So are several values. -/
theorem tame_popN {j : Nat} (hm : m.Ready w (j + k)) : Tame w m k (Values w) (popN j m) := by
  have hroom := hm.room
  refine .ite (fun _ => .fault _ rfl) fun hsize => ?_
  refine tame_shrink hP hm.has (by omega) (by omega) fun v hv => ?_
  rw [Array.toList_extract, List.extract_eq_take_drop] at hv
  refine hm.has.of_append (List.take_append_drop (m.stack.size - j) _).symm ?_ v
    (List.mem_of_mem_take hv)
  rw [List.length_take, Array.length_toList]
  omega

theorem tame_truncate (hm : m.Ready w k) {height : Nat} (hheight : w.floor ≤ height - k) :
    Tame w m k (fun _ _ => True) (truncate height m) :=
  tame_shrink hP hm.has hheight hm.room trivial

/-! ### Counters -/

theorem tame_charge (hm : m.Ready w k) (amount : Int) :
    Tame w m k (fun _ _ => True) (charge amount m) := by
  refine .get_bind (.ite (fun _ => .overflow) fun _ => ?_)
  refine .bind (Q := fun _ _ => True) hm (.of_counters hP rfl hm rfl rfl rfl rfl rfl trivial)
    fun _ m₁ hm₁ _ _ => ?_
  exact .ite (fun _ => .fault _ rfl) fun _ => .ok hm₁ trivial

theorem tame_pay (hm : m.Ready w k) (ks : List Charge) :
    Tame w m k (fun _ _ => True) (pay w.context.limits ks m) := by
  induction ks generalizing m with
  | nil => exact .ok hm trivial
  | cons x xs ih => exact .bind hm (tame_charge hP hm _) fun _ m₁ hm₁ _ _ => ih hm₁

/-- A tick leaves all values as they are. -/
theorem tame_tick (hm : m.Ready w k) : Tame w m k (fun _ _ => True) (tick w.context m) := by
  refine .bind (Q := fun _ _ => True) hm (.of_counters hP rfl hm rfl rfl rfl rfl rfl trivial)
    fun _ m₁ hm₁ _ _ => ?_
  refine .bind hm₁ (tame_charge hP hm₁ 1) fun _ m₂ hm₂ _ _ => ?_
  have hmem : Tame w m₂ k (fun _ _ => True)
      ((do if w.context.limits.maxMem < (← get).mem then fail .memoryLimit : Exec Unit) m₂) :=
    .ite (fun _ => .fault _ rfl) fun _ => .ok hm₂ trivial
  cases w.context.allowance with
  | none => exact hmem
  | some ms => exact .ite (fun _ => .fault _ rfl) fun _ => hmem

omit hP in
theorem tame_checkDepth (hm : m.Ready w k) :
    Tame w m k (fun _ _ => True) (checkDepth w.context m) :=
  .ite (fun _ => .fault _ rfl) fun _ => .ok hm trivial

/-! ### Activations -/

/-- The innermost block can be changed, but for what is fixed of it. -/
theorem tame_modifyTop (hm : m.Ready w k) {f : Activation → Activation}
    (hf : ∀ a, (Frame.block (f a)).fixed = (Frame.block a).fixed) :
    Tame w m k (fun _ _ => True) (modifyTop f m) := by
  unfold modifyTop
  rw [modify_apply]
  split
  · rename_i a rest hframes
    refine .of_counters hP rfl hm rfl ?_ rfl rfl rfl trivial
    rw [hframes, List.map_cons, List.map_cons, hf]
  · exact .ok hm trivial

theorem tame_advance (hm : m.Ready w k) : Tame w m k (fun _ _ => True) (advance m) :=
  tame_modifyTop hP hm fun _ => rfl

/-- Work on the heap that adds cells. -/
theorem tame_extend {α : Type} {Q : α → Heap → Prop} {a : α} {h : Heap} (hm : m.Ready w k)
    (hext : m.heap.Extends h) (ha : Q a h) : Tame w m k Q (.ok a { m with heap := h }) :=
  .of_quiet hP rfl hm.has ⟨hext, rfl, rfl, rfl, rfl⟩
    (fun v hv => hP.grow (hm.has.stack v hv) hext) hm.room ha

theorem tame_defaults (hm : m.Ready w k) (tys : List Ty) :
    Tame w m k (fun vs h => Values w vs h ∧ vs.length = tys.length) (defaults tys m) := by
  obtain ⟨hext, hvs⟩ := hP.defaults hm.has.nil tys
  exact tame_extend hP hm hext ⟨hvs, Heap.length_defaults _ _⟩

theorem tame_newArray (hm : m.Ready w k) {vs : List Value} (hvs : Values w vs m.heap) :
    Tame w m k (fun v h => w.values h v) (newArray vs m) :=
  tame_extend hP hm (.push _ _) (hP.array hm.has.nil hvs)

theorem tame_newMap (hm : m.Ready w k) {entries : List (String × Value)}
    (hentries : Values w (entries.map Prod.snd) m.heap) :
    Tame w m k (fun v h => w.values h v) (newMap entries m) := by
  refine tame_extend hP hm (.push _ _) (hP.map hm.has.nil (Dict.all_iff_forall_values.1 ?_))
  exact .ofList fun x hx => hentries x.2 (List.mem_map_of_mem hx)

/-! ### Variables and literals -/

omit hP in
/-- What a variable holds is a watched value. -/
theorem tame_readVar (hm : m.Ready w k) (v : VarRef) :
    Tame w m k (fun x h => w.values h x) (readVar v m) := by
  cases hx : Frame.slot? v m.frames with
  | none =>
    rw [readVar_of_none hx]
    exact .fault _ rfl
  | some x =>
    rw [readVar_of_some hx]
    obtain ⟨f, hf, hxf⟩ := Frame.mem_of_slot? hx
    exact .ok hm (hm.has.frames f hf x hxf)

omit hP in
/-- So is what the environment holds. -/
theorem tame_readExtend (hm : m.Ready w k) (name : String) :
    Tame w m k (fun x h => w.values h x) (readExtend name m) := by
  cases hx : m.env.get? name with
  | none =>
    rw [readExtend_of_none hx]
    exact .fault _ rfl
  | some x =>
    rw [readExtend_of_some hx]
    exact .ok hm (hm.has.env name x hx)

omit hP

mutual

/-- The value of a literal is a watched one, because what is new in the heap is made of watched
ones. -/
theorem tame_item (hP : Lasting w.values) {m : Machine} (hm : m.Ready w k) (i : Item) :
    Tame w m k (fun x h => w.values h x) (item i m) := by
  cases i with
  | const x => exact .ok hm (hP.scalar hm.has.nil (by cases x <;> rfl))
  | var v => exact tame_readVar hm v
  | extend name => exact tame_readExtend hm name
  | map entries =>
    exact .bind hm (tame_bindings hP hm entries) fun xs m₁ hm₁ _ hxs => tame_newMap hP hm₁ hxs
  | array is =>
    exact .bind hm (tame_items hP hm is) fun xs m₁ hm₁ _ hxs => tame_newArray hP hm₁ hxs

theorem tame_items (hP : Lasting w.values) {m : Machine} (hm : m.Ready w k) (is : List Item) :
    Tame w m k (Values w) (items is m) := by
  cases is with
  | nil => exact .ok hm nofun
  | cons i is =>
    refine .bind hm (tame_item hP hm i) fun x m₁ hm₁ _ hx => ?_
    refine .bind hm₁ (tame_items hP hm₁ is) fun xs m₂ hm₂ hlasts hxs => .ok hm₂ ?_
    exact List.forall_mem_cons.2 ⟨hlasts hx, hxs⟩

theorem tame_bindings (hP : Lasting w.values) {m : Machine} (hm : m.Ready w k)
    (is : List (String × Item)) :
    Tame w m k (fun xs => Values w (xs.map Prod.snd)) (bindings is m) := by
  cases is with
  | nil => exact .ok hm nofun
  | cons i is =>
    refine .bind hm (tame_item hP hm i.2) fun x m₁ hm₁ _ hx => ?_
    refine .bind hm₁ (tame_bindings hP hm₁ is) fun xs m₂ hm₂ hlasts hxs => .ok hm₂ ?_
    exact List.forall_mem_cons.2 ⟨hlasts hx, hxs⟩

end

include hP

/-! ### Assignments -/

/-- A watched value can be assigned to a variable that may be assigned to. -/
theorem tame_assignVar (hm : m.Ready w k) {v : VarRef} (hv : w.assigns v) {x : Value}
    (hx : w.values m.heap x) : Tame w m k (fun _ _ => True) (assignVar w.context v x m) := by
  unfold assignVar
  cases hold : Frame.slot? v m.frames with
  | none =>
    rw [bind_of_error (readVar_of_none hold)]
    exact .fault _ rfl
  | some old =>
    rw [bind_of_ok (readVar_of_some hold)]
    have hconvert := hP.convert ((w.context.block v.owner).vars[v.index]?) hx
    change Tame w m k _ (EStateM.bind (ofExcept _) _ m)
    rw [EStateM.bind]
    cases hy : Ty.convert ((w.context.block v.owner).vars[v.index]?) x with
    | error f =>
      rw [hy] at hconvert
      exact .refusal hconvert
    | ok y =>
      rw [hy] at hconvert
      -- The meter moves by the difference of the sizes, and one slot of one frame is set.
      have hafter : Machine.Has w.values { m with
          mem := m.mem + (y.memSize m.heap - old.memSize m.heap)
          frames := Frame.setSlot v y m.frames } w.floor := by
        refine ⟨hm.has.nil, hm.has.stack, fun f hf u hu => ?_, hm.has.env⟩
        rcases Frame.mem_setSlot hf hu with rfl | ⟨g, hg, hug⟩
        · exact hconvert
        · exact hm.has.frames g hg u hug
      exact .of_link rfl ⟨.assign v y old hold hv, hm.has, hafter, fun _ hv => hv⟩ hm.room trivial

omit hP in
/-- It can be bound in the environment, too. -/
theorem tame_assignExtend (hm : m.Ready w k) (name : String) {x : Value} (hx : w.values m.heap x) :
    Tame w m k (fun _ _ => True) (assignExtend name x m) := by
  have hset : Tame w m k (fun _ _ => True)
      (.ok PUnit.unit { m with env := m.env.insert name x }) := by
    refine .of_link rfl ⟨.bind (m.env.insert name x), hm.has, ?_, fun _ hv => hv⟩ hm.room trivial
    exact ⟨hm.has.nil, hm.has.stack, hm.has.frames, hm.has.env.insert hx name⟩
  cases hold : m.env.get? name with
  | none =>
    rw [assignExtend_of_none hold]
    exact hset
  | some old =>
    rw [assignExtend_of_some hold]
    split
    · exact .fault _ rfl
    · exact hset

/-- Assignments to several targets are made one after the other. -/
theorem tame_assignAll (hm : m.Ready w k) {ts : List Target} (hts : ∀ v, .var v ∈ ts → w.assigns v)
    {xs : List Value} (hxs : Values w xs m.heap) :
    Tame w m k (fun _ _ => True) (assignAll w.context ts xs m) := by
  induction ts generalizing m xs with
  | nil => exact .ok hm trivial
  | cons t ts ih =>
    cases xs with
    | nil => exact .ok hm trivial
    | cons x xs =>
      obtain ⟨hx, hrest⟩ := List.forall_mem_cons.1 hxs
      have hassign : Tame w m k (fun _ _ => True) (assign w.context t x m) := by
        cases t with
        | var v => exact tame_assignVar hP hm (hts v (List.mem_cons_self ..)) hx
        | extend name => exact tame_assignExtend hm name hx
      exact .bind hm hassign fun _ m₁ hm₁ hlasts _ =>
        ih hm₁ (fun v hv => hts v (List.mem_cons_of_mem _ hv)) fun v hv => hlasts (hrest v hv)

/-! ### Arguments -/

/-- The number that counts arguments is the one on top of the stack. -/
theorem tame_popCount (hm : m.Ready w (k + 1)) :
    Tame w m k (fun j _ => m.count? = some j) (popCount m) := by
  cases hback : m.stack.back? with
  | none =>
    rw [popCount, bind_of_error (pop_eq_error hback)]
    exact .fault _ rfl
  | some v =>
    have hpop := tame_pop hP hm
    rw [pop_eq_ok hback] at hpop
    obtain ⟨hfollows, hroom, -⟩ := hpop
    rw [popCount, bind_of_ok (pop_eq_ok hback)]
    have hgives := v.gives_toInt m.heap
    change Tame w m k _ (EStateM.bind (ofExcept (v.toInt m.heap)) _ _)
    cases hn : v.toInt m.heap with
    | error f =>
      rw [hn] at hgives
      exact ⟨hfollows, fun h => absurd h hgives⟩
    | ok n =>
      refine ⟨hfollows, hroom, ?_⟩
      rw [Machine.count?, hback]
      simp only [hn, Except.toOption, Option.map_some]

/-- Arguments are watched values, also the elements that the last one is spread into. -/
theorem tame_takeArgs {count : Nat} (hm : m.Ready w (count + k)) :
    Tame w m k (Values w) (takeArgs count m) := by
  refine .bind hm (tame_popN hP hm) fun args m₁ hm₁ _ hargs => ?_
  refine .get_bind ?_
  refine .bind (Q := fun _ => Values w args) hm₁ (.of_counters hP rfl hm₁ rfl rfl rfl rfl rfl hargs)
    fun _ m₂ hm₂ _ hargs => ?_
  have hkeep : Tame w m₂ k (Values w) (.ok args m₂) := .ok hm₂ hargs
  cases m₁.spread with
  | false => exact hkeep
  | true =>
    cases hlast : args.getLast? with
    | none => exact hkeep
    | some last =>
      cases last with
      | array r =>
        refine .get_bind (.ok hm₂ fun v hv => ?_)
        rcases List.mem_append.1 hv with hv | hv
        · exact hargs v (List.mem_of_mem_dropLast hv)
        · exact hP.items (hargs _ (List.mem_of_getLast? hlast)) v hv
      | _ => exact hkeep

theorem tame_takeFixed {count : Nat} (hm : m.Ready w (count + k)) :
    Tame w m k (Values w) (takeFixed count m) := by
  refine .bind (Q := fun _ _ => True) hm (.of_counters hP rfl hm rfl rfl rfl rfl rfl trivial)
    fun _ m₁ hm₁ _ _ => tame_popN hP hm₁

theorem tame_collectTail (hm : m.Ready w k) (fixed : Nat) {args : List Value}
    (hargs : Values w args m.heap) : Tame w m k (Values w) (collectTail fixed args m) := by
  refine .bind hm (tame_newArray hP hm fun v hv => hargs v (List.mem_of_mem_drop hv))
    fun tail m₁ hm₁ hlasts htail => .ok hm₁ fun v hv => ?_
  rcases List.mem_append.1 hv with hv | hv
  · exact hlasts (hargs v (List.mem_of_mem_take hv))
  · exact List.mem_singleton.1 hv ▸ htail

theorem tame_variadicArgs (hm : m.Ready w k) (f : FuncInfo) {args : List Value}
    (hargs : Values w args m.heap) : Tame w m k (Values w) (variadicArgs f args m) :=
  .ite (fun _ => .fault _ rfl) fun _ => tame_collectTail hP hm _ hargs

theorem tame_checkParams (hm : m.Ready w k) (i : Nat) (tys : List Ty) {args : List Value}
    (hargs : Values w args m.heap) : Tame w m k (Values w) (ofExcept (checkParams i tys args) m) :=
  .ofExcept hm (hP.checkParams i tys hargs)

omit hP in
/-- Values are put into variables. A crash is to be reckoned with where a variable is missing. -/
theorem tame_fillSlots (hm : m.Ready w k) {is : List Nat} {vs slots : List Value}
    (hvs : Values w vs m.heap) (hslots : Values w slots m.heap)
    (hcrash : ¬ (∀ i ∈ is, i < slots.length) → w.crash) :
    Tame w m k (fun xs h => Values w xs h ∧ xs.length = slots.length)
    (fillSlots is vs slots m) := by
  induction is generalizing vs slots with
  | nil => exact .ok hm ⟨hslots, rfl⟩
  | cons i is ih =>
    cases vs with
    | nil => exact .ok hm ⟨hslots, rfl⟩
    | cons v vs =>
      obtain ⟨hv, hrest⟩ := List.forall_mem_cons.1 hvs
      refine .ite (fun hi => ?_) fun hi => ?_
      · have hkept : Values w (slots.set i v) m.heap := fun u hu =>
          (List.mem_or_eq_of_mem_set hu).elim (hslots u) fun heq => heq ▸ hv
        have hset := ih hrest hkept fun hall => hcrash fun h => ?_
        · simpa only [List.length_set] using hset
        · refine hall fun j hj => ?_
          rw [List.length_set]
          exact h j (List.mem_cons_of_mem _ hj)
      · exact .crash (hcrash fun h => hi (h i (List.mem_cons_self ..)))

/-- The arguments of a segment are bound to its parameters, those that are left over in one
array. -/
theorem tame_bindSegment (hm : m.Ready w k) {g : Segment} {args slots : List Value}
    (hargs : Values w args m.heap) (hslots : Values w slots m.heap)
    (hcrash : ¬ (∀ i ∈ g.offsets, i < slots.length) → w.crash) :
    Tame w m k (fun xs h => Values w xs h ∧ xs.length = slots.length)
      (bindSegment g args slots m) := by
  have hrest : ∀ {m₁ : Machine} {args : List Value}, m₁.Ready w k → Values w args m₁.heap →
      Values w slots m₁.heap → Tame w m₁ k (fun xs h => Values w xs h ∧ xs.length = slots.length)
        ((do
          let args ← ofExcept (checkParams 1 g.params args)
          fillSlots g.offsets args slots : Exec (List Value)) m₁) := by
    intro m₁ args hm₁ hargs hslots
    exact .bind hm₁ (tame_checkParams hP hm₁ 1 g.params hargs) fun args m₂ hm₂ hlasts hargs =>
      tame_fillSlots hm₂ hargs (fun v hv => hlasts (hslots v hv)) hcrash
  refine .ite (fun _ => ?_) fun _ => hrest hm hargs hslots
  exact .bind hm (tame_collectTail hP hm _ hargs) fun args m₁ hm₁ hlasts hargs =>
    hrest hm₁ hargs fun v hv => hlasts (hslots v hv)

/-- The segments are bound one after the other. -/
theorem tame_bindSegments (hm : m.Ready w k) {named : Dict Value} {gs : List (String × Segment)}
    {slots : List Value} (hnamed : named.All (w.values m.heap)) (hslots : Values w slots m.heap)
    (hcrash : ¬ (∀ g ∈ gs, ∀ i ∈ g.2.offsets, i < slots.length) → w.crash) :
    Tame w m k (Values w) (bindSegments named gs slots m) := by
  induction gs generalizing m slots with
  | nil => exact .ok hm hslots
  | cons g gs ih =>
    obtain ⟨name, g⟩ := g
    have hskip : Tame w m k (Values w) (bindSegments named gs slots m) :=
      ih hm hnamed hslots fun hall => hcrash fun h => hall fun g hg =>
        h g (List.mem_cons_of_mem _ hg)
    unfold bindSegments
    cases hname : named.get? name with
    | none => exact hskip
    | some v =>
      cases v with
      | array r =>
        refine .get_bind (.bind hm (tame_bindSegment hP hm (hP.items (hnamed _ _ hname)) hslots
          fun hall => hcrash fun h => hall (h _ (List.mem_cons_self ..)))
          fun xs m₁ hm₁ hlasts hxs => ?_)
        refine ih hm₁ (hnamed.imp fun v hv => hlasts hv) hxs.1 fun hall => hcrash fun h => hall ?_
        rw [hxs.2]
        exact fun g hg => h g (List.mem_cons_of_mem _ hg)
      | _ => exact hskip

/-- What a call finds for its segments is a watched value. -/
theorem tame_popSegments {f : FuncInfo} (hm : m.Ready w (k + if f.segments.isSome then 1 else 0)) :
    Tame w m k (fun x h => ∀ v, x = some v → w.values h v) (popSegments f m) := by
  unfold popSegments
  cases hsegments : f.segments with
  | none =>
    rw [hsegments] at hm
    exact .ok hm nofun
  | some segments =>
    rw [hsegments] at hm
    change Tame w m k _ ((some <$> pop) m)
    rw [map_eq_pure_bind]
    refine .bind hm (tame_pop hP hm) fun v m₁ hm₁ _ hv => .ok hm₁ fun u hu => ?_
    cases hu
    exact hv

end

end Exec

end Covenant
