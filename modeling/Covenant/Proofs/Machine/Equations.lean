import Covenant.Machine.Run
import Covenant.Proofs.Computation
import Mathlib.Logic.Function.Iterate

/-!
# Equations of the machine

What reading and assigning a variable, a step, and a loop of steps are on a machine that is known.
The proofs about runs go from here: none of them opens `step` or `loop` again.
-/

namespace Covenant

/-! ### Errors -/

theorem Error.fault_passing (e : Error) (name : String) (line : Nat) :
    (e.passing name line).fault = e.fault := by
  unfold passing
  split
  · rfl
  · split <;> rfl

/-- Taking an error out through the frames keeps its cause. -/
theorem Registry.fault_unwind (r : Registry) (fs : List Frame) (line : Option Nat) (e : Error)
    (m : Machine) : (r.unwind fs line e m).1.fault = e.fault := by
  induction fs generalizing line e m with
  | nil => rfl
  | cons f fs ih =>
    cases f with
    | contract k => exact ih line e m.giveUp
    | block a =>
      rw [unwind]
      split
      · exact (ih ..).trans (e.fault_passing _ _)
      · exact ih ..

/-- What an error becomes on its way out does not depend on the machine. -/
theorem Registry.unwind_fst (r : Registry) (fs : List Frame) (line : Option Nat) (e : Error)
    (m m' : Machine) : (r.unwind fs line e m).1 = (r.unwind fs line e m').1 := by
  induction fs generalizing line e m m' with
  | nil => rfl
  | cons f fs ih =>
    cases f with
    | contract k => exact ih ..
    | block a =>
      rw [unwind, unwind]
      split
      · exact ih ..
      · exact ih ..

/-- An error gives up one frame after the other. -/
theorem Registry.unwind_snd (r : Registry) (fs : List Frame) (line : Option Nat) (e : Error)
    (m : Machine) : (r.unwind fs line e m).2 = Machine.giveUp^[fs.length] m := by
  induction fs generalizing line e m with
  | nil => rfl
  | cons f fs ih =>
    rw [List.length_cons, Function.iterate_succ_apply]
    cases f with
    | contract k => exact ih ..
    | block a =>
      rw [unwind]
      split
      · exact ih ..
      · exact ih ..

namespace Machine

theorem frames_giveUp (m : Machine) : m.giveUp.frames = m.frames.tail := by
  rcases hframes : m.frames with _ | ⟨a | k, rest⟩ <;> simp only [giveUp, hframes]
  · rfl
  · rfl
  · rfl

theorem cost_giveUp (m : Machine) : m.giveUp.cost = m.cost := by
  unfold giveUp
  split <;> rfl

theorem heap_giveUp (m : Machine) : m.giveUp.heap = m.heap := by
  unfold giveUp
  split <;> rfl

theorem frames_iterate_giveUp (n : Nat) (m : Machine) :
    (giveUp^[n] m).frames = m.frames.drop n := by
  induction n generalizing m with
  | zero => rfl
  | succ n ih => rw [Function.iterate_succ_apply, ih, frames_giveUp, List.drop_tail]

theorem cost_iterate_giveUp (n : Nat) (m : Machine) : (giveUp^[n] m).cost = m.cost := by
  induction n generalizing m with
  | zero => rfl
  | succ n ih => rw [Function.iterate_succ_apply, ih, cost_giveUp]

theorem heap_iterate_giveUp (n : Nat) (m : Machine) : (giveUp^[n] m).heap = m.heap := by
  induction n generalizing m with
  | zero => rfl
  | succ n ih => rw [Function.iterate_succ_apply, ih, heap_giveUp]

end Machine

theorem Registry.cost_unwind (r : Registry) (fs : List Frame) (line : Option Nat)
    (e : Error) (m : Machine) :
    (r.unwind fs line e m).2.cost = m.cost := by
  rw [unwind_snd, Machine.cost_iterate_giveUp]

theorem Registry.heap_unwind (r : Registry) (fs : List Frame) (line : Option Nat)
    (e : Error) (m : Machine) :
    (r.unwind fs line e m).2.heap = m.heap := by
  rw [unwind_snd, Machine.heap_iterate_giveUp]

/-! ### Budgets -/

theorem inCounter_toInt (n : Int64) : InCounter n.toInt := by
  have hlt := n.toInt_lt
  have hge := n.le_toInt
  constructor <;> omega

/-- A budget is a number that the counter can hold. -/
theorem Run.inCounter_budget {r : Registry} {env : Dict Value} {h : Heap} {cost : Int}
    (hbudget : budget r env h = .ok cost) : InCounter cost := by
  unfold budget at hbudget
  split at hbudget
  · rename_i v _
    cases hn : v.toInt h with
    | error f =>
      rw [hn] at hbudget
      cases hbudget
    | ok n =>
      rw [hn] at hbudget
      cases hbudget
      exact inCounter_toInt n
  · cases hbudget
    exact inCounter_toInt _

namespace Exec

open Covenant.Computation

variable {c : Context} {m : Machine} {a : Activation} {k : ContractCall} {rest : List Frame}

/-! ### Variables -/

theorem readVar_of_some {v : VarRef} {x : Value} (h : Frame.slot? v m.frames = some x) :
    readVar v m = .ok x m := by
  unfold readVar
  rw [get_bind_apply, h]
  rfl

theorem readVar_of_none {v : VarRef} (h : Frame.slot? v m.frames = none) :
    readVar v m = .error (.fault (.unknownVariable ("#" ++ Number.natText v.index))) m := by
  unfold readVar
  rw [get_bind_apply, h]
  rfl

theorem readExtend_of_some {name : String} {x : Value} (h : m.env.get? name = some x) :
    readExtend name m = .ok x m := by
  unfold readExtend
  rw [get_bind_apply, h]
  rfl

theorem readExtend_of_none {name : String} (h : m.env.get? name = none) :
    readExtend name m = .error (.fault (.unknownExtend name)) m := by
  unfold readExtend
  rw [get_bind_apply, h]
  rfl

/-- A name that is bound is bound again, unless the kind of the value would change. -/
theorem assignExtend_of_some {name : String} {old : Value} (h : m.env.get? name = some old)
    (x : Value) : assignExtend name x m = if !old.isNil && !old.sameType x then
      .error (.fault (.extendType name old.typeName x.typeName)) m
    else .ok () { m with env := m.env.insert name x } := by
  unfold assignExtend
  rw [get_bind_apply, h]
  dsimp only
  split <;> rfl

theorem assignExtend_of_none {name : String} (h : m.env.get? name = none) (x : Value) :
    assignExtend name x m = .ok () { m with env := m.env.insert name x } := by
  unfold assignExtend
  rw [get_bind_apply, h]
  rfl

/-! ### Steps -/

theorem step_of_nil (hframes : m.frames = []) : step c m = .ok () m := by
  unfold step
  rw [get_bind_apply, hframes]
  rfl

theorem step_of_contract (hframes : m.frames = .contract k :: rest) :
    step c m = resume c k rest m := by
  unfold step
  rw [get_bind_apply, hframes]

theorem step_of_ending {status : Status} (hframes : m.frames = .block a :: rest)
    (hending : m.ending = some status) : step c m = leave c status m := by
  unfold step
  rw [get_bind_apply, hframes]
  dsimp only
  rw [get_bind_apply, hending]

theorem step_of_end (hframes : m.frames = .block a :: rest) (hending : m.ending = none)
    (hcode : (c.block a.block).code[a.pc]? = none) : step c m = leave c .normal m := by
  unfold step
  rw [get_bind_apply, hframes]
  dsimp only
  rw [get_bind_apply, hending, hcode]

theorem step_of_instr {i : Instr} (hframes : m.frames = .block a :: rest)
    (hending : m.ending = none) (hcode : (c.block a.block).code[a.pc]? = some i) :
    step c m = (tick c >>= fun _ => perform c i.op) m := by
  unfold step
  rw [get_bind_apply, hframes]
  dsimp only
  rw [get_bind_apply, hending, hcode]

/-- Whether the block on top ends with a status: it is asked to, or it has no further
instruction. -/
def Closes (c : Context) (m : Machine) (a : Activation) (status : Status) : Prop :=
  m.ending = some status ∨ m.ending = none ∧ (c.block a.block).code[a.pc]? = none ∧ status = .normal

theorem step_of_closes {status : Status} (hframes : m.frames = .block a :: rest)
    (h : Closes c m a status) :
    step c m = leave c status m := by
  rcases h with hending | ⟨hending, hcode, rfl⟩
  · exact step_of_ending hframes hending
  · exact step_of_end hframes hending hcode

/-- What the next step of a machine does: nothing, or it goes on with a contract, ends a block or
runs one of its instructions. -/
inductive Ahead (c : Context) (m : Machine) : Prop
  | done (hframes : m.frames = []) (hstep : step c m = .ok () m)
  | resumes (k : ContractCall) (rest : List Frame) (hframes : m.frames = .contract k :: rest)
      (hstep : step c m = resume c k rest m)
  | leaves (a : Activation) (rest : List Frame) (status : Status)
    (hframes : m.frames = .block a :: rest)
      (hends : Closes c m a status) (hstep : step c m = leave c status m)
  | runs (a : Activation) (rest : List Frame) (i : Instr) (hframes : m.frames = .block a :: rest)
      (hending : m.ending = none) (hcode : (c.block a.block).code[a.pc]? = some i)
      (hstep : step c m = (tick c >>= fun _ => perform c i.op) m)

/-- **A step is one of these.** -/
theorem ahead (c : Context) (m : Machine) : Ahead c m := by
  rcases hframes : m.frames with _ | ⟨a | k, rest⟩
  · exact .done hframes (step_of_nil hframes)
  · cases hending : m.ending with
    | some status =>
      exact .leaves a rest status hframes (.inl hending) (step_of_ending hframes hending)
    | none =>
      cases hcode : (c.block a.block).code[a.pc]? with
      | none =>
        exact .leaves a rest .normal hframes (.inr ⟨hending, hcode, rfl⟩)
          (step_of_end hframes hending hcode)
      | some i => exact .runs a rest i hframes hending hcode (step_of_instr hframes hending hcode)
  · exact .resumes k rest hframes (step_of_contract hframes)

/-! ### Loops -/

theorem loop_nil (fuel : Nat) (hframes : m.frames = []) : loop c fuel m = .ok () m := by
  cases fuel <;>
  · unfold loop
    rw [get_bind_apply, hframes]
    rfl

theorem loop_zero (hframes : m.frames ≠ []) : loop c 0 m = .error (.fault .outOfSteps) m := by
  obtain ⟨f, fs, hcons⟩ := List.exists_cons_of_ne_nil hframes
  unfold loop
  rw [get_bind_apply, hcons]
  rfl

theorem loop_succ (fuel : Nat) (hframes : m.frames ≠ []) :
    loop c (fuel + 1) m = (step c >>= fun _ => loop c fuel) m := by
  obtain ⟨f, fs, hcons⟩ := List.exists_cons_of_ne_nil hframes
  rw [loop, get_bind_apply, hcons]

end Exec

end Covenant
