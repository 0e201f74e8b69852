import Covenant.Machine.Step

/-!
# Runs

A run takes its budget from the environment's `txcost` and writes back what is left. When it fails,
the error is taken out through the frames that were active. These tell its trace, and they are given
up from the inside out as if they had ended: the variables of blocks go, and the environments of
contracts are restored. When the host crashes, the environment stays as it was then.
-/

namespace Covenant

/-- The machine without its innermost frame. -/
def Machine.giveUp (m : Machine) : Machine :=
  match m.frames with
  | [] => m
  | .block a :: rest => Exec.dropBlock a rest m
  | .contract k :: rest => Exec.finished k rest m

namespace Registry

/-- The name of a function in error traces; hidden functions and other blocks have none. -/
def traceName? (r : Registry) (id : BlockId) : Option String :=
  match (r.block id).func? with
  | none => none
  | some f =>
    if f.hidden then none
    else
      match (r.block id).parent.bind fun p => (r.block p).contract? with
      | some c => some (c.name ++ "." ++ f.name)
      | none => some f.name

/-- The line of an instruction. -/
def lineAt (r : Registry) (a : Activation) : Nat :=
  (((r.block a.block).code[a.pc]?).map Instr.line).getD 0

/-- Takes an error out through the innermost frames of a machine, which gives them up. The first
block whose line is not yet told gives it to the next function around it that has a name. -/
def unwind (r : Registry) : List Frame → Option Nat → Error → Machine → Error × Machine
  | [], _, e, m => (e, m)
  | .contract _ :: fs, line, e, m => unwind r fs line e m.giveUp
  | .block a :: fs, line, e, m =>
    match r.traceName? a.block with
    | some name => unwind r fs none (e.passing name (line.getD (r.lineAt a))) m.giveUp
    | none => unwind r fs (some (line.getD (r.lineAt a))) e m.giveUp

end Registry

/-- What a run leaves: its result, the environment and the heap that holds the values of both. -/
structure Outcome (α : Type) where
  result : Except Error α
  env : Dict Value
  heap : Heap

namespace Outcome

/-- Changes the result of a run that did not fail. -/
def map {α β : Type} (o : Outcome α) (f : α → β) : Outcome β := { o with result := o.result.map f }

end Outcome

namespace Run

/-- The budget of a run, a signed number of 64 bits. -/
def budget (r : Registry) (env : Dict Value) (h : Heap) : Except Fault Int :=
  match env.get? "txcost" with
  | some v => (v.toInt h).map Int64.toInt
  | none => .ok (Int64.ofInt r.limits.maxCost).toInt

/-- The time a run may take: a limit counts only while a block is generated. -/
def allowance (env : Dict Value) (h : Heap) : Except Fault (Option Nat) :=
  match env.get? "gen_block", env.get? "time_limit" with
  | some gen, some limit =>
    if gen.truthy h then (limit.toInt h).map fun ms => some ms.toNatClampNeg else .ok none
  | _, _ => .ok none

/-- How many steps a run with a budget gets. Every instruction costs something, and behind each
there are only a few steps that end blocks or go on with contracts; the constant is for budgets that
calls with a negative cost fill up again. -/
def fuel (budget : Int) : Nat := Number.pow2 60 + 8 * budget.toNat

/-- The environment with the cost that is left. -/
def settle (env : Dict Value) (cost : Int) : Dict Value :=
  env.insert "txcost" (.int (Int64.ofInt cost))

/-- Runs what a start puts into the machine. The operands that are left are the results. -/
def execute (r : Registry) (start : Context → Exec Unit) (env : Dict Value) (h : Heap)
    (clock : Nat → Nat := fun _ => 0) : Outcome (List Value) :=
  match budget r env h, allowance env h with
  | .error f, _ => ⟨.error (.of f), env, h⟩
  | _, .error f => ⟨.error (.of f), env, h⟩
  | .ok cost, .ok allowance =>
    let c : Context := { registry := r, allowance := allowance, clock := clock }
    let m : Machine := { heap := h, env := env, cost := cost }
    match (do start c; Exec.loop c (fuel cost)).run m with
    | .ok _ m => ⟨.ok m.stack.toList, settle m.env m.cost, m.heap⟩
    | .error (.fault f) m =>
      let (e, m) := r.unwind m.frames none (.of f) m
      ⟨.error e, settle m.env m.cost, m.heap⟩
    | .error .crash m => ⟨.error (.of .runtimePanic), settle m.env m.cost, m.heap⟩
    | .error .overflow m => ⟨.error (.of .runtimePanic), settle m.env m.cost, m.heap⟩

/-- Runs a compiled function with positional arguments. -/
def func (r : Registry) (id : BlockId) (params : List Value) (env : Dict Value) (h : Heap) :
    Outcome (List Value) :=
  execute r (fun c => Exec.start c id params .entry) env h

/-- Runs a contract seen from an ecosystem with values for its fields. -/
def contract (r : Registry) (state : UInt32) (name : String) (params env : Dict Value) (h : Heap) :
    Outcome Value :=
  (execute r (fun c => Exec.callContractIn c state name params none) env h).map fun vs =>
    vs.getLast?.getD .nil

end Run

end Covenant
