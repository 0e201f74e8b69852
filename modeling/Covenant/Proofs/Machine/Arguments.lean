import Covenant.Proofs.Machine.Terms

/-!
# Arguments of functions that collect their last parameter

Arguments reach such a function in three ways: counted on the operand stack with an array behind
them that is to be spread, counted on the stack one by one, or from outside, when a run is started
with the function. `Block.collects` says what a list of arguments is bound to, and each of the three
ways comes to that (`collected_alike`): they bind the same values or refuse them for the same
reason.
-/

namespace Covenant

open Covenant.Computation

/-! ### What arguments are bound to -/

/-- The variables of a function that collects its last parameter: the first parameters get their own
arguments, the last one a new array of all others, and what is behind the parameters its default. -/
def Block.collects (b : Block) (f : FuncInfo) (args : List Value) (h : Heap) :
    Except Fault (List Value × Heap) := do
  let fixed := f.params.length - 1
  if args.length < fixed then throw (.wrongParams f.name f.params.length)
  let (tail, h) := h.newArray (args.drop fixed).toArray
  let bound ← checkParams 1 f.params (args.take fixed ++ [tail])
  let (rest, h) := h.defaults (b.vars.toList.drop bound.length)
  return (bound ++ rest, h)

/-- A checked argument is the argument itself, or the integer that a double is cut to. -/
theorem checkParams_cons_eq_ok {i : Nat} {t : Ty} {ts : List Ty} {v : Value} {vs bound : List Value}
    (h : checkParams i (t :: ts) (v :: vs) = .ok bound) :
    ∃ w ws, bound = w :: ws ∧ checkParams (i + 1) ts vs = .ok ws ∧
      (w = v ∨ ∃ x, v = .float x ∧ w = .int (Number.Binary64.toInt64 x)) := by
  have hcons : ∀ w, (checkParams (i + 1) ts vs >>= fun ws => pure (w :: ws)) = .ok bound →
      ∃ ws, bound = w :: ws ∧ checkParams (i + 1) ts vs = .ok ws := by
    intro w hw
    obtain ⟨ws, hws, hbound⟩ := except_bind_eq_ok hw
    cases hbound
    exact ⟨ws, rfl, hws⟩
  unfold checkParams at h
  dsimp only at h
  split at h
  · obtain ⟨ws, hbound, hws⟩ := hcons _ h
    exact ⟨_, ws, hbound, hws, .inr ⟨_, rfl, rfl⟩⟩
  · split at h
    · obtain ⟨ws, hbound, hws⟩ := hcons _ h
      exact ⟨v, ws, hbound, hws, .inl rfl⟩
    · cases h

/-- An array or map passes a check of arguments unchanged. -/
theorem checkParams_concat {i : Nat} {tys : List Ty} {args bound : List Value} {tail : Value}
    (htail : tail.ref?.isSome) (h : checkParams i tys (args ++ [tail]) = .ok bound) :
    bound[args.length]? = some tail := by
  induction args generalizing i tys bound with
  | nil =>
    cases tys with
    | nil =>
      cases h
      rfl
    | cons t ts =>
      obtain ⟨w, ws, rfl, -, rfl | ⟨x, rfl, -⟩⟩ := checkParams_cons_eq_ok h
      · rfl
      · cases htail
  | cons a args ih =>
    cases tys with
    | nil =>
      cases h
      simp
    | cons t ts =>
      obtain ⟨w, ws, rfl, hws, -⟩ := checkParams_cons_eq_ok h
      exact ih hws

/-- The last parameter is one new array of the remaining arguments. -/
theorem Block.collects_tail {b : Block} {f : FuncInfo} {args slots : List Value} {h h' : Heap}
    (hcollects : b.collects f args h = .ok (slots, h')) :
    slots[f.params.length - 1]? = some (.array h.cells.size) ∧
      h'.items h.cells.size = (args.drop (f.params.length - 1)).toArray := by
  unfold collects at hcollects
  simp only at hcollects
  split at hcollects
  · cases hcollects
  · rename_i hlength
    obtain ⟨bound, hbound, hrest⟩ := except_bind_eq_ok hcollects
    cases hrest
    -- The array of the arguments behind the fixed ones is checked as the last argument.
    have htake : (args.take (f.params.length - 1)).length = f.params.length - 1 := by
      rw [List.length_take]
      omega
    have htail := checkParams_concat rfl hbound
    rw [htake] at htail
    refine ⟨?_, ?_⟩
    · rw [List.getElem?_append_left (List.getElem?_eq_some_iff.1 htail).1]
      exact htail
    · have hgrows := (lasting_true.defaults
        (h := (h.newArray (args.drop (f.params.length - 1)).toArray).2)
        trivial (b.vars.toList.drop bound.length)).1
      have hcell := hgrows h.cells.size (by simp [Heap.newArray])
      unfold Heap.items
      rw [hcell]
      simp [Heap.newArray]

/-! ### The machine behind the binding -/

namespace Exec

variable {c : Context} {id : BlockId} {f : FuncInfo} {m : Machine}

/-- The values on top come off in the order in which they were pushed. -/
theorem popN_append {below : Array Value} {vs : List Value}
    (hstack : m.stack = below ++ vs.toArray) :
    popN vs.length m = .ok vs { m with stack := below } := by
  have hsize : ¬ m.stack.size < vs.length := by simp [hstack]
  change (if m.stack.size < vs.length then _ else _ : Exec (List Value)) m = _
  rw [if_neg hsize]
  change EStateM.Result.ok _ _ = _
  simp [hstack]

/-- Arguments with an array behind them that is to be spread. -/
theorem takeArgs_spread {below : Array Value} {xs : List Value} {r : Ref}
    (hstack : m.stack = below ++ (xs ++ [Value.array r]).toArray) (hspread : m.spread = true) :
    takeArgs (xs.length + 1) m
      = .ok (xs ++ (m.heap.items r).toList) { m with stack := below, spread := false } := by
  have hpop := popN_append hstack
  rw [List.length_append, List.length_singleton] at hpop
  unfold takeArgs
  rw [bind_of_ok hpop, get_bind_apply, modify_bind_apply]
  simp only [hspread, List.getLast?_concat, List.dropLast_concat]
  rfl

/-- Arguments one by one. -/
theorem takeArgs_plain {below : Array Value} {xs : List Value}
    (hstack : m.stack = below ++ xs.toArray) (hspread : m.spread = false) :
    takeArgs xs.length m = .ok xs { m with stack := below, spread := false } := by
  unfold takeArgs
  rw [bind_of_ok (popN_append hstack), get_bind_apply, modify_bind_apply]
  simp only [hspread]
  rfl

/-- Binding arguments in a function that collects its last parameter. -/
def collect (b : Block) (f : FuncInfo) (args : List Value) : Exec (List Value) := do
  let args ← variadicArgs f args
  let args ← ofExcept (checkParams 1 f.params args)
  let rest ← defaults (b.vars.toList.drop args.length)
  return args ++ rest

/-- Binding arguments changes nothing but the heap. -/
theorem gives_collect (b : Block) (f : FuncInfo) (args : List Value) (m : Machine) :
    Gives (collect b f args) m (b.collects f args m.heap) := by
  unfold collect variadicArgs Block.collects
  dsimp only
  split
  · exact ⟨m, rfl⟩
  · obtain ⟨tail, h, hnew⟩ : ∃ tail h, m.heap.newArray (args.drop (f.params.length - 1)).toArray
      = (tail, h) :=
      ⟨_, _, rfl⟩
    have htail : collectTail (f.params.length - 1) args m
        = .ok (args.take (f.params.length - 1) ++ [tail]) { m with heap := h } := by
      unfold collectTail newArray
      rw [bind_of_ok (modifyGet_apply _ m), hnew]
      rfl
    simp only [hnew]
    cases hchecked : checkParams 1 f.params (args.take (f.params.length - 1) ++ [tail]) with
    | error e =>
      refine ⟨{ m with heap := h }, (bind_of_ok htail).trans ?_⟩
      rw [hchecked]
      rfl
    | ok bound =>
      refine (bind_of_ok htail).trans ?_
      rw [hchecked]
      rfl

/-- The machine in which a block has just been started with values for all its variables. -/
def entering (id : BlockId) (slots : List Value) (role : Role) (m : Machine) : Machine :=
  { m with
    mem := m.mem + sizeOf m.heap slots.toArray
    depth := m.depth + role.calls
    frames := .block { block := id, slots := slots.toArray, base := m.stack.size, role := role }
      :: m.frames }

/-- A block that has values for all its variables is entered as it is. -/
theorem enterBlock_of_le {slots : List Value} (hid : id < c.registry.arena.size)
    (hslots : (c.block id).vars.size ≤ slots.length) (role : Role) :
    enterBlock c id slots role = modify (entering id slots role) := by
  have hnone : (c.block id).vars.toList.drop slots.length = [] :=
    List.drop_eq_nil_of_le (by simpa using hslots)
  funext m
  unfold enterBlock
  rw [if_neg (Nat.not_le.2 hid), hnone]
  change EStateM.Result.ok PUnit.unit (entering id (slots ++ []) role m) = _
  rw [List.append_nil]
  rfl

/-- A called function is entered once its arguments are bound and the call is paid for. -/
theorem callFunc_collect (hfunc : (c.block id).func? = some f) (hsegments : f.segments = none)
    (hid : id < c.registry.arena.size) (count : Nat) :
    callFunc c id (some count) = (do
      let args ← takeArgs count
      let slots ← collect (c.block id) f args
      charge c.limits.costCall
      checkDepth c
      enterBlock c id slots .call) := by
  rw [callFunc_eq]
  unfold callSlots collect popSegments
  rw [if_neg (Nat.not_le.2 hid)]
  simp only [hfunc, hsegments, pay_singleton, bind_assoc, pure_bind]
  rfl

/-- A function that a run is started with is entered once its arguments are bound. -/
theorem start_collect (hfunc : (c.block id).func? = some f) (hvariadic : f.variadic = true)
    (hid : id < c.registry.arena.size) (args : List Value) (role : Role) :
    start c id args role = (do
      let slots ← collect (c.block id) f args
      modify (entering id slots role)) := by
  unfold start collect enterBlock
  rw [if_neg (Nat.not_le.2 hid)]
  simp only [hfunc, hvariadic, bind_assoc, pure_bind, if_pos, if_neg (Nat.not_le.2 hid)]
  rfl

end Exec

/-- Collected arguments fill all variables of a function. -/
theorem Block.size_le_of_collects {b : Block} {f : FuncInfo} {args slots : List Value} {h h' : Heap}
    (hcollects : b.collects f args h = .ok (slots, h')) : b.vars.size ≤ slots.length := by
  unfold collects at hcollects
  simp only at hcollects
  split at hcollects
  · cases hcollects
  · obtain ⟨bound, -, hrest⟩ := except_bind_eq_ok hcollects
    cases hrest
    have hvars : b.vars.toList.length = b.vars.size := Array.length_toList
    rw [List.length_append, Heap.length_defaults, List.length_drop]
    omega

theorem Context.lt_size_of_func? (c : Context) {id : BlockId} {f : FuncInfo}
    (hfunc : (c.block id).func? = some f) : id < c.registry.arena.size := by
  by_contra hle
  rw [Context.block, Registry.block, Arena.block_of_le (Nat.le_of_not_lt hle)] at hfunc
  cases hfunc

/-- Whether a computation stops with a fault. -/
def Exec.FailsWith {α : Type} (x : Exec α) (m : Machine) (e : Fault) : Prop :=
  ∃ m', x m = .error (.fault e) m'

open Exec in
/-- **The ways to pass arguments agree.** Arguments `xs` with an array that is to be spread, the
same arguments with the elements of the array, and a run that is started with these: a function that
collects its last parameter either refuses all three for the same reason, or has the same values for
its variables in all three, and its last parameter is one new array of the arguments that remain. -/
theorem collected_alike {c : Context} {id : BlockId} {f : FuncInfo}
    (hfunc : (c.block id).func? = some f) (hvariadic : f.variadic = true) (hsegments : f.segments
      = none) (m : Machine) (below : Array Value)
    (xs : List Value) (r : Ref) :
    let ys := (m.heap.items r).toList
    let spread : Machine :=
      { m with stack := below ++ (xs ++ [Value.array r]).toArray, spread := true }
    let plain : Machine := { m with stack := below ++ (xs ++ ys).toArray, spread := false }
    match (c.block id).collects f (xs ++ ys) m.heap with
    | .error e =>
      (callFunc c id (some (xs.length + 1))).FailsWith spread e ∧
        (callFunc c id (some (xs ++ ys).length)).FailsWith plain e ∧
        (start c id (xs ++ ys) .entry).FailsWith m e
    | .ok (slots, h) =>
      let bound : Machine := { m with stack := below, heap := h, spread := false }
      let enter : Exec Unit := do
        charge c.limits.costCall
        checkDepth c
        modify (entering id slots .call)
      callFunc c id (some (xs.length + 1)) spread = enter bound ∧
        callFunc c id (some (xs ++ ys).length) plain = enter bound ∧
        start c id (xs ++ ys) .entry m = .ok () (entering id slots .entry { m with heap := h }) ∧
        slots[f.params.length - 1]? = some (.array m.heap.cells.size) ∧
        h.items m.heap.cells.size = ((xs ++ ys).drop (f.params.length - 1)).toArray := by
  intro ys spread plain
  have hid : id < c.registry.arena.size := c.lt_size_of_func? hfunc
  have hspread : takeArgs (xs.length + 1) spread
      = .ok (xs ++ ys) { m with stack := below, spread := false } := takeArgs_spread rfl rfl
  have hplain : takeArgs (xs ++ ys).length plain
      = .ok (xs ++ ys) { m with stack := below, spread := false } := takeArgs_plain rfl rfl
  -- Both calls take the same arguments, and all three collect them on the same heap.
  have hcalled := gives_collect (c.block id) f (xs ++ ys) { m with stack := below, spread := false }
  have hstarted := gives_collect (c.block id) f (xs ++ ys) m
  rw [callFunc_collect hfunc hsegments hid, callFunc_collect hfunc hsegments hid,
    start_collect hfunc hvariadic hid]
  cases hcollects : (c.block id).collects f (xs ++ ys) m.heap with
  | error e =>
    rw [hcollects] at hcalled hstarted
    obtain ⟨m₁, hm₁⟩ := hcalled
    obtain ⟨m₂, hm₂⟩ := hstarted
    refine ⟨⟨m₁, ?_⟩, ⟨m₁, ?_⟩, m₂, bind_of_error hm₂⟩
    · rw [bind_of_ok hspread, bind_of_error hm₁]
    · rw [bind_of_ok hplain, bind_of_error hm₁]
  | ok p =>
    obtain ⟨slots, h⟩ := p
    rw [hcollects] at hcalled hstarted
    obtain ⟨htail, hitems⟩ := Block.collects_tail hcollects
    have henter := enterBlock_of_le hid (Block.size_le_of_collects hcollects) .call
    refine ⟨?_, ?_, ?_, htail, hitems⟩
    · rw [bind_of_ok hspread, bind_of_ok hcalled, henter]
    · rw [bind_of_ok hplain, bind_of_ok hcalled, henter]
    · rw [bind_of_ok hstarted, modify_apply]

/-- `func total(first int, others array)`, which collects its last parameter. -/
def totalInfo : FuncInfo where
  name := "total"
  id := 1
  params := [.int, .array]
  variadic := true

/-- What runs it. -/
def totalContext : Context :=
  contextOf { arena := #[{ parent := none, info := .func totalInfo, vars := #[.int,
    .array] }], root := 0 }

/-- A machine with the array `[2, 7]`. -/
def machineWithPair : Machine where
  heap := ⟨#[.array #[.int 2, .int 7]]⟩
  env := .empty
  cost := 100

/-- The first parameter may come from the array that is spread: `total([2, 7]...)` is `total(2,
7)`. -/
theorem total_called_alike :
    Exec.callFunc totalContext 0 (some 1)
    { machineWithPair with stack := #[.array 0], spread := true }
        = Exec.callFunc totalContext 0 (some 2)
        { machineWithPair with stack := #[.int 2, .int 7] } ∧
      Exec.start totalContext 0 [.int 2, .int 7] .entry machineWithPair
        = .ok () (Exec.entering 0 [.int 2, .array 1] .entry
          { machineWithPair with heap := ⟨#[.array #[.int 2, .int 7], .array #[.int 7]]⟩ }) := by
  have halike := collected_alike (c := totalContext) (f := totalInfo)
    (show (totalContext.block 0).func? = _ from rfl) rfl rfl machineWithPair #[] [] 0
  obtain ⟨hspread, hplain, hstart, -⟩ := halike
  exact ⟨hspread.trans hplain.symm, hstart⟩

end Covenant
