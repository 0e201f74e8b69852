import Covenant.Proofs.Compile.Terms
import Covenant.Proofs.Machine.Changes
import Covenant.Proofs.Machine.Equations
import Covenant.Proofs.Structured.Metered

/-!
# Running terms

The value of a term is found from left to right, given what its variables and `$` names stand for
(`Term.eval`). Its literals make new arrays and maps, and so the heap goes along.

The code of a term does the same on a machine (`Term.performs`): if the limits allow its
instructions, they leave the value above the operands that are there, or the machine fails as the
term does; and if not, the machine fails with the fault of a limit, unless the term has failed
before.
-/

namespace Covenant

open Covenant.Computation Structured

/-! ### Evaluation -/

/-- What variables and `$` names stand for. -/
structure Readings where
  slot : VarRef → Except Fault Value
  field : String → Except Fault Value

/-- What variables and `$` names stand for in a machine. -/
def Machine.readings (m : Machine) : Readings where
  slot v :=
    match Frame.slot? v m.frames with
    | some x => .ok x
    | none => .error (.unknownVariable ("#" ++ Number.natText v.index))
  field name :=
    match m.env.get? name with
    | some x => .ok x
    | none => .error (.unknownExtend name)

mutual

/-- The value of an item; the arrays and maps of literals are new. -/
def Item.eval (ρ : Readings) : Item → Heap → Except Fault (Value × Heap)
  | .const k, h => .ok (k.toValue, h)
  | .var v, h => (ρ.slot v).map (·, h)
  | .extend name, h => (ρ.field name).map (·, h)
  | .map entries, h => do
    let (bs, h) ← evalEntries ρ entries h
    return h.newMap (.ofList bs)
  | .array is, h => do
    let (vs, h) ← evalItems ρ is h
    return h.newArray vs.toArray

/-- The values of the items of an array. -/
def evalItems (ρ : Readings) : List Item → Heap → Except Fault (List Value × Heap)
  | [], h => .ok ([], h)
  | i :: is, h => do
    let (v, h) ← i.eval ρ h
    let (vs, h) ← evalItems ρ is h
    return (v :: vs, h)

/-- The bindings of a map. -/
def evalEntries (ρ : Readings) :
    List (String × Item) → Heap → Except Fault (List (String × Value) × Heap)
  | [], h => .ok ([], h)
  | (k, i) :: is, h => do
    let (v, h) ← i.eval ρ h
    let (bs, h) ← evalEntries ρ is h
    return ((k, v) :: bs, h)

end

/-- The value of a term. -/
def Term.eval (ρ : Readings) : Term → Heap → Except Fault (Value × Heap)
  | leaf i, h => i.eval ρ h
  | unary op e, h => do
    let (x, h) ← e.eval ρ h
    return (← Arithmetic.unary h op x, h)
  | binary op a b, h => do
    let (x, h) ← a.eval ρ h
    let (y, h) ← b.eval ρ h
    return (← Arithmetic.binary h op x y, h)
  | index c k, h => do
    let (x, h) ← c.eval ρ h
    let (y, h) ← k.eval ρ h
    return (← h.index x y, h)

namespace Exec

/-! ### Items -/

/-- Whether a computation gives what it is said to give and changes nothing but the heap. -/
def Gives {α : Type} (x : Exec α) (m : Machine) : Except Fault (α × Heap) → Prop
  | .ok (a, h) => x m = .ok a { m with heap := h }
  | .error f => ∃ m', x m = .error (.fault f) m'

/-- Two computations in a row give what the second makes of the result and the heap of the first. -/
theorem Gives.bind {α β : Type} {x : Exec α} {k : α → Exec β} {m : Machine}
    {r : Except Fault (α × Heap)} {g : α × Heap → Except Fault (β × Heap)} (hx : Gives x m r)
    (hk : ∀ a h, Gives (k a) { m with heap := h } (g (a, h))) : Gives (x >>= k) m (r >>= g) := by
  cases r with
  | error f =>
    obtain ⟨m', hm'⟩ := hx
    exact ⟨m', bind_of_error hm'⟩
  | ok p =>
    obtain ⟨a, h⟩ := p
    have hx : x m = .ok a { m with heap := h } := hx
    have hk := hk a h
    change Gives (x >>= k) m (g (a, h))
    cases hg : g (a, h) with
    | error f =>
      rw [hg] at hk
      obtain ⟨m', hm'⟩ := hk
      exact ⟨m', (bind_of_ok hx).trans hm'⟩
    | ok q =>
      rw [hg] at hk
      exact (bind_of_ok hx).trans hk

/-- A variable gives what the readings say. -/
theorem readVar_gives (v : VarRef) (m : Machine) :
    Gives (readVar v) m ((m.readings.slot v).map (·, m.heap)) := by
  cases hslot : Frame.slot? v m.frames with
  | some x =>
    simp only [Machine.readings, hslot]
    exact readVar_of_some hslot
  | none =>
    simp only [Machine.readings, hslot]
    exact ⟨m, readVar_of_none hslot⟩

/-- So does a name of the environment. -/
theorem readExtend_gives (name : String) (m : Machine) :
    Gives (readExtend name) m ((m.readings.field name).map (·, m.heap)) := by
  cases hfield : m.env.get? name with
  | some x =>
    simp only [Machine.readings, hfield]
    exact readExtend_of_some hfield
  | none =>
    simp only [Machine.readings, hfield]
    exact ⟨m, readExtend_of_none hfield⟩

mutual

/-- An item has the value on a machine that it is said to have. -/
theorem item_gives (i : Item) (m : Machine) : Gives (item i) m (i.eval m.readings m.heap) := by
  cases i with
  | const k =>
    rw [Item.eval, item]
    exact rfl
  | var v =>
    rw [Item.eval, item]
    exact readVar_gives v m
  | extend name =>
    rw [Item.eval, item]
    exact readExtend_gives name m
  | map entries =>
    rw [Item.eval, item]
    exact (bindings_gives entries m).bind fun bs h => rfl
  | array is =>
    rw [Item.eval, item]
    exact (items_gives is m).bind fun vs h => rfl

/-- The members of an array literal are evaluated from left to right. -/
theorem items_gives (is : List Item) (m : Machine) :
    Gives (items is) m (evalItems m.readings is m.heap) := by
  cases is with
  | nil =>
    rw [evalItems, items]
    exact rfl
  | cons i is =>
    rw [evalItems, items]
    exact (item_gives i m).bind fun v h => (items_gives is { m with heap := h }).bind
      fun vs h' => rfl

/-- So are those of a map literal. -/
theorem bindings_gives (es : List (String × Item)) (m : Machine) :
    Gives (bindings es) m (evalEntries m.readings es m.heap) := by
  cases es with
  | nil =>
    rw [evalEntries, bindings]
    exact rfl
  | cons e es =>
    obtain ⟨k, i⟩ := e
    rw [evalEntries, bindings]
    exact (item_gives i m).bind fun v h => (bindings_gives es { m with heap := h }).bind
      fun bs h' => rfl

end

end Exec

/-! ### Code on a machine -/

/-- Frames whose innermost activation is some instructions further on. -/
def Frame.skip (n : Nat) : List Frame → List Frame
  | .block a :: fs => .block { a with pc := a.pc + n } :: fs
  | fs => fs

theorem Frame.skip_skip (n k : Nat) (fs : List Frame) : skip k (skip n fs) = skip (n + k) fs := by
  cases fs with
  | nil => rfl
  | cons f fs =>
    cases f with
    | block a => simp [skip, Nat.add_assoc]
    | contract => rfl

@[simp] theorem Frame.slot?_skip (v : VarRef) (n : Nat) (fs : List Frame) :
    slot? v (skip n fs) = slot? v fs := by
  cases fs with
  | nil => rfl
  | cons f fs => cases f <;> rfl

namespace Machine

/-- A machine behind some instructions that have worked on operands and added cells. -/
def behind (m : Machine) (n : Nat) (h : Heap) (stack : Array Value) : Machine :=
  { m with
    heap := h
    stack := stack
    frames := Frame.skip n m.frames
    cost := m.cost - n
    ticks := m.ticks + n }

theorem behind_behind (m : Machine) (n k : Nat) (h h' : Heap) (s s' : Array Value) :
    (m.behind n h s).behind k h' s' = m.behind (n + k) h' s' := by
  simp only [behind, Frame.skip_skip, Nat.add_assoc, Nat.cast_add, Int.sub_sub]

@[simp] theorem readings_behind (m : Machine) (n : Nat) (h : Heap) (s : Array Value) :
    (m.behind n h s).readings = m.readings := by
  simp only [readings, behind, Frame.slot?_skip]

/-- Whether some commands are what a machine runs next. -/
def Faces (c : Context) (m : Machine) (ops : List Op) : Prop :=
  ∃ a fs, m.frames = .block a :: fs ∧ m.ending = none ∧
    ops <+: (opsOf (c.block a.block).code).drop a.pc

namespace Faces

variable {c : Context} {m : Machine} {us vs : List Op}

theorem left (h : m.Faces c (us ++ vs)) : m.Faces c us := by
  obtain ⟨a, fs, hframes, hending, hcode⟩ := h
  exact ⟨a, fs, hframes, hending, (List.prefix_append us vs).trans hcode⟩

theorem right (h : m.Faces c (us ++ vs)) (g : Heap) (s : Array Value) :
    (m.behind us.length g s).Faces c vs := by
  obtain ⟨a, fs, hframes, hending, post, hpost⟩ := h
  refine ⟨{ a with pc := a.pc + us.length }, fs, by rw [behind, hframes]; rfl, hending, post, ?_⟩
  have := congrArg (List.drop us.length) hpost
  rwa [List.append_assoc, List.drop_left, List.drop_drop] at this

theorem tail {op : Op} (h : m.Faces c (op :: vs)) (g : Heap) (s : Array Value) :
    (m.behind 1 g s).Faces c vs := by
  have happend : m.Faces c ([op] ++ vs) := h
  exact happend.right g s

end Faces

end Machine

namespace Exec

variable {c : Context} {m m' : Machine} {n k : Nat} {r : Except Fault Machine} {f : Fault}

/-- What some steps of a machine come to. -/
def ComesTo (c : Context) (n : Nat) (m : Machine) : Except Fault Machine → Prop
  | .ok m' => ∀ fuel, loop c (fuel + n) m = loop c fuel m'
  | .error f => ∃ e m', reported e = f ∧ ∀ fuel, loop c (fuel + n) m = .error e m'

/-- Some steps and then some more. -/
theorem ComesTo.trans (h : ComesTo c n m (.ok m')) (h' : ComesTo c k m' r) :
    ComesTo c (n + k) m r := by
  cases r with
  | ok m₂ =>
    intro fuel
    rw [Nat.add_comm n, ← Nat.add_assoc, h, h']
  | error f =>
    obtain ⟨e, m₂, he, h'⟩ := h'
    refine ⟨e, m₂, he, fun fuel => ?_⟩
    rw [Nat.add_comm n, ← Nat.add_assoc, h, h']

theorem ComesTo.more (h : ComesTo c n m (.error f)) (k : Nat) : ComesTo c (n + k) m (.error f) := by
  obtain ⟨e, m', he, h⟩ := h
  refine ⟨e, m', he, fun fuel => ?_⟩
  rw [Nat.add_comm n, ← Nat.add_assoc, h]

/-- Whether the limits allow some instructions that leave the memory meter alone. -/
def Allows (c : Context) (m : Machine) (n : Nat) : Prop :=
  Fits c m.cost m.ticks (List.replicate n m.mem)

theorem allows_add (h : Heap) (s : Array Value) :
    Allows c m (n + k) ↔ Allows c m n ∧ Allows c (m.behind n h s) k := by
  rw [Allows, List.replicate_add, fits_append, List.length_replicate]
  rfl

/-- What some instructions come to that leave the memory meter alone, on a machine whose cost the
counter holds: if the limits allow them, what they are said to, and otherwise the fault of a limit
or the one before. -/
def Performs (c : Context) (m : Machine) (n : Nat) (r : Except Fault Machine) : Prop :=
  InCounter m.cost → (Allows c m n → ComesTo c n m r) ∧
    (¬ Allows c m n → ∃ f, (IsLimit c.allowance m.cost f ∨ r = .error f) ∧ ComesTo c n m (.error f))

/-- Allowed instructions leave a cost that the counter holds. -/
theorem Allows.inCounter {h : Heap} {s : Array Value} (hall : Allows c m n)
    (hcost : InCounter m.cost) :
    InCounter (m.behind n h s).cost := by
  simpa [Machine.behind] using Fits.inCounter hall hcost

/-- A limit reached behind allowed instructions is one of the whole. -/
theorem Allows.isLimit {h : Heap} {s : Array Value} (hall : Allows c m n)
    (hf : IsLimit c.allowance (m.behind n h s).cost f) : IsLimit c.allowance m.cost f := by
  cases n with
  | zero => simpa [Machine.behind] using hf
  | succ n =>
    have hlt : ((n + 1 : Nat) : Int) < m.cost := by
      simpa using Fits.length_lt hall (by simp)
    exact hf.of_pos (show 0 < m.cost - ((n + 1 : Nat) : Int) by omega)

/-- Some instructions and then some more. -/
theorem Performs.trans {h : Heap} {s : Array Value} (hfirst : Performs c m n (.ok (m.behind n h s)))
    (hrest : Performs c (m.behind n h s) k r) : Performs c m (n + k) r := by
  intro hcost
  rw [allows_add h s]
  refine ⟨fun ⟨hn, hk⟩ => ((hfirst hcost).1 hn).trans ((hrest (hn.inCounter hcost)).1 hk),
    fun hnot => ?_⟩
  by_cases hn : Allows c m n
  · obtain ⟨f, hf, hrun⟩ := (hrest (hn.inCounter hcost)).2 fun hk => hnot ⟨hn, hk⟩
    exact ⟨f, hf.imp_left hn.isLimit, ((hfirst hcost).1 hn).trans hrun⟩
  · obtain ⟨f, hf, hrun⟩ := (hfirst hcost).2 hn
    exact ⟨f, hf.imp_right nofun, hrun.more k⟩

/-- What fails stays so. -/
theorem Performs.more (h : Performs c m n (.error f)) (k : Nat) :
    Performs c m (n + k) (.error f) := by
  intro hcost
  refine ⟨fun hall => ((h hcost).1 ?_).more k, fun _ => ?_⟩
  · exact ((allows_add m.heap m.stack).1 hall).1
  · by_cases hn : Allows c m n
    · exact ⟨f, .inr rfl, ((h hcost).1 hn).more k⟩
    · obtain ⟨f', hf', hrun⟩ := (h hcost).2 hn
      exact ⟨f', hf', hrun.more k⟩

/-- What comes behind a part that may fail. -/
theorem Performs.bind {x : Except Fault (Value × Heap)} {s : Array Value}
    {g : Value × Heap → Except Fault (Value × Heap)} {t : Value × Heap → Machine}
    (hfirst : Performs c m n (x.map fun p => m.behind n p.2 (s.push p.1)))
    (hrest : ∀ v h, Performs c (m.behind n h (s.push v)) k ((g (v, h)).map t)) :
    Performs c m (n + k) ((x >>= g).map t) := by
  cases x with
  | error f => exact hfirst.more k
  | ok p => exact hfirst.trans (hrest p.1 p.2)

/-! ### Instructions -/

/-- Whether something ends as it is said to. -/
def Ends (x : Exec Unit) (m : Machine) : Except Fault Machine → Prop
  | .ok m' => x m = .ok () m'
  | .error f => ∃ m', x m = .error (.fault f) m'

/-- A machine whose next instruction has been paid for. -/
def ticked (m : Machine) : Machine := { m with cost := m.cost - 1, ticks := m.ticks + 1 }

/-- An instruction is performed when the limits allow it. -/
theorem Performs.instr {op : Op} (hfaces : m.Faces c [op]) (h : Ends (perform c op) (ticked m) r) :
    Performs c m 1 r := by
  obtain ⟨a, fs, hframes, hending, post, hpost⟩ := hfaces
  have hne : m.frames ≠ [] := by simp [hframes]
  have hop : (opsOf (c.block a.block).code)[a.pc]? = some op := by
    rw [← List.head?_drop, ← hpost]
    rfl
  have hstep : step c m = (tick c >>= fun _ => perform c op) m :=
    step_instr (m := m) (c := c) rfl hframes hending hop m.env m.cost m.ticks
  intro hcost
  refine ⟨fun hfit => ?_, fun hnot => ?_⟩
  · have htick : tick c m = .ok () (ticked m) := tick_of_fits (m := m) hcost hfit
    rw [bind_of_ok htick] at hstep
    cases r with
    | ok m' =>
      have h : perform c op (ticked m) = .ok () m' := h
      exact loop_succ_ok hne (hstep.trans h)
    | error f =>
      obtain ⟨m', h⟩ := h
      exact ⟨.fault f, m', rfl, loop_succ_error hne (hstep.trans h)⟩
  · obtain ⟨e, m', hf, htick⟩ := tick_of_not_fits (m := m) hcost hnot m.env
    exact ⟨_, .inl hf, e, m', rfl, loop_succ_error hne (hstep.trans (bind_of_error htick))⟩

theorem advance_apply (m : Machine) :
    advance m = .ok () { m with frames := Frame.skip 1 m.frames } := by
  obtain ⟨heap, env, stack, frames⟩ := m
  cases frames with
  | nil => rfl
  | cons f fs => cases f <;> rfl

/-- What an instruction leaves that pushes a value. -/
theorem Gives.pushed {x : Exec Value} {q : Except Fault (Value × Heap)} (h : Gives x m q) :
    Ends (do push (← x); advance) m (q.map fun p =>
      { m with heap := p.2, stack := m.stack.push p.1, frames := Frame.skip 1 m.frames }) := by
  cases q with
  | error f =>
    obtain ⟨m', hm'⟩ := h
    exact ⟨m', bind_of_error hm'⟩
  | ok p =>
    exact (bind_of_ok h).trans (advance_apply { m with heap := p.2, stack := m.stack.push p.1 })

theorem ofExcept_pushed (q : Except Fault Value) (m : Machine) :
    Ends (do push (← ofExcept q); advance) m (q.map fun z =>
      { m with stack := m.stack.push z, frames := Frame.skip 1 m.frames }) := by
  cases q with
  | error f => exact ⟨m, rfl⟩
  | ok z => exact advance_apply { m with stack := m.stack.push z }

theorem Ends.behind {α : Type} {x : Exec α} {k : α → Exec Unit} {a : α} (hx : x m = .ok a m')
    (h : Ends (k a) m' r) : Ends (x >>= k) m r := by
  cases r with
  | ok m₂ => exact (bind_of_ok hx).trans h
  | error f =>
    obtain ⟨m₂, h⟩ := h
    exact ⟨m₂, (bind_of_ok hx).trans h⟩

theorem pop_of_push {s : Array Value} {x : Value} (h : m.stack = s.push x) :
    pop m = .ok x { m with stack := s } := by
  rw [pop_eq_ok (by rw [h, Array.back?_push]), h, Array.pop_push]

/-- The last instruction of a term pushes its value. -/
theorem Performs.last {q : Except Fault Value} {h : Heap} {s : Array Value}
    {t : Value × Heap → Machine} (hlast : Performs c m 1 (q.map fun z => m.behind 1 h (s.push z)))
    (ht : ∀ z, t (z, h) = m.behind 1 h (s.push z)) :
    Performs c m 1 (((q >>= fun z => pure (z, h)) : Except Fault (Value × Heap)).map t) := by
  cases q with
  | error f => exact hlast
  | ok z =>
    change Performs c m 1 (.ok (t (z, h)))
    rw [ht]
    exact hlast

theorem performs_item {i : Item} (h : m.Faces c [i.op]) : Performs c m 1
    ((i.eval m.readings m.heap).map fun p => m.behind 1 p.2 (m.stack.push p.1)) := by
  have hop : perform c i.op = (do push (← item i); advance) := by cases i <;> rfl
  refine .instr h ?_
  rw [hop]
  exact (item_gives i (ticked m)).pushed

theorem performs_unary {op : UnaryOp} (h : m.Faces c [.unary op]) {s : Array Value} {x : Value}
    (hstack : m.stack = s.push x) : Performs c m 1
    ((Arithmetic.unary m.heap op x).map fun z => m.behind 1 m.heap (s.push z)) := by
  refine .instr h (.behind (pop_of_push (m := ticked m) hstack) ?_)
  exact ofExcept_pushed (Arithmetic.unary m.heap op x) { ticked m with stack := s }

theorem performs_binary {op : BinaryOp} (h : m.Faces c [.binary op]) {s : Array Value} {x y : Value}
    (hstack : m.stack = (s.push x).push y) : Performs c m 1
    ((Arithmetic.binary m.heap op x y).map fun z => m.behind 1 m.heap (s.push z)) := by
  refine .instr h (.behind (pop_of_push (m := ticked m) hstack) (.behind (pop_of_push rfl) ?_))
  exact ofExcept_pushed (Arithmetic.binary m.heap op x y) { ticked m with stack := s }

theorem performs_index (h : m.Faces c [.index]) {s : Array Value} {x y : Value}
    (hstack : m.stack = (s.push x).push y) : Performs c m 1
    ((m.heap.index x y).map fun z => m.behind 1 m.heap (s.push z)) := by
  refine .instr h (.behind (pop_of_push (m := ticked m) hstack) (.behind (pop_of_push rfl) ?_))
  exact ofExcept_pushed (m.heap.index x y) { ticked m with stack := s }

end Exec

open Exec Compile

/-- **The code of a term does what the term says.** -/
theorem Term.performs {c : Context} (e : Term) {m : Machine} (h : m.Faces c e.code) :
    Performs c m e.code.length ((e.eval m.readings m.heap).map fun p =>
      m.behind e.code.length p.2 (m.stack.push p.1)) := by
  induction e generalizing m with
  | leaf i => exact performs_item h
  | unary op e ih =>
    rw [code, List.length_append, eval]
    refine (ih h.left).bind fun x g => ?_
    exact (performs_unary (h.right g _) rfl).last fun z => (m.behind_behind ..).symm
  | binary op a b iha ihb =>
    rw [code, List.length_append, List.length_append, eval]
    refine (iha h.left).bind fun x g => ?_
    -- What the variables hold is not changed by the left operand.
    have hb := ihb (h.right g (m.stack.push x)).left
    rw [m.readings_behind] at hb
    refine hb.bind fun y g' => ?_
    refine (performs_binary ((h.right g _).right g' _) rfl).last fun z => ?_
    rw [m.behind_behind, m.behind_behind, Nat.add_assoc]
    rfl
  | index a b iha ihb =>
    rw [code, List.length_append, List.length_append, eval]
    refine (iha h.left).bind fun x g => ?_
    have hb := ihb (h.right g (m.stack.push x)).left
    rw [m.readings_behind] at hb
    refine hb.bind fun y g' => ?_
    refine (performs_index ((h.right g _).right g' _) rfl).last fun z => ?_
    rw [m.behind_behind, m.behind_behind, Nat.add_assoc]
    rfl

/-- **A written term is compiled to code that does what the term says**, whatever the tokens stand
among and on whatever machine the code runs. -/
theorem Term.Written.compiled_and_performed {s : Source} {w : Work} {b : Bool} {n : Nat} {e : Term}
    {ts : List Token} (h : e.Written w false n ts) {i : Nat} {rest : List Token}
    (hts : TokensAt s i (ts ++ rest)) (hrest : ∀ t ∈ rest.head?, stopsBefore t = true)
    (hcall : rest.head? = some (.punct .lpar) → ∀ t ∈ ts.getLast?, t.name? = none)
    (hassign : rest.head? = some (.punct .eq) → ts.getLast? ≠ some (.punct .rbrack))
    (hstart : b = true → ts.head? ≠ some (.punct .lcurly)) :
    ∃ code, opsOf code = e.code ∧ Compile.expression s b i w
        = .ok (i + ts.length) (w.modifyTop fun b => { b with code := b.code ++ code }) ∧
      ∀ c m, m.Faces c (opsOf code) →
        Performs c m code.size ((e.eval m.readings m.heap).map fun p =>
        m.behind code.size p.2 (m.stack.push p.1)) := by
  obtain ⟨code, hcode, hcompile⟩ := h.expression hts hrest hcall hassign hstart
  refine ⟨code, hcode, hcompile, fun c m hfaces => ?_⟩
  rw [hcode] at hfaces
  have hsize : code.size = e.code.length := by
    rw [← hcode, opsOf, List.length_map, Array.length_toList]
  rw [hsize]
  exact e.performs hfaces

/-- The lexemes of `-(1 +⏎ x) * [2][0]` and the end of the line. -/
def negatedSum : Source where
  lexemes := (([.oper .sub, .punct .lpar, .const (.int 1), .oper .add, .newline,
    .ident "x", .punct .rpar, .oper .mul, .punct .lbrack, .const (.int 2), .punct .rbrack,
    .punct .lbrack, .const (.int 0), .punct .rbrack, .newline] : List Token).map
    (⟨·, ⟨1, 1⟩⟩)).toArray
  globals := .empty
  state := 1
  lateCalls := false

/-- A unit with a variable `x`. -/
def oneVariable : Work where
  arena := #[{ parent := none, objects := Dict.empty.insert "x" (.var 0), vars := #[.int] }]
  root := 0

/-- What runs the blocks of a unit. -/
def contextOf (w : Work) : Context where
  registry := { Registry.new {} [] with arena := w.arena }

/-- A machine at the start of the unit's code. -/
def machineFor (x : Value) : Machine where
  heap := .empty
  env := .empty
  frames := [.block { block := 0, slots := #[x], base := 0, role := .entry }]
  cost := 100

/-- The sign binds more strongly than the product, and the index than both: `-(1 + 5) * 2` is
`-12`. -/
theorem negatedSum_compiled_and_performed : ∃ code, opsOf code
      = [.push (.int 1), .var ⟨0, 0⟩, .binary .add, .unary .sign, .arrayInit [.const (.int 2)],
        .push (.int 0), .index, .binary .mul] ∧
    Compile.expression negatedSum false 0 oneVariable
      = .ok 14 (oneVariable.modifyTop fun b => { b with code := b.code ++ code }) ∧
    ∀ fuel, Exec.loop (contextOf (oneVariable.modifyTop fun b => { b with code := b.code ++ code }))
        (fuel + 8) (machineFor (.int 5))
          = Exec.loop (contextOf (oneVariable.modifyTop fun b => { b with code := b.code ++ code }))
        fuel
        ((machineFor (.int 5)).behind 8 ⟨#[.array #[.int 2]]⟩ #[.int (-12)]) := by
  have hx : oneVariable.findVar "x" = some (.var ⟨0, 0⟩) := by decide
  have hsum : Term.Written oneVariable false _ (.binary .add (.leaf (.const (.int 1)))
    (.leaf (.var ⟨0, 0⟩))) _ :=
    .paren (.binary .add (by decide) (by decide) (.leaf (.const (.int 1)))
      (.newlineBefore (.leaf (.var hx))))
  have harray : (Item.array [.const (.int 2)]).Written oneVariable
      [.punct .lbrack, .const (.int 2), .punct .rbrack] := .array (.item (.const _) (.close true))
  -- The term, written with a newline and parentheses, from its leaves to its root.
  have hwritten := Term.Written.binary .mul (by decide) (by decide) (.unary .sign (by decide) hsum)
    (.index (.leaf harray) (.leaf (.const (.int 0))))
  obtain ⟨code, hcode, hcompile, hperforms⟩ := hwritten.compiled_and_performed (b := false)
    (show TokensAt negatedSum 0 (_ ++ [.newline]) from rfl)
    (by simp [stopsBefore]) nofun nofun nofun
  refine ⟨code, hcode, hcompile, ?_⟩
  have hfaces : (machineFor (.int 5)).Faces
      (contextOf (oneVariable.modifyTop fun b => { b with code := b.code ++ code }))
      (opsOf code) := by
    refine ⟨_, _, rfl, rfl, ?_⟩
    have hblock : (contextOf (oneVariable.modifyTop fun b =>
      { b with code := b.code ++ code })).block 0
        = { oneVariable.block 0 with code := #[] ++ code } := rfl
    rw [hblock, Array.empty_append]
    exact List.prefix_rfl
  have hsize : code.size = 8 := by
    rw [← Array.length_toList, ← List.length_map Instr.op]
    exact congrArg List.length hcode
  have hruns := hperforms _ _ hfaces
  rw [hsize] at hruns
  exact (hruns (by decide)).1 (by simp [Exec.Allows, Structured.Fits, machineFor, contextOf,
    Context.limits, Registry.new])

end Covenant
