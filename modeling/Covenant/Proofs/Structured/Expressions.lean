import Covenant.Proofs.Machine.Terms
import Covenant.Proofs.Structured.Blocks
import Covenant.Proofs.Structured.Semantics

/-!
# The machine at structured programs

The machine that runs a structured program is determined by the state of the program and by where
its blocks are: a `Place` is an activation without its variables, which come from the scope of the
block. The block around the `if` that an `elif` stands for has an activation but no scope.
`Matches` ties the open blocks of the compiler to places and scopes.

The main statement is `Expr.leads`: the code of an expression leaves the expression's value on the
stack, with the new arrays and maps in the heap, or fails as the expression does.
-/

namespace Covenant.Structured

open Covenant.Computation

/-! ### Places and scopes -/

/-- An activation without its variables. -/
structure Place where
  act : Activation
  /-- Whether the block is the one around the `if` of an `elif`. -/
  wraps : Bool

/-- The place some instructions further on. -/
def Place.skip (p : Place) (n : Nat) : Place := { p with act := { p.act with pc := p.act.pc + n } }

@[simp] theorem skip_zero (p : Place) : p.skip 0 = p := rfl

@[simp] theorem skip_skip (p : Place) (m n : Nat) : (p.skip m).skip n = p.skip (m + n) := by
  rw [Place.skip, Place.skip, Place.skip, Nat.add_assoc]

/-- The values of the variables of a scope, also of those still to be declared. -/
def Scope.values (s : Scope) : List Value := s.vars.map Variable.value ++ s.fresh

/-- The variables of the innermost place. -/
def slotsOf : Bool → List Scope → Array Value
  | false, s :: _ => s.values.toArray
  | _, _ => #[]

/-- The scopes of the places around the innermost one. -/
def scopesBehind : Bool → List Scope → List Scope
  | false, ss => ss.tail
  | true, ss => ss

/-- The frames of places whose variables are in some scopes. -/
def framesOf : List Place → List Scope → List Frame
  | [], _ => []
  | p :: ps, ss =>
    .block { p.act with slots := slotsOf p.wraps ss } :: framesOf ps (scopesBehind p.wraps ss)

theorem framesOf_scope (a : Activation) (ps : List Place) (s : Scope) (ss : List Scope) :
    framesOf (⟨a, false⟩ :: ps) (s :: ss)
      = .block { a with slots := s.values.toArray } :: framesOf ps ss := rfl

theorem framesOf_wrap (a : Activation) (ps : List Place) (ss : List Scope) :
    framesOf (⟨a, true⟩ :: ps) ss = .block { a with slots := #[] } :: framesOf ps ss := rfl

@[simp] theorem length_framesOf (ps : List Place) (ss : List Scope) :
    (framesOf ps ss).length = ps.length := by
  induction ps generalizing ss with
  | nil => rfl
  | cons p ps ih => rw [framesOf, List.length_cons, ih, List.length_cons]

/-- The machine of a program in a state. Its environment does not matter. -/
def machineOf (ps : List Place) (σ : State) (mem : Int) (stack : Array Value) : Machine :=
  { heap := σ.heap, env := .empty, stack := stack, frames := framesOf ps σ.scopes, cost := 0
    mem := mem }

/-- Whether places and scopes are those of the open blocks. -/
inductive Matches (A : Arena) : List Level → List Place → List Scope → Prop
  | nil : Matches A [] [] []
  | scope {a : Activation} {s : Scope} {types : List Ty} {Γ : List Level} {ps : List Place}
      {ss : List Scope} : a.base = 0 → (∀ l ∈ Γ, l.id ≠ a.block) →
      (A.block a.block).vars.toList = s.vars.map Variable.ty ++ types →
      types.length = s.fresh.length → Matches A Γ ps ss →
      Matches A (⟨a.block, s.vars.map Variable.name⟩ :: Γ) (⟨a, false⟩ :: ps) (s :: ss)
  | wrap {a : Activation} {Γ : List Level} {ps : List Place} {ss : List Scope} : a.base = 0 →
      (∀ l ∈ Γ, l.id ≠ a.block) → Matches A Γ ps ss →
      Matches A (⟨a.block, []⟩ :: Γ) (⟨a, true⟩ :: ps) ss

/-- Only the block of the innermost place and the height of its stack matter. -/
theorem Matches.congr {A : Arena} {Γ : List Level} {p q : Place} {ps : List Place}
    {ss : List Scope} (h : Matches A Γ (p :: ps) ss) (hblock : q.act.block = p.act.block)
    (hbase : q.act.base = p.act.base) (hwraps : q.wraps = p.wraps) : Matches A Γ (q :: ps) ss := by
  obtain ⟨b, w⟩ := q
  cases h with
  | scope hb hfresh hvars hlen hmatch =>
    obtain rfl : w = false := hwraps
    simp only at hblock hbase
    rw [← hblock] at hfresh hvars ⊢
    exact .scope (hbase.trans hb) hfresh hvars hlen hmatch
  | wrap hb hfresh hmatch =>
    obtain rfl : w = true := hwraps
    simp only at hblock hbase
    rw [← hblock] at hfresh ⊢
    exact .wrap (hbase.trans hb) hfresh hmatch

theorem Matches.skip {A : Arena} {Γ : List Level} {p : Place} {ps : List Place} {ss : List Scope}
    (h : Matches A Γ (p :: ps) ss) (n : Nat) : Matches A Γ (p.skip n :: ps) ss :=
  h.congr rfl rfl rfl

theorem Matches.tail {A : Arena} {l : Level} {Γ : List Level} {p : Place} {ps : List Place}
    {ss : List Scope} (h : Matches A (l :: Γ) (p :: ps) ss) :
    Matches A Γ ps (scopesBehind p.wraps ss) := by
  cases h with
  | scope _ _ _ _ hmatch => exact hmatch
  | wrap _ _ hmatch => exact hmatch

theorem Matches.base {A : Arena} {Γ : List Level} {p : Place} {ps : List Place}
    {ss : List Scope} (h : Matches A Γ (p :: ps) ss) : p.act.base = 0 := by
  cases h <;> assumption

/-! ### Variables -/

/-- A variable is found at the first place with its name. -/
theorem find?_eq_idxOf (x : String) (ws : List Variable) :
    ws.find? (·.name == x) = ws[(ws.map Variable.name).idxOf x]? := by
  induction ws with
  | nil => rfl
  | cons w ws ih =>
    rw [List.find?_cons, List.map_cons, List.idxOf_cons]
    cases hw : w.name == x with
    | true => rfl
    | false => simpa using ih

/-- To set a variable is to set the value at its place. -/
theorem map_value_setVar (x : String) (v : Value) (ws : List Variable) :
    (setVar x v ws).map Variable.value
      = (ws.map Variable.value).set ((ws.map Variable.name).idxOf x) v := by
  induction ws with
  | nil => rfl
  | cons w ws ih =>
    rw [setVar, List.map_cons, List.map_cons, List.idxOf_cons]
    cases hw : w.name == x with
    | true => rfl
    | false => simpa using ih

@[simp] theorem map_name_setVar (x : String) (v : Value) (ws : List Variable) :
    (setVar x v ws).map Variable.name = ws.map Variable.name := by
  induction ws with
  | nil => rfl
  | cons w ws ih =>
    rw [setVar]
    split <;> simp [ih]

@[simp] theorem map_ty_setVar (x : String) (v : Value) (ws : List Variable) :
    (setVar x v ws).map Variable.ty = ws.map Variable.ty := by
  induction ws with
  | nil => rfl
  | cons w ws ih =>
    rw [setVar]
    split <;> simp [ih]

/-- The number of a block that is not open stands for none of the variables in view. -/
theorem resolve_owner {x : String} {v : VarRef} {Γ : List Level} (h : resolve x Γ = some v) :
    ∃ l ∈ Γ, l.id = v.owner := by
  induction Γ with
  | nil => exact absurd h (by simp [resolve])
  | cons l Γ ih =>
    rw [resolve] at h
    split at h
    · rw [Option.some.injEq] at h
      exact ⟨l, List.mem_cons_self .., by rw [← h]⟩
    · obtain ⟨l', hl', hid⟩ := ih h
      exact ⟨l', List.mem_cons_of_mem _ hl', hid⟩

/-- The variable that the compiler takes a name for is the one in view: its slot holds its value,
its block has its type in the same slot, and setting the slot sets the variable. -/
theorem Matches.variable {A : Arena} {Γ : List Level} {ps : List Place} {ss : List Scope}
    (h : Matches A Γ ps ss) {x : String} {v : VarRef} (hv : resolve x Γ = some v) :
    ∃ w, findIn x ss = some w ∧ Frame.slot? v (framesOf ps ss) = some w.value ∧
      (A.block v.owner).vars[v.index]? = some w.ty ∧
      ∀ y, Frame.setSlot v y (framesOf ps ss) = framesOf ps (setIn x y ss) := by
  -- The scopes are searched from the innermost one, and the frames of other blocks are passed over.
  induction h with
  | nil => exact absurd hv (by simp [resolve])
  | @scope a s types Γ ps ss hbase hfresh hvars hlen hmatch ih =>
    rw [resolve] at hv
    split at hv
    · rename_i hmem
      rw [Option.some.injEq] at hv
      subst hv
      have hlt : (s.vars.map Variable.name).idxOf x < s.vars.length := by
        have := List.idxOf_lt_length_iff.2 hmem
        rwa [List.length_map] at this
      have hfind : s.find? x = some s.vars[(s.vars.map Variable.name).idxOf x] := by
        rw [Scope.find?, find?_eq_idxOf, List.getElem?_eq_getElem hlt]
      refine ⟨_, by rw [findIn, hfind], ?_, ?_, fun y => ?_⟩
      · rw [framesOf_scope, Frame.slot?, if_pos (by simp)]
        simp [Scope.values, List.getElem?_append_left, hlt]
      · rw [← Array.getElem?_toList, hvars, List.getElem?_append_left (by simpa using hlt)]
        simp [hlt]
      · rw [framesOf_scope, Frame.setSlot, if_pos (by simp), setIn, hfind, framesOf_scope]
        simp [Scope.values, Scope.set, map_value_setVar, List.set_append_left, hlt]
    · rename_i hmem
      obtain ⟨w, hfind, hslot, hty, hset⟩ := ih hv
      have hne : (a.block == v.owner) = false := by
        obtain ⟨l, hl, hid⟩ := resolve_owner hv
        simpa using fun heq => hfresh l hl (hid.trans heq.symm)
      have hnone : s.find? x = none := by
        rw [Scope.find?, find?_eq_idxOf, List.getElem?_eq_none]
        have hge : ¬ (s.vars.map Variable.name).idxOf x < (s.vars.map Variable.name).length :=
          mt List.idxOf_lt_length_iff.1 hmem
        rw [List.length_map] at hge
        omega
      refine ⟨w, by rw [findIn, hnone, hfind], ?_, hty, fun y => ?_⟩
      · rw [framesOf_scope, Frame.slot?, if_neg (by simp [hne])]
        exact hslot
      · rw [framesOf_scope, Frame.setSlot, if_neg (by simp [hne]), hset,
          setIn, hnone, framesOf_scope]
  | @wrap a Γ ps ss hbase hfresh hmatch ih =>
    rw [resolve, if_neg (List.not_mem_nil)] at hv
    obtain ⟨w, hfind, hslot, hty, hset⟩ := ih hv
    have hne : (a.block == v.owner) = false := by
      obtain ⟨l, hl, hid⟩ := resolve_owner hv
      simpa using fun heq => hfresh l hl (hid.trans heq.symm)
    refine ⟨w, hfind, ?_, hty, fun y => ?_⟩
    · rw [framesOf_wrap, Frame.slot?, if_neg (by simp [hne])]
      exact hslot
    · rw [framesOf_wrap, Frame.setSlot, if_neg (by simp [hne]), hset, framesOf_wrap]

/-! ### Code at a place -/

/-- Whether the code of a block goes on with some commands at a place. -/
def CodeAt (A : Arena) (p : Place) (ops : List Op) : Prop :=
  ops <+: (opsOf (A.block p.act.block).code).drop p.act.pc

namespace CodeAt

variable {A : Arena} {p : Place} {op : Op} {us vs : List Op}

theorem getElem? (h : CodeAt A p (op :: us)) :
    (opsOf (A.block p.act.block).code)[p.act.pc]? = some op := by
  obtain ⟨post, hpost⟩ := h
  rw [← List.head?_drop, ← hpost]
  rfl

theorem congr {q : Place} (h : CodeAt A p us) (hblock : q.act.block = p.act.block)
    (hpc : q.act.pc = p.act.pc) : CodeAt A q us := by
  rw [CodeAt, hblock, hpc]
  exact h

theorem head (h : CodeAt A p (op :: us)) : CodeAt A p [op] :=
  (List.prefix_append [op] us).trans h

theorem left (h : CodeAt A p (us ++ vs)) : CodeAt A p us :=
  (List.prefix_append us vs).trans h

theorem right (h : CodeAt A p (us ++ vs)) : CodeAt A (p.skip us.length) vs := by
  obtain ⟨post, hpost⟩ := h
  refine ⟨post, ?_⟩
  have := congrArg (List.drop us.length) hpost
  rwa [List.append_assoc, List.drop_left, List.drop_drop] at this

theorem next (h : CodeAt A p (op :: us)) : CodeAt A (p.skip 1) us := by
  have h' : CodeAt A p ([op] ++ us) := h
  exact h'.right

end CodeAt

section leads

variable {A : Arena} {Γ : List Level} {p : Place} {ps : List Place} {σ : State}
  {mem : Int} {st : Array Value} {op : Op}

/-- An instruction of the innermost block that succeeds. -/
theorem leads_instr {m' : Machine} (hat : CodeAt A p [op])
    (h : Does A (Exec.perform · op) (machineOf (p :: ps) σ mem st) m')
    (hlen : m'.frames.length ≤ ps.length + 2) :
    Leads A (machineOf (p :: ps) σ mem st) [mem] (.ok m') := by
  refine Leads.instr rfl rfl hat.getElem? h ?_
  simpa [machineOf] using hlen

/-- An instruction of the innermost block that fails. -/
theorem leads_fault {f : Fault} (hat : CodeAt A p [op])
    (h : Fails A (Exec.perform · op) (machineOf (p :: ps) σ mem st) f) :
    Leads A (machineOf (p :: ps) σ mem st) [mem] (.error f) :=
  Leads.instr_fault rfl rfl hat.getElem? h

/-- An instruction of the innermost block that ends as it is said to. -/
theorem leads_of_ends {r : Except Fault Machine} (hat : CodeAt A p [op])
    (h : ∀ c env cost ticks, Exec.Ends (Exec.perform c op)
      (metered (machineOf (p :: ps) σ mem st) env cost ticks)
      (r.map fun m => metered m env cost ticks))
    (hlen : ∀ m, r = .ok m → m.frames.length ≤ ps.length + 2) :
    Leads A (machineOf (p :: ps) σ mem st) [mem] r := by
  cases r with
  | ok m => exact leads_instr hat (fun c _ env cost ticks => h c env cost ticks) (hlen m rfl)
  | error f => exact leads_fault hat fun c _ env cost ticks => h c env cost ticks

/-- The machine behind some instructions that leave a value, with what they added to the heap. -/
def machineBehind (p : Place) (n : Nat) (ps : List Place) (σ : State) (mem : Int) (st : Array Value)
    (r : Value × Heap) : Machine :=
  machineOf (p.skip n :: ps) { σ with heap := r.2 } mem (st.push r.1)

/-- An instruction that pushes a value, or fails. -/
theorem leads_pushed {st' : Array Value} {q : Except Fault (Value × Heap)} (hat : CodeAt A p [op])
    (h : ∀ c env cost ticks, Exec.Ends (Exec.perform c op)
      (metered (machineOf (p :: ps) σ mem st') env cost ticks)
      (q.map fun r => metered (machineBehind p 1 ps σ mem st r) env cost ticks)) :
    Leads A (machineOf (p :: ps) σ mem st') [mem] (q.map (machineBehind p 1 ps σ mem st)) := by
  refine leads_of_ends hat (fun c env cost ticks => ?_) fun m hm => ?_
  · have hends := h c env cost ticks
    cases q with
    | error f => exact hends
    | ok r => exact hends
  · cases q with
    | error f => cases hm
    | ok r =>
      cases hm
      simp [machineBehind, machineOf]

/-! ### Operands -/

mutual

/-- The item of an operand has the value of the operand. -/
theorem Operand.eval_item {ss : List Scope} (h : Matches A Γ ps ss) (o : Operand) {i : Item}
    (hi : o.item? Γ = some i) {m : Machine} (hm : m.frames = framesOf ps ss) (g : Heap) :
    i.eval m.readings g = o.eval ss g := by
  cases o with
  | literal l =>
    cases hi
    rfl
  | var x =>
    obtain ⟨v, hv, rfl⟩ := Option.map_eq_some_iff.1 hi
    obtain ⟨w, hfind, hslot, -⟩ := h.variable hv
    have hread : m.readings.slot v = .ok w.value := by
      simp only [Machine.readings, hm, hslot]
    rw [Item.eval, Operand.eval, hread, hfind]
    rfl
  | array os =>
    obtain ⟨is, his, rfl⟩ := Option.map_eq_some_iff.1 hi
    rw [Item.eval, Operand.eval, os.eval_items h his hm]
    cases os.eval ss g <;> rfl
  | map es =>
    obtain ⟨bs, hbs, rfl⟩ := Option.map_eq_some_iff.1 hi
    rw [Item.eval, Operand.eval, es.eval_bindings h hbs hm]
    cases es.eval ss g <;> rfl

/-- Operands have the values of the items that they are compiled to. -/
theorem Operands.eval_items {ss : List Scope} (h : Matches A Γ ps ss)
    (os : Operands) {is : List Item} (his : os.items? Γ = some is) {m : Machine}
    (hm : m.frames = framesOf ps ss) (g : Heap) :
    evalItems m.readings is g = os.eval ss g := by
  cases os with
  | nil =>
    cases his
    rfl
  | cons o rest =>
    obtain ⟨i, hi, his⟩ := Option.bind_eq_some_iff.1 his
    obtain ⟨is, hrest, rfl⟩ := Option.map_eq_some_iff.1 his
    rw [evalItems, Operands.eval, o.eval_item h hi hm]
    cases o.eval ss g with
    | error f => rfl
    | ok r =>
      obtain ⟨v, g⟩ := r
      change (evalItems m.readings is g >>= _) = (rest.eval ss g).map _
      rw [rest.eval_items h hrest hm]
      cases rest.eval ss g <;> rfl

/-- So do the entries of a map literal. -/
theorem Entries.eval_bindings {ss : List Scope} (h : Matches A Γ ps ss) (es : Entries)
    {bs : List (String × Item)} (hbs : es.bindings? Γ = some bs) {m : Machine}
    (hm : m.frames = framesOf ps ss) (g : Heap) : evalEntries m.readings bs g = es.eval ss g := by
  cases es with
  | nil =>
    cases hbs
    rfl
  | cons k o rest =>
    obtain ⟨i, hi, hbs⟩ := Option.bind_eq_some_iff.1 hbs
    obtain ⟨bs, hrest, rfl⟩ := Option.map_eq_some_iff.1 hbs
    rw [evalEntries, Entries.eval, o.eval_item h hi hm]
    cases o.eval ss g with
    | error f => rfl
    | ok r =>
      obtain ⟨v, g⟩ := r
      change (evalEntries m.readings bs g >>= _) = (rest.eval ss g).map _
      rw [rest.eval_bindings h hrest hm]
      cases rest.eval ss g <;> rfl

end

/-- The instruction of an operand pushes its value. -/
theorem Operand.leads {o : Operand} {i : Item} (h : Matches A Γ (p :: ps) σ.scopes)
    (hi : o.item? Γ = some i) (hat : CodeAt A p [i.op]) (mem : Int) (st : Array Value) :
    Leads A (machineOf (p :: ps) σ mem st) [mem]
      ((o.eval σ.scopes σ.heap).map (machineBehind p 1 ps σ mem st)) := by
  refine leads_pushed hat fun c env cost ticks => ?_
  have hop : Exec.perform c i.op = (do Exec.push (← Exec.item i); Exec.advance) := by
    cases i <;> rfl
  rw [hop, ← o.eval_item h hi (m := metered (machineOf (p :: ps) σ mem st) env cost ticks) rfl]
  exact (Exec.item_gives i _).pushed

/-! ### Expressions -/

theorem readVar_apply {v : VarRef} {y : Value}
    (h : Frame.slot? v (framesOf ps σ.scopes) = some y) (env : Dict Value)
    (cost : Int) (ticks : Nat) :
    Exec.readVar v (metered (machineOf ps σ mem st) env cost ticks)
      = .ok y (metered (machineOf ps σ mem st) env cost ticks) := by
  simp [Exec.readVar, metered, machineOf, h, bind, EStateM.bind, get_apply, pure_apply]

theorem ofExcept_apply {α : Type} (r : Except Fault α) (m : Machine) : Exec.ofExcept r m
    = match r with
      | .ok x => .ok x m
      | .error f => .error (.fault f) m := by
  cases r <;> rfl

/-- What an operation leaves, which adds nothing to the heap. -/
theorem ends_pushed {x : Exec Unit} {st' : Array Value} {q : Except Fault Value} {env : Dict Value}
    {cost : Int} {ticks : Nat}
    (h : Exec.Ends x (metered (machineOf (p :: ps) σ mem st') env cost ticks)
      (q.map fun z => metered (machineBehind p 1 ps σ mem st (z, σ.heap)) env cost ticks)) :
    Exec.Ends x (metered (machineOf (p :: ps) σ mem st') env cost ticks)
      ((q.map fun z => (z, σ.heap)).map fun r =>
        metered (machineBehind p 1 ps σ mem st r) env cost ticks) := by
  cases q with
  | error f => exact h
  | ok z => exact h

/-- A sign takes the value on the stack. -/
theorem leads_unary {op : UnaryOp} (hat : CodeAt A p [.unary op]) (v : Value) :
    Leads A (machineOf (p :: ps) σ mem (st.push v)) [mem]
      (((Arithmetic.unary σ.heap op v).map fun z => (z, σ.heap)).map
        (machineBehind p 1 ps σ mem st)) := by
  refine leads_pushed hat fun c env cost ticks => ends_pushed ?_
  refine .behind (Exec.pop_of_push (x := v) rfl) ?_
  exact Exec.ofExcept_pushed (Arithmetic.unary σ.heap op v)
    (metered (machineOf (p :: ps) σ mem st) env cost ticks)

/-- An operator takes the two values on the stack, the second one first. -/
theorem leads_binary {op : BinaryOp} (hat : CodeAt A p [.binary op]) (v w : Value) :
    Leads A (machineOf (p :: ps) σ mem ((st.push v).push w)) [mem]
      (((Arithmetic.binary σ.heap op v w).map fun z => (z, σ.heap)).map
        (machineBehind p 1 ps σ mem st)) := by
  refine leads_pushed hat fun c env cost ticks => ends_pushed ?_
  refine .behind (Exec.pop_of_push (x := w) rfl) (.behind (Exec.pop_of_push (x := v) rfl) ?_)
  exact Exec.ofExcept_pushed (Arithmetic.binary σ.heap op v w)
    (metered (machineOf (p :: ps) σ mem st) env cost ticks)

/-- The code of the term that an expression is. -/
theorem Expr.leads_term {e : Expr} {t : Term} (h : Matches A Γ (p :: ps) σ.scopes)
    (ht : e.term? Γ = some t) (hat : CodeAt A p t.code) (mem : Int) (st : Array Value) :
    ∃ loads, Leads A (machineOf (p :: ps) σ mem st) loads
      ((e.eval σ.scopes σ.heap).map (machineBehind p t.code.length ps σ mem st)) := by
  induction e generalizing p σ st t with
  | operand o =>
    obtain ⟨i, hi, rfl⟩ := Option.map_eq_some_iff.1 ht
    exact ⟨_, o.leads h hi hat mem st⟩
  | unary op e ih =>
    obtain ⟨x, hx, rfl⟩ := Option.map_eq_some_iff.1 ht
    obtain ⟨loads, hloads⟩ := ih h hx hat.left st
    rw [Expr.eval, Term.code, List.length_append]
    cases he : e.eval σ.scopes σ.heap with
    | error f => exact ⟨loads, by rw [he] at hloads; exact hloads⟩
    | ok r =>
      rw [he] at hloads
      have hop : Leads A (machineOf (p.skip x.code.length :: ps) { σ with heap := r.2 } mem
          (st.push r.1)) [mem] _ := leads_unary hat.right r.1
      exact ⟨_, hloads.trans hop⟩
  | binary op a b iha ihb =>
    obtain ⟨x, hx, ht⟩ := Option.bind_eq_some_iff.1 ht
    obtain ⟨y, hy, rfl⟩ := Option.map_eq_some_iff.1 ht
    obtain ⟨xs, hxs⟩ := iha h hx hat.left st
    rw [Expr.eval, Term.code, List.length_append, List.length_append]
    cases ha : a.eval σ.scopes σ.heap with
    | error f => exact ⟨xs, by rw [ha] at hxs; exact hxs⟩
    | ok r =>
      obtain ⟨v, g⟩ := r
      rw [ha] at hxs
      -- The right operand is evaluated behind the left one, on the heap that it left.
      obtain ⟨ys, hys⟩ := ihb (σ := { σ with heap := g }) (h.skip _) hy hat.right.left (st.push v)
      have hxys := hxs.trans hys
      dsimp only at hxys ⊢
      cases hb : b.eval σ.scopes g with
      | error f => exact ⟨_, by rw [hb] at hxys; exact hxys⟩
      | ok r =>
        obtain ⟨w, g⟩ := r
        rw [hb] at hxys
        have hop : Leads A (machineOf ((p.skip x.code.length).skip y.code.length :: ps)
            { σ with heap := g } mem ((st.push v).push w)) [mem] _ :=
          leads_binary hat.right.right v w
        have hend : machineBehind p (x.code.length + (y.code.length + 1)) ps σ mem st
            = machineBehind ((p.skip x.code.length).skip y.code.length) 1 ps
              { σ with heap := g } mem st := by
          funext r
          simp only [machineBehind, skip_skip, Nat.add_assoc]
        rw [List.length_singleton, hend]
        exact ⟨_, hxys.trans hop⟩
  | paren e ih => exact ih h ht hat st

/-- **Expressions**: the code of an expression leaves its value on the stack, or fails as the
expression does. -/
theorem Expr.leads {e : Expr} {ops : List Op} (h : Matches A Γ (p :: ps) σ.scopes)
    (hcode : e.code Γ = some ops) (hat : CodeAt A p ops) (mem : Int) (st : Array Value) :
    ∃ loads, Leads A (machineOf (p :: ps) σ mem st) loads
      ((e.eval σ.scopes σ.heap).map (machineBehind p ops.length ps σ mem st)) := by
  obtain ⟨t, ht, rfl⟩ := Option.map_eq_some_iff.1 hcode
  exact Expr.leads_term h ht hat mem st

/-- The codes of expressions leave their values on the stack, the first lowest. -/
theorem leads_codeAll {es : List Expr} {ops : List Op} (h : Matches A Γ (p :: ps) σ.scopes)
    (hcode : codeAll Γ es = some ops) (hat : CodeAt A p ops) (mem : Int) (st : Array Value) :
    ∃ loads, Leads A (machineOf (p :: ps) σ mem st) loads
      ((evalAll σ.scopes es σ.heap).map fun r =>
        machineOf (p.skip ops.length :: ps) { σ with heap := r.2 } mem (st ++ r.1.toArray)) := by
  induction es generalizing p σ st ops with
  | nil =>
    cases hcode
    refine ⟨[], ?_⟩
    change Leads A _ [] (.ok (machineOf (p :: ps) σ mem (st ++ #[])))
    rw [Array.append_empty]
    exact Leads.refl A _
  | cons e es ih =>
    obtain ⟨us, hus, hcode⟩ := Option.bind_eq_some_iff.1 hcode
    obtain ⟨vs, hvs, rfl⟩ := Option.map_eq_some_iff.1 hcode
    obtain ⟨xs, hxs⟩ := Expr.leads h hus hat.left mem st
    rw [evalAll]
    cases he : e.eval σ.scopes σ.heap with
    | error f => exact ⟨xs, by rw [he] at hxs; exact hxs⟩
    | ok r =>
      rw [he] at hxs
      -- The others are evaluated with the first value on the stack and on its heap.
      obtain ⟨ys, hys⟩ := ih (σ := { σ with heap := r.2 }) (h.skip us.length) hvs hat.right
        (st.push r.1)
      have hall := hxs.trans hys
      refine ⟨xs ++ ys, ?_⟩
      dsimp only at hall ⊢
      cases hes : evalAll σ.scopes es r.2 with
      | error f => rw [hes] at hall; exact hall
      | ok r' =>
        rw [hes] at hall
        have hstack : st.push r.1 ++ r'.1.toArray = st ++ (r.1 :: r'.1).toArray := by
          apply Array.toList_inj.1
          simp
        have hpc : (p.skip us.length).skip vs.length = p.skip (us ++ vs).length := by
          rw [skip_skip, List.length_append]
        simp only [Except.map, hstack, hpc] at hall
        exact hall

end leads

end Covenant.Structured
