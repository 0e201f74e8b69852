import Covenant.Proofs.Structured.Expressions

/-!
# Statements on the machine

The code of a statement does to the machine what the statement does to the state. A statement that
ends normally brings the machine behind its code. One that ends otherwise brings it to where the
block is left, and the block around it goes on from there; whether it is a branch that passes the
status on or a loop that takes it is said once for each kind of block (`Answers.branch`,
`Answers.loop`).

The main statement is `Body.answers`. A loop that takes more iterations than it is given keeps the
machine running for at least that many instructions.
-/

namespace Covenant.Structured

open Covenant.Computation

section

variable {A : Arena} {l : Level} {Γ : List Level} {p q : Place}
  {ps : List Place} {σ τ : State} {mem : Int}

/-! ### Entering blocks -/

/-- The activation of a block that has just been entered. -/
def entered (id : BlockId) (role : Role) : Activation :=
  { block := id, slots := #[], base := 0, role := role }

theorem length_defaults (h : Heap) (types : List Ty) :
    (h.defaults types).1.length = types.length := by
  induction types generalizing h with
  | nil => rfl
  | cons t ts ih => rw [Heap.defaults, List.length_cons, List.length_cons, ih]

/-- The size of the variables of a block when it is entered. -/
def enterSize (σ : State) (types : List Ty) : Int :=
  Exec.sizeOf (σ.heap.defaults types).2 (σ.heap.defaults types).1.toArray

/-- A block of a statement is entered with fresh variables. -/
theorem enterBlock_apply {c : Context} (hc : c.registry.arena = A) {id : BlockId}
    (hlt : id < A.size) {role : Role} (hrole : role.calls = 0) (env : Dict Value)
    (cost : Int) (ticks : Nat) :
    Exec.enterBlock c id [] role (metered (machineOf ps σ mem #[]) env cost ticks)
      = .ok () (metered (machineOf (⟨entered id role, false⟩ :: ps)
          (σ.enter (A.block id).vars.toList) (mem + enterSize σ (A.block id).vars.toList) #[])
          env cost ticks) := by
  have hle : ¬ c.registry.arena.size ≤ id := by
    rw [hc]
    exact Nat.not_le.2 hlt
  have hblock : c.block id = A.block id := block_eq hc id
  simp [Exec.enterBlock, hle, hblock, metered, machineOf, Exec.defaults, bind, EStateM.bind,
    modify_apply, modifyGet_apply, State.enter, framesOf, slotsOf, scopesBehind,
    Scope.values, entered, enterSize, hrole]

/-- A block without variables needs no scope. -/
theorem machineOf_enter_nil (a : Activation) :
    machineOf (⟨a, false⟩ :: ps) (σ.enter []) mem #[] = machineOf (⟨a, true⟩ :: ps) σ mem #[] :=
  rfl

/-- The open blocks match when a block has been entered. -/
theorem Matches.enter (h : Matches A Γ ps σ.scopes) {id : BlockId} (hfresh : ∀ l ∈ Γ, l.id ≠ id)
    (role : Role) : Matches A (⟨id, []⟩ :: Γ) (⟨entered id role, false⟩ :: ps)
      (σ.enter (A.block id).vars.toList).scopes :=
  Matches.scope (a := entered id role) (s := ⟨[], _⟩) rfl hfresh rfl (length_defaults _ _).symm h

theorem Matches.enter_wrap (h : Matches A Γ ps σ.scopes) {id : BlockId}
    (hfresh : ∀ l ∈ Γ, l.id ≠ id) (role : Role) :
    Matches A (⟨id, []⟩ :: Γ) (⟨entered id role, true⟩ :: ps) σ.scopes :=
  Matches.wrap (a := entered id role) rfl hfresh h

/-! ### Instructions that start blocks -/

/-- The place with what its `if` found. -/
def Place.found (p : Place) (cond : Bool) :
    Place := { p with act := { p.act with lastCond := cond } }

theorem pop_single (v : Value) (env : Dict Value) (cost : Int) (ticks : Nat) :
    Exec.pop (metered (machineOf ps σ mem #[v]) env cost ticks)
      = .ok v (metered (machineOf ps σ mem #[]) env cost ticks) := rfl

theorem if_apply (v : Value) {c : Context} (id : BlockId) (env : Dict Value)
    (cost : Int) (ticks : Nat) :
    Exec.perform c (.if id) (metered (machineOf (p :: ps) σ mem #[v]) env cost ticks)
      = (if v.truthy σ.heap then Exec.enterBlock c id [] .branch else Exec.advance)
          (metered (machineOf (p.found (v.truthy σ.heap) :: ps) σ mem #[]) env cost ticks) := by
  simp only [Exec.perform, bind, EStateM.bind, pop_single]
  rfl

theorem while_apply (v : Value) {c : Context} (id : BlockId) (env : Dict Value)
    (cost : Int) (ticks : Nat) :
    Exec.perform c (.while id) (metered (machineOf (p :: ps) σ mem #[v]) env cost ticks)
      = (if v.truthy σ.heap then Exec.enterBlock c id [] .loop else Exec.modifyTop Exec.leaveLoop)
          (metered (machineOf (p :: ps) σ mem #[]) env cost ticks) := by
  simp only [Exec.perform, bind, EStateM.bind, pop_single]
  rfl

theorem else_apply {c : Context} (id : BlockId) (env : Dict Value) (cost : Int) (ticks : Nat) :
    Exec.perform c (.else id) (metered (machineOf (p :: ps) σ mem #[]) env cost ticks)
      = (if p.act.lastCond then Exec.advance else Exec.enterBlock c id [] .branch)
          (metered (machineOf (p :: ps) σ mem #[]) env cost ticks) := rfl

/-! ### Leaving blocks -/

/-- The state behind the innermost place. -/
def State.behind (τ : State) (wraps : Bool) : State :=
  { τ with scopes := scopesBehind wraps τ.scopes }

/-- The memory meter behind the innermost place. -/
def memBehind (τ : State) (wraps : Bool) (mem : Int) : Int :=
  max (mem - Exec.sizeOf τ.heap (slotsOf wraps τ.scopes)) 0

theorem func?_of_plain {b : Block} (h : b.info = .plain) : b.func? = none := by
  rw [Block.func?, h]

/-- Leaving the block of a branch or loop goes on in the block around it. -/
theorem leave_apply {c : Context} (hc : c.registry.arena = A) (hbase : p.act.base = 0)
    (hplain : (A.block p.act.block).info = .plain) {status : Status} {st : Array Value}
    (hst : status ≠ .return → st = #[]) (ending : Option Status) (env : Dict Value)
    (cost : Int) (ticks : Nat) :
    Exec.leave c status
    (metered { machineOf (p :: ps) τ mem st with ending := ending } env cost ticks)
      = Exec.continueBehind p.act.role 0 status
          (metered (machineOf ps (τ.behind p.wraps) (memBehind τ p.wraps mem) st)
            env cost ticks) := by
  have hfunc : (c.block p.act.block).func? = none := by
    rw [block_eq hc, func?_of_plain hplain]
  simp only [Exec.leave, bind, EStateM.bind, get_apply, metered,
    machineOf, framesOf, modify_apply, hfunc, hbase, Exec.dropBlock, Nat.zero_sub]
  by_cases hret : status = .return
  · simp only [hret, ne_eq, not_true_eq_false, if_false]
    rfl
  · rw [hst hret]
    simp only [ne_eq, hret, not_false_eq_true, if_true]
    rfl

/-! ### Answers -/

/-- The status with which a block is left. -/
def Ending.status : Ending → Status
  | normal => .normal
  | «break» => .break
  | «continue» => .continue
  | «return» _ => .return

/-- What is on the stack when a block is left. -/
def Ending.stack : Ending → Array Value
  | «return» v => #[v]
  | _ => #[]

theorem Ending.stack_eq (e : Ending) (h : e.status ≠ .return) : e.stack = #[] := by
  cases e with
  | «return» v => exact absurd rfl h
  | _ => rfl

/-- The same activation, perhaps at another instruction and with other loops around it. -/
structure Place.Near (q p : Place) : Prop where
  block : q.act.block = p.act.block
  base : q.act.base = p.act.base
  role : q.act.role = p.act.role
  wraps : q.wraps = p.wraps

/-- The same activation, perhaps at another instruction. -/
structure Place.Like (q p : Place) : Prop extends Place.Near q p where
  labels : q.act.labels = p.act.labels

theorem Place.Near.trans {p q r : Place} (h : r.Near q) (h' : q.Near p) : r.Near p :=
  ⟨h.block.trans h'.block, h.base.trans h'.base, h.role.trans h'.role, h.wraps.trans h'.wraps⟩

theorem Place.Like.refl (p : Place) : p.Like p := ⟨⟨rfl, rfl, rfl, rfl⟩, rfl⟩

theorem Place.Like.trans {p q r : Place} (h : r.Like q) (h' : q.Like p) : r.Like p :=
  ⟨h.toNear.trans h'.toNear, h.labels.trans h'.labels⟩

theorem Place.like_skip (p : Place) (n : Nat) : (p.skip n).Like p := ⟨⟨rfl, rfl, rfl, rfl⟩, rfl⟩

theorem Place.like_found (p : Place) (cond : Bool) : (p.found cond).Like p :=
  ⟨⟨rfl, rfl, rfl, rfl⟩, rfl⟩

/-- Whether a machine comes to a place of a block behind some code, in a state. -/
def Passes (A : Arena) (Γ : List Level) (p : Place) (ps : List Place)
    (stop : Nat) (m : Machine) (τ : State) : Prop :=
  ∃ loads mem q, q.Like p ∧ q.act.pc = stop ∧ Matches A Γ (q :: ps) τ.scopes ∧
    Leads A m loads (.ok (machineOf (q :: ps) τ mem #[]))

/-- Whether a machine comes to where a block is left, in a state. The blocks around it are `Γ`. -/
def Quits (A : Arena) (Γ : List Level) (p : Place) (ps : List Place)
    (m : Machine) (e : Ending) (τ : State) : Prop :=
  Matches A Γ ps (τ.behind p.wraps).scopes ∧ ∃ loads mem q, q.Near p ∧
    ∀ m', Does A (Exec.leave · e.status) (machineOf (q :: ps) τ mem e.stack) m' →
      m'.frames.length ≤ ps.length → Leads A m loads (.ok m')

/-- Whether a machine does what the reference semantics answers for some code of the block `l`
inside `Γ`. A loop that is given too few iterations takes at least that many instructions. -/
def Answers (A : Arena) (limit : Nat) (l : Level) (Γ : List Level) (p : Place)
    (ps : List Place) (stop : Nat) (m : Machine) : Option Result → Prop
  | none => ∃ loads m', limit ≤ loads.length ∧ Leads A m loads (.ok m')
  | some (.error f) => ∃ loads, Leads A m loads (.error f)
  | some (.ok (.normal, τ)) => Passes A (l :: Γ) p ps stop m τ
  | some (.ok (e, τ)) => Quits A Γ p ps m e τ

variable {limit stop : Nat} {m m' : Machine} {loads : List Int} {r : Option Result} {e : Ending}

theorem Passes.refl (h : Matches A Γ (q :: ps) τ.scopes) (hlike : q.Like p) :
    Passes A Γ p ps q.act.pc (machineOf (q :: ps) τ mem #[]) τ :=
  ⟨[], mem, q, hlike, rfl, h, Leads.refl A _⟩

theorem Passes.of_leads (h : Leads A m loads (.ok m')) (hp : Passes A Γ p ps stop m' τ) :
    Passes A Γ p ps stop m τ := by
  obtain ⟨ys, mem, q, hlike, hpc, hmatch, hys⟩ := hp
  exact ⟨loads ++ ys, mem, q, hlike, hpc, hmatch, h.trans hys⟩

theorem Quits.of_leads (h : Leads A m loads (.ok m')) (hq : Quits A Γ p ps m' e τ) :
    Quits A Γ p ps m e τ := by
  obtain ⟨hmatch, ys, mem, q, hlike, hys⟩ := hq
  exact ⟨hmatch, loads ++ ys, mem, q, hlike, fun m' hm' hlen => h.trans (hys m' hm' hlen)⟩

theorem Quits.of_near (h : q.Near p) (hq : Quits A Γ q ps m e τ) :
    Quits A Γ p ps m e τ := by
  obtain ⟨hmatch, ys, mem, r, hnear, hys⟩ := hq
  rw [h.wraps] at hmatch
  exact ⟨hmatch, ys, mem, r, hnear.trans h, hys⟩

/-- Instructions before some code only add to its loads. -/
theorem Answers.after {n : Nat} (h : Leads A m loads (.ok m')) (hn : n ≤ loads.length + limit)
    (ha : Answers A limit l Γ p ps stop m' r) : Answers A n l Γ p ps stop m r := by
  match r with
  | none =>
    obtain ⟨ys, m'', hle, hys⟩ := ha
    exact ⟨loads ++ ys, m'', by rw [List.length_append]; omega, h.trans hys⟩
  | some (.error f) =>
    obtain ⟨ys, hys⟩ := ha
    exact ⟨loads ++ ys, h.trans hys⟩
  | some (.ok (.normal, τ)) => exact Passes.of_leads h ha
  | some (.ok (.break, τ)) => exact Quits.of_leads h ha
  | some (.ok (.continue, τ)) => exact Quits.of_leads h ha
  | some (.ok (.return v, τ)) => exact Quits.of_leads h ha

theorem Answers.of_leads (h : Leads A m loads (.ok m'))
    (ha : Answers A limit l Γ p ps stop m' r) : Answers A limit l Γ p ps stop m r :=
  ha.after h (Nat.le_add_left ..)

/-- What is answered for one place in the code is for any that is like it. -/
theorem Answers.of_like (h : q.Like p) (ha : Answers A limit l Γ q ps stop m r) :
    Answers A limit l Γ p ps stop m r := by
  match r with
  | none => exact ha
  | some (.error f) => exact ha
  | some (.ok (.normal, τ)) =>
    obtain ⟨ys, mem, r, hlike, hrest⟩ := ha
    exact ⟨ys, mem, r, hlike.trans h, hrest⟩
  | some (.ok (.break, τ)) => exact Quits.of_near h.toNear ha
  | some (.ok (.continue, τ)) => exact Quits.of_near h.toNear ha
  | some (.ok (.return v, τ)) => exact Quits.of_near h.toNear ha

/-! ### Branches -/

/-- The answer behind a block. -/
def closed (wraps : Bool) : Option Result → Option Result
  | some (.ok (e, τ)) => some (.ok (e, τ.behind wraps))
  | r => r

theorem inBlock_eq (types : List Ty) (run : State → Option Result) (σ : State) :
    inBlock types run σ = closed false (run (σ.enter types)) := by
  rw [inBlock, closed.eq_def]
  rcases run (σ.enter types) with _ | (_ | ⟨e, τ⟩) <;> rfl

theorem closed_true (r : Option Result) : closed true r = r := by
  rcases r with _ | (_ | ⟨e, τ⟩) <;> rfl

/-- A place in a branch or loop. -/
structure Inner (A : Arena) (q : Place) (role : Role) : Prop where
  role : q.act.role = role
  base : q.act.base = 0
  plain : (A.block q.act.block).info = .plain

theorem Inner.near {role : Role} (h : Inner A p role) (hq : q.Near p) : Inner A q role :=
  ⟨hq.role.trans h.role, hq.base.trans h.base, by rw [hq.block]; exact h.plain⟩

/-- A branch or loop is left by going on behind it. -/
theorem Inner.does_leave {role : Role} (h : Inner A q role)
    (hm : Does A (fun _ => Exec.continueBehind role 0 e.status)
      (machineOf ps (τ.behind q.wraps) (memBehind τ q.wraps mem) e.stack) m') :
    Does A (Exec.leave · e.status) (machineOf (q :: ps) τ mem e.stack) m' := by
  intro c hc env cost ticks
  rw [← h.role] at hm
  exact (leave_apply hc h.base h.plain e.stack_eq none env cost ticks).trans
    (hm c hc env cost ticks)

/-- How the innermost block is ending does not matter when it is left. -/
theorem does_leave_ending {status : Status} {st : Array Value}
    (h : Does A (Exec.leave · status) (machineOf (p :: ps) τ mem st) m')
    (ending : Option Status) : Does A (Exec.leave · status)
      { machineOf (p :: ps) τ mem st with ending := ending } m' := h

/-- A block that is left with a status that it passes on has the block around it left too. -/
theorem Quits.pass {role : Role} (hq : Inner A q role)
    (hpass : ∀ m, Does A (fun _ => Exec.continueBehind role 0 e.status) m
      { m with ending := some e.status })
    (h : Quits A (l :: Γ) q (p :: ps) m e τ) : Quits A Γ p ps m e (τ.behind q.wraps) := by
  obtain ⟨hmatch, loads, mem, q', hnear, hleads⟩ := h
  have hstop := hleads _ ((hq.near hnear).does_leave (hpass _)) (by simp [machineOf])
  rw [hnear.wraps] at hstop
  refine ⟨hmatch.tail, loads ++ [], memBehind τ q.wraps mem, p, (Place.Like.refl p).toNear,
    fun m' hm' hlen => ?_⟩
  refine hstop.trans (Leads.leave rfl (Or.inl rfl) (does_leave_ending hm' _) ?_)
  simpa [machineOf] using hlen

theorem branch_passes (hne : e.status ≠ .normal) (m : Machine) :
    Does A (fun _ => Exec.continueBehind .branch 0 e.status) m
    { m with ending := some e.status } := by
  intro c _ env cost ticks
  cases e with
  | normal => exact absurd rfl hne
  | _ => rfl

/-- The end of the code of the innermost block. -/
theorem leads_end {st : Array Value} (hnone : (opsOf (A.block p.act.block).code)[p.act.pc]? = none)
    (h : Does A (Exec.leave · .normal) (machineOf (p :: ps) τ mem st) m')
    (hlen : m'.frames.length ≤ ps.length) :
    Leads A (machineOf (p :: ps) τ mem st) [] (.ok m') := by
  refine Leads.leave rfl (Or.inr ⟨rfl, rfl, hnone⟩) h ?_
  simpa [machineOf] using hlen

/-- Behind a branch the block around it goes on. -/
theorem Answers.branch {k : Level} {stop' : Nat} (hq : Inner A q .branch)
    (hend : (opsOf (A.block q.act.block).code).length ≤ stop)
    (hnext : ∀ τ mem, Matches A (l :: Γ) (p.skip 1 :: ps) τ.scopes →
      Passes A (l :: Γ) p ps stop' (machineOf (p.skip 1 :: ps) τ mem #[]) τ)
    (h : Answers A limit k (l :: Γ) q (p :: ps) stop m r) :
    Answers A limit l Γ p ps stop' m (closed q.wraps r) := by
  match r with
  | none => exact h
  | some (.error f) => exact h
  | some (.ok (.normal, τ)) =>
    obtain ⟨loads, mem, q', hlike, hpc, hmatch, hleads⟩ := h
    have hnone : (opsOf (A.block q'.act.block).code)[q'.act.pc]? = none := by
      rw [hlike.block, hpc]
      exact List.getElem?_eq_none hend
    have hleave : Does A (Exec.leave · .normal) (machineOf (q' :: p :: ps) τ mem #[])
        (machineOf (p.skip 1 :: ps) (τ.behind q'.wraps) (memBehind τ q'.wraps mem) #[]) :=
      (hq.near hlike.toNear).does_leave (e := .normal) fun _ _ _ _ _ => rfl
    have hstop := leads_end hnone hleave (by simp [machineOf])
    rw [hlike.wraps] at hstop
    have htail := hmatch.tail
    rw [hlike.wraps] at htail
    exact Passes.of_leads (hleads.trans hstop) (hnext _ _ (htail.skip 1))
  | some (.ok (.break, τ)) => exact Quits.pass hq (branch_passes (by decide)) h
  | some (.ok (.continue, τ)) => exact Quits.pass hq (branch_passes (by decide)) h
  | some (.ok (.return v, τ)) => exact Quits.pass hq (branch_passes (by simp [Ending.status])) h

/-! ### Statements without blocks -/

/-- An instruction that leaves the innermost block. -/
theorem quits_instr {op : Op} (hop : ∀ c, Exec.perform c op = Exec.leave c e.status)
    (hat : CodeAt A p [op]) (h : Matches A (l :: Γ) (p :: ps) τ.scopes) :
    Quits A Γ p ps (machineOf (p :: ps) τ mem e.stack) e τ := by
  refine ⟨h.tail, [mem], mem, p, (Place.Like.refl p).toNear, fun m' hm' hlen =>
    leads_instr hat ?_ (by omega)⟩
  simpa only [hop] using hm'

/-- The value of an expression is on the stack, or the expression fails. -/
theorem Answers.of_eval {c : Expr} {us : List Op} (h : Matches A (l :: Γ) (p :: ps) σ.scopes)
    (hus : c.code (l :: Γ) = some us) (hat : CodeAt A p us) (mem : Int)
    {k : Value → State → Option Result}
    (hnext : ∀ v τ, τ.scopes = σ.scopes → Answers A limit l Γ q ps stop
      (machineOf (p.skip us.length :: ps) τ mem #[v]) (k v τ)) :
    Answers A limit l Γ q ps stop (machineOf (p :: ps) σ mem #[])
      (match c.eval σ.scopes σ.heap with
        | .error f => some (.error f)
        | .ok (v, h) => k v { σ with heap := h }) := by
  obtain ⟨loads, hloads⟩ := Expr.leads h hus hat mem #[]
  cases hv : c.eval σ.scopes σ.heap with
  | error f => exact ⟨loads, by rw [hv] at hloads; exact hloads⟩
  | ok r =>
    rw [hv] at hloads
    exact (hnext r.1 { σ with heap := r.2 } rfl).of_leads hloads

/-- Fresh variables have fresh values. -/
theorem map_value_zip (names : List String) (ty : Ty) (fresh : List Value) :
    ((names.zip fresh).map fun p => (⟨p.1, ty, p.2⟩ : Variable)).map Variable.value
      = fresh.take names.length := by
  induction names generalizing fresh with
  | nil => simp
  | cons x xs ih =>
    cases fresh with
    | nil => rfl
    | cons v vs => simpa using ih vs

theorem map_name_zip (ty : Ty) {names : List String} {fresh : List Value}
    (h : names.length ≤ fresh.length) :
    ((names.zip fresh).map fun p => (⟨p.1, ty, p.2⟩ : Variable)).map Variable.name = names := by
  rw [List.map_map]
  exact List.map_fst_zip h

theorem map_ty_zip (ty : Ty) {names : List String} {fresh : List Value}
    (h : names.length ≤ fresh.length) :
    ((names.zip fresh).map fun p => (⟨p.1, ty, p.2⟩ : Variable)).map Variable.ty
      = names.map fun _ => ty := by
  conv_rhs => rw [← map_name_zip ty h]
  rw [List.map_map, List.map_map, List.map_map]
  rfl

/-- A declaration leaves the values of the block as they are. -/
theorem values_declare (s : Scope) (names : List String) (ty : Ty) :
    (s.declare names ty).values = s.values := by
  rw [Scope.values, Scope.declare, List.map_append, map_value_zip, List.append_assoc,
    List.take_append_drop, Scope.values]

/-- The value of the expression is on the stack when the function returns. -/
theorem return_answers {c : Expr} {us : List Op} (h : Matches A (l :: Γ) (p :: ps) σ.scopes)
    (hus : c.code (l :: Γ) = some us) (hat : CodeAt A p (us ++ [.return])) (mem : Int) :
    Answers A limit l Γ p ps (p.act.pc + (us ++ [Op.return]).length)
      (machineOf (p :: ps) σ mem #[]) ((Stmt.return c).exec limit σ) := by
  have hexec : (Stmt.return c).exec limit σ = match c.eval σ.scopes σ.heap with
      | .error f => some (.error f)
      | .ok (v, h) => some (.ok (.return v, { σ with heap := h })) := by
    rw [Stmt.exec]
    cases c.eval σ.scopes σ.heap <;> rfl
  rw [hexec]
  refine .of_eval h hus hat.left mem (k := fun v τ => some (.ok (.return v, τ))) fun v τ hτ => ?_
  refine Quits.of_near (p.like_skip us.length).toNear ?_
  exact quits_instr (e := .return v) (fun _ => rfl) hat.right (by rw [hτ]; exact h.skip _)

/-- A declaration brings variables of the innermost block into view and leaves the machine as it
is. -/
theorem Matches.declare (names : List String) (ty : Ty)
    (h : Matches A (l :: Γ) (p :: ps) σ.scopes) (hwraps : p.wraps = false)
    (hty : names.map (fun _ => ty) <+: (A.block l.id).vars.toList.drop l.names.length) :
    Matches A ({ l with names := l.names ++ names } :: Γ) (p :: ps) (σ.declare names ty).scopes ∧
      ∀ mem, machineOf (p :: ps) (σ.declare names ty) mem #[] = machineOf (p :: ps) σ mem #[] := by
  obtain ⟨scopes, heap⟩ := σ
  obtain ⟨a, w⟩ := p
  obtain rfl : w = false := hwraps
  cases h with
  | @scope _ s types _ _ ss hbase hfresh hvars hlen hmatch =>
    obtain ⟨types', htypes⟩ := hty
    have htypes : names.map (fun _ => ty) ++ types' = types := by
      rw [htypes, hvars, List.length_map]
      exact List.drop_left' (List.length_map ..)
    -- The block has a slot for every name it declares, so the new names take the next fresh ones.
    have hle : names.length ≤ s.fresh.length := by
      rw [← hlen, ← htypes, List.length_append, List.length_map]
      omega
    refine ⟨?_, fun mem => ?_⟩
    · have hvars' : (A.block a.block).vars.toList
          = (s.declare names ty).vars.map Variable.ty ++ types' := by
        rw [hvars, ← htypes, Scope.declare, List.map_append, map_ty_zip ty hle, List.append_assoc]
      have hlen' : types'.length = (s.declare names ty).fresh.length := by
        have := congrArg List.length htypes
        rw [List.length_append, List.length_map] at this
        rw [Scope.declare, List.length_drop]
        omega
      have hnew := Matches.scope hbase hfresh hvars' hlen' hmatch
      rw [Scope.declare, List.map_append, map_name_zip ty hle] at hnew
      exact hnew
    · simp only [machineOf, State.declare, framesOf_scope, values_declare]

/-- The groups of a declaration come into view one after the other. -/
theorem Matches.declareGroups (groups : List (List String × Ty))
    (h : Matches A (l :: Γ) (p :: ps) σ.scopes) (hwraps : p.wraps = false)
    (hty : groupTypes groups <+: (A.block l.id).vars.toList.drop l.names.length) :
    Matches A ({ l with names := l.names ++ groupNames groups } :: Γ) (p :: ps)
        (σ.declareGroups groups).scopes ∧
      ∀ mem, machineOf (p :: ps) (σ.declareGroups groups) mem #[]
        = machineOf (p :: ps) σ mem #[] := by
  induction groups generalizing l σ with
  | nil =>
    rw [groupNames, List.flatMap_nil, List.append_nil]
    exact ⟨h, fun _ => rfl⟩
  | cons g groups ih =>
    rw [groupTypes, List.flatMap_cons, ← groupTypes] at hty
    obtain ⟨hfirst, hsame⟩ := h.declare g.1 g.2 hwraps ((List.prefix_append _ _).trans hty)
    have hrest : groupTypes groups
        <+: (A.block l.id).vars.toList.drop (l.names ++ g.1).length := by
      obtain ⟨types, htypes⟩ := hty
      have hdrop := congrArg (List.drop g.1.length) htypes
      rw [List.append_assoc, List.drop_left' (List.length_map ..), List.drop_drop] at hdrop
      exact ⟨types, by rw [hdrop, List.length_append]⟩
    obtain ⟨hothers, hsame'⟩ := ih (l := { l with names := l.names ++ g.1 }) hfirst hrest
    rw [groupNames, List.flatMap_cons, ← groupNames, ← List.append_assoc]
    exact ⟨hothers, fun mem => (hsame' mem).trans (hsame mem)⟩

theorem declare_answers (groups : List (List String × Ty))
    (h : Matches A (l :: Γ) (p :: ps) σ.scopes) (hwraps : p.wraps = false)
    (hty : groupTypes groups <+: (A.block l.id).vars.toList.drop l.names.length) (mem : Int) :
    Answers A limit { l with names := l.names ++ groupNames groups } Γ p ps p.act.pc
      (machineOf (p :: ps) σ mem #[]) (some (.ok (.normal, σ.declareGroups groups))) := by
  obtain ⟨hmatch, hsame⟩ := h.declareGroups groups hwraps hty
  exact ⟨[], mem, p, .refl p, rfl, hmatch, by rw [hsame]; exact Leads.refl A _⟩

theorem convert_eq (ty : Ty) (v : Value) : Ty.convert (some ty) v = convert ty v := by
  cases ty <;> cases v <;> rfl

/-- Setting a variable changes neither names nor types. -/
theorem Matches.set {ss : List Scope} (h : Matches A Γ ps ss) (x : String) (y : Value) :
    Matches A Γ ps (setIn x y ss) := by
  induction h with
  | nil => exact .nil
  | @scope a s types Γ ps ss hbase hfresh hvars hlen hmatch ih =>
    rw [setIn]
    split
    · have hnew := Matches.scope (s := s.set x y) hbase hfresh
        (by rw [hvars, Scope.set, map_ty_setVar]) hlen hmatch
      rw [Scope.set, map_name_setVar] at hnew
      exact hnew
    · exact .scope hbase hfresh hvars hlen ih
  | wrap hbase hfresh _ ih => exact .wrap hbase hfresh ih

/-- The place with what its next assignment writes to. -/
def Place.aims (p : Place) (targets : List Target) : Place :=
  { p with act := { p.act with targets := targets } }

theorem leads_assignVar {targets : List Target} (hat : CodeAt A p [.assignVar targets]) :
    Leads A (machineOf (p :: ps) σ mem #[]) [mem]
      (.ok (machineOf ((p.skip 1).aims targets :: ps) σ mem #[])) :=
  leads_instr hat (fun _ _ _ _ _ => rfl) (by simp [machineOf])

variable (mem) in
/-- Assigning to the variable in view. -/
theorem assignVar_apply {x : String} {v : VarRef} (h : Matches A Γ ps σ.scopes)
    (hv : resolve x Γ = some v) (y : Value) : ∃ w, findIn x σ.scopes = some w ∧
      ∀ c : Context, c.registry.arena = A → ∀ env cost ticks,
        Exec.assignVar c v y (metered (machineOf ps σ mem #[]) env cost ticks)
          = match convert w.ty y with
            | .ok y => .ok () (metered (machineOf ps { σ with scopes := setIn x y σ.scopes }
                (mem + (y.memSize σ.heap - w.value.memSize σ.heap)) #[]) env cost ticks)
            | .error f => .error (.fault f)
                (metered (machineOf ps σ mem #[]) env cost ticks) := by
  obtain ⟨w, hfind, hslot, hty, hset⟩ := h.variable hv
  refine ⟨w, hfind, fun c hc env cost ticks => ?_⟩
  have hconv : Ty.convert ((c.block v.owner).vars[v.index]?) y = convert w.ty y := by
    rw [block_eq hc, hty, convert_eq]
  simp only [Exec.assignVar, bind, EStateM.bind, readVar_apply hslot, ofExcept_apply, hconv]
  cases convert w.ty y with
  | error f => rfl
  | ok y =>
    simp only [modify_apply]
    simp only [metered, machineOf, hset]

/-- An assignment to one variable ends as it does in the reference semantics. -/
theorem assign_ends {x : String} {v : VarRef} (h : Matches A Γ ps σ.scopes)
    (hv : resolve x Γ = some v) (y : Value) (mem : Int) : ∃ mem', ∀ c : Context,
      c.registry.arena = A → ∀ env cost ticks,
        Exec.Ends (Exec.assign c (.var v) y) (metered (machineOf ps σ mem #[]) env cost ticks)
          ((σ.assign x y).map fun τ => metered (machineOf ps τ mem' #[]) env cost ticks) := by
  obtain ⟨w, hfind, happly⟩ := assignVar_apply mem h hv y
  rw [State.assign, hfind]
  dsimp only
  cases hy : convert w.ty y with
  | error f =>
    rw [hy] at happly
    exact ⟨mem, fun c hc env cost ticks => ⟨_, happly c hc env cost ticks⟩⟩
  | ok z =>
    rw [hy] at happly
    exact ⟨_, fun c hc env cost ticks => happly c hc env cost ticks⟩

/-- An assigned value is where the variable is. -/
theorem Matches.assign {x : String} {y : Value} (h : Matches A Γ ps σ.scopes)
    (ha : σ.assign x y = .ok τ) : Matches A Γ ps τ.scopes := by
  rw [State.assign] at ha
  split at ha
  · cases ha
  · rename_i w _
    cases hy : convert w.ty y with
    | error f =>
      rw [hy] at ha
      cases ha
    | ok z =>
      rw [hy] at ha
      cases ha
      exact h.set x z

/-- Assignments to several variables end as they do in the reference semantics, and leave the
variables in view as they were. -/
theorem assignAll_ends {xs : List String} {vs : List VarRef}
    (hvs : List.Forall₂ (fun x v => resolve x Γ = some v) xs vs) {ys : List Value}
    (hlength : xs.length = ys.length) (h : Matches A Γ ps σ.scopes) (mem : Int) :
    (∀ τ, State.assignAll (xs.zip ys) σ = .ok τ → Matches A Γ ps τ.scopes) ∧
      ∃ mem', ∀ c : Context, c.registry.arena = A → ∀ env cost ticks,
        Exec.Ends (Exec.assignAll c (vs.map .var) ys)
        (metered (machineOf ps σ mem #[]) env cost ticks)
          ((State.assignAll (xs.zip ys) σ).map fun τ =>
            metered (machineOf ps τ mem' #[]) env cost ticks) := by
  induction hvs generalizing ys σ mem with
  | nil =>
    obtain rfl : ys = [] := List.length_eq_zero_iff.1 hlength.symm
    refine ⟨fun τ hτ => ?_, mem, fun _ _ _ _ _ => rfl⟩
    cases hτ
    exact h
  | @cons x v xs vs hv _ ih =>
    obtain ⟨y, ys, rfl⟩ := List.exists_cons_of_length_pos (by rw [← hlength]; exact Nat.succ_pos _)
    -- The first variable is assigned before the others, so an error leaves it assigned.
    obtain ⟨mem₁, hfirst⟩ := assign_ends h hv y mem
    rw [List.zip_cons_cons, State.assignAll, List.map_cons]
    cases hx : σ.assign x y with
    | error f =>
      refine ⟨(fun _ hτ => by cases hτ), mem, fun c hc env cost ticks => ?_⟩
      have hends := hfirst c hc env cost ticks
      rw [hx] at hends
      obtain ⟨m', hm'⟩ := hends
      exact ⟨m', bind_of_error hm'⟩
    | ok τ =>
      obtain ⟨hmatch, mem', hrest⟩ := ih (Nat.succ.inj hlength) (h.assign hx) mem₁
      refine ⟨hmatch, mem', fun c hc env cost ticks => ?_⟩
      have hends := hfirst c hc env cost ticks
      rw [hx] at hends
      exact .behind hends (hrest c hc env cost ticks)

theorem popN_apply (ys : List Value) (env : Dict Value) (cost : Int) (ticks : Nat) :
    Exec.popN ys.length (metered (machineOf ps σ mem ys.toArray) env cost ticks)
      = .ok ys (metered (machineOf ps σ mem #[]) env cost ticks) := by
  simp [Exec.popN, metered, machineOf, bind, EStateM.bind, get_apply, modify_apply, pure_apply]

/-- An assignment takes its values from the stack and writes them to the targets noted before. -/
theorem assign_apply {targets : List Target} {ys : List Value} (haims : p.act.targets = targets)
    (hlength : targets.length = ys.length) (c : Context) (env : Dict Value)
    (cost : Int) (ticks : Nat) :
    Exec.perform c .assign (metered (machineOf (p :: ps) σ mem ys.toArray) env cost ticks)
      = (Exec.assignAll c targets ys >>= fun _ => Exec.advance)
          (metered (machineOf (p.aims [] :: ps) σ mem #[]) env cost ticks) := by
  obtain ⟨a, w⟩ := p
  obtain ⟨block, pc, slots, base, role, labels, lastCond, targets'⟩ := a
  obtain rfl : targets' = targets := haims
  have hpop : Exec.popN ys.length (metered (machineOf
      (Place.aims ⟨⟨block, pc, slots, base, role, labels, lastCond, targets'⟩, w⟩ [] :: ps) σ mem
        ys.toArray) env cost ticks) = _ := popN_apply ys env cost ticks
  rw [← hlength] at hpop
  exact bind_of_ok hpop

/-- Assignments are made in the order of the targets. -/
theorem leads_assign {xs : List String} {vs : List VarRef} {ys : List Value}
    (h : Matches A Γ (p :: ps) σ.scopes)
    (hvs : List.Forall₂ (fun x v => resolve x Γ = some v) xs vs) (hlength : xs.length = ys.length)
    (haims : p.act.targets = vs.map .var) (hat : CodeAt A p [.assign]) (mem : Int) :
    (∀ τ, State.assignAll (xs.zip ys) σ = .ok τ → Matches A Γ (p :: ps) τ.scopes) ∧
      ∃ mem', Leads A (machineOf (p :: ps) σ mem ys.toArray) [mem]
        ((State.assignAll (xs.zip ys) σ).map fun τ =>
          machineOf ((p.skip 1).aims [] :: ps) τ mem' #[]) := by
  have hmatch : Matches A Γ (p.aims [] :: ps) σ.scopes := h.congr rfl rfl rfl
  obtain ⟨hkeeps, mem', hends⟩ := assignAll_ends hvs hlength hmatch mem
  have hlen : (vs.map Target.var).length = ys.length := by
    rw [List.length_map, ← hvs.length_eq, hlength]
  refine ⟨fun τ hτ => (hkeeps τ hτ).congr rfl rfl rfl, mem', ?_⟩
  cases hall : State.assignAll (xs.zip ys) σ with
  | error f =>
    rw [hall] at hends
    refine leads_fault hat fun c hc env cost ticks => ?_
    obtain ⟨m', hm'⟩ := hends c hc env cost ticks
    exact ⟨m', (assign_apply haims hlen c env cost ticks).trans (bind_of_error hm')⟩
  | ok τ =>
    rw [hall] at hends
    refine leads_instr hat (fun c hc env cost ticks => ?_) (by simp [machineOf])
    exact (assign_apply haims hlen c env cost ticks).trans (bind_of_ok (hends c hc env cost ticks))

/-- Several expressions have one value each. -/
theorem length_evalAll {ss : List Scope} {es : List Expr} {g : Heap} {r : List Value × Heap}
    (h : evalAll ss es g = .ok r) : r.1.length = es.length := by
  induction es generalizing g r with
  | nil =>
    cases h
    rfl
  | cons e es ih =>
    rw [evalAll] at h
    cases he : e.eval ss g with
    | error f =>
      rw [he] at h
      cases h
    | ok q =>
      rw [he] at h
      cases hes : evalAll ss es q.2 with
      | error f =>
        dsimp only at h
        rw [hes] at h
        cases h
      | ok q' =>
        dsimp only at h
        rw [hes] at h
        cases h
        exact congrArg Nat.succ (ih hes)

/-- The targets are noted, the values are pushed, and then they are assigned. -/
theorem assign_answers {xs : List String} {vs : List VarRef} {es : List Expr} {us : List Op}
    (h : Matches A (l :: Γ) (p :: ps) σ.scopes) (hlength : xs.length = es.length)
    (hvs : List.Forall₂ (fun x v => resolve x (l :: Γ) = some v) xs vs)
    (hus : codeAll (l :: Γ) es = some us)
    (hat : CodeAt A p (.assignVar (vs.map .var) :: (us ++ [.assign]))) (mem : Int) :
    Answers A limit l Γ p ps (p.act.pc + (.assignVar (vs.map .var) :: (us ++ [.assign])).length)
      (machineOf (p :: ps) σ mem #[]) ((Stmt.assign xs es).exec limit σ) := by
  have hlike : ((p.skip 1).aims (vs.map .var)).Like p := ⟨⟨rfl, rfl, rfl, rfl⟩, rfl⟩
  have hmatch : Matches A (l :: Γ) ((p.skip 1).aims (vs.map .var) :: ps) σ.scopes :=
    h.congr rfl rfl rfl
  -- The targets are noted, the values are evaluated, then all of them are assigned.
  refine .of_leads (leads_assignVar hat.head) (.of_like hlike ?_)
  obtain ⟨loads, hloads⟩ := leads_codeAll hmatch hus hat.next.left mem #[]
  rw [Stmt.exec]
  cases hes : evalAll σ.scopes es σ.heap with
  | error f =>
    rw [hes] at hloads
    exact ⟨loads, hloads⟩
  | ok r =>
    rw [hes] at hloads
    simp only [Except.map, Array.empty_append] at hloads
    refine .of_leads hloads ?_
    obtain ⟨hkeeps, mem', hleads⟩ := leads_assign (σ := { σ with heap := r.2 })
      (hmatch.skip us.length) hvs (hlength.trans (length_evalAll hes).symm) rfl hat.next.right mem
    change Answers _ _ _ _ _ _ _ _ (some
      ((State.assignAll (xs.zip r.1) { σ with heap := r.2 }).map _))
    cases hall : State.assignAll (xs.zip r.1) { σ with heap := r.2 } with
    | error f =>
      rw [hall] at hleads
      exact ⟨[mem], hleads⟩
    | ok τ =>
      rw [hall] at hleads
      refine ⟨[mem], mem', _, ?_, ?_, ?_, hleads⟩
      · exact ⟨⟨rfl, rfl, rfl, rfl⟩, rfl⟩
      · simp only [Place.aims, Place.skip, List.length_cons, List.length_append, List.length_nil]
        omega
      · exact (hkeeps τ hall).congr rfl rfl rfl

/-! ### Statements with blocks -/

/-- Whether the code of a block's statements does what they do. -/
def Body.Simulates (A : Arena) (limit : Nat) (b : Body) : Prop :=
  ∀ (l : Level) (Γ : List Level) (p : Place) (ps : List Place) (σ : State) (ops : List Op)
    (mem : Int), Matches A (l :: Γ) (p :: ps) σ.scopes → p.wraps = false →
    b.Code A (l :: Γ) ops → CodeAt A p ops →
    (A.block l.id).vars.toList.drop l.names.length = b.types →
    ∃ l', Answers A limit l' Γ p ps (p.act.pc + ops.length) (machineOf (p :: ps) σ mem #[])
      (b.exec limit σ)

/-- Whether the code of further branches does what they do when no branch has run yet. -/
def Branches.Simulates (A : Arena) (limit : Nat) (rest : Branches) : Prop :=
  ∀ (l : Level) (Γ : List Level) (p : Place) (ps : List Place) (σ : State) (ops : List Op)
    (mem : Int), Matches A (l :: Γ) (p :: ps) σ.scopes → rest.Code A (l :: Γ) ops → CodeAt A p ops →
    p.act.lastCond = false →
    Answers A limit l Γ p ps (p.act.pc + ops.length) (machineOf (p :: ps) σ mem #[])
      (rest.exec limit σ)

theorem Child.inner {id : BlockId} {types : List Ty} {ops : List Op}
    (h : Child A Γ id types ops) (role : Role) (wraps : Bool) :
    Inner A ⟨entered id role, wraps⟩ role := ⟨rfl, rfl, h.plain⟩

theorem Child.codeAt {id : BlockId} {types : List Ty} {us vs : List Op}
    (h : Child A Γ id types (us ++ vs)) (role : Role) (wraps : Bool) :
    CodeAt A ⟨entered id role, wraps⟩ us := by
  refine ⟨vs, ?_⟩
  rw [← h.code]
  rfl

/-- The body of a branch. -/
theorem Body.Simulates.branch {b : Body} (hb : b.Simulates A limit) {id : BlockId}
    {vs : List Op} (hcode : b.Code A (⟨id, []⟩ :: l :: Γ) vs)
    (hchild : Child A (l :: Γ) id b.types vs) (h : Matches A (l :: Γ) (p :: ps) σ.scopes)
    (mem : Int) (hnext : ∀ τ mem, Matches A (l :: Γ) (p.skip 1 :: ps) τ.scopes →
      Passes A (l :: Γ) p ps stop (machineOf (p.skip 1 :: ps) τ mem #[]) τ) :
    Answers A limit l Γ p ps stop (machineOf (⟨entered id .branch, false⟩ :: p :: ps)
      (σ.enter (A.block id).vars.toList) mem #[]) (inBlock b.types (b.exec limit) σ) := by
  have hat : CodeAt A ⟨entered id .branch, false⟩ vs := by
    rw [← List.append_nil vs] at hchild
    exact hchild.codeAt .branch false
  obtain ⟨l', ha⟩ := hb _ _ _ _ _ vs mem (h.enter hchild.fresh .branch) rfl hcode hat hchild.vars
  rw [inBlock_eq, ← hchild.vars]
  refine Answers.branch (hchild.inner .branch false) ?_ hnext ha
  rw [← hchild.code]
  exact Nat.le_add_left ..

/-- When a branch has run, the others are passed over. -/
theorem Branches.passes {rest : Branches} {ws : List Op} (hcode : rest.Code A (l :: Γ) ws)
    (hat : CodeAt A q ws) (hlast : q.act.lastCond = true) (hlike : q.Like p)
    (h : Matches A (l :: Γ) (q :: ps) τ.scopes) : Passes A (l :: Γ) p ps (q.act.pc + ws.length)
      (machineOf (q :: ps) τ mem #[]) τ := by
  -- A taken branch leaves `lastCond` set, and an `else` that follows is skipped by it.
  have hskip : ∀ id, ws = [.else id] → Passes A (l :: Γ) p ps (q.act.pc + ws.length)
      (machineOf (q :: ps) τ mem #[]) τ := by
    rintro id rfl
    have hdoes : Does A (Exec.perform · (.else id)) (machineOf (q :: ps) τ mem #[])
        (machineOf (q.skip 1 :: ps) τ mem #[]) := by
      intro c _ env cost ticks
      refine (else_apply id env cost ticks).trans ?_
      rw [hlast]
      rfl
    refine Passes.of_leads (leads_instr hat hdoes (by simp [machineOf])) ?_
    exact Passes.refl (h.skip 1) ((q.like_skip 1).trans hlike)
  cases rest with
  | none =>
    simp only [Branches.Code] at hcode
    subst hcode
    exact Passes.refl h hlike
  | «else» b =>
    simp only [Branches.Code] at hcode
    obtain ⟨id, vs, -, -, rfl⟩ := hcode
    exact hskip id rfl
  | elif c b rest =>
    simp only [Branches.Code] at hcode
    obtain ⟨id, _, _, _, _, -, -, -, -, -, rfl⟩ := hcode
    exact hskip id rfl

/-- An `if` with its further branches, also the one of an `elif`. -/
theorem if_answers {c : Expr} {b : Body} {rest : Branches} (hb : b.Simulates A limit)
    (hr : rest.Simulates A limit) {id : BlockId} {us vs ws : List Op}
    (h : Matches A (l :: Γ) (p :: ps) σ.scopes) (hus : c.code (l :: Γ) = some us)
    (hcode : b.Code A (⟨id, []⟩ :: l :: Γ) vs) (hchild : Child A (l :: Γ) id b.types vs)
    (hws : rest.Code A (l :: Γ) ws) (hat : CodeAt A p (us ++ .if id :: ws)) (mem : Int) :
    Answers A limit l Γ p ps (p.act.pc + (us ++ .if id :: ws).length)
      (machineOf (p :: ps) σ mem #[]) ((Stmt.if c b rest).exec limit σ) := by
  have hexec : (Stmt.if c b rest).exec limit σ = match c.eval σ.scopes σ.heap with
      | .error f => some (.error f)
      | .ok (v, h) => if v.truthy h then inBlock b.types (b.exec limit) { σ with heap := h }
        else rest.exec limit { σ with heap := h } := by
    rw [Stmt.exec, Expr.holds]
    cases c.eval σ.scopes σ.heap with
    | error f => rfl
    | ok r => cases hv : r.1.truthy r.2 <;> simp [Except.map, hv]
  rw [hexec]
  refine .of_eval h hus hat.left mem (k := fun v τ => if v.truthy τ.heap then
    inBlock b.types (b.exec limit) τ else rest.exec limit τ) fun v τ hτ => ?_
  rw [← hτ] at h
  -- the jump notes in the frame whether the branch was taken, which later branches look at
  have hmatch (cond : Bool) : Matches A (l :: Γ) ((p.skip us.length).found cond :: ps) τ.scopes :=
    h.congr rfl rfl rfl
  have hlike (cond : Bool) : ((p.skip us.length).found cond).Like p :=
    (Place.like_found _ cond).trans (p.like_skip _)
  have hrest (cond : Bool) : CodeAt A (((p.skip us.length).found cond).skip 1) ws := hat.right.next
  have hstop (cond : Bool) : (((p.skip us.length).found cond).skip 1).act.pc + ws.length
      = p.act.pc + (us ++ .if id :: ws).length := by
    simp only [Place.skip, Place.found, List.length_append, List.length_cons]
    omega
  cases hv : v.truthy τ.heap with
  | true =>
    have hdoes : Does A (Exec.perform · (.if id))
        (machineOf (p.skip us.length :: ps) τ mem #[v])
        (machineOf (⟨entered id .branch, false⟩ :: (p.skip us.length).found true :: ps)
          (τ.enter (A.block id).vars.toList) (mem + enterSize τ (A.block id).vars.toList) #[]) := by
      intro c hc env cost ticks
      refine (if_apply v id env cost ticks).trans ?_
      rw [hv]
      exact enterBlock_apply hc hchild.lt rfl env cost ticks
    refine .of_leads (leads_instr hat.right.head hdoes (by simp [machineOf]))
      (.of_like (hlike true) ?_)
    refine hb.branch hcode hchild (hmatch true) _ fun τ' mem hτ' => ?_
    rw [← hstop true]
    exact Branches.passes hws (hrest true) rfl (Place.like_skip _ 1) hτ'
  | false =>
    have hdoes : Does A (Exec.perform · (.if id))
        (machineOf (p.skip us.length :: ps) τ mem #[v])
        (machineOf (((p.skip us.length).found false).skip 1 :: ps) τ mem #[]) := by
      intro c hc env cost ticks
      refine (if_apply v id env cost ticks).trans ?_
      rw [hv]
      rfl
    have hlike' := (Place.like_skip _ 1).trans (hlike false)
    refine .of_leads (leads_instr hat.right.head hdoes (by simp [machineOf])) (.of_like hlike' ?_)
    rw [← hstop false]
    exact hr _ _ _ _ _ _ _ ((hmatch false).skip 1) hws (hrest false) rfl

/-! ### Loops -/

/-- The place inside some loops. -/
def Place.within (p : Place) (labels : List Nat) : Place :=
  { p with act := { p.act with labels := labels } }

theorem leads_label (hat : CodeAt A p [.label]) : Leads A (machineOf (p :: ps) σ mem #[]) [mem]
    (.ok (machineOf ((p.skip 1).within (p.act.pc :: p.act.labels) :: ps) σ mem #[])) :=
  leads_instr hat (fun _ _ _ _ _ => rfl) (by simp [machineOf])

/-- A loop that is left with a status that it takes goes on in the block around it. -/
theorem Quits.taken (hq : Inner A q .loop) (h : Quits A Γ q ps m e τ) (next : Int → Machine)
    (hm : ∀ mem, Does A (fun _ => Exec.continueBehind .loop 0 e.status)
      (machineOf ps (τ.behind q.wraps) mem e.stack) (next mem))
    (hlen : ∀ mem, (next mem).frames.length ≤ ps.length) :
      ∃ loads mem, Leads A m loads (.ok (next mem)) := by
  obtain ⟨hmatch, loads, mem, q', hnear, hleads⟩ := h
  refine ⟨loads, memBehind τ q.wraps mem, hleads _ ((hq.near hnear).does_leave ?_) (hlen _)⟩
  rw [hnear.wraps]
  exact hm _

/-- The instruction at the end of the body of a loop goes on with the next iteration. -/
theorem Passes.continue {k : Level} (hat : ∀ q', q'.Like q → q'.act.pc = stop →
    CodeAt A q' [.continue])
    (h : Passes A (k :: Γ) q ps stop m τ) : Quits A Γ q ps m .continue τ := by
  obtain ⟨loads, mem, q', hlike, hpc, hmatch, hleads⟩ := h
  refine Quits.of_near hlike.toNear (Quits.of_leads hleads ?_)
  exact quits_instr (e := .continue) (fun _ => rfl) (hat q' hlike hpc) hmatch

/-- The place of a `while` inside the loop whose label is at `p`. -/
def Place.looping (p : Place) (n : Nat) : Place := (p.skip n).within (p.act.pc :: p.act.labels)

theorem Place.looping_skip (p : Place) (i n : Nat) :
    (p.looping i).skip n = p.looping (i + n) := by
  simp only [Place.looping, Place.within, Place.skip, Nat.add_assoc]

theorem Place.near_looping (p : Place) (n : Nat) : (p.looping n).Near p := ⟨rfl, rfl, rfl, rfl⟩

/-- The answer behind an iteration, given the answers of the next one. -/
def iterated (next : State → Option Result) : Option Result → Option Result
  | none => none
  | some (.error f) => some (.error f)
  | some (.ok (.normal, τ)) => next τ
  | some (.ok (.continue, τ)) => next τ
  | some (.ok (.break, τ)) => some (.ok (.normal, τ))
  | some (.ok (.return v, τ)) => some (.ok (.return v, τ))

/-- Behind the body of a loop the loop goes on with its condition or is over. -/
theorem Answers.loop {k : Level} {n i stop' : Nat} {next : State → Option Result}
    (hq : Inner A q .loop) (hat : ∀ q', q'.Like q → q'.act.pc = stop → CodeAt A q' [.continue])
    (hn : n ≤ limit)
    (hagain : ∀ τ mem, Matches A (l :: Γ) (p.looping 1 :: ps) τ.scopes →
      Answers A n l Γ p ps stop' (machineOf (p.looping 1 :: ps) τ mem #[]) (next τ))
    (hdone : ∀ τ mem, Matches A (l :: Γ) (p.skip (i + 1) :: ps) τ.scopes →
      Passes A (l :: Γ) p ps stop' (machineOf (p.skip (i + 1) :: ps) τ mem #[]) τ)
    (h : Answers A limit k (l :: Γ) q (p.looping i :: ps) stop m r) :
    Answers A n l Γ p ps stop' m (iterated next (closed q.wraps r)) := by
  -- A round ends at its last instruction or by `continue`, and the condition is evaluated again.
  have hcontinue : ∀ τ, Quits A (l :: Γ) q (p.looping i :: ps) m .continue τ →
      Answers A n l Γ p ps stop' m (next (τ.behind q.wraps)) := by
    intro τ hτ
    obtain ⟨loads, mem, hleads⟩ := hτ.taken hq
      (fun mem => machineOf (p.looping 1 :: ps) (τ.behind q.wraps) mem #[])
      (fun _ _ _ _ _ _ => rfl) (by simp [machineOf])
    exact (hagain _ mem (hτ.1.congr rfl rfl rfl)).of_leads hleads
  rcases r with _ | f | ⟨_ | _ | _ | v, τ⟩
  case none =>
    obtain ⟨loads, m', hle, hleads⟩ := h
    exact ⟨loads, m', by omega, hleads⟩
  case error => exact h
  case normal => exact hcontinue τ (Passes.continue hat h)
  case «continue» => exact hcontinue τ h
  case «break» =>
    obtain ⟨loads, mem, hleads⟩ := Quits.taken hq h
      (fun mem => machineOf (p.skip (i + 1) :: ps) (τ.behind q.wraps) mem #[])
      (fun _ _ _ _ _ _ => rfl) (by simp [machineOf])
    exact Passes.of_leads hleads (hdone _ mem (h.1.congr rfl rfl rfl))
  case «return» =>
    have hpass := Quits.pass hq (fun _ _ _ _ _ _ => rfl) h
    exact hpass.of_near (p.near_looping i)

/-- Iterations, from the condition on. -/
theorem loop_answers {c : Expr} {b : Body} (hb : b.Simulates A limit) {id : BlockId}
    {us vs : List Op} (hus : c.code (l :: Γ) = some us)
    (hcode : b.Code A (⟨id, []⟩ :: l :: Γ) vs)
    (hchild : Child A (l :: Γ) id b.types (vs ++ [.continue]))
    (hat : CodeAt A (p.looping 1) (us ++ [.while id])) (n : Nat) (hn : n ≤ limit) (σ : State)
    (h : Matches A (l :: Γ) (p.looping 1 :: ps) σ.scopes) (mem : Int) :
    Answers A n l Γ p ps (p.act.pc + (1 + us.length + 1))
      (machineOf (p.looping 1 :: ps) σ mem #[])
      (repeatWhile c.holds (inBlock b.types (b.exec limit)) n σ) := by
  -- The induction is on the iterations that the fuel allows:
  -- each is the condition, the jump and the body.
  induction n generalizing σ mem with
  | zero => exact ⟨[], _, Nat.zero_le _, Leads.refl A _⟩
  | succ n ih =>
    have hexec : repeatWhile c.holds (inBlock b.types (b.exec limit)) (n + 1) σ
        = match c.eval σ.scopes σ.heap with
          | .error f => some (.error f)
          | .ok (v, h) =>
            if v.truthy h then iterated (repeatWhile c.holds (inBlock b.types (b.exec limit)) n)
              (inBlock b.types (b.exec limit) { σ with heap := h })
            else some (.ok (.normal, { σ with heap := h })) := by
      rw [repeatWhile, Expr.holds]
      cases c.eval σ.scopes σ.heap with
      | error f => rfl
      | ok r =>
        cases hv : r.1.truthy r.2 with
        | false => simp [Except.map, hv]
        | true =>
          simp only [Except.map, hv, if_true]
          rcases inBlock b.types (b.exec limit) { σ with heap := r.2 } with
            _ | (_ | ⟨_ | _ | _ | _, τ⟩) <;> rfl
    rw [hexec]
    refine .of_eval h hus hat.left mem (k := fun v τ => if v.truthy τ.heap then
      iterated (repeatWhile c.holds (inBlock b.types (b.exec limit)) n)
        (inBlock b.types (b.exec limit) τ) else some (.ok (.normal, τ))) fun v τ hτ => ?_
    rw [← hτ] at h
    have hwhile := hat.right
    rw [p.looping_skip] at hwhile ⊢
    cases hv : v.truthy τ.heap with
    | false =>
      have hdoes : Does A (Exec.perform · (.while id))
          (machineOf (p.looping (1 + us.length) :: ps) τ mem #[v])
          (machineOf (p.skip (1 + us.length + 1) :: ps) τ mem #[]) := by
        intro c hc env cost ticks
        refine (while_apply v id env cost ticks).trans ?_
        rw [hv]
        rfl
      refine .of_leads (leads_instr hwhile hdoes (by simp [machineOf])) ?_
      have hmatch : Matches A (l :: Γ) (p.skip (1 + us.length + 1) :: ps) τ.scopes :=
        h.congr rfl rfl rfl
      exact Passes.refl hmatch (p.like_skip _)
    | true =>
      have hdoes : Does A (Exec.perform · (.while id))
          (machineOf (p.looping (1 + us.length) :: ps) τ mem #[v])
          (machineOf (⟨entered id .loop, false⟩ :: p.looping (1 + us.length) :: ps)
            (τ.enter (A.block id).vars.toList)
            (mem + enterSize τ (A.block id).vars.toList) #[]) := by
        intro c hc env cost ticks
        refine (while_apply v id env cost ticks).trans ?_
        rw [hv]
        exact enterBlock_apply hc hchild.lt rfl env cost ticks
      refine Answers.after (leads_instr hwhile hdoes (by simp [machineOf])) (Nat.le_of_eq
        (Nat.add_comm ..)) ?_
      have hmatch : Matches A (l :: Γ) (p.looping (1 + us.length) :: ps) τ.scopes :=
        h.congr rfl rfl rfl
      obtain ⟨l', ha⟩ := hb _ _ _ _ _ vs _ (hmatch.enter hchild.fresh .loop) rfl hcode
        (hchild.codeAt .loop false) hchild.vars
      -- the body runs in a block of its own, which ends with the jump back to the condition
      have hin : inBlock b.types (b.exec limit) τ
          = closed false (b.exec limit (τ.enter (A.block id).vars.toList)) := by
        rw [inBlock_eq, hchild.vars]
      rw [if_pos rfl, hin]
      refine Answers.loop (hchild.inner .loop false) ?_ (by omega) ?_ ?_ ha
      · intro q' hlike hpc
        rw [← List.append_nil (vs ++ _)] at hchild
        exact (hchild.codeAt .loop false).right.congr hlike.block hpc
      · intro τ' mem hτ'
        exact ih (by omega) τ' hτ' mem
      · intro τ' mem hτ'
        exact Passes.refl hτ' (p.like_skip _)

/-- A loop is its condition, its body and itself again. -/
theorem while_answers {c : Expr} {b : Body} (hb : b.Simulates A limit) {id : BlockId}
    {us vs : List Op} (h : Matches A (l :: Γ) (p :: ps) σ.scopes) (hus : c.code (l :: Γ) = some us)
    (hcode : b.Code A (⟨id, []⟩ :: l :: Γ) vs)
    (hchild : Child A (l :: Γ) id b.types (vs ++ [.continue]))
    (hat : CodeAt A p (.label :: (us ++ [.while id]))) (mem : Int) :
    Answers A limit l Γ p ps (p.act.pc + (.label :: (us ++ [.while id])).length)
      (machineOf (p :: ps) σ mem #[]) ((Stmt.while c b).exec limit σ) := by
  have hstop : (Op.label :: (us ++ [.while id])).length = 1 + us.length + 1 := by
    simp only [List.length_cons, List.length_append, List.length_nil]
    omega
  rw [hstop, Stmt.exec]
  refine .of_leads (leads_label hat.head) ?_
  exact loop_answers hb hus hcode hchild hat.next limit (Nat.le_refl _) σ (h.congr rfl rfl rfl) mem

/-! ### All statements -/

/-- Whether the code of a statement does what it does. -/
def Stmt.Simulates (A : Arena) (limit : Nat) (s : Stmt) : Prop :=
  ∀ (l : Level) (Γ : List Level) (p : Place) (ps : List Place) (σ : State) (ops : List Op)
    (mem : Int), Matches A (l :: Γ) (p :: ps) σ.scopes → p.wraps = false →
    s.Code A (l :: Γ) ops → CodeAt A p ops →
    s.types <+: (A.block l.id).vars.toList.drop l.names.length →
    Answers A limit { l with names := l.names ++ s.names } Γ p ps (p.act.pc + ops.length)
      (machineOf (p :: ps) σ mem #[]) (s.exec limit σ)

theorem length_types (s : Stmt) : s.types.length = s.names.length := by
  cases s with
  | declare groups => simp [Stmt.types, Stmt.names, groupTypes, groupNames, List.length_flatMap]
  | _ => rfl

/-- An answer that is no normal end does not say where the code goes on. -/
theorem Answers.of_abrupt {l' : Level} {stop' : Nat} (hr : ∀ τ, r ≠ some (.ok (.normal, τ)))
    (h : Answers A limit l Γ p ps stop m r) : Answers A limit l' Γ p ps stop' m r := by
  match r with
  | none => exact h
  | some (.error f) => exact h
  | some (.ok (.normal, τ)) => exact absurd rfl (hr τ)
  | some (.ok (.break, τ)) => exact h
  | some (.ok (.continue, τ)) => exact h
  | some (.ok (.return v, τ)) => exact h

/-- A statement and what follows it. -/
theorem body_cons_simulates {s : Stmt} {rest : Body} (hs : s.Simulates A limit)
    (hrest : rest.Simulates A limit) : (Body.cons s rest).Simulates A limit := by
  intro l Γ p ps σ ops mem h hwraps hcode hat hty
  simp only [Body.Code] at hcode
  obtain ⟨us, vs, hus, hvs, rfl⟩ := hcode
  have ha := hs l Γ p ps σ us mem h hwraps hus hat.left (by rw [hty]; exact List.prefix_append ..)
  by_cases hnormal : ∃ τ, s.exec limit σ = some (.ok (.normal, τ))
  · obtain ⟨τ, hτ⟩ := hnormal
    have hexec : (Body.cons s rest).exec limit σ = rest.exec limit τ := by simp only [Body.exec, hτ]
    rw [hτ] at ha
    obtain ⟨loads, mem', q, hlike, hpc, hmatch, hleads⟩ := ha
    have hatq : CodeAt A q vs := hat.right.congr hlike.block hpc
    have htyq : (A.block l.id).vars.toList.drop (l.names ++ s.names).length = rest.types := by
      rw [List.length_append, ← List.drop_drop, hty, Body.types, ← length_types, List.drop_left]
    obtain ⟨l', hl'⟩ := hrest _ _ q ps τ vs mem' hmatch (hlike.wraps.trans hwraps) hvs hatq htyq
    have hstop : q.act.pc + vs.length = p.act.pc + (us ++ vs).length := by
      rw [hpc, List.length_append, Nat.add_assoc]
    rw [hexec, ← hstop]
    exact ⟨l', (hl'.of_like hlike).of_leads hleads⟩
  · -- Any other answer of the first statement is that of the whole body.
    have hr : ∀ τ, s.exec limit σ ≠ some (.ok (.normal, τ)) := fun τ hτ => hnormal ⟨τ, hτ⟩
    have hsame : (Body.cons s rest).exec limit σ = s.exec limit σ := by
      unfold Body.exec
      split
      · rename_i τ hτ
        exact absurd hτ (hr τ)
      · rfl
    rw [hsame]
    exact ⟨l, ha.of_abrupt hr⟩

/-- The last branch is entered if none has been. -/
theorem else_answers {id : BlockId} (hat : CodeAt A p [.else id]) (hlast : p.act.lastCond = false)
    (hlt : id < A.size) (h : Answers A limit l Γ p ps stop
      (machineOf (⟨entered id .branch, false⟩ :: p :: ps) (σ.enter (A.block id).vars.toList)
        (mem + enterSize σ (A.block id).vars.toList) #[]) r) :
    Answers A limit l Γ p ps stop (machineOf (p :: ps) σ mem #[]) r := by
  refine .of_leads (leads_instr hat (fun c hc env cost ticks => ?_) (by simp [machineOf])) h
  refine (else_apply id env cost ticks).trans ?_
  rw [hlast]
  exact enterBlock_apply hc hlt rfl env cost ticks

variable (A limit) in
mutual

/-- Statements do what they mean. -/
theorem Stmt.simulates : ∀ s : Stmt, s.Simulates A limit
  | .declare groups, l, Γ, p, ps, σ, ops, mem, h, hwraps, hcode, hat, hty => by
    simp only [Stmt.Code] at hcode
    subst hcode
    exact declare_answers groups h hwraps hty mem
  | .assign xs es, l, Γ, p, ps, σ, ops, mem, h, hwraps, hcode, hat, hty => by
    simp only [Stmt.Code] at hcode
    obtain ⟨hlength, vs, us, hvs, hus, rfl⟩ := hcode
    simp only [Stmt.names, List.append_nil]
    exact assign_answers h hlength hvs hus hat mem
  | .return e, l, Γ, p, ps, σ, ops, mem, h, hwraps, hcode, hat, hty => by
    simp only [Stmt.Code] at hcode
    obtain ⟨us, hus, rfl⟩ := hcode
    simp only [Stmt.names, List.append_nil]
    exact return_answers h hus hat mem
  | .break, l, Γ, p, ps, σ, ops, mem, h, hwraps, hcode, hat, hty => by
    simp only [Stmt.Code] at hcode
    subst hcode
    exact quits_instr (e := .break) (fun _ => rfl) hat h
  | .continue, l, Γ, p, ps, σ, ops, mem, h, hwraps, hcode, hat, hty => by
    simp only [Stmt.Code] at hcode
    subst hcode
    exact quits_instr (e := .continue) (fun _ => rfl) hat h
  | .if c b rest, l, Γ, p, ps, σ, ops, mem, h, hwraps, hcode, hat, hty => by
    simp only [Stmt.Code] at hcode
    obtain ⟨id, us, vs, ws, hus, hb, hchild, hws, rfl⟩ := hcode
    simp only [Stmt.names, List.append_nil]
    exact if_answers b.simulates rest.simulates h hus hb hchild hws hat mem
  | .while c b, l, Γ, p, ps, σ, ops, mem, h, hwraps, hcode, hat, hty => by
    simp only [Stmt.Code] at hcode
    obtain ⟨id, us, vs, hus, hb, hchild, rfl⟩ := hcode
    simp only [Stmt.names, List.append_nil]
    exact while_answers b.simulates h hus hb hchild hat mem

/-- Branches do what they mean. -/
theorem Branches.simulates : ∀ rest : Branches, rest.Simulates A limit
  | .none, l, Γ, p, ps, σ, ops, mem, h, hcode, hat, hlast => by
    simp only [Branches.Code] at hcode
    subst hcode
    exact Passes.refl h (.refl p)
  | .else b, l, Γ, p, ps, σ, ops, mem, h, hcode, hat, hlast => by
    simp only [Branches.Code] at hcode
    obtain ⟨id, vs, hb, hchild, rfl⟩ := hcode
    refine else_answers hat hlast hchild.lt ?_
    refine b.simulates.branch hb hchild h _ fun τ mem hτ => ?_
    exact Passes.refl hτ (p.like_skip 1)
  | .elif c b rest, l, Γ, p, ps, σ, ops, mem, h, hcode, hat, hlast => by
    simp only [Branches.Code] at hcode
    obtain ⟨wrap, id, us, vs, ws, hus, hb, hchild, hws, hwrap, rfl⟩ := hcode
    refine else_answers hat hlast hwrap.lt ?_
    -- An `elif` is an `if` inside of an `else`, whose block has no variables.
    have hmatch := h.enter_wrap hwrap.fresh .branch
    have hcode : CodeAt A ⟨entered wrap .branch, true⟩ (us ++ .if id :: ws) := by
      rw [← List.append_nil (us ++ _)] at hwrap
      exact hwrap.codeAt .branch true
    have ha := if_answers b.simulates rest.simulates hmatch hus hb hchild hws hcode
      (mem + enterSize σ (A.block wrap).vars.toList)
    rw [hwrap.vars, machineOf_enter_nil]
    rw [hwrap.vars] at ha
    have hbranch := Answers.branch (hwrap.inner .branch true) ?_
      (fun τ mem hτ => Passes.refl hτ (p.like_skip 1)) ha
    · rw [closed_true] at hbranch
      exact hbranch
    · rw [← hwrap.code]
      exact Nat.le_add_left ..

theorem Body.simulates : ∀ b : Body, b.Simulates A limit
  | .nil, l, Γ, p, ps, σ, ops, mem, h, hwraps, hcode, hat, hty => by
    simp only [Body.Code] at hcode
    subst hcode
    exact ⟨l, Passes.refl h (.refl p)⟩
  | .cons s rest, l, Γ, p, ps, σ, ops, mem, h, hwraps, hcode, hat, hty =>
    body_cons_simulates s.simulates rest.simulates l Γ p ps σ ops mem h hwraps hcode hat hty

end

end

end Covenant.Structured
