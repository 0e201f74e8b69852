import Covenant.Proofs.Machine.Shifts

/-!
# What stays beside operands and values

Most of what the machine does is work on operands, the heap, variables and meters. What else is seen
of a machine, such as the number of calls in progress or the positions in the code, it leaves alone.
Such a view is a parameter (`Machine.Aside`), and there is one lemma for each function of the
machine that says so (`Exec.Preserves`).
-/

namespace Covenant

open Covenant.Computation

/-- Whether what is seen of a machine is beside its operands, its values, its environment and its
meters. -/
structure Machine.Aside {σ : Type} (view : Machine → σ) : Prop where
  stack : ∀ m stack, view { m with stack := stack } = view m
  heap : ∀ m heap, view { m with heap := heap } = view m
  env : ∀ m env, view { m with env := env } = view m
  cost : ∀ m cost, view { m with cost := cost } = view m
  ticks : ∀ m ticks, view { m with ticks := ticks } = view m
  mem : ∀ m mem, view { m with mem := mem } = view m
  slots : ∀ m v x, view { m with frames := Frame.setSlot v x m.frames } = view m

/-- Whether an instruction works on operands, and goes on to the next one behind that. -/
def Op.advances : Op → Bool
  | .push _ | .var _ | .extendVar _ | .funcName _ _ | .mapInit _ | .arrayInit _ | .index | .setIndex
  | .unary _ | .binary _ => true
  | _ => false

namespace Exec

variable {α β σ : Type} {view : Machine → σ}

/-- Whether a computation leaves what is seen of the machine as it is. -/
def Preserves (view : Machine → σ) (x : Exec α) : Prop := ∀ m, view (left (x m)) = view m

namespace Preserves

variable {x : Exec α} {f : α → Exec β} {m m' : Machine}

theorem pure (a : α) : Preserves view (pure a : Exec α) := fun _ => rfl

theorem throw (e : Stop) : Preserves view (throw e : Exec α) := fun _ => rfl

theorem fail (e : Fault) : Preserves view (Exec.fail e : Exec α) := fun _ => rfl

theorem throw_bind (e : Stop) : Preserves view ((MonadExcept.throw e : Exec α) >>= f) :=
  fun _ => rfl

theorem fail_bind (e : Fault) : Preserves view ((Exec.fail e : Exec α) >>= f) := fun _ => rfl

/-- Two parts preserve what is seen if each of them does. -/
theorem bind (hx : Preserves view x) (hf : ∀ a, Preserves view (f a)) :
    Preserves view (x >>= f) := by
  intro m
  have hview := hx m
  cases hr : x m with
  | error e m' =>
    rw [hr] at hview
    rw [bind_of_error hr]
    exact hview
  | ok a m' =>
    rw [hr] at hview
    rw [bind_of_ok hr]
    exact (hf a m').trans hview

theorem get_bind {f : Machine → Exec β} (h : ∀ m, Preserves view (f m)) :
    Preserves view (get >>= f) :=
  fun m => h m m

theorem modify {g : Machine → Machine} (h : ∀ m, view (g m) = view m) :
    Preserves view (modify g : Exec PUnit) := h

theorem modifyGet {g : Machine → α × Machine} (h : ∀ m, view (g m).2 = view m) :
    Preserves view (modifyGet g : Exec α) := h

theorem ite {p : Prop} [Decidable p] {y : Exec α} (hx : Preserves view x) (hy : Preserves view y) :
    Preserves view (if p then x else y) := by
  split
  · exact hx
  · exact hy

theorem ofExcept (r : Except Fault α) : Preserves view (ofExcept r) := by
  cases r with
  | ok a => exact .pure a
  | error e => exact .fail e

/-- What is seen behind a computation that succeeds. -/
theorem of_ok (hx : Preserves view x) {a : α} (h : x m = .ok a m') : view m' = view m := by
  have hview := hx m
  rwa [h] at hview

end Preserves

section

variable (hview : Machine.Aside view)
include hview

/-! ### Operands and meters -/

theorem preserves_push (v : Value) : Preserves view (push v) := .modify fun m => hview.stack m _

theorem preserves_pushAll (vs : List Value) : Preserves view (pushAll vs) :=
  .modify fun m => hview.stack m _

theorem preserves_pop : Preserves view pop := by
  refine .get_bind fun m => ?_
  split
  · exact .fail _
  · exact .bind (.modify fun m => hview.stack m _) fun _ => .pure _

theorem preserves_popN (n : Nat) : Preserves view (popN n) :=
  .get_bind fun _ => .ite (.fail_bind _) (.get_bind fun _ =>
    .bind (.modify fun m => hview.stack m _) fun _ => .pure _)

theorem preserves_truncate (height : Nat) : Preserves view (truncate height) :=
  .modify fun m => hview.stack m _

theorem preserves_charge (n : Int) : Preserves view (charge n) :=
  .get_bind fun _ => .ite (.throw_bind _) (.bind (.modify fun m => hview.cost m _) fun _ =>
    .ite (.fail _) (.pure _))

theorem preserves_pay (limits : Limits) (ks : List Charge) : Preserves view (pay limits ks) := by
  induction ks with
  | nil => exact .pure _
  | cons k ks ih => exact .bind (preserves_charge hview _) fun _ => ih

theorem preserves_tick (c : Context) : Preserves view (tick c) := by
  refine .bind (.modify fun m => hview.ticks m _) fun _ =>
    .bind (preserves_charge hview 1) fun _ => ?_
  have hmem : Preserves view (do if c.limits.maxMem
    < (← get).mem then fail .memoryLimit : Exec Unit) :=
    .get_bind fun _ => .ite (.fail _) (.pure _)
  split
  · exact .get_bind fun _ => .ite (.fail_bind _) hmem
  · exact hmem

/-! ### Variables and literals -/

theorem preserves_defaults (tys : List Ty) : Preserves view (defaults tys) :=
  .modifyGet fun m => hview.heap m _

theorem preserves_newArray (items : List Value) : Preserves view (newArray items) :=
  .modifyGet fun m => hview.heap m _

theorem preserves_newMap (entries : List (String × Value)) : Preserves view (newMap entries) :=
  .modifyGet fun m => hview.heap m _

omit hview in
theorem preserves_readVar (v : VarRef) : Preserves view (readVar v) := by
  refine .get_bind fun m => ?_
  split
  · exact .pure _
  · exact .fail _

omit hview in
theorem preserves_readExtend (name : String) : Preserves view (readExtend name) := by
  refine .get_bind fun m => ?_
  split
  · exact .pure _
  · exact .fail _

omit hview

mutual

theorem preserves_item (hview : Machine.Aside view) (i : Item) : Preserves view (item i) := by
  cases i with
  | const k => exact .pure _
  | var v => exact preserves_readVar v
  | extend name => exact preserves_readExtend name
  | map entries => exact .bind (preserves_bindings hview entries) (preserves_newMap hview)
  | array is => exact .bind (preserves_items hview is) (preserves_newArray hview)

theorem preserves_items (hview : Machine.Aside view) (is : List Item) :
    Preserves view (items is) := by
  cases is with
  | nil => exact .pure _
  | cons i is =>
    exact .bind (preserves_item hview i) fun _ => .bind (preserves_items hview is) fun _ => .pure _

theorem preserves_bindings (hview : Machine.Aside view) (is : List (String × Item)) :
    Preserves view (bindings is) := by
  cases is with
  | nil => exact .pure _
  | cons i is =>
    exact .bind (preserves_item hview i.2) fun _ => .bind (preserves_bindings hview is)
      fun _ => .pure _

end

include hview

/-- Assignments change values only. -/
theorem preserves_assignAll (c : Context) (ts : List Target) (xs : List Value) :
    Preserves view (assignAll c ts xs) := by
  fun_induction assignAll c ts xs with
  | case1 t ts x xs ih =>
    refine .bind ?_ fun _ => ih
    cases t with
    | var v =>
      exact .bind (preserves_readVar v) fun _ => .bind (.ofExcept _) fun _ => .modify fun m =>
        (hview.mem _ _).trans (hview.slots m v _)
    | extend name =>
      have hset : Preserves view (modify fun m =>
        { m with env := m.env.insert name x } : Exec PUnit) :=
        .modify fun m => hview.env m _
      refine .get_bind fun m => ?_
      split
      · exact .ite (.fail_bind _) hset
      · exact hset
  | case2 => exact .pure _

theorem preserves_storeIndex (c : Context) (container key value : Value) :
    Preserves view (storeIndex c container key value) :=
  .get_bind fun _ => .bind (.ofExcept _) fun _ => .get_bind fun _ => .get_bind fun _ =>
    .bind (.modify fun m => hview.heap m _) fun _ => .ite (.throw_bind _)
      (.modify fun m => hview.mem m _)

theorem preserves_collectSegment (name : String) (count : Nat) :
    Preserves view (collectSegment name count) := by
  refine .bind (preserves_popN hview count) fun args => .get_bind fun m => ?_
  split
  · exact .fail _
  · exact .bind (preserves_newArray hview _) fun _ => .bind (preserves_newMap hview _) fun _ =>
      .modify fun m => hview.stack m _
  · exact .bind (preserves_newArray hview _) fun _ => .modify fun m => hview.heap m _
  · exact .pure _

theorem preserves_raise (c : Context) (level : Level) : Preserves view (raise c level) :=
  .bind (preserves_pop hview) fun _ => .get_bind fun _ => .fail _

theorem preserves_keepResults (f : FuncInfo) (base : Nat) : Preserves view (keepResults f base) :=
  .get_bind fun _ => .ite (.fail_bind _)
    (.ite (.get_bind fun _ => .bind (preserves_truncate hview base)
    fun _ => preserves_pushAll hview _) (.pure _))

/-! ### Arguments -/

theorem preserves_popCount : Preserves view popCount :=
  .bind (preserves_pop hview) fun _ => .get_bind fun _ => .bind (.ofExcept _) fun _ => .pure _

theorem preserves_collectTail (fixed : Nat) (args : List Value) :
    Preserves view (collectTail fixed args) :=
  .bind (preserves_newArray hview _) fun _ => .pure _

theorem preserves_variadicArgs (f : FuncInfo) (args : List Value) :
    Preserves view (variadicArgs f args) :=
  .ite (.fail_bind _) (preserves_collectTail hview _ _)

omit hview in
theorem preserves_fillSlots (is : List Nat) (vs slots : List Value) :
    Preserves view (fillSlots is vs slots) := by
  fun_induction fillSlots is vs slots with
  | case1 i is v vs slots _ ih => exact ih
  | case2 => exact .throw _
  | case3 => exact .pure _

theorem preserves_bindSegment (g : Segment) (args slots : List Value) :
    Preserves view (bindSegment g args slots) := by
  have hrest : ∀ args, Preserves view (do
      let args ← ofExcept (checkParams 1 g.params args)
      fillSlots g.offsets args slots) :=
    fun args => .bind (.ofExcept _) fun _ => preserves_fillSlots _ _ _
  exact .ite (.bind (preserves_collectTail hview _ _) hrest) (hrest args)

theorem preserves_bindSegments (named : Dict Value) (gs : List (String × Segment))
    (slots : List Value) :
    Preserves view (bindSegments named gs slots) := by
  induction gs generalizing slots with
  | nil => exact .pure _
  | cons g gs ih =>
    unfold bindSegments
    split
    · exact .get_bind fun _ => .bind (preserves_bindSegment hview _ _ _) fun _ => ih _
    · exact ih _

theorem preserves_popSegments (f : FuncInfo) : Preserves view (popSegments f) := by
  unfold popSegments
  split
  · rw [map_eq_pure_bind]
    exact .bind (preserves_pop hview) fun _ => .pure _
  · exact .pure _

/-- Binding arguments once they are taken. -/
theorem preserves_bindArgs (c : Context) (id : BlockId) (f : FuncInfo) (named : Option Value)
    (args : List Value) : Preserves view (do
      let args ← ofExcept (checkParams 1 f.params args)
      let slots := args ++ (← defaults ((c.block id).vars.toList.drop args.length))
      match f.segments, named with
      | some segments, some (.map r) =>
        bindSegments ((← MonadState.get).heap.entries r) segments.toList slots
      | _, _ => pure slots) := by
  refine .bind (.ofExcept _) fun args => .bind (preserves_defaults hview _) fun rest => ?_
  dsimp only
  split
  · exact .get_bind fun _ => preserves_bindSegments hview _ _ _
  · exact .pure _

omit hview in
/-- Checking the arguments of an extension once they are taken. -/
theorem preserves_checkArgs (e : Extension) (vs : List Value) : Preserves view (do
      let args ← ofExcept (checkParams 1 (e.params.take e.fixed) vs)
      let env := (← MonadState.get).env
      return e.auto.map (fun key => (env.get? key).getD .nil) ++ args) :=
  .bind (.ofExcept _) fun _ => .get_bind fun _ => .pure _

theorem preserves_addFields (fs : List Field) (params : Dict Value) :
    Preserves view (addFields fs params) := by
  induction fs generalizing params with
  | nil => exact .pure _
  | cons f fs ih =>
    refine .ite (ih params) (.ite (.fail _) (.bind (preserves_defaults hview _) fun vs => ?_))
    split
    · exact ih _
    · exact ih _

theorem preserves_contractParams (c : Context) (q : Request) :
    Preserves view (contractParams c q) := by
  unfold contractParams
  split
  · exact .fail _
  · refine .ite (.throw_bind _) ?_
    split
    · exact .fail _
    · exact .ite (.fail_bind _) (.get_bind fun _ => .ite (.fail_bind _)
        (.bind (preserves_addFields hview _ _) fun _ => .pure _))

/-- A host function changes the heap, the environment and the cost. -/
theorem preserves_host (run : List Value → Host → Reply × Host) (args : List Value) :
    Preserves view (modifyGet fun m =>
      let (reply, host) := run args ⟨m.heap, m.env, m.cost⟩
      (reply, { m with heap := host.heap, env := host.env, cost := host.cost }) : Exec Reply) :=
  .modifyGet fun m => (hview.cost _ _).trans ((hview.env _ _).trans (hview.heap m _))

/-! ### What is seen besides what is to be spread -/

section taking

variable (hspread : ∀ m spread, view { m with spread := spread } = view m)
include hspread

theorem preserves_takeArgs (count : Nat) : Preserves view (takeArgs count) := by
  refine .bind (preserves_popN hview count) fun args => .get_bind fun _ =>
    .bind (.modify fun m => hspread m _) fun _ => ?_
  split
  · exact .get_bind fun _ => .pure _
  · exact .pure _

theorem preserves_takeFixed (count : Nat) : Preserves view (takeFixed count) :=
  .bind (.modify fun m => hspread m _) fun _ => preserves_popN hview count

/-- What a function is called with is gathered from values only. -/
theorem preserves_callSlots (c : Context) (id : BlockId) (count : Option Nat) :
    Preserves view (callSlots c id count) := by
  refine .ite (.throw_bind _) ?_
  split
  · exact .fail _
  · rename_i f _
    refine .bind (preserves_popSegments hview f) fun named => ?_
    have hbind := preserves_bindArgs hview c id f named
    cases count with
    | some n =>
      exact .bind (preserves_takeArgs hview hspread n) fun args =>
        .bind (preserves_variadicArgs hview f args) hbind
    | none => exact .bind (preserves_takeFixed hview hspread _) hbind

theorem preserves_extensionParams (e : Extension) (count : Option Nat) :
    Preserves view (extensionParams e count) := by
  cases count with
  | none =>
    exact .bind (preserves_takeFixed hview hspread _) fun vs =>
      .ite (.fail_bind _) (preserves_checkArgs e vs)
  | some n =>
    exact .bind (preserves_takeArgs hview hspread n) fun vs =>
      .ite (.fail_bind _) (preserves_checkArgs e vs)

end taking

end

/-! ### Instructions -/

/-- What an instruction does before it goes on is beside what else is seen. -/
theorem perform_advances (c : Context) {op : Op} (hop : op.advances = true) :
    ∃ x : Exec Unit, perform c op = (do x; advance) ∧
      ∀ {σ : Type} {view : Machine → σ}, Machine.Aside view → Preserves view x := by
  -- most of them push what they have made of their operands
  have hpush : ∀ {y : Exec Value}, (∀ {σ : Type} {view : Machine → σ}, Machine.Aside view →
    Preserves view y) →
      perform c op = (do push (← y); advance) → ∃ x : Exec Unit, perform c op = (do x; advance) ∧
        ∀ {σ : Type} {view : Machine → σ}, Machine.Aside view → Preserves view x :=
        fun {y} hy heq =>
    ⟨do push (← y), by rw [heq, bind_assoc], fun hview => .bind (hy hview) (preserves_push hview)⟩
  cases op with
  | push k => exact hpush (y := pure k.toValue) (fun _ => .pure _) rfl
  | var v => exact hpush (fun _ => preserves_readVar v) rfl
  | extendVar name => exact hpush (fun _ => preserves_readExtend name) rfl
  | mapInit entries => exact hpush (fun hview => preserves_item hview (.map entries)) rfl
  | arrayInit is => exact hpush (fun hview => preserves_item hview (.array is)) rfl
  | funcName segment count =>
    exact ⟨_, rfl, fun hview => preserves_collectSegment hview segment count⟩
  | index =>
    refine hpush (y := do
      let key ← pop
      let container ← pop
      ofExcept ((← get).heap.index container key)) (fun hview => ?_) ?_
    · exact .bind (preserves_pop hview) fun _ => .bind (preserves_pop hview) fun _ =>
        .get_bind fun _ => .ofExcept _
    · simp only [bind_assoc]
      rfl
  | unary o =>
    refine hpush (y := do
      let a ← pop
      ofExcept (Arithmetic.unary (← get).heap o a)) (fun hview => ?_) ?_
    · exact .bind (preserves_pop hview) fun _ => .get_bind fun _ => .ofExcept _
    · simp only [bind_assoc]
      rfl
  | binary o =>
    refine hpush (y := do
      let b ← pop
      let a ← pop
      ofExcept (Arithmetic.binary (← get).heap o a b)) (fun hview => ?_) ?_
    · exact .bind (preserves_pop hview) fun _ => .bind (preserves_pop hview) fun _ =>
        .get_bind fun _ => .ofExcept _
    · simp only [bind_assoc]
      rfl
  | setIndex =>
    refine ⟨do
      let value ← pop
      let key ← pop
      let container ← pop
      storeIndex c container key value, ?_, fun hview => ?_⟩
    · simp only [bind_assoc]
      rfl
    · exact .bind (preserves_pop hview) fun _ => .bind (preserves_pop hview) fun _ =>
        .bind (preserves_pop hview) fun _ => preserves_storeIndex hview c _ _ _
  | callExtend | call | callVariadic | «return» | «if» | «else» | «while»
    | label | «continue» | «break»
  | assign | assignVar | error | unwrapArr => cases hop

end Exec

end Covenant
