import Covenant.Machine.Run
import Covenant.Proofs.Machine.Charges
import Covenant.Proofs.Renaming

/-!
# Runs under other numbers

A run looks blocks up by their numbers and compares the numbers of blocks, but does nothing else
with them. So it is the same where all blocks have other numbers and the code names them by these
(`Run.func_renames`), as long as different blocks have different numbers. `Machine.rename` gives the
frames of a machine the other numbers, and `Exec.Same` says that two computations do the same but
for them.
-/

namespace Covenant

open Covenant.Computation

/-! ### Machines and registries -/

/-- A running block that has another number. -/
def Activation.rename (ρ : BlockId → BlockId) (a : Activation) : Activation :=
  { a with block := ρ a.block, targets := a.targets.map (Target.rename ρ) }

/-- A contract call whose sections have other numbers. -/
def ContractCall.rename (ρ : BlockId → BlockId) (k : ContractCall) : ContractCall :=
  { k with sections := k.sections.map ρ }

/-- What is active, where blocks have other numbers. -/
def Frame.rename (ρ : BlockId → BlockId) : Frame → Frame
  | .block a => .block (a.rename ρ)
  | .contract k => .contract (k.rename ρ)

/-- A machine, where blocks have other numbers. -/
def Machine.rename (ρ : BlockId → BlockId) (m : Machine) : Machine :=
  { m with frames := m.frames.map (Frame.rename ρ) }

/-- Whether a registry is another one, where blocks have other numbers, as far as runs can tell. -/
structure Registry.Renames (ρ : BlockId → BlockId) (r r' : Registry) : Prop where
  injective : ∀ id id', ρ id = ρ id' → id = id'
  size : ∀ id, r'.arena.size ≤ ρ id ↔ r.arena.size ≤ id
  block : ∀ id, (r.block id).Renames ρ (r'.block (ρ id))
  objects : ∀ x, r'.objects.get? x = (r.objects.get? x).map (Binding.rename ρ)
  limits : r'.limits = r.limits
  extensionCost : r'.extensionCost = r.extensionCost
  contractPrice : r'.contractPrice = r.contractPrice

/-- Whether a context is another one, where blocks have other numbers. -/
structure Context.Renames (ρ : BlockId → BlockId) (c c' : Context) : Prop where
  registry : c.registry.Renames ρ c'.registry
  allowance : c'.allowance = c.allowance
  clock : c'.clock = c.clock

theorem Context.Renames.block {ρ : BlockId → BlockId} {c c' : Context}
    (h : c.Renames ρ c') (id : BlockId) :
    (c.block id).Renames ρ (c'.block (ρ id)) := h.registry.block id

theorem Context.Renames.limits {ρ : BlockId → BlockId} {c c' : Context} (h : c.Renames ρ c') :
    c'.limits = c.limits := h.registry.limits

namespace Frame

variable {ρ : BlockId → BlockId}

/-- A renamed variable has the value of the variable, if no two blocks get one name. -/
theorem slot?_rename (hρ : ∀ id id', ρ id = ρ id' → id = id') (v : VarRef) (fs : List Frame) :
    slot? (v.rename ρ) (fs.map (Frame.rename ρ)) = slot? v fs := by
  fun_induction slot? v fs with
  | case1 => rfl
  | case2 a fs h =>
    have howner : (ρ a.block == ρ v.owner) = true := by rw [eq_of_beq h, beq_self_eq_true]
    rw [List.map_cons]
    exact if_pos howner
  | case3 a fs h ih =>
    have howner : ¬ (ρ a.block == ρ v.owner) = true := fun heq =>
      h (beq_iff_eq.2 (hρ _ _ (eq_of_beq heq)))
    rw [List.map_cons]
    exact (if_neg howner).trans ih
  | case4 k fs ih => exact ih

/-- It is set where the variable is. -/
theorem setSlot_rename (hρ : ∀ id id', ρ id = ρ id' → id = id') (v : VarRef) (x : Value)
    (fs : List Frame) : setSlot (v.rename ρ) x (fs.map (Frame.rename ρ))
      = (setSlot v x fs).map (Frame.rename ρ) := by
  fun_induction setSlot v x fs with
  | case1 => rfl
  | case2 a fs h =>
    have howner : (ρ a.block == ρ v.owner) = true := by rw [eq_of_beq h, beq_self_eq_true]
    rw [List.map_cons]
    exact if_pos howner
  | case3 a fs h ih =>
    have howner : ¬ (ρ a.block == ρ v.owner) = true := fun heq =>
      h (beq_iff_eq.2 (hρ _ _ (eq_of_beq heq)))
    rw [List.map_cons]
    exact (if_neg howner).trans (congrArg _ ih)
  | case4 k fs ih => exact congrArg _ ih

end Frame

namespace Exec

/-- Whether a computation does the same as another one, where blocks have other numbers. -/
def Same {α : Type} (ρ : BlockId → BlockId) (x x' : Exec α) : Prop :=
  Carries (fun m m' => m' = m.rename ρ) (fun a => a) x x'

variable {α β : Type} {ρ : BlockId → BlockId}

namespace Same

variable {x x' y y' : Exec α} {k k' : α → Exec β}

theorem pure (a : α) : Same ρ (pure a) (pure a) := Carries.pure rfl

theorem throw (e : Stop) : Same ρ (throw e : Exec α) (throw e) := Carries.throw e

theorem throw_bind (e : Stop) :
    Same ρ ((MonadExcept.throw e : Exec α) >>= k) ((MonadExcept.throw e : Exec α) >>= k') :=
  Carries.throw_bind e

theorem bind (hx : Same ρ x x') (hk : ∀ a, Same ρ (k a) (k' a)) : Same ρ (x >>= k) (x' >>= k') :=
  Carries.bind hx hk

theorem ite {p p' : Prop} [Decidable p] [Decidable p'] (hp : p' ↔ p) (hx : Same ρ x x')
    (hy : Same ρ y y') : Same ρ (if p then x else y) (if p' then x' else y') :=
  Carries.ite hp hx hy

theorem get_bind {k k' : Machine → Exec β} (h : ∀ m, Same ρ (k m) (k' (m.rename ρ))) :
    Same ρ (get >>= k) (get >>= k') := Carries.get_bind fun m _ hm => hm ▸ h m

theorem modify {f f' : Machine → Machine} (h : ∀ m, f' (m.rename ρ) = (f m).rename ρ) :
    Same ρ (modify f : Exec PUnit) (modify f') := Carries.modify fun m _ hm => hm ▸ h m

theorem modifyGet {f f' : Machine → α × Machine}
    (h : ∀ m, f' (m.rename ρ) = ((f m).1, (f m).2.rename ρ)) :
    Same ρ (modifyGet f : Exec α) (modifyGet f') := by
  intro m _ hm
  subst hm
  rw [modifyGet_apply, modifyGet_apply, h]
  exact .ok _ rfl

theorem ofExcept (r : Except Fault α) : Same ρ (ofExcept r) (ofExcept r) := by
  cases r with
  | ok a => exact .pure a
  | error f => exact .throw _

theorem map (h : Same ρ x x') (f : α → β) : Same ρ (f <$> x) (f <$> x') := by
  rw [map_eq_pure_bind, map_eq_pure_bind]
  exact h.bind fun a => .pure (f a)

/-- A change that commutes with renaming does the same in both. -/
theorem modifyTop {f f' : Activation → Activation} (h : ∀ a, f' (a.rename ρ) = (f a).rename ρ) :
    Same ρ (modifyTop f) (modifyTop f') := by
  refine .modify fun m => ?_
  obtain ⟨heap, env, stack, frames, cost, mem, depth, spread, ticks, ending⟩ := m
  rcases frames with _ | ⟨a | k, rest⟩
  · rfl
  · change Machine.mk heap env stack (.block (f' (a.rename ρ))
      :: rest.map (Frame.rename ρ)) cost mem
      depth spread ticks ending = _
    rw [h]
    rfl
  · rfl

end Same

/-! ### Operands, meters and values -/

theorem same_push (v : Value) : Same ρ (push v) (push v) := .modify fun _ => rfl

theorem same_pushAll (vs : List Value) : Same ρ (pushAll vs) (pushAll vs) := .modify fun _ => rfl

theorem same_pop : Same ρ pop pop := by
  refine .get_bind fun m => ?_
  rw [show (m.rename ρ).stack = m.stack from rfl]
  cases m.stack.back? with
  | none => exact .throw _
  | some v => exact .bind (.modify fun _ => rfl) fun _ => .pure _

theorem same_popN (n : Nat) : Same ρ (popN n) (popN n) :=
  .get_bind fun _ => .ite Iff.rfl (.throw_bind _) (.get_bind fun _ =>
    .bind (.modify fun _ => rfl) fun _ => .pure _)

theorem same_truncate (height : Nat) : Same ρ (truncate height) (truncate height) :=
  .modify fun _ => rfl

theorem same_charge (n : Int) : Same ρ (charge n) (charge n) :=
  .get_bind fun _ => .ite Iff.rfl (.throw_bind _) (.bind (.modify fun _ => rfl) fun _ =>
    .ite Iff.rfl (.throw _) (.pure _))

theorem same_pay (limits : Limits) (ks : List Charge) : Same ρ (pay limits ks) (pay limits ks) := by
  induction ks with
  | nil => exact .pure _
  | cons k ks ih => exact .bind (same_charge _) fun _ => ih

theorem same_defaults (tys : List Ty) : Same ρ (defaults tys) (defaults tys) :=
  .modifyGet fun _ => rfl

theorem same_newArray (items : List Value) : Same ρ (newArray items) (newArray items) :=
  .modifyGet fun _ => rfl

theorem same_newMap (entries : List (String × Value)) : Same ρ (newMap entries) (newMap entries) :=
  .modifyGet fun _ => rfl

theorem same_advance : Same ρ advance advance := .modifyTop fun _ => rfl

theorem same_readExtend (name : String) : Same ρ (readExtend name) (readExtend name) := by
  refine .get_bind fun m => ?_
  rw [show (m.rename ρ).env = m.env from rfl]
  cases m.env.get? name with
  | none => exact .throw _
  | some v => exact .pure _

theorem same_assignExtend (name : String) (v : Value) :
    Same ρ (assignExtend name v) (assignExtend name v) := by
  have hset : Same ρ (modify fun m => { m with env := m.env.insert name v } : Exec PUnit)
      (modify fun m => { m with env := m.env.insert name v }) := .modify fun _ => rfl
  refine .get_bind fun m => ?_
  rw [show (m.rename ρ).env = m.env from rfl]
  cases m.env.get? name with
  | none => exact hset
  | some old => exact .ite Iff.rfl (.throw_bind _) hset

/-! ### Arguments -/

theorem same_popCount : Same ρ popCount popCount :=
  .bind same_pop fun _ => .get_bind fun _ => .bind (.ofExcept _) fun _ => .pure _

theorem same_takeArgs (count : Nat) : Same ρ (takeArgs count) (takeArgs count) := by
  refine .bind (same_popN count) fun args => .get_bind fun m =>
    .bind (.modify fun _ => rfl) fun _ => ?_
  rw [show (m.rename ρ).spread = m.spread from rfl]
  split
  · exact .get_bind fun _ => .pure _
  · exact .pure _

theorem same_takeFixed (count : Nat) : Same ρ (takeFixed count) (takeFixed count) :=
  .bind (.modify fun _ => rfl) fun _ => same_popN count

theorem same_collectTail (fixed : Nat) (args : List Value) :
    Same ρ (collectTail fixed args) (collectTail fixed args) :=
  .bind (same_newArray _) fun _ => .pure _

theorem same_variadicArgs (f : FuncInfo) (args : List Value) :
    Same ρ (variadicArgs f args) (variadicArgs f args) :=
  .ite Iff.rfl (.throw_bind _) (same_collectTail _ _)

theorem same_fillSlots (is : List Nat) (vs slots : List Value) :
    Same ρ (fillSlots is vs slots) (fillSlots is vs slots) := by
  fun_induction fillSlots is vs slots with
  | case1 i is v vs slots _ ih => exact ih
  | case2 => exact .throw _
  | case3 => exact .pure _

/-- Segments are bound by the places of their parameters, which are not renamed. -/
theorem same_bindSegment (g : Segment) (args slots : List Value) :
    Same ρ (bindSegment g args slots) (bindSegment g args slots) := by
  have hrest : ∀ args, Same ρ
      (do
        let args ← ofExcept (checkParams 1 g.params args)
        fillSlots g.offsets args slots)
      (do
        let args ← ofExcept (checkParams 1 g.params args)
        fillSlots g.offsets args slots) :=
    fun args => .bind (.ofExcept _) fun _ => same_fillSlots _ _ _
  exact .ite Iff.rfl (.bind (same_collectTail _ _) hrest) (hrest args)

theorem same_bindSegments (named : Dict Value) (gs : List (String × Segment)) (slots : List Value) :
    Same ρ (bindSegments named gs slots) (bindSegments named gs slots) := by
  induction gs generalizing slots with
  | nil => exact .pure _
  | cons g gs ih =>
    unfold bindSegments
    split
    · exact .get_bind fun _ => .bind (same_bindSegment _ _ _) fun _ => ih _
    · exact ih _

theorem same_popSegments (f : FuncInfo) : Same ρ (popSegments f) (popSegments f) := by
  unfold popSegments
  split
  · exact same_pop.map _
  · exact .pure _

theorem same_addFields (fs : List Field) (params : Dict Value) :
    Same ρ (addFields fs params) (addFields fs params) := by
  induction fs generalizing params with
  | nil => exact .pure _
  | cons f fs ih =>
    refine .ite Iff.rfl (ih params) (.ite Iff.rfl (.throw _) (.bind (same_defaults _) fun vs => ?_))
    cases vs with
    | nil => exact ih _
    | cons v vs => exact ih _

/-- The arguments of an extension hold no numbers of blocks. -/
theorem same_extensionParams (e : Extension) (count : Option Nat) :
    Same ρ (extensionParams e count) (extensionParams e count) := by
  have hrest : ∀ args : List Value, Same ρ
      (do
        if args.length < e.fixed then fail (.wrongParams e.name e.params.length)
        let args ← ofExcept (checkParams 1 (e.params.take e.fixed) args)
        let env := (← get).env
        return e.auto.map (fun key => (env.get? key).getD .nil) ++ args)
      (do
        if args.length < e.fixed then fail (.wrongParams e.name e.params.length)
        let args ← ofExcept (checkParams 1 (e.params.take e.fixed) args)
        let env := (← get).env
        return e.auto.map (fun key => (env.get? key).getD .nil) ++ args) :=
    fun args => .ite Iff.rfl (.throw_bind _) (.bind (.ofExcept _) fun _ =>
      .get_bind fun _ => .pure _)
  cases count with
  | none => exact .bind (same_takeFixed _) hrest
  | some n => exact .bind (same_takeArgs n) hrest

/-! ### What extensions leave -/

theorem same_deliver (e : Extension) (results : List Value) :
    Same ρ (deliver e results) (deliver e results) := by
  unfold deliver
  split
  · exact .get_bind fun _ => .bind (.ofExcept _) fun _ => .bind (same_charge _)
      fun _ => same_pushAll _
  · exact same_pushAll _

theorem same_callHost (e : Extension) (run : List Value → Host → Reply × Host) (args : List Value) :
    Same ρ (callHost e run args) (callHost e run args) := by
  refine .bind (.modifyGet fun _ => rfl) fun reply => ?_
  cases reply with
  | values vs => exact .bind (same_deliver e vs) fun _ => same_advance
  | fault f => exact .throw _
  | crash => exact .throw _

/-! ### Variables -/

theorem same_readVar (hρ : ∀ id id', ρ id = ρ id' → id = id') (v : VarRef) :
    Same ρ (readVar v) (readVar (v.rename ρ)) := by
  refine .get_bind fun m => ?_
  rw [show (m.rename ρ).frames = m.frames.map (Frame.rename ρ) from rfl, Frame.slot?_rename hρ]
  cases Frame.slot? v m.frames with
  | none => exact .throw _
  | some x => exact .pure _

mutual

/-- A literal has the same value under renamed variables. -/
theorem same_item (hρ : ∀ id id', ρ id = ρ id' → id = id') (i : Item) :
    Same ρ (item i) (item (i.rename ρ)) := by
  cases i with
  | const k => exact .pure _
  | var v => exact same_readVar hρ v
  | extend name => exact same_readExtend name
  | map entries => exact .bind (same_bindings hρ entries) fun _ => same_newMap _
  | array is => exact .bind (same_items hρ is) fun _ => same_newArray _

theorem same_items (hρ : ∀ id id', ρ id = ρ id' → id = id') (is : List Item) :
    Same ρ (items is) (items (Item.renameAll ρ is)) := by
  cases is with
  | nil => exact .pure _
  | cons i is => exact .bind (same_item hρ i) fun _ => .bind (same_items hρ is) fun _ => .pure _

theorem same_bindings (hρ : ∀ id id', ρ id = ρ id' → id = id') (is : List (String × Item)) :
    Same ρ (bindings is) (bindings (Item.renameEntries ρ is)) := by
  cases is with
  | nil => exact .pure _
  | cons p is =>
    exact .bind (same_item hρ p.2) fun _ => .bind (same_bindings hρ is) fun _ => .pure _

end

theorem same_keepResults (f : FuncInfo) (base : Nat) :
    Same ρ (keepResults f base) (keepResults f base) :=
  .get_bind fun _ => .ite Iff.rfl (.throw_bind _) (.ite Iff.rfl (.get_bind fun _ =>
    .bind (same_truncate base) fun _ => same_pushAll _) (.pure _))

theorem jump_rename (a : Activation) : jump (a.rename ρ) = (jump a).rename ρ := by
  obtain ⟨block, pc, slots, base, role, labels, lastCond, targets⟩ := a
  cases labels <;> rfl

/-- What a block returns to does not depend on numbers. -/
theorem same_continueBehind (role : Role) (base : Nat) (status : Status) :
    Same ρ (continueBehind role base status) (continueBehind role base status) := by
  have hending : Same ρ (modify fun m => { m with ending := some status } : Exec PUnit)
      (modify fun m => { m with ending := some status }) := .modify fun _ => rfl
  have hjump : Same ρ (modifyTop jump) (modifyTop jump) := .modifyTop jump_rename
  cases role with
  | entry => exact .pure _
  | «section» => exact .get_bind fun _ => .ite Iff.rfl (.throw_bind _) (same_truncate base)
  | branch =>
    cases status with
    | normal => exact same_advance
    | «return» | «continue» | «break» => exact hending
  | loop =>
    cases status with
    | «return» => exact hending
    | «break» => exact .modifyTop fun _ => rfl
    | normal | «continue» => exact hjump
  | call => exact same_advance

theorem same_collectSegment (name : String) (count : Nat) :
    Same ρ (collectSegment name count) (collectSegment name count) := by
  refine .bind (same_popN count) fun args => .get_bind fun m => ?_
  rw [show (m.rename ρ).stack = m.stack from rfl]
  rcases m.stack.back? with _ | v
  · exact .throw _
  · cases v with
    | nil =>
      exact .bind (same_newArray _) fun _ => .bind (same_newMap _) fun _ => .modify fun _ => rfl
    | map r => exact .bind (same_newArray _) fun _ => .modify fun _ => rfl
    | _ => exact .pure _

/-! ### Instructions -/

section context

variable {c c' : Context} (hc : c.Renames ρ c')

include hc

theorem same_checkDepth : Same ρ (checkDepth c) (checkDepth c') :=
  .get_bind fun _ => .ite (by rw [hc.limits]; rfl) (.throw _) (.pure _)

/-- The meter runs alike, as both registries have the same limits. -/
theorem same_tick : Same ρ (tick c) (tick c') := by
  have hmem : Same ρ (do if c.limits.maxMem < (← get).mem then fail .memoryLimit)
      (do if c'.limits.maxMem < (← get).mem then fail .memoryLimit) :=
    .get_bind fun _ => .ite (by rw [hc.limits]; rfl) (.throw _) (.pure _)
  rw [tick_eq, tick_eq]
  refine .bind (.modify fun _ => rfl) fun _ => .bind (same_charge 1) fun _ => ?_
  unfold checkLimits
  rw [hc.allowance, hc.clock]
  cases c.allowance with
  | none => exact hmem
  | some ms => exact .get_bind fun _ => .ite Iff.rfl (.throw_bind _) hmem

/-- The renamed variable is declared with the same type. -/
theorem same_assignVar (v : VarRef) (x : Value) :
    Same ρ (assignVar c v x) (assignVar c' (v.rename ρ) x) := by
  refine .bind (same_readVar hc.registry.injective v) fun old => ?_
  rw [show c'.block (v.rename ρ).owner = c'.block (ρ v.owner) from rfl, (hc.block v.owner).vars]
  refine .bind (.ofExcept _) fun y => .modify fun m => ?_
  unfold Machine.rename
  dsimp only
  rw [Frame.setSlot_rename hc.registry.injective]

theorem same_assignAll (ts : List Target) (xs : List Value) :
    Same ρ (assignAll c ts xs) (assignAll c' (ts.map (Target.rename ρ)) xs) := by
  induction ts generalizing xs with
  | nil => exact .pure _
  | cons t ts ih =>
    cases xs with
    | nil => exact .pure _
    | cons x xs =>
      refine .bind ?_ fun _ => ih xs
      cases t with
      | var v => exact same_assignVar hc v x
      | extend name => exact same_assignExtend name x

theorem same_storeIndex (container key value : Value) :
    Same ρ (storeIndex c container key value) (storeIndex c' container key value) := by
  refine .get_bind fun m => ?_
  rw [hc.limits]
  exact .bind (.ofExcept _) fun p => .get_bind fun _ => .get_bind fun _ =>
    .bind (.modify fun _ => rfl) fun _ => .ite Iff.rfl (.throw_bind _) (.modify fun _ => rfl)

theorem same_enterBlock (id : BlockId) (given : List Value) (role : Role) :
    Same ρ (enterBlock c id given role) (enterBlock c' (ρ id) given role) := by
  refine .ite (hc.registry.size id) (.throw_bind _) ?_
  rw [(hc.block id).vars]
  exact .bind (same_defaults _) fun _ => .modify fun _ => rfl

/-- A function that is called has the same header in both. -/
theorem same_callSlots (id : BlockId) (count : Option Nat) :
    Same ρ (callSlots c id count) (callSlots c' (ρ id) count) := by
  refine .ite (hc.registry.size id) (.throw_bind _) ?_
  rw [(hc.block id).func?, (hc.block id).vars]
  cases (c.block id).func? with
  | none => exact .throw _
  | some f =>
    refine .bind (same_popSegments f) fun named => ?_
    -- the arguments are taken in one of two ways, and what is done with them is the same
    cases count with
    | none =>
      refine .bind (same_takeFixed _) fun args => .bind (.ofExcept _) fun args =>
        .bind (same_defaults _) fun rest => ?_
      split
      · exact .get_bind fun _ => same_bindSegments _ _ _
      · exact .pure _
    | some n =>
      refine .bind (same_takeArgs n) fun args => .bind (same_variadicArgs f args) fun args =>
        .bind (.ofExcept _) fun args => .bind (same_defaults _) fun rest => ?_
      split
      · exact .get_bind fun _ => same_bindSegments _ _ _
      · exact .pure _

theorem same_callFunc (id : BlockId) (count : Option Nat) :
    Same ρ (callFunc c id count) (callFunc c' (ρ id) count) := by
  rw [callFunc_eq, callFunc_eq, hc.limits]
  exact .bind (same_callSlots hc id count) fun slots => .bind (same_pay _ _) fun _ =>
    .bind (same_checkDepth hc) fun _ => same_enterBlock hc id slots .call

/-- A started function is entered under its new number. -/
theorem same_start (id : BlockId) (params : List Value) (role : Role) :
    Same ρ (start c id params role) (start c' (ρ id) params role) := by
  refine .ite (hc.registry.size id) (.throw_bind _) ?_
  rw [(hc.block id).func?]
  cases (c.block id).func? with
  | none => exact same_enterBlock hc id params role
  | some f =>
    have hrest : ∀ args : List Value, Same ρ
        (do
          let args ← ofExcept (checkParams 1 f.params args)
          enterBlock c id args role)
        (do
          let args ← ofExcept (checkParams 1 f.params args)
          enterBlock c' (ρ id) args role) :=
      fun args => .bind (.ofExcept _) fun args => same_enterBlock hc id args role
    exact .ite Iff.rfl (.bind (same_variadicArgs f params) hrest)
      (.ite Iff.rfl (hrest params) (.throw_bind _))

/-! ### Contracts -/

theorem qualified?_rename (name : String) :
    c'.registry.qualified? name = (c.registry.qualified? name).map ρ := by
  unfold Registry.qualified?
  rw [hc.registry.objects]
  rcases c.registry.objects.get? name with _ | v
  · rfl
  · cases v <;> rfl

/-- Contracts are found by name, and then have the same fields. -/
theorem same_contractParams (q : Request) : Carries (fun m m' => m' = m.rename ρ)
    (Prod.map ρ fun d => d) (contractParams c q) (contractParams c' q) := by
  unfold contractParams
  rw [qualified?_rename hc]
  cases c.registry.qualified? q.name with
  | none => exact .throw _
  | some id =>
    refine .ite (hc.registry.size id) (.throw_bind _) ?_
    rw [(hc.block id).contract?]
    cases (c.block id).contract? with
    | none => exact .throw _
    | some info =>
      refine .ite Iff.rfl (.throw_bind _) (.get_bind fun m _ hm => ?_)
      subst hm
      exact .ite Iff.rfl (.throw_bind _) (.bind (same_addFields _ _) fun _ => .pure rfl)

/-- The sections of a contract are those of the renamed one. -/
theorem sectionsOf_rename (id : BlockId) :
    sectionsOf (c'.block (ρ id)) = (sectionsOf (c.block id)).map ρ := by
  unfold sectionsOf
  rw [List.map_filterMap]
  congr 1
  funext name
  rw [(hc.block id).objects]
  rcases (c.block id).objects.get? name with _ | v
  · rfl
  · cases v <;> rfl

/-- A contract is started at the first of its renamed sections. -/
theorem same_callContract (name names : String) (values : List Value) (via : Option Extension) :
    Same ρ (callContract c name names values via) (callContract c' name names values via) := by
  have hcharges : contractCharges c' name = contractCharges c name := by
    rw [contractCharges, contractCharges, hc.registry.contractPrice]
  rw [callContract_eq, callContract_eq, hc.limits, hcharges]
  refine Carries.bind (same_contractParams hc _) fun p => Same.bind (same_pay _ _)
    fun _ => .modify fun m => ?_
  unfold started Machine.rename
  dsimp only [Prod.map]
  rw [sectionsOf_rename hc]
  rfl

/-- An extension that calls a contract calls the renamed one; a host function knows no numbers. -/
theorem same_behave (e : Extension) (args : List Value) :
    Same ρ (behave c e args) (behave c' e args) := by
  unfold behave
  cases e.behaviour with
  | host run => exact same_callHost e run args
  | execContract => exact .get_bind fun _ => same_callContract hc _ _ _ _
  | callContract =>
    exact .get_bind fun _ => .bind (.ofExcept _) fun _ => same_callContract hc _ _ _ _

theorem same_callExtension (e : Extension) (count : Option Nat) :
    Same ρ (callExtension c e count) (callExtension c' e count) := by
  have hcharges : extensionCharges c' e = extensionCharges c e := by
    rw [extensionCharges, extensionCharges, hc.registry.extensionCost]
  rw [callExtension_eq, callExtension_eq, extensionArgs_eq, extensionArgs_eq, hc.limits, hcharges]
  simp only [bind_assoc, pure_bind]
  exact .bind (same_extensionParams e count) fun args => .bind (same_pay _ _) fun _ =>
    .bind (same_checkDepth hc) fun _ => same_behave hc e args

theorem same_call (f : Callee) (count : Option Nat) :
    Same ρ (call c f count) (call c' (f.rename ρ) count) := by
  cases f with
  | func id => exact same_callFunc hc id count
  | ext e => exact same_callExtension hc e count

/-! ### Steps -/

/-- A block is left for the one below it, which is renamed too. -/
theorem same_leave (status : Status) : Same ρ (leave c status) (leave c' status) := by
  refine .get_bind fun m => ?_
  rw [show (m.rename ρ).frames = m.frames.map (Frame.rename ρ) from rfl]
  rcases m.frames with _ | ⟨a | k, rest⟩
  · exact .pure _
  · refine .bind (.modify fun m => rfl) fun _ => ?_
    rw [show c'.block (a.rename ρ).block = c'.block (ρ a.block) from rfl, (hc.block a.block).func?]
    cases (c.block a.block).func? with
    | none =>
      exact .ite Iff.rfl (.bind (same_truncate _) fun _ => same_continueBehind _ _ _)
        (same_continueBehind _ _ _)
    | some f =>
      exact .ite Iff.rfl (.bind (same_keepResults f _) fun _ => same_continueBehind _ _ _)
        (.bind (same_truncate _) fun _ => same_continueBehind _ _ _)
  · exact .pure _

/-- Behind a section comes the next one of the contract. -/
theorem same_resume (k : ContractCall) (rest : List Frame) :
    Same ρ (resume c k rest) (resume c' (k.rename ρ) (rest.map (Frame.rename ρ))) := by
  obtain ⟨name, sections, this, parent, saved, via⟩ := k
  cases sections with
  | cons s ss => exact .bind (.modify fun _ => rfl) fun _ => same_start hc s [] .section
  | nil =>
    refine .get_bind fun m => .bind (.modify fun _ => rfl) fun _ => ?_
    cases via with
    | none => exact same_push _
    | some e => exact .bind (same_deliver e _) fun _ => same_advance

theorem same_raise (level : Level) : Same ρ (raise c level) (raise c' level) := by
  refine .bind same_pop fun v => .get_bind fun m => ?_
  rw [hc.limits]
  exact .throw _

/-- **Every instruction does the same under other numbers.** -/
theorem same_perform (op : Op) : Same ρ (perform c op) (perform c' (op.rename ρ)) := by
  cases op with
  | push k => exact .bind (same_push _) fun _ => same_advance
  | var v =>
    exact .bind (same_readVar hc.registry.injective v) fun _ =>
      .bind (same_push _) fun _ => same_advance
  | extendVar name =>
    exact .bind (same_readExtend name) fun _ => .bind (same_push _) fun _ => same_advance
  | callExtend name =>
    refine .bind same_popCount fun count => ?_
    -- What is bound to a name at the top is the same in both registries.
    rw [hc.registry.objects]
    rcases c.registry.objects.get? name with _ | v
    · exact .throw _
    · cases v with
      | ext e => exact same_callExtension hc e (some count)
      | _ => exact .throw _
  | call f => exact same_call hc f none
  | callVariadic f => exact .bind same_popCount fun count => same_call hc f (some count)
  | «return» => exact same_leave hc .return
  | «continue» => exact same_leave hc .continue
  | «break» => exact same_leave hc .break
  | «if» body =>
    exact .bind same_pop fun v => .get_bind fun m => .bind (.modifyTop fun _ => rfl) fun _ =>
      .ite Iff.rfl (same_enterBlock hc body [] .branch) same_advance
  | «else» body =>
    refine .get_bind fun m => ?_
    rw [show (m.rename ρ).frames = m.frames.map (Frame.rename ρ) from rfl]
    rcases m.frames with _ | ⟨a | k, rest⟩
    · exact .pure _
    · exact .ite Iff.rfl same_advance (same_enterBlock hc body [] .branch)
    · exact .pure _
  | «while» body =>
    exact .bind same_pop fun v => .get_bind fun m =>
      .ite Iff.rfl (same_enterBlock hc body [] .loop) (.modifyTop fun _ => rfl)
  | label => exact .modifyTop fun _ => rfl
  | assignVar targets => exact .modifyTop fun _ => rfl
  | assign =>
    refine .get_bind fun m => ?_
    rw [show (m.rename ρ).frames = m.frames.map (Frame.rename ρ) from rfl]
    rcases m.frames with _ | ⟨a | k, rest⟩
    · exact .pure _
    · refine .bind (.modifyTop fun _ => rfl) fun _ => ?_
      rw [show (a.rename ρ).targets.length = a.targets.length from List.length_map _]
      exact .bind (same_popN _) fun values => .bind (same_assignAll hc a.targets values)
        fun _ => same_advance
    · exact .pure _
  | error level => exact same_raise hc level
  | funcName segment count => exact .bind (same_collectSegment segment count) fun _ => same_advance
  | unwrapArr => exact .bind (.modify fun _ => rfl) fun _ => same_advance
  | mapInit entries =>
    exact .bind (same_item hc.registry.injective (.map entries)) fun _ =>
      .bind (same_push _) fun _ => same_advance
  | arrayInit is =>
    exact .bind (same_item hc.registry.injective (.array is)) fun _ =>
      .bind (same_push _) fun _ => same_advance
  | index =>
    exact .bind same_pop fun _ => .bind same_pop fun _ => .get_bind fun _ =>
      .bind (.ofExcept _) fun _ =>
      .bind (same_push _) fun _ => same_advance
  | setIndex =>
    exact .bind same_pop fun _ => .bind same_pop fun _ => .bind same_pop fun _ =>
      .bind (same_storeIndex hc _ _ _) fun _ => same_advance
  | unary op =>
    exact .bind same_pop fun _ => .get_bind fun _ => .bind (.ofExcept _) fun _ =>
      .bind (same_push _) fun _ => same_advance
  | binary op =>
    exact .bind same_pop fun _ => .bind same_pop fun _ => .get_bind fun _ =>
      .bind (.ofExcept _) fun _ =>
      .bind (same_push _) fun _ => same_advance

/-- **A step does the same under other numbers.** -/
theorem same_step : Same ρ (step c) (step c') := by
  refine .get_bind fun m => ?_
  rw [show (m.rename ρ).frames = m.frames.map (Frame.rename ρ) from rfl]
  rcases m.frames with _ | ⟨a | k, rest⟩
  · exact .pure _
  · refine .get_bind fun m => ?_
    rw [show (m.rename ρ).ending = m.ending from rfl]
    cases m.ending with
    | some status => exact same_leave hc status
    | none =>
      rw [show c'.block (a.rename ρ).block = c'.block (ρ a.block) from rfl, (hc.block a.block).code,
        Array.getElem?_map]
      rw [show (a.rename ρ).pc = a.pc from rfl]
      generalize (c.block a.block).code[a.pc]? = next
      cases next with
      | none => exact same_leave hc .normal
      | some i => exact .bind (same_tick hc) fun _ => same_perform hc i.op
  · exact same_resume hc k rest

/-- A whole run does the same in both. -/
theorem same_loop (fuel : Nat) : Same ρ (loop c fuel) (loop c' fuel) := by
  induction fuel with
  | zero =>
    refine .get_bind fun m => ?_
    rw [show (m.rename ρ).frames = m.frames.map (Frame.rename ρ) from rfl]
    cases m.frames with
    | nil => exact .pure _
    | cons => exact .throw _
  | succ fuel ih =>
    refine .get_bind fun m => ?_
    rw [show (m.rename ρ).frames = m.frames.map (Frame.rename ρ) from rfl]
    cases m.frames with
    | nil => exact .pure _
    | cons => exact .bind (same_step hc) fun _ => ih

end context

end Exec

/-! ### Runs -/

theorem Machine.giveUp_rename (ρ : BlockId → BlockId) (m : Machine) :
    (m.rename ρ).giveUp = m.giveUp.rename ρ := by
  obtain ⟨heap, env, stack, frames, cost, mem, depth, spread, ticks, ending⟩ := m
  rcases frames with _ | ⟨a | k, rest⟩ <;> rfl

namespace Registry

variable {ρ : BlockId → BlockId} {r r' : Registry} (hr : r.Renames ρ r')

include hr

/-- Renamed blocks have the names of the others in a trace. -/
theorem traceName?_rename (id : BlockId) : r'.traceName? (ρ id) = r.traceName? id := by
  have hparent : (r'.block (ρ id)).parent.bind (fun p => (r'.block p).contract?)
      = (r.block id).parent.bind fun p => (r.block p).contract? := by
    rw [(hr.block id).parent]
    cases (r.block id).parent with
    | none => rfl
    | some p => exact (hr.block p).contract?
  unfold traceName?
  rw [(hr.block id).func?, hparent]

theorem lineAt_rename (a : Activation) : r'.lineAt (a.rename ρ) = r.lineAt a := by
  unfold lineAt
  rw [show r'.block (a.rename ρ).block = r'.block (ρ a.block) from rfl, (hr.block a.block).code,
    Array.getElem?_map, Option.map_map]
  rfl

/-- An error leaves the same trace on its way out. -/
theorem unwind_rename (fs : List Frame) (line : Option Nat) (e : Error) (m : Machine) :
    r'.unwind (fs.map (Frame.rename ρ)) line e (m.rename ρ)
      = Prod.map (fun e => e) (Machine.rename ρ) (r.unwind fs line e m) := by
  induction fs generalizing line e m with
  | nil => rfl
  | cons f fs ih =>
    cases f with
    | contract k =>
      have hrest := ih line e m.giveUp
      rw [← Machine.giveUp_rename] at hrest
      exact hrest
    | block a =>
      rw [List.map_cons, Frame.rename, unwind, unwind, lineAt_rename hr,
        show r'.traceName? (a.rename ρ).block
          = r.traceName? a.block from traceName?_rename hr a.block, Machine.giveUp_rename]
      cases r.traceName? a.block with
      | none => exact ih ..
      | some name => exact ih ..

end Registry

/-- **A run is the same under other numbers.** Where all blocks have other numbers, and the code
names them by these, a function returns the same results or the same error, and leaves the same
environment and heap. -/
theorem Run.func_renames {ρ : BlockId → BlockId} {r r' : Registry}
    (hr : r.Renames ρ r') (id : BlockId) (params : List Value) (env : Dict Value) (h : Heap) :
    Run.func r' (ρ id) params env h = Run.func r id params env h := by
  have hbudget : Run.budget r' env h = Run.budget r env h := by
    rw [Run.budget, Run.budget, hr.limits]
  unfold Run.func Run.execute
  rw [hbudget]
  cases Run.budget r env h with
  | error f => rfl
  | ok cost =>
    cases Run.allowance env h with
    | error f => rfl
    | ok allowance =>
      have hc : Context.Renames ρ ⟨r, allowance, fun _ => 0⟩ ⟨r', allowance, fun _ => 0⟩ :=
        ⟨hr, rfl, rfl⟩
      have hrun := (Exec.same_start hc id params .entry).bind fun _ =>
        Exec.same_loop hc (Run.fuel cost)
      -- From machines that correspond, the two loops run alike.
      have halike : Alike (fun m m' => m' = m.rename ρ) (fun a => a)
          (EStateM.run (do
            Exec.start ⟨r, allowance, fun _ => 0⟩ id params .entry
            Exec.loop ⟨r, allowance, fun _ => 0⟩ (fuel cost))
              { heap := h, env := env, cost := cost })
          (EStateM.run (do
            Exec.start ⟨r', allowance, fun _ => 0⟩ (ρ id) params .entry
            Exec.loop ⟨r', allowance, fun _ => 0⟩ (fuel cost))
              { heap := h, env := env, cost := cost }) :=
        hrun (t := Machine.rename ρ { heap := h, env := env, cost := cost }) rfl
      dsimp only
      revert halike
      generalize EStateM.run _ _ = X
      generalize EStateM.run _ _ = X'
      intro halike
      cases halike with
      | ok a hm => subst hm; rfl
      | @error e m₁ _ hm =>
        subst hm
        cases e with
        | fault f =>
          have hunwind := Registry.unwind_rename hr m₁.frames none (.of f) m₁
          dsimp only [Machine.rename]
          dsimp only [Machine.rename] at hunwind
          rw [hunwind]
          rfl
        | crash => rfl
        | overflow => rfl

end Covenant
