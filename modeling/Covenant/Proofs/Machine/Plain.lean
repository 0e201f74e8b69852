import Covenant.Proofs.Machine.Equations
import Mathlib.Tactic.Common

/-!
# What neither reads nor moves the meters

Most of what the machine does is about operands, variables and the heap. It does not look at the
cost that is left or at the number of instructions so far, it reads at most a few names of the
environment, and it changes none of these. `Exec.Blind` says so by comparing two machines that
differ in their meters only: the same happens in both. What is seen of the environment is a
parameter, `view`, so that the same lemmas serve for runs in environments that differ in some name,
or in the order of their names.

Most of it also starts and ends no block and no contract: it is `Exec.Still`, what it leaves has the
same `outline`. And hardly anything depends on whether all of it happens inside of a contract call
that has been there before: this is `Exec.Nested`. The three together are `Exec.Plain`. All pass on
to binds, so there is one lemma for each function of the machine, and all that is said elsewhere
about the environment, the cost and the active contracts builds on these.
-/

namespace Covenant

open Covenant.Computation

/-! ### Meters and outlines -/

/-- The environment and the counters of a machine. -/
structure Meter where
  env : Dict Value
  cost : Int
  ticks : Nat

namespace Machine

/-- The meters of a machine. -/
def meter (m : Machine) : Meter := ⟨m.env, m.cost, m.ticks⟩

/-- The machine with other meters. -/
def withMeter (m : Machine) (μ : Meter) : Machine :=
  { m with env := μ.env, cost := μ.cost, ticks := μ.ticks }

@[simp] theorem withMeter_meter (m : Machine) : m.withMeter m.meter = m := rfl

@[simp] theorem meter_withMeter (m : Machine) (μ : Meter) : (m.withMeter μ).meter = μ := rfl

@[simp] theorem withMeter_withMeter (m : Machine) (μ ν : Meter) :
    (m.withMeter μ).withMeter ν = m.withMeter ν := rfl

end Machine

/-- The machine inside of a contract call, of which all that is active is a part. -/
def Machine.within (k : ContractCall) (m : Machine) : Machine :=
  { m with frames := m.frames ++ [.contract k] }

/-- A running block without its position and its variables. -/
def Activation.bare (a : Activation) : Activation :=
  { block := a.block, slots := #[], base := a.base, role := a.role, targets := a.targets }

/-- A frame without what changes while it runs. -/
def Frame.bare : Frame → Frame
  | .block a => .block a.bare
  | .contract k => .contract k

/-- What is active, without the positions and variables of the blocks. -/
def Machine.outline (m : Machine) : List Frame := m.frames.map Frame.bare

namespace Exec

variable {α β σ : Type} {view : Dict Value → σ}

/-- The machine that a step leaves, successful or not. -/
def left : EStateM.Result Stop Machine α → Machine
  | .ok _ m => m
  | .error _ m => m

/-- A result with other meters. -/
def remeter (μ : Meter) : EStateM.Result Stop Machine α → EStateM.Result Stop Machine α
  | .ok a m => .ok a (m.withMeter μ)
  | .error e m => .error e (m.withMeter μ)

@[simp] theorem left_remeter (μ : Meter) (r : EStateM.Result Stop Machine α) :
    left (remeter μ r) = (left r).withMeter μ := by
  cases r <;> rfl

/-! ### Blind computations -/

/-- Whether a computation does the same whatever the meters show. The counter for the cost, which it
does not touch, does not overflow in it. -/
structure Blind (view : Dict Value → σ) (x : Exec α) : Prop where
  same : ∀ m μ, view m.env = view μ.env → x (m.withMeter μ) = remeter μ (x m)
  counter : ∀ m m', x m ≠ .error .overflow m'

/-- Whether the value of a name is part of what is seen of the environment. -/
def Sees (view : Dict Value → σ) (name : String) : Prop :=
  ∀ ⦃env env' : Dict Value⦄, view env = view env' → env.get? name = env'.get? name

/-- All of the environment is seen through the identity. -/
theorem sees_id (name : String) : Sees id name := fun _ _ h => congrArg (Dict.get? · name) h

namespace Blind

variable {x : Exec α} {k : α → Exec β}

/-- What does not depend on the meters does not move them either. -/
theorem meter (hx : Blind view x) (m : Machine) : (left (x m)).meter = m.meter := by
  have h : x m = remeter m.meter (x m) := hx.same m m.meter rfl
  rw [h, left_remeter, Machine.meter_withMeter]

theorem pure (a : α) : Blind view (pure a : Exec α) := ⟨fun _ _ _ => rfl, fun _ _ h => by cases h⟩

theorem fail (f : Fault) : Blind view (Exec.fail f : Exec α) :=
  ⟨fun _ _ _ => rfl, fun _ _ h => by cases h⟩

theorem fail_bind (f : Fault) : Blind view ((Exec.fail f : Exec α) >>= k) :=
  ⟨fun _ _ _ => rfl, fun _ _ h => by cases h⟩

theorem crash : Blind view (throw .crash : Exec α) := ⟨fun _ _ _ => rfl, fun _ _ h => by cases h⟩

theorem crash_bind : Blind view ((throw .crash : Exec α) >>= k) :=
  ⟨fun _ _ _ => rfl, fun _ _ h => by cases h⟩

theorem get_bind {k : Machine → Exec β} (h : ∀ m, Blind view (k m))
    (hk : ∀ m μ, view m.env = view μ.env → k (m.withMeter μ) = k m) :
    Blind view (get >>= k) := by
  refine ⟨fun m μ hμ => ?_, fun m => (h m).counter m⟩
  change k (m.withMeter μ) (m.withMeter μ) = remeter μ (k m m)
  rw [hk m μ hμ]
  exact (h m).same m μ hμ

/-- Two parts are blind to what is not seen if each of them is. -/
theorem bind (hx : Blind view x) (hk : ∀ a, Blind view (k a)) : Blind view (x >>= k) := by
  constructor
  · intro m μ hμ
    have hmeter := hx.meter m
    change EStateM.bind x k (m.withMeter μ) = remeter μ (EStateM.bind x k m)
    rw [EStateM.bind, EStateM.bind, hx.same m μ hμ]
    cases hr : x m with
    | error e m' => rfl
    | ok a m' =>
      rw [hr] at hmeter
      have henv : m'.env = m.env := congrArg Meter.env hmeter
      exact (hk a).same m' μ (henv ▸ hμ)
  · intro m m' h
    cases hr : x m with
    | error e m₁ =>
      rw [bind_of_error hr] at h
      cases h
      exact hx.counter m m' hr
    | ok a m₁ =>
      rw [bind_of_ok hr] at h
      exact (hk a).counter m₁ m' h

theorem map (hx : Blind view x) (f : α → β) : Blind view (f <$> x) := by
  rw [map_eq_pure_bind]
  exact hx.bind fun a => .pure (f a)

theorem modify {f : Machine → Machine}
    (h : ∀ m μ, f (m.withMeter μ) = (f m).withMeter μ) : Blind view (modify f : Exec PUnit) := by
  refine ⟨fun m μ _ => ?_, fun _ _ h => by cases h⟩
  change EStateM.Result.ok PUnit.unit (f (m.withMeter μ)) = .ok PUnit.unit ((f m).withMeter μ)
  rw [h]

theorem modifyGet {f : Machine → α × Machine}
    (h : ∀ m μ, f (m.withMeter μ) = ((f m).1, (f m).2.withMeter μ)) :
    Blind view (modifyGet f : Exec α) := by
  refine ⟨fun m μ _ => ?_, fun _ _ h => by cases h⟩
  change EStateM.Result.ok (f (m.withMeter μ)).1 (f (m.withMeter μ)).2 = .ok (f m).1 _
  rw [h]

theorem ite {p : Prop} [Decidable p] {y : Exec α} (hx : Blind view x) (hy : Blind view y) :
    Blind view (if p then x else y) := by
  split
  · exact hx
  · exact hy

theorem modifyTop (f : Activation → Activation) : Blind view (modifyTop f) := by
  refine .modify fun m μ => ?_
  cases m with
  | mk heap env stack frames => rcases frames with _ | ⟨_ | _, _⟩ <;> rfl

end Blind

/-! ### Still computations -/

/-- Whether a computation starts and ends neither blocks nor contracts. -/
def Still (x : Exec α) : Prop := ∀ m, (left (x m)).outline = m.outline

namespace Still

variable {x : Exec α} {k : α → Exec β}

theorem throw (e : Stop) : Still (throw e : Exec α) := fun _ => rfl

/-- Two parts start and end nothing if each of them does not. -/
theorem bind (hx : Still x) (hk : ∀ a, Still (k a)) : Still (x >>= k) := by
  intro m
  have houtline := hx m
  change (left (EStateM.bind x k m)).outline = m.outline
  rw [EStateM.bind]
  cases hr : x m with
  | error e m' =>
    rw [hr] at houtline
    exact houtline
  | ok a m' =>
    rw [hr] at houtline
    exact (hk a m').trans houtline

theorem ite {p : Prop} [Decidable p] {y : Exec α} (hx : Still x) (hy : Still y) :
    Still (if p then x else y) := by
  split
  · exact hx
  · exact hy

/-- What comes behind a still computation finds the same frames active. -/
theorem bind_ok (hx : Still x) {m m' : Machine} {b : β} (h : (x >>= k) m = .ok b m') :
    ∃ a m₁, m₁.outline = m.outline ∧ x m = .ok a m₁ ∧ k a m₁ = .ok b m' := by
  obtain ⟨a, m₁, hm₁, hrest⟩ := bind_eq_ok h
  have houtline := hx m
  rw [hm₁] at houtline
  exact ⟨a, m₁, houtline, hm₁, hrest⟩

end Still

/-! ### Nested computations -/

/-- A result inside of a contract call. -/
def inside (k : ContractCall) : EStateM.Result Stop Machine α → EStateM.Result Stop Machine α
  | .ok a m => .ok a (m.within k)
  | .error e m => .error e (m.within k)

/-- Whether a computation does the same inside of a contract call. -/
def Nested (x : Exec α) : Prop := ∀ k m, x (m.within k) = inside k (x m)

namespace Nested

variable {x : Exec α} {f : α → Exec β}

theorem pure (a : α) : Nested (pure a : Exec α) := fun _ _ => rfl

theorem throw (e : Stop) : Nested (throw e : Exec α) := fun _ _ => rfl

theorem throw_bind (e : Stop) : Nested ((MonadExcept.throw e : Exec α) >>= f) := fun _ _ => rfl

theorem get_bind {f : Machine → Exec β} (hf : ∀ k m, f (m.within k) = f m)
    (h : ∀ m, Nested (f m)) : Nested (get >>= f) := by
  intro k m
  rw [get_bind_apply, get_bind_apply, hf]
  exact h m k m

/-- Two parts do the same inside of a contract call if each of them does. -/
theorem bind (hx : Nested x) (hf : ∀ a, Nested (f a)) : Nested (x >>= f) := by
  intro k m
  have hnested := hx k m
  cases hr : x m with
  | error e m' =>
    rw [hr] at hnested
    rw [bind_of_error hr, bind_of_error hnested]
    rfl
  | ok a m' =>
    rw [hr] at hnested
    rw [bind_of_ok hr, bind_of_ok hnested]
    exact hf a k m'

theorem modify {f : Machine → Machine} (h : ∀ k m, f (m.within k) = (f m).within k) :
    Nested (modify f : Exec PUnit) := fun k m => congrArg (EStateM.Result.ok PUnit.unit) (h k m)

theorem modifyGet {f : Machine → α × Machine}
    (h : ∀ k m, f (m.within k) = ((f m).1, (f m).2.within k)) : Nested (modifyGet f : Exec α) := by
  intro k m
  rw [modifyGet_apply, h]
  rfl

theorem ite {p : Prop} [Decidable p] {y : Exec α} (hx : Nested x) (hy : Nested y) :
    Nested (if p then x else y) := by
  split
  · exact hx
  · exact hy

theorem modifyTop (f : Activation → Activation) : Nested (modifyTop f) := by
  refine .modify fun k m => ?_
  cases m with
  | mk heap env stack frames => rcases frames with _ | ⟨_ | _, _⟩ <;> rfl

end Nested

/-! ### Plain computations -/

/-- Whether a computation does the same whatever the meters show and inside of a contract call, and
starts and ends nothing. -/
structure Plain (view : Dict Value → σ) (x : Exec α) : Prop where
  blind : Blind view x
  still : Still x
  nested : Nested x

theorem Still.of_plain {x : Exec α} (hx : Plain id x) : Still x := hx.still

namespace Plain

variable {x : Exec α} {k : α → Exec β}

theorem pure (a : α) : Plain view (pure a : Exec α) := ⟨.pure a, fun _ => rfl, .pure a⟩

theorem fail (f : Fault) : Plain view (Exec.fail f : Exec α) := ⟨.fail f, fun _ => rfl, .throw _⟩

theorem fail_bind (f : Fault) : Plain view ((Exec.fail f : Exec α) >>= k) :=
  ⟨.fail_bind f, fun _ => rfl, .throw_bind _⟩

theorem crash : Plain view (throw .crash : Exec α) := ⟨.crash, fun _ => rfl, .throw _⟩

theorem crash_bind : Plain view ((throw .crash : Exec α) >>= k) :=
  ⟨.crash_bind, fun _ => rfl, .throw_bind _⟩

theorem get_bind {k : Machine → Exec β}
    (hk : ∀ m μ, view m.env = view μ.env → k (m.withMeter μ) = k m)
    (hnested : ∀ c m, k (m.within c) = k m) (h : ∀ m, Plain view (k m)) : Plain view (get >>= k) :=
  ⟨.get_bind (fun m => (h m).blind) hk, fun m => (h m).still m,
    .get_bind hnested fun m => (h m).nested⟩

theorem bind (hx : Plain view x) (hk : ∀ a, Plain view (k a)) : Plain view (x >>= k) :=
  ⟨hx.blind.bind fun a => (hk a).blind, hx.still.bind fun a => (hk a).still,
    hx.nested.bind fun a => (hk a).nested⟩

theorem map (hx : Plain view x) (f : α → β) : Plain view (f <$> x) := by
  rw [map_eq_pure_bind]
  exact hx.bind fun a => .pure (f a)

theorem modify {f : Machine → Machine}
    (h : ∀ m μ, f (m.withMeter μ) = (f m).withMeter μ)
    (hnested : ∀ k m, f (m.within k) = (f m).within k) (houtline : ∀ m, (f m).outline = m.outline) :
    Plain view (modify f : Exec PUnit) := ⟨.modify h, houtline, .modify hnested⟩

theorem modifyGet {f : Machine → α × Machine}
    (h : ∀ m μ, f (m.withMeter μ) = ((f m).1, (f m).2.withMeter μ))
    (hnested : ∀ k m, f (m.within k) = ((f m).1, (f m).2.within k))
    (houtline : ∀ m, (f m).2.outline = m.outline) :
    Plain view (modifyGet f : Exec α) := ⟨.modifyGet h, houtline, .modifyGet hnested⟩

theorem ite {p : Prop} [Decidable p] {y : Exec α} (hx : Plain view x) (hy : Plain view y) :
    Plain view (if p then x else y) :=
  ⟨hx.blind.ite hy.blind, hx.still.ite hy.still, hx.nested.ite hy.nested⟩

theorem ofExcept (r : Except Fault α) : Plain view (ofExcept r) := by
  cases r with
  | ok a => exact pure a
  | error f => exact fail f

/-- A change of what is not fixed of the innermost block is plain. -/
theorem modifyTop {f : Activation → Activation}
    (h : ∀ a, (Frame.block (f a)).bare = (Frame.block a).bare) : Plain view (modifyTop f) := by
  refine ⟨.modifyTop f, fun m => ?_, .modifyTop f⟩
  unfold Exec.modifyTop
  rw [modify_apply, left]
  split
  · rename_i a rest hframes
    rw [Machine.outline, Machine.outline, hframes, List.map_cons, List.map_cons, h]
  · rfl

end Plain

/-! ### Operands and activations -/

theorem plain_push (v : Value) : Plain view (push v) :=
  .modify (fun _ _ => rfl) (fun _ _ => rfl) fun _ => rfl

theorem plain_pushAll (vs : List Value) : Plain view (pushAll vs) :=
  .modify (fun _ _ => rfl) (fun _ _ => rfl) fun _ => rfl

theorem plain_pop : Plain view pop := by
  refine .get_bind (fun _ _ _ => rfl) (fun _ _ => rfl) fun m => ?_
  split
  · exact .fail _
  · exact .bind (.modify (fun _ _ => rfl) (fun _ _ => rfl) fun _ => rfl) fun _ => .pure _

theorem plain_popN (n : Nat) : Plain view (popN n) := by
  refine .get_bind (fun _ _ _ => rfl) (fun _ _ => rfl) fun m => .ite (.fail_bind _) ?_
  exact .get_bind (fun _ _ _ => rfl) (fun _ _ => rfl) fun m =>
    .bind (.modify (fun _ _ => rfl) (fun _ _ => rfl) fun _ => rfl) fun _ => .pure _

theorem plain_truncate (height : Nat) : Plain view (truncate height) :=
  .modify (fun _ _ => rfl) (fun _ _ => rfl) fun _ => rfl

theorem plain_checkDepth (c : Context) : Plain view (checkDepth c) :=
  .get_bind (fun _ _ _ => rfl) (fun _ _ => rfl) fun _ => .ite (.fail _) (.pure _)

theorem plain_advance : Plain view advance := .modifyTop fun _ => rfl

theorem plain_defaults (tys : List Ty) : Plain view (defaults tys) :=
  .modifyGet (fun _ _ => rfl) (fun _ _ => rfl) fun _ => rfl

theorem plain_newArray (items : List Value) : Plain view (newArray items) :=
  .modifyGet (fun _ _ => rfl) (fun _ _ => rfl) fun _ => rfl

theorem plain_newMap (entries : List (String × Value)) : Plain view (newMap entries) :=
  .modifyGet (fun _ _ => rfl) (fun _ _ => rfl) fun _ => rfl

/-! ### Variables and literals -/

/-- Contract calls have no variables. -/
theorem slot?_within (v : VarRef) (fs : List Frame) (k : ContractCall) :
    Frame.slot? v (fs ++ [.contract k]) = Frame.slot? v fs := by
  fun_induction Frame.slot? v fs with
  | case1 => rfl
  | case2 a fs h => rw [List.cons_append, Frame.slot?, if_pos h]
  | case3 a fs h ih => rw [List.cons_append, Frame.slot?, if_neg h, ih]
  | case4 k' fs ih => rw [List.cons_append, Frame.slot?, ih]

theorem setSlot_within (v : VarRef) (x : Value) (fs : List Frame) (k : ContractCall) :
    Frame.setSlot v x (fs ++ [.contract k]) = Frame.setSlot v x fs ++ [.contract k] := by
  fun_induction Frame.setSlot v x fs with
  | case1 => rfl
  | case2 a fs h => rw [List.cons_append, Frame.setSlot, if_pos h, List.cons_append]
  | case3 a fs h ih => rw [List.cons_append, Frame.setSlot, if_neg h, ih, List.cons_append]
  | case4 k' fs ih => rw [List.cons_append, Frame.setSlot, ih, List.cons_append]

theorem plain_readVar (v : VarRef) : Plain view (readVar v) := by
  refine .get_bind (fun _ _ _ => rfl) (fun k m => ?_) fun m => ?_
  · have hsame : Frame.slot? v (m.within k).frames = Frame.slot? v m.frames := slot?_within v _ k
    rw [hsame]
  · split
    · exact .pure _
    · exact .fail _

/-- A name that is seen can be read. -/
theorem plain_readExtend {name : String} (hname : Sees view name) :
    Plain view (readExtend name) := by
  refine .get_bind (fun m μ hμ => ?_) (fun _ _ => rfl) fun m => ?_
  · have hsame : (m.withMeter μ).env.get? name = m.env.get? name := (hname hμ).symm
    rw [hsame]
  · split
    · exact .pure _
    · exact .fail _

theorem map_bare_setSlot (v : VarRef) (x : Value) (fs : List Frame) :
    (Frame.setSlot v x fs).map Frame.bare = fs.map Frame.bare := by
  fun_induction Frame.setSlot v x fs with
  | case1 => rfl
  | case2 => rfl
  | case3 a fs _ ih => exact congrArg (_ :: ·) ih
  | case4 k fs ih => exact congrArg (_ :: ·) ih

theorem plain_assignVar (c : Context) (v : VarRef) (x : Value) : Plain view (assignVar c v x) := by
  refine .bind (plain_readVar v) fun _ => .bind (.ofExcept _) fun y =>
    .modify (fun _ _ => rfl) (fun k m => ?_) fun m => map_bare_setSlot v y m.frames
  unfold Machine.within
  dsimp only
  rw [setSlot_within]

theorem plain_storeIndex (c : Context) (container key value : Value) :
    Plain view (storeIndex c container key value) :=
  .get_bind (fun _ _ _ => rfl) (fun _ _ => rfl) fun _ => .bind (.ofExcept _) fun _ =>
    .get_bind (fun _ _ _ => rfl) (fun _ _ => rfl) fun _ =>
      .get_bind (fun _ _ _ => rfl) (fun _ _ => rfl) fun _ =>
      .bind (.modify (fun _ _ => rfl) (fun _ _ => rfl) fun _ => rfl) fun _ =>
        .ite .crash_bind (.modify (fun _ _ => rfl) (fun _ _ => rfl) fun _ => rfl)

mutual

/-- The names of the environment that an element of a literal reads. -/
def itemReads : Item → List String
  | .const _ => []
  | .var _ => []
  | .extend name => [name]
  | .map entries => bindingsRead entries
  | .array is => itemsRead is

/-- The names of the environment that the elements of an array literal read. -/
def itemsRead : List Item → List String
  | [] => []
  | i :: is => itemReads i ++ itemsRead is

/-- The names of the environment that the bindings of a map literal read. -/
def bindingsRead : List (String × Item) → List String
  | [] => []
  | (_, i) :: is => itemReads i ++ bindingsRead is

end

mutual

/-- A literal can be evaluated if the names in it are seen. -/
theorem plain_item (i : Item) (h : ∀ name ∈ itemReads i, Sees view name) :
    Plain view (item i) := by
  cases i with
  | const k => exact .pure _
  | var v => exact plain_readVar v
  | extend name => exact plain_readExtend (h name (List.mem_singleton.2 rfl))
  | map entries => exact .bind (plain_bindings entries h) fun _ => plain_newMap _
  | array is => exact .bind (plain_items is h) fun _ => plain_newArray _

theorem plain_items (is : List Item) (h : ∀ name ∈ itemsRead is, Sees view name) :
    Plain view (items is) := by
  cases is with
  | nil => exact .pure _
  | cons i is =>
    obtain ⟨hi, his⟩ := List.forall_mem_append.1 h
    exact .bind (plain_item i hi) fun _ => .bind (plain_items is his) fun _ => .pure _

theorem plain_bindings (is : List (String × Item)) (h : ∀ name ∈ bindingsRead is, Sees view name) :
    Plain view (bindings is) := by
  cases is with
  | nil => exact .pure _
  | cons p is =>
    obtain ⟨hi, his⟩ := List.forall_mem_append.1 h
    exact .bind (plain_item p.2 hi) fun _ => .bind (plain_bindings is his) fun _ => .pure _

end

/-! ### Arguments -/

theorem plain_popCount : Plain view popCount :=
  .bind plain_pop fun _ => .get_bind (fun _ _ _ => rfl) (fun _ _ => rfl) fun _ =>
    .bind (.ofExcept _) fun _ => .pure _

theorem plain_takeArgs (count : Nat) : Plain view (takeArgs count) := by
  refine .bind (plain_popN count) fun args => .get_bind (fun _ _ _ => rfl) (fun _ _ => rfl) fun _ =>
    .bind (.modify (fun _ _ => rfl) (fun _ _ => rfl) fun _ => rfl) fun _ => ?_
  split
  · exact .get_bind (fun _ _ _ => rfl) (fun _ _ => rfl) fun _ => .pure _
  · exact .pure _

theorem plain_takeFixed (count : Nat) : Plain view (takeFixed count) :=
  .bind (.modify (fun _ _ => rfl) (fun _ _ => rfl) fun _ => rfl) fun _ => plain_popN count

theorem plain_collectTail (fixed : Nat) (args : List Value) :
    Plain view (collectTail fixed args) :=
  .bind (plain_newArray _) fun _ => .pure _

theorem plain_variadicArgs (f : FuncInfo) (args : List Value) : Plain view (variadicArgs f args) :=
  .ite (.fail_bind _) (plain_collectTail _ _)

theorem plain_fillSlots (is : List Nat) (vs slots : List Value) :
    Plain view (fillSlots is vs slots) := by
  fun_induction fillSlots is vs slots with
  | case1 i is v vs slots _ ih => exact ih
  | case2 => exact .crash
  | case3 => exact .pure _

theorem plain_bindSegment (g : Segment) (args slots : List Value) :
    Plain view (bindSegment g args slots) := by
  have hrest : ∀ args, Plain view (do
      let args ← ofExcept (checkParams 1 g.params args)
      fillSlots g.offsets args slots) :=
    fun args => .bind (.ofExcept _) fun _ => plain_fillSlots _ _ _
  exact .ite (.bind (plain_collectTail _ _) hrest) (hrest args)

/-- Segments are bound without looking at the environment. -/
theorem plain_bindSegments (named : Dict Value) (gs : List (String × Segment))
    (slots : List Value) : Plain view (bindSegments named gs slots) := by
  induction gs generalizing slots with
  | nil => exact .pure _
  | cons g gs ih =>
    unfold bindSegments
    split
    · exact .get_bind (fun _ _ _ => rfl) (fun _ _ => rfl) fun _ =>
        .bind (plain_bindSegment _ _ _) fun _ => ih _
    · exact ih _

theorem plain_popSegments (f : FuncInfo) : Plain view (popSegments f) := by
  unfold popSegments
  split
  · exact .map plain_pop _
  · exact .pure _

/-- So are the fields of a contract. -/
theorem plain_addFields (fs : List Field) (params : Dict Value) :
    Plain view (addFields fs params) := by
  induction fs generalizing params with
  | nil => exact .pure _
  | cons f fs ih =>
    refine .ite (ih params) (.ite (.fail _) (.bind (plain_defaults _) fun vs => ?_))
    split
    · exact ih _
    · exact ih _

/-! ### Ending blocks -/

theorem plain_keepResults (f : FuncInfo) (base : Nat) : Plain view (keepResults f base) :=
  .get_bind (fun _ _ _ => rfl) (fun _ _ => rfl) fun _ => .ite (.fail_bind _) (.ite
    (.get_bind (fun _ _ _ => rfl) (fun _ _ => rfl) fun _ =>
      .bind (plain_truncate base) fun _ => plain_pushAll _) (.pure _))

theorem plain_jump : Plain view (modifyTop jump) := by
  refine .modifyTop fun a => ?_
  unfold jump
  split <;> rfl

theorem plain_leaveLoop : Plain view (modifyTop leaveLoop) := .modifyTop fun _ => rfl

/-- Whether a loop goes on depends on the stack and on how the block ended. -/
theorem plain_continueBehind (role : Role) (base : Nat) (status : Status) :
    Plain view (continueBehind role base status) := by
  have hending : Plain view (modify fun m => { m with ending := some status } : Exec PUnit) :=
    .modify (fun _ _ => rfl) (fun _ _ => rfl) fun _ => rfl
  cases role with
  | entry => exact .pure _
  | «section» =>
    exact .get_bind (fun _ _ _ => rfl) (fun _ _ => rfl) fun _ =>
      .ite .crash_bind (plain_truncate base)
  | branch =>
    cases status with
    | normal => exact plain_advance
    | «return» | «continue» | «break» => exact hending
  | loop =>
    cases status with
    | «return» => exact hending
    | «break» => exact plain_leaveLoop
    | normal | «continue» => exact plain_jump
  | call => exact plain_advance

/-- What happens behind a block once its variables are gone. -/
def behindBlock (c : Context) (a : Activation) (status : Status) : Exec Unit :=
  match (c.block a.block).func? with
  | none => do
    if status ≠ .return then truncate a.base
    continueBehind a.role a.base status
  | some f => do
    if status = .return then keepResults f a.base else truncate a.base
    continueBehind a.role a.base .normal

/-- What follows a block does not depend on the environment. -/
theorem plain_behindBlock (c : Context) (a : Activation) (status : Status) :
    Plain view (behindBlock c a status) := by
  have hbehind := @plain_continueBehind _ view a.role a.base
  unfold behindBlock
  split
  · exact .ite (.bind (plain_truncate _) fun _ => hbehind _) (hbehind _)
  · exact .ite (.bind (plain_keepResults _ _) fun _ => hbehind _)
      (.bind (plain_truncate _) fun _ => hbehind _)

/-! ### Starting and ending blocks -/

theorem blind_enterBlock (c : Context) (id : BlockId) (given : List Value) (role : Role) :
    Blind view (enterBlock c id given role) :=
  .ite .crash_bind (.bind (plain_defaults _).blind fun _ => .modify fun _ _ => rfl)

/-- A block that is started becomes the innermost frame. -/
theorem outline_enterBlock {c : Context} {id : BlockId} {given : List Value} {role : Role}
    {m m' : Machine} (h : enterBlock c id given role m = .ok () m') :
    m'.outline = .block { block := id, slots := #[], base := m.stack.size, role := role } ::
      m.outline := by
  unfold enterBlock at h
  split at h
  · cases h
  · cases h
    rfl

/-- A function is started in any environment. -/
theorem blind_start (c : Context) (id : BlockId) (params : List Value) (role : Role) :
    Blind view (start c id params role) := by
  have hrest : ∀ (f : FuncInfo) (args : List Value), Blind view (do
      let args ← ofExcept (checkParams 1 f.params args)
      enterBlock c id args role) :=
    fun f args => .bind (Plain.ofExcept _).blind fun _ => blind_enterBlock c id _ role
  refine .ite .crash_bind ?_
  split
  · exact blind_enterBlock c id params role
  · rename_i f _
    exact .ite (.bind (plain_variadicArgs f params).blind (hrest f))
      (.ite (hrest f params) (.fail_bind _))

/-- Ending a block drops its variables first. -/
theorem leave_eq (c : Context) (status : Status) {m : Machine} {a : Activation} {rest : List Frame}
    (hframes : m.frames = .block a :: rest) :
    leave c status m = behindBlock c a status (dropBlock a rest m) := by
  unfold leave
  rw [get_bind_apply, hframes]
  rfl

theorem blind_leave (c : Context) (status : Status) : Blind view (leave c status) := by
  refine .get_bind (fun m => ?_) fun _ _ _ => rfl
  split
  · rename_i a rest _
    exact .bind (.modify fun _ _ => rfl) fun _ => (plain_behindBlock c a status).blind
  · exact .pure _

theorem leave_of_contract (c : Context) (status : Status) {m : Machine} {k : ContractCall}
    {rest : List Frame} (hframes : m.frames = .contract k :: rest) :
    leave c status m = .ok () m := by
  unfold leave
  rw [get_bind_apply, hframes]
  rfl

theorem leave_of_nil (c : Context) (status : Status) {m : Machine} (hframes : m.frames = []) :
    leave c status m = .ok () m := by
  unfold leave
  rw [get_bind_apply, hframes]
  rfl

/-- A block that ends was the innermost frame. -/
theorem outline_leave (c : Context) (status : Status) {m : Machine} {a : Activation}
    {rest : List Frame} (hframes : m.frames = .block a :: rest) :
    (left (leave c status m)).outline = rest.map Frame.bare := by
  rw [leave_eq c status hframes]
  exact (@plain_behindBlock _ id c a status).still _

/-! ### Instructions -/

theorem plain_raise (c : Context) (level : Level) : Plain view (raise c level) :=
  .bind plain_pop fun _ => .get_bind (fun _ _ _ => rfl) (fun _ _ => rfl) fun _ => .fail _

/-- The arguments of a segment go into the heap, not into the environment. -/
theorem plain_collectSegment (name : String) (count : Nat) :
    Plain view (collectSegment name count) := by
  refine .bind (plain_popN count) fun args => .get_bind (fun _ _ _ => rfl)
    (fun _ _ => rfl) fun m => ?_
  split
  · exact .fail _
  · exact .bind (plain_newArray _) fun _ => .bind (plain_newMap _) fun _ =>
      .modify (fun _ _ => rfl) (fun _ _ => rfl) fun _ => rfl
  · exact .bind (plain_newArray _) fun _ => .modify (fun _ _ => rfl) (fun _ _ => rfl) fun _ => rfl
  · exact .pure _

end Exec

namespace Op

/-- Whether an instruction works on operands, variables and literals only. -/
def isPlain : Op → Bool
  | push _ | var _ | extendVar _ | label | error _ | funcName _ _ | unwrapArr | mapInit _
  | arrayInit _ | index | setIndex | unary _ | binary _ => true
  | _ => false

/-- Whether an instruction is neither a call nor an assignment. -/
def isFree : Op → Bool
  | callExtend _ | call _ | callVariadic _ | assign => false
  | _ => true

/-- The names of the environment that an instruction pushes the values of. -/
def reads : Op → List String
  | extendVar name => [name]
  | mapInit entries => Exec.bindingsRead entries
  | arrayInit is => Exec.itemsRead is
  | _ => []

end Op

namespace Exec

variable {σ : Type} {view : Dict Value → σ}

/-- **Instructions on operands are plain**, if they read only what is seen of the environment. -/
theorem plain_perform (c : Context) {op : Op} (hop : op.isPlain = true)
    (hreads : ∀ name ∈ op.reads, Sees view name) : Plain view (perform c op) := by
  -- Most instructions end by pushing a value and moving on.
  have hpush : ∀ v, Plain view (do push v; advance) := fun v =>
    .bind (plain_push v) fun _ => plain_advance
  cases op with
  | push k => exact hpush _
  | var v => exact .bind (plain_readVar v) hpush
  | extendVar name =>
    exact .bind (plain_readExtend (hreads name (List.mem_singleton.2 rfl))) hpush
  | label => exact .modifyTop fun _ => rfl
  | error level => exact plain_raise c level
  | funcName segment count =>
    exact .bind (plain_collectSegment segment count) fun _ => plain_advance
  | unwrapArr =>
    exact .bind (.modify (fun _ _ => rfl) (fun _ _ => rfl) fun _ => rfl) fun _ => plain_advance
  | mapInit entries => exact .bind (plain_item (.map entries) hreads) hpush
  | arrayInit is => exact .bind (plain_item (.array is) hreads) hpush
  | index =>
    exact .bind plain_pop fun _ => .bind plain_pop fun _ =>
      .get_bind (fun _ _ _ => rfl) (fun _ _ => rfl) fun _ =>
      .bind (.ofExcept _) hpush
  | setIndex =>
    exact .bind plain_pop fun _ => .bind plain_pop fun _ => .bind plain_pop fun _ =>
      .bind (plain_storeIndex c _ _ _) fun _ => plain_advance
  | unary op =>
    exact .bind plain_pop fun _ => .get_bind (fun _ _ _ => rfl) (fun _ _ => rfl) fun _ =>
      .bind (.ofExcept _) hpush
  | binary op =>
    exact .bind plain_pop fun _ => .bind plain_pop fun _ =>
      .get_bind (fun _ _ _ => rfl) (fun _ _ => rfl) fun _ =>
      .bind (.ofExcept _) hpush
  | callExtend | call | callVariadic | «return» | «if» | «else» | «while» | «continue» | «break»
  | assign | assignVar => cases hop

/-- An instruction that is neither a call nor an assignment is blind, if it reads only what is seen
of the environment. -/
theorem blind_perform (c : Context) {op : Op} (hop : op.isFree = true)
    (hreads : ∀ name ∈ op.reads, Sees view name) : Blind view (perform c op) := by
  have henter : ∀ body role, Blind view (enterBlock c body [] role) := fun body role =>
    blind_enterBlock c body [] role
  cases op with
  | «return» | «continue» | «break» => exact blind_leave c _
  | assignVar targets => exact .modifyTop _
  | «if» body =>
    exact .bind plain_pop.blind fun _ => .get_bind (fun _ => .bind (.modifyTop _) fun _ =>
      .ite (henter body _) plain_advance.blind) fun _ _ _ => rfl
  | «else» body =>
    refine .get_bind (fun m => ?_) fun _ _ _ => rfl
    split
    · exact .ite plain_advance.blind (henter body _)
    · exact .pure _
  | «while» body =>
    exact .bind plain_pop.blind fun _ => .get_bind (fun _ =>
      .ite (henter body _) plain_leaveLoop.blind) fun _ _ _ => rfl
  | callExtend | call | callVariadic | assign => cases hop
  | push | var | extendVar | label | error | funcName | unwrapArr | mapInit | arrayInit | index
  | setIndex | unary | binary => exact (plain_perform c rfl hreads).blind

/-! ### Instructions that look at the innermost block -/

variable {c : Context} {m : Machine} {a : Activation} {rest : List Frame}

theorem perform_else (hframes : m.frames = .block a :: rest) (body : BlockId) :
    perform c (.else body) m
      = (if a.lastCond = true then advance else enterBlock c body [] .branch : Exec Unit) m := by
  unfold perform
  dsimp only
  rw [get_bind_apply, hframes]

/-- An assignment takes the targets out of the block and a value for each from the stack. -/
theorem perform_assign (hframes : m.frames = .block a :: rest) :
    perform c .assign m = (do
      modifyTop fun a => { a with targets := [] }
      let values ← popN a.targets.length
      assignAll c a.targets values
      advance : Exec Unit) m := by
  unfold perform
  dsimp only
  rw [get_bind_apply, hframes]

end Exec

end Covenant
