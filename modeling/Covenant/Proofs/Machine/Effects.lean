import Covenant.Proofs.Machine.Calls
import Covenant.Proofs.Machine.Environment
import Covenant.Proofs.Registry.Clean

/-!
# What leaves the environment alone

Most of what the machine does changes neither the environment nor which contracts are active. `Kept`
says this of two machines, for the names of a class; `Exec.Keeps` says it of a step of a run,
whether it succeeds or not. A bind keeps what its parts keep, and plain computations keep everything
(`Plain.keeps`), so what is left are the meters and the starts and ends of blocks.

Machines are also `Clean`: what the next assignment of a block writes to is no system variable, and
the variables that a call keeps for its caller are none either.
-/

namespace Covenant

/-! ### Machines -/

/-- The contract call of a frame, whatever sections it has still to run. -/
def Frame.call? : Frame → Option ContractCall
  | .block _ => none
  | .contract k => some { k with sections := [] }

/-- Whether a frame writes to no system variables, now or when it ends. -/
def Frame.Clean : Frame → Prop
  | .block a => ∀ t ∈ a.targets, t.IsFree
  | .contract k => k.Tidy

namespace Machine

/-- The contracts that are active, innermost first. -/
def calls (m : Machine) : List ContractCall := m.frames.filterMap Frame.call?

/-- Whether all frames are clean. -/
def Clean (m : Machine) : Prop := ∀ f ∈ m.frames, f.Clean

end Machine

/-- Whether the names of a class are bound as before, and the same contracts are active. -/
structure Kept (P : String → Prop) (m m' : Machine) : Prop where
  env : ∀ key, P key → m'.env.get? key = m.env.get? key
  calls : m'.calls = m.calls
  clean : m.Clean → m'.Clean

namespace Kept

variable {P Q : String → Prop} {m m' m'' : Machine}

theorem of_eq (henv : m'.env = m.env) (hframes : m'.frames = m.frames) : Kept P m m' := by
  refine ⟨fun key _ => by rw [henv], ?_, fun h => ?_⟩
  · rw [Machine.calls, Machine.calls, hframes]
  · rw [Machine.Clean, hframes]
    exact h

theorem refl (m : Machine) : Kept P m m := of_eq rfl rfl

theorem trans (h : Kept P m m') (h' : Kept P m' m'') : Kept P m m'' :=
  ⟨fun key hkey => (h'.env key hkey).trans (h.env key hkey), h'.calls.trans h.calls,
    fun hm => h'.clean (h.clean hm)⟩

theorem mono (h : Kept P m m') (hPQ : ∀ key, Q key → P key) : Kept Q m m' :=
  ⟨fun key hkey => h.env key (hPQ key hkey), h.calls, h.clean⟩

/-- Starting a block activates no contract. -/
theorem push_block {a : Activation} (henv : m'.env = m.env) (ha : a.targets = [])
    (hframes : m'.frames = .block a :: m.frames) : Kept P m m' := by
  refine ⟨fun key _ => by rw [henv], ?_, fun h => ?_⟩
  · rw [Machine.calls, Machine.calls, hframes]
    rfl
  · rw [Machine.Clean, hframes]
    refine List.forall_mem_cons.2 ⟨?_, h⟩
    rw [Frame.Clean, ha]
    exact fun t ht => absurd ht List.not_mem_nil

/-- Ending a block ends no contract. -/
theorem pop_block {a : Activation} (henv : m'.env = m.env)
    (hframes : m.frames = .block a :: m'.frames) : Kept P m m' := by
  refine ⟨fun key _ => by rw [henv], ?_, fun h => ?_⟩
  · rw [Machine.calls, Machine.calls, hframes]
    rfl
  · rw [Machine.Clean, hframes] at h
    exact fun f hf => h f (List.mem_cons_of_mem _ hf)

end Kept

/-! ### Steps of a run -/

namespace Exec

variable {α β : Type} {P : String → Prop}

/-- Whether a step keeps the names of a class bound as they are, and activates and ends no
contract. -/
def Keeps (P : String → Prop) (x : Exec α) : Prop := ∀ m, Kept P m (left (x m))

namespace Keeps

variable {x : Exec α} {k : α → Exec β}

theorem pure (a : α) : Keeps P (pure a : Exec α) := fun m => .refl m

theorem throw (e : Stop) : Keeps P (throw e : Exec α) := fun m => .refl m

theorem fail (f : Fault) : Keeps P (Exec.fail f : Exec α) := throw _

theorem throw_bind (e : Stop) : Keeps P ((MonadExcept.throw e : Exec α) >>= k) :=
  fun m => .refl m

theorem fail_bind (f : Fault) : Keeps P ((Exec.fail f : Exec α) >>= k) := throw_bind _

theorem get : Keeps P (get : Exec Machine) := fun m => .refl m

/-- What both parts keep is kept by the two in a row. -/
theorem bind (hx : Keeps P x) (hk : ∀ a, Keeps P (k a)) : Keeps P (x >>= k) := by
  intro m
  have hm := hx m
  change Kept P m (left (EStateM.bind x k m))
  unfold EStateM.bind
  split
  · rename_i a m' h
    rw [h] at hm
    exact hm.trans (hk a m')
  · rename_i e m' h
    rw [h] at hm
    exact hm

theorem modify {f : Machine → Machine} (h : ∀ m, Kept P m (f m)) :
    Keeps P (modify f : Exec PUnit) := h

theorem modifyGet {f : Machine → α × Machine} (h : ∀ m, Kept P m (f m).2) :
    Keeps P (modifyGet f : Exec α) := h

theorem ite {c : Prop} [Decidable c] {y : Exec α} (hx : Keeps P x) (hy : Keeps P y) :
    Keeps P (if c then x else y) := by
  split
  · exact hx
  · exact hy

theorem ofExcept (r : Except Fault α) : Keeps P (ofExcept r) := by
  cases r with
  | ok a => exact pure a
  | error f => exact fail f

end Keeps

end Exec

/-! ### Plain computations -/

theorem Frame.call?_bare (f : Frame) : f.bare.call? = f.call? := by
  cases f <;> rfl

theorem Frame.clean_bare (f : Frame) : f.bare.Clean ↔ f.Clean := by
  cases f <;> rfl

namespace Machine

/-- Which contracts are active can be read off the outline. -/
theorem calls_eq (m : Machine) : m.calls = m.outline.filterMap Frame.call? := by
  rw [outline, List.filterMap_map, calls]
  exact congrArg (List.filterMap · m.frames) (funext fun f => (Frame.call?_bare f).symm)

/-- Whether a machine is clean can be read off the outline. -/
theorem clean_iff (m : Machine) : m.Clean ↔ ∀ f ∈ m.outline, f.Clean := by
  rw [outline, List.forall_mem_map, Clean]
  exact forall₂_congr fun f _ => (Frame.clean_bare f).symm

end Machine

/-- What is active decides on the contracts and on being clean. -/
theorem Kept.of_outline {P : String → Prop} {m m' : Machine} (henv : m'.env = m.env)
    (houtline : m'.outline = m.outline) : Kept P m m' := by
  refine ⟨fun key _ => by rw [henv], ?_, fun h => ?_⟩
  · rw [m.calls_eq, m'.calls_eq, houtline]
  · rw [m'.clean_iff, houtline, ← m.clean_iff]
    exact h

namespace Exec

variable {α : Type} {P : String → Prop}

theorem Blind.env {x : Exec α} (hx : Blind id x) (m : Machine) : (left (x m)).env = m.env :=
  congrArg Meter.env (hx.meter m)

theorem Plain.keeps {x : Exec α} (hx : Plain id x) : Keeps P x :=
  fun m => .of_outline (hx.blind.env m) (hx.still m)

/-! ### The meters -/

theorem keeps_charge (amount : Int) : Keeps P (charge amount) :=
  .bind .get fun _ => .ite (.throw_bind _) (.bind (.modify fun _ => .of_eq rfl rfl) fun _ =>
    .ite (.fail _) (.pure _))

theorem keeps_pay (limits : Limits) (ks : List Charge) : Keeps P (pay limits ks) := by
  induction ks with
  | nil => exact .pure _
  | cons k ks ih => exact .bind (keeps_charge _) fun _ => ih

theorem keeps_tick (c : Context) : Keeps P (tick c) := by
  refine .bind (.modify fun _ => .of_eq rfl rfl) fun _ => .bind (keeps_charge 1) fun _ => ?_
  split
  · exact .bind .get fun _ => .ite (.fail_bind _) (.bind .get fun _ => .ite (.fail _) (.pure _))
  · exact .bind .get fun _ => .ite (.fail _) (.pure _)

/-! ### Starting and ending blocks -/

/-- A change of the innermost block keeps the environment, and brings in no target that is not
free. -/
theorem keeps_modifyTop {f : Activation → Activation}
    (h : ∀ a, (∀ t ∈ a.targets, t.IsFree) → ∀ t ∈ (f a).targets, t.IsFree) :
    Keeps P (modifyTop f) := by
  refine .modify fun m => ?_
  split
  · rename_i a rest hframes
    refine ⟨fun _ _ => rfl, ?_, fun hm => ?_⟩
    · rw [Machine.calls, Machine.calls, hframes]
      rfl
    · rw [Machine.Clean, hframes] at hm
      obtain ⟨ha, hrest⟩ := List.forall_mem_cons.1 hm
      exact List.forall_mem_cons.2 ⟨h a ha, hrest⟩
  · exact .refl m

theorem keeps_enterBlock (c : Context) (id : BlockId) (given : List Value) (role : Role) :
    Keeps P (enterBlock c id given role) :=
  .ite (.throw_bind _) (.bind (plain_defaults _).keeps fun _ =>
    .modify fun _ => .push_block rfl rfl rfl)

/-- A function or a section is started in the environment that is there. -/
theorem keeps_start (c : Context) (id : BlockId) (params : List Value) (role : Role) :
    Keeps P (start c id params role) := by
  have hrest : ∀ (f : FuncInfo) (args : List Value), Keeps P (do
      let args ← ofExcept (checkParams 1 f.params args)
      enterBlock c id args role) :=
    fun f args => .bind (.ofExcept _) fun _ => keeps_enterBlock c id _ role
  refine .ite (.throw_bind _) ?_
  split
  · exact keeps_enterBlock c id params role
  · rename_i f _
    exact .ite (.bind (plain_variadicArgs f params).keeps (hrest f))
      (.ite (hrest f params) (.fail_bind _))

/-- Ending a block keeps the environment, whatever it goes on with. -/
theorem keeps_leave (c : Context) (status : Status) : Keeps P (leave c status) := by
  intro m
  rcases hframes : m.frames with _ | ⟨a | k, rest⟩
  · rw [leave_of_nil c status hframes]
    exact .refl m
  · have hpop : Kept P m (dropBlock a rest m) := .pop_block rfl hframes
    rw [leave_eq c status hframes]
    exact hpop.trans ((plain_behindBlock c a status).keeps _)
  · rw [leave_of_contract c status hframes]
    exact .refl m

/-! ### Calls -/

theorem keeps_callFunc (c : Context) (id : BlockId) (count : Option Nat) :
    Keeps P (callFunc c id count) := by
  rw [callFunc_eq]
  exact .bind (plain_callSlots c id count).keeps fun slots => .bind (keeps_pay _ _) fun _ =>
    .bind (plain_checkDepth c).keeps fun _ => keeps_enterBlock c id slots _

theorem keeps_deliver (e : Extension) (results : List Value) : Keeps P (deliver e results) := by
  unfold deliver
  split
  · exact .bind .get fun _ => .bind (.ofExcept _) fun _ => .bind (keeps_charge _) fun _ =>
      (plain_pushAll _).keeps
  · exact (plain_pushAll _).keeps

end Exec

end Covenant
