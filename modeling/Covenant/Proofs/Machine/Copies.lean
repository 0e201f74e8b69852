import Covenant.Proofs.Machine.Moves

/-!
# The same steps in another environment

A step is repeated in a copy of the machine whose environment binds the same names to the same
values, in whatever order, and of which all that is active is part of a contract call
(`Exec.Repeats`). What the copy leaves is a copy of what the machine leaves, so that whole runs can
be followed in it.

The order of the names shows in one place: a contract call keeps the variables of its caller in the
order that they have in the environment. Host functions could see it too, so they are taken not to
look at the environment at all, and to leave it alone (`Extension.IgnoresEnv`).
-/

namespace Covenant

open Covenant.Computation

/-! ### Environments with the same bindings -/

/-- Whether an environment key is one of the program's own. -/
def Name.isOwn (key : String) : Bool := !Name.isSystem key

/-- Whether two environments bind the same names to the same values, those of the program in the
same order. -/
structure SameBindings (env env' : Dict Value) : Prop where
  bound : env.get? = env'.get?
  order : env.filterKeys Name.isOwn = env'.filterKeys Name.isOwn

/-- The names that pass a test after a name has been bound. -/
theorem Dict.filterKeys_insert {α : Type} (d : Dict α) (keep : String → Bool)
    (key : String) (v : α) :
    (d.insert key v).filterKeys keep =
      if keep key then (d.filterKeys keep).insert key v else d.filterKeys keep := by
  have hself : ((fun p : String × α => keep p.1) ∘ fun p => if p.1 = key then (key, v) else p)
      = fun p => keep p.1 := by
    funext p
    by_cases hp : p.1 = key <;> simp [hp]
  by_cases hkeep : keep key = true
  · have hcontains : (d.filterKeys keep).contains key = d.contains key := by
      rw [contains_eq, contains_eq, get?_filterKeys, if_pos hkeep]
    rw [if_pos hkeep]
    refine ext_toList ?_
    rw [toList_filterKeys, toList_insert, toList_insert, hcontains, toList_filterKeys]
    split
    · rw [List.filter_map, hself]
    · simp [hkeep]
  · rw [if_neg hkeep]
    refine ext_toList ?_
    rw [toList_filterKeys, toList_insert, toList_filterKeys]
    split
    · rw [List.filter_map, hself]
      -- A key that is not kept has no entry behind the filter, so nothing is replaced.
      refine (List.map_congr_left (g := id) fun p hp => if_neg ?_).trans (List.map_id _)
      rintro rfl
      exact hkeep (List.mem_filter.1 hp).2
    · simp [hkeep]

namespace SameBindings

variable {env env' : Dict Value}

theorem refl (env : Dict Value) : SameBindings env env := ⟨rfl, rfl⟩

theorem get? (h : SameBindings env env') (key : String) : env.get? key = env'.get? key :=
  congrFun h.bound key

theorem insert (h : SameBindings env env') (key : String) (v : Value) :
    SameBindings (env.insert key v) (env'.insert key v) := by
  refine ⟨funext fun name => ?_, ?_⟩
  · rw [Dict.get?_insert, Dict.get?_insert, h.get?]
  · rw [Dict.filterKeys_insert, Dict.filterKeys_insert, h.order]

theorem insertAll (h : SameBindings env env') (pairs : List (String × Value)) :
    SameBindings (env.insertAll pairs) (env'.insertAll pairs) := by
  induction pairs generalizing env env' with
  | nil => exact h
  | cons p ps ih => exact ih (h.insert p.1 p.2)

theorem erase (h : SameBindings env env') (key : String) :
    SameBindings (env.erase key) (env'.erase key) := by
  refine ⟨funext fun name => ?_, ?_⟩
  · rw [Dict.get?_erase, Dict.get?_erase, h.get?]
  · rw [← Dict.erase_filterKeys, ← Dict.erase_filterKeys, h.order]

theorem assign (h : SameBindings env env') (key : String) (v : Option Value) :
    SameBindings (env.assign key v) (env'.assign key v) := by
  cases v with
  | none => exact h.erase key
  | some v => exact h.insert key v

/-- The system variables alone have no order that matters. -/
theorem system (h : ∀ key, Name.isSystem key = true → env.get? key = env'.get? key) :
    SameBindings (env.filterKeys Name.isSystem) (env'.filterKeys Name.isSystem) := by
  have hnone : ∀ e : Dict Value, (e.filterKeys Name.isSystem).filterKeys Name.isOwn = .empty := by
    refine fun e => Dict.ext_toList ?_
    rw [Dict.toList_filterKeys, Dict.toList_filterKeys, List.filter_filter]
    refine List.filter_eq_nil_iff.2 fun p _ => ?_
    simp [Name.isOwn]
  refine ⟨funext fun key => ?_, by rw [hnone, hnone]⟩
  rw [Dict.get?_filterKeys, Dict.get?_filterKeys]
  split
  · exact h key ‹_›
  · rfl

/-- What a contract starts with depends on the system variables of its caller only. -/
theorem contractEnv (h : ∀ key, Name.isSystem key = true → env.get? key = env'.get? key)
    (params : Dict Value) (name : String) :
    SameBindings (Exec.contractEnv env params name) (Exec.contractEnv env' params name) := by
  have hsystem := system h
  unfold Exec.contractEnv
  dsimp only
  rw [hsystem.get? "this_contract"]
  exact (((hsystem.insert _ _).insert _ _).insert _ _).insertAll _

theorem restore (h : SameBindings env env') (k : ContractCall) :
    SameBindings (k.restore env) (k.restore env') :=
  ((((system fun key _ => h.get? key).erase _).assign _ _).assign _ _).insertAll _

/-- The variables that a contract keeps for its caller. -/
theorem saved (h : SameBindings env env') : (env.toList.filter fun p => !Name.isSystem p.1)
    = env'.toList.filter fun p => !Name.isSystem p.1 := by
  have horder := congrArg Dict.toList h.order
  rwa [Dict.toList_filterKeys, Dict.toList_filterKeys] at horder

end SameBindings

/-! ### Copies -/

/-- The machine with another environment. -/
def Machine.withEnv (m : Machine) (env : Dict Value) : Machine := { m with env := env }

/-- The machine with another environment and inside of a contract call. -/
def Machine.copy (m : Machine) (env : Dict Value) (k : ContractCall) : Machine :=
  (m.withEnv env).within k

namespace Exec

variable {α β : Type}

/-- A result in another environment. -/
def inEnv (env : Dict Value) : EStateM.Result Stop Machine α → EStateM.Result Stop Machine α
  | .ok a m => .ok a (m.withEnv env)
  | .error e m => .error e (m.withEnv env)

/-- A result in another environment and inside of a contract call. -/
def copied (env : Dict Value) (k : ContractCall) (r : EStateM.Result Stop Machine α) :
    EStateM.Result Stop Machine α := inside k (inEnv env r)

/-- What sees no difference between two environments does the same in both, and leaves them
alone. -/
theorem Blind.withEnv {σ : Type} {view : Dict Value → σ} {x : Exec α} (hx : Blind view x)
    {m : Machine} {env : Dict Value} (henv : view m.env = view env) :
    (left (x m)).env = m.env ∧ x (m.withEnv env) = inEnv env (x m) := by
  have hmeter := hx.meter m
  refine ⟨congrArg Meter.env hmeter, (hx.same m ⟨env, m.cost, m.ticks⟩ henv).trans ?_⟩
  cases hr : x m with
  | ok a m' | error e m' =>
    rw [hr] at hmeter
    have hcost : m'.cost = m.cost := congrArg Meter.cost hmeter
    have hticks : m'.ticks = m.ticks := congrArg Meter.ticks hmeter
    rw [← hcost, ← hticks]
    rfl

/-- Whether a computation does in copies of a machine what it does in the machine. -/
def Repeats (x : Exec α) : Prop := ∀ m env k, SameBindings m.env env →
  ∃ env', SameBindings (left (x m)).env env' ∧ x (m.copy env k) = copied env' k (x m)

namespace Repeats

variable {x : Exec α} {f : α → Exec β}

theorem of_blind (hblind : Blind Dict.get? x) (hnested : Nested x) : Repeats x := by
  intro m env k henv
  obtain ⟨hkept, hsame⟩ := hblind.withEnv henv.bound
  refine ⟨env, hkept.symm ▸ henv, ?_⟩
  rw [Machine.copy, hnested, hsame]
  rfl

theorem of_plain (hx : Plain Dict.get? x) : Repeats x := .of_blind hx.blind hx.nested

theorem throw_bind (e : Stop) : Repeats ((MonadExcept.throw e : Exec α) >>= f) :=
  fun _ env _ henv => ⟨env, henv, rfl⟩

/-- Two parts repeat if each of them does. -/
theorem bind (hx : Repeats x) (hf : ∀ a, Repeats (f a)) : Repeats (x >>= f) := by
  intro m env k henv
  obtain ⟨env₁, henv₁, hcopy⟩ := hx m env k henv
  cases hr : x m with
  | error e m₁ =>
    rw [hr] at henv₁ hcopy
    rw [bind_of_error hr, bind_of_error hcopy]
    exact ⟨env₁, henv₁, rfl⟩
  | ok a m₁ =>
    rw [hr] at henv₁ hcopy
    rw [bind_of_ok hr, bind_of_ok hcopy]
    exact hf a m₁ env₁ k henv₁

theorem get_bind {f : Machine → Exec β} (hf : ∀ m env k, SameBindings m.env env →
    f (m.copy env k) = f m) (h : ∀ m, Repeats (f m)) : Repeats (get >>= f) := by
  intro m env k henv
  rw [get_bind_apply, get_bind_apply, hf m env k henv]
  exact h m m env k henv

theorem modify {f : Machine → Machine} (h : ∀ m env k, SameBindings m.env env →
    ∃ env', SameBindings (f m).env env' ∧ f (m.copy env k) = (f m).copy env' k) :
    Repeats (modify f : Exec PUnit) := by
  intro m env k henv
  obtain ⟨env', henv', hcopy⟩ := h m env k henv
  exact ⟨env', henv', congrArg (EStateM.Result.ok PUnit.unit) hcopy⟩

theorem ite {p : Prop} [Decidable p] {y : Exec α} (hx : Repeats x) (hy : Repeats y) :
    Repeats (if p then x else y) := by
  split
  · exact hx
  · exact hy

end Repeats

/-- Changing what is neither the environment nor active. -/
theorem repeats_modify {f : Machine → Machine} (henv : ∀ m, (f m).env = m.env)
    (h : ∀ m env k, f (m.copy env k) = (f m).copy env k) : Repeats (modify f : Exec PUnit) :=
  .modify fun m env k hsame => ⟨env, (henv m).symm ▸ hsame, h m env k⟩

/-! ### The meters -/

theorem repeats_charge (amount : Int) : Repeats (charge amount) :=
  .get_bind (fun _ _ _ _ => rfl) fun _ => .ite (.throw_bind _)
    (.bind (repeats_modify (fun _ => rfl) fun _ _ _ => rfl) fun _ =>
      .ite (.of_plain (.fail _)) (.of_plain (.pure _)))

theorem repeats_pay (limits : Limits) (ks : List Charge) : Repeats (pay limits ks) := by
  induction ks with
  | nil => exact .of_plain (.pure _)
  | cons k ks ih => exact .bind (repeats_charge _) fun _ => ih

/-- A tick looks at the registry and the meter only. -/
theorem repeats_tick (c : Context) : Repeats (tick c) := by
  refine .bind (repeats_modify (fun _ => rfl) fun _ _ _ => rfl) fun _ =>
    .bind (repeats_charge 1) fun _ => ?_
  split
  · exact .get_bind (fun _ _ _ _ => rfl) fun _ => .ite (.throw_bind _)
      (.get_bind (fun _ _ _ _ => rfl)
      fun _ => .ite (.of_plain (.fail _)) (.of_plain (.pure _)))
  · exact .get_bind (fun _ _ _ _ => rfl) fun _ => .ite (.of_plain (.fail _)) (.of_plain (.pure _))

/-! ### Starting and ending blocks -/

theorem nested_enterBlock (c : Context) (id : BlockId) (given : List Value) (role : Role) :
    Nested (enterBlock c id given role) :=
  .ite (.throw_bind _) (.bind (@plain_defaults _ Dict.get? _).nested fun _ =>
    .modify fun _ _ => rfl)

theorem repeats_enterBlock (c : Context) (id : BlockId) (given : List Value) (role : Role) :
    Repeats (enterBlock c id given role) :=
  .of_blind (blind_enterBlock c id given role) (nested_enterBlock c id given role)

/-- A function is started alike. -/
theorem repeats_start (c : Context) (id : BlockId) (params : List Value) (role : Role) :
    Repeats (start c id params role) := by
  have hrest : ∀ (f : FuncInfo) (args : List Value), Repeats (do
      let args ← ofExcept (checkParams 1 f.params args)
      enterBlock c id args role) :=
    fun f args => .bind (.of_plain (.ofExcept _)) fun _ => repeats_enterBlock c id _ role
  refine .ite (.throw_bind _) ?_
  split
  · exact repeats_enterBlock c id params role
  · rename_i f _
    exact .ite (.bind (.of_plain (plain_variadicArgs f params)) (hrest f))
      (.ite (hrest f params) (.throw_bind _))

/-- A block is left inside of a contract call as without it. -/
theorem nested_leave (c : Context) (status : Status) : Nested (leave c status) := by
  intro k m
  rcases hframes : m.frames with _ | ⟨a | k', rest⟩
  · have hwithin : (m.within k).frames = [.contract k] := congrArg (· ++ [Frame.contract k]) hframes
    rw [leave_of_nil c status hframes, leave_of_contract c status hwithin]
    rfl
  · have hwithin : (m.within k).frames = .block a :: (rest ++ [.contract k]) :=
      congrArg (· ++ [Frame.contract k]) hframes
    rw [leave_eq c status hframes, leave_eq c status hwithin]
    exact (@plain_behindBlock _ id c a status).nested k (dropBlock a rest m)
  · have hwithin : (m.within k).frames = .contract k' :: (rest ++ [.contract k]) :=
      congrArg (· ++ [Frame.contract k]) hframes
    rw [leave_of_contract c status hframes, leave_of_contract c status hwithin]
    rfl

theorem repeats_leave (c : Context) (status : Status) : Repeats (leave c status) :=
  .of_blind (blind_leave c status) (nested_leave c status)

theorem repeats_modifyTop (f : Activation → Activation) : Repeats (modifyTop f) :=
  .of_blind (.modifyTop f) (.modifyTop f)

/-! ### Calls -/

theorem repeats_callFunc (c : Context) (id : BlockId) (count : Option Nat) :
    Repeats (callFunc c id count) := by
  rw [callFunc_eq]
  exact .bind (.of_plain (plain_callSlots c id count)) fun slots => .bind (repeats_pay _ _) fun _ =>
    .bind (.of_plain (plain_checkDepth c)) fun _ => repeats_enterBlock c id slots _

theorem repeats_deliver (e : Extension) (results : List Value) : Repeats (deliver e results) := by
  unfold deliver
  split
  · exact .get_bind (fun _ _ _ _ => rfl) fun _ => .bind (.of_plain (.ofExcept _)) fun _ =>
      .bind (repeats_charge _) fun _ => .of_plain (plain_pushAll _)
  · exact .of_plain (plain_pushAll _)

/-- Where a name is bound does not matter. -/
theorem sees_get? (name : String) : Sees Dict.get? name := fun _ _ h => congrFun h name

/-- A contract is called alike, whatever the environment around it is. -/
theorem repeats_callContract (c : Context) (name names : String) (values : List Value)
    (via : Option Extension) : Repeats (callContract c name names values via) := by
  rw [callContract_eq]
  refine .bind (.of_plain (plain_contractParams c (sees_get? _))) fun p =>
    .bind (repeats_pay _ _) fun _ => .modify fun m env k henv => ?_
  refine ⟨contractEnv env p.2 name, .contractEnv (fun key _ => henv.get? key) _ _, ?_⟩
  unfold started Machine.copy Machine.within Machine.withEnv
  dsimp only
  rw [← henv.get? "this_contract", ← henv.get? "parent", ← henv.saved, List.cons_append]

end Exec

/-- Whether an extension does not look at the environment, and leaves it alone. -/
def Extension.IgnoresEnv (e : Extension) : Prop :=
  ∀ run, e.behaviour = .host run → ∀ args h env env' cost,
    (run args ⟨h, env, cost⟩).1 = (run args ⟨h, env', cost⟩).1 ∧
    (run args ⟨h, env, cost⟩).2.heap = (run args ⟨h, env', cost⟩).2.heap ∧
    (run args ⟨h, env, cost⟩).2.cost = (run args ⟨h, env', cost⟩).2.cost ∧
    (run args ⟨h, env, cost⟩).2.env = env

namespace Exec

variable {c : Context}

/-- A host function that ignores the environment repeats. -/
theorem repeats_callHost {e : Extension} (he : e.IgnoresEnv)
    {run : List Value → Host → Reply × Host} (hrun : e.behaviour = .host run) (args : List Value) :
    Repeats (callHost e run args) := by
  refine .bind (fun m env k henv => ?_) fun reply => ?_
  · obtain ⟨hreply, hheap, hcost, -⟩ := he run hrun args m.heap m.env env m.cost
    have hsame := (he run hrun args m.heap m.env m.env m.cost).2.2.2
    have hother := (he run hrun args m.heap env env m.cost).2.2.2
    refine ⟨env, ?_, ?_⟩
    · change SameBindings (run args ⟨m.heap, m.env, m.cost⟩).2.env env
      rw [hsame]
      exact henv
    · refine congrArg₂ EStateM.Result.ok hreply.symm ?_
      unfold Machine.copy Machine.within Machine.withEnv
      dsimp only
      rw [hheap, hcost, hother]
  · cases reply with
    | values vs => exact .bind (repeats_deliver e vs) fun _ => .of_plain plain_advance
    | fault f => exact .of_plain (.fail f)
    | crash => exact .of_plain .crash

theorem repeats_behave {e : Extension} (he : e.IgnoresEnv) (args : List Value) :
    Repeats (behave c e args) := by
  unfold behave
  split
  · exact repeats_callHost he ‹_› args
  · exact .get_bind (fun _ _ _ _ => rfl) fun m => repeats_callContract c _ _ _ _
  · exact .get_bind (fun _ _ _ _ => rfl) fun m => .bind (.of_plain (.ofExcept _)) fun state =>
      repeats_callContract c _ _ _ _

theorem repeats_callExtension {e : Extension} (he : e.IgnoresEnv) (count : Option Nat) :
    Repeats (callExtension c e count) := by
  rw [callExtension_eq, extensionArgs_eq]
  simp only [bind_assoc, pure_bind]
  exact .bind (.of_plain (plain_extensionParams (fun key _ => sees_get? key) count)) fun args =>
    .bind (repeats_pay _ _) fun _ => .bind (.of_plain (plain_checkDepth c)) fun _ =>
      repeats_behave he args

/-! ### Instructions -/

/-- A name is bound in a copy as in the machine. -/
theorem repeats_assignExtend (name : String) (x : Value) : Repeats (assignExtend name x) := by
  have hset : Repeats (modify fun m => { m with env := m.env.insert name x } : Exec PUnit) :=
    .modify fun m env k henv => ⟨env.insert name x, henv.insert name x, rfl⟩
  refine .get_bind (fun m env k henv => ?_) fun m => ?_
  · have hsame : (m.copy env k).env.get? name = m.env.get? name := (henv.get? name).symm
    rw [hsame]
  · split
    · exact .ite (.throw_bind _) hset
    · exact hset

theorem repeats_assignAll (ts : List Target) (xs : List Value) : Repeats (assignAll c ts xs) := by
  induction ts generalizing xs with
  | nil => exact .of_plain (.pure _)
  | cons t ts ih =>
    cases xs with
    | nil => exact .of_plain (.pure _)
    | cons x xs =>
      refine .bind ?_ fun _ => ih xs
      cases t with
      | var v => exact .of_plain (plain_assignVar c v x)
      | extend name => exact repeats_assignExtend name x

/-- A block in a copy is found below the same frames. -/
theorem frames_copy {m : Machine} {f : Frame} {rest : List Frame} (h : m.frames = f :: rest)
    (env : Dict Value) (k : ContractCall) :
    (m.copy env k).frames = f :: (rest ++ [.contract k]) :=
  congrArg (· ++ [Frame.contract k]) h

/-- What looks for the innermost block finds it in copies as well. -/
theorem Repeats.top_bind {x : Activation → Exec Unit} (h : ∀ a, Repeats (x a)) :
    Repeats (get >>= fun m : Machine => match m.frames with
      | .block a :: _ => x a
      | _ => Pure.pure ()) := by
  refine .get_bind (fun m env k henv => ?_) fun m => ?_
  · cases hframes : m.frames with
    | nil =>
      have hcopy : (m.copy env k).frames = [.contract k] :=
        congrArg (· ++ [Frame.contract k]) hframes
      rw [hcopy]
    | cons f rest =>
      rw [frames_copy hframes]
      cases f with
      | block a => rfl
      | contract k' => rfl
  · split
    · exact h _
    · exact .of_plain (.pure _)

variable (hhosts : ∀ e, c.registry.Offers e → e.IgnoresEnv)

include hhosts

/-- Every instruction of the code repeats. -/
theorem repeats_perform {id : BlockId} {i : Instr} (hi : i ∈ (c.block id).code) :
    Repeats (perform c i.op) := by
  -- The hosts that the code calls are among those that the registry offers.
  have hcode : ∀ e, i.op.extension? = some e → e.IgnoresEnv :=
    fun e he => hhosts e (.inr ⟨id, i, hi, he⟩)
  cases hop : i.op with
  | callExtend name =>
    refine .bind (.of_plain plain_popCount) fun count => ?_
    split
    · exact repeats_callExtension (hhosts _ (.inl ⟨name, ‹_›⟩)) _
    · exact .of_plain (.fail _)
  | call f =>
    cases f with
    | func id => exact repeats_callFunc c id none
    | ext e => exact repeats_callExtension (hcode e (by rw [hop]; rfl)) none
  | callVariadic f =>
    refine .bind (.of_plain plain_popCount) fun count => ?_
    cases f with
    | func id => exact repeats_callFunc c id (some count)
    | ext e => exact repeats_callExtension (hcode e (by rw [hop]; rfl)) (some count)
  | «return» | «continue» | «break» => exact repeats_leave c _
  | «if» body =>
    exact .bind (.of_plain plain_pop) fun v => .get_bind (fun _ _ _ _ => rfl) fun m =>
      .bind (repeats_modifyTop _) fun _ =>
        .ite (repeats_enterBlock c body [] .branch) (.of_plain plain_advance)
  | «else» body =>
    exact .top_bind fun a => .ite (.of_plain plain_advance) (repeats_enterBlock c body [] .branch)
  | «while» body =>
    exact .bind (.of_plain plain_pop) fun v => .get_bind (fun _ _ _ _ => rfl) fun m =>
      .ite (repeats_enterBlock c body [] .loop) (.of_plain plain_leaveLoop)
  | assignVar targets => exact repeats_modifyTop _
  | assign =>
    exact .top_bind fun a => .bind (repeats_modifyTop _) fun _ => .bind (.of_plain (plain_popN _))
      fun values => .bind (repeats_assignAll _ values) fun _ => .of_plain plain_advance
  | push | var | extendVar | label | error | funcName | unwrapArr | mapInit | arrayInit | index
  | setIndex | unary | binary =>
    exact .of_plain (plain_perform c rfl fun name _ => sees_get? name)

omit hhosts in
theorem repeats_behindContract (k : ContractCall) (result : Value) :
    Repeats (behindContract k result) := by
  unfold behindContract
  split
  · exact .of_plain (plain_push _)
  · exact .bind (repeats_deliver _ _) fun _ => .of_plain plain_advance

omit hhosts in
/-- Going on with a contract that is not the one around the copy. -/
theorem copied_resume {m : Machine} (k' : ContractCall) (rest : List Frame) {env : Dict Value}
    (henv : SameBindings m.env env) (k : ContractCall) :
    ∃ env', SameBindings (left (resume c k' rest m)).env env' ∧
      resume c k' (rest ++ [.contract k]) (m.copy env k) = copied env' k (resume c k' rest m) := by
  cases hsections : k'.sections with
  | cons s ss =>
    rw [resume_cons c _ _ hsections, resume_cons c _ _ hsections]
    exact repeats_start c s [] .section
      { m with frames := .contract { k' with sections := ss } :: rest } env k henv
  | nil =>
    have hresult : (m.copy env k).env.get? "result" = m.env.get? "result" :=
      (henv.get? "result").symm
    rw [resume_nil c _ _ hsections, resume_nil c _ _ hsections, hresult]
    exact repeats_behindContract k' _ (finished k' rest m) (k'.restore env) k (henv.restore k')

/-- **A step is repeated in a copy**, as long as something is active. -/
theorem step_copy {m : Machine} (hactive : m.frames ≠ []) {env : Dict Value}
    (henv : SameBindings m.env env) (k : ContractCall) :
    ∃ env', SameBindings (left (step c m)).env env' ∧
      step c (m.copy env k) = copied env' k (step c m) := by
  cases ahead c m with
  | done hframes _ => exact absurd hframes hactive
  | resumes k' rest hframes hstep =>
    rw [hstep, step_of_contract (frames_copy hframes env k)]
    exact copied_resume k' rest henv k
  | leaves a rest status hframes hends hstep =>
    rw [hstep, step_of_closes (frames_copy hframes env k) hends]
    exact repeats_leave c status m env k henv
  | runs a rest i hframes hending hcode hstep =>
    rw [hstep, step_of_instr (frames_copy hframes env k) hending hcode]
    exact Repeats.bind (repeats_tick c)
      (fun _ => repeats_perform hhosts (Array.mem_of_getElem? hcode)) m env k henv

end Exec

end Covenant
