import Covenant.Proofs.Machine.SystemVariables
import Mathlib.Data.List.Perm.Subperm

/-!
# No contract is entered twice

A contract that is called leaves a marker in the environment, and is refused while its marker is
bound. What holds this together is an invariant (`Machine.Guarded`): the marker of every active
contract is bound, no two active contracts have the same name, and each is a contract of the
registry.

Programs can put markers into the environment, as names of fields, but there is no way for them to
remove one: assignments and the start of a contract only bind names, and the end of a contract drops
no system variable but its own marker and the two names that it puts back. So the invariant needs
nothing of the code, and of host functions only that they do not unbind names.

`Launch.active_contracts_distinct` is the result for runs.
-/

namespace Covenant

open Covenant.Computation

/-- Whether a host function leaves every name bound that was bound before. -/
def Extension.KeepsKeys (e : Extension) : Prop :=
  ∀ run, e.behaviour = .host run → ∀ args host key, host.env.contains key = true →
    (run args host).2.env.contains key = true

/-- The qualified names of the contracts of a registry. -/
def Registry.contractNames (r : Registry) : List String :=
  r.objects.toList.filterMap fun
    | (name, .contract _) => some name
    | _ => none

theorem Registry.mem_contractNames {r : Registry} {name : String} {id : BlockId}
    (h : r.qualified? name = some id) : name ∈ r.contractNames := by
  unfold qualified? at h
  split at h
  · rename_i id' hget
    exact List.mem_filterMap.2 ⟨(name, .contract id'), Dict.get?_eq_some_iff.1 hget, rfl⟩
  · cases h

theorem Dict.contains_insert {α : Type} {d : Dict α} {key : String} (h : d.contains key = true)
    (name : String) (v : α) : (d.insert name v).contains key = true := by
  rw [contains_eq] at h ⊢
  rw [get?_insert]
  split
  · rfl
  · exact h

theorem Dict.contains_insertAll {α : Type} {d : Dict α} {key : String} (h : d.contains key = true)
    (pairs : List (String × α)) : (d.insertAll pairs).contains key = true := by
  induction pairs generalizing d with
  | nil => exact h
  | cons p pairs ih => exact ih (contains_insert h p.1 p.2)

/-! ### The invariant -/

/-- Whether the active contracts are distinct contracts of a registry that are all marked. -/
structure Machine.Guarded (r : Registry) (m : Machine) : Prop where
  distinct : (m.calls.map ContractCall.name).Nodup
  marked : ∀ k ∈ m.calls, m.env.contains (Name.marker k.name) = true
  registered : ∀ k ∈ m.calls, k.name ∈ r.contractNames

namespace Machine.Guarded

variable {r : Registry} {m m' : Machine}

/-- The invariant is about the markers and the active contracts only. -/
theorem of_calls_eq (h : m.Guarded r) (hcalls : m'.calls = m.calls)
    (henv : ∀ k ∈ m.calls, m.env.contains (Name.marker k.name) = true →
      m'.env.contains (Name.marker k.name) = true) : m'.Guarded r := by
  refine ⟨?_, ?_, ?_⟩
  · rw [hcalls]
    exact h.distinct
  · rw [hcalls]
    exact fun k hk => henv k hk (h.marked k hk)
  · rw [hcalls]
    exact h.registered

theorem of_kept (h : m.Guarded r) (hkept : Kept (fun _ => True) m m') : m'.Guarded r := by
  refine h.of_calls_eq hkept.calls fun k _ hmarked => ?_
  rw [Dict.contains_eq] at hmarked ⊢
  rw [hkept.env _ trivial]
  exact hmarked

/-- Distinct contracts of the registry are no more than it has. -/
theorem length_le (h : m.Guarded r) : m.calls.length ≤ r.contractNames.length := by
  have hsubset : m.calls.map ContractCall.name ⊆ r.contractNames := by
    intro name hname
    obtain ⟨k, hk, rfl⟩ := List.mem_map.1 hname
    exact h.registered k hk
  calc m.calls.length = (m.calls.map ContractCall.name).length := (List.length_map _).symm
    _ ≤ r.contractNames.length := (List.subperm_of_subset h.distinct hsubset).length_le

end Machine.Guarded

theorem Name.marker_inj {a b : String} (h : Name.marker a = Name.marker b) : a = b :=
  String.append_right_inj _ |>.1 h

theorem Name.marker_ne_of_not_prefix {key : String}
    (hkey : Name.markerStart.toList.isPrefixOf key.toList = false) (name : String) :
    Name.marker name ≠ key := by
  rintro rfl
  rw [Name.marker, String.toList_append, List.isPrefixOf_iff_prefix.2 (List.prefix_append _ _)]
    at hkey
  cases hkey

/-- What is bound for the node is bound when a contract starts. -/
theorem contains_contractEnv {env : Dict Value} {key : String} (hkey : Name.isSystem key = true)
    (h : env.contains key = true) (params : Dict Value) (name : String) :
    (Exec.contractEnv env params name).contains key = true := by
  rw [Dict.contains_eq] at h ⊢
  rw [get?_contractEnv]
  split_ifs <;> simp [h]

/-- A contract is marked when it starts. -/
theorem contains_marker_contractEnv (env params : Dict Value) (name : String) :
    (Exec.contractEnv env params name).contains (Name.marker name) = true := by
  rw [Dict.contains_eq, get?_contractEnv, if_pos rfl]
  simp

/-- The end of a contract leaves the markers of the others. -/
theorem contains_marker_restore (k : ContractCall) {env : Dict Value} {name : String}
    (hne : name ≠ k.name) (h : env.contains (Name.marker name) = true) :
    (k.restore env).contains (Name.marker name) = true := by
  obtain ⟨node, hnode, hkey⟩ := k.get?_restore env (Name.marker name)
  have hparent : Name.marker name ≠ "parent" := Name.marker_ne_of_not_prefix (by decide) name
  have hthis : Name.marker name ≠ "this_contract" := Name.marker_ne_of_not_prefix (by decide) name
  rw [ContractCall.nodeValue, if_neg hparent.symm, if_neg hthis.symm,
    if_neg fun heq => hne (Name.marker_inj heq).symm, if_pos (Name.isSystem_marker name)] at hkey
  rw [hnode]
  refine Dict.contains_insertAll ?_ k.saved
  rw [Dict.contains_eq, hkey, ← Dict.contains_eq]
  exact h

namespace Machine.Guarded

variable {r : Registry} {m m' : Machine}

/-- **A contract starts only if it is not active.** -/
theorem start (h : m.Guarded r) {k : ContractCall} (hcalls : m'.calls = k :: m.calls)
    (hname : k.name ∈ r.contractNames) (hfresh : m.env.get? (Name.marker k.name) = none)
    {params : Dict Value} (henv : m'.env = Exec.contractEnv m.env params k.name) :
    m'.Guarded r := by
  refine ⟨?_, ?_, ?_⟩
  · rw [hcalls, List.map_cons, List.nodup_cons]
    refine ⟨fun hmem => ?_, h.distinct⟩
    -- an active contract of this name would have left its marker
    obtain ⟨k', hk', hsame⟩ := List.mem_map.1 hmem
    have hmarked := h.marked k' hk'
    rw [hsame, Dict.contains_eq, hfresh] at hmarked
    cases hmarked
  · rw [hcalls, henv]
    refine List.forall_mem_cons.2 ⟨contains_marker_contractEnv _ _ _, fun k' hk' => ?_⟩
    exact contains_contractEnv (Name.isSystem_marker _) (h.marked k' hk') _ _
  · rw [hcalls]
    exact List.forall_mem_cons.2 ⟨hname, h.registered⟩

/-- **The end of a contract leaves the others marked.** -/
theorem finish (h : m.Guarded r) {k : ContractCall} (hcalls : m.calls = k :: m'.calls)
    (henv : m'.env = k.restore m.env) : m'.Guarded r := by
  obtain ⟨hdistinct, hmarked, hregistered⟩ := h
  rw [hcalls] at hdistinct hmarked hregistered
  obtain ⟨hother, hdistinct⟩ := List.nodup_cons.1 hdistinct
  refine ⟨hdistinct, fun k' hk' => ?_, (List.forall_mem_cons.1 hregistered).2⟩
  rw [henv]
  refine contains_marker_restore k ?_ ((List.forall_mem_cons.1 hmarked).2 k' hk')
  intro hsame
  exact hother (hsame ▸ List.mem_map_of_mem hk')

end Machine.Guarded

/-! ### Steps -/

namespace Exec

/-- Whether a step keeps the active contracts distinct and marked, also where it fails. -/
def Guards (r : Registry) {α : Type} (x : Exec α) : Prop :=
  ∀ m, m.Guarded r → (left (x m)).Guarded r

namespace Guards

variable {r : Registry} {α β : Type} {x : Exec α} {k : α → Exec β}

theorem of_keeps (h : Keeps (fun _ => True) x) : Guards r x := fun m hm => hm.of_kept (h m)

/-- Two parts guard the markers if each of them does. -/
theorem bind (hx : Guards r x) (hk : ∀ a, Guards r (k a)) : Guards r (x >>= k) := by
  intro m hm
  have hleft := hx m hm
  cases hr : x m with
  | ok a m' =>
    rw [hr] at hleft
    rw [bind_of_ok hr]
    exact hk a m' hleft
  | error e m' =>
    rw [hr] at hleft
    rw [bind_of_error hr]
    exact hleft

theorem ite {p : Prop} [Decidable p] {y : Exec α} (hx : Guards r x) (hy : Guards r y) :
    Guards r (if p then x else y) := by
  split
  · exact hx
  · exact hy

end Guards

variable {c : Context}

theorem guards_modifyTop {r : Registry} (f : Activation → Activation) : Guards r (modifyTop f) := by
  rintro ⟨heap, env, stack, frames⟩ hm
  rcases frames with _ | ⟨_ | _, _⟩ <;> exact hm.of_calls_eq rfl fun _ _ h => h

/-- **A contract that is called is refused, or it was not active.** -/
theorem guards_callContract (c : Context) (name names : String) (values : List Value)
    (via : Option Extension) : Guards c.registry (callContract c name names values via) := by
  intro m hm
  have hparams := (@plain_contractParams _ id c ⟨name, Text.fields names,
    values⟩ (sees_id _)).keeps m
    (P := fun _ => True)
  rw [callContract_eq]
  cases hr : contractParams c ⟨name, Text.fields names, values⟩ m with
  | error e m₁ =>
    rw [hr] at hparams
    rw [bind_of_error hr]
    exact hm.of_kept hparams
  | ok p m₁ =>
    rw [hr] at hparams
    rw [bind_of_ok hr]
    -- The marker was not set when it was looked up, and paying does not set it.
    obtain ⟨hname, hfresh, -⟩ := contractParams_ok hr
    have hpaid := keeps_pay (P := fun _ => True) c.limits (contractCharges c name) m₁
    cases hr : pay c.limits (contractCharges c name) m₁ with
    | error e m₂ =>
      rw [hr] at hpaid
      rw [bind_of_error hr]
      exact hm.of_kept (hparams.trans hpaid)
    | ok u m₂ =>
      rw [hr] at hpaid
      rw [bind_of_ok hr]
      have hkept := hparams.trans hpaid
      have hfresh : m₂.env.get? (Name.marker name) = none := (hkept.env _ trivial).trans hfresh
      exact (hm.of_kept hkept).start rfl (Registry.mem_contractNames hname) hfresh rfl

/-! ### Extensions -/

/-- A host function that keeps keys leaves the markers of active contracts. -/
theorem guards_callHost {r : Registry} {e : Extension} {run : List Value → Host → Reply × Host}
    (hkeys : ∀ args host key, host.env.contains key = true →
      (run args host).2.env.contains key = true) (args : List Value) :
    Guards r (callHost e run args) := by
  refine .bind (fun m hm => hm.of_calls_eq rfl fun k _ h => hkeys args _ _ h) fun reply => ?_
  cases reply with
  | values vs => exact .of_keeps (.bind (keeps_deliver e vs) fun _ => plain_advance.keeps)
  | fault f => exact .of_keeps (.fail f)
  | crash => exact .of_keeps (.throw _)

/-- An extension guards the markers, also if it calls a contract. -/
theorem guards_behave {e : Extension} (hkeys : e.KeepsKeys) (args : List Value) :
    Guards c.registry (behave c e args) := by
  unfold behave
  split
  · exact guards_callHost (hkeys _ ‹_›) args
  · exact .bind (.of_keeps .get) fun m => guards_callContract c _ _ _ _
  · exact .bind (.of_keeps .get) fun m => .bind (.of_keeps (.ofExcept _)) fun state =>
      guards_callContract c _ _ _ _

theorem guards_callExtension {e : Extension} (hkeys : e.KeepsKeys) (count : Option Nat) :
    Guards c.registry (callExtension c e count) := by
  rw [callExtension_eq]
  exact .bind (.of_keeps (keeps_extensionArgs c e count)) fun args => guards_behave hkeys args

/-! ### Instructions -/

/-- Assigning binds names and removes none. -/
theorem guards_assignExtend {r : Registry} (name : String) (x : Value) :
    Guards r (assignExtend name x) := by
  have hset : Guards r (modify fun m => { m with env := m.env.insert name x } : Exec PUnit) :=
    fun m hm => hm.of_calls_eq rfl fun k _ h => Dict.contains_insert h name x
  refine .bind (.of_keeps .get) fun m => ?_
  split
  · exact .ite (.of_keeps (.fail_bind _)) hset
  · exact hset

/-- An assignment binds names, and takes none away. -/
theorem guards_assignAll {r : Registry} (ts : List Target) (xs : List Value) :
    Guards r (assignAll c ts xs) := by
  induction ts generalizing xs with
  | nil => exact .of_keeps (.pure _)
  | cons t ts ih =>
    cases xs with
    | nil => exact .of_keeps (.pure _)
    | cons x xs =>
      refine .bind ?_ fun _ => ih xs
      cases t with
      | var v => exact .of_keeps (plain_assignVar c v x).keeps
      | extend name => exact guards_assignExtend name x

theorem guards_assign : Guards c.registry (perform c .assign) := by
  refine .bind (.of_keeps .get) fun m => ?_
  split
  · exact .bind (guards_modifyTop _) fun _ => .bind (.of_keeps (plain_popN _).keeps) fun values =>
      .bind (guards_assignAll _ values) fun _ => .of_keeps plain_advance.keeps
  · exact .of_keeps (.pure _)

variable (hkeys : ∀ e, c.registry.Offers e → e.KeepsKeys)

include hkeys

/-- Every instruction of the code guards the markers. -/
theorem guards_perform {id : BlockId} {i : Instr} (hi : i ∈ (c.block id).code) :
    Guards c.registry (perform c i.op) := by
  -- The hosts that the code calls are among those that the registry offers.
  have hcode : ∀ e, i.op.extension? = some e → e.KeepsKeys :=
    fun e he => hkeys e (.inr ⟨id, i, hi, he⟩)
  cases hop : i.op with
  | callExtend name =>
    refine .bind (.of_keeps plain_popCount.keeps) fun count => ?_
    split
    · exact guards_callExtension (hkeys _ (.inl ⟨name, ‹_›⟩)) _
    · exact .of_keeps (.fail _)
  | call f =>
    cases f with
    | func id => exact .of_keeps (keeps_callFunc c id none)
    | ext e => exact guards_callExtension (hcode e (by rw [hop]; rfl)) none
  | callVariadic f =>
    refine .bind (.of_keeps plain_popCount.keeps) fun count => ?_
    cases f with
    | func id => exact .of_keeps (keeps_callFunc c id (some count))
    | ext e => exact guards_callExtension (hcode e (by rw [hop]; rfl)) (some count)
  | «return» | «continue» | «break» => exact .of_keeps (keeps_leave c _)
  | «if» body =>
    exact .bind (.of_keeps plain_pop.keeps) fun v => .bind (.of_keeps .get) fun m =>
      .bind (guards_modifyTop _) fun _ =>
        .ite (.of_keeps (keeps_enterBlock c body [] .branch)) (.of_keeps plain_advance.keeps)
  | «else» body =>
    refine .bind (.of_keeps .get) fun m => .of_keeps ?_
    split
    · exact .ite plain_advance.keeps (keeps_enterBlock c body [] .branch)
    · exact .pure _
  | «while» body =>
    exact .of_keeps (.bind plain_pop.keeps fun v => .bind .get fun m =>
      .ite (keeps_enterBlock c body [] .loop) plain_leaveLoop.keeps)
  | assignVar targets => exact guards_modifyTop _
  | assign => exact guards_assign
  | push | var | extendVar | label | error | funcName | unwrapArr | mapInit | arrayInit | index
  | setIndex | unary | binary =>
    exact .of_keeps (plain_perform c rfl fun name _ => sees_id name).keeps

omit hkeys in
/-- Going on with a contract starts its next section, or ends it. -/
theorem guarded_resume {k : ContractCall} {rest : List Frame} {m : Machine}
    (hm : m.Guarded c.registry) (hframes : m.frames = .contract k :: rest) :
    (left (resume c k rest m)).Guarded c.registry := by
  cases hsections : k.sections with
  | cons s sections =>
    rw [resume_cons c rest m hsections]
    have hnext : Machine.Guarded c.registry
        { m with frames := .contract { k with sections := sections } :: rest } := by
      refine hm.of_calls_eq ?_ fun _ _ h => h
      rw [Machine.calls, Machine.calls, hframes]
      rfl
    exact hnext.of_kept (keeps_start c s [] .section _)
  | nil =>
    rw [resume_nil c rest m hsections]
    refine .of_kept (m := finished k rest m) ?_ (keeps_behindContract k _ _)
    refine hm.finish (k := { k with sections := [] }) ?_ rfl
    rw [Machine.calls, hframes]
    rfl

/-- **No step makes a contract active that is active already.** -/
theorem guards_step : Guards c.registry (step c) := by
  intro m hm
  cases ahead c m with
  | done _ hstep =>
    rw [hstep]
    exact hm
  | resumes k rest hframes hstep =>
    rw [hstep]
    exact guarded_resume hm hframes
  | leaves a rest status _ _ hstep =>
    rw [hstep]
    exact hm.of_kept (keeps_leave c status m)
  | runs a rest i _ _ hcode hstep =>
    rw [hstep]
    exact Guards.bind (.of_keeps (keeps_tick c))
      (fun _ => guards_perform hkeys (Array.mem_of_getElem? hcode)) m hm

end Exec

/-! ### Runs -/

theorem Launch.guards (l : Launch) (c : Context) : Exec.Guards c.registry (l.start c) := by
  cases l with
  | func id params => exact .of_keeps (Exec.keeps_start c id params .entry)
  | contract state name params => exact Exec.guards_callContract c _ _ _ _

theorem Transition.guarded {c : Context} (hkeys : ∀ e, c.registry.Offers e → e.KeepsKeys)
    {l : Launch} {m₀ m : Machine} (hm₀ : m₀.Guarded c.registry) {q : Option Request}
    {r : EStateM.Result Stop Machine Unit} (h : Transition c l m₀ m q r) :
    m.Guarded c.registry ∧ (Exec.left r).Guarded c.registry := by
  induction h with
  | start => exact ⟨hm₀, l.guards c m₀ hm₀⟩
  | step _ _ ih => exact ⟨ih.2, Exec.guards_step hkeys _ ih.2⟩

namespace Launch

/-- **No contract is entered twice.** Whatever a registry holds and however a run is started, the
contracts that are active before and behind each of its steps have different names, and they are no
more than the registry has. Host functions are only taken not to unbind names. -/
theorem active_contracts_distinct {r : Registry} (hkeys : ∀ e, r.Offers e → e.KeepsKeys)
    (l : Launch) {env : Dict Value} {h : Heap} {clock : Nat → Nat}
    {m : Machine} {q : Option Request} {result : EStateM.Result Stop Machine Unit}
    (hmakes : l.Makes r env h clock m q result) :
    ∀ m' ∈ [m, Exec.left result], (m'.calls.map ContractCall.name).Nodup ∧
      m'.calls.length ≤ r.contractNames.length := by
  obtain ⟨cost, allowance, -, -, htrans⟩ := hmakes
  have hstart : Machine.Guarded r { heap := h, env := env, cost := cost } :=
    ⟨List.nodup_nil, List.forall_mem_nil _, List.forall_mem_nil _⟩
  obtain ⟨hbefore, hbehind⟩ := htrans.guarded hkeys hstart
  simp only [List.forall_mem_cons]
  exact ⟨⟨hbefore.distinct, hbefore.length_le⟩, ⟨hbehind.distinct, hbehind.length_le⟩,
    List.forall_mem_nil _⟩

/-- Two contracts, the first of which calls the second by a text, and the second the first. -/
def mutualCalls : Session := callingSession
  ("contract A \x7b action \x7b ExecContract(\"@1B\", \"\") \x7d \x7d\n" ++
    "contract B \x7b action \x7b A() \x7d \x7d")

/-- The two contracts become active, which are all that there are. -/
theorem mutual_calls_distinct :
    (∀ e, mutualCalls.registry.Offers e → e.KeepsKeys) ∧
      ∃ m q m', (contract 1 "A" .empty).Makes mutualCalls.registry .empty .empty (fun _ => 0) m q
        (.ok () m') ∧ m'.calls.map ContractCall.name = ["@1B", "@1A"] ∧
          (m'.calls.map ContractCall.name).Nodup ∧
            m'.calls.length ≤ mutualCalls.registry.contractNames.length := by
  obtain ⟨honly, hcost, hsteps⟩ : mutualCalls.registry.offersContractsOnly = true ∧
      (Int64.ofInt mutualCalls.registry.limits.maxCost).toInt
        = mutualCalls.registry.limits.maxCost ∧
      ((contract 1 "A" .empty).machineAfter { registry := mutualCalls.registry } 5
        { heap := .empty, env := .empty, cost := mutualCalls.registry.limits.maxCost }).any
          (fun m => m.calls.map ContractCall.name = ["@1B", "@1A"]) = true := by
    simp only [mutualCalls, callingSession, Session.perform_compile, String.toList_append,
      String.reduceToList]
    decide +kernel
  have hkeys : ∀ e, mutualCalls.registry.Offers e → e.KeepsKeys := fun e he run hrun =>
    absurd hrun (e.behaviour_ne_host (Registry.callsContract_of_offers honly he) run)
  obtain ⟨m, q, m', htrans, hcalls⟩ := machineAfter_sound hsteps
  -- The budget is the largest one, as the environment sets none.
  have hmakes : (contract 1 "A" .empty).Makes mutualCalls.registry .empty .empty (fun _ => 0) m q
      (.ok () m') := by
    refine ⟨mutualCalls.registry.limits.maxCost, none, ?_, ?_, htrans⟩
    · rw [Run.budget, Dict.get?_empty]
      exact congrArg Except.ok hcost
    · rw [Run.allowance, Dict.get?_empty]
  have hdistinct := active_contracts_distinct hkeys _ hmakes m' (by simp [Exec.left])
  exact ⟨hkeys, m, q, m', hmakes, of_decide_eq_true hcalls, hdistinct.1, hdistinct.2⟩

end Launch

end Covenant
