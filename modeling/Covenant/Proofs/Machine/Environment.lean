import Covenant.Machine.Run
import Covenant.Proofs.Dict

/-!
# Environments of contract calls

A contract starts in an environment of its own and leaves the caller's environment behind. Here are
what a name is bound to at its start (`get?_contractEnv`) and behind it (`get?_restore`), and that
the two cancel (`ContractCall.restore_contractEnv`): a contract that did nothing leaves what was
bound before, unless it was given a system variable.

Behind a run that fails, the environments of all active calls are restored from the inside out,
which is `restoreAll`. A name that is no system variable has then its value from the outermost call,
whatever was written since.
-/

namespace Covenant

/-! ### System variables -/

theorem Name.isSystem_marker (contract : String) : Name.isSystem (Name.marker contract) = true := by
  simp [Name.isSystem, Name.marker]

/-- Names that a contract call binds and restores itself. -/
def Name.IsOwn (contract key : String) : Prop :=
  key = "parent" ∨ key = "this_contract" ∨ key = Name.marker contract

/-! ### Starting and ending a contract -/

/-- What a name is bound to when a contract starts. -/
theorem get?_contractEnv (env params : Dict Value) (name key : String) :
    (Exec.contractEnv env params name).get? key = (params.get? key).or
      (if Name.marker name = key then some (.bool true)
       else if "this_contract" = key then some (.str name)
       else if "parent" = key then some ((env.get? "this_contract").getD (.str ""))
       else if Name.isSystem key then env.get? key else none) := by
  have hthis : Name.isSystem "this_contract" = true := by decide
  rw [Exec.contractEnv, Dict.get?_insertAll_toList, Dict.get?_insert, Dict.get?_insert,
    Dict.get?_insert, Dict.get?_filterKeys, Dict.get?_filterKeys, if_pos hthis]

namespace ContractCall

/-- What a name is bound to behind a contract, before the caller's own variables are. -/
def nodeValue (k : ContractCall) (env : Dict Value) (key : String) : Option Value :=
  if "parent" = key then k.parent
  else if "this_contract" = key then k.this
  else if Name.marker k.name = key then none
  else if Name.isSystem key then env.get? key else none

/-- What a name is bound to behind a contract. -/
theorem get?_restore (k : ContractCall) (env : Dict Value) (key : String) :
    ∃ node : Dict Value, k.restore env = node.insertAll k.saved ∧
      node.get? key = k.nodeValue env key := by
  refine ⟨_, rfl, ?_⟩
  rw [Dict.get?_assign, Dict.get?_assign, Dict.get?_erase, Dict.get?_filterKeys, nodeValue]

/-- Restoring looks at the bindings of system variables only. -/
theorem get?_restore_congr (k : ContractCall) {env env' : Dict Value} {key : String}
    (h : Name.isSystem key = true → env.get? key = env'.get? key) :
    (k.restore env).get? key = (k.restore env').get? key := by
  obtain ⟨node, hnode, hkey⟩ := k.get?_restore env key
  obtain ⟨node', hnode', hkey'⟩ := k.get?_restore env' key
  rw [hnode, hnode']
  refine Dict.get?_insertAll_congr ?_ _
  rw [hkey, hkey', nodeValue, nodeValue]
  by_cases hsys : Name.isSystem key = true
  · rw [h hsys]
  · simp only [hsys, if_false, Bool.false_eq_true]

/-- Whether a call keeps no system variables among the caller's own variables. -/
def Tidy (k : ContractCall) : Prop := ∀ p ∈ k.saved, Name.isSystem p.1 = false

/-- Restoring touches only what the call had bound itself. -/
theorem get?_restore_of_isSystem {k : ContractCall} (hk : k.Tidy) (env : Dict Value) {key : String}
    (hsys : Name.isSystem key = true) (hown : ¬ Name.IsOwn k.name key) :
    (k.restore env).get? key = env.get? key := by
  obtain ⟨node, hnode, hkey⟩ := k.get?_restore env key
  have hsaved : ∀ p ∈ k.saved, p.1 ≠ key := by
    rintro p hp rfl
    rw [hk p hp] at hsys
    cases hsys
  rw [hnode, Dict.get?_insertAll_of_not_mem _ hsaved, hkey, nodeValue,
    if_neg fun h => hown (.inl h.symm), if_neg fun h => hown (.inr (.inl h.symm)),
    if_neg fun h => hown (.inr (.inr h.symm)), if_pos hsys]

/-- The call of a contract from an environment. -/
structure From (k : ContractCall) (env : Dict Value) : Prop where
  this : k.this = env.get? "this_contract"
  parent : k.parent = env.get? "parent"
  saved : k.saved = env.toList.filter fun p => !Name.isSystem p.1
  fresh : env.get? (Name.marker k.name) = none

theorem From.tidy {k : ContractCall} {env : Dict Value} (h : k.From env) : k.Tidy := by
  intro p hp
  rw [h.saved, List.mem_filter] at hp
  simpa using hp.2

/-- **Starting and ending a contract cancel**, but for system variables that it is given. -/
theorem restore_contractEnv {k : ContractCall} {env : Dict Value} (h : k.From env)
    (params : Dict Value) {key : String}
    (hkey : Name.isSystem key = true → params.get? key = none) :
    (k.restore (Exec.contractEnv env params k.name)).get? key = env.get? key := by
  obtain ⟨node, hnode, hvalue⟩ := k.get?_restore (Exec.contractEnv env params k.name) key
  have hrestore : (k.restore (Exec.contractEnv env params k.name)).get? key =
      if !Name.isSystem key then (env.get? key).or (node.get? key) else node.get? key := by
    rw [hnode, h.saved]
    exact Dict.get?_insertAll_filter node env (fun x => !Name.isSystem x) key
  -- A node's key has one of four origins: the parent, the
  -- name, the marker, or the environment before.
  rw [hrestore, hvalue, nodeValue]
  by_cases hsys : Name.isSystem key = true
  · simp only [hsys, Bool.not_true, Bool.false_eq_true, if_false, if_true]
    split
    · rename_i heq
      rw [← heq, h.parent]
    · split
      · rename_i heq
        rw [← heq, h.this]
      · split
        · rename_i heq
          rw [← heq, h.fresh]
        · rename_i hparent hthis hmarker
          rw [get?_contractEnv, hkey hsys, Option.none_or, if_neg hmarker, if_neg hthis,
            if_neg hparent, if_pos hsys]
  · -- A key of the contracts is that of the caller, who had it saved.
    have hnode : ∀ s, Name.isSystem s = true → s ≠ key := by
      rintro s hs rfl
      exact hsys hs
    rw [if_neg (hnode _ (by decide)), if_neg (hnode _ (by decide)),
      if_neg (hnode _ (Name.isSystem_marker _))]
    simp [hsys]

end ContractCall

/-! ### All active calls -/

/-- The environment behind some calls, the innermost first. -/
def restoreAll (calls : List ContractCall) (env : Dict Value) : Dict Value :=
  calls.foldl (fun env k => k.restore env) env

@[simp] theorem restoreAll_nil (env : Dict Value) : restoreAll [] env = env := rfl

@[simp] theorem restoreAll_cons (k : ContractCall) (calls : List ContractCall) (env : Dict Value) :
    restoreAll (k :: calls) env = restoreAll calls (k.restore env) := rfl

/-- What is restored for a name depends on what it is bound to, and for a name that is no system
variable not even on that once a call is active. -/
theorem get?_restoreAll_congr (calls : List ContractCall) {env env' : Dict Value} {key : String}
    (h : Name.isSystem key = true ∨ calls = [] → env.get? key = env'.get? key) :
    (restoreAll calls env).get? key = (restoreAll calls env').get? key := by
  induction calls generalizing env env' with
  | nil => exact h (.inr rfl)
  | cons k calls ih =>
    exact ih fun _ => k.get?_restore_congr fun hsys => h (.inl hsys)

/-! ### Kinds of values -/

/-- Whether values of one kind follow each other under a name. Anything may follow `nil`. -/
def KindKept (key : String) (env env' : Dict Value) : Prop :=
  ∀ v, env.get? key = some v → v.isNil = false →
    ∃ v', env'.get? key = some v' ∧ v.sameType v' = true

theorem Value.sameType_trans {v v' v'' : Value} (h : v.sameType v' = true)
    (h' : v'.sameType v'' = true) : v.sameType v'' = true := by
  rw [sameType, beq_iff_eq] at *
  exact h.trans h'

theorem Value.isNil_eq (v : Value) : v.isNil = v.sameType .nil := by
  cases v <;> rfl

theorem Value.isNil_eq_of_sameType {v v' : Value} (h : v.sameType v' = true) :
    v'.isNil = v.isNil := by
  rw [sameType, beq_iff_eq] at h
  rw [isNil_eq, isNil_eq, sameType, sameType, h]

namespace KindKept

variable {key : String} {env env' env'' : Dict Value}

theorem of_eq (h : env'.get? key = env.get? key) : KindKept key env env' := by
  intro v hv _
  refine ⟨v, h.trans hv, ?_⟩
  rw [Value.sameType, beq_self_eq_true]

theorem trans (h : KindKept key env env') (h' : KindKept key env' env'') :
    KindKept key env env'' := by
  intro v hv hnil
  obtain ⟨v', hv', hsame⟩ := h v hv hnil
  obtain ⟨v'', hv'', hsame'⟩ := h' v' hv' ((Value.isNil_eq_of_sameType hsame).trans hnil)
  exact ⟨v'', hv'', Value.sameType_trans hsame hsame'⟩

/-- A name may be bound anew to a value of the kind it had. -/
theorem insert {name : String} {x : Value} (h : ∀ old, env.get? name = some old →
    old.isNil = true ∨ old.sameType x = true) : KindKept key env (env.insert name x) := by
  by_cases hkey : name = key
  · subst hkey
    intro v hv hnil
    refine ⟨x, by rw [Dict.get?_insert, if_pos rfl], ?_⟩
    rcases h v hv with h | h
    · rw [hnil] at h
      cases h
    · exact h
  · apply of_eq
    rw [Dict.get?_insert, if_neg hkey]

end KindKept

end Covenant
