import Covenant.Proofs.Machine.Runs

/-!
# System variables belong to the node

Programs cannot assign to system variables, and host functions are taken not to write the
environment. The only other way to bind a name is to give it to a contract, among the names of its
fields. These are texts that a program may put together as it likes, and no call looks at them:
whoever gives a contract `key_id` has changed it for good (`given_system_variable_changes`).

`Launch.system_variable_kept` is what holds of every run and every system variable that is given to
none of the contracts that the run starts: it is bound behind the run as before it, and while the
run lasts only the start and the end of a contract alter it, and then it is `parent`,
`this_contract` or the marker of that contract. These three are put back when a contract ends and
when a run fails, but not when the machine itself breaks down.
-/

namespace Covenant

open Exec

section

variable {c : Context} {l : Launch} {m₀ m : Machine} {q : Option Request}
  {r : EStateM.Result Stop Machine Unit}

/-- Restoring all active contracts gives every system variable that none of them was given. -/
theorem Transition.restoreAll_get? (hclean : c.registry.arena.Clean) (hquiet : c.registry.Quiet)
    (hm₀ : m₀.frames = []) {key : String} (hkey : Name.isSystem key = true)
    (hgiven : ∀ m q m', Transition c l m₀ m (some q) (.ok () m') → q.params.get? key = none)
    (h : Transition c l m₀ m q r) :
    (restoreAll (left r).calls (left r).env).get? key = m₀.env.get? key := by
  have hstart : m₀.Clean := by
    rw [Machine.Clean, hm₀]
    exact fun f hf => absurd hf List.not_mem_nil
  have hmove := fun {m q r} (h : Transition c l m₀ m q r) => (h.move hclean hquiet hstart).2
  have hnext : ∀ {m q r}, Transition c l m₀ m q r →
      (restoreAll (left r).calls (left r).env).get? key = (restoreAll m.calls m.env).get? key := by
    intro m q r h
    obtain ⟨calls, hcalls, hrestored⟩ := (hmove h).restored (List.append_nil _).symm (.inr rfl)
    rw [hcalls, List.append_nil]
    refine hrestored key (.inl hkey) fun _ q' m' hq hr => ?_
    subst hq hr
    exact hgiven m q' m' h
  induction h with
  | start =>
    rw [hnext .start, Machine.calls, hm₀]
    rfl
  | step hlast hframes ih => exact (hnext (.step hlast hframes)).trans ih

/-- Only a contract alters system variables, and only those it binds itself. -/
theorem Transition.alters (hclean : c.registry.arena.Clean) (hquiet : c.registry.Quiet)
    (hm₀ : m₀.Clean) (h : Transition c l m₀ m q r) {key : String}
    (hkey : Name.isSystem key = true)
    (hgiven : ∀ q' m', q = some q' → r = .ok () m' → q'.params.get? key = none) :
    (left r).env.get? key = m.env.get? key ∨ ∃ k : ContractCall, Name.IsOwn k.name key ∧
      ((left r).calls = k :: m.calls ∨ m.calls = k :: (left r).calls) := by
  cases (h.move hclean hquiet hm₀).2 with
  | keeps hkept => exact .inl (hkept.env key trivial)
  | writes _ hkept => exact .inl (hkept.env key hkey)
  | starts q' k m' hq hr hstarts =>
    subst hr
    by_cases hown : Name.IsOwn k.name key
    · exact .inr ⟨k, hown, .inl hstarts.calls⟩
    · refine .inl ((hstarts.env key hkey hown).trans ?_)
      rw [hgiven q' m' hq rfl, Option.none_or]
  | ends k _ hends =>
    by_cases hown : Name.IsOwn k.name key
    · exact .inr ⟨k, hown, .inr hends.calls⟩
    · exact .inl ((hends.env key).trans
        (ContractCall.get?_restore_of_isSystem hends.tidy m.env hkey hown))

/-- Restoring does not touch what no contract binds itself. -/
theorem get?_restoreAll_of_not_own {calls : List ContractCall} (hcalls : ∀ k ∈ calls, k.Tidy)
    (env : Dict Value) {key : String} (hkey : Name.isSystem key = true)
    (hown : ¬ ∃ contract, Name.IsOwn contract key) :
    (restoreAll calls env).get? key = env.get? key := by
  induction calls generalizing env with
  | nil => rfl
  | cons k calls ih =>
    obtain ⟨hk, hrest⟩ := List.forall_mem_cons.1 hcalls
    rw [restoreAll_cons, ih hrest]
    exact ContractCall.get?_restore_of_isSystem hk env hkey fun h => hown ⟨_, h⟩

/-- The contracts of a clean machine have kept no system variable to be put back. -/
theorem Machine.Clean.tidy (h : m.Clean) : ∀ k ∈ m.calls, k.Tidy := by
  intro k hk
  obtain ⟨f, hf, hfk⟩ := List.mem_filterMap.1 hk
  cases f with
  | block a => cases hfk
  | contract k' =>
    cases hfk
    exact h _ hf

end

/-- Whether a value is some integer. -/
def Value.isInt (n : Int64) : Value → Bool
  | .int k => k == n
  | _ => false

theorem Value.eq_int_of_isInt {v : Option Value} {n : Int64} (h : v.any (isInt n) = true) :
    v = some (.int n) := by
  rcases v with _ | (_ | _ | k | _ | _ | _ | _ | _ | _) <;> simp [isInt] at h
  rw [h]

namespace Launch

variable {s : Session}

/-- A run leaves the environment that restoring all active contracts gives, but for the cost. Where
the machine breaks down, it leaves its own environment; `p` is what rules this out. -/
theorem get?_run (l : Launch) (r : Registry) (env : Dict Value) (h : Heap) (clock : Nat → Nat)
    {key : String} (hcost : key ≠ "txcost") {p : Prop}
    (hcrash : p → (l.run r env h clock).result ≠ .error (.of .runtimePanic)) :
    (l.run r env h clock).env.get? key = env.get? key ∨
      ∃ m q result, l.Makes r env h clock m q result ∧
        ((l.run r env h clock).env.get? key
            = (restoreAll (left result).calls (left result).env).get? key ∨
          ¬ p ∧ (l.run r env h clock).env.get? key = (left result).env.get? key) := by
  have hsettle : ∀ (e : Dict Value) (cost : Int),
      (Run.settle e cost).get? key = e.get? key := by
    intro e cost
    rw [Run.settle, Dict.get?_insert, if_neg hcost.symm]
  unfold Launch.run Run.execute at hcrash ⊢
  split
  · exact .inl rfl
  · exact .inl rfl
  · rename_i cost allowance hbudget hallowance
    rw [hbudget, hallowance] at hcrash
    have hconcludes := l.concludes { registry := r, allowance := allowance, clock := clock }
      { heap := h, env := env, cost := cost } (Run.fuel cost)
    obtain ⟨m, q, result, htrans, hleft⟩ := hconcludes.transition
    refine .inr ⟨m, q, result, ⟨cost, allowance, hbudget, hallowance, htrans⟩, ?_⟩
    rw [hleft]
    dsimp only [EStateM.run] at hcrash ⊢
    split
    · rename_i m' hend
      rw [hend] at hconcludes ⊢
      refine .inl ((hsettle _ _).trans ?_)
      rw [left, Machine.calls, hconcludes.frames]
      rfl
    · rename_i f m' hend
      rw [hend]
      refine .inl ((hsettle _ _).trans ?_)
      rw [unwind_frames_env]
      rfl
    -- A crash and an overflow skip the unwinding, so the environment is left as it is.
    all_goals
      rename_i m' hend
      rw [hend] at hcrash ⊢
      exact .inr ⟨fun hp => hcrash hp rfl, hsettle _ _⟩

/-- **A system variable that is given to no contract is kept.** It is bound behind a run as before
it, and during the run only the start and the end of a contract alter it, when it is one of the
three names that this contract binds itself. -/
theorem system_variable_kept (hs : s.Reachable) (hquiet : s.registry.Quiet) (l : Launch)
    (env : Dict Value) (h : Heap) (clock : Nat → Nat) {key : String}
    (hkey : Name.isSystem key = true) (hcost : key ≠ "txcost")
    (hgiven : ∀ m q m', l.Makes s.registry env h clock m (some q) (.ok () m') →
      q.params.get? key = none)
    (hcrash : (∃ contract, Name.IsOwn contract key) →
      (l.run s.registry env h clock).result ≠ .error (.of .runtimePanic)) :
    (l.run s.registry env h clock).env.get? key = env.get? key ∧
      ∀ m q result, l.Makes s.registry env h clock m q result →
        (left result).env.get? key = m.env.get? key ∨ ∃ k : ContractCall, Name.IsOwn k.name key ∧
          ((left result).calls = k :: m.calls ∨ m.calls = k :: (left result).calls) := by
  have hclean := hs.clean
  have hempty : ∀ cost, Machine.Clean { heap := h, env := env, cost := cost } :=
    fun cost f hf => absurd hf List.not_mem_nil
  refine ⟨?_, ?_⟩
  · -- Behind the run the environment is the one restored for the calls that were open.
    rcases get?_run l s.registry env h clock hcost hcrash with hsame | hleft
    · exact hsame
    · obtain ⟨m, q, result, ⟨cost, allowance, hbudget, hallowance, htrans⟩, hleft⟩ := hleft
      have hrestored := htrans.restoreAll_get? hclean hquiet rfl hkey fun m q m' hm =>
        hgiven m q m' ⟨cost, allowance, hbudget, hallowance, hm⟩
      rcases hleft with hleft | ⟨hown, hleft⟩
      · exact hleft.trans hrestored
      · have hmove := htrans.move hclean hquiet (hempty cost)
        rw [hleft, ← hrestored]
        exact (get?_restoreAll_of_not_own (hmove.2.clean hmove.1).tidy _ hkey hown).symm
  · rintro m q result ⟨cost, allowance, hbudget, hallowance, htrans⟩
    refine htrans.alters hclean hquiet (hempty cost) hkey fun q' m' hq hr => ?_
    subst hq hr
    exact hgiven m q' m' ⟨cost, allowance, hbudget, hallowance, htrans⟩

/-! ### What is given to a contract changes -/

/-- A session with the two ways to call contracts and a compiled text. -/
def callingSession (text : String) : Session :=
  { registry := .new {} Library.contracts : Session }.perform (.compile 1 text)

theorem reachable_callingSession (text : String) : (callingSession text).Reachable :=
  .perform _ (.new {} Library.contracts .empty .empty)

/-- A contract that calls another one, which leaves a result. -/
def nestedCalls : Session := callingSession
  ("contract A \x7b action \x7b $result = 3 \x7d \x7d\n" ++
    "contract B \x7b action \x7b A() \x7d \x7d\nfunc f \x7b B() \x7d")

theorem nestedCalls_offersContractsOnly : nestedCalls.registry.offersContractsOnly = true := by
  simp only [nestedCalls, callingSession, Session.perform_compile, String.toList_append,
    String.reduceToList]
  decide +kernel

/-- An environment with a system variable and one of the host's own. -/
def hostEnv : Dict Value := .ofList [("this_contract", .str "@1Host"), ("n", .nil)]

/-- `this_contract` is altered by each of two nested calls and bound as before behind the run. -/
theorem this_contract_kept_by_nested_calls :
    nestedCalls.Reachable ∧ nestedCalls.registry.Quiet ∧ Name.isSystem "this_contract" = true ∧
      (∀ m q m', (func 5 []).Makes nestedCalls.registry hostEnv .empty (fun _ => 0) m (some q)
        (.ok () m') → q.params.get? "this_contract" = none) ∧
      ((func 5 []).run nestedCalls.registry hostEnv .empty fun _ => 0).result
        ≠ .error (.of .runtimePanic) ∧
      ((func 5 []).run nestedCalls.registry hostEnv .empty fun _ => 0).env.get? "this_contract"
        = hostEnv.get? "this_contract" := by
  have hreachable : nestedCalls.Reachable := reachable_callingSession _
  have hquiet : nestedCalls.registry.Quiet :=
    .of_offersContractsOnly nestedCalls_offersContractsOnly
  obtain ⟨hasks, hok⟩ : (func 5 []).asksOnlyIn nestedCalls.registry hostEnv .empty (fun _ => 0)
        (fun q => (q.params.get? "this_contract").isNone) 100 = true ∧
      ((func 5 []).run nestedCalls.registry hostEnv .empty fun _ => 0).result.isOk = true := by
    simp only [nestedCalls, callingSession, Session.perform_compile, String.toList_append,
      String.reduceToList]
    decide +kernel
  -- No call of the run passes `this_contract` as a parameter.
  have hgiven : ∀ m q m', (func 5 []).Makes nestedCalls.registry hostEnv .empty (fun _ => 0) m
      (some q) (.ok () m') → q.params.get? "this_contract" = none := by
    intro m q m' hmakes
    simpa using asksOnlyIn_sound hasks hmakes
  have hends : ((func 5 []).run nestedCalls.registry hostEnv .empty fun _ => 0).result
      ≠ .error (.of .runtimePanic) := by
    intro h
    rw [h] at hok
    cases hok
  exact ⟨hreachable, hquiet, by decide, hgiven, hends, (system_variable_kept hreachable hquiet
    (func 5 []) hostEnv .empty _ (by decide) (by decide) hgiven fun _ => hends).1⟩

/-- A function that gives a contract a system variable. -/
def givesKey : Session := callingSession
  ("contract X \x7b action \x7b \x7d \x7d\n" ++
    "func main \x7b ExecContract(\"@1X\", \"key_id\", 5) \x7d")

/-- The environment with a key of the node. -/
def keyEnv : Dict Value := .ofList [("key_id", .int 1)]

/-- **A program can change a system variable** by giving it to a contract among the names of its
fields. -/
theorem given_system_variable_changes :
    givesKey.Reachable ∧ givesKey.registry.Quiet ∧ Name.isSystem "key_id" = true ∧
      keyEnv.get? "key_id" = some (.int 1) ∧
      ((func 3 []).run givesKey.registry keyEnv .empty fun _ => 0).env.get? "key_id"
        = some (.int 5) := by
  obtain ⟨honly, hkey, hchanged⟩ : givesKey.registry.offersContractsOnly = true ∧
      (keyEnv.get? "key_id").any (Value.isInt 1) = true ∧
      (((func 3 []).run givesKey.registry keyEnv .empty fun _ => 0).env.get? "key_id").any
        (Value.isInt 5) = true := by
    simp only [givesKey, callingSession, Session.perform_compile, String.toList_append,
      String.reduceToList]
    decide +kernel
  exact ⟨reachable_callingSession _, .of_offersContractsOnly honly, by decide,
    Value.eq_int_of_isInt hkey, Value.eq_int_of_isInt hchanged⟩

end Launch

end Covenant
