import Covenant.Proofs.Machine.SystemVariables

/-!
# Environment variables keep their kinds

An assignment to an environment variable looks at the current value only: the new one has to be of
its kind, unless the current one is `nil`. A contract starts without the variables of its caller, so
it may use their names for values of other kinds, and its end puts the caller's own values back.

So the kinds that count are those in the environment that restoring all active contracts gives. No
step changes these (`Move.kindKept`): with a contract active, what it writes is dropped by its end,
and with none active, the assignment itself has looked at them. A run that fails restores the
environments of all active contracts as well, which gives `Launch.kinds_kept` for all runs but those
in which the machine breaks down.
-/

namespace Covenant

open Exec

variable {c : Context} {l : Launch} {m₀ m : Machine} {q : Option Request}
  {r : EStateM.Result Stop Machine Unit} {key : String}

/-- **A move changes no kind of value** in the environment behind all active contracts. -/
theorem Move.kindKept (h : Move q m r) (hkey : Name.isSystem key = false) :
    KindKept key (restoreAll m.calls m.env) (restoreAll (left r).calls (left r).env) := by
  have hsystem : ∀ {p : Prop}, Name.isSystem key = true → p := by
    intro p h
    rw [hkey] at h
    cases h
  by_cases hcalls : m.calls = []
  · cases h with
    | keeps hkept =>
      rw [hkept.calls]
      exact .of_eq (get?_restoreAll_congr m.calls fun _ => hkept.env key trivial)
    | writes _ hkept hkinds =>
      rw [hkept.calls, hcalls]
      exact hkinds key
    | starts q' k m' _ hr hstarts =>
      subst hr
      rw [left, hstarts.calls, hcalls]
      exact .of_eq (hstarts.restores key hsystem)
    | ends k _ hends =>
      have hk := hends.calls
      rw [hcalls] at hk
      cases hk
  · -- what the active contract writes does not get through to the caller
    obtain ⟨calls, hleft, hrestored⟩ := h.restored (List.append_nil _).symm (.inl hcalls)
    rw [hleft, List.append_nil]
    exact .of_eq (hrestored key (.inr hcalls) hsystem)

/-- What is bound to a value before a run is bound to one of its kind behind all contracts that are
active, whenever one looks. -/
theorem Transition.kindKept (hclean : c.registry.arena.Clean) (hquiet : c.registry.Quiet)
    (hm₀ : m₀.frames = []) (hkey : Name.isSystem key = false) (h : Transition c l m₀ m q r) :
    KindKept key m₀.env (restoreAll (left r).calls (left r).env) := by
  have hstart : m₀.Clean := by
    rw [Machine.Clean, hm₀]
    exact fun f hf => absurd hf List.not_mem_nil
  have hmove := fun {m q r} (h : Transition c l m₀ m q r) => (h.move hclean hquiet hstart).2
  induction h with
  | start =>
    have hkept := (hmove .start).kindKept hkey
    rw [Machine.calls, hm₀] at hkept
    exact hkept
  | step hlast hframes ih => exact ih.trans ((hmove (.step hlast hframes)).kindKept hkey)

namespace Launch

variable {s : Session}

/-- **Environment variables keep their kinds.** A name that is no system variable and is bound to a
value other than `nil` is bound to a value of the same kind behind every run, also behind one that
fails, whatever was assigned to the name and whatever contracts have used it meanwhile. -/
theorem kinds_kept (hs : s.Reachable) (hquiet : s.registry.Quiet) (l : Launch) (env : Dict Value)
    (h : Heap) (clock : Nat → Nat)
    (hpanic : (l.run s.registry env h clock).result ≠ .error (.of .runtimePanic)) {v : Value}
    (hkey : Name.isSystem key = false) (hv : env.get? key = some v) (hnil : v.isNil = false) :
    ∃ v', (l.run s.registry env h clock).env.get? key = some v' ∧ v.sameType v' = true := by
  have hcost : key ≠ "txcost" := by
    rintro rfl
    have hsystem : Name.isSystem "txcost" = true := by decide
    rw [hsystem] at hkey
    cases hkey
  suffices hkept : KindKept key env (l.run s.registry env h clock).env from hkept v hv hnil
  rcases get?_run l s.registry env h clock hcost fun _ : True => hpanic with hsame | hleft
  · exact .of_eq hsame
  · obtain ⟨m, q, result, ⟨cost, allowance, -, -, htrans⟩, hleft⟩ := hleft
    have hkept := htrans.kindKept hs.clean hquiet rfl hkey
    rcases hleft with hrestored | ⟨hfalse, -⟩
    · exact hkept.trans (.of_eq hrestored)
    · exact absurd trivial hfalse

/-- A contract that uses a name of its caller for a text. -/
def reusesName : Session := callingSession
  ("contract A \x7b action \x7b $n = \"inner\" \x7d \x7d\n" ++
    "func f \x7b $n = 2\n A()\n $n = $n + 1 \x7d")

/-- An environment with a number. -/
def numberEnv : Dict Value := .ofList [("n", .int 1)]

/-- A number that is assigned to before and behind a contract that binds its name to a text. -/
theorem kind_kept_by_reusesName :
    reusesName.Reachable ∧ reusesName.registry.Quiet ∧
      ((func 3 []).run reusesName.registry numberEnv .empty fun _ => 0).result
        ≠ .error (.of .runtimePanic) ∧
      Name.isSystem "n" = false ∧ numberEnv.get? "n" = some (.int 1) ∧
      ((func 3 []).run reusesName.registry numberEnv .empty fun _ => 0).env.get? "n"
        = some (.int 3) ∧
      ∃ v', ((func 3 []).run reusesName.registry numberEnv .empty fun _ => 0).env.get? "n"
        = some v' ∧ (Value.int 1).sameType v' = true := by
  obtain ⟨honly, hok, hbound, hthree⟩ : reusesName.registry.offersContractsOnly = true ∧
      ((func 3 []).run reusesName.registry numberEnv .empty fun _ => 0).result.isOk = true ∧
      (numberEnv.get? "n").any (Value.isInt 1) = true ∧
      (((func 3 []).run reusesName.registry numberEnv .empty fun _ => 0).env.get? "n").any
        (Value.isInt 3) = true := by
    simp only [reusesName, callingSession, Session.perform_compile, String.toList_append,
      String.reduceToList]
    decide +kernel
  have hreachable : reusesName.Reachable := reachable_callingSession _
  have hquiet : reusesName.registry.Quiet := .of_offersContractsOnly honly
  -- A run that gives a value does not end by a panic.
  have hends : ((func 3 []).run reusesName.registry numberEnv .empty fun _ => 0).result
      ≠ .error (.of .runtimePanic) := by
    intro h
    rw [h] at hok
    cases hok
  exact ⟨hreachable, hquiet, hends, by decide, Value.eq_int_of_isInt hbound,
    Value.eq_int_of_isInt hthree, kinds_kept hreachable hquiet (func 3 []) numberEnv .empty _ hends
      (by decide) (Value.eq_int_of_isInt hbound) rfl⟩

end Launch

end Covenant
