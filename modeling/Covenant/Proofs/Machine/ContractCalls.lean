import Covenant.Proofs.Machine.SystemVariables

/-!
# A contract call leaves the environment as it was

A contract call may be made in any state of a run, below any number of calls that are active
already. Its own steps are those until no more contracts are active than before it
(`CallTransition`); among them are the calls that it makes itself, each with steps of its own.

The main statement is `callContract_env_kept`. When the call returns, every name is bound as before
it. When it fails, the error finds some contracts active that were not active before; restoring
their environments from the inside out, as an error does on its way, binds every name as before the
call. The invariant is the same for both (`CallTransition.restored`): at every moment, restoring the
contracts that the call has added gives back the caller's environment.
-/

namespace Covenant

open Exec

/-- What a contract call does that is made in a machine `m₀`: the machine before, the contract that
is asked for, and what comes of it. The call is over when no more contracts are active than in
`m₀`. -/
inductive CallTransition (c : Context) (name names : String) (values : List Value)
    (via : Option Extension) (m₀ : Machine) :
    Machine → Option Request → EStateM.Result Stop Machine Unit → Prop
  | start : CallTransition c name names values via m₀ m₀ (some ⟨name, Text.fields names, values⟩)
      (callContract c name names values via m₀)
  | step {m m' : Machine} {q : Option Request} :
      CallTransition c name names values via m₀ m q (.ok () m') →
      m₀.calls.length < m'.calls.length →
      CallTransition c name names values via m₀ m' (asked (stepRequest c) m') (step c m')

namespace CallTransition

variable {c : Context} {name names : String} {values : List Value} {via : Option Extension}
  {m₀ m : Machine} {q : Option Request} {r : EStateM.Result Stop Machine Unit}

/-- A call of a contract keeps the environment, or starts the contract. -/
theorem start_restored (hclean : c.registry.arena.Clean) (hm₀ : m₀.Clean)
    (hgiven : ∀ m', callContract c name names values via m₀ = .ok () m' → ∀ key,
      Name.isSystem key = true →
        (Request.params ⟨name, Text.fields names, values⟩).get? key = none) :
    ∃ above, (left (callContract c name names values via m₀)).calls = above ++ m₀.calls ∧
      ∀ key, (restoreAll above (left (callContract c name names values via m₀)).env).get? key
        = m₀.env.get? key := by
  have hmove : Move (some ⟨name, Text.fields names, values⟩) m₀
      (callContract c name names values via m₀) :=
    moves_callContract hclean name names values via m₀ hm₀
  cases hmove with
  | keeps hkept => exact ⟨[], hkept.calls, fun key => hkept.env key trivial⟩
  | writes hq => cases hq
  | ends _ hq => cases hq
  | starts q' k m' hq hr hstarts =>
    cases hq
    rw [hr]
    exact ⟨[k], hstarts.calls, fun key => hstarts.restores key (hgiven m' hr key)⟩

/-- **Restoring the contracts that a call has added gives the caller's environment**, at every
moment of the call. -/
theorem restored (hclean : c.registry.arena.Clean) (hquiet : c.registry.Quiet) (hm₀ : m₀.Clean)
    (hgiven : ∀ m q m', CallTransition c name names values via m₀ m (some q) (.ok () m') →
      ∀ key, Name.isSystem key = true → q.params.get? key = none)
    (h : CallTransition c name names values via m₀ m q r) :
    (left r).Clean ∧ ∃ above, (left r).calls = above ++ m₀.calls ∧
      ∀ key, (restoreAll above (left r).env).get? key = m₀.env.get? key := by
  induction h with
  | start =>
    refine ⟨(moves_callContract hclean name names values via m₀ hm₀).clean hm₀, ?_⟩
    exact start_restored hclean hm₀ fun m' hm' => hgiven m₀ _ m' (hm' ▸ .start)
  | @step m m' q hlast hactive ih =>
    obtain ⟨hm', above, hcalls, hrestored⟩ := ih
    rw [left] at hm' hcalls hrestored
    have hmove : Move (asked (stepRequest c) m') m' (Exec.step c m') :=
      step_move hclean hquiet m' hm'
    have habove : above ≠ [] := by
      rintro rfl
      rw [hcalls, List.nil_append] at hactive
      exact Nat.lt_irrefl _ hactive
    obtain ⟨above', hcalls', hnext⟩ := hmove.restored hcalls (.inl habove)
    refine ⟨hmove.clean hm', above', hcalls', fun key => ?_⟩
    refine (hnext key (.inr habove) fun hsys q' m'' hq hr => ?_).trans (hrestored key)
    refine hgiven m' q' m'' ?_ key hsys
    rw [← hq, ← hr]
    exact .step hlast hactive

end CallTransition

/-- What does not change during a run in a session. -/
def Session.context (s : Session) (allowance : Option Nat) (clock : Nat → Nat) : Context :=
  { registry := s.registry, allowance := allowance, clock := clock }

/-- A run of a session's code up to some machine: what the run is started with, and the transition
that leads to the machine. -/
structure Session.Execution (s : Session) where
  allowance : Option Nat
  clock : Nat → Nat
  launch : Launch
  env : Dict Value
  heap : Heap
  cost : Int
  before : Machine
  request : Option Request
  machine : Machine
  transition : Transition (s.context allowance clock) launch
    { heap := heap, env := env, cost := cost }
    before request (.ok () machine)

/-- What does not change during the run. -/
def Session.Execution.context {s : Session} (x : s.Execution) : Context :=
  s.context x.allowance x.clock

/-- **A contract call leaves the environment as it was.** The call is made in any state of a run, in
which other contracts may be active. No host function writes the environment, and none of the
contract calls that belong to the call is given a system variable. When the call returns, every name
is bound as before it; when it fails, every name is bound so once the contracts that the call has
left active are restored. -/
theorem callContract_env_kept {s : Session} (hs : s.Reachable) (hquiet : s.registry.Quiet)
    {allowance : Option Nat} {clock : Nat → Nat} {m₀ : Machine} (hm₀ : m₀.Clean)
    {name names : String} {values : List Value} {via : Option Extension}
    (hgiven : ∀ m q m', CallTransition (s.context allowance clock) name names values via m₀ m
      (some q) (.ok () m') → ∀ key, Name.isSystem key = true → q.params.get? key = none)
    {m : Machine} {q : Option Request} {r : EStateM.Result Stop Machine Unit}
    (h : CallTransition (s.context allowance clock) name names values via m₀ m q r) :
    (∀ m', r = .ok () m' → m'.calls.length ≤ m₀.calls.length →
      m'.calls = m₀.calls ∧ ∀ key, m'.env.get? key = m₀.env.get? key) ∧
    (∀ f m', r = .error (.fault f) m' → ∃ inside outside, m'.frames = inside ++ outside ∧
      outside.filterMap Frame.call? = m₀.calls ∧ ∀ line key,
        (s.registry.unwind inside line (.of f) m').2.env.get? key = m₀.env.get? key) := by
  obtain ⟨-, above, hcalls, hrestored⟩ := h.restored hs.clean hquiet hm₀ hgiven
  refine ⟨fun m' hr hover => ?_, fun f m' hr => ?_⟩
  · subst hr
    rw [left] at hcalls hrestored
    obtain rfl : above = [] := by
      rw [hcalls, List.length_append] at hover
      exact List.length_eq_zero_iff.1 (by omega)
    exact ⟨hcalls, hrestored⟩
  · subst hr
    obtain ⟨inside, outside, hframes, hinside, houtside⟩ := List.filterMap_eq_append_iff.1 hcalls
    refine ⟨inside, outside, hframes, houtside, fun line key => ?_⟩
    rw [unwind_env, show m'.frames = inside ++ outside from hframes, List.take_left, hinside]
    exact hrestored key

/-! ### A call below another one -/

namespace CallTransition

variable {c : Context} {name names : String} {values : List Value} {via : Option Extension}
  {m₀ : Machine}

/-- Whether no more contracts are active than some number. -/
def doneAt (depth : Nat) (m : Machine) : Bool := m.calls.length ≤ depth

/-- The contracts that a call asks for pass a test that its start and its steps have been put to. -/
theorem asksOnly_sound {p : Request → Bool} {fuel : Nat} {m₁ : Machine}
    (hstart : callContract c name names values via m₀ = .ok () m₁)
    (hq : p ⟨name, Text.fields names, values⟩ = true)
    (hasks : asksOnly c (doneAt m₀.calls.length) p fuel m₁ = true)
    {m : Machine} {q : Option Request} {r : EStateM.Result Stop Machine Unit}
    (h : CallTransition c name names values via m₀ m q r) :
    q.all p = true ∧
      ∀ m', r = .ok () m' → ∃ fuel, asksOnly c (doneAt m₀.calls.length) p fuel m' = true := by
  induction h with
  | start =>
    refine ⟨hq, fun m' hm' => ⟨fuel, ?_⟩⟩
    rw [hstart] at hm'
    cases hm'
    exact hasks
  | @step m m' q _ hactive ih =>
    obtain ⟨fuel, hfuel⟩ := ih.2 m' rfl
    exact asksOnly_step hfuel (by simpa [doneAt] using hactive)

/-- Where a call returns to, if it does within some steps. -/
def returned? (c : Context) (depth : Nat) : Nat → Machine → Option Machine
  | 0, _ => none
  | fuel + 1, m =>
    if doneAt depth m then some m
    else
      match Exec.step c m with
      | .ok _ m' => returned? c depth fuel m'
      | .error _ _ => none

/-- If the check sees the call return, it returns. -/
theorem of_returned? {fuel : Nat} {m m' m'' : Machine} {q : Option Request}
    (h : CallTransition c name names values via m₀ m q (.ok () m'))
    (hback : returned? c m₀.calls.length fuel m' = some m'') :
    ∃ m q, CallTransition c name names values via m₀ m q (.ok () m'') ∧
      m''.calls.length ≤ m₀.calls.length := by
  induction fuel generalizing m m' q with
  | zero => cases hback
  | succ fuel ih =>
    rw [returned?] at hback
    split at hback
    · rename_i hover
      cases hback
      exact ⟨m, q, h, by simpa [doneAt] using hover⟩
    · rename_i hactive
      have hnext := h.step (by simpa [doneAt] using hactive)
      split at hback
      · rename_i m₁ hstep
        rw [hstep] at hnext
        exact ih hnext hback
      · cases hback

/-- Whether a call returns within some steps and all contracts that it asks for pass a test. -/
def returnsAsking (c : Context) (name names : String) (values : List Value) (via : Option Extension)
    (m₀ : Machine) (p : Request → Bool) (fuel : Nat) : Bool :=
  p ⟨name, Text.fields names, values⟩ &&
    match callContract c name names values via m₀ with
    | .ok _ m₁ => asksOnly c (doneAt m₀.calls.length) p fuel m₁ &&
        (returned? c m₀.calls.length fuel m₁).isSome
    | .error _ _ => false

/-- If the check sees the call return and only ask for such contracts, it does. -/
theorem returnsAsking_sound {p : Request → Bool} {fuel : Nat}
    (h : returnsAsking c name names values via m₀ p fuel = true) :
    (∀ m q m', CallTransition c name names values via m₀ m (some q) (.ok () m') → p q = true) ∧
      ∃ m q m', CallTransition c name names values via m₀ m q (.ok () m') ∧
        m'.calls.length ≤ m₀.calls.length := by
  rw [returnsAsking, Bool.and_eq_true] at h
  obtain ⟨hq, h⟩ := h
  split at h
  · rename_i m₁ hstart
    rw [Bool.and_eq_true] at h
    refine ⟨fun m q m' htrans => (asksOnly_sound hstart hq h.1 htrans).1, ?_⟩
    obtain ⟨m'', hback⟩ := Option.isSome_iff_exists.1 h.2
    have hbegin : CallTransition c name names values via m₀ m₀ _ _ := .start
    rw [hstart] at hbegin
    obtain ⟨m, q, hend, hover⟩ := hbegin.of_returned? hback
    exact ⟨m, q, m'', hend, hover⟩
  · cases h

end CallTransition

/-- A machine in which a contract is active that has bound a variable of its own. -/
def callingMachine : Machine :=
  { heap := .empty
    env := .ofList [("this_contract", .str "@1C"), ("parent", .str ""), ("loop_@1C", .bool true),
      ("result", .int 1)]
    frames := [.contract { name := "@1C", sections := [], this := none, parent := none
                           saved := [("n", .nil)], via := none }]
    cost := 10000 }

/-- A call that makes a call itself, below a contract that is active: it returns, and every name is
bound as before. -/
theorem nested_call_env_kept :
    Launch.nestedCalls.Reachable ∧ Launch.nestedCalls.registry.Quiet ∧ callingMachine.Clean ∧
      (∀ m q m', CallTransition (Launch.nestedCalls.context none fun _ => 0) "@1B" "" [] none
        callingMachine m (some q) (.ok () m') →
          ∀ key, Name.isSystem key = true → q.params.get? key = none) ∧
      ∃ m q m', CallTransition (Launch.nestedCalls.context none fun _ => 0) "@1B" "" [] none
        callingMachine m q (.ok () m') ∧ m'.calls = callingMachine.calls ∧
          ∀ key, m'.env.get? key = callingMachine.env.get? key := by
  have hreachable : Launch.nestedCalls.Reachable := Launch.reachable_callingSession _
  have hquiet : Launch.nestedCalls.registry.Quiet :=
    .of_offersContractsOnly Launch.nestedCalls_offersContractsOnly
  have hclean : callingMachine.Clean := by
    intro f hf
    rw [List.mem_singleton.1 hf]
    intro p hp
    rw [List.mem_singleton.1 hp]
    decide
  obtain ⟨hasks, m, q, m', hend, hover⟩ := CallTransition.returnsAsking_sound
    (show CallTransition.returnsAsking (Launch.nestedCalls.context none fun _ => 0) "@1B" "" [] none
      callingMachine (·.names.isEmpty) 100 = true by decide +kernel)
  -- The call passes no parameters, so none with a name of the node.
  have hgiven : ∀ m q m', CallTransition (Launch.nestedCalls.context none fun _ => 0) "@1B" "" []
      none callingMachine m (some q) (.ok () m') →
        ∀ key, Name.isSystem key = true → q.params.get? key = none := by
    intro m q m' h key _
    have hnames := hasks m q m' h
    rw [List.isEmpty_iff] at hnames
    rw [Request.params, hnames]
    exact Dict.get?_empty key
  have hkept := callContract_env_kept hreachable hquiet hclean hgiven hend
  exact ⟨hreachable, hquiet, hclean, hgiven, m, q, m', hend, hkept.1 m' rfl hover⟩

end Covenant
