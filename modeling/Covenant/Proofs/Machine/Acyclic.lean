import Covenant.Proofs.Heap.Stores
import Covenant.Proofs.Machine.ContractCalls
import Covenant.Proofs.Machine.Steps

/-!
# Values that do not hold themselves

Arrays and maps are shared, and a program could put one into itself. Assigning to an element refuses
a value that holds the container. Collecting the arguments of a chained segment does not look: if
the operand below the arguments is a map, the arguments go into that map, and if one of them holds
it, the map holds itself from then on (`Launch.segment_ties_map_to_itself`). This is the only way:
in a run in which it does not happen, no value on the operand stack, in a variable or in the
environment holds itself, and whatever follows references comes to an end
(`Launch.no_value_holds_itself`).

The invariant is that all values are grounded. A step keeps it because its changes do: the machine
makes values of grounded ones, and storing a value into a container that it does not hold ties no
knot.
-/

namespace Covenant

open Exec

/-- Whether a value, and all that is inside it, does not hold itself, and what reads the value
through the heap follows no more references than there are cells. -/
structure Value.Acyclic (h : Heap) (v : Value) : Prop where
  inside : ∀ u : Value, Relation.ReflTransGen h.Inside u v → ¬ Relation.TransGen h.Inside u u
  size : ∀ k, h.fuel ≤ k → v.sizeWith h k = v.memSize h
  reaches : ∀ k, h.fuel ≤ k → ∀ r, v.reachesWith h r k = v.reachesWith h r h.fuel
  text : ∀ k, h.fuel ≤ k → v.textWith h k = v.text h
  eq : ∀ k, h.fuel ≤ k → ∀ w, v.eqWith h k w = v.eq h w

/-- Grounded values do not hold themselves. -/
theorem Value.Grounded.acyclic {h : Heap} {v : Value} (hv : v.Grounded h) : v.Acyclic h where
  inside _ hu := (hv.of_reached hu).not_cyclic
  size _ hk := hv.stable (fun k _ hv => sizeWith_of_ref?_eq_none hv k) sizeWith_congr hk
  reaches _ hk r := hv.stable (F := fun k v => v.reachesWith h r k)
    (fun k _ hv => reachesWith_of_ref?_eq_none hv r k) (reachesWith_congr r) hk
  text _ hk := hv.stable (fun k _ hv => textWith_of_ref?_eq_none hv k) textWith_congr hk
  eq _ hk w := congrFun (hv.stable (fun k _ hv => eqWith_of_ref?_eq_none hv k) eqWith_congr hk) w

namespace Machine

/-- The values on the operand stack, in variables and in the environment. -/
def values (m : Machine) : List Value :=
  m.stack.toList ++ m.frames.flatMap Frame.values ++ m.env.values

/-- Where nothing is wrong with `nil`, a machine has a property if all its values have it. -/
theorem has_iff_of_nil {P : Heap → Value → Prop} {m : Machine} (hnil : P m.heap .nil) :
    m.Has P ↔ ∀ v ∈ m.values, P m.heap v := by
  simp only [values, List.forall_mem_append, List.mem_flatMap]
  constructor
  · rintro ⟨-, hstack, hframes, henv⟩
    exact ⟨⟨hstack, fun v ⟨f, hf, hv⟩ => hframes f hf v hv⟩, Dict.all_iff_forall_values.1 henv⟩
  · rintro ⟨⟨hstack, hframes⟩, henv⟩
    exact ⟨hnil, hstack, fun f hf v hv => hframes v ⟨f, hf, hv⟩, Dict.all_iff_forall_values.2 henv⟩

theorem has_iff {m : Machine} : m.Has Value.Grounded ↔ ∀ v ∈ m.values, v.Grounded m.heap :=
  has_iff_of_nil (.of_ref?_eq_none rfl)

/-- Whether the next instruction puts the arguments of a chained segment into a map that one of them
holds. -/
def TiesKnot (c : Context) (m : Machine) : Prop :=
  ∃ name s r args, nextOp? c m = some (.funcName name args.length) ∧
    m.stack.toList = s ++ .map r :: args ∧ ∃ v ∈ args, v.holds m.heap (.map r) = true

end Machine

/-- All values are grounded, and a value that is written does not hold the container. -/
def Watch.grounded (c : Context) : Watch where
  context := c
  values := Value.Grounded
  write m p value _ := p.container.Grounded m.heap ∧ value.Grounded m.heap ∧
    ¬ Relation.ReflTransGen m.heap.Inside p.container value

section

variable {c : Context} {l : Launch} {m₀ m : Machine} {q : Option Request}
  {r : EStateM.Result Stop Machine Unit}

theorem Watch.grounded_holds (hhosts : ∀ e, c.registry.Offers e → e.Keeps Value.Grounded) :
    (Watch.grounded c).Holds where
  lasting := Value.Grounded.lasting
  keeps := hhosts
  panics _ _ _ := trivial
  contracts _ _ _ _ := trivial
  writes _ _ _ _ _ hwrite _ hv := hwrite.1.store hwrite.2.1 hwrite.2.2 hv

/-- What an instruction writes is grounded, and so is the container. If no knot is tied, the value
does not hold the container. -/
theorem Op.Writes.grounded (hm : m.Has Value.Grounded) {op : Op} (hop : nextOp? c m = some op)
    (hfree : ¬ m.TiesKnot c) {h : Heap} {p : Place} {value : Value} {mem : Int}
    (hwrites : op.Writes c m h p value mem) : p.container.Grounded h ∧ value.Grounded h ∧
      ¬ Relation.ReflTransGen h.Inside p.container value := by
  cases hwrites with
  | @index s container key value p hstack hplace =>
    obtain ⟨rfl, hholds⟩ := Heap.place_eq_ok hplace
    have hstack : ∀ v ∈ s ++ [p.container, key, value], v.Grounded m.heap := hstack ▸ hm.stack
    have hcontainer := hstack p.container (by simp)
    have hvalue := hstack value (by simp)
    refine ⟨hcontainer, hvalue, fun hreach => ?_⟩
    rw [(hvalue.holds_iff hcontainer.leads (by cases p <;> exact fun h => by cases h)).2
      hreach] at hholds
    cases hholds
  | @segment s args r name hstack =>
    have hall : ∀ v ∈ s ++ .map r :: args, v.Grounded m.heap := hstack ▸ hm.stack
    have hcontainer := hall (.map r) (by simp)
    have hargs : ∀ v ∈ args, v.Grounded m.heap := fun v hv =>
      hall v (List.mem_append_right _ (List.mem_cons_of_mem _ hv))
    have hgrown : m.heap.Extends (m.heap.newArray args.toArray).2 := .push _ _
    refine ⟨hcontainer.grow hgrown, Value.Grounded.lasting.array (.of_ref?_eq_none rfl) hargs,
      fun hreach => ?_⟩
    -- the map is not the new array, so it lies inside one of the arguments
    rcases Relation.ReflTransGen.cases_tail hreach with heq | ⟨v, hreach, hv⟩
    · cases heq
    · have hv : v ∈ args := by simpa only [Heap.Inside, Heap.inside_newArray] using hv
      refine hfree ⟨name, s, r, args, hop, hstack, v, hv, ?_⟩
      exact ((hargs v hv).holds_iff hcontainer.leads (fun h => by cases h)).2
        ((hargs v hv).reached_of_grow hgrown hreach)

/-- A machine with grounded values that ties no knot is ready for its next step. -/
theorem Machine.Has.steady (hm : m.Has Value.Grounded) (hfree : ¬ m.TiesKnot c) :
    m.Steady (Watch.grounded c) where
  has := hm
  room := Nat.zero_le _
  base _ _ _ _ _ := Nat.zero_le _
  operands _ _ := Nat.zero_le _
  writes op h p value mem hop hwrites m₁ hheap _ _ := by
    subst hheap
    exact hwrites.grounded hm hop hfree
  assigns _ _ _ _ _ _ := trivial
  holders _ _ := trivial
  starts _ _ _ _ _ := trivial
  sections _ _ _ _ _ _ _ := trivial
  ends _ := trivial

/-- **A step keeps values grounded**, if it ties no knot. -/
theorem Machine.Has.step (hhosts : ∀ e, c.registry.Offers e → e.Keeps Value.Grounded)
    (hm : m.Has Value.Grounded) (hfree : ¬ m.TiesKnot c) :
    (left (Exec.step c m)).Has Value.Grounded := by
  obtain ⟨m₁, hlead, hfollows, -⟩ := step_tame (Watch.grounded_holds hhosts) (hm.steady hfree)
  exact hfollows.has (hlead.has hm)

/-- The values of a run stay grounded. -/
theorem Transition.grounded (hhosts : ∀ e, c.registry.Offers e → e.Keeps Value.Grounded)
    (hm₀ : m₀.Has Value.Grounded) (hl : ∀ v ∈ l.values, v.Grounded m₀.heap)
    (hfree : ∀ m q m', Transition c l m₀ m q (.ok () m') → ¬ m'.TiesKnot c)
    (h : Transition c l m₀ m q r) : (left r).Has Value.Grounded := by
  induction h with
  | start =>
    have hready : m₀.Ready (Watch.grounded c) 0 := ⟨hm₀, Nat.zero_le _⟩
    have hstart := l.start_tame (Watch.grounded_holds hhosts) hready hl fun _ _ _ _ => trivial
    exact hstart.1.has hm₀
  | step htrans _ ih => exact ih.step hhosts (hfree _ _ _ htrans)

end

/-- **No value of a run holds itself**, be it on the operand stack, in a variable or in the
environment, through whatever chain of elements: if host functions tie no knots, the run is given no
values that hold themselves, and no arguments of a chained segment are put into a map that they
hold. -/
theorem Launch.no_value_holds_itself {c : Context} {l : Launch} {m₀ : Machine}
    (hhosts : ∀ e, c.registry.Offers e → e.Keeps Value.Grounded)
    (hm₀ : ∀ v ∈ m₀.values, v.Grounded m₀.heap) (hl : ∀ v ∈ l.values, v.Grounded m₀.heap)
    (hfree : ∀ m q m', Transition c l m₀ m q (.ok () m') → ¬ m'.TiesKnot c)
    {m : Machine} {q : Option Request} {r : EStateM.Result Stop Machine Unit}
    (h : Transition c l m₀ m q r) : ∀ v ∈ (left r).values, v.Acyclic (left r).heap :=
  fun v hv => (Machine.has_iff.1 (h.grounded hhosts (Machine.has_iff.2 hm₀) hl hfree) v hv).acyclic

/-! ### Two chained calls -/

/-- Whether a machine is about to tie a knot. -/
def Machine.tiesKnot (c : Context) (m : Machine) : Bool :=
  match nextOp? c m with
  | some (.funcName _ count) =>
    match m.stack.toList.reverse.drop count with
    | .map r :: _ => (m.stack.toList.reverse.take count).any fun v => v.holds m.heap (.map r)
    | _ => false
  | _ => false

/-- The check finds every knot that is about to be tied. -/
theorem Machine.TiesKnot.check {c : Context} {m : Machine} (h : m.TiesKnot c) :
    m.tiesKnot c = true := by
  obtain ⟨name, s, r, args, hop, hstack, v, hv, hholds⟩ := h
  have hreverse : m.stack.toList.reverse = args.reverse ++ .map r :: s.reverse := by
    rw [hstack]
    simp
  have hlength : args.length = args.reverse.length := List.length_reverse.symm
  rw [tiesKnot, hop]
  simp only [hreverse, hlength, List.drop_left, List.take_left]
  exact List.any_eq_true.2 ⟨v, List.mem_reverse.2 hv, hholds⟩

/-- Whether a map has itself among the elements of an array that it binds a name to. -/
def Heap.bindsItself (h : Heap) (v : Value) (key : String) : Bool :=
  match v with
  | .map r =>
    match (h.entries r).get? key with
    | some (.array a) =>
      (h.items a).toList.any (fun w => match w with
        | .map r' => r' == r
        | _ => false)
    | _ => false
  | _ => false

/-- A value that passes the check leads to itself. -/
theorem Heap.bindsItself_sound {h : Heap} {v : Value} {key : String}
    (hv : h.bindsItself v key = true) :
    Relation.TransGen h.Inside v v := by
  unfold bindsItself at hv
  split at hv
  · rename_i r
    split at hv
    · rename_i a hget
      obtain ⟨w, hw, hself⟩ := List.any_eq_true.1 hv
      split at hself
      · rw [beq_iff_eq.1 hself] at hw
        have hmap : h.Inside (.map r) (.array a) := hw
        have harray : h.Inside (.array a) (.map r) := Dict.mem_values_of_get? hget
        exact .tail (.single hmap) harray
      · cases hself
    · cases hv
  · cases hv

namespace Launch

/-- Functions with a chained segment, and one that calls them with a map that holds an array. -/
def chainedCall : Session := callingSession
  ("func g int \x7b return 0 \x7d\n" ++
    "func f(x int).S(a map) int \x7b return a[\"k\"] + x \x7d\n" ++
    "func main int \x7b var m map\n var a array\n a[0] = 1\n m[\"k\"] = a[0]\n m[\"a\"] = a\n" ++
    "return f(g()).S(m) \x7d")

/-- A machine without values. -/
def emptyMachine : Machine := { heap := .empty, env := .empty, cost := 10000 }

theorem emptyMachine_values (h : Heap) : ∀ v ∈ emptyMachine.values, v.Grounded h := nofun

/-- Extensions that only call contracts tie no knots. -/
theorem keeps_of_offersContractsOnly {r : Registry} (h : r.offersContractsOnly = true)
    (P : Heap → Value → Prop) : ∀ e, r.Offers e → e.Keeps P :=
  fun e he run hrun => absurd hrun (e.behaviour_ne_host (r.callsContract_of_offers h he) run)

/-- What is checked of the run with a chained call. -/
theorem chainedCall_checks :
    (chainedCall.context none fun _ => 0).registry.offersContractsOnly = true ∧
      (func 3 []).always (chainedCall.context none fun _ => 0)
        (fun m => !m.tiesKnot (chainedCall.context none fun _ => 0)) 60 emptyMachine = true ∧
      ((func 3 []).machineAfter (chainedCall.context none fun _ => 0) 16 emptyMachine).any
        (fun m => m.values.any fun v => 1 < (m.heap.inside v).length) = true := by
  simp only [chainedCall, callingSession, Session.perform_compile, String.toList_append,
    String.reduceToList]
  decide +kernel

/-- The chained call puts its arguments into a map that is new. -/
theorem chainedCall_ties_none {m m' : Machine} {q : Option Request}
    (h : Transition (chainedCall.context none fun _ => 0)
      (func 3 []) emptyMachine m q (.ok () m')) :
    ¬ m'.TiesKnot (chainedCall.context none fun _ => 0) := by
  intro htie
  have hframes : m'.frames ≠ [] := by
    obtain ⟨_, _, _, _, hop, -⟩ := htie
    exact frames_ne_nil_of_nextOp? hop
  have hnot := always_sound chainedCall_checks.2.1 h hframes
  rw [htie.check] at hnot
  cases hnot

/-- A run with a chained call whose argument is a map that holds an array. -/
theorem chainedCall_ties_no_knot :
    (∃ m q m' v, Transition (chainedCall.context none fun _ => 0) (func 3 []) emptyMachine m q
      (.ok () m') ∧ v ∈ m'.values ∧ 1 < (m'.heap.inside v).length) ∧
    ∀ m q r, Transition (chainedCall.context none fun _ => 0) (func 3 []) emptyMachine m q r →
      ∀ v ∈ (left r).values, v.Acyclic (left r).heap := by
  have hhosts : ∀ e, (chainedCall.context none fun _ => 0).registry.Offers e →
      e.Keeps Value.Grounded := keeps_of_offersContractsOnly chainedCall_checks.1 _
  have hgiven : ∀ v ∈ (func 3 []).values, v.Grounded emptyMachine.heap :=
    fun v hv => absurd hv List.not_mem_nil
  refine ⟨?_, fun m q r htrans => no_value_holds_itself
    (c := chainedCall.context none fun _ => 0) hhosts
    (emptyMachine_values _) hgiven (fun _ _ _ => chainedCall_ties_none) htrans⟩
  obtain ⟨m, q, m', htrans, hvalues⟩ := machineAfter_sound chainedCall_checks.2.2
  obtain ⟨v, hv, hlength⟩ := List.any_eq_true.1 hvalues
  exact ⟨m, q, m', v, htrans, hv, of_decide_eq_true hlength⟩

/-- A chained call whose segment has an argument that pushes no value. -/
def knotted : Session := callingSession
  ("func v \x7b \x7d\nfunc g int \x7b return 0 \x7d\nfunc f(x int).S() \x7b \x7d\n" ++
    "contract X \x7b action \x7b $m = \x7b\"a\": 1\x7d\n g()\n f($m).S($m, v()) \x7d \x7d")

/-- **A program can put a map into itself**: the arguments of a chained segment go into the map that
the call before it has as its argument. -/
theorem segment_ties_map_to_itself :
    (∀ e, knotted.registry.Offers e → e.Keeps Value.Grounded) ∧
      (∀ v ∈ emptyMachine.values, v.Grounded emptyMachine.heap) ∧
      (∀ v ∈ (contract 1 "X" .empty).values, v.Grounded emptyMachine.heap) ∧
      ∃ m q m' v, Transition (knotted.context none fun _ => 0)
      (contract 1 "X" .empty) emptyMachine m q
        (.ok () m') ∧ v ∈ m'.values ∧ Relation.TransGen m'.heap.Inside v v := by
  obtain ⟨honly, hsteps⟩ : knotted.registry.offersContractsOnly = true ∧
      ((contract 1 "X" .empty).machineAfter (knotted.context none fun _ => 0) 13 emptyMachine).any
        (fun m => (m.env.get? "m").any fun v => m.heap.bindsItself v "S") = true := by
    simp only [knotted, callingSession, Session.perform_compile, String.toList_append,
      String.reduceToList]
    decide +kernel
  refine ⟨keeps_of_offersContractsOnly honly _, emptyMachine_values _,
    fun v hv => absurd hv List.not_mem_nil, ?_⟩
  obtain ⟨m, q, m', htrans, hbinds⟩ := machineAfter_sound hsteps
  obtain ⟨v, hv, hself⟩ := (Option.any_eq_true _ _).1 hbinds
  exact ⟨m, q, m', v, htrans, List.mem_append_right _ (Dict.mem_values_of_get? hv),
    Heap.bindsItself_sound hself⟩

end Launch

end Covenant
