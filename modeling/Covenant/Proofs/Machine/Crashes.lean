import Covenant.Proofs.Machine.Acyclic
import Covenant.Proofs.Machine.Metering
import Covenant.Proofs.Registry.Linked

/-!
# What a run breaks off at

A run that breaks off reports a runtime panic, and its frames are left as they are. The machine
looks up blocks by their numbers, binds arguments to variables by their positions, cuts the operand
stack to a height that it has noted before, and writes into an array or map while it looks at what
it held. What a host's registry refers to is there, so that two things are left at which a run can
break off (`Machine.Breaks`): a section of a contract ends with fewer operands than were there when
it began, or a value is assigned to an element, in place of one that holds the array or map itself.
The latter takes a value that holds itself (`Machine.Has.not_meetsHolder`).

If neither happens and no host function panics, a run never reports a panic, whatever it is given
(`Launch.run_never_panics`). Both can happen: an assignment to more variables than there are values
takes the operands of the caller (`Launch.assignment_breaks_section`).
-/

namespace Covenant

open Exec

/-- Whether the next step breaks off: it ends a section, and operands of the section's caller are
gone, or it replaces a value that holds the container by another one. -/
inductive Machine.Breaks (c : Context) (m : Machine) : Prop
  | section : m.FallsShort c → Breaks c m
  | holder : nextOp? c m = some .setIndex → m.MeetsHolder c → Breaks c m

/-- Where no value holds itself, no value that is replaced holds the container. -/
theorem Machine.Has.not_meetsHolder {c : Context} {m : Machine} (hm : m.Has Value.Grounded) :
    ¬ m.MeetsHolder c := by
  rintro ⟨s, container, key, value, p, hstack, hplace, hholder⟩
  obtain ⟨rfl, -⟩ := Heap.place_eq_ok hplace
  have hcontainer : p.container.Grounded m.heap := hm.stack _ (hstack ▸ by simp)
  rw [hcontainer.not_replacesHolder] at hholder
  cases hholder

/-- Whether the sections that are still to run are there. -/
def Frame.Linked (r : Registry) : Frame → Prop
  | .block _ => True
  | .contract k => ∀ s ∈ k.sections, s < r.arena.size

/-- Whether the sections of all active contracts are there. -/
def Machine.Linked (r : Registry) (m : Machine) : Prop := ∀ f ∈ m.outline, f.Linked r

/-! ### Sections -/

section

variable {c : Context} {l : Launch} {m₀ m m' : Machine} {q : Option Request}
  {r : EStateM.Result Stop Machine Unit}

theorem Frame.Linked.of_call (hknown : c.registry.Known) {k : ContractCall} {id : BlockId}
    (hsections : k.sections = sectionsOf (c.block id)) (hc : (c.block id).contract?.isSome) :
    (Frame.contract k).Linked c.registry :=
  fun _ hs => hknown.lt_of_section hc (hsections ▸ hs)

/-- The frames behind an instruction are linked, as the code refers to what is there. -/
theorem Shift.linked (hknown : c.registry.Known) {op : Op} {a : Activation} {rest fs : List Frame}
    (h : Shift c op a rest fs) (hframes : ∀ f ∈ Frame.block a :: rest, f.Linked c.registry) :
    ∀ f ∈ fs, f.Linked c.registry := by
  obtain ⟨-, hrest⟩ := List.forall_mem_cons.1 hframes
  cases h with
  | stay => exact hframes
  | leave => exact hrest
  | aim => exact List.forall_mem_cons.2 ⟨trivial, hrest⟩
  | enter => exact List.forall_mem_cons.2 ⟨trivial, hframes⟩
  | call k id hsections _ _ hc =>
    exact List.forall_mem_cons.2 ⟨.of_call hknown hsections hc, hframes⟩

/-- A step calls contracts only whose sections are there. -/
theorem Turn.linked (hknown : c.registry.Known) (h : Turn c m m') (hm : m.Linked c.registry) :
    m'.Linked c.registry := by
  rw [Machine.Linked, Machine.outline] at hm
  cases h with
  | instruction a rest i hframes _ _ hshift =>
    rw [hframes] at hm
    exact hshift.linked hknown hm
  | leave a rest hframes _ houtline =>
    rw [hframes] at hm
    rw [Machine.Linked, houtline]
    exact (List.forall_mem_cons.1 hm).2
  | «section» k rest s ss b hframes hsections _ _ houtline =>
    rw [hframes] at hm
    obtain ⟨hk, hrest⟩ := List.forall_mem_cons.1 hm
    rw [Machine.Linked, houtline]
    refine List.forall_mem_cons.2 ⟨trivial, List.forall_mem_cons.2 ⟨fun s' hs' => ?_, hrest⟩⟩
    exact hk s' (hsections ▸ List.mem_cons_of_mem _ hs')
  | finish k rest hframes _ houtline =>
    rw [hframes] at hm
    rw [Machine.Linked, houtline]
    exact (List.forall_mem_cons.1 hm).2

/-- So are those that a run starts with. -/
theorem Launch.start_linked (hknown : c.registry.Known) (hm : m.Linked c.registry)
    (h : l.start c m = .ok () m') : m'.Linked c.registry := by
  cases l with
  | func id params =>
    obtain ⟨b, -, -, houtline⟩ := outline_start (show Exec.start c id params .entry m = _ from h)
    rw [Machine.Linked, houtline]
    exact List.forall_mem_cons.2 ⟨trivial, hm⟩
  | contract state name params =>
    obtain ⟨k, id, hsections, -, houtline, -, hc⟩ := outline_callContract h
    rw [Machine.Linked, houtline]
    exact List.forall_mem_cons.2 ⟨.of_call hknown hsections hc, hm⟩

/-- The sections of the contracts that are active in a run are there. -/
theorem Transition.linked (hknown : c.registry.Known) (hm₀ : m₀.Linked c.registry)
    (h : Transition c l m₀ m q r) : ∀ m', r = .ok () m' → m'.Linked c.registry := by
  induction h with
  | start => exact fun m' hm' => Launch.start_linked hknown hm₀ hm'
  | @step m m' q _ hframes ih =>
    exact fun m'' hm'' => (step_turn hm'' hframes).linked hknown (ih m' rfl)

/-! ### Steps -/

/-- Nothing is said of values, and something explains that a run breaks off. -/
def Watch.crashes (c : Context) (p : Prop) : Watch where
  context := c
  values _ _ := True
  crash := p

/-- A context whose names and blocks are there, and whose host functions do not panic. -/
structure Context.Intact (c : Context) : Prop where
  known : c.registry.Known
  linked : c.registry.Linked
  fits : ∀ id, (c.block id).Fits
  hosts : ∀ e, c.registry.Offers e → ¬ e.Panics

theorem Context.Intact.startable (hc : c.Intact) {id : BlockId} (hid : id < c.registry.arena.size) :
    c.registry.Startable id := ⟨hid, hc.fits id⟩

theorem Context.Intact.holds (hc : c.Intact) (p : Prop) : (Watch.crashes c p).Holds where
  lasting := lasting_true
  keeps _ _ _ _ _ _ _ _ := ⟨fun _ _ => trivial, fun _ _ _ => trivial, fun _ _ _ _ => trivial⟩
  panics e he hpanics := absurd hpanics (hc.hosts e he)
  contracts _ _ hname hsize := absurd (hc.linked.lt_of_qualified hname) (Nat.not_lt.2 hsize)
  writes _ _ _ _ _ _ _ _ := trivial

/-- A machine that is linked crashes only where it breaks one of the rules. -/
theorem Machine.Linked.steady (hc : c.Intact) (hm : m.Linked c.registry) :
    m.Steady (Watch.crashes c (m.Breaks c)) where
  has := .of_true m _
  room := Nat.zero_le _
  base _ _ _ _ _ := Nat.zero_le _
  operands _ _ := Nat.zero_le _
  writes _ _ _ _ _ _ _ _ _ _ _ := trivial
  assigns _ _ _ _ _ _ := trivial
  holders hop hholder := .holder hop hholder
  starts op id hop hid hstart := by
    obtain ⟨a, rest, i, -, -, hcode, rfl⟩ := nextOp?_eq_some hop
    exact absurd (hc.startable (hc.known.lt_of_starts (Array.mem_of_getElem? hcode) hid)) hstart
  sections k rest s ss hframes hsections hstart := by
    have hk : (Frame.contract k).Linked c.registry := by
      refine hm _ ?_
      rw [Machine.outline, hframes]
      exact List.mem_cons_self ..
    exact absurd (hc.startable (hk s (hsections ▸ List.mem_cons_self ..))) hstart
  ends hshort := .section hshort

/-- **A step breaks off only where a section falls short or a value holds its container.** -/
theorem Exec.step_breaks (hc : c.Intact) (hm : m.Linked c.registry) {e : Stop}
    (h : Exec.step c m = .error e m') (he : e.IsPanic) : m.Breaks c := by
  obtain ⟨m₁, -, -, htame⟩ := step_tame (hc.holds (m.Breaks c)) (hm.steady hc)
  rw [show (Watch.crashes c (m.Breaks c)).context = c from rfl, h] at htame
  exact htame he

/-- A start does not break off if the function that is run is there. -/
theorem Launch.start_not_panic (hc : c.Intact)
    (hl : ∀ id params, l = func id params → id < c.registry.arena.size) {e : Stop}
    (h : l.start c m = .error e m') : ¬ e.IsPanic := by
  have hready : m.Ready (Watch.crashes c False) 0 := ⟨.of_true m _, Nat.zero_le _⟩
  obtain ⟨-, htame⟩ := l.start_tame (hc.holds False) hready (fun _ _ => trivial)
    fun id params heq hstart => hstart (hc.startable (hl id params heq))
  rw [show (Watch.crashes c False).context = c from rfl, h] at htame
  exact htame

/-- The transition of a run that breaks off is made by a machine that breaks. -/
theorem Transition.breaks (hc : c.Intact)
    (hl : ∀ id params, l = .func id params → id < c.registry.arena.size)
    (hm₀ : m₀.Linked c.registry) {e : Stop} (h : Transition c l m₀ m q (.error e m'))
    (he : e.IsPanic) :
    ∃ m₁ q, Transition c l m₀ m₁ q (.ok () m) ∧ m.Breaks c := by
  generalize hr : (EStateM.Result.error e m' : EStateM.Result Stop Machine Unit) = r at h
  cases h with
  | start => exact absurd he (Launch.start_not_panic hc hl hr.symm)
  | @step m₁ _ q₁ htrans _ =>
    exact ⟨m₁, q₁, htrans, step_breaks hc (htrans.linked hc.known hm₀ m rfl) hr.symm he⟩

/-! ### Runs -/

/-- A run that breaks off comes to a machine that breaks. -/
theorem Concludes.breaks (hc : c.Intact)
    (hl : ∀ id params, l = .func id params → id < c.registry.arena.size)
    (hm₀ : m₀.Linked c.registry) {e : Stop} (h : Concludes c l m₀ (.error e m')) (he : e.IsPanic) :
    ∃ m₁ q m, Transition c l m₀ m₁ q (.ok () m) ∧ m.Breaks c := by
  cases h with
  | late => exact absurd he nofun
  | @fails m _ _ _ htrans =>
    obtain ⟨m₁, q, hbefore, hbreaks⟩ := htrans.breaks hc hl hm₀ he
    exact ⟨m₁, q, m, hbefore, hbreaks⟩

end

theorem Run.gives_budget (r : Registry) (env : Dict Value) (h : Heap) :
    Gives (fun _ => True) (budget r env h) := by
  unfold budget
  split
  · exact (Value.gives_toInt h _).map fun _ _ => trivial
  · trivial

/-- The time limit is read without a crash. -/
theorem Run.gives_allowance (env : Dict Value) (h : Heap) :
    Gives (fun _ => True) (allowance env h) := by
  unfold allowance
  split
  · split
    · exact (Value.gives_toInt h _).map fun _ _ => trivial
    · trivial
  · trivial

/-- The time that a run may take does not matter. -/
theorem Machine.Breaks.of_registry {m : Machine} (c c' : Context)
    (hregistry : c'.registry = c.registry) (h : m.Breaks c) : m.Breaks c' := by
  obtain ⟨_, _, _⟩ := c
  obtain ⟨_, _, _⟩ := c'
  cases hregistry
  cases h with
  | «section» hshort => exact .section hshort
  | holder hop hholder => exact .holder hop hholder

/-- **A run never reports a panic**, if no host function panics, no section of a contract ends with
fewer operands than were there when it began, no value is assigned to an element in place of one
that holds the container, and the counter for the cost does not overflow. -/
theorem Launch.run_never_panics {s : Session} (hs : s.Reachable)
    (hhosts : ∀ e, s.registry.Offers e → ¬ e.Panics) {l : Launch}
    (hl : ∀ id params, l = func id params → id < s.registry.arena.size)
    {env : Dict Value} {h : Heap} {clock : Nat → Nat}
    (hfree : ∀ m q m', l.Makes s.registry env h clock m q (.ok () m') →
      ¬ m'.Breaks (s.context none clock))
    (hcounter : l.overflows s.registry env h clock = false)
    {e : Error} (hrun : (l.run s.registry env h clock).result = .error e) :
    e.fault ≠ .runtimePanic := by
  have hbudget := Run.gives_budget s.registry env h
  have hallowance := Run.gives_allowance env h
  unfold run Run.execute at hrun
  cases hcost : Run.budget s.registry env h with
  | error f =>
    rw [hcost] at hrun hbudget
    cases hrun
    exact hbudget
  | ok cost =>
  cases hms : Run.allowance env h with
  | error f =>
    rw [hcost, hms] at hrun
    rw [hms] at hallowance
    cases hrun
    exact hallowance
  | ok allowance =>
  rw [hcost, hms] at hrun
  have hintact : (s.context allowance clock).Intact := ⟨hs.known, hs.linked, hs.fits, hhosts⟩
  have hconcludes := l.concludes (s.context allowance clock) { heap := h, env := env, cost := cost }
    (Run.fuel cost)
  -- A run that breaks off does so in a step, and only the two excluded ones do that.
  have hbreaks : ∀ {stop : Stop} {m' : Machine}, Concludes (s.context allowance clock) l
      { heap := h, env := env, cost := cost } (.error stop m') → ¬ stop.IsPanic := by
    intro stop m' hstop hpanic
    have hlinked : Machine.Linked s.registry { heap := h, env := env, cost := cost } :=
      fun f hf => absurd hf List.not_mem_nil
    obtain ⟨m₁, q, m, htrans, hbreaks⟩ := hstop.breaks hintact hl hlinked hpanic
    exact hfree m₁ q m ⟨cost, allowance, hcost, hms, htrans⟩
      (hbreaks.of_registry (s.context allowance clock) (s.context none clock) rfl)
  dsimp only [EStateM.run] at hrun
  split at hrun
  · cases hrun
  · rename_i f m' hend
    cases hrun
    rw [Registry.fault_unwind]
    have hnot : ¬ (Stop.fault f).IsPanic := hbreaks (hend ▸ hconcludes)
    exact hnot
  · rename_i m' hend
    have hnot : ¬ Stop.crash.IsPanic := hbreaks (hend ▸ hconcludes)
    exact absurd trivial hnot
  · rename_i m' hend
    rw [overflows, ready, hcost, hms] at hcounter
    dsimp only at hcounter
    rw [hend] at hcounter
    cases hcounter

/-! ### Two contracts -/

/-- Whether the next step breaks off. -/
def Machine.breaks (c : Context) (m : Machine) : Bool :=
  (match m.frames with
    | .block a :: _ => (leaving? c m).isSome && a.role = .section && m.stack.size < a.base
    | _ => false) ||
  match nextOp? c m, m.stack.toList.reverse with
    | some .setIndex, value :: key :: container :: _ =>
      match m.heap.place c.limits container key value with
      | .ok p => m.heap.replacesHolder p container
      | .error _ => false
    | _, _ => false

/-- The check finds every step that breaks a rule. -/
theorem Machine.Breaks.check {c : Context} {m : Machine} (h : m.Breaks c) : m.breaks c = true := by
  rw [breaks, Bool.or_eq_true]
  cases h with
  | «section» hshort =>
    obtain ⟨a, rest, status, hframes, hleaving, hrole, hsize⟩ := hshort
    refine .inl ?_
    simp only [hframes, hleaving, hrole, hsize, Option.isSome_some, decide_true, Bool.and_self]
  | holder hop hholder =>
    obtain ⟨s, container, key, value, p, hstack, hplace, hreplaces⟩ := hholder
    have hreverse : m.stack.toList.reverse = value :: key :: container :: s.reverse := by
      rw [hstack]
      simp
    refine .inr ?_
    simp only [hop, hreverse, hplace, hreplaces]

theorem Machine.Breaks.frames_ne_nil {c : Context} {m : Machine} (h : m.Breaks c) :
    m.frames ≠ [] := by
  cases h with
  | «section» hshort =>
    obtain ⟨a, rest, _, hframes, -⟩ := hshort
    exact hframes ▸ List.cons_ne_nil _ _
  | holder hop => exact frames_ne_nil_of_nextOp? hop

namespace Launch

/-- Extensions that only call contracts do not panic. -/
theorem not_panics_of_offersContractsOnly {r : Registry} (h : r.offersContractsOnly = true) :
    ∀ e, r.Offers e → ¬ e.Panics := by
  rintro e he ⟨run, -, -, hrun, -⟩
  exact absurd hrun (e.behaviour_ne_host (r.callsContract_of_offers h he) run)

/-- Whether all machines of a run in an environment pass a test while something is active. -/
def alwaysIn (l : Launch) (r : Registry) (env : Dict Value) (h : Heap) (clock : Nat → Nat)
    (p : Machine → Bool) (fuel : Nat) : Bool :=
  match Run.budget r env h, Run.allowance env h with
  | .ok cost, .ok allowance =>
    l.always { registry := r, allowance := allowance, clock := clock } p fuel
      { heap := h, env := env, cost := cost }
  | _, _ => true

theorem alwaysIn_sound {l : Launch} {r : Registry} {env : Dict Value} {h : Heap} {clock : Nat → Nat}
    {p : Machine → Bool} {fuel : Nat} (halways : l.alwaysIn r env h clock p fuel = true)
    {m m' : Machine} {q : Option Request} (hmakes : l.Makes r env h clock m q (.ok () m'))
    (hframes : m'.frames ≠ []) : p m' = true := by
  obtain ⟨cost, allowance, hcost, hallowance, htrans⟩ := hmakes
  rw [alwaysIn, hcost, hallowance] at halways
  exact always_sound halways htrans hframes

/-- A contract that is called while an operand waits, and then a division by zero. -/
def dividesByZero : Session := callingSession
  ("contract X \x7b action \x7b $m = \x7b\"a\": 1\x7d\n" ++
    " $m[\"a\"] = 2\n $result = $m[\"a\"] \x7d \x7d\n" ++
    "func main int \x7b return 1 / (X() - 2) \x7d")

/-- A run that comes to a section and to an assignment to an element fails, but does not panic. -/
theorem dividesByZero_not_panic : ∃ e,
    ((func 3 []).run dividesByZero.registry .empty .empty fun _ => 0).result = .error e ∧
      e.fault ≠ .runtimePanic := by
  have hreachable : dividesByZero.Reachable := reachable_callingSession _
  obtain ⟨honly, hsize, hcounter, hchecks, hfails⟩ : dividesByZero.registry.offersContractsOnly
    = true ∧
      3 < dividesByZero.registry.arena.size ∧
      (func 3 []).overflows dividesByZero.registry .empty .empty (fun _ => 0) = false ∧
      (func 3 []).alwaysIn dividesByZero.registry .empty .empty (fun _ => 0)
        (fun m => !m.breaks (dividesByZero.context none fun _ => 0)) 60 = true ∧
      ((func 3 []).run dividesByZero.registry .empty .empty fun _ => 0).result.isOk = false := by
    simp only [dividesByZero, callingSession, Session.perform_compile, String.toList_append,
      String.reduceToList]
    decide +kernel
  have hhosts : ∀ e, dividesByZero.registry.Offers e → ¬ e.Panics :=
    not_panics_of_offersContractsOnly honly
  have hid : ∀ id params, func 3 [] = func id params → id < dividesByZero.registry.arena.size := by
    intro id params heq
    cases heq
    exact hsize
  -- The check of every state of the run refutes that one of them breaks.
  have hfree : ∀ m q m', (func 3 []).Makes dividesByZero.registry .empty .empty (fun _ => 0) m q
      (.ok () m') → ¬ m'.Breaks (dividesByZero.context none fun _ => 0) := by
    intro m q m' hmakes hbreaks
    have hnot := alwaysIn_sound hchecks hmakes hbreaks.frames_ne_nil
    rw [hbreaks.check] at hnot
    cases hnot
  cases hrun : ((func 3 []).run dividesByZero.registry .empty .empty fun _ => 0).result with
  | ok vs =>
    rw [hrun] at hfails
    cases hfails
  | error e => exact ⟨e, rfl, run_never_panics hreachable hhosts hid hfree hcounter hrun⟩

/-- A contract that assigns one value to two variables, called while an operand waits. -/
def breaksSection : Session := callingSession
  ("contract X \x7b action \x7b var a b int\n a, b = 1 \x7d \x7d\n" ++
    "func main int \x7b return 1 + X() \x7d")

/-- **A program can make a run break off**: an assignment to two variables with one value takes the
operand that waits below the section as the other one, and the section ends below its base. -/
theorem assignment_breaks_section :
    breaksSection.Reachable ∧ (∀ e, breaksSection.registry.Offers e → ¬ e.Panics) ∧
      3 < breaksSection.registry.arena.size ∧ ∃ e,
        ((func 3 []).run breaksSection.registry .empty .empty fun _ => 0).result = .error e ∧
          e.fault = .runtimePanic := by
  obtain ⟨honly, hsize, hfails⟩ : breaksSection.registry.offersContractsOnly = true ∧
      3 < breaksSection.registry.arena.size ∧
      ((func 3 []).run breaksSection.registry .empty .empty fun _ => 0).failsWith .runtimePanic
        = true := by
    simp only [breaksSection, callingSession, Session.perform_compile, String.toList_append,
      String.reduceToList]
    decide +kernel
  exact ⟨reachable_callingSession _, not_panics_of_offersContractsOnly honly, hsize,
    Outcome.error_of_failsWith hfails⟩

end Launch

end Covenant
