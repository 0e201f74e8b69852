import Covenant.Proofs.Machine.Metering
import Mathlib.Data.List.Destutter

/-!
# Traces of errors

An error that stops a run is taken out through what is active (`Registry.unwind`), and the line
where a block stands is handed on until a function with a name takes it. What comes of it can be
said without the handing on: each active function with a name has one entry, with the line of the
innermost block that runs in it (`Registry.Sites`). Of neighbouring entries with one name the
innermost is kept, and an error that a contract has raised itself has no entry
(`Launch.run_traced`).
-/

namespace Covenant

/-! ### Active functions -/

/-- The running block of a frame. -/
def Frame.activation? : Frame → Option Activation
  | .block a => some a
  | .contract _ => none

/-- The entries of functions with names, for running blocks from the innermost outwards: the blocks
without names that run in a function lie above it, and the first of all is at the line. -/
inductive Registry.Sites (r : Registry) : List Activation → List TraceEntry → Prop
  | unnamed {as : List Activation} : (∀ a ∈ as, r.traceName? a.block = none) → Sites r as []
  | function {inner outer : List Activation} {f a : Activation} {name : String}
    {es : List TraceEntry} :
      (∀ b ∈ inner, r.traceName? b.block = none) → r.traceName? f.block = some name →
      (inner ++ [f]).head? = some a → Sites r outer es →
      Sites r (inner ++ f :: outer) (⟨name, r.lineAt a⟩ :: es)

namespace Registry.Sites

variable {r : Registry}

/-- Blocks around a function with a name can be grouped in one way only. -/
theorem function_inv {inner outer : List Activation} {f a : Activation} {name : String}
    {es : List TraceEntry} (h : r.Sites (inner ++ f :: outer) es)
    (hinner : ∀ b ∈ inner, r.traceName? b.block = none) (hname : r.traceName? f.block = some name)
    (hhead : (inner ++ [f]).head? = some a) :
    ∃ rest, es = ⟨name, r.lineAt a⟩ :: rest ∧ r.Sites outer rest := by
  generalize has : inner ++ f :: outer = as at h
  cases h with
  | unnamed hnone =>
    have hf := hnone f (has ▸ List.mem_append_right _ (List.mem_cons_self ..))
    rw [hname] at hf
    cases hf
  | @function inner' outer' f' a' name' rest hinner' hname' hhead' hrest =>
    -- a longer group would have the other function, which has a name, among the blocks without one
    have hnot : ∀ {g : Activation} {n : String} {l : List Activation}, r.traceName? g.block
      = some n →
        (∀ b ∈ l, r.traceName? b.block = none) → g ∉ l := by
      intro g n l hg hl hmem
      rw [hl g hmem] at hg
      cases hg
    obtain ⟨rfl, hrest'⟩ : inner = inner' ∧ f :: outer = f' :: outer' := by
      rcases List.append_eq_append_iff.1 has with ⟨mid, hmid, hright⟩ | ⟨mid, hmid, hright⟩
      · cases mid with
        | nil => exact ⟨by simpa using hmid.symm, hright⟩
        | cons b mid =>
          cases hright
          exact absurd (hmid ▸ List.mem_append_right _ (List.mem_cons_self ..)) (hnot hname hinner')
      · cases mid with
        | nil => exact ⟨by simpa using hmid, hright.symm⟩
        | cons b mid =>
          cases hright
          exact absurd (hmid ▸ List.mem_append_right _ (List.mem_cons_self ..)) (hnot hname' hinner)
    cases hrest'
    rw [hname] at hname'
    rw [hhead] at hhead'
    cases hname'
    cases hhead'
    exact ⟨rest, rfl, hrest⟩

/-- The entries are determined by the running blocks. -/
theorem unique {as : List Activation} {es es' : List TraceEntry} (h : r.Sites as es)
    (h' : r.Sites as es') : es = es' := by
  induction h generalizing es' with
  | unnamed hnone =>
    cases h' with
    | unnamed => rfl
    | function _ hname _ _ =>
      have hf := hnone _ (List.mem_append_right _ (List.mem_cons_self ..))
      rw [hname] at hf
      cases hf
  | function hinner hname hhead _ ih =>
    obtain ⟨rest, rfl, hrest⟩ := h'.function_inv hinner hname hhead
    rw [ih hrest]

end Registry.Sites

/-- Whether two entries have different names. -/
def TraceEntry.Differs (s t : TraceEntry) : Prop := s.name ≠ t.name

instance : DecidableRel TraceEntry.Differs := fun s t => inferInstanceAs
    (Decidable (s.name ≠ t.name))

namespace Error

/-- Takes an error through functions. -/
def passingAll (e : Error) (es : List TraceEntry) :
    Error := es.foldl (fun e s => e.passing s.name s.line) e

theorem passingAll_cons (e : Error) (s : TraceEntry) (es : List TraceEntry) :
    e.passingAll (s :: es) = (e.passing s.name s.line).passingAll es := rfl

/-- A structured error is reported as it is, without the places that it passes. -/
theorem passingAll_of_isStructured {e : Error} (h : e.fault.isStructured = true)
    (es : List TraceEntry) :
    e.passingAll es = e := by
  induction es with
  | nil => rfl
  | cons s es ih =>
    have hsame : e.passing s.name s.line = e := if_pos h
    rw [passingAll_cons, hsame, ih]

/-- An error that has places notes the next one unless it is the same as the last. -/
theorem passing_concat {e : Error} (h : e.fault.isStructured = false) {t : List TraceEntry}
    {last : TraceEntry} (htrace : e.trace = t ++ [last]) (s : TraceEntry) :
    e.passing s.name s.line = if last.Differs s then { e with trace := e.trace ++ [s] } else e := by
  have hlast : (e.trace.getLast?).any (·.name == s.name) = decide (¬ last.Differs s) := by
    rw [htrace, List.getLast?_concat, Option.any_some]
    simp [TraceEntry.Differs, beq_eq_decide]
  unfold passing
  rw [if_neg (Bool.eq_false_iff.1 h), hlast]
  by_cases hname : last.Differs s <;> simp [hname]

/-- Behind an entry, only changes of the name make new ones. -/
theorem passingAll_concat {e : Error} (h : e.fault.isStructured = false) {t : List TraceEntry}
    {last : TraceEntry} (htrace : e.trace = t ++ [last]) (es : List TraceEntry) :
    e.passingAll es = { e with trace := t ++ es.destutter' TraceEntry.Differs last } := by
  induction es generalizing e t last with
  | nil =>
    rw [List.destutter'_nil, ← htrace]
    rfl
  | cons s es ih =>
    rw [passingAll_cons, passing_concat h htrace]
    by_cases hname : last.Differs s
    · rw [if_pos hname, List.destutter'_cons_pos _ hname, htrace]
      rw [ih (e := { e with trace := t ++ [last] ++ [s] }) h rfl]
      simp only [List.append_assoc, List.singleton_append]
    · rw [if_neg hname, List.destutter'_cons_neg _ hname, ih h htrace]

/-- Of neighbouring entries with one name the first is kept. -/
theorem passingAll_of_nil {e : Error} (h : e.fault.isStructured = false) (htrace : e.trace = [])
    (es : List TraceEntry) :
    e.passingAll es = { e with trace := es.destutter TraceEntry.Differs } := by
  cases es with
  | nil =>
    obtain ⟨f, position, trace, line⟩ := e
    cases htrace
    rfl
  | cons s es =>
    have hfirst : e.passing s.name s.line = { e with trace := [s] } := by
      unfold passing
      rw [if_neg (Bool.eq_false_iff.1 h), htrace]
      rfl
    rw [passingAll_cons, hfirst, List.destutter_cons']
    exact passingAll_concat (e := { e with trace := [s] }) h (t := []) rfl es

end Error

namespace Registry

theorem unnamed_nil (r : Registry) : ∀ a ∈ ([] : List Activation), r.traceName? a.block = none :=
  fun _ ha => absurd ha List.not_mem_nil

/-- The line that is handed on belongs to the innermost of the blocks that have been left. -/
theorem unwind_sites (r : Registry) {inner : List Activation}
    (hinner : ∀ a ∈ inner, r.traceName? a.block = none) (fs : List Frame)
    (e : Error) (m : Machine) :
    ∃ es, r.Sites (inner ++ fs.filterMap Frame.activation?) es ∧
      (r.unwind fs ((inner.head?).map r.lineAt) e m).1 = e.passingAll es := by
  induction fs generalizing inner e m with
  | nil => exact ⟨[], .unnamed (by simpa using hinner), rfl⟩
  | cons f fs ih =>
    cases f with
    | contract k => exact ih hinner e m.giveUp
    | block a =>
      obtain ⟨first, hfirst⟩ : ∃ first, (inner ++ [a]).head? = some first := by
        cases inner <;> exact ⟨_, rfl⟩
      -- The line of an entry is that of the innermost block inside the function.
      have hline : ((inner.head?).map r.lineAt).getD (r.lineAt a) = r.lineAt first := by
        cases inner <;> cases hfirst <;> rfl
      have hcons : (Frame.block a :: fs).filterMap Frame.activation?
          = a :: fs.filterMap Frame.activation? := rfl
      rw [unwind, hline, hcons]
      cases hname : r.traceName? a.block with
      | none =>
        -- A block without a name of its own belongs to the entry of the function around it.
        have hinner' : ∀ b ∈ inner ++ [a], r.traceName? b.block = none := by
          intro b hb
          rcases List.mem_append.1 hb with hb | hb
          · exact hinner b hb
          · rwa [List.mem_singleton.1 hb]
        have hrest := ih hinner' e m.giveUp
        rwa [hfirst, List.append_assoc] at hrest
      | some name =>
        obtain ⟨es, hsites, hrest⟩ := ih r.unnamed_nil
          (e.passing name (r.lineAt first)) m.giveUp
        exact ⟨_, .function hinner hname hfirst hsites, hrest⟩

/-- What the trace of an error shows of the running blocks that it is taken out through. An error
that a contract has raised itself shows nothing, and of neighbouring entries with one name the
innermost is kept. -/
structure Shows (r : Registry) (f : Fault) (as : List Activation) (trace : List TraceEntry) :
    Prop where
  structured : f.isStructured = true → trace = []
  sites : f.isStructured = false → ∃ es, r.Sites as es ∧ trace = es.destutter TraceEntry.Differs

/-- An error that starts without a trace shows the blocks that were running. -/
theorem unwind_shows (r : Registry) (fs : List Frame) (f : Fault) (m : Machine) :
    r.Shows f (fs.filterMap Frame.activation?) (r.unwind fs none (.of f) m).1.trace := by
  obtain ⟨es, hsites, hunwind⟩ := r.unwind_sites r.unnamed_nil fs (.of f) m
  rw [List.head?_nil, Option.map_none] at hunwind
  refine ⟨fun hstructured => ?_, fun hbare => ⟨es, hsites, ?_⟩⟩
  · rw [hunwind, Error.passingAll_of_isStructured hstructured]
    rfl
  · rw [hunwind, Error.passingAll_of_nil hbare rfl]

end Registry

namespace Launch

/-- Whether a run stops with a fault, and the blocks that are running then, innermost first. A run
without a budget or with a time that is no number stops before any block runs. -/
inductive Stops (l : Launch) (r : Registry) (env : Dict Value) (h : Heap) (clock : Nat → Nat) :
    Fault → List Activation → Prop
  | unready {f : Fault} : (Run.budget r env h = .error f ∨ Run.allowance env h = .error f) →
      ready r env h clock = none → Stops l r env h clock f []
  | raised {c : Context} {m₀ m : Machine} {f : Fault} : ready r env h clock = some (c, m₀) →
      (do l.start c; Exec.loop c (Run.fuel m₀.cost) : Exec Unit) m₀ = .error (.fault f) m →
      Stops l r env h clock f (m.frames.filterMap Frame.activation?)

/-- **The trace of an error is exact.** A run that fails, but not because the host breaks off, has
stopped with a fault while some blocks were running, and the error has the trace that these blocks
show. -/
theorem run_traced {l : Launch} {r : Registry} {env : Dict Value} {h : Heap}
    {clock : Nat → Nat} {e : Error} (hrun : (l.run r env h clock).result = .error e)
    (hpanic : e.fault ≠ .runtimePanic) :
    ∃ as, l.Stops r env h clock e.fault as ∧ r.Shows e.fault as e.trace := by
  -- A run that does not start has an error without a trace.
  have hunready : ∀ f, (Run.budget r env h = .error f ∨ Run.allowance env h = .error f) →
      ready r env h clock = none → e = .of f →
      ∃ as, l.Stops r env h clock e.fault as ∧ r.Shows e.fault as e.trace := by
    rintro f hf hnone rfl
    exact ⟨[], .unready hf hnone, fun _ => rfl, fun _ => ⟨[], .unnamed nofun, rfl⟩⟩
  unfold run Run.execute at hrun
  cases hbudget : Run.budget r env h with
  | error f =>
    rw [hbudget] at hrun
    cases hrun
    exact hunready f (.inl hbudget) (by rw [ready, hbudget]) rfl
  | ok cost =>
    cases hallowance : Run.allowance env h with
    | error f =>
      rw [hbudget, hallowance] at hrun
      cases hrun
      exact hunready f (.inr hallowance) (by rw [ready, hbudget, hallowance]) rfl
    | ok allowance =>
      have hready : ready r env h clock
        = some ({ registry := r, allowance := allowance, clock := clock },
          { heap := h, env := env, cost := cost }) := by rw [ready, hbudget, hallowance]
      rw [hbudget, hallowance] at hrun
      dsimp only [EStateM.run] at hrun
      split at hrun
      · cases hrun
      · rename_i f m hend
        cases hrun
        have hshows := r.unwind_shows m.frames f m
        rw [Registry.fault_unwind]
        exact ⟨_, .raised hready hend, hshows⟩
      · cases hrun
        exact absurd rfl hpanic
      · cases hrun
        exact absurd rfl hpanic

/-- A contract that divides by zero below a condition. -/
def dividesBelowCondition : Session := callingSession
  ("contract X \x7b\n action \x7b\n  if true \x7b\n   $result = 1 / 0\n  \x7d\n \x7d\n\x7d\n" ++
    "func main int \x7b\n return X()\n\x7d")

/-- Whether a run fails for another reason than a panic, with a trace. -/
def failsWithTrace {α : Type} (trace : List TraceEntry) : Except Error α → Bool
  | .ok _ => false
  | .error e => decide (e.fault ≠ .runtimePanic) && decide (e.trace = trace)

/-- The division fails in the action of the contract, which the main function has called; its
conditions are over and leave nothing in the trace. -/
theorem dividesBelowCondition_traced : ∃ e,
    ((func 4 []).run dividesBelowCondition.registry .empty .empty fun _ => 0).result = .error e ∧
      e.fault ≠ .runtimePanic ∧ e.trace = [⟨"@1X.action", 4⟩, ⟨"main", 9⟩] ∧
      ∃ as, (func 4 []).Stops dividesBelowCondition.registry .empty .empty (fun _ => 0) e.fault as ∧
        dividesBelowCondition.registry.Shows e.fault as e.trace := by
  have hfails : failsWithTrace [⟨"@1X.action", 4⟩, ⟨"main", 9⟩]
      ((func 4 []).run dividesBelowCondition.registry .empty .empty fun _ => 0).result = true := by
    simp only [dividesBelowCondition, callingSession, Session.perform_compile, String.toList_append,
      String.reduceToList]
    decide +kernel
  generalize dividesBelowCondition = s at hfails ⊢
  cases hrun : ((func 4 []).run s.registry .empty .empty fun _ => 0).result with
  | ok vs =>
    rw [hrun] at hfails
    cases hfails
  | error e =>
    rw [hrun, failsWithTrace, Bool.and_eq_true, decide_eq_true_iff, decide_eq_true_iff] at hfails
    exact ⟨e, rfl, hfails.1, hfails.2, run_traced hrun hfails.1⟩

end Launch

end Covenant
