import Covenant.Proofs.Machine.Acyclic
import Covenant.Proofs.Machine.Variables
import Covenant.Proofs.Registry.Scopes

/-!
# Scopes of a run

A variable is bound to a block when code is compiled, and its value is found among the frames when
the code runs. The two agree because the blocks around a block that runs are active, too
(`Registry.Nested`): a body of a control statement is started by the block that it lies in, a
function is called from within what lies around it, and nothing that can be run lies around the
functions of a contract.

So every variable that an instruction names has its value in the innermost activation of the block
that declares it (`Launch.variables_resolve`), with one exception: a contract is never run as a
block, and variables that are declared in the body of a contract itself are never found
(`Launch.variable_of_contract_unknown`).
-/

namespace Covenant

open Covenant.Computation

open Exec

/-! ### Frames that lie within each other -/

namespace Registry

variable {r : Registry} {out : BlockId → Prop} {a : Activation} {k : ContractCall} {fs : List Frame}

/-- Whether a running block may be on top of some frames: it can be run, it is about to assign to
targets of its code, and what lies around it is active or out of sight. -/
structure Reaching (r : Registry) (out : BlockId → Prop) (a : Activation) (fs : List Frame) :
    Prop where
  runnable : r.arena.Runnable a.block
  targets : ∀ t ∈ a.targets, t ∈ (r.block a.block).targets
  around : ∀ f, r.arena.Within a.block f → f ≠ a.block → r.arena.Runnable f →
    Frame.Active f fs ∨ out f

/-- Whether some frames lie on top of each other as their blocks lie within each other. -/
def Nested (r : Registry) (out : BlockId → Prop) : List Frame → Prop
  | [] => True
  | .block a :: fs => r.Reaching out a fs ∧ Nested r out fs
  | .contract k :: fs => (∀ s ∈ k.sections, r.arena.Alone s) ∧ Nested r out fs

/-- The blocks that are active can be run. -/
theorem Nested.runnable (h : r.Nested out fs) (ha : .block a ∈ fs) : r.arena.Runnable a.block := by
  induction fs with
  | nil => exact absurd ha List.not_mem_nil
  | cons f fs ih =>
    cases f with
    | block b =>
      rcases List.mem_cons.1 ha with heq | ha
      · cases heq
        exact h.1.runnable
      · exact ih h.2 ha
    | contract k => exact ih h.2 ((List.mem_cons.1 ha).resolve_left nofun)

theorem Nested.tail {f : Frame} (h : r.Nested out (f :: fs)) : r.Nested out fs := by
  cases f with
  | block a => exact h.2
  | contract k => exact h.2

/-- A function with nothing around it that can be run may be on top of any frames. -/
theorem Reaching.of_alone (ha : r.arena.Alone a.block) (htargets : a.targets = []) :
    r.Reaching out a fs := by
  refine ⟨.inl ha.func, fun t ht => ?_, fun f hf hne hrun => absurd hrun (ha.around f hf hne)⟩
  rw [htargets] at ht
  exact absurd ht List.not_mem_nil

/-- What a block can see and can be run is active, or out of sight. -/
theorem Reaching.active (h : r.Reaching out a fs) {f : BlockId} (hf : r.arena.Within a.block f)
    (hrun : r.arena.Runnable f) : Frame.Active f (.block a :: fs) ∨ out f := by
  by_cases hne : f = a.block
  · exact .inl (Frame.active_block.2 (.inl hne.symm))
  · exact (h.around f hf hne hrun).imp_left fun hactive => Frame.active_block.2 (.inr hactive)

/-- What an instruction starts can be run. -/
theorem runnable_of_starts (hmarks : r.arena.Marks) {b id : BlockId} {i : Instr}
    (hi : i ∈ (r.block b).code) (hid : i.op.starts? = some id) : r.arena.Runnable id := by
  have hplaced := hmarks.code b i hi
  rcases Op.starts?_eq_some hid with hbody | hfunc
  · obtain ⟨hparent, hplain⟩ := hplaced.body id hbody
    exact .inr ⟨hplain, hparent ▸ Option.some_ne_none _⟩
  · exact .inl (hplaced.callee id hfunc).1

/-- What an instruction starts may be on top of the block that it belongs to. -/
theorem Reaching.starts (h : r.Reaching out a fs) (hmarks : r.arena.Marks)
    (hscoped : r.arena.Scoped) {i : Instr} (hi : i ∈ (r.block a.block).code) {b : Activation}
    (hb : i.op.starts? = some b.block) (htargets : b.targets = []) :
    r.Reaching out b (.block a :: fs) := by
  refine ⟨runnable_of_starts hmarks hi hb, fun t ht => ?_, fun f hf hne hrun => ?_⟩
  · rw [htargets] at ht
    exact absurd ht List.not_mem_nil
  rcases Op.starts?_eq_some hb with hbody | hfunc
  · obtain ⟨hparent, -⟩ := (hmarks.code a.block i hi).body b.block hbody
    rcases hf.cases_head with rfl | ⟨p, hp, hf⟩
    · exact absurd rfl hne
    · cases hparent.symm.trans hp
      exact h.active hf hrun
  · exact h.active (hscoped.calls a.block i hi b.block hfunc f hf hne hrun) hrun

end Registry

section

variable {c : Context} {out : BlockId → Prop} {m m' : Machine}

/-- Around a section there is no block that can be run. -/
theorem Arena.Lexical.alone_of_section {a : Arena} {objects : Dict Binding} (h : a.Lexical objects)
    {id s : BlockId} (hcontract : (a.block id).contract?.isSome)
    (hs : s ∈ sectionsOf (a.block id)) :
    a.Alone s := by
  obtain ⟨x, -, hx⟩ := List.mem_filterMap.1 hs
  split at hx
  · rename_i f hf
    cases hx
    exact h.sections id (Option.isSome_iff_ne_none.1 hcontract) x s hf
  · cases hx

variable (hmarks : c.registry.arena.Marks) (hlex : c.registry.arena.Lexical c.registry.objects)

include hmarks hlex

/-- An instruction leaves the frames above some others nested. -/
theorem Shift.nested {a : Activation} {above rest fs : List Frame} {i : Instr}
    (hi : i ∈ (c.block a.block).code) (h : c.registry.Nested out (.block a :: above))
    (hshift : Shift c i.op a (above ++ rest) fs) :
    ∃ above', fs = above' ++ rest ∧ c.registry.Nested out above' := by
  obtain ⟨ha, habove⟩ := h
  cases hshift with
  | stay => exact ⟨.block a :: above, rfl, ha, habove⟩
  | aim ts hts =>
    refine ⟨.block { a with targets := ts } :: above, rfl,
      ⟨ha.runnable, fun t ht => ?_, ha.around⟩, habove⟩
    rcases hts with rfl | hop
    · exact absurd ht List.not_mem_nil
    · refine Block.mem_targets.2 ⟨i, hi, ?_⟩
      rw [hop]
      exact ht
  | enter b hop htargets =>
    exact ⟨.block b :: .block a :: above, rfl, ha.starts hmarks hlex.scopes hi hop htargets,
      ha, habove⟩
  | leave => exact ⟨above, rfl, habove⟩
  | call k id hsections _ _ hcontract =>
    refine ⟨.contract k :: .block a :: above, rfl, fun s hs => ?_, ha, habove⟩
    exact hlex.alone_of_section hcontract (hsections ▸ hs)

/-- **A step keeps frames nested** that lie above some others. -/
theorem Turn.nested {above rest : List Frame} (hm : m.outline = above ++ rest) (habove : above ≠ [])
    (h : c.registry.Nested out above) (hturn : Turn c m m') :
    ∃ above', m'.outline = above' ++ rest ∧ c.registry.Nested out above' := by
  obtain ⟨f, above, rfl⟩ := List.exists_cons_of_ne_nil habove
  rw [Machine.outline] at hm
  cases hturn with
  | instruction a fs i hframes _ hcode hshift =>
    rw [hframes] at hm
    obtain ⟨rfl, htail⟩ := List.cons.inj hm
    rw [htail] at hshift
    exact hshift.nested hmarks hlex (a := a.bare) (Array.mem_of_getElem? hcode) h
  | leave a fs hframes _ houtline =>
    rw [hframes] at hm
    exact ⟨above, houtline.trans (List.cons.inj hm).2, h.tail⟩
  | «section» k fs s ss b hframes hsections hblock htargets houtline =>
    rw [hframes] at hm
    obtain ⟨rfl, htail⟩ := List.cons.inj hm
    -- A section's block stands directly on its contract, alone.
    refine ⟨.block b :: .contract { k with sections := ss } :: above, ?_, ?_⟩
    · rw [houtline, htail]
      rfl
    · have hall : ∀ s' ∈ s :: ss, c.registry.arena.Alone s' := hsections ▸ h.1
      obtain ⟨hs, hss⟩ := List.forall_mem_cons.1 hall
      exact ⟨.of_alone (hblock ▸ hs) htargets, hss, h.2⟩
  | finish k fs hframes _ houtline =>
    rw [hframes] at hm
    exact ⟨above, houtline.trans (List.cons.inj hm).2, h.tail⟩

/-- Frames that lie above some others stay nested until none is left. -/
theorem During.nested {m₀ : Machine} {above rest : List Frame} (hm₀ : m₀.outline = above ++ rest)
    (habove : c.registry.Nested out above) (h : During c rest.length m₀ m) :
    ∃ above', m.outline = above' ++ rest ∧ c.registry.Nested out above' := by
  induction h with
  | start => exact ⟨above, hm₀, habove⟩
  | @step m m' _ hactive hstep ih =>
    obtain ⟨above', hm, hnested⟩ := ih
    have hlength : m.frames.length = above'.length + rest.length := by
      rw [← List.length_append, ← hm, Machine.outline, List.length_map]
    have hne : above' ≠ [] := by
      rintro rfl
      rw [List.length_nil] at hlength
      omega
    exact (step_turn hstep (List.ne_nil_of_length_pos (by omega))).nested hmarks hlex hm hne hnested

/-- The frames of a run are nested if what lies around the block that it is started with is out of
sight. -/
theorem Transition.nested {l : Launch} {m₀ : Machine} {q : Option Request}
    {r : EStateM.Result Stop Machine Unit} (hm₀ : m₀.frames = [])
    (hl : ∀ id params, l = .func id params → c.registry.arena.Runnable id ∧
      ∀ f, c.registry.arena.Within id f → f ≠ id → c.registry.arena.Runnable f → out f)
    (h : Transition c l m₀ m q r) : ∀ m', r = .ok () m' → c.registry.Nested out m'.outline := by
  rintro m' rfl
  obtain ⟨m₁, hstart, hduring⟩ := h.during
  have houtline : m₀.outline = [] := by rw [Machine.outline, hm₀, List.map_nil]
  -- A function stands on nothing, so what is around it counts as left out.
  have hbegin : c.registry.Nested out m₁.outline := by
    cases l with
    | func id params =>
      obtain ⟨hrun, hout⟩ := hl id params rfl
      obtain ⟨b, rfl, htargets, hm₁⟩ :=
        outline_start (show Exec.start c id params .entry m₀ = _ from hstart)
      rw [hm₁, houtline]
      refine ⟨⟨hrun, fun t ht => ?_, fun f hf hne hrun => .inr (hout f hf hne hrun)⟩, trivial⟩
      rw [htargets] at ht
      exact absurd ht List.not_mem_nil
    | contract state name params =>
      obtain ⟨k, id, hsections, -, hm₁, -, hcontract⟩ := outline_callContract hstart
      rw [hm₁, houtline]
      exact ⟨fun s hs => hlex.alone_of_section hcontract (hsections ▸ hs), trivial⟩
  have hall : m₁.outline = m₁.outline ++ [] := (List.append_nil _).symm
  obtain ⟨above', hm', hnested⟩ := During.nested hmarks hlex hall hbegin hduring
  rw [hm', List.append_nil]
  exact hnested

end

/-! ### Frames with their variables -/

/-- Whether a running block has a value for each of its variables. -/
def Frame.Filled (r : Registry) : Frame → Prop
  | .block a => (r.block a.block).vars.size ≤ a.slots.size
  | .contract _ => True

/-- Nothing is said of values, and the variables that are assigned to are watched. -/
def Watch.assigning (c : Context) (p : VarRef → Prop) : Watch where
  context := c
  values _ _ := True
  assigns := p

section

variable {c : Context} {p : VarRef → Prop} {m m' : Machine}

theorem Watch.assigning_holds (c : Context) (p : VarRef → Prop) : (Watch.assigning c p).Holds where
  lasting := lasting_true
  keeps _ _ _ _ _ _ _ _ := ⟨fun _ _ => trivial, fun _ _ _ => trivial, fun _ _ _ _ => trivial⟩
  panics _ _ _ := trivial
  contracts _ _ _ _ := trivial
  writes _ _ _ _ _ _ _ _ := trivial

/-- A step perhaps ends the innermost block or contract, and then makes changes that assign to the
targets of the innermost block only. -/
theorem Exec.step_follows (hp : ∀ a rest v, m.frames = .block a :: rest →
    nextOp? c m = some .assign →
    .var v ∈ a.targets → p v) : ∃ m₁, Lead c m (step c m) m₁ ∧
      Follows (Watch.assigning c p) m₁ (left (step c m)) := by
  obtain ⟨m₁, hlead, hfollows, -⟩ :=
    step_tame (w := Watch.assigning c p) (Watch.assigning_holds c p) (m := m) {
    has := .of_true m _
    room := Nat.zero_le _
    base := fun _ _ _ _ _ => Nat.zero_le _
    operands := fun _ _ => Nat.zero_le _
    writes := fun _ _ _ _ _ _ _ _ _ _ _ => trivial
    assigns := hp
    holders := fun _ _ => trivial
    starts := fun _ _ _ _ _ => trivial
    sections := fun _ _ _ _ _ _ _ => trivial
    ends := fun _ => trivial }
  exact ⟨m₁, hlead, hfollows⟩

theorem Frame.filled_fixed {r : Registry} (f : Frame) : f.fixed.Filled r ↔ f.Filled r := by
  cases f <;> exact Iff.rfl

/-- Setting a variable leaves all blocks with as many variables as they declare. -/
theorem Frame.filled_setSlot {r : Registry} (v : VarRef) (x : Value) {fs : List Frame}
    (h : ∀ f ∈ fs, f.Filled r) : ∀ f ∈ Frame.setSlot v x fs, f.Filled r := by
  induction fs with
  | nil => exact h
  | cons f fs ih =>
    obtain ⟨hf, hfs⟩ := List.forall_mem_cons.1 h
    cases f with
    | block a =>
      rw [setSlot]
      split
      · refine List.forall_mem_cons.2 ⟨?_, hfs⟩
        rw [Filled, Array.size_setIfInBounds]
        exact hf
      · exact List.forall_mem_cons.2 ⟨hf, ih hfs⟩
    | contract k => exact List.forall_mem_cons.2 ⟨trivial, ih hfs⟩

/-- Changes leave a value for each variable of the running blocks. -/
theorem Follows.filled (h : Follows (Watch.assigning c p) m m')
    (hm : ∀ f ∈ m.frames, f.Filled c.registry) : ∀ f ∈ m'.frames, f.Filled c.registry := by
  induction h with
  | refl => exact hm
  | @tail m₁ m₂ _ hlink ih =>
    cases hlink.change with
    | quiet hquiet =>
      intro f hf
      have hfixed : f.fixed ∈ m₁.frames.map Frame.fixed := hquiet.frames ▸ List.mem_map_of_mem hf
      obtain ⟨g, hg, hgf⟩ := List.mem_map.1 hfixed
      rw [← f.filled_fixed, ← hgf, g.filled_fixed]
      exact ih g hg
    | enter a _ hsize => exact List.forall_mem_cons.2 ⟨hsize, ih⟩
    | assign v x old => exact Frame.filled_setSlot v x ih
    | bind env => exact ih
    | write p value mem => exact ih
    | host e run args => exact ih
    | begin k env => exact List.forall_mem_cons.2 ⟨trivial, ih⟩

/-- So does every step. -/
theorem Exec.filled_step (hm : ∀ f ∈ m.frames, f.Filled c.registry) :
    ∀ f ∈ (left (step c m)).frames, f.Filled c.registry := by
  obtain ⟨m₁, hlead, hfollows⟩ :=
    step_follows (c := c) (p := fun _ => True) fun _ _ _ _ _ _ => trivial
  refine hfollows.filled ?_
  cases hlead with
  | stay => exact hm
  | drop a rest status cost ticks hframes =>
    exact fun f hf => hm f (hframes ▸ List.mem_cons_of_mem _ hf)
  | finish k rest hframes => exact fun f hf => hm f (hframes ▸ List.mem_cons_of_mem _ hf)

/-- In a run every running block has a value for each of its variables. -/
theorem Transition.filled {l : Launch} {m₀ : Machine} {q : Option Request}
    {r : EStateM.Result Stop Machine Unit} (hm₀ : ∀ f ∈ m₀.frames, f.Filled c.registry)
    (h : Transition c l m₀ m q r) : ∀ f ∈ (left r).frames, f.Filled c.registry := by
  induction h with
  | start =>
    have htame := l.start_tame (k := 0) (Watch.assigning_holds c fun _ => True) (m := m₀)
      ⟨.of_true m₀ _, Nat.zero_le _⟩ (fun _ _ => trivial) fun _ _ _ _ => trivial
    exact htame.1.filled hm₀
  | step _ _ ih => exact filled_step ih

end

/-! ### Resolving variables -/

/-- Whether a variable stands for the value that it has in the innermost activation of its block. -/
def Machine.Resolves (m : Machine) (v : VarRef) : Prop :=
  ∃ above a below x, m.frames = above ++ .block a :: below ∧ a.block = v.owner ∧
    ¬ Frame.Active v.owner above ∧ a.slots[v.index]? = some x ∧ Frame.slot? v m.frames = some x

namespace Launch

variable {s : Session} {l : Launch} {allowance : Option Nat} {clock : Nat → Nat} {m₀ m m' : Machine}
  {q : Option Request}

/-- What an instruction names is mentioned in the code of the innermost block. -/
theorem mentions_of_uses {c : Context} {out : BlockId → Prop} {v : VarRef}
    (hnested : c.registry.Nested out m.outline) (hv : m.Uses c v) :
    ∃ a rest, m.frames = .block a :: rest ∧ (c.block a.block).Mentions v ∧
      c.registry.Reaching out a.bare (rest.map Frame.bare) := by
  have hreaching : ∀ {a rest}, m.frames = .block a :: rest →
      c.registry.Reaching out a.bare (rest.map Frame.bare) := by
    intro a rest hframes
    rw [Machine.outline, hframes] at hnested
    exact hnested.1
  cases hv with
  | reads op hop hv =>
    obtain ⟨a, rest, i, hframes, -, hcode, rfl⟩ := nextOp?_eq_some hop
    exact ⟨a, rest, hframes, .inl ⟨i, Array.mem_of_getElem? hcode, hv⟩, hreaching hframes⟩
  | assigns a rest _ hframes hv =>
    exact ⟨a, rest, hframes, .inr ((hreaching hframes).targets _ hv), hreaching hframes⟩

/-- **Variables resolve.** Whatever a host has compiled, in every run that is started with a
function of a unit or with a contract, a variable that the next instruction names has its value in
the innermost activation of the block that declares it, under a name of that block, unless the block
is a contract; those of contracts have no value. An instruction that fails because a variable is
unknown names one of a contract. -/
theorem variables_resolve (hs : s.Reachable)
    (hl : ∀ id params, l = func id params → s.registry.arena.TopLevel id) (hm₀ : m₀.frames = [])
    (h : Transition (s.context allowance clock) l m₀ m q (.ok () m')) :
    (∀ v, m'.Uses (s.context allowance clock) v →
      ((s.registry.block v.owner).contract? = none → m'.Resolves v ∧
        ∃ x, (s.registry.block v.owner).objects.get? x = some (.var v.index)) ∧
      ((s.registry.block v.owner).contract? ≠ none → Frame.slot? v m'.frames = none)) ∧
    ∀ op n m'', nextOp? (s.context allowance clock) m' = some op → op.looksUp = true →
      Exec.step (s.context allowance clock) m' = .error (.fault (.unknownVariable n)) m'' →
      ∃ v, m'.Uses (s.context allowance clock) v ∧ (s.registry.block v.owner).contract? ≠ none := by
  have hlex := hs.lexical
  have hmarks := hs.known.now.marks
  have hnested : s.registry.Nested (fun _ => False) m'.outline := by
    refine h.nested (c := s.context allowance clock) hmarks hlex hm₀
      (fun id params hfunc => ?_) m' rfl
    have halone := (hl id params hfunc).alone
    exact ⟨.inl halone.func, fun f hf hne hrun => absurd hrun (halone.around f hf hne)⟩
  have hfilled : ∀ f ∈ m'.frames, f.Filled s.registry := by
    refine h.filled (c := s.context allowance clock) (fun f hf => ?_)
    rw [hm₀] at hf
    exact absurd hf List.not_mem_nil
  have hsees : ∀ v, m'.Uses (s.context allowance clock) v →
      ((s.registry.block v.owner).contract? = none → m'.Resolves v ∧
        ∃ x, (s.registry.block v.owner).objects.get? x = some (.var v.index)) ∧
      ((s.registry.block v.owner).contract? ≠ none → Frame.slot? v m'.frames = none) := by
    intro v hv
    obtain ⟨a, rest, hframes, hmentions, hreaching⟩ :=
      mentions_of_uses (c := s.context allowance clock) hnested hv
    have hsees := hlex.scopes.vars a.block v hmentions
    refine ⟨fun hcontract => ⟨?_, hsees.name hcontract⟩, fun hcontract => ?_⟩
    · have hactive : Frame.Active v.owner m'.frames := by
        have hactive := (hreaching.active hsees.within (hsees.runnable hcontract)).resolve_right id
        rw [hframes]
        exact Frame.active_bare.1 hactive
      obtain ⟨above, b, below, heq, hb, hnot⟩ := hactive.innermost
      have hsize : v.index < b.slots.size := by
        have hfill := hfilled (.block b) (heq ▸ List.mem_append_right _ (List.mem_cons_self ..))
        rw [Frame.Filled, hb] at hfill
        exact Nat.lt_of_lt_of_le hsees.place hfill
      refine ⟨above, b, below, b.slots[v.index], heq, hb, hnot, Array.getElem?_eq_getElem hsize, ?_⟩
      rw [heq, Frame.slot?_of_innermost hnot hb, Array.getElem?_eq_getElem hsize]
    · -- a contract is no block that can be run, and so not an active one
      cases hslot : Frame.slot? v m'.frames with
      | none => rfl
      | some x =>
        obtain ⟨b, hb, howner⟩ := Frame.active_of_slot? hslot
        have hrun := hnested.runnable (a := b.bare) (List.mem_map_of_mem hb)
        obtain ⟨info, hinfo⟩ := Option.ne_none_iff_exists'.1 hcontract
        have hstanding := Block.standing_of_contract? hinfo
        rw [← howner] at hstanding
        rcases hrun with ⟨w, hw⟩ | ⟨hplain, -⟩
        · cases hstanding.symm.trans hw
        · cases hstanding.symm.trans hplain
  refine ⟨hsees, fun op n m'' hop hlooks hstep => ?_⟩
  obtain ⟨v, hv, hnone⟩ := unknown_of_step hop hlooks hstep
  refine ⟨v, hv, fun hcontract => ?_⟩
  obtain ⟨⟨_, _, _, x, _, _, _, _, hslot⟩, -⟩ := (hsees v hv).1 hcontract
  cases hnone.symm.trans hslot

/-! ### A nested function and a contract with a variable -/

/-- The variable that the next instruction reads. -/
def readsNext? (c : Context) (m : Machine) : Option VarRef :=
  (nextOp? c m).bind fun
    | .var v => some v
    | _ => none

/-- An instruction that reads a variable uses it. -/
theorem uses_of_readsNext? {c : Context} {v : VarRef} (h : readsNext? c m = some v) :
    m.Uses c v := by
  obtain ⟨op, hop, hv⟩ := Option.bind_eq_some_iff.1 h
  refine .reads op hop ?_
  cases op with
  | var u =>
    cases hv
    exact List.mem_singleton.2 rfl
  | _ => cases hv

/-- A function that calls itself in the body of a control statement, and uses a variable of the
function that it lies in. -/
def nestedFunction : Session := callingSession
  ("func outer(n int) int \x7b var total int\n func inner(k int) int \x7b\n if k > 0 \x7b " ++
    "total = total + k\n return inner(k - 1) \x7d\n return total \x7d\n return inner(n) \x7d")

/-- The inner function has called itself, and its body reads the variable of the outer one. -/
theorem nestedFunction_resolves : ∃ m q m',
    Transition (nestedFunction.context none fun _ => 0) (func 1 [.int 2]) emptyMachine m q
    (.ok () m') ∧
      m'.frames.length = 5 ∧ m'.Uses (nestedFunction.context none fun _ => 0) ⟨1, 1⟩ ∧
      m'.Resolves ⟨1, 1⟩ := by
  obtain ⟨hfunc, hplain, hsteps⟩ : nestedFunction.registry.func? "outer" = some 1 ∧
      (nestedFunction.registry.block 1).contract?.isNone = true ∧
      ((func 1 [.int 2]).machineAfter (nestedFunction.context none fun _ => 0) 20 emptyMachine).any
        (fun m => m.frames.length = 5 &&
          readsNext? (nestedFunction.context none fun _ => 0) m = some ⟨1, 1⟩) = true := by
    simp only [nestedFunction, callingSession, Session.perform_compile, String.toList_append,
      String.reduceToList]
    decide +kernel
  obtain ⟨m, q, m', htrans, hm'⟩ := machineAfter_sound hsteps
  rw [Bool.and_eq_true, decide_eq_true_eq, decide_eq_true_eq] at hm'
  have hreachable : nestedFunction.Reachable := reachable_callingSession _
  have huses := uses_of_readsNext? hm'.2
  have hresolve := variables_resolve hreachable (l := func 1 [.int 2])
    (fun id params h => by cases h; exact hreachable.topLevel hfunc) rfl htrans
  exact ⟨m, q, m', htrans, hm'.1, huses,
    ((hresolve.1 _ huses).1 (Option.isNone_iff_eq_none.1 hplain)).1⟩

/-- A contract with a variable outside of its sections. -/
def contractVariable : Session := callingSession
  "contract X \x7b var a int\n action \x7b $result = a \x7d \x7d"

/-- Whether the next step fails because a variable is unknown. -/
def failsUnknown (c : Context) (m : Machine) : Bool :=
  match Exec.step c m with
  | .error (.fault f) _ => f.unknown
  | _ => false

/-- **A variable of a contract is unknown**: the unit is accepted, a name of the contract stands for
the variable, and the action that reads it fails. -/
theorem variable_of_contract_unknown :
    contractVariable.Reachable ∧
      (contractVariable.registry.block 1).objects.get? "a" = some (.var 0) ∧ ∃ m q m' n m'',
        Transition (contractVariable.context none fun _ => 0)
        (contract 1 "X" .empty) emptyMachine m q
          (.ok () m') ∧ m'.Uses (contractVariable.context none fun _ => 0) ⟨1, 0⟩ ∧
        Exec.step (contractVariable.context none fun _ => 0) m'
          = .error (.fault (.unknownVariable n)) m'' := by
  -- The variable is declared in the contract's own block, which no frame runs.
  obtain ⟨hbound, hsteps⟩ :
      ((contractVariable.registry.block 1).objects.get? "a").any (fun v => match v with
        | .var i => i == 0
        | _ => false) = true ∧
      ((contract 1 "X" .empty).machineAfter (contractVariable.context none fun _ =>
        0) 2 emptyMachine).any
        (fun m => readsNext? (contractVariable.context none fun _ => 0) m = some ⟨1, 0⟩ &&
          failsUnknown (contractVariable.context none fun _ => 0) m) = true := by
    simp only [contractVariable, callingSession, Session.perform_compile, String.reduceToList]
    decide +kernel
  obtain ⟨m, q, m', htrans, hm'⟩ := machineAfter_sound hsteps
  rw [Bool.and_eq_true, decide_eq_true_eq] at hm'
  refine ⟨reachable_callingSession _, ?_, m, q, m', ?_⟩
  · obtain ⟨v, hv, hindex⟩ := (Option.any_eq_true _ _).1 hbound
    cases v with
    | var i =>
      rw [beq_iff_eq] at hindex
      rw [hv, hindex]
    | contract | ext | func | extVar => cases hindex
  · have hfails := hm'.2
    unfold failsUnknown at hfails
    split at hfails
    · rename_i f m'' hstep
      cases f with
      | unknownVariable n => exact ⟨n, m'', htrans, uses_of_readsNext? hm'.1, hstep⟩
      | _ => cases hfails
    · cases hfails

end Launch

end Covenant
