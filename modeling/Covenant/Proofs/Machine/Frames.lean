import Covenant.Proofs.Compile.Spreads
import Covenant.Proofs.Machine.Depth
import Covenant.Proofs.Machine.Memory
import Covenant.Proofs.Machine.Operands
import Covenant.Proofs.Machine.Scopes

/-!
# The frames of a caller

A block or contract that is started lies on top of the frames that are there, and as long as it is
active these stay: the same blocks and contracts in the same order, with as many variables. When it
has ended they are all that is left, and as many calls are in progress as before. That is so, too,
when a step fails and the error is taken out through what has been started (`Launch.frames_kept`).

The values of their variables stay, too, but for those of blocks that lie around the block that was
started. Code can name no others, for the blocks around any code that runs are active above, or lie
around the block that was started (`Registry.Nested`). So a function that calls itself does not
touch the variables of the call it was called from.
-/

namespace Covenant

open Covenant.Computation

open Exec

/-! ### Frames that stay -/

namespace Frame

/-- The block of a frame. -/
def block? : Frame → Option BlockId
  | .block a => some a.block
  | .contract _ => none

/-- A frame without its position and the values of its variables. -/
def shape : Frame → Frame
  | .block a =>
    .block {
      block := a.block, slots := Array.replicate a.slots.size .nil, base := a.base, role := a.role }
  | .contract k => .contract { k with sections := [] }

/-- The blocks around the one that a frame runs. Nothing that can be run lies around a contract. -/
def Encloses (arena : Arena) : Frame → BlockId → Prop
  | .block a, b => arena.Within a.block b ∧ b ≠ a.block
  | .contract _, _ => False

/-- Whether a frame is another one at some other time: the same block or contract, with as many
variables, and with the same values of these unless its block may be assigned to. -/
structure Stays (q : BlockId → Prop) (f f' : Frame) : Prop where
  shape : f'.shape = f.shape
  slots : (∀ b, f.block? = some b → ¬ q b) → f'.fixed = f.fixed

variable {q : BlockId → Prop} {f f' f'' : Frame} {fs gs above below : List Frame}
  {v : VarRef} {x : Value}

theorem shape_fixed (f : Frame) : f.fixed.shape = f.shape := by
  cases f <;> rfl

theorem block?_shape (f : Frame) : f.shape.block? = f.block? := by
  cases f <;> rfl

theorem encloses_bare (arena : Arena) (f : Frame) : f.bare.Encloses arena = f.Encloses arena := by
  cases f <;> rfl

theorem isCall_shape (f : Frame) : f.shape.isCall = f.isCall := by
  cases f <;> rfl

theorem Stays.of_fixed (h : f'.fixed = f.fixed) : Stays q f f' :=
  ⟨by rw [← f'.shape_fixed, h, f.shape_fixed], fun _ => h⟩

theorem Stays.refl (f : Frame) : Stays q f f := .of_fixed rfl

theorem Stays.block? (h : Stays q f f') : f'.block? = f.block? := by
  rw [← f'.block?_shape, h.shape, f.block?_shape]

theorem Stays.isCall (h : Stays q f f') : f'.isCall = f.isCall := by
  rw [← f'.isCall_shape, h.shape, f.isCall_shape]

theorem Stays.trans (h : Stays q f f') (h' : Stays q f' f'') : Stays q f f'' := by
  refine ⟨h'.shape.trans h.shape, fun hq => (h'.slots fun b hb => ?_).trans (h.slots hq)⟩
  exact hq b (h.block? ▸ hb)

theorem forall₂_stays_refl (fs : List Frame) : List.Forall₂ (Stays q) fs fs :=
  List.forall₂_same.2 fun f _ => .refl f

theorem forall₂_stays_trans {hs : List Frame} (h : List.Forall₂ (Stays q) fs gs)
    (h' : List.Forall₂ (Stays q) gs hs) : List.Forall₂ (Stays q) fs hs := by
  induction h generalizing hs with
  | nil => exact h'
  | cons hf _ ih =>
    cases h' with
    | cons hg htail => exact .cons (hf.trans hg) (ih htail)

/-- Frames with the same fixed parts have stayed what they were. -/
theorem forall₂_stays_of_fixed (h : gs.map Frame.fixed = fs.map Frame.fixed) :
    List.Forall₂ (Stays q) fs gs := by
  induction fs generalizing gs with
  | nil =>
    rw [List.map_nil, List.map_eq_nil_iff] at h
    rw [h]
    exact .nil
  | cons f fs ih =>
    rw [List.map_cons] at h
    obtain ⟨g, gs, rfl, hg, hgs⟩ := List.map_eq_cons_iff.1 h
    exact .cons (.of_fixed hg) (ih hgs)

/-- An assignment that is allowed leaves the frames. -/
theorem forall₂_stays_setSlot (hq : q v.owner) (fs : List Frame) :
    List.Forall₂ (Stays q) fs (setSlot v x fs) := by
  induction fs with
  | nil => exact .nil
  | cons f fs ih =>
    cases f with
    | block a =>
      rw [setSlot]
      split
      · rename_i ha
        refine .cons ⟨?_, fun hnot => ?_⟩ (forall₂_stays_refl fs)
        · rw [Frame.shape, Frame.shape, Array.size_setIfInBounds]
        · exact absurd (beq_iff_eq.1 ha ▸ hq) (hnot a.block rfl)
      · exact .cons (.refl _) ih
    | contract k => exact .cons (.refl _) ih

/-- Frames that have stayed have as many variables as before. -/
theorem length_slots_of_stays (h : List.Forall₂ (Stays q) fs gs) :
    (gs.flatMap Frame.slots).length = (fs.flatMap Frame.slots).length := by
  have hslots : ∀ f : Frame, f.shape.slots.length = f.slots.length := by
    rintro (a | k)
    · simp only [Frame.slots, Frame.shape, Array.length_toList, Array.size_replicate]
    · rfl
  induction h with
  | nil => rfl
  | @cons f g _ _ hf _ ih =>
    rw [List.flatMap_cons, List.flatMap_cons, List.length_append,
      List.length_append, ih, ← hslots g, hf.shape, hslots f]

theorem calls_of_stays (h : List.Forall₂ (Stays q) fs gs) : calls gs = calls fs := by
  induction h with
  | nil => rfl
  | cons hf _ ih => rw [calls_cons, calls_cons, ih, hf.isCall]

/-- A block is active if a frame is its own. -/
theorem active_iff_block? {b : BlockId} : Active b fs ↔ ∃ f ∈ fs, f.block? = some b := by
  constructor
  · rintro ⟨a, ha, rfl⟩
    exact ⟨_, ha, rfl⟩
  · rintro ⟨f, hf, hb⟩
    cases f with
    | block a => exact ⟨a, hf, Option.some.inj hb⟩
    | contract k => cases hb

theorem active_of_stays {b : BlockId} (h : List.Forall₂ (Stays q) fs gs) :
    Active b gs ↔ Active b fs := by
  induction h with
  | nil => exact Iff.rfl
  | cons hf _ ih =>
    simp only [active_iff_block?, List.mem_cons, exists_eq_or_imp] at ih ⊢
    rw [hf.block?, ih]

end Frame

/-- Whether a machine has the frames of another one, below some that came later. -/
def Machine.KeepsFrames (q : BlockId → Prop) (m₁ m : Machine) (inner : List Frame) : Prop :=
  ∃ below, m.frames = inner ++ below ∧ List.Forall₂ (Frame.Stays q) m₁.frames below

section

variable {c : Context} {p : VarRef → Prop} {q : BlockId → Prop} {m m' m₁ : Machine}

/-- The frames that came later are there because of the calls that did. -/
theorem Machine.KeepsFrames.calls {inner : List Frame} (h : m₁.KeepsFrames q m inner) :
    Frame.calls m.frames = Frame.calls m₁.frames + Frame.calls inner := by
  obtain ⟨below, heq, hstays⟩ := h
  rw [heq, Frame.calls_append, Frame.calls_of_stays hstays, Nat.add_comm]

/-- Changes leave frames, if all assignments are to variables of blocks that are active above these
or may be assigned to. -/
theorem Follows.stays {above below : List Frame} (h : Follows (Watch.assigning c p) m m')
    (hm : m.frames = above ++ below)
    (hp : ∀ v, p v → Frame.Active v.owner (above ++ below) →
      Frame.Active v.owner above ∨ q v.owner) :
    ∃ above' below', m'.frames = above' ++ below' ∧ List.Forall₂ (Frame.Stays q) below below' ∧
      ∀ b, Frame.Active b above → Frame.Active b above' := by
  induction h with
  | refl => exact ⟨above, below, hm, Frame.forall₂_stays_refl below, fun _ h => h⟩
  | @tail m₁ m₂ _ hlink ih =>
    obtain ⟨above', below', hm₁, hstays, hactive⟩ := ih
    cases hlink.change with
    | quiet hquiet =>
      have hfixed := hquiet.frames
      rw [hm₁, List.map_append] at hfixed
      obtain ⟨above'', below'', hm₂, habove, hbelow⟩ := List.map_eq_append_iff.1 hfixed
      have hsame : List.Forall₂ (Frame.Stays q) above' above'' :=
        Frame.forall₂_stays_of_fixed habove
      refine ⟨above'', below'', hm₂, Frame.forall₂_stays_trans hstays
        (Frame.forall₂_stays_of_fixed hbelow), fun b hb => ?_⟩
      exact (Frame.active_of_stays hsame).2 (hactive b hb)
    | enter a =>
      exact ⟨.block a :: above', below', congrArg (_ :: ·) hm₁, hstays, fun b hb =>
        Frame.active_block.2 (.inr (hactive b hb))⟩
    | assign v x old hold hv =>
      by_cases habove : Frame.Active v.owner above'
      · refine ⟨Frame.setSlot v x above', below', ?_, hstays, fun b hb => ?_⟩
        · -- The variable's block is active above the call: only that slot changes.
          show Frame.setSlot v x m₁.frames = _
          rw [hm₁, Frame.setSlot_of_active habove]
        · rw [← Frame.active_bare, map_bare_setSlot, Frame.active_bare]
          exact hactive b hb
      · refine ⟨above', Frame.setSlot v x below', ?_, Frame.forall₂_stays_trans hstays
          (Frame.forall₂_stays_setSlot ?_ below'), hactive⟩
        · -- Else the slot lies below the call, and `q` holds for its block.
          show Frame.setSlot v x m₁.frames = _
          rw [hm₁, Frame.setSlot_of_not_active habove]
        · have howner := Frame.active_of_slot? hold
          rw [hm₁, Frame.active_append] at howner
          have hbelow := (Frame.active_of_stays hstays).1 (howner.resolve_left habove)
          refine (hp v hv (Frame.active_append.2 (.inr hbelow))).resolve_left fun h => ?_
          exact habove (hactive _ h)
    | bind env => exact ⟨above', below', hm₁, hstays, hactive⟩
    | write p value mem => exact ⟨above', below', hm₁, hstays, hactive⟩
    | host e run args => exact ⟨above', below', hm₁, hstays, hactive⟩
    | begin k env =>
      exact ⟨.contract k :: above', below', congrArg (_ :: ·) hm₁, hstays, fun b hb =>
        Frame.active_contract.2 (hactive b hb)⟩

/-! ### Steps -/

variable (hmarks : c.registry.arena.Marks) (hlex : c.registry.arena.Lexical c.registry.objects)

/-- Whether a machine has the frames of another one, and those that came later lie within each
other. -/
def Machine.RunsAbove (c : Context) (q : BlockId → Prop) (m₁ m : Machine) : Prop :=
  ∃ inner, m₁.KeepsFrames q m inner ∧ c.registry.Nested q (inner.map Frame.bare)

include hmarks hlex

omit hmarks in
/-- A step leaves the frames below some that lie within each other. -/
theorem Exec.step_keeps (hrun : ∀ b, Frame.Active b m₁.frames → c.registry.arena.Runnable b)
    (h : m₁.RunsAbove c q m) (hactive : m₁.frames.length < m.frames.length) :
    ∃ inner, m₁.KeepsFrames q (left (step c m)) inner := by
  obtain ⟨inner, ⟨below, hm, hbelow⟩, hnested⟩ := h
  obtain ⟨f, inner, rfl⟩ : ∃ f fs, inner = f :: fs := by
    refine List.exists_cons_of_ne_nil fun hnil => ?_
    have hlength := hbelow.length_eq
    rw [hm, hnil, List.nil_append] at hactive
    omega
  have hkeeps : ∀ {m' above}, m'.frames = above ++ below →
      (∀ v, (nextOp? c m = some .assign ∧ ∃ a rest, m.frames = .block a :: rest ∧
        .var v ∈ a.targets) →
        Frame.Active v.owner (above ++ below) → Frame.Active v.owner above ∨ q v.owner) →
      Follows (Watch.assigning c fun v => nextOp? c m = some .assign ∧
        ∃ a rest, m.frames = .block a :: rest ∧ .var v ∈ a.targets) m' (left (step c m)) →
      ∃ inner, m₁.KeepsFrames q (left (step c m)) inner := by
    intro m' above hm' hassigns hfollows
    obtain ⟨above', below', heq, hstays, -⟩ := hfollows.stays hm' hassigns
    exact ⟨above', below', heq, Frame.forall₂_stays_trans hbelow hstays⟩
  obtain ⟨m', hlead, hfollows⟩ := step_follows (c := c) (m := m)
    (p := fun v => nextOp? c m = some .assign ∧ ∃ a rest, m.frames = .block a :: rest ∧
      .var v ∈ a.targets)
    fun a rest v hframes hop hv => ⟨hop, a, rest, hframes, hv⟩
  cases hlead with
  | stay =>
    refine hkeeps hm (fun v hv howner => ?_) hfollows
    obtain ⟨-, a, rest, hframes, hv⟩ := hv
    -- the innermost block lies within the blocks that its code names
    rw [hm, List.cons_append] at hframes
    obtain ⟨rfl, -⟩ := List.cons.inj hframes
    have hreaching : c.registry.Reaching q a.bare (inner.map Frame.bare) := hnested.1
    have hsees := hlex.scopes.vars a.block v (.inr (hreaching.targets _ hv))
    have hrunnable : c.registry.arena.Runnable v.owner := by
      rcases Frame.active_append.1 howner with ⟨b, hb, heq⟩ | howner
      · exact heq ▸ hnested.runnable (a := b.bare) (List.mem_map_of_mem hb)
      · exact hrun _ ((Frame.active_of_stays hbelow).1 howner)
    refine (hreaching.active hsees.within hrunnable).imp_left fun h => ?_
    have h : Frame.Active v.owner ((.block a :: inner).map Frame.bare) := h
    exact Frame.active_bare.1 h
  | drop a rest status cost ticks hframes hleaving =>
    have htail : (dropBlock a rest { m with cost := cost, ticks := ticks }).frames
      = inner ++ below := by
      rw [hm, List.cons_append] at hframes
      exact (List.cons.inj hframes).2.symm
    refine hkeeps htail (fun v hv _ => ?_) hfollows
    obtain ⟨b, fs, i, hb, hending, hcode, hi⟩ := nextOp?_eq_some hv.1
    cases hframes.symm.trans hb
    rw [leaving?, hframes] at hleaving
    simp only [hending, hcode, hi] at hleaving
    cases hleaving
  | finish k rest hframes =>
    have htail : (finished k rest m).frames = inner ++ below := by
      rw [hm, List.cons_append] at hframes
      exact (List.cons.inj hframes).2.symm
    refine hkeeps htail (fun v hv _ => ?_) hfollows
    obtain ⟨b, fs, -, hb, -⟩ := nextOp?_eq_some hv.1
    cases hframes.symm.trans hb

/-- **A step keeps what lies below a block or contract** until that has ended. -/
theorem Machine.RunsAbove.step (hrun : ∀ b, Frame.Active b m₁.frames → c.registry.arena.Runnable b)
    (h : m₁.RunsAbove c q m) (hactive : m₁.frames.length < m.frames.length)
    (hstep : Exec.step c m = .ok () m') : m₁.RunsAbove c q m' := by
  obtain ⟨inner', below', hm', hbelow'⟩ := step_keeps hlex hrun h hactive
  obtain ⟨inner, ⟨below, hm, hbelow⟩, hnested⟩ := h
  rw [hstep] at hm'
  have hm' : m'.frames = inner' ++ below' := hm'
  refine ⟨inner', ⟨below', hm', hbelow'⟩, ?_⟩
  have houtline : m.outline = inner.map Frame.bare ++ below.map Frame.bare := by
    rw [Machine.outline, hm, List.map_append]
  have hne : inner.map Frame.bare ≠ [] := by
    intro hnil
    have hlength := hbelow.length_eq
    rw [hm, List.map_eq_nil_iff.1 hnil, List.nil_append] at hactive
    omega
  have hframes : m.frames ≠ [] := List.ne_nil_of_length_pos (by omega)
  obtain ⟨above, hnext, hnested'⟩ :=
    (step_turn hstep hframes).nested hmarks hlex houtline hne hnested
  -- both ways to split the frames cut off as many
  rw [Machine.outline, hm', List.map_append] at hnext
  have hlength : (below'.map Frame.bare).length = (below.map Frame.bare).length := by
    rw [List.length_map, List.length_map, ← hbelow'.length_eq, ← hbelow.length_eq]
  rw [(List.append_inj' hnext hlength).1]
  exact hnested'

theorem During.runsAbove {m₂ : Machine}
    (hrun : ∀ b, Frame.Active b m₁.frames → c.registry.arena.Runnable b) (hm₂ : m₁.RunsAbove c q m₂)
    (h : During c m₁.frames.length m₂ m) : m₁.RunsAbove c q m := by
  induction h with
  | start => exact hm₂
  | step _ hactive hstep ih => exact ih.step hmarks hlex hrun hactive hstep

omit hmarks hlex in
/-- An assignment starts nothing. -/
theorem Exec.length_frames_of_assign (hop : nextOp? c m = some .assign) (h : step c m = .ok () m') :
    m'.frames.length = m.frames.length := by
  obtain ⟨a, rest, -, hframes, -⟩ := nextOp?_eq_some hop
  rw [(step_of_nextOp? hop).1] at h
  obtain ⟨u, m₁, htick, h⟩ := bind_eq_ok h
  have hm₁ : m₁.frames = .block a :: rest := (frames_of_tick htick).trans hframes
  rw [perform_assign hm₁] at h
  obtain ⟨u', m₂, hset, h⟩ := bind_eq_ok h
  cases (modifyTop_eq hm₁).symm.trans hset
  have hstill : Still (do
      let values ← popN a.targets.length
      assignAll c a.targets values
      advance) :=
    .bind (.of_plain (plain_popN _)) fun values => .bind (still_assignAll c a.targets values)
      fun _ => .of_plain plain_advance
  have hlength := congrArg List.length
    (hstill { m₁ with frames := .block { a with targets := [] } :: rest })
  rw [h, Machine.outline, Machine.outline, List.length_map, List.length_map] at hlength
  rw [hframes]
  exact hlength

omit hmarks hlex in
/-- A step that ends a block or contract first leaves fewer frames. -/
theorem Lead.shorter {r : EStateM.Result Stop Machine Unit} (h : Lead c m r m') :
    m' = m ∨ (left r).frames.length < m.frames.length := by
  have hshorter : ∀ {f : Frame} {rest : List Frame}, m.frames = f :: rest →
      (left r).outline = rest.map Frame.bare → (left r).frames.length < m.frames.length := by
    intro f rest hframes houtline
    have hlength := congrArg List.length houtline
    rw [Machine.outline, List.length_map, List.length_map] at hlength
    rw [hlength, hframes]
    exact Nat.lt_succ_self _
  cases h with
  | stay => exact .inl rfl
  | drop a rest status cost ticks hframes _ hr =>
    refine .inr (hshorter hframes ?_)
    rw [hr]
    exact (Still.of_plain (plain_behindBlock c a status)) _
  | finish k rest hframes _ hr =>
    refine .inr (hshorter hframes ?_)
    rw [hr]
    exact still_behindContract k _ _

/-- What a step starts may be on top of any frames, if what lies around it is out of sight. -/
theorem Turn.nested_start {out : BlockId → Prop} {f : Frame} {fs : List Frame}
    (hnested : c.registry.Nested out m.outline) (h : Turn c m m') (hm' : m'.frames = f :: fs)
    (hlonger : m.frames.length ≤ fs.length) :
    fs.length = m.frames.length ∧ c.registry.Nested (f.Encloses c.registry.arena) [f.bare] := by
  have hhead : ∀ {g : Frame} {gs : List Frame}, m'.outline = g :: gs →
      f.bare = g ∧ fs.length = gs.length := by
    intro g gs hgs
    rw [Machine.outline, hm', List.map_cons] at hgs
    obtain ⟨hf, hfs⟩ := List.cons.inj hgs
    exact ⟨hf, by rw [← hfs, List.length_map]⟩
  have hblock : ∀ {b : Activation}, f.bare = .block b → c.registry.arena.Runnable b.block →
      b.targets = [] → c.registry.Nested (f.Encloses c.registry.arena) [f.bare] := by
    intro b hf hrun htargets
    have hencloses : f.Encloses c.registry.arena = (Frame.block b).Encloses c.registry.arena := by
      rw [← hf, Frame.encloses_bare]
    rw [hencloses, hf]
    refine ⟨⟨hrun, fun t ht => ?_, fun b' hb hne _ => .inr ⟨hb, hne⟩⟩, trivial⟩
    rw [htargets] at ht
    exact absurd ht List.not_mem_nil
  -- Only the turns that start something leave a frame on top of all that were there.
  cases h with
  | instruction a rest i hframes _ hcode hshift =>
    have hi : i ∈ (c.block a.bare.block).code := Array.mem_of_getElem? hcode
    rw [hframes, List.length_cons] at hlonger ⊢
    generalize hgs : m'.outline = gs at hshift
    cases hshift with
    | stay | aim =>
      have hlength := (hhead hgs).2
      rw [List.length_map] at hlength
      omega
    | leave =>
      have hlength := congrArg List.length hgs
      rw [Machine.outline, hm', List.length_map, List.length_map, List.length_cons] at hlength
      omega
    | enter b hop htargets =>
      obtain ⟨hf, hlength⟩ := hhead hgs
      rw [List.length_cons, List.length_map] at hlength
      exact ⟨hlength, hblock hf (Registry.runnable_of_starts hmarks hi hop) htargets⟩
    | call k id hsections _ _ hcontract =>
      obtain ⟨hf, hlength⟩ := hhead hgs
      rw [List.length_cons, List.length_map] at hlength
      refine ⟨hlength, ?_⟩
      rw [hf]
      exact ⟨fun s hs => hlex.alone_of_section hcontract (hsections ▸ hs), trivial⟩
  | «section» k rest s ss b hframes hsections hb htargets houtline =>
    obtain ⟨hf, hlength⟩ := hhead houtline
    rw [List.length_cons, List.length_map] at hlength
    rw [Machine.outline, hframes] at hnested
    have halone := hnested.1 s (hsections ▸ List.mem_cons_self ..)
    refine ⟨by rw [hframes]; exact hlength, hblock hf (.inl ?_) htargets⟩
    exact hb ▸ halone.func
  | leave a rest hframes _ houtline | finish k rest hframes _ houtline =>
    have hlength := congrArg List.length houtline
    rw [Machine.outline, hm', List.length_map, List.length_map, List.length_cons] at hlength
    rw [hframes, List.length_cons] at hlonger
    omega

/-- A block or contract that is started lies on top of the frames that are there. -/
theorem Exec.runsAbove_of_start {out : BlockId → Prop} {f : Frame} {fs : List Frame}
    (hnested : c.registry.Nested out m.outline) (hstep : step c m = .ok () m')
    (hm' : m'.frames = f :: fs) (hlonger : m.frames.length ≤ fs.length) :
    m.RunsAbove c (f.Encloses c.registry.arena) m' := by
  have hframes : m.frames ≠ [] := by
    intro hnil
    rw [step_of_nil hnil] at hstep
    cases hstep
    cases hnil.symm.trans hm'
  obtain ⟨hlength, hstart⟩ := (step_turn hstep hframes).nested_start hmarks hlex hnested hm' hlonger
  have hsize : m'.frames.length = m.frames.length + 1 := by rw [hm', List.length_cons, hlength]
  obtain ⟨m₁, hlead, hfollows⟩ := step_follows (c := c) (m := m) (p := fun _ => False)
    fun a rest v _ hop _ => by
      have hassign := length_frames_of_assign hop hstep
      omega
  rw [hstep] at hlead hfollows
  rcases hlead.shorter with rfl | hshorter
  · obtain ⟨above, below, heq, hstays, -⟩ :=
      hfollows.stays (List.nil_append m₁.frames).symm (q := f.Encloses c.registry.arena) nofun
    have heq : [f] ++ fs = above ++ below := hm'.symm.trans heq
    obtain ⟨rfl, rfl⟩ := List.append_inj' heq (hlength.trans hstays.length_eq)
    exact ⟨[f], ⟨fs, hm', hstays⟩, hstart⟩
  · have hshorter : m'.frames.length < m.frames.length := hshorter
    omega

end

/-- A call begins with a step. -/
theorem Invokes.first {c : Context} {m m' : Machine} {id : BlockId} {role : Role} {n : Nat}
    (h : Invokes c m id role n m') : Exec.step c m = .ok () m' := by
  cases h with
  | call _ _ hstep => exact hstep
  | «section» _ _ hstep => exact hstep

/-! ### Calls that end at once -/

namespace Exec

variable {c : Context} {m : Machine}

/-- Whether a computation leaves what is active as it is, or succeeds and puts one frame on top. -/
def Adds (x : Exec Unit) : Prop :=
  ∀ m, (left (x m)).outline = m.outline ∨ ∃ m' f, x m = .ok () m' ∧ m'.outline = f :: m.outline

theorem Still.adds {x : Exec Unit} (hx : Still x) : Adds x := fun m => .inl (hx m)

/-- A part that leaves the frames alone can come first. -/
theorem Adds.behind {α : Type} {x : Exec α} {k : α → Exec Unit} (hx : Still x)
    (hk : ∀ a, Adds (k a)) :
    Adds (x >>= k) := by
  intro m
  have hstill := hx m
  cases hr : x m with
  | error e m' =>
    rw [hr] at hstill
    rw [bind_of_error hr]
    exact .inl hstill
  | ok a m' =>
    rw [hr] at hstill
    rw [bind_of_ok hr, ← show m'.outline = m.outline from hstill]
    exact hk a m'

theorem adds_enterBlock (c : Context) (id : BlockId) (given : List Value) (role : Role) :
    Adds (enterBlock c id given role) := by
  unfold enterBlock
  split
  · exact (Still.throw _).adds
  · exact .behind (.of_plain (plain_defaults _)) fun rest m => .inr ⟨_, _, rfl, rfl⟩

theorem adds_callFunc (c : Context) (id : BlockId) (count : Option Nat) :
    Adds (callFunc c id count) := by
  rw [callFunc_eq]
  exact .behind (.of_plain (plain_callSlots c id count)) fun slots =>
    .behind (still_pay _ _) fun _ =>
    .behind (.of_plain (plain_checkDepth c)) fun _ => adds_enterBlock c id slots .call

theorem adds_callContract (c : Context) (name names : String) (values : List Value)
    (via : Option Extension) :
    Adds (callContract c name names values via) := by
  rw [callContract_eq]
  exact .behind (.of_plain (plain_contractParams c (sees_id _))) fun p => .behind (still_pay _ _)
    fun _ m => .inr ⟨_, _, rfl, rfl⟩

theorem adds_behave (c : Context) (e : Extension) (args : List Value) : Adds (behave c e args) := by
  unfold behave
  split
  · exact (still_callHost e _ args).adds
  · exact .behind (fun _ => rfl) fun _ => adds_callContract c _ _ _ (some e)
  · exact .behind (fun _ => rfl) fun _ => .behind (.of_plain (.ofExcept _)) fun _ =>
      adds_callContract c _ _ _ (some e)

/-- A call of any kind adds one frame at most. -/
theorem adds_call (c : Context) (f : Callee) (count : Option Nat) : Adds (call c f count) := by
  cases f with
  | func id => exact adds_callFunc c id count
  | ext e =>
    unfold call
    dsimp only
    rw [callExtension_eq, extensionArgs_eq]
    simp only [bind_assoc, pure_bind]
    exact .behind (.of_plain (plain_extensionParams (fun key _ => sees_id key) count)) fun args =>
      .behind (still_pay _ _) fun _ => .behind (.of_plain (plain_checkDepth c))
        fun _ => adds_behave c e args

/-- A call starts something on top of what is active, or leaves it alone. -/
theorem adds_perform (c : Context) {op : Op} (hop : op.isCall = true) : Adds (perform c op) := by
  cases op with
  | callExtend name =>
    refine .behind (.of_plain plain_popCount) fun count => ?_
    split
    · exact adds_call c (.ext _) (some count)
    · exact (Still.throw _).adds
  | call f => exact adds_call c f none
  | callVariadic f =>
    exact .behind (.of_plain plain_popCount) fun count => adds_call c f (some count)
  | _ => cases hop

/-- The step of a call does so, too. -/
theorem step_adds {op : Op} (hop : nextOp? c m = some op) (hcall : op.isCall = true) :
    (left (step c m)).outline = m.outline ∨
      ∃ m' f, step c m = .ok () m' ∧ m'.outline = f :: m.outline := by
  rw [(step_of_nextOp? hop).1]
  exact Adds.behind (still_tick c) (fun _ => adds_perform c hcall) m

end Exec

/-! ### Runs -/

/-- What is restored of a machine: its frames, whose variables have their values unless their block
may be assigned to, the number of its variables and that of its calls in progress. -/
structure Machine.Restores (q : BlockId → Prop) (m₁ m : Machine) : Prop where
  frames : List.Forall₂ (Frame.Stays q) m₁.frames m.frames
  slots : m.slots.length = m₁.slots.length
  depth : m.depth = m₁.depth

/-- Two machines that count their calls and have the same frames have as many. -/
theorem Machine.Restores.of_stays {c : Context} {q : BlockId → Prop} {m₁ m : Machine}
    (h : List.Forall₂ (Frame.Stays q) m₁.frames m.frames) (hm₁ : m₁.Counted c 0)
    (hm : m.Counted c 0) :
    m₁.Restores q m :=
  ⟨h, Frame.length_slots_of_stays h, by rw [hm.depth, hm₁.depth, Frame.calls_of_stays h]⟩

/-- What taking an error out through some frames leaves. -/
theorem Registry.restores_unwind {c : Context} {q : BlockId → Prop} {m₁ m : Machine} (r : Registry)
    {inner : List Frame} (h : m₁.KeepsFrames q m inner) (hm₁ : m₁.Counted c 0) (hm : m.Counted c 0)
    (line : Option Nat) (e : Error) : m₁.Restores q (r.unwind inner line e m).2 := by
  obtain ⟨below, hframes, hstays⟩ := h
  rw [r.unwind_snd]
  refine .of_stays ?_ hm₁ (hm.iterate_giveUp inner.length)
  rw [Machine.frames_iterate_giveUp, hframes, List.drop_left]
  exact hstays

/-- What a block or contract that a step has put on top of a machine does to the frames that are
there. -/
structure Machine.KeptBelow (c : Context) (m₁ : Machine) (f : Frame) (m₂ : Machine) : Prop where
  /-- As long as it is active, they lie below it. -/
  active : ∀ m₃, During c m₁.frames.length m₂ m₃ →
    ∃ inner, m₁.KeepsFrames (f.Encloses c.registry.arena) m₃ inner ∧
      m₃.depth = m₁.depth + Frame.calls inner
  /-- When it has ended, they are all that is left. -/
  returns : ∀ m₃, During c m₁.frames.length m₂ m₃ → m₃.frames.length = m₁.frames.length →
    m₁.Restores (f.Encloses c.registry.arena) m₃
  /-- When a step fails before, they are all that is left once the error is taken out through it. -/
  fails : ∀ m₃ g m₄, During c m₁.frames.length m₂ m₃ → m₁.frames.length < m₃.frames.length →
    Exec.step c m₃ = .error (.fault g) m₄ → ∃ inner outer, m₄.frames = inner ++ outer ∧
      ∀ line e, m₁.Restores (f.Encloses c.registry.arena) (c.registry.unwind inner line e m₄).2

/-- Whether nothing is active. -/
structure Machine.Idle (m : Machine) : Prop where
  frames : m.frames = []
  slots : m.slots = []
  depth : m.depth = 0

/-- Without frames there are no variables and no calls left. -/
theorem Machine.Idle.of_frames {c : Context} {m : Machine} (hframes : m.frames = [])
    (hm : m.Counted c 0) :
    m.Idle := by
  have hdepth := hm.depth
  rw [hframes] at hdepth
  refine ⟨hframes, ?_, hdepth⟩
  show m.frames.flatMap Frame.slots = []
  rw [hframes, List.flatMap_nil]

/-- What a run does to the frames, the variables and the number of calls in progress. -/
structure Launch.KeepsFrames (l : Launch) (c : Context) (m₀ : Machine) : Prop where
  /-- There are never more calls in progress than are allowed. -/
  bound : ∀ m q r, Transition c l m₀ m q r → (left r).depth ≤ c.limits.maxCallDepth
  /-- A block or contract that a step starts keeps what was there. -/
  starts : ∀ m q m₁ m₂ f fs, Transition c l m₀ m q (.ok () m₁) → Exec.step c m₁ = .ok () m₂ →
    m₂.frames = f :: fs → m₁.frames.length ≤ fs.length → m₁.KeptBelow c f m₂
  /-- A call that starts nothing has ended with its step, be it in a failure, and keeps what was
  there. -/
  calls : ∀ m q m₁ op, Transition c l m₀ m q (.ok () m₁) → nextOp? c m₁ = some op →
    op.isCall = true →
    m₁.Restores (fun _ => False) (left (Exec.step c m₁)) ∨
      ∃ m₂ f fs, Exec.step c m₁ = .ok () m₂ ∧ m₂.frames = f :: fs ∧ m₁.frames.length ≤ fs.length
  /-- Nothing is left when the run has ended. -/
  ends : ∀ fuel m, (do l.start c; Exec.loop c fuel : Exec Unit) m₀ = .ok () m → m.Idle
  /-- Nothing is left of a run that fails when its error has been taken out. -/
  fails : ∀ fuel g m line e, (do l.start c; Exec.loop c fuel : Exec Unit) m₀ = .error (.fault g) m →
    (c.registry.unwind m.frames line e m).2.Idle

namespace Launch

variable {s : Session} {l : Launch} {allowance : Option Nat} {clock : Nat → Nat} {m₀ m : Machine}
  {q : Option Request} {r : EStateM.Result Stop Machine Unit}

/-- A call that starts nothing leaves the frames. -/
theorem restores_call {c : Context} {m₁ : Machine} {op : Op} (hm₁ : m₁.Counted c 0)
    (hop : nextOp? c m₁ = some op) (hcall : op.isCall = true)
    (houtline : (left (Exec.step c m₁)).outline = m₁.outline) :
    m₁.Restores (fun _ => False) (left (Exec.step c m₁)) := by
  have hlength : (left (Exec.step c m₁)).frames.length = m₁.frames.length := by
    have hsame := congrArg List.length houtline
    rwa [Machine.outline, Machine.outline, List.length_map, List.length_map] at hsame
  obtain ⟨m', hlead, hfollows⟩ := step_follows (c := c) (m := m₁) (p := fun _ => False)
    fun a rest v _ hassign _ => by
      cases hop.symm.trans hassign
      cases hcall
  rcases hlead.shorter with rfl | hshorter
  · obtain ⟨above, below, heq, hstays, -⟩ :=
      hfollows.stays (List.nil_append m'.frames).symm (q := fun _ => False)
        fun _ hfalse _ => hfalse.elim
    obtain rfl : above = [] := by
      have hbelow := hstays.length_eq
      rw [heq, List.length_append] at hlength
      exact List.eq_nil_of_length_eq_zero (by omega)
    exact .of_stays (heq ▸ hstays) hm₁ (Exec.counts_step c m' hm₁).left
  · omega

/-- **A run keeps the frames of callers.** In a run that is started with a function or a contract,
there are never too many calls in progress. What a step starts lies on top of the frames that are
there; these have their variables as long as it is active, and those of blocks that do not lie
around what was started have the values that they had. When it has ended, or an error has been taken
out through it, nothing else is left, and as many calls are in progress as before. When the run has
ended, be it in a failure, nothing is left. -/
theorem frames_kept (hs : s.Reachable)
    (hl : ∀ id params, l = func id params → ((s.registry.block id).func?).isSome)
    (hm₀ : m₀.frames = []) (hdepth : m₀.depth = 0) :
    l.KeepsFrames (s.context allowance clock) m₀ := by
  have hlex := hs.lexical
  have hmarks := hs.known.now.marks
  have hbegin : m₀.Counted (s.context allowance clock) 0 := by
    refine ⟨?_, ?_⟩
    · rw [hm₀, hdepth]
      rfl
    · rw [hdepth]
      exact Nat.zero_le _
  -- The depth counts the calls among the frames in every state of the run.
  have hcounted : ∀ {m q r}, Transition (s.context allowance clock) l m₀ m q r →
      (left r).Counted (s.context allowance clock) 0 := fun h => (h.counted hbegin).left
  have hconcludes := l.concludes (s.context allowance clock) m₀
  refine ⟨fun m q r h => (hcounted h).bound, fun m q m₁ m₂ f fs h hstep hm₂ hlonger => ?starts,
    fun m q m₁ op h hop hcall => ?calls, fun fuel m hrun => ?ends,
    fun fuel g m line e hrun => ?fails⟩
  case starts =>
    have hm₁ : m₁.Counted (s.context allowance clock) 0 := hcounted h
    -- Frames stand in the order of the blocks' nesting, so each can run in the one below.
    have hnested : s.registry.Nested (fun _ => True) m₁.outline := by
      refine h.nested (c := s.context allowance clock) hmarks hlex hm₀
        (fun id params hfunc => ?_) m₁ rfl
      obtain ⟨info, hinfo⟩ := Option.isSome_iff_exists.1 (hl id params hfunc)
      exact ⟨.inl ⟨_, Block.standing_of_func? hinfo⟩, fun _ _ _ _ => trivial⟩
    have hrun : ∀ b, Frame.Active b m₁.frames → s.registry.arena.Runnable b := by
      rintro b ⟨a, ha, rfl⟩
      exact hnested.runnable (a := a.bare) (List.mem_map_of_mem ha)
    have hsecond : m₂.Counted (s.context allowance clock) 0 := by
      have hcounts := counts_step (s.context allowance clock) m₁ hm₁
      rwa [hstep] at hcounts
    -- As long as the call lasts, what was there when it started lies below what it adds.
    have habove : ∀ {m₃}, During (s.context allowance clock) m₁.frames.length m₂ m₃ →
        m₁.RunsAbove (s.context allowance clock) (f.Encloses s.registry.arena) m₃ := fun hduring =>
      hduring.runsAbove hmarks hlex hrun
        (Exec.runsAbove_of_start hmarks hlex hnested hstep hm₂ hlonger)
    refine ⟨fun m₃ hduring => ?_, fun m₃ hduring hends => ?_,
      fun m₃ g m₄ hduring hactive hfails => ?_⟩
    · obtain ⟨inner, hkeeps, -⟩ := habove hduring
      refine ⟨inner, hkeeps, ?_⟩
      rw [(hduring.counted hsecond).depth, hm₁.depth, hkeeps.calls]
    · obtain ⟨inner, ⟨below, heq, hstays⟩, -⟩ := habove hduring
      obtain rfl : inner = [] := by
        have hlength := hstays.length_eq
        rw [heq, List.length_append] at hends
        exact List.eq_nil_of_length_eq_zero (by omega)
      exact .of_stays (heq ▸ hstays) hm₁ (hduring.counted hsecond)
    · -- An error leaves the frames of the call in place; unwinding takes off exactly these.
      obtain ⟨inner, hkeeps⟩ := Exec.step_keeps hlex hrun (habove hduring) hactive
      have hfailed := (counts_step (s.context allowance clock) m₃ (hduring.counted hsecond)).left
      rw [hfails] at hkeeps hfailed
      obtain ⟨below, heq, hstays⟩ := hkeeps
      exact ⟨inner, below, heq, s.registry.restores_unwind ⟨below, heq, hstays⟩ hm₁ hfailed⟩
  case calls =>
    -- A call that pushes no frame is over at once.
    rcases Exec.step_adds hop hcall with houtline | ⟨m₂, f, hstep, houtline⟩
    · exact .inl (restores_call (hcounted h) hop hcall houtline)
    · obtain ⟨g, fs, hm₂, -, hfs⟩ := List.map_eq_cons_iff.1 houtline
      have hlength := congrArg List.length hfs
      rw [Machine.outline, List.length_map, List.length_map] at hlength
      exact .inr ⟨m₂, g, fs, hstep, hm₂, hlength.ge⟩
  case ends =>
    have hend := hconcludes fuel
    rw [hrun] at hend
    obtain ⟨m', q, r, htrans, hleft⟩ := hend.transition
    exact .of_frames hend.frames (hleft ▸ hcounted htrans)
  case fails =>
    obtain ⟨m', q, r, htrans, hleft⟩ := (hconcludes fuel).transition
    rw [hrun] at hleft
    have hm : m.Counted (s.context allowance clock) 0 := by
      have hlast := hcounted htrans
      rwa [hleft] at hlast
    rw [Registry.unwind_snd]
    refine .of_frames ?_ (hm.iterate_giveUp m.frames.length)
    rw [Machine.frames_iterate_giveUp, List.drop_length]

/-- The inner function of `nestedFunction` calls itself: the call that was active before has its
variables when the new one has returned, and the outer function has as many as before. -/
theorem nestedFunction_frames_kept : ∃ m q m₁ m₂ m₃ f,
    Transition (nestedFunction.context none fun _ => 0) (func 1 [.int 2]) emptyMachine m q
    (.ok () m₁) ∧
      Exec.step (nestedFunction.context none fun _ => 0) m₁ = .ok () m₂ ∧ m₂.frames.head? = some f ∧
      f.block? = some 2 ∧ Frame.Active 2 m₁.frames ∧
      During (nestedFunction.context none fun _ => 0) m₁.frames.length m₂ m₃ ∧
      List.Forall₂ (Frame.Stays
        (f.Encloses (nestedFunction.context none fun _ => 0).registry.arena))
        m₁.frames m₃.frames ∧
      m₃.depth = m₁.depth := by
  obtain ⟨houter, hinner, hsteps⟩ : ((nestedFunction.registry.block 1).func?).isSome = true ∧
      (((nestedFunction.context none fun _ => 0).block 2).func?).isSome = true ∧
      ((func 1 [.int 2]).machineAfter (nestedFunction.context none fun _ => 0) 14 emptyMachine).any
        (fun m => (callMade? (nestedFunction.context none fun _ => 0) 2 20 m).any
          fun _ => m.frames.any fun f => f.block? == some 2) = true := by
    simp only [nestedFunction, callingSession, Session.perform_compile, String.toList_append,
      String.reduceToList]
    decide +kernel
  -- A call of the inner function while its block is active in the outer one.
  obtain ⟨m, q, m₁, m₂, m', m₃, htrans, hcall, hactive⟩ := exists_call hsteps
  obtain ⟨info, hinfo⟩ := Option.isSome_iff_exists.1 hinner
  obtain ⟨hspots, -⟩ := hcall.invokes.starts hinfo
  have hstep := hcall.invokes.first
  obtain ⟨f, fs, hm₂, hf, hfs⟩ := List.map_eq_cons_iff.1 hspots
  have hlength := congrArg List.length hfs
  rw [List.length_map, m₁.length_spots] at hlength
  have hreachable : nestedFunction.Reachable := reachable_callingSession _
  have hfunc : ∀ id params, func 1 [.int 2] = func id params →
      ((nestedFunction.registry.block id).func?).isSome := by
    rintro id params h
    cases h
    exact houter
  have hkeeps : (func 1 [.int 2]).KeepsFrames
    (nestedFunction.context none fun _ => 0) emptyMachine :=
    frames_kept hreachable hfunc rfl rfl
  have hkept := hkeeps.starts m q m₁ m₂ f fs htrans hstep hm₂ hlength.ge
  obtain ⟨hstays, -, hdepth⟩ :=
    hkept.returns m₃ (hcall.during.step hcall.active hcall.last) hcall.ends
  refine ⟨m, q, m₁, m₂, m₃, f, htrans, hstep, by rw [hm₂]; rfl, ?_, ?_,
    hcall.during.step hcall.active hcall.last, hstays, hdepth⟩
  · cases f with
    | block a => exact congrArg (·.map Prod.fst) hf
    | contract k => cases hf
  · obtain ⟨g, hg, hblock⟩ := List.any_eq_true.1 hactive
    exact Frame.active_iff_block?.2 ⟨g, hg, beq_iff_eq.1 hblock⟩

end Launch

end Covenant
