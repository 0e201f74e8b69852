import Covenant.Proofs.Machine.Runs
import Covenant.Proofs.Machine.Views

/-!
# The depth of calls

A machine counts the calls in progress: those of functions, and those of extensions that have
started a contract. The count is that of the frames that calls have put there (`Machine.Counted`).
Every step keeps this, also one that fails (`Exec.counts_step`), and so does giving up a frame. So a
run in which nothing is active any more has no calls in progress, and none has more than are
allowed.

Most of what the machine does leaves the count alone (`Exec.Level`).
-/

namespace Covenant

open Covenant.Computation

/-- Whether a frame is there because of a call that is counted. -/
def Frame.isCall : Frame → Bool
  | .block a => a.role == .call
  | .contract k => k.via.isSome

/-- How many frames are there because of calls that are counted. -/
def Frame.calls (fs : List Frame) : Nat := fs.countP Frame.isCall

theorem Frame.calls_cons (f : Frame) (fs : List Frame) :
    Frame.calls (f :: fs) = Frame.calls fs + if f.isCall then 1 else 0 := List.countP_cons

theorem Frame.calls_append (fs gs : List Frame) :
    Frame.calls (fs ++ gs) = Frame.calls fs + Frame.calls gs := List.countP_append

theorem Frame.calls_bare (fs : List Frame) : Frame.calls (fs.map Frame.bare) = Frame.calls fs := by
  rw [Frame.calls, List.countP_map]
  refine List.countP_congr fun f _ => ?_
  cases f <;> exact Iff.rfl

theorem Frame.calls_block (a : Activation) (fs : List Frame) :
    Frame.calls (.block a :: fs) = Frame.calls fs + a.role.calls := by
  rw [Frame.calls_cons, Frame.isCall]
  cases a.role <;> rfl

theorem Frame.calls_contract (k : ContractCall) (fs : List Frame) :
    Frame.calls (.contract k :: fs) = Frame.calls fs + k.calls := Frame.calls_cons ..

/-- Whether a machine counts the calls that have frames, and there is room for some more. -/
structure Machine.Counted (c : Context) (room : Nat) (m : Machine) : Prop where
  depth : m.depth = Frame.calls m.frames
  bound : m.depth + room ≤ c.limits.maxCallDepth

namespace Machine.Counted

variable {c : Context} {m : Machine} {i j : Nat}

theorem mono (h : m.Counted c i) (hij : j ≤ i) : m.Counted c j := by
  have hbound := h.bound
  exact ⟨h.depth, by omega⟩

/-- A block that has ended is counted no more. -/
theorem dropBlock {a : Activation} {rest : List Frame} (h : m.Counted c i)
    (hframes : m.frames = .block a :: rest) : (Exec.dropBlock a rest m).Counted c i := by
  have hdepth := h.depth
  have hbound := h.bound
  rw [hframes, Frame.calls_block] at hdepth
  constructor
  · show m.depth - a.role.calls = Frame.calls rest
    omega
  · show m.depth - a.role.calls + i ≤ _
    omega

/-- A contract that has ended is counted no more. -/
theorem finished {k : ContractCall} {rest : List Frame} (h : m.Counted c i)
    (hframes : m.frames = .contract k :: rest) : (Exec.finished k rest m).Counted c i := by
  have hdepth := h.depth
  have hbound := h.bound
  rw [hframes, Frame.calls_contract] at hdepth
  constructor
  · show m.depth - k.calls = Frame.calls rest
    omega
  · show m.depth - k.calls + i ≤ _
    omega

/-- A frame that is given up is counted no more. -/
theorem giveUp (h : m.Counted c i) : m.giveUp.Counted c i := by
  rcases hframes : m.frames with _ | ⟨a | k, rest⟩ <;> simp only [Machine.giveUp, hframes]
  · exact h
  · exact h.dropBlock hframes
  · exact h.finished hframes

theorem iterate_giveUp (h : m.Counted c i) (n : Nat) : (Machine.giveUp^[n] m).Counted c i := by
  induction n generalizing m with
  | zero => exact h
  | succ n ih => exact ih h.giveUp

end Machine.Counted

namespace Exec

variable {α β : Type} {c : Context} {m m' : Machine}

/-! ### What leaves the count alone -/

/-- Whether a computation leaves the number of calls in progress as it is. -/
abbrev Level (x : Exec α) : Prop := Preserves Machine.depth x

/-- The number of calls in progress is beside values. -/
theorem aside_depth : Machine.Aside Machine.depth :=
  ⟨fun _ _ => rfl, fun _ _ => rfl, fun _ _ => rfl, fun _ _ => rfl, fun _ _ => rfl, fun _ _ => rfl,
    fun _ _ _ => rfl⟩

theorem level_modifyTop (f : Activation → Activation) : Level (modifyTop f) :=
  .modify fun m => by split <;> rfl

theorem level_advance : Level advance := level_modifyTop _

theorem level_callSlots (c : Context) (id : BlockId) (count : Option Nat) :
    Level (callSlots c id count) :=
  preserves_callSlots aside_depth (fun _ _ => rfl) c id count

theorem level_extensionParams (e : Extension) (count : Option Nat) :
    Level (extensionParams e count) :=
  preserves_extensionParams aside_depth (fun _ _ => rfl) e count

theorem level_deliver (e : Extension) (results : List Value) : Level (deliver e results) := by
  unfold deliver
  split
  · refine .get_bind fun _ => .bind (.ofExcept _) fun n => ?_
    exact .bind (preserves_charge aside_depth _) fun _ => preserves_pushAll aside_depth _
  · exact preserves_pushAll aside_depth _

/-- What a block returns to goes on with the same number of calls. -/
theorem level_continueBehind (role : Role) (base : Nat) (status : Status) :
    Level (continueBehind role base status) := by
  have hending : Level (modify fun m => { m with ending := some status } : Exec PUnit) :=
    .modify fun _ => rfl
  cases role with
  | entry => exact .pure _
  | «section» => exact .get_bind fun _ => .ite (.throw_bind _) (preserves_truncate aside_depth base)
  | branch =>
    cases status with
    | normal => exact level_advance
    | «return» | «continue» | «break» => exact hending
  | loop =>
    cases status with
    | «return» => exact hending
    | «break» | normal | «continue» => exact level_modifyTop _
  | call => exact level_advance

/-- So does what follows a block. -/
theorem level_behindBlock (c : Context) (a : Activation) (status : Status) :
    Level (behindBlock c a status) := by
  have htruncate := preserves_truncate aside_depth a.base
  have hcontinue : ∀ status, Level (continueBehind a.role a.base status) := level_continueBehind _ _
  unfold behindBlock
  split
  · exact .ite (.bind htruncate fun _ => hcontinue _) (hcontinue _)
  · exact .ite (.bind (preserves_keepResults aside_depth _ _) fun _ => hcontinue _)
      (.bind htruncate fun _ => hcontinue _)

theorem level_behindContract (k : ContractCall) (result : Value) :
    Level (behindContract k result) := by
  unfold behindContract
  cases k.via with
  | none => exact preserves_push aside_depth _
  | some e => exact .bind (level_deliver e _) fun _ => level_advance

/-- Instructions on operands, variables and literals leave the count alone. -/
theorem level_perform (c : Context) {op : Op} (hop : op.isPlain = true) : Level (perform c op) := by
  have hadvances : op.advances = true → Level (perform c op) := by
    intro hadvances
    obtain ⟨x, hx, hlevel⟩ := perform_advances c hadvances
    rw [hx]
    exact .bind (hlevel aside_depth) fun _ => level_advance
  cases op with
  | label => exact level_modifyTop _
  | error level => exact preserves_raise aside_depth c level
  | unwrapArr => exact .bind (.modify fun _ => rfl) fun _ => level_advance
  | push | var | extendVar | funcName | mapInit | arrayInit | index | setIndex | unary | binary =>
    exact hadvances rfl
  | callExtend | call | callVariadic | «return» | «if» | «else» | «while» | «continue» | «break»
  | assign | assignVar => cases hop

/-! ### Counting -/

/-- Whether a result counts the calls that have frames, with room for some more if it is no
failure. -/
def Tallies (c : Context) (room : Nat) : EStateM.Result Stop Machine α → Prop
  | .ok _ m => m.Counted c room
  | .error _ m => m.Counted c 0

/-- Whether a computation that starts with room for some more calls counts the calls that have
frames, and leaves room for some more. -/
def Counts (c : Context) (i j : Nat) (x : Exec α) : Prop := ∀ m : Machine, m.Counted c i →
  Tallies c j (x m)

theorem Tallies.left {i : Nat} {r : EStateM.Result Stop Machine α} (h : Tallies c i r) :
    (left r).Counted c 0 := by
  cases r with
  | ok a m => exact h.mono (Nat.zero_le i)
  | error e m => exact h

namespace Counts

variable {x : Exec α} {f : α → Exec β} {i j k : Nat}

/-- What leaves the count and the frames alone keeps the room that there is. -/
theorem of_level (hx : Level x) (hstill : Still x) : Counts c i i x := by
  intro m hm
  have hdepth := hx m
  have hcalls : Frame.calls (Exec.left (x m)).frames = Frame.calls m.frames := by
    rw [← Frame.calls_bare, ← Frame.calls_bare m.frames]
    exact congrArg Frame.calls (hstill m)
  have hleft : (Exec.left (x m)).Counted c i :=
    ⟨by rw [hdepth, hcalls]; exact hm.depth, hdepth ▸ hm.bound⟩
  cases hr : x m with
  | ok a m' =>
    rw [hr] at hleft
    exact hleft
  | error e m' =>
    rw [hr] at hleft
    exact hleft.mono (Nat.zero_le i)

theorem of_plain (hx : Level x) (hplain : Plain id x) : Counts c i i x :=
  .of_level hx (.of_plain hplain)

/-- Two parts count what they count together. -/
theorem bind (hx : Counts c i j x) (hf : ∀ a, Counts c j k (f a)) : Counts c i k (x >>= f) := by
  intro m hm
  have hcounted := hx m hm
  cases hr : x m with
  | error e m' =>
    rw [hr] at hcounted
    rw [bind_of_error hr]
    exact hcounted
  | ok a m' =>
    rw [hr] at hcounted
    rw [bind_of_ok hr]
    exact hf a m' hcounted

theorem get_bind {f : Machine → Exec β} (h : ∀ m, Counts c i j (f m)) : Counts c i j (get >>= f) :=
  fun m hm => h m m hm

theorem ite {p : Prop} [Decidable p] {y : Exec α} (hx : Counts c i j x) (hy : Counts c i j y) :
    Counts c i j (if p then x else y) := by
  split
  · exact hx
  · exact hy

theorem throw (e : Stop) : Counts c i j (throw e : Exec α) := fun _ hm => hm.mono (Nat.zero_le i)

end Counts

/-- There is room for another call, or the run fails. -/
theorem counts_checkDepth (c : Context) : Counts c 0 1 (checkDepth c) := by
  intro m hm
  change Tallies c 1 ((if c.limits.maxCallDepth ≤ m.depth then _ else _ : Exec Unit) m)
  split
  · exact hm
  · rename_i hdepth
    exact ⟨hm.depth, Nat.lt_of_not_le hdepth⟩

/-- A block that is started takes the room for the call that it stands for. -/
theorem counts_enterBlock (c : Context) (id : BlockId) (given : List Value) (role : Role) :
    Counts c role.calls 0 (enterBlock c id given role) := by
  refine .ite (.throw _) ?_
  refine .bind (.of_plain (preserves_defaults aside_depth _) (plain_defaults _)) fun rest m hm => ?_
  refine ⟨?_, hm.bound⟩
  show m.depth + role.calls = Frame.calls (_ :: m.frames)
  rw [hm.depth, Frame.calls_block]

theorem counts_callFunc (c : Context) (id : BlockId) (count : Option Nat) :
    Counts c 0 0 (callFunc c id count) := by
  rw [callFunc_eq]
  refine .bind (.of_plain (level_callSlots c id count) (plain_callSlots c id count)) fun slots => ?_
  refine .bind (.of_level (preserves_pay aside_depth _ _) (still_pay _ _)) fun _ => ?_
  exact .bind (counts_checkDepth c) fun _ => counts_enterBlock c id slots .call

/-- A block that is no call of its own is entered without counting one. -/
theorem counts_start (c : Context) (id : BlockId) (params : List Value) {role : Role}
    (hrole : role.calls = 0) :
    Counts c 0 0 (start c id params role) := by
  have henter : ∀ args, Counts c 0 0 (enterBlock c id args role) := fun args =>
    hrole ▸ counts_enterBlock c id args role
  have hrest : ∀ (f : FuncInfo) (args : List Value), Counts c 0 0 (do
      let args ← ofExcept (checkParams 1 f.params args)
      enterBlock c id args role) := fun f args =>
    .bind (.of_level (.ofExcept _) (Still.of_plain (.ofExcept _))) henter
  refine .ite (.throw _) ?_
  split
  · exact henter params
  · rename_i f _
    refine .ite (.bind (.of_plain (preserves_variadicArgs aside_depth f params)
      (plain_variadicArgs f params)) (hrest f)) (.ite (hrest f params) ?_)
    exact .of_level (.fail_bind _) (Still.of_plain (.fail_bind _))

/-- A contract that is started takes the room for the call of the extension that calls it. -/
theorem counts_callContract (c : Context) (name names : String) (values : List Value)
    (via : Option Extension) : Counts c (if via.isSome then 1 else 0) 0
      (callContract c name names values via) := by
  rw [callContract_eq]
  refine .bind (.of_plain (preserves_contractParams aside_depth c _)
    (plain_contractParams c (sees_id _))) fun p => ?_
  refine .bind (.of_level (preserves_pay aside_depth _ _) (still_pay _ _))
    fun _ m hm => ⟨?_, hm.bound⟩
  show m.depth + _ = Frame.calls (_ :: m.frames)
  rw [hm.depth, Frame.calls_contract]

theorem counts_deliver (c : Context) (e : Extension) (results : List Value) :
    Counts c 0 0 (deliver e results) :=
  .of_level (level_deliver e results) (still_deliver e results)

theorem counts_advance (c : Context) : Counts c 0 0 advance := .of_plain level_advance plain_advance

/-- An extension gives up the call that is counted for it, or has a contract keep it. -/
theorem counts_behave (c : Context) (e : Extension) (args : List Value) :
    Counts c 1 0 (behave c e args) := by
  unfold behave
  split
  · rename_i run _
    have hreply : ∀ f : Machine → Reply × Machine, (∀ m, (f m).2.frames = m.frames) →
        (∀ m, (f m).2.depth = m.depth) → Counts c 1 0 (modifyGet f : Exec Reply) := by
      intro f hframes hdepth m hm
      refine Machine.Counted.mono (i := 1) ⟨?_, ?_⟩ (Nat.zero_le 1)
      · show (f m).2.depth = Frame.calls (f m).2.frames
        rw [hframes, hdepth, hm.depth]
      · show (f m).2.depth + 1 ≤ _
        rw [hdepth]
        exact hm.bound
    refine .bind (hreply _ (fun _ => rfl) fun _ => rfl) fun reply => ?_
    cases reply with
    | values vs => exact .bind (counts_deliver c e vs) fun _ => counts_advance c
    | fault f => exact .throw _
    | crash => exact .throw _
  · exact .get_bind fun _ => counts_callContract c _ _ _ (some e)
  · refine .get_bind fun _ => .bind (.of_level (.ofExcept _) (Still.of_plain (.ofExcept _)))
      fun _ => ?_
    exact counts_callContract c _ _ _ (some e)

/-- So a call of an extension counts nothing in the end. -/
theorem counts_callExtension (c : Context) (e : Extension) (count : Option Nat) :
    Counts c 0 0 (callExtension c e count) := by
  rw [callExtension_eq, extensionArgs_eq]
  simp only [bind_assoc, pure_bind]
  refine .bind (.of_plain (level_extensionParams e count)
    (plain_extensionParams (fun key _ => sees_id key) count)) fun args => ?_
  refine .bind (.of_level (preserves_pay aside_depth _ _) (still_pay _ _)) fun _ => ?_
  exact .bind (counts_checkDepth c) fun _ => counts_behave c e args

theorem counts_call (c : Context) (f : Callee) (count : Option Nat) :
    Counts c 0 0 (call c f count) := by
  cases f with
  | func id => exact counts_callFunc c id count
  | ext e => exact counts_callExtension c e count

/-! ### Steps -/

/-- A block that is left gives up the call that it stands for. -/
theorem counts_leave (c : Context) (status : Status) : Counts c 0 0 (leave c status) := by
  intro m hm
  rcases hframes : m.frames with _ | ⟨a | k, rest⟩
  · rw [leave_of_nil c status hframes]
    exact hm
  · rw [leave_eq c status hframes]
    exact Counts.of_plain (level_behindBlock c a status) (plain_behindBlock c a status) _
      (hm.dropBlock hframes)
  · rw [leave_of_contract c status hframes]
    exact hm

/-- Every instruction leaves as many calls counted as there are frames that stand for one. -/
theorem counts_perform (c : Context) (op : Op) : Counts c 0 0 (perform c op) := by
  -- What leaves the kind of every frame alone leaves the number of calls alone.
  have hpop : Counts c 0 0 pop := .of_plain (preserves_pop aside_depth) plain_pop
  have hcount : Counts c 0 0 popCount := .of_plain (preserves_popCount aside_depth) plain_popCount
  have hbody : ∀ (body : BlockId) {role : Role}, role.calls = 0 →
    Counts c 0 0 (enterBlock c body [] role) :=
    fun body role hrole => hrole ▸ counts_enterBlock c body [] role
  have htop : ∀ {f : Activation → Activation}, (∀ a, Frame.isCall (.block (f a))
    = Frame.isCall (.block a)) →
      Counts c 0 0 (modifyTop f) := by
    intro f hf m hm
    unfold modifyTop
    rw [modify_apply]
    refine ⟨?_, ?_⟩
    · split
      · rename_i a rest hframes
        show m.depth = Frame.calls (.block (f a) :: rest)
        rw [hm.depth, hframes, Frame.calls_cons, Frame.calls_cons, hf]
      · exact hm.depth
    · split
      · exact hm.bound
      · exact hm.bound
  cases op with
  | callExtend name =>
    refine .bind hcount fun count => ?_
    split
    · exact counts_callExtension c _ _
    · exact .throw _
  | call f => exact counts_call c f none
  | callVariadic f => exact .bind hcount fun count => counts_call c f (some count)
  | «return» | «continue» | «break» => exact counts_leave c _
  | «if» body =>
    refine .bind hpop fun v => .get_bind fun m => .bind (htop fun _ => rfl) fun _ => ?_
    exact .ite (hbody body rfl) (counts_advance c)
  | «else» body =>
    refine .get_bind fun m => ?_
    split
    · exact .ite (counts_advance c) (hbody body rfl)
    · exact .of_level (.pure _) (Still.of_plain (.pure _))
  | «while» body =>
    exact .bind hpop fun v => .get_bind fun m => .ite (hbody body rfl) (htop fun _ => rfl)
  | assignVar ts => exact htop fun _ => rfl
  | assign =>
    refine .get_bind fun m => ?_
    split
    · refine .bind (htop fun _ => rfl) fun _ => .bind (.of_plain
        (preserves_popN aside_depth _) (plain_popN _)) fun values => ?_
      exact .bind (.of_level (preserves_assignAll aside_depth c _ values)
        (still_assignAll c _ values)) fun _ => counts_advance c
    · exact .of_level (.pure _) (Still.of_plain (.pure _))
  | push | var | extendVar | label | error | funcName | unwrapArr | mapInit | arrayInit | index
  | setIndex | unary | binary =>
    exact .of_level (level_perform c rfl)
      (Still.of_plain (plain_perform c rfl fun name _ => sees_id name))

/-- A contract that is over gives up its call. -/
theorem counts_resume (c : Context) {k : ContractCall} {rest : List Frame}
    (hframes : m.frames = .contract k :: rest) (hm : m.Counted c 0) :
    Tallies c 0 (resume c k rest m) := by
  cases hsections : k.sections with
  | cons s ss =>
    have hdepth := hm.depth
    rw [hframes] at hdepth
    rw [resume_cons c rest m hsections]
    exact counts_start c s [] rfl _ ⟨hdepth, hm.bound⟩
  | nil =>
    rw [resume_nil c rest m hsections]
    exact Counts.of_level (level_behindContract k _)
      (still_behindContract k _) _ (hm.finished hframes)

/-- **A step counts the calls that it starts and ends**, also if it fails. -/
theorem counts_step (c : Context) : Counts c 0 0 (step c) := by
  intro m hm
  cases ahead c m with
  | done _ hstep =>
    rw [hstep]
    exact hm
  | resumes k rest hframes hstep =>
    rw [hstep]
    exact counts_resume c hframes hm
  | leaves a rest status _ _ hstep =>
    rw [hstep]
    exact counts_leave c status m hm
  | runs a rest i _ _ _ hstep =>
    rw [hstep]
    have htick : Counts c 0 0 (tick c) := .of_level (preserves_tick aside_depth c) (still_tick c)
    exact (htick.bind fun _ => counts_perform c i.op) m hm

end Exec

/-- **Every machine of a run counts the calls in progress**, and there are never too many. -/
theorem Transition.counted {c : Context} {l : Launch} {m₀ m : Machine} {q : Option Request}
    {r : EStateM.Result Stop Machine Unit} (hm₀ : m₀.Counted c 0) (h : Transition c l m₀ m q r) :
    Exec.Tallies c 0 r := by
  induction h with
  | start =>
    cases l with
    | func id params => exact Exec.counts_start c id params rfl m₀ hm₀
    | contract state name params => exact Exec.counts_callContract c _ _ _ none m₀ hm₀
  | step _ _ ih => exact Exec.counts_step c _ ih

/-- So does every machine that comes up from one on. -/
theorem During.counted {c : Context} {depth : Nat} {m₀ m : Machine} (hm₀ : m₀.Counted c 0)
    (h : During c depth m₀ m) : m.Counted c 0 := by
  induction h with
  | start => exact hm₀
  | @step m m' _ _ hstep ih =>
    have hcounted := Exec.counts_step c m ih
    rw [hstep] at hcounted
    exact hcounted

end Covenant
