import Covenant.Proofs.Machine.Calls

/-!
# What a step starts and ends

How the active blocks and contracts change in one step that succeeds. An instruction (`Shift`)
leaves them, changes what the next assignment of its block writes to, starts a block that it names,
ends its block, or calls a contract. Other steps (`Turn`) end the innermost block, start the next
section of a contract, or end the contract. The main statement is `Exec.step_turn`; what holds of
the active frames in every run follows from it.
-/

namespace Covenant

open Covenant.Computation

/-- What an instruction does to the outline, of which a block `a` is the innermost frame. -/
inductive Shift (c : Context) (op : Op) (a : Activation) (rest : List Frame) : List Frame → Prop
  | stay : Shift c op a rest (.block a :: rest)
  /-- The next assignment has other targets. -/
  | aim (ts : List Target) : ts = [] ∨ op = .assignVar ts →
      Shift c op a rest (.block { a with targets := ts } :: rest)
  | enter (b : Activation) : op.starts? = some b.block → b.targets = [] →
      Shift c op a rest (.block b :: .block a :: rest)
  | leave : Shift c op a rest rest
  | call (k : ContractCall) (id : BlockId) : k.sections = Exec.sectionsOf (c.block id) →
      (∀ p ∈ k.saved, Name.isSystem p.1 = false) → c.registry.qualified? k.name = some id →
      (c.block id).contract?.isSome → Shift c op a rest (.contract k :: .block a :: rest)

/-- What a step does to the outline. -/
inductive Turn (c : Context) (m m' : Machine) : Prop
  | instruction (a : Activation) (rest : List Frame) (i : Instr) : m.frames = .block a :: rest →
      m.ending = none → (c.block a.block).code[a.pc]? = some i →
      Shift c i.op a.bare (rest.map Frame.bare) m'.outline → Turn c m m'
  /-- A block ends that has no more instructions, or is ending already. -/
  | leave (a : Activation) (rest : List Frame) : m.frames = .block a :: rest →
      m.ending ≠ none ∨ (c.block a.block).code[a.pc]? = none →
      m'.outline = rest.map Frame.bare → Turn c m m'
  | section (k : ContractCall) (rest : List Frame) (s : BlockId) (ss : List BlockId)
      (b : Activation) : m.frames = .contract k :: rest → k.sections = s :: ss → b.block = s →
      b.targets = [] →
      m'.outline = .block b :: .contract { k with sections := ss } :: rest.map Frame.bare →
      Turn c m m'
  | finish (k : ContractCall) (rest : List Frame) : m.frames = .contract k :: rest →
      k.sections = [] → m'.outline = rest.map Frame.bare → Turn c m m'

/-- The innermost frame of an outline that starts with a block. -/
theorem Machine.outline_eq_block {m : Machine} {a : Activation} {rest : List Frame}
    (h : m.outline = .block a :: rest) :
    ∃ b fs, m.frames = .block b :: fs ∧ b.bare = a ∧ fs.map Frame.bare = rest := by
  rw [outline] at h
  rcases hframes : m.frames with _ | ⟨b | k, fs⟩
  · rw [hframes] at h
    cases h
  · rw [hframes] at h
    cases h
    exact ⟨b, fs, rfl, rfl, rfl⟩
  · rw [hframes] at h
    cases h

namespace Exec

variable {c : Context} {m m' : Machine}

/-! ### What starts and ends nothing -/

theorem still_charge (n : Int) : Still (charge n) := by
  intro m
  rw [charge_eq]
  split
  · split <;> rfl
  · rfl

theorem still_pay (limits : Limits) (ks : List Charge) : Still (pay limits ks) := by
  induction ks with
  | nil => exact fun _ => rfl
  | cons k ks ih => exact (still_charge _).bind fun _ => ih

theorem still_deliver (e : Extension) (results : List Value) : Still (deliver e results) := by
  unfold deliver
  split
  · exact .bind (fun _ => rfl) fun _ => .bind (.of_plain (.ofExcept _)) fun _ =>
      .bind (still_charge _) fun _ => .of_plain (plain_pushAll _)
  · exact .of_plain (plain_pushAll _)

theorem still_callHost (e : Extension) (run : List Value → Host → Reply × Host)
    (args : List Value) : Still (callHost e run args) := by
  refine .bind (fun _ => rfl) fun reply => ?_
  cases reply with
  | values vs => exact .bind (still_deliver e vs) fun _ => .of_plain plain_advance
  | fault f => exact .throw _
  | crash => exact .throw _

theorem still_assignExtend (name : String) (x : Value) : Still (assignExtend name x) := by
  refine .bind (fun _ => rfl) fun m => ?_
  split
  · exact .ite (.bind (.throw _) fun _ _ => rfl) fun _ => rfl
  · exact fun _ => rfl

/-- Assignments leave the frames as they are, but for the values in them. -/
theorem still_assignAll (c : Context) (ts : List Target) (xs : List Value) :
    Still (assignAll c ts xs) := by
  fun_induction assignAll c ts xs with
  | case1 t ts x xs ih =>
    refine .bind ?_ fun _ => ih
    cases t with
    | var v => exact .of_plain (plain_assignVar c v x)
    | extend name => exact still_assignExtend name x
  | case2 => exact fun _ => rfl

/-! ### Calls -/

/-- A contract that is called becomes the innermost frame. -/
theorem outline_callContract {name names : String} {values : List Value} {via : Option Extension}
    (h : callContract c name names values via m = .ok () m') :
    ∃ (k : ContractCall) (id : BlockId), k.sections = sectionsOf (c.block id) ∧
      (∀ p ∈ k.saved, Name.isSystem p.1 = false) ∧ m'.outline = .contract k :: m.outline ∧
      c.registry.qualified? k.name = some id ∧ (c.block id).contract?.isSome := by
  rw [callContract_eq] at h
  obtain ⟨p, m₁, h₁, hparams, h⟩ := (Still.of_plain (plain_contractParams c (sees_id _))).bind_ok h
  obtain ⟨-, m₂, h₂, -, h⟩ := (still_pay _ _).bind_ok h
  cases h
  obtain ⟨hname, -, info, hinfo, -⟩ := contractParams_ok hparams
  refine ⟨_, p.1, rfl, fun p hp => ?_, congrArg (_ :: ·) (h₂.trans h₁), hname, ?_⟩
  · simpa using (List.mem_filter.1 hp).2
  · rw [hinfo]
    rfl

section

variable {op : Op} {a : Activation} {rest : List Frame}

theorem Still.shift {x : Exec Unit} (hx : Still x) (hm : m.outline = .block a :: rest)
    (h : x m = .ok () m') : Shift c op a rest m'.outline := by
  have houtline := hx m
  rw [h, hm] at houtline
  rw [show m'.outline = .block a :: rest from houtline]
  exact .stay

theorem shift_enterBlock {id : BlockId} {given : List Value} {role : Role}
    (hop : op.starts? = some id) (hm : m.outline = .block a :: rest)
    (h : enterBlock c id given role m = .ok () m') : Shift c op a rest m'.outline := by
  rw [outline_enterBlock h, hm]
  exact .enter _ hop rfl

/-- A call of a function puts its block on top. -/
theorem shift_callFunc {id : BlockId} {count : Option Nat} (hop : op.starts? = some id)
    (hm : m.outline = .block a :: rest) (h : callFunc c id count m = .ok () m') :
    Shift c op a rest m'.outline := by
  rw [callFunc_eq] at h
  obtain ⟨slots, m₁, h₁, -, h⟩ := (Still.of_plain (plain_callSlots c id count)).bind_ok h
  obtain ⟨-, m₂, h₂, -, h⟩ := (still_pay _ _).bind_ok h
  obtain ⟨-, m₃, h₃, -, h⟩ := (Still.of_plain (plain_checkDepth c)).bind_ok h
  exact shift_enterBlock hop (h₃.trans (h₂.trans (h₁.trans hm))) h

theorem shift_callContract {name names : String} {values : List Value} {via : Option Extension}
    (hm : m.outline = .block a :: rest) (h : callContract c name names values via m = .ok () m') :
    Shift c op a rest m'.outline := by
  obtain ⟨k, id, hsections, hsaved, houtline, hname, hcontract⟩ := outline_callContract h
  rw [houtline, hm]
  exact .call k id hsections hsaved hname hcontract

/-- An extension that calls a contract puts this on top; a host function changes no frames. -/
theorem shift_behave {e : Extension} {args : List Value} (hm : m.outline = .block a :: rest)
    (h : behave c e args m = .ok () m') : Shift c op a rest m'.outline := by
  unfold behave at h
  cases hbehaviour : e.behaviour with
  | host run =>
    simp only [hbehaviour] at h
    exact (still_callHost e run args).shift hm h
  | execContract =>
    simp only [hbehaviour] at h
    exact shift_callContract hm h
  | callContract =>
    simp only [hbehaviour] at h
    obtain ⟨h₀, m₁, hget, h⟩ := bind_eq_ok h
    cases hget
    obtain ⟨state, m₂, h₂, -, h⟩ := (Still.of_plain (.ofExcept _)).bind_ok h
    exact shift_callContract (h₂.trans hm) h

theorem shift_callExtension {e : Extension} {count : Option Nat}
    (hm : m.outline = .block a :: rest) (h : callExtension c e count m = .ok () m') :
    Shift c op a rest m'.outline := by
  rw [callExtension_eq, extensionArgs_eq] at h
  simp only [bind_assoc, pure_bind] at h
  obtain ⟨args, m₁, h₁, -, h⟩ :=
    (Still.of_plain (plain_extensionParams (fun key _ => sees_id key) count)).bind_ok h
  obtain ⟨-, m₂, h₂, -, h⟩ := (still_pay _ _).bind_ok h
  obtain ⟨-, m₃, h₃, -, h⟩ := (Still.of_plain (plain_checkDepth c)).bind_ok h
  exact shift_behave (h₃.trans (h₂.trans (h₁.trans hm))) h

/-! ### Instructions -/

/-- Changing the innermost activation. -/
theorem modifyTop_eq {f : Activation → Activation} {b : Activation} {fs : List Frame}
    (hframes : m.frames = .block b :: fs) :
    modifyTop f m = .ok () { m with frames := .block (f b) :: fs } := by
  unfold modifyTop
  rw [modify_apply, hframes]

/-- The targets that an instruction sets are those of its block's next assignment. -/
theorem shift_assignVar {ts : List Target} (hm : m.outline = .block a :: rest)
    (h : perform c (.assignVar ts) m = .ok () m') :
    Shift c (.assignVar ts) a rest m'.outline := by
  obtain ⟨b, fs, hframes, rfl, rfl⟩ := Machine.outline_eq_block hm
  have hset := (modifyTop_eq hframes).symm.trans h
  cases hset
  exact .aim ts (.inr rfl)

/-- Assigning takes the targets away. -/
theorem shift_assign (hm : m.outline = .block a :: rest) (h : perform c .assign m = .ok () m') :
    Shift c .assign a rest m'.outline := by
  obtain ⟨b, fs, hframes, rfl, rfl⟩ := Machine.outline_eq_block hm
  rw [perform_assign hframes] at h
  obtain ⟨u, m₁, hset, h⟩ := bind_eq_ok h
  have hm₁ := (modifyTop_eq hframes).symm.trans hset
  cases hm₁
  have hstill : Still (do
      let values ← popN b.targets.length
      assignAll c b.targets values
      advance) :=
    .bind (.of_plain (plain_popN _)) fun values => .bind (still_assignAll c b.targets values)
      fun _ => .of_plain plain_advance
  have houtline := hstill { m with frames := .block { b with targets := [] } :: fs }
  rw [h] at houtline
  rw [show m'.outline = _ from houtline]
  exact .aim [] (.inl rfl)

theorem shift_leave {status : Status} (hm : m.outline = .block a :: rest)
    (h : leave c status m = .ok () m') : Shift c op a rest m'.outline := by
  obtain ⟨b, fs, hframes, rfl, rfl⟩ := Machine.outline_eq_block hm
  have houtline := outline_leave c status hframes
  rw [h] at houtline
  rw [show m'.outline = fs.map Frame.bare from houtline]
  exact .leave

/-- **What an instruction does to the outline.** -/
theorem perform_shift (hm : m.outline = .block a :: rest) (h : perform c op m = .ok () m') :
    Shift c op a rest m'.outline := by
  -- Operands are taken without a shift; what follows starts a block, leaves some or goes on.
  cases op with
  | callExtend name =>
    obtain ⟨count, m₁, h₁, -, h⟩ := (Still.of_plain plain_popCount).bind_ok h
    cases hname : c.registry.objects.get? name with
    | none =>
      rw [hname] at h
      cases h
    | some b =>
      simp only [hname] at h
      cases b with
      | ext e => exact shift_callExtension (h₁.trans hm) h
      | contract | func | var | extVar => cases h
  | call f =>
    cases f with
    | func id => exact shift_callFunc rfl hm (show callFunc c id none m = _ from h)
    | ext e => exact shift_callExtension hm (show callExtension c e none m = _ from h)
  | callVariadic f =>
    obtain ⟨count, m₁, h₁, -, h⟩ := (Still.of_plain plain_popCount).bind_ok h
    cases f with
    | func id =>
      exact shift_callFunc rfl (h₁.trans hm) (show callFunc c id (some count) m₁ = _ from h)
    | ext e =>
      exact shift_callExtension (h₁.trans hm) (show callExtension c e (some count) m₁ = _ from h)
  | «return» | «continue» | «break» => exact shift_leave hm h
  | «if» body =>
    obtain ⟨v, m₁, h₁, -, h⟩ := (Still.of_plain plain_pop).bind_ok h
    obtain ⟨m₁', m₂, hget, h⟩ := bind_eq_ok h
    cases hget
    have hcond : Plain id (modifyTop fun a => { a with lastCond := v.truthy m₁.heap }) :=
      .modifyTop fun _ => rfl
    obtain ⟨-, m₃, h₃, -, h⟩ := (Still.of_plain hcond).bind_ok h
    have hm₃ : m₃.outline = .block a :: rest := h₃.trans (h₁.trans hm)
    split at h
    · exact shift_enterBlock rfl hm₃ h
    · exact (Still.of_plain plain_advance).shift hm₃ h
  | «else» body =>
    obtain ⟨b, fs, hframes, -⟩ := Machine.outline_eq_block hm
    rw [perform_else hframes] at h
    split at h
    · exact (Still.of_plain plain_advance).shift hm h
    · exact shift_enterBlock rfl hm h
  | «while» body =>
    obtain ⟨v, m₁, h₁, -, h⟩ := (Still.of_plain plain_pop).bind_ok h
    obtain ⟨m₁', m₂, hget, h⟩ := bind_eq_ok h
    cases hget
    split at h
    · exact shift_enterBlock rfl (h₁.trans hm) h
    · exact (Still.of_plain plain_leaveLoop).shift (h₁.trans hm) h
  | assignVar ts => exact shift_assignVar hm h
  | assign => exact shift_assign hm h
  | push | var | extendVar | label | error | funcName | unwrapArr | mapInit | arrayInit | index
  | setIndex | unary | binary =>
    exact (Still.of_plain (plain_perform c rfl fun name _ => sees_id name)).shift hm h

end

/-! ### Steps -/

theorem still_tick (c : Context) : Still (tick c) := by
  refine .bind (fun _ => rfl) fun _ => .bind (still_charge 1) fun _ => ?_
  have hmem : Still (do if c.limits.maxMem < (← get).mem then fail .memoryLimit : Exec Unit) :=
    .bind (fun _ => rfl) fun _ => .ite (.throw _) fun _ => rfl
  split
  · exact .bind (fun _ => rfl) fun _ => .ite (.bind (.throw _) fun _ => hmem) hmem
  · exact hmem

/-- What a block that is started gets for its arguments: a function checks them, and other blocks
take any. -/
def startArgs (c : Context) (id : BlockId) (params : List Value) : Exec (List Value) :=
  match (c.block id).func? with
  | none => pure params
  | some f => do
    let args ←
      if f.variadic then variadicArgs f params
      else if params.length = f.params.length then pure params
      else fail (.wrongParams f.name f.params.length)
    ofExcept (checkParams 1 f.params args)

/-- A block is started by entering it with its arguments. -/
theorem start_eq_ok {id : BlockId} {params : List Value} {role : Role}
    (h : start c id params role m = .ok () m') :
    ∃ args m₁, startArgs c id params m = .ok args m₁ ∧
    enterBlock c id args role m₁ = .ok () m' := by
  unfold start at h
  by_cases hsize : c.registry.arena.size ≤ id
  · rw [if_pos hsize] at h
    cases h
  · rw [if_neg hsize] at h
    unfold startArgs
    cases hf : (c.block id).func? with
    | none =>
      rw [hf] at h
      exact ⟨params, m, rfl, h⟩
    | some f =>
      -- Fixed and variadic parameters differ in how the arguments are gathered only.
      have hchecked : ∀ {x : Exec (List Value)}, (do
          let args ← x
          let args ← ofExcept (checkParams 1 f.params args)
          enterBlock c id args role : Exec Unit) m = .ok () m' →
            ∃ args m₁, (x >>= fun args => ofExcept (checkParams 1 f.params args)) m = .ok args m₁ ∧
              enterBlock c id args role m₁ = .ok () m' := by
        intro x h
        obtain ⟨args, m₁, hargs, h⟩ := bind_eq_ok h
        obtain ⟨args', m₂, hcheck, h⟩ := bind_eq_ok h
        exact ⟨args', m₂, (bind_of_ok hargs).trans hcheck, h⟩
      simp only [hf] at h
      dsimp only
      split_ifs at h ⊢
      · exact hchecked h
      · exact hchecked h
      · exact hchecked h

theorem still_startArgs (id : BlockId) (params : List Value) : Still (startArgs c id params) := by
  have hcheck : ∀ (f : FuncInfo) (args : List Value), Still
    (ofExcept (checkParams 1 f.params args)) :=
    fun f args => .of_plain (.ofExcept _)
  unfold startArgs
  split
  · exact .of_plain (.pure params)
  · refine .ite (.bind (.of_plain (plain_variadicArgs _ params)) (hcheck _)) (.ite ?_ ?_)
    · exact .bind (.of_plain (.pure params)) (hcheck _)
    · exact .bind (.of_plain (.fail _)) (hcheck _)

/-- What is started is on top, with no targets noted. -/
theorem outline_start {id : BlockId} {params : List Value} {role : Role}
    (h : start c id params role m = .ok () m') :
    ∃ b : Activation, b.block = id ∧ b.targets = [] ∧ m'.outline = .block b :: m.outline := by
  obtain ⟨args, m₁, hargs, h⟩ := start_eq_ok h
  have hm₁ : m₁.outline = m.outline := by
    have hstill := still_startArgs (c := c) id params m
    rwa [hargs] at hstill
  rw [outline_enterBlock h, hm₁]
  exact ⟨_, rfl, rfl, rfl⟩

theorem still_behindContract (k : ContractCall) (result : Value) :
    Still (behindContract k result) := by
  unfold behindContract
  split
  · exact .of_plain (plain_push _)
  · exact .bind (still_deliver _ _) fun _ => .of_plain plain_advance

/-- Going on with a contract starts its next section, or ends it. -/
theorem resume_turn {k : ContractCall} {rest : List Frame}
    (hframes : m.frames = .contract k :: rest) (h : resume c k rest m = .ok () m') :
    Turn c m m' := by
  cases hsections : k.sections with
  | cons s ss =>
    rw [resume_cons c rest m hsections] at h
    obtain ⟨b, hblock, htargets, houtline⟩ := outline_start h
    exact .section k rest s ss b hframes hsections hblock htargets houtline
  | nil =>
    have houtline := still_behindContract k ((m.env.get? "result").getD .nil) (finished k rest m)
    rw [← resume_nil c rest m hsections, h] at houtline
    exact .finish k rest hframes hsections houtline

/-- **What a step does to the outline.** -/
theorem step_turn (h : step c m = .ok () m') (hm : m.frames ≠ []) : Turn c m m' := by
  cases ahead c m with
  | done hframes _ => exact absurd hframes hm
  | resumes k rest hframes hstep =>
    rw [hstep] at h
    exact resume_turn hframes h
  | leaves a rest status hframes hends hstep =>
    rw [hstep] at h
    have houtline := outline_leave c status hframes
    rw [h] at houtline
    refine .leave a rest hframes (hends.imp (fun hending => ?_) fun hend => hend.2.1) houtline
    rw [hending]
    exact Option.some_ne_none _
  | runs a rest i hframes hending hcode hstep =>
    rw [hstep] at h
    obtain ⟨-, m₁, h₁, -, h⟩ := (still_tick c).bind_ok h
    have hm₁ : m₁.outline = .block a.bare :: rest.map Frame.bare := by
      rw [h₁, Machine.outline, hframes]
      rfl
    exact .instruction a rest i hframes hending hcode (perform_shift hm₁ h)

end Exec

end Covenant
