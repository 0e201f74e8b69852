import Covenant.Proofs.Machine.Acyclic

/-!
# The operands of a caller

All blocks work on one operand stack. A block that begins notes the height of the stack, its base,
and when it ends the stack is cut to that height, above which a function that returns leaves its
results. What is missing is a check that a block does not take operands from below its base, and a
block can: an assignment to more variables than there are values takes what its caller has put there
(`Launch.assignment_takes_operand_of_caller`).

If no instruction of a call does so, then the call leaves the operands that lie below its arguments
as they were, and above them its results if it returns, and nothing otherwise
(`Invokes.operands_kept`). The same holds of the sections of contracts, whose results are dropped.
-/

namespace Covenant

open Covenant.Computation

open Exec

namespace Exec

variable {α β : Type} {c : Context} {m m' : Machine}

/-! ### Taking operands -/

/-- Whether a computation that succeeds takes that many operands and does not touch the others. -/
def Takes (n : Nat) (x : Exec α) : Prop :=
  ∀ m a m', x m = .ok a m' → ∃ vs, m.stack.toList = m'.stack.toList ++ vs ∧ vs.length = n

namespace Takes

variable {x : Exec α} {f : α → Exec β} {i j n : Nat}

theorem of_stack (h : ∀ m a m', x m = .ok a m' → m'.stack = m.stack) : Takes 0 x :=
  fun m a m' hx => ⟨[], by rw [h m a m' hx, List.append_nil], rfl⟩

theorem pure (a : α) : Takes 0 (pure a : Exec α) := of_stack fun _ _ _ h => by cases h; rfl

theorem throw (e : Stop) : Takes n (throw e : Exec α) := by
  intro m a m' h
  cases h

theorem fail (e : Fault) : Takes n (Exec.fail e : Exec α) := throw _

theorem throw_bind (e : Stop) : Takes n ((MonadExcept.throw e : Exec α) >>= f) := by
  intro m a m' h
  cases h

theorem bind (hx : Takes i x) (hf : ∀ a, Takes j (f a)) : Takes (i + j) (x >>= f) := by
  intro m b m' h
  obtain ⟨a, m₁, hm₁, hm'⟩ := bind_eq_ok h
  obtain ⟨us, hus, rfl⟩ := hx m a m₁ hm₁
  obtain ⟨vs, hvs, rfl⟩ := hf a m₁ b m' hm'
  refine ⟨vs ++ us, by rw [hus, hvs, List.append_assoc], ?_⟩
  rw [List.length_append, Nat.add_comm]

theorem bind_none (hx : Takes i x) (hf : ∀ a, Takes 0 (f a)) : Takes i (x >>= f) := hx.bind hf

theorem none_bind (hx : Takes 0 x) (hf : ∀ a, Takes n (f a)) : Takes n (x >>= f) :=
  Nat.zero_add n ▸ hx.bind hf

theorem get_bind {f : Machine → Exec β} (h : ∀ m, Takes n (f m)) : Takes n (get >>= f) :=
  fun m b m' hm' => h m m b m' hm'

theorem modify {g : Machine → Machine} (h : ∀ m, (g m).stack = m.stack) :
    Takes 0 (modify g : Exec PUnit) := of_stack fun m _ _ hm => by cases hm; exact h m

theorem modifyGet {g : Machine → α × Machine} (h : ∀ m, (g m).2.stack = m.stack) :
    Takes 0 (modifyGet g : Exec α) := of_stack fun m _ _ hm => by cases hm; exact h m

theorem ite {p : Prop} [Decidable p] {y : Exec α} (hx : Takes n x) (hy : Takes n y) :
    Takes n (if p then x else y) := by
  split
  · exact hx
  · exact hy

theorem ofExcept (r : Except Fault α) : Takes 0 (ofExcept r) := by
  cases r with
  | ok a => exact .pure a
  | error e => exact .fail e

end Takes

theorem takes_pop : Takes 1 pop := by
  intro m v m' h
  obtain ⟨s, hs, rfl⟩ := stack_of_pop h
  exact ⟨[v], hs, rfl⟩

theorem takes_popN (n : Nat) : Takes n (popN n) := by
  intro m vs m' h
  obtain ⟨s, hs, hlength, rfl⟩ := stack_of_popN h
  exact ⟨vs, hs, hlength⟩

theorem takes_popCount : Takes 1 popCount :=
  takes_pop.bind_none fun _ => .get_bind fun _ => .bind_none (.ofExcept _) fun _ => .pure _

/-- The number of arguments is read from the top of the stack. -/
theorem count?_of_popCount {n : Nat} (h : popCount m = .ok n m') : m.count? = some n := by
  obtain ⟨v, m₁, hpop, hrest⟩ := bind_eq_ok h
  change EStateM.bind (ofExcept (v.toInt m₁.heap)) _ m₁ = _ at hrest
  cases hback : m.stack.back? with
  | none =>
    rw [pop_eq_error hback] at hpop
    cases hpop
  | some u =>
    rw [pop_eq_ok hback] at hpop
    cases hpop
    cases hn : v.toInt m.heap with
    | error f =>
      rw [hn] at hrest
      cases hrest
    | ok j =>
      rw [hn] at hrest
      cases hrest
      rw [Machine.count?, hback]
      simp only [hn, Except.toOption, Option.map_some]

theorem takes_takeArgs (n : Nat) : Takes n (takeArgs n) := by
  refine (takes_popN n).bind_none fun args => .get_bind fun _ =>
    .bind_none (.modify fun _ => rfl) fun _ => ?_
  split
  · exact .get_bind fun _ => .pure _
  · exact .pure _

theorem takes_takeFixed (n : Nat) : Takes n (takeFixed n) :=
  .none_bind (.modify fun _ => rfl) fun _ => takes_popN n

theorem takes_collectTail (fixed : Nat) (args : List Value) : Takes 0 (collectTail fixed args) :=
  .bind_none (.modifyGet fun _ => rfl) fun _ => .pure _

theorem takes_variadicArgs (f : FuncInfo) (args : List Value) : Takes 0 (variadicArgs f args) :=
  .ite (.throw_bind _) (takes_collectTail _ _)

theorem takes_fillSlots (is : List Nat) (vs slots : List Value) :
    Takes 0 (fillSlots is vs slots) := by
  fun_induction fillSlots is vs slots with
  | case1 i is v vs slots _ ih => exact ih
  | case2 => exact .throw _
  | case3 => exact .pure _

theorem takes_bindSegment (g : Segment) (args slots : List Value) :
    Takes 0 (bindSegment g args slots) := by
  have hrest : ∀ args, Takes 0 (do
      let args ← ofExcept (checkParams 1 g.params args)
      fillSlots g.offsets args slots) :=
    fun args => .bind_none (.ofExcept _) fun _ => takes_fillSlots _ _ _
  exact .ite (.bind_none (takes_collectTail _ _) hrest) (hrest args)

/-- The segments of a call are bound without the stack. -/
theorem takes_bindSegments (named : Dict Value) (gs : List (String × Segment))
    (slots : List Value) :
    Takes 0 (bindSegments named gs slots) := by
  induction gs generalizing slots with
  | nil => exact .pure _
  | cons g gs ih =>
    unfold bindSegments
    split
    · exact .get_bind fun _ => .bind_none (takes_bindSegment _ _ _) fun _ => ih _
    · exact ih _

/-- A call of a function with segments takes one more operand. -/
theorem takes_popSegments (f : FuncInfo) :
    Takes (if f.segments.isSome then 1 else 0) (popSegments f) := by
  unfold popSegments
  cases f.segments with
  | none => exact .pure _
  | some segments =>
    rw [map_eq_pure_bind]
    exact takes_pop.bind_none fun _ => .pure _

/-- A call takes as many operands as the header of the function says. -/
theorem takes_callSlots {id : BlockId} {f : FuncInfo} (hf : (c.block id).func? = some f)
    (count : Option Nat) : Takes (f.operands count) (callSlots c id count) := by
  refine .ite (.throw_bind _) ?_
  rw [hf, FuncInfo.operands, Nat.add_comm]
  refine .bind (takes_popSegments f) fun named => ?_
  cases count with
  | some n =>
    refine .bind_none (takes_takeArgs n) fun args =>
      .bind_none (takes_variadicArgs f args) fun args => ?_
    refine .bind_none (.ofExcept _) fun args => .bind_none (.modifyGet fun _ => rfl) fun rest => ?_
    dsimp only
    split
    · exact .get_bind fun _ => takes_bindSegments _ _ _
    · exact .pure _
  | none =>
    refine .bind_none (takes_takeFixed _) fun args => ?_
    refine .bind_none (.ofExcept _) fun args => .bind_none (.modifyGet fun _ => rfl) fun rest => ?_
    dsimp only
    split
    · exact .get_bind fun _ => takes_bindSegments _ _ _
    · exact .pure _

theorem takes_charge (amount : Int) : Takes 0 (charge amount) :=
  .get_bind fun _ => .ite (.throw_bind _) (.bind_none (.modify fun _ => rfl) fun _ =>
    .ite (.fail _) (.pure _))

theorem takes_pay (limits : Limits) (ks : List Charge) : Takes 0 (pay limits ks) := by
  induction ks with
  | nil => exact .pure _
  | cons k ks ih => exact .bind_none (takes_charge _) fun _ => ih

theorem takes_checkDepth (c : Context) : Takes 0 (checkDepth c) :=
  .get_bind fun _ => .ite (.fail _) (.pure _)

/-- Behind a block that is no section nothing is taken from the stack. -/
theorem takes_continueBehind {role : Role} (hrole : role ≠ .section)
    (base : Nat) (status : Status) :
    Takes 0 (continueBehind role base status) := by
  have hmodifyTop : ∀ f, Takes 0 (modifyTop f) := fun f => .modify fun m => by split <;> rfl
  cases role with
  | «section» => exact absurd rfl hrole
  | entry => exact .pure _
  | branch =>
    cases status with
    | normal => exact hmodifyTop _
    | _ => exact .modify fun _ => rfl
  | loop =>
    cases status with
    | «return» => exact .modify fun _ => rfl
    | _ => exact hmodifyTop _
  | call => exact hmodifyTop _

/-! ### Starting a block -/

/-- Whether a computation that succeeds takes some operands and then starts a block. -/
def Enters (n : Nat) (id : BlockId) (role : Role) (x : Exec Unit) : Prop :=
  ∀ m m', x m = .ok () m' → (∃ vs, m.stack.toList = m'.stack.toList ++ vs ∧ vs.length = n) ∧
    m'.outline =
      .block { block := id, slots := #[], base := m'.stack.size, role := role } :: m.outline

namespace Enters

variable {x : Exec α} {f : α → Exec Unit} {i j n : Nat} {id : BlockId} {role : Role}

theorem throw (e : Stop) : Enters n id role (throw e) := by
  intro m m' h
  cases h

theorem throw_bind (e : Stop) : Enters n id role ((MonadExcept.throw e : Exec α) >>= f) := by
  intro m m' h
  cases h

theorem ite {p : Prop} [Decidable p] {x y : Exec Unit} (hx : Enters n id role x)
    (hy : Enters n id role y) : Enters n id role (if p then x else y) := by
  split
  · exact hx
  · exact hy

/-- What takes operands and adds no frame can come before what enters a block. -/
theorem bind (hstill : Still x) (hx : Takes i x) (hf : ∀ a, Enters j id role (f a)) :
    Enters (i + j) id role (x >>= f) := by
  intro m m' h
  obtain ⟨a, m₁, houtline, hm₁, hm'⟩ := hstill.bind_ok h
  obtain ⟨us, hus, rfl⟩ := hx m a m₁ hm₁
  obtain ⟨⟨vs, hvs, rfl⟩, henters⟩ := hf a m₁ m' hm'
  refine ⟨⟨vs ++ us, by rw [hus, hvs, List.append_assoc], ?_⟩, houtline ▸ henters⟩
  rw [List.length_append, Nat.add_comm]

theorem none_bind (hstill : Still x) (hx : Takes 0 x) (hf : ∀ a, Enters n id role (f a)) :
    Enters n id role (x >>= f) :=
  Nat.zero_add n ▸ bind hstill hx hf

end Enters

/-- A block is entered without taking operands. -/
theorem enters_enterBlock (c : Context) (id : BlockId) (given : List Value) (role : Role) :
    Enters 0 id role (enterBlock c id given role) := by
  intro m m' h
  have hstack : m'.stack = m.stack := by
    unfold enterBlock at h
    split at h <;> cases h
    rfl
  exact ⟨⟨[], by rw [hstack, List.append_nil], rfl⟩, hstack ▸ outline_enterBlock h⟩

theorem enters_callFunc {id : BlockId} {f : FuncInfo} (hf : (c.block id).func? = some f)
    (count : Option Nat) : Enters (f.operands count) id .call (callFunc c id count) := by
  rw [callFunc_eq, ← Nat.add_zero (f.operands count)]
  refine .bind (.of_plain (plain_callSlots c id count)) (takes_callSlots hf count) fun slots => ?_
  refine .none_bind (still_pay _ _) (takes_pay _ _) fun _ => ?_
  refine .none_bind (.of_plain (plain_checkDepth c)) (takes_checkDepth c) fun _ => ?_
  exact enters_enterBlock c id slots .call

/-- So is a function that is started with given parameters. -/
theorem enters_start (c : Context) (id : BlockId) (params : List Value) (role : Role) :
    Enters 0 id role (start c id params role) := by
  have hrest : ∀ (f : FuncInfo) (args : List Value), Enters 0 id role (do
      let args ← ofExcept (checkParams 1 f.params args)
      enterBlock c id args role) := fun f args =>
    .none_bind (.of_plain (.ofExcept _)) (.ofExcept _) fun _ => enters_enterBlock c id _ role
  refine .ite (.throw_bind _) ?_
  cases (c.block id).func? with
  | none => exact enters_enterBlock c id params role
  | some f =>
    refine .ite ?_ (.ite (hrest f params) (.throw_bind _))
    exact .none_bind (.of_plain (plain_variadicArgs f params))
      (takes_variadicArgs f params) (hrest f)

/-! ### Ending a function -/

/-- A function that ends leaves the operands below its base, and above them its results if it
returns. The results of a section are dropped. -/
theorem stack_of_behindBlock {a : Activation} {f : FuncInfo} {status : Status}
    (hf : (c.block a.block).func? = some f) (hbase : a.base ≤ m.stack.size)
    (h : behindBlock c a status m = .ok () m') :
    ∃ vs, m'.stack.toList = m.stack.toList.take a.base ++ vs ∧
      vs.length = if status = .return ∧ a.role ≠ .section then f.results.length else 0 := by
  unfold behindBlock at h
  rw [hf] at h
  -- The results stay above the base if the block returns; anything else cuts the stack to the base.
  have hresults : ∃ m₁ vs, m₁.stack.toList = m.stack.toList.take a.base ++ vs ∧
      (vs.length = if status = .return then f.results.length else 0) ∧
      continueBehind a.role a.base .normal m₁ = .ok () m' := by
    by_cases hstatus : status = .return
    · simp only [if_pos hstatus] at h ⊢
      obtain ⟨_, m₁, hkeep, hbehind⟩ := bind_eq_ok h
      obtain ⟨vs, hlength, -, hstack, -⟩ := keepResults_eq_ok hkeep
      exact ⟨m₁, vs, hstack, hlength, hbehind⟩
    · simp only [if_neg hstatus] at h ⊢
      obtain ⟨_, m₁, htruncate, hbehind⟩ := bind_eq_ok h
      cases htruncate
      exact ⟨_, [], by rw [toList_shrink, List.append_nil], rfl, hbehind⟩
  obtain ⟨m₁, vs, hstack, hlength, hbehind⟩ := hresults
  -- Behind a section of a contract the stack is cut to the base once more.
  by_cases hrole : a.role = .section
  · rw [hrole] at hbehind
    change (if m₁.stack.size < a.base then _ else _ : Exec Unit) m₁ = _ at hbehind
    split at hbehind
    · cases hbehind
    · cases hbehind
      have htake : (m.stack.toList.take a.base).length = a.base :=
        List.length_take_of_le (Array.length_toList ▸ hbase)
      refine ⟨[], ?_, by rw [if_neg fun h => h.2 hrole, List.length_nil]⟩
      rw [toList_shrink, hstack, List.take_left' htake, List.append_nil]
  · obtain ⟨us, hus, hnil⟩ := takes_continueBehind hrole a.base .normal m₁ () m' hbehind
    rw [List.length_eq_zero_iff.1 hnil, List.append_nil] at hus
    refine ⟨vs, hus ▸ hstack, ?_⟩
    simpa only [ne_eq, hrole, not_false_eq_true, and_true] using hlength

end Exec

/-! ### Heights of blocks -/

/-- Which block a frame is, at which height of the operand stack it began, and why. -/
def Frame.spot : Frame → Option (BlockId × Nat × Role)
  | .block a => some (a.block, a.base, a.role)
  | .contract _ => none

namespace Machine

/-- The blocks among the frames with their heights. -/
def spots (m : Machine) : List (Option (BlockId × Nat × Role)) := m.frames.map Frame.spot

end Machine

section

variable {w : Watch} {c : Context} {m m' : Machine}

theorem Frame.spot_fixed (f : Frame) : f.fixed.spot = f.spot := by
  cases f <;> rfl

theorem Frame.spot_bare (f : Frame) : f.bare.spot = f.spot := by
  cases f <;> rfl

theorem Machine.length_spots (m : Machine) : m.spots.length = m.frames.length := List.length_map _

theorem Machine.spots_eq_of_fixed (h : m'.frames.map Frame.fixed = m.frames.map Frame.fixed) :
    m'.spots = m.spots := by
  have hfixed : ∀ fs : List Frame, fs.map Frame.spot = (fs.map Frame.fixed).map Frame.spot :=
    fun fs => by
    rw [List.map_map]
    exact congrArg (List.map · fs) (funext fun f => f.spot_fixed.symm)
  rw [spots, spots, hfixed, h, ← hfixed]

theorem Machine.spots_eq_outline (m : Machine) : m.spots = m.outline.map Frame.spot := by
  rw [spots, outline, List.map_map]
  exact congrArg (List.map · m.frames) (funext fun f => f.spot_bare.symm)

theorem Frame.map_spot_setSlot (v : VarRef) (x : Value) (fs : List Frame) :
    (Frame.setSlot v x fs).map Frame.spot = fs.map Frame.spot := by
  fun_induction Frame.setSlot v x fs with
  | case1 => rfl
  | case2 => rfl
  | case3 a fs _ ih => exact congrArg (_ :: ·) ih
  | case4 k fs ih => exact congrArg (_ :: ·) ih

/-- Changes start blocks above the height that is watched, and leave the frames and the operands
that are there. -/
theorem Follows.above (h : Follows w m m') :
    (∃ new, m'.spots = new ++ m.spots ∧ ∀ id base role, some (id, base, role) ∈ new →
      w.floor ≤ base) ∧
      m'.stack.toList.take w.floor = m.stack.toList.take w.floor := by
  -- A link pushes spots whose base is not below the floor, or leaves the spots alone.
  induction h with
  | refl => exact ⟨⟨[], rfl, nofun⟩, rfl⟩
  | @tail m₁ m₂ _ hlink ih =>
    obtain ⟨⟨new, hnew, hfloor⟩, hstack⟩ := ih
    cases hlink.change with
    | quiet hquiet =>
      exact ⟨⟨new, (Machine.spots_eq_of_fixed hquiet.frames).trans hnew, hfloor⟩,
        hquiet.stack.trans hstack⟩
    | enter a ha =>
      refine ⟨⟨some (a.block, a.base, a.role) :: new, congrArg (_ :: ·) hnew, ?_⟩, hstack⟩
      intro id base role hmem
      rcases List.mem_cons.1 hmem with heq | hmem
      · cases heq
        exact ha
      · exact hfloor id base role hmem
    | assign v x old => exact ⟨⟨new, (Frame.map_spot_setSlot v x _).trans hnew, hfloor⟩, hstack⟩
    | bind env => exact ⟨⟨new, hnew, hfloor⟩, hstack⟩
    | write p value mem => exact ⟨⟨new, hnew, hfloor⟩, hstack⟩
    | host e run args => exact ⟨⟨new, hnew, hfloor⟩, hstack⟩
    | begin k env =>
      refine ⟨⟨none :: new, congrArg (_ :: ·) hnew, fun id base role hmem => ?_⟩, hstack⟩
      exact hfloor id base role ((List.mem_cons.1 hmem).resolve_left nofun)

/-! ### Calls -/

/-- Whether a step calls a function of the language or starts a section of a contract, how many
operands lie below its arguments, and the machine behind the step. -/
inductive Invokes (c : Context) (m : Machine) (id : BlockId) : Role → Nat → Machine → Prop
  | call {m' : Machine} {op : Op} : nextOp? c m = some op →
      op = .call (.func id) ∨ op = .callVariadic (.func id) → Exec.step c m = .ok () m' →
      Invokes c m id .call (m.stack.size - m.takes c op) m'
  | section {m' : Machine} {k : ContractCall} {rest : List Frame} {ss : List BlockId} :
      m.frames = .contract k :: rest → k.sections = id :: ss → Exec.step c m = .ok () m' →
      Invokes c m id .section m.stack.size m'

/-- Whether no instruction of a call takes operands that lie below its arguments. -/
def StaysAbove (c : Context) (depth n : Nat) (m₁ : Machine) : Prop :=
  ∀ m op, During c depth m₁ m → depth < m.frames.length → nextOp? c m = some op →
    n ≤ m.stack.size - m.takes c op

/-- Nothing is said of values, and the operands below a height are watched. -/
def Watch.above (c : Context) (n : Nat) : Watch where
  context := c
  values _ _ := True
  floor := n

theorem Watch.above_holds (c : Context) (n : Nat) : (Watch.above c n).Holds where
  lasting := lasting_true
  keeps _ _ _ _ _ _ _ _ := ⟨fun _ _ => trivial, fun _ _ _ => trivial, fun _ _ _ _ => trivial⟩
  panics _ _ _ := trivial
  contracts _ _ _ _ := trivial
  writes _ _ _ _ _ _ _ _ := trivial

/-- A call takes its arguments and starts the block above what is left. -/
theorem Invokes.starts {id : BlockId} {role : Role} {n : Nat} {f : FuncInfo}
    (h : Invokes c m id role n m') (hf : (c.block id).func? = some f) :
    m'.spots = some (id, n, role) :: m.spots ∧ m'.stack.toList = m.stack.toList.take n ∧
      n ≤ m.stack.size := by
  -- it is enough to know how many operands are taken before the block is started
  have hstarts : ∀ {m₁ : Machine} {vs : List Value}, m.stack.toList = m'.stack.toList ++ vs →
      m'.outline =
        .block { block := id, slots := #[], base := m'.stack.size, role := role } :: m₁.outline →
      m₁.spots = m.spots → m.stack.size - vs.length = n →
      m'.spots = some (id, n, role) :: m.spots ∧ m'.stack.toList = m.stack.toList.take n ∧
        n ≤ m.stack.size := by
    intro m₁ vs hstack houtline hspots hn
    have hsize := congrArg List.length hstack
    rw [List.length_append, Array.length_toList, Array.length_toList] at hsize
    obtain rfl : m'.stack.size = n := by omega
    refine ⟨?_, ?_, by omega⟩
    · rw [m'.spots_eq_outline, houtline, ← hspots, m₁.spots_eq_outline]
      rfl
    · rw [hstack, List.take_left' Array.length_toList]
  have hcall : ∀ {op : Op}, nextOp? c m = some op → Exec.step c m = .ok () m' →
      perform c op { m with cost := m.cost - 1, ticks := m.ticks + 1 } = .ok () m' := by
    intro op hop hstep
    rw [(step_of_nextOp? hop).1] at hstep
    obtain ⟨_, m₁, htick, hperform⟩ := bind_eq_ok hstep
    rwa [machine_of_tick htick] at hperform
  cases h with
  | call hop hcallee hstep =>
    have hperform := hcall hop hstep
    rcases hcallee with rfl | rfl
    · obtain ⟨⟨vs, hstack, hlength⟩, houtline⟩ := enters_callFunc hf none _ _ hperform
      refine hstarts hstack houtline rfl ?_
      rw [hlength, Machine.takes, Callee.operands, hf]
      rfl
    · obtain ⟨count, m₁, hcount, henter⟩ := bind_eq_ok hperform
      obtain ⟨us, hus, hone⟩ := takes_popCount _ _ _ hcount
      obtain ⟨⟨vs, hstack, hlength⟩, houtline⟩ := enters_callFunc hf (some count) _ _ henter
      have hstill := Still.of_plain plain_popCount
        { m with cost := m.cost - 1, ticks := m.ticks + 1 }
      have hm := count?_of_popCount hcount
      change m.count? = some count at hm
      rw [hcount] at hstill
      refine @hstarts m₁ (vs ++ us) ?_ houtline ?_ ?_
      · rw [← List.append_assoc, ← hstack]
        exact hus
      · rw [m₁.spots_eq_outline, m.spots_eq_outline]
        exact congrArg _ hstill
      · rw [List.length_append, hlength, hone, Machine.takes, Callee.operands, hf, hm]
        rfl
  | @«section» _ k rest ss hframes hsections hstep =>
    rw [step_of_contract hframes, resume_cons c rest m hsections] at hstep
    obtain ⟨⟨vs, hstack, hlength⟩, houtline⟩ := enters_start c id [] .section _ _ hstep
    refine hstarts hstack houtline ?_ (by rw [hlength, Nat.sub_zero])
    rw [Machine.spots, Machine.spots, hframes]
    rfl

/-- Whether a call that began in some machine is under way: its block is active, the blocks that it
has started lie higher, and the operands below its arguments are there. -/
structure Underway (m₀ : Machine) (id : BlockId) (role : Role) (n : Nat) (m : Machine) : Prop where
  spots : ∃ inner, m.spots = inner ++ some (id, n, role) :: m₀.spots ∧
    ∀ id base role, some (id, base, role) ∈ inner → n ≤ base
  stack : m.stack.toList.take n = m₀.stack.toList.take n
  size : n ≤ m.stack.size

variable {m₀ m₁ : Machine} {id : BlockId} {role : Role} {n : Nat} {f : FuncInfo}

/-- The innermost block of a call begins at or above the arguments of the call. -/
theorem Underway.le_base (h : Underway m₀ id role n m) {a : Activation} {rest : List Frame}
    (hframes : m.frames = .block a :: rest) : n ≤ a.base := by
  obtain ⟨inner, hspots, hinner⟩ := h.spots
  rw [Machine.spots, hframes, List.map_cons] at hspots
  cases inner with
  | nil =>
    have hhead := (List.cons.inj hspots).1
    cases hhead
    exact Nat.le_refl _
  | cons spot inner =>
    have hhead := (List.cons.inj hspots).1
    exact hinner a.block a.base a.role (hhead ▸ List.mem_cons_self ..)

/-- A machine in which a call is under way is ready for a step that takes no operands below the
arguments. -/
theorem Underway.steady (h : Underway m₀ id role n m)
    (hop : ∀ op, nextOp? c m = some op → n ≤ m.stack.size - m.takes c op) :
    m.Steady (Watch.above c n) where
  has := .of_true m _
  room := h.size
  base _ _ _ hframes _ := h.le_base hframes
  operands := hop
  writes _ _ _ _ _ _ _ _ _ _ _ := trivial
  assigns _ _ _ _ _ _ := trivial
  holders _ _ := trivial
  starts _ _ _ _ _ := trivial
  sections _ _ _ _ _ _ _ := trivial
  ends _ := trivial

/-- **A step keeps a call under way, or ends its block.** -/
theorem Underway.step (h : Underway m₀ id role n m)
    (hop : ∀ op, nextOp? c m = some op → n ≤ m.stack.size - m.takes c op)
    (hstep : Exec.step c m = .ok () m') : Underway m₀ id role n m' ∨
      m'.spots = m₀.spots ∧ ∃ a status m₁, (a.block, a.base, a.role) = (id, n, role) ∧
        leaving? c m = some status ∧ m₁.stack = m.stack ∧
        behindBlock c a status m₁ = .ok () m' := by
  obtain ⟨inner, hspots, hinner⟩ := h.spots
  obtain ⟨m₁, hlead, htame⟩ := step_tame (Watch.above_holds c n) (h.steady hop)
  rw [show (Watch.above c n).context = c from rfl, hstep] at hlead htame
  obtain ⟨hfollows, hsize, -⟩ := htame
  obtain ⟨⟨new, hnew, hfloor⟩, hstack⟩ := hfollows.above
  -- a frame that ends is one that the call has started, or the block of the call
  have hends : ∀ {f : Frame} {rest : List Frame}, m.frames = f :: rest → m₁.stack = m.stack →
      m'.outline = rest.map Frame.bare → Underway m₀ id role n m' ∨
        m'.spots = m₀.spots ∧ f.spot = some (id, n, role) := by
    intro f rest hframes hm₁ houtline
    have hrest : m'.spots = rest.map Frame.spot := by
      rw [m'.spots_eq_outline, houtline, List.map_map]
      exact congrArg (List.map · rest) (funext Frame.spot_bare)
    rw [Machine.spots, hframes, List.map_cons] at hspots
    cases inner with
    | nil =>
      obtain ⟨hf, houter⟩ := List.cons.inj hspots
      exact .inr ⟨hrest.trans houter, hf⟩
    | cons spot inner =>
      refine .inl ⟨⟨inner, hrest.trans (List.cons.inj hspots).2, ?_⟩, ?_, hsize⟩
      · exact fun id base role hmem => hinner id base role (List.mem_cons_of_mem _ hmem)
      · exact hstack.trans (hm₁ ▸ h.stack)
  cases hlead with
  | stay =>
    refine .inl ⟨⟨new ++ inner, ?_, fun id base role hmem => ?_⟩, hstack.trans h.stack, hsize⟩
    · exact hnew.trans (by rw [hspots, List.append_assoc])
    · exact (List.mem_append.1 hmem).elim (hfloor id base role) (hinner id base role)
  | drop a rest status cost ticks hframes hleaving hr =>
    have houtline := (Still.of_plain (plain_behindBlock c a status))
      (dropBlock a rest { m with cost := cost, ticks := ticks })
    rw [← hr] at houtline
    refine (hends hframes rfl houtline).imp_right fun ⟨houter, hspot⟩ =>
      ⟨houter, a, status, _, Option.some.inj hspot, hleaving, ?_, hr.symm⟩
    rfl
  | finish k rest hframes hsections hr =>
    have houtline := still_behindContract k ((m.env.get? "result").getD .nil) (finished k rest m)
    rw [← hr] at houtline
    exact (hends hframes rfl houtline).imp_right fun ⟨_, hspot⟩ => absurd hspot nofun

/-- A call is under way until its block has ended. -/
theorem Invokes.underway (h : Invokes c m₀ id role n m₁) (hf : (c.block id).func? = some f)
    (habove : StaysAbove c m₀.frames.length n m₁) (hduring : During c m₀.frames.length m₁ m)
    (hactive : m₀.frames.length < m.frames.length) : Underway m₀ id role n m := by
  induction hduring with
  | start =>
    obtain ⟨hspots, hstack, hn⟩ := h.starts hf
    refine ⟨⟨[], hspots, nofun⟩, ?_, ?_⟩
    · rw [hstack, List.take_take, Nat.min_self]
    · rw [← Array.length_toList, hstack, List.length_take, Array.length_toList]
      omega
  | @step m m' hduring hbefore hstep ih =>
    refine ((ih hbefore).step (fun op => habove m op hduring hbefore) hstep).resolve_right
      fun h => ?_
    have hlength := congrArg List.length h.1
    rw [m'.length_spots, m₀.length_spots] at hlength
    omega

/-- **A call leaves the operands below its arguments as they were**, if none of its instructions
takes them. Above them are as many values as the function has results if it returns, and none
otherwise. A section of a contract leaves none. -/
theorem Invokes.operands_kept (h : Invokes c m₀ id role n m₁) (hf : (c.block id).func? = some f)
    (habove : StaysAbove c m₀.frames.length n m₁) (hduring : During c m₀.frames.length m₁ m)
    (hactive : m₀.frames.length < m.frames.length) (hstep : Exec.step c m = .ok () m')
    (hends : m'.frames.length = m₀.frames.length) :
    ∃ vs, m'.stack.toList = m₀.stack.toList.take n ++ vs ∧
      vs.length = if leaving? c m = some .return ∧
      role ≠ .section then f.results.length else 0 := by
  have hunder := h.underway hf habove hduring hactive
  rcases hunder.step (fun op => habove m op hduring hactive) hstep with hnext | ⟨-, hlast⟩
  · -- the block of the call is still active, so there are too many frames
    obtain ⟨inner, hspots, -⟩ := hnext.spots
    have hlength := congrArg List.length hspots
    rw [List.length_append, List.length_cons, m'.length_spots, m₀.length_spots] at hlength
    omega
  · obtain ⟨a, status, m₂, heq, hleaving, hstack, hbehind⟩ := hlast
    cases heq
    have hbase : a.base ≤ m₂.stack.size := hstack ▸ hunder.size
    obtain ⟨vs, hvs, hlength⟩ := stack_of_behindBlock hf hbase hbehind
    refine ⟨vs, by rw [hvs, hstack, hunder.stack], ?_⟩
    simpa only [hleaving, Option.some.injEq] using hlength

end

/-! ### Two calls -/

/-- The call of a function that a step makes and that returns behind some steps: the machines behind
the first step, before the last and behind it. -/
def Exec.callMade? (c : Context) (id : BlockId) (steps : Nat) (m₀ : Machine) :
    Option (Machine × Machine × Machine) :=
  match nextOp? c m₀, step c m₀ with
  | some (.call (.func j)), .ok _ m₁ =>
    match stepsWithin c m₀.frames.length steps m₁ with
    | some m =>
      match step c m with
      | .ok _ m' =>
        if j = id ∧ m₀.frames.length < m.frames.length ∧ leaving? c m = some .return ∧
          m'.frames.length = m₀.frames.length then some (m₁, m, m') else none
      | .error _ _ => none
    | none => none
  | _, _ => none

/-- A call with its first and its last step. -/
structure CallMade (c : Context) (id : BlockId) (m₀ m₁ m m' : Machine) : Prop where
  invokes : Invokes c m₀ id .call (m₀.stack.size - m₀.takes c (.call (.func id))) m₁
  during : During c m₀.frames.length m₁ m
  active : m₀.frames.length < m.frames.length
  returns : leaving? c m = some .return
  last : Exec.step c m = .ok () m'
  ends : m'.frames.length = m₀.frames.length

/-- A call that the check finds is made, and comes to its end. -/
theorem Exec.callMade?_sound {c : Context} {id : BlockId} {steps : Nat} {m₀ m₁ m m' : Machine}
    (h : callMade? c id steps m₀ = some (m₁, m, m')) : CallMade c id m₀ m₁ m m' := by
  unfold callMade? at h
  split at h
  · rename_i j _ m₂ hop hfirst
    split at h
    · rename_i m₃ hwithin
      split at h
      · rename_i m₄ hlast
        split at h
        · rename_i hcall
          cases h
          obtain ⟨rfl, hactive, hreturns, hends⟩ := hcall
          exact ⟨.call hop (.inl rfl) hfirst, During.start.of_stepsWithin hwithin,
            hactive, hreturns, hlast, hends⟩
        · cases h
      · cases h
    · cases h
  · cases h

/-- The integer at the bottom of the operand stack. -/
def Machine.bottom? (m : Machine) : Option Int64 :=
  match m.stack[0]? with
  | some (Value.int i) => some i
  | _ => none

theorem Machine.bottom?_congr {m m' : Machine}
    (h : m'.stack.toList.take 1 = m.stack.toList.take 1) :
    m'.bottom? = m.bottom? := by
  have hhead : ∀ m : Machine, m.stack[0]? = (m.stack.toList.take 1)[0]? := fun m => by
    rw [List.getElem?_take_of_lt Nat.zero_lt_one, Array.getElem?_toList]
  rw [bottom?, bottom?, hhead, h, ← hhead]

/-- Whether the next instruction takes no operand from below a height. -/
def Exec.takesAbove (c : Context) (n : Nat) (m : Machine) : Bool :=
  (nextOp? c m).all fun op => n ≤ m.stack.size - m.takes c op

theorem StaysAbove.of_always {c : Context} {depth n fuel : Nat} {m₁ : Machine}
    (h : Exec.always c depth (takesAbove c n) fuel m₁ = true) : StaysAbove c depth n m₁ := by
  intro m op hduring hactive hop
  have htakes := hduring.always h hactive
  rw [takesAbove, hop] at htakes
  exact of_decide_eq_true htakes

namespace Launch

/-- A run that reaches a call which passes a test. -/
theorem exists_call {l : Launch} {c : Context} {m₀ : Machine} {n steps : Nat} {id : BlockId}
    {p : Machine → Machine × Machine × Machine → Bool}
    (h : (l.machineAfter c n m₀).any (fun m => (callMade? c id steps m).any (p m)) = true) :
    ∃ m q m₁ m₂ m₃ m', Transition c l m₀ m q (.ok () m₁) ∧ CallMade c id m₁ m₂ m₃ m' ∧
      p m₁ (m₂, m₃, m') = true := by
  obtain ⟨m, q, m₁, htrans, hcall⟩ := machineAfter_sound h
  obtain ⟨⟨m₂, m₃, m'⟩, hx, hp⟩ := (Option.any_eq_true _ _).1 hcall
  exact ⟨m, q, m₁, m₂, m₃, m', htrans, callMade?_sound hx, hp⟩

/-- A function that leaves an operand of its own below its result, called while an operand waits. -/
def surplusOperand : Session := callingSession
  ("func g int \x7b return 0 \x7d\nfunc f int \x7b g()\n return 7 \x7d\n" ++
    "func main int \x7b return 5 - f() \x7d")

/-- The operand that waits is there when the function has returned, and above it only the result. -/
theorem surplusOperand_dropped : ∃ m q m₀ m₁ m₂ m',
    Transition (surplusOperand.context none fun _ => 0) (func 3 []) emptyMachine m q (.ok () m₀) ∧
      CallMade (surplusOperand.context none fun _ => 0) 2 m₀ m₁ m₂ m' ∧ m₀.bottom? = some 5 ∧
      ∃ vs, m'.stack.toList = m₀.stack.toList.take 1 ++ vs ∧ vs.length = 1 := by
  obtain ⟨hfunc, hsteps⟩ : (((surplusOperand.context none fun _ => 0).block 2).func?).map
        (fun f => f.results.length) = some 1 ∧
      ((func 3 []).machineAfter (surplusOperand.context none fun _ => 0) 1 emptyMachine).any
        (fun m₀ => (callMade? (surplusOperand.context none fun _ => 0) 2 4 m₀).any fun x =>
          m₀.bottom? = some 5 && m₀.stack.size - m₀.takes (surplusOperand.context none fun _ => 0)
            (.call (.func 2)) = 1 && Exec.always (surplusOperand.context none fun _ => 0)
              m₀.frames.length (takesAbove (surplusOperand.context none fun _ => 0) 1) 6 x.1)
          = true := by
    simp only [surplusOperand, callingSession, Session.perform_compile, String.toList_append,
      String.reduceToList]
    decide +kernel
  obtain ⟨f, hf, hresults⟩ := Option.map_eq_some_iff.1 hfunc
  obtain ⟨m, q, m₀, m₁, m₂, m', htrans, hcall, hp⟩ := exists_call hsteps
  simp only [Bool.and_eq_true, decide_eq_true_eq] at hp
  obtain ⟨⟨hbottom, hn⟩, habove⟩ := hp
  refine ⟨m, q, m₀, m₁, m₂, m', htrans, hcall, hbottom, ?_⟩
  have hinvokes := hn ▸ hcall.invokes
  obtain ⟨vs, hstack, hlength⟩ :=
    hinvokes.operands_kept hf (.of_always habove) hcall.during hcall.active
    hcall.last hcall.ends
  refine ⟨vs, hstack, ?_⟩
  rw [hlength, if_pos ⟨hcall.returns, fun h => by cases h⟩, hresults]

/-- A function that assigns one value to two variables, called while an operand waits. -/
def assignsTooMany : Session := callingSession
  ("func g int \x7b return 0 \x7d\nfunc f int \x7b var a b int\n a, b = 1\n g()\n return 7 \x7d\n"
    ++
    "func main int \x7b return 5 - f() \x7d")

/-- **A call can take an operand of its caller**: an assignment to two variables with one value
takes the operand below the call as the other value. The function returns, and `5` has become
`0`. -/
theorem assignment_takes_operand_of_caller : ∃ m q m₀ m₁ m₂ m' f,
    Transition (assignsTooMany.context none fun _ => 0) (func 3 []) emptyMachine m q (.ok () m₀) ∧
      CallMade (assignsTooMany.context none fun _ => 0) 2 m₀ m₁ m₂ m' ∧
      ((assignsTooMany.context none fun _ => 0).block 2).func? = some f ∧
      m₀.stack.size - m₀.takes (assignsTooMany.context none fun _ => 0) (.call (.func 2)) = 1 ∧
      m'.stack.toList.take 1 ≠ m₀.stack.toList.take 1 := by
  obtain ⟨hfunc, hsteps⟩ : (((assignsTooMany.context none fun _ => 0).block 2).func?).isSome
    = true ∧
      ((func 3 []).machineAfter (assignsTooMany.context none fun _ => 0) 1 emptyMachine).any
        (fun m₀ => (callMade? (assignsTooMany.context none fun _ => 0) 2 7 m₀).any fun x =>
          m₀.stack.size - m₀.takes (assignsTooMany.context none fun _ => 0) (.call (.func 2)) = 1 &&
            m₀.bottom? = some 5 && x.2.2.bottom? = some 0) = true := by
    simp only [assignsTooMany, callingSession, Session.perform_compile, String.toList_append,
      String.reduceToList]
    decide +kernel
  obtain ⟨f, hf⟩ := Option.isSome_iff_exists.1 hfunc
  obtain ⟨m, q, m₀, m₁, m₂, m', htrans, hcall, hp⟩ := exists_call hsteps
  simp only [Bool.and_eq_true, decide_eq_true_eq] at hp
  obtain ⟨⟨hn, hbottom⟩, hbottom'⟩ := hp
  refine ⟨m, q, m₀, m₁, m₂, m', f, htrans, hcall, hf, hn, fun heq => ?_⟩
  rw [Machine.bottom?_congr heq, hbottom] at hbottom'
  cases hbottom'

end Launch

end Covenant
