import Mathlib
import Covenant.Proofs.Compile.Yards
import Covenant.Proofs.Machine.Depth
import Covenant.Proofs.Machine.Operands
import Covenant.Proofs.Machine.Terms

/-!
# Running code that climbs

Code that climbs from one height to another does so on a machine, above whatever operands are there
(`Climbs.run`): up to each of its instructions the operands below are as they were, and the
instruction finds what it takes above them. Calls run until they have returned, and are taken at
their word that they leave one value in the place of their operands; a function does that which has
one result and stays above its arguments (`CallMade.leavesOne`).

With what is known of expressions that compile this is their safety (`expression_stack_safe`).
-/

namespace Covenant

open Compile Covenant.Computation Exec Structured

namespace Exec

variable {α β : Type} {c : Context} {m m' : Machine}

/-! ### Instructions -/

/-- Whether a computation that succeeds leaves some operands in the place of others, and does not
touch those below. -/
def Trades (t l : Nat) (x : Exec α) : Prop :=
  ∀ m a m', x m = .ok a m' → ∃ s vs us, m.stack.toList = s ++ vs ∧ vs.length = t ∧
    m'.stack.toList = s ++ us ∧ us.length = l

variable {x : Exec α} {f : α → Exec β} {i j l t : Nat}

theorem Takes.trades (hx : Takes t x) : Trades t 0 x := by
  intro m a m' h
  obtain ⟨vs, hvs, hlength⟩ := hx m a m' h
  exact ⟨m'.stack.toList, vs, [], hvs, hlength, (List.append_nil _).symm, rfl⟩

/-- What the first part takes and the second trades is traded by both. -/
theorem Takes.bind_trades (hx : Takes i x) (hf : ∀ a, Trades j l (f a)) :
    Trades (i + j) l (x >>= f) := by
  intro m b m' h
  obtain ⟨a, m₁, hm₁, hm'⟩ := bind_eq_ok h
  obtain ⟨us, hus, rfl⟩ := hx m a m₁ hm₁
  obtain ⟨s, vs, ws, hvs, rfl, hws, hl⟩ := hf a m₁ b m' hm'
  refine ⟨s, vs ++ us, ws, by rw [hus, hvs, List.append_assoc], ?_, hws, hl⟩
  rw [List.length_append, Nat.add_comm]

theorem Takes.none_trades (hx : Takes 0 x) (hf : ∀ a, Trades t l (f a)) : Trades t l (x >>= f) :=
  Nat.zero_add t ▸ hx.bind_trades hf

theorem Trades.get_bind {f : Machine → Exec β} (h : ∀ m, Trades t l (f m)) :
    Trades t l (get >>= f) :=
  fun m b m' hm' => h m m b m' hm'

theorem Trades.bind_takes (hx : Trades t l x) (hf : ∀ a, Takes 0 (f a)) : Trades t l (x >>= f) := by
  intro m b m' h
  obtain ⟨a, m₁, hm₁, hm'⟩ := bind_eq_ok h
  obtain ⟨s, vs, us, hvs, ht, hus, hl⟩ := hx m a m₁ hm₁
  obtain ⟨ws, hws, hnil⟩ := hf a m₁ b m' hm'
  rw [List.length_eq_zero_iff.1 hnil, List.append_nil] at hws
  exact ⟨s, vs, us, hvs, ht, hws ▸ hus, hl⟩

theorem takes_advance : Takes 0 advance := .modify fun m => by split <;> rfl

/-- What is calculated without operands is pushed. -/
theorem trades_push (v : Value) : Trades 0 1 (do push v; advance) := by
  intro m a m' h
  obtain ⟨_, m₁, hpush, hadvance⟩ := bind_eq_ok h
  cases hpush
  obtain ⟨us, hus, hnil⟩ := takes_advance _ _ _ hadvance
  rw [List.length_eq_zero_iff.1 hnil, List.append_nil] at hus
  refine ⟨m.stack.toList, [], [v], (List.append_nil _).symm, rfl, ?_, rfl⟩
  rw [← hus]
  exact Array.toList_push

/-- To compute a value without the stack takes nothing from it. -/
theorem takes_of_gives {r : Machine → Except Fault (α × Heap)} (h : ∀ m, Gives x m (r m)) :
    Takes 0 x := by
  refine .of_stack fun m a m' hx => ?_
  have hgives := h m
  revert hgives
  cases r m with
  | error f =>
    rintro ⟨m₁, hm₁⟩
    cases hm₁.symm.trans hx
  | ok p =>
    intro hp
    cases (show x m = _ from hp).symm.trans hx
    rfl

theorem takes_storeIndex (c : Context) (container key value : Value) :
    Takes 0 (storeIndex c container key value) :=
  .get_bind fun _ => .bind_none (.ofExcept _) fun _ => .get_bind fun _ => .get_bind fun _ =>
    .bind_none (.modify fun _ => rfl) fun _ => .ite (.throw_bind _) (.modify fun _ => rfl)

/-- The arguments of a segment are taken, and the map below them stays or comes up. -/
theorem trades_collectSegment (segment : String) (count : Nat) :
    Trades (count + 1) 1 (collectSegment segment count) := by
  refine (takes_popN count).bind_trades fun args m a m' h => ?_
  have hreplaces : ∀ {m₁ : Machine} {s : Array Value} {old new : Value}, m.stack = s.push old →
      m₁.stack = s.push new → ∃ s' vs us, m.stack.toList = s' ++ vs ∧ vs.length = 1 ∧
        m₁.stack.toList = s' ++ us ∧ us.length = 1 := fun hold hnew =>
    ⟨_, [_], [_], by rw [hold, Array.toList_push], rfl, by rw [hnew, Array.toList_push], rfl⟩
  obtain ⟨_, _, hget, h⟩ := bind_eq_ok h
  cases hget
  -- A `nil` on top is replaced by a map, any other operand stays.
  cases hback : m.stack.back? with
  | none =>
    rw [hback] at h
    cases h
  | some top =>
    rw [hback] at h
    obtain ⟨s, hs⟩ := Array.back?_eq_some_iff.1 hback
    cases top with
    | nil =>
      obtain ⟨v, hv⟩ : ∃ v, m'.stack = m.stack.pop.push v := by
        cases h
        exact ⟨_, rfl⟩
      exact hreplaces hs (hv.trans (by rw [hs, Array.pop_push]))
    | map r =>
      cases h
      exact hreplaces hs hs
    | _ =>
      cases h
      exact hreplaces hs hs

/-- **The operands that an instruction takes and leaves**, if it is no call. -/
theorem trades_perform (c : Context) {op : Op} (hop : op.trade? = some (t, l)) :
    Trades t l (perform c op) := by
  cases op with
  | push k => cases hop; exact trades_push _
  | var v => cases hop; exact (takes_of_gives (readVar_gives v)).none_trades trades_push
  | extendVar name =>
    cases hop; exact (takes_of_gives (readExtend_gives name)).none_trades trades_push
  | mapInit entries => cases hop; exact (takes_of_gives (item_gives _)).none_trades trades_push
  | arrayInit is => cases hop; exact (takes_of_gives (item_gives _)).none_trades trades_push
  | unwrapArr =>
    cases hop; exact (Takes.bind_none (.modify (g := fun m => { m with spread := true })
      fun _ => rfl) fun _ =>
      takes_advance).trades
  | unary op =>
    cases hop
    exact takes_pop.bind_trades fun _ => .get_bind fun _ =>
      (Takes.ofExcept _).none_trades trades_push
  | binary op =>
    cases hop
    exact takes_pop.bind_trades fun _ => takes_pop.bind_trades fun _ => .get_bind fun _ =>
      (Takes.ofExcept _).none_trades trades_push
  | index =>
    cases hop
    exact takes_pop.bind_trades fun _ => takes_pop.bind_trades fun _ => .get_bind fun _ =>
      (Takes.ofExcept _).none_trades trades_push
  | setIndex =>
    cases hop
    exact (takes_pop.bind fun _ => takes_pop.bind fun _ => takes_pop.bind_none fun _ =>
      (takes_storeIndex c _ _ _).bind_none fun _ => takes_advance).trades
  | funcName segment count =>
    cases hop
    exact (trades_collectSegment segment count).bind_takes fun _ => takes_advance
  | _ => cases hop

end Exec

/-! ### Code -/

variable {c : Context} {m m₁ m' : Machine} {shapes : BlockId → Option CallShape}

/-- An instruction takes as many operands as are known without the machine. -/
theorem Machine.takes_of_trade? {op : Op} {t l : Nat} (h : op.trade? = some (t, l)) :
    m.takes c op = t := by
  cases op <;> first | (cases h; rfl) | cases h

/-- Whether a step and the steps of the block that it starts, if it starts one, lead to another
machine. -/
def Completes (c : Context) (m m' : Machine) : Prop :=
  ∃ m₁, Exec.step c m = .ok () m₁ ∧ During c m.frames.length m₁ m' ∧
    m'.frames.length = m.frames.length

/-- Whether one value comes in the place of the operands of an instruction. -/
def LeavesOne (c : Context) (op : Op) (m m' : Machine) : Prop :=
  ∃ v, m'.stack.toList = m.stack.toList.take (m.stack.size - m.takes c op) ++ [v]

/-- Whether instructions are run one after the other, where each call leaves one value. -/
inductive Passes (c : Context) : Machine → List Op → Machine → Prop
  | nil (m : Machine) : Passes c m [] m
  | cons {m m₁ m' : Machine} {op : Op} {ops : List Op} : nextOp? c m = some op → Completes c m m₁ →
      (op.trade? = none → LeavesOne c op m m₁) → Passes c m₁ ops m' → Passes c m (op :: ops) m'

/-- What an instruction does that is no call. -/
theorem Completes.perform {op : Op} {t l : Nat} (h : Completes c m m') (hop : nextOp? c m = some op)
    (htrade : op.trade? = some (t, l)) :
    Exec.perform c op { m with cost := m.cost - 1, ticks := m.ticks + 1 } = .ok () m' := by
  obtain ⟨m₁, hstep, hduring, hlength⟩ := h
  rw [(step_of_nextOp? hop).1] at hstep
  obtain ⟨_, m₂, htick, hperform⟩ := bind_eq_ok hstep
  rw [machine_of_tick htick] at hperform
  have hplain : op.isPlain = true := by
    cases op <;> first | rfl | cases htrade
  -- no frame is added, so the step is all
  have hframes : m₁.frames.length = m.frames.length := by
    have hstill := Still.of_plain (plain_perform c hplain fun name _ => sees_id name)
      { m with cost := m.cost - 1, ticks := m.ticks + 1 }
    rw [hperform] at hstill
    have := congrArg List.length hstill
    rwa [Machine.outline, Machine.outline, List.length_map, List.length_map] at this
  have hall : m' = m₁ := by
    clear hlength
    induction hduring with
    | start => rfl
    | step _ hactive _ ih =>
      rw [ih, hframes] at hactive
      exact absurd hactive (Nat.lt_irrefl _)
  rw [hall]
  exact hperform

/-- Operands above others are exchanged. -/
theorem Completes.trades {op : Op} {t l k : Nat} (h : Completes c m m')
    (hop : nextOp? c m = some op) (htrade : op.trade? = some (t, l)) {base values : List Value}
    (hstack : m.stack.toList = base ++ values) (hlength : values.length = k + t) :
    ∃ values', m'.stack.toList = base ++ values' ∧ values'.length = k + l := by
  obtain ⟨s, vs, us, hvs, ht, hus, hl⟩ := trades_perform c htrade _ _ _ (h.perform hop htrade)
  have happend : base ++ values = s ++ vs := hstack.symm.trans hvs
  have hsize : s.length = base.length + k := by
    have := congrArg List.length happend
    rw [List.length_append, List.length_append] at this
    omega
  refine ⟨values.take k ++ us, ?_, ?_⟩
  · rw [hus, ← List.append_assoc]
    congr 1
    rw [← show (s ++ vs).take _ = s from List.take_left' hsize, ← happend,
      List.take_length_add_append]
  · rw [List.length_append, List.length_take, hl]
    omega

/-- The value of a call comes above what lies below its operands. -/
theorem LeavesOne.above {op : Op} (h : LeavesOne c op m m') {base values : List Value}
    (hstack : m.stack.toList = base ++ values) {k : Nat}
    (hlength : values.length = k + m.takes c op) :
    ∃ values', m'.stack.toList = base ++ values' ∧ values'.length = k + 1 := by
  obtain ⟨v, hv⟩ := h
  have hsize : m.stack.size - m.takes c op = base.length + k := by
    rw [← Array.length_toList, hstack, List.length_append, hlength]
    omega
  refine ⟨values.take k ++ [v], ?_, ?_⟩
  · rw [hv, hsize, hstack, List.take_length_add_append, List.append_assoc]
  · rw [List.length_append, List.length_take, List.length_singleton]
    omega

/-- The number of arguments that is pushed in front of a call is found by it. -/
theorem Completes.count? {n : Nat} (hn : n < 2 ^ 64) (h : Completes c m m')
    (hop : nextOp? c m = some (.push (.int (.ofNat n)))) : m'.count? = some n := by
  obtain ⟨_, m₁, hpush, hadvance⟩ := bind_eq_ok (h.perform hop rfl)
  cases hpush
  obtain ⟨us, hus, hnil⟩ := takes_advance _ _ _ hadvance
  rw [List.length_eq_zero_iff.1 hnil, List.append_nil] at hus
  have hstack : m'.stack = m.stack.push (.int (.ofNat n)) := Array.toList_inj.1 hus.symm
  have hvalue : (Int64.ofNat n).toUInt64.toNat = n := by
    rw [Int64.toUInt64_ofNat']
    exact UInt64.toNat_ofNat_of_lt' hn
  rw [Machine.count?, hstack, Array.back?_push]
  exact congrArg some hvalue

/-- The operands of a call are those that are known of it. -/
theorem Callee.operands_of_taken? (hshapes : ∀ id f, shapes id = some f →
    (c.block id).callShape? = some f) {f : Callee} {count : Option Nat} {t : Nat} (h :
    f.taken? shapes count = some t) :
    f.operands c count = t := by
  cases f with
  | ext e => exact Option.some.inj h
  | func id =>
    obtain ⟨g, hg, rfl⟩ := Option.map_eq_some_iff.1 h
    obtain ⟨f, hf, rfl⟩ := Option.map_eq_some_iff.1 (hshapes id g hg)
    rw [operands, hf]
    rfl

/-- Whether the operands of a machine are some that lie below and above them those that the next of
some instructions takes, or a number of others behind the last instruction. -/
def Machine.Carries (c : Context) (m : Machine) (base : List Value) (ops : List Op) (h : Nat) :
    Prop :=
  ∃ values, m.stack.toList = base ++ values ∧ (∀ op ∈ ops.head?, m.takes c op ≤ values.length) ∧
    (ops = [] → values.length = h)

namespace Passes

variable {o : Op} {ops us vs : List Op} {base values : List Value} {h : Nat}

/-- The next instruction is the first one, or the first one is run and then others. -/
theorem first (hpass : Passes c m us m') (hops : o :: ops = us ++ vs)
    (hstack : m.stack.toList = base ++ values) (htakes : m.takes c o ≤ values.length)
    (hrest : ∀ m₁ us', nextOp? c m = some o → Completes c m m₁ →
      (o.trade? = none → LeavesOne c o m m₁) →
      ops = us' ++ vs → Passes c m₁ us' m' → m'.Carries c base vs h) : m'.Carries c base vs h := by
  cases hpass with
  | nil =>
    subst hops
    refine ⟨values, hstack, fun o' ho => ?_, nofun⟩
    cases ho
    exact htakes
  | @cons _ m₁ _ o' us' hop hcompletes hcall hpass =>
    obtain ⟨rfl, hrests⟩ := List.cons.inj hops
    exact hrest m₁ us' hop hcompletes hcall hrests hpass

/-- A call that counts its arguments finds their number. -/
theorem counted {n t k : Nat} (hpass : Passes c m us m')
    (hops : .push (.int (.ofNat n)) :: o :: ops = us ++ vs) (hn : n < 2 ^ 64) (ho : o.trade? = none)
    (htakes : ∀ m : Machine, m.count? = some n → m.takes c o = t + 1)
    (hstack : m.stack.toList = base ++ values) (hlength : values.length = k + t)
    (hrest : ∀ m₂ us' values', ops = us' ++ vs → Passes c m₂ us' m' →
      m₂.stack.toList = base ++ values' →
      values'.length = k + 1 → m'.Carries c base vs h) : m'.Carries c base vs h := by
  refine hpass.first hops hstack (Nat.zero_le _) fun m₁ us₁ hop hcompletes _ hops hpass => ?_
  obtain ⟨values₁, hstack₁, hlength₁⟩ := hcompletes.trades hop rfl hstack rfl
  have htakes₁ := htakes m₁ (hcompletes.count? hn hop)
  refine hpass.first hops hstack₁ (by omega) fun m₂ us₂ hop hcompletes hcall hops hpass => ?_
  obtain ⟨values₂, hstack₂, hlength₂⟩ := (hcall ho).above hstack₁ (k := k) (by omega)
  exact hrest m₂ us₂ values₂ hops hpass hstack₂ hlength₂

end Passes

/-- **Code that climbs runs above the operands that are there.** -/
theorem Climbs.run {h h' : Nat} {ops us vs : List Op} (hclimbs : Climbs shapes h ops h')
    (hshapes : ∀ id f, shapes id = some f → (c.block id).callShape? = some f)
    (hops : ops = us ++ vs) (hpass : Passes c m us m') {base values : List Value}
    (hstack : m.stack.toList = base ++ values) (hlength : values.length = h) :
    m'.Carries c base vs h' := by
  -- Along the static heights: each instruction takes and pushes what the next height says.
  induction hclimbs generalizing m us values with
  | nil h =>
    obtain ⟨rfl, rfl⟩ := List.append_eq_nil_iff.1 hops.symm
    cases hpass
    exact ⟨values, hstack, nofun, fun _ => hlength⟩
  | @plain op t l k h ops htrade _ ih =>
    have htakes : m.takes c op = t := Machine.takes_of_trade? htrade
    refine hpass.first hops hstack (by omega) fun m₁ us' hop hcompletes _ hops hpass => ?_
    obtain ⟨values', hstack', hlength'⟩ := hcompletes.trades hop htrade hstack hlength
    exact ih hops hpass hstack' hlength'
  | @call f t k h ops ht _ ih =>
    have htakes : m.takes c (.call f) = t := Callee.operands_of_taken? hshapes ht
    refine hpass.first hops hstack (by omega) fun m₁ us' _ _ hcall hops hpass => ?_
    obtain ⟨values', hstack', hlength'⟩ := (hcall rfl).above hstack (k := k) (by omega)
    exact ih hops hpass hstack' hlength'
  | @callVariadic f n t k h ops hn ht _ ih =>
    refine hpass.counted hops hn rfl (fun m hcount => ?_) hstack hlength
      fun m₂ us' values' hops hpass hstack' hlength' => ih hops hpass hstack' hlength'
    rw [Machine.takes, hcount, Callee.operands_of_taken? hshapes ht]
  | @callExtend name n k h ops hn _ ih =>
    refine hpass.counted hops hn rfl (fun m hcount => ?_) hstack hlength
      fun m₂ us' values' hops hpass hstack' hlength' => ih hops hpass hstack' hlength'
    rw [Machine.takes, hcount, Option.getD_some]

/-- A function that has one result, returns and stays above its arguments leaves one value in their
place. -/
theorem CallMade.leavesOne {id : BlockId} {m₀ m₁ m m' : Machine}
    (h : CallMade c id m₀ m₁ m m') {f : FuncInfo} (hf : (c.block id).func? = some f)
    (hone : f.results.length = 1) (habove : StaysAbove c m₀.frames.length
    (m₀.stack.size - m₀.takes c (.call (.func id))) m₁) :
    LeavesOne c (.call (.func id)) m₀ m' := by
  obtain ⟨vs, hvs, hlength⟩ := h.invokes.operands_kept hf habove h.during h.active h.last h.ends
  rw [h.returns, if_pos ⟨rfl, nofun⟩, hone] at hlength
  obtain ⟨v, rfl⟩ := List.length_eq_one_iff.1 hlength
  exact ⟨v, hvs⟩

/-- **Expressions that compile without a slip are safe for the operand stack.** Wherever their code
is run and whatever operands are there, none of its instructions takes one of them, if each call
leaves one value in the place of its operands; and it leaves one value for each of the expressions
that commas separate outside of brackets, none for an assignment. -/
theorem expression_stack_safe {s : Source} {w w' : Work} {blockFollows : Bool} {start stop : Nat}
    (hcompile : expression s blockFollows start w = .ok stop w')
    (hclean : clean s blockFollows (s.lexemes.size - start) {} start w = true)
    (htop : w.top < w.arena.size) (hspelled : w.arena.Every Block.Spelled)
    (hsize : s.lexemes.size + 3 ≤ 2 ^ 64) :
    ∃ code, (w'.block w.top).code = (w.block w.top).code ++ code ∧
      ∀ (c : Context) (m m' : Machine) (us vs : List Op),
        (∀ id f, w.callShapes id = some f → (c.block id).callShape? = some f) →
        opsOf code = us ++ vs → Passes c m us m' →
        m'.Carries c m.stack.toList vs (s.values start stop) := by
  obtain ⟨code, hcode, hclimbs⟩ :=
    climbs_expression blockFollows hclean htop hspelled hsize stop w' hcompile
  exact ⟨code, hcode, fun c m m' us vs hshapes hops hpass =>
    hclimbs.run hshapes hops hpass (List.append_nil _).symm rfl⟩

/-! ### Two expressions -/

/-- The machine behind some steps that do not fail. -/
def Exec.afterSteps (c : Context) : Nat → Machine → Machine
  | 0, m => m
  | n + 1, m =>
    match step c m with
    | .ok _ m' => afterSteps c n m'
    | .error _ m' => m'

theorem Completes.of_step (hstep : Exec.step c m = .ok () m')
    (hlength : m'.frames.length = m.frames.length) :
    Completes c m m' := ⟨m', hstep, .start, hlength⟩

theorem Completes.of_steps {n : Nat} (hstep : Exec.step c m = .ok () m₁)
    (hsteps : stepsWithin c m.frames.length n m₁ = some m')
    (hlength : m'.frames.length = m.frames.length) :
    Completes c m m' := ⟨m₁, hstep, During.start.of_stepsWithin hsteps, hlength⟩

/-- A unit with a function `double`. -/
def doubling (code : Array Instr) : Work where
  arena := #[{ parent := none, objects := Dict.empty.insert "double" (.func 1), code := code },
    { parent := some 0
      info := .func { name := "double", id := 1, params := [.int], results := [.int] }
      vars := #[.int]
      code := #[⟨.var ⟨1, 0⟩, 1⟩, ⟨.push (.int 2), 1⟩, ⟨.binary .mul, 1⟩, ⟨.return, 1⟩] }]
  root := 0

/-- Lexemes that all stand at one place. -/
def sourceOf (ts : List Token) : Source where
  lexemes := (ts.map (⟨·, ⟨1, 1⟩⟩)).toArray
  globals := .empty
  state := 1
  lateCalls := false

/-- The lexemes of `double(3) + 1` and the end of the line. -/
def doubledPlusOne :
    Source := sourceOf [.ident "double", .punct .lpar, .const (.int 3), .punct .rpar,
  .oper .add, .const (.int 1), .newline]

def doubledPlusOneCode : Array Instr :=
  #[⟨.push (.int 3), 1⟩, ⟨.call (.func 1), 1⟩, ⟨.push (.int 1), 1⟩, ⟨.binary .add, 1⟩]

/-- The lexemes of `() + 1` and the end of the line. -/
def emptyGroup : Source :=
  sourceOf [.punct .lpar, .punct .rpar, .oper .add, .const (.int 1), .newline]

def emptyGroupCode : Array Instr := #[⟨.push (.int 1), 1⟩, ⟨.binary .add, 1⟩]

/-- A machine at the start of the unit's code, with an operand of someone else. -/
def machineWithOperand : Machine where
  heap := .empty
  env := .empty
  stack := #[.int 7]
  frames := [.block { block := 0, slots := #[], base := 0, role := .entry }]
  cost := 100

theorem spelled_doubling : (doubling #[]).arena.Every Block.Spelled := by
  refine .of_getElem? (.of_func?_eq_none rfl) fun i b hb => ?_
  rcases i with _ | _ | i
  · cases hb
    exact .of_func?_eq_none rfl
  · cases hb
    intro f hf
    cases hf
    exact ⟨nofun, nofun⟩
  · cases hb

/-- The code of the unit does not matter to those who call its function. -/
theorem callShape?_doubling (code : Array Instr) (id : BlockId) :
    ((contextOf (doubling code)).block id).callShape? = (doubling #[]).callShapes id := by
  rcases id with _ | _ | id <;> rfl

set_option maxRecDepth 4000 in
/-- `double(3) + 1` leaves its value above the operand that is there. -/
theorem doubledPlusOne_safe :
    ∃ m, Passes (contextOf (doubling doubledPlusOneCode)) machineWithOperand
      [.push (.int 3), .call (.func 1), .push (.int 1), .binary .add] m ∧
    m.Carries (contextOf (doubling doubledPlusOneCode)) [.int 7] [] 1 := by
  have hcompile : expression doubledPlusOne false 0 (doubling #[])
    = .ok 6 (doubling doubledPlusOneCode) := by
    cbv
  obtain ⟨code, hcode, hsafe⟩ := expression_stack_safe hcompile (by decide +kernel) (by decide)
    spelled_doubling (by decide)
  obtain rfl : code = doubledPlusOneCode := by
    rw [show doubledPlusOneCode = #[] ++ code from hcode, Array.empty_append]
  have hpass : Passes (contextOf (doubling doubledPlusOneCode)) machineWithOperand
      [.push (.int 3), .call (.func 1), .push (.int 1), .binary .add]
      (afterSteps (contextOf (doubling doubledPlusOneCode)) 8 machineWithOperand) := by
    have hthree : Completes (contextOf (doubling doubledPlusOneCode)) machineWithOperand
        (afterSteps (contextOf (doubling doubledPlusOneCode)) 1 machineWithOperand) :=
      .of_step (by cbv) (by cbv)
    have hstep : Exec.step (contextOf (doubling doubledPlusOneCode))
        (afterSteps (contextOf (doubling doubledPlusOneCode)) 1 machineWithOperand)
          = .ok () (afterSteps (contextOf (doubling doubledPlusOneCode)) 2 machineWithOperand) := by
          cbv
    -- the call of the function runs its four instructions
    have hcall : Completes (contextOf (doubling doubledPlusOneCode))
        (afterSteps (contextOf (doubling doubledPlusOneCode)) 1 machineWithOperand)
        (afterSteps (contextOf (doubling doubledPlusOneCode)) 6 machineWithOperand) :=
      .of_steps (n := 4) hstep (by cbv) (by cbv)
    have hone : Completes (contextOf (doubling doubledPlusOneCode))
        (afterSteps (contextOf (doubling doubledPlusOneCode)) 6 machineWithOperand)
        (afterSteps (contextOf (doubling doubledPlusOneCode)) 7 machineWithOperand) :=
      .of_step (by cbv) (by cbv)
    have hsum : Completes (contextOf (doubling doubledPlusOneCode))
        (afterSteps (contextOf (doubling doubledPlusOneCode)) 7 machineWithOperand)
        (afterSteps (contextOf (doubling doubledPlusOneCode)) 8 machineWithOperand) :=
      .of_step (by cbv) (by cbv)
    refine .cons (by cbv) hthree (fun h => by cases h)
      (.cons (by cbv) hcall (fun _ => ⟨.int 6, by cbv⟩) ?_)
    exact .cons (by cbv) hone (fun h => by cases h)
      (.cons (by cbv) hsum (fun h => by cases h) (.nil _))
  exact ⟨_, hpass, hsafe _ _ _ _ [] (fun id f hf => (callShape?_doubling _ id).trans hf) rfl hpass⟩

set_option maxRecDepth 4000 in
/-- **An empty group is accepted as an operand**: the code of `() + 1` takes an operand that has
been there before. -/
theorem emptyGroup_takes_operand_below :
    expression emptyGroup false 0 (doubling #[]) = .ok 4 (doubling emptyGroupCode) ∧
    ∃ m, Passes (contextOf (doubling emptyGroupCode)) machineWithOperand [.push (.int 1)] m ∧
      nextOp? (contextOf (doubling emptyGroupCode)) m = some (.binary .add) ∧
      ¬ m.Carries (contextOf (doubling emptyGroupCode)) [.int 7] [.binary .add] 1 := by
  refine ⟨by cbv, afterSteps (contextOf (doubling emptyGroupCode)) 1 machineWithOperand,
    .cons (by cbv) (.of_step (by cbv) (by cbv)) nofun (.nil _), by cbv, ?_⟩
  rintro ⟨values, hstack, htakes, -⟩
  have hone : [Value.int 7] ++ [.int 1] = [.int 7] ++ values := by
    rw [← hstack]
    cbv
  obtain rfl := List.append_cancel_left hone
  exact absurd (htakes _ rfl) (by decide)

end Covenant
