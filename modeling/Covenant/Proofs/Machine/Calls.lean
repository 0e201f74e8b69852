import Covenant.Proofs.Arena
import Covenant.Proofs.Dict
import Covenant.Proofs.Machine.Plain

/-!
# Calls and what they cost

A call first finds its arguments and checks them, is then paid for, and only then takes place. Here
the three kinds of calls are taken apart in this way: functions (`callFunc_eq`), extensions
(`callExtension_eq`, `extensionArgs_eq`) and contracts (`callContract_eq`). What comes before the
payment is plain.

A `Charge` says what is paid for, and `Exec.pay` pays for one after the other. The charge that uses
up the cost, or overflows its counter, is the last one that is attempted (`attempted`).
-/

namespace Covenant

open Covenant.Computation

/-! ### Charges -/

/-- What a run is charged for. -/
inductive Charge where
  | instruction
  /-- A call of a function of the language. -/
  | function
  /-- A call of an extension. -/
  | extension
  /-- What the host asks for a call of an extension beyond the fixed cost. -/
  | surcharge (n : Int)
  /-- The cost that a query reports. -/
  | query (n : Int)
  /-- A call of a contract. -/
  | contract
  /-- The price of a contract. -/
  | price (n : Int)
deriving DecidableEq, Repr

namespace Charge

/-- How much is charged. -/
def amount (limits : Limits) : Charge → Int
  | instruction => 1
  | function => limits.costCall
  | extension => limits.costExtend
  | surcharge n => n
  | query n => n
  | contract => limits.costContract
  | price n => n

/-- The charges that are attempted, one after the other, when some cost is left. -/
def attempted (limits : Limits) (cost : Int) : List Charge → List Charge
  | [] => []
  | k :: ks =>
    k :: if InCounter (cost - k.amount limits) ∧ 0 < cost - k.amount limits
      then attempted limits (cost - k.amount limits) ks else []

end Charge

/-! ### Requests -/

/-- A contract by its qualified name, and values for a list of its fields. -/
structure Request where
  name : String
  names : List String
  values : List Value

namespace Request

/-- What the call binds its fields to. -/
def params (q : Request) : Dict Value := .ofList (q.names.zip q.values)

/-- The request for a contract seen from an ecosystem with a map of fields. -/
def inState (state : UInt32) (name : String) (params : Dict Value) : Request :=
  ⟨Name.qualify state.toNat name, Text.fields (",".intercalate params.keys), params.values⟩

end Request

/-- The contract call that an extension is. -/
def Behaviour.request? (h : Heap) (args : List Value) : Behaviour → Option Request
  | .host _ => none
  | .execContract =>
    some ⟨(args.getD 0 .nil).text h, Text.fields ((args.getD 1 .nil).text h), args.drop 2⟩
  | .callContract =>
    match (args.getD 0 .nil).toInt h with
    | .error _ => none
    | .ok state =>
      let params := match args.getD 2 .nil with
        | .map r => h.entries r
        | _ => .empty
      some (.inState state.toUInt64.toUInt32 ((args.getD 1 .nil).text h) params)

/-- Whether a program of a registry can call an extension, by its name or by an instruction. -/
def Registry.Offers (r : Registry) (e : Extension) : Prop :=
  (∃ name, r.objects.get? name = some (.ext e)) ∨
    ∃ id, ∃ i ∈ (r.block id).code, i.op.extension? = some e

/-- Whether all extensions that a program of a registry can call pass a test. -/
def Registry.offersOnly (r : Registry) (p : Extension → Bool) : Bool :=
  r.objects.toList.all (fun x => match x.2 with
    | .ext e => p e
    | _ => true) &&
  r.arena.toList.all fun b => b.code.toList.all fun i => i.op.extension?.all p

/-- What passes the check for all extensions of a registry passes it for each that is offered. -/
theorem Registry.offersOnly_sound {r : Registry} {p : Extension → Bool} (h : r.offersOnly p = true)
    {e : Extension} (he : r.Offers e) : p e = true := by
  rw [offersOnly, Bool.and_eq_true] at h
  rcases he with ⟨x, hx⟩ | ⟨id, i, hi, he⟩
  · exact List.all_eq_true.1 h.1 (x, .ext e) (Dict.get?_eq_some_iff.1 hx)
  · rcases r.arena.block_mem_or id with hmem | hempty
    · have hall := List.all_eq_true.1 (List.all_eq_true.1 h.2 _ hmem) i (Array.mem_toList_iff.2 hi)
      rw [he] at hall
      exact hall
    · rw [Registry.block, hempty] at hi
      exact absurd hi (Array.not_mem_empty i)

namespace Exec

variable {σ : Type} {view : Dict Value → σ}

/-- What is left after a charge: nothing of the run if the counter cannot hold it, or if it is
nothing. -/
theorem charge_eq (n : Int) (m : Machine) :
    charge n m = if InCounter (m.cost - n) then
        if m.cost - n ≤ 0 then .error (.fault .costLimit) { m with cost := m.cost - n }
        else .ok () { m with cost := m.cost - n }
      else .error .overflow m := by
  unfold charge
  rw [get_bind_apply]
  by_cases hfits : InCounter (m.cost - n)
  · simp only [hfits, not_true_eq_false, if_true, if_false]
    change (if m.cost - n ≤ 0 then fail .costLimit else pure () : Exec Unit) _ = _
    split <;> rfl
  · simp only [hfits, not_false_eq_true, if_true, if_false]
    rfl

/-- A charge that leaves something is paid. -/
theorem charge_of_pos {n : Int} {m : Machine} (hfits : InCounter (m.cost - n))
    (hpos : 0 < m.cost - n) :
    charge n m = .ok () { m with cost := m.cost - n } := by
  rw [charge_eq, if_pos hfits, if_neg (Int.not_le.2 hpos)]

/-- A charge that was paid has left something. -/
theorem charge_eq_ok {n : Int} {m m' : Machine} (h : charge n m = .ok () m') :
    InCounter (m.cost - n) ∧ 0 < m.cost - n ∧ m' = { m with cost := m.cost - n } := by
  rw [charge_eq] at h
  split at h
  · rename_i hfits
    split at h
    · cases h
    · rename_i hpos
      cases h
      exact ⟨hfits, Int.not_le.1 hpos, rfl⟩
  · cases h

/-- Pays for one thing after the other. -/
def pay (limits : Limits) : List Charge → Exec Unit
  | [] => pure ()
  | k :: ks => do
    charge (k.amount limits)
    pay limits ks

theorem pay_singleton (limits : Limits) (k : Charge) : pay limits [k] = charge (k.amount limits) :=
  bind_pure_unit

/-! ### Functions -/

/-- The variables that a called function starts with, before the call is paid for. -/
def callSlots (c : Context) (id : BlockId) (count : Option Nat) : Exec (List Value) := do
  if c.registry.arena.size ≤ id then throw .crash
  match (c.block id).func? with
  | none => fail (.unknownFunction "")
  | some f =>
    let named ← popSegments f
    let args ← match count with
      | some n => variadicArgs f (← takeArgs n)
      | none => takeFixed f.params.length
    let args ← ofExcept (checkParams 1 f.params args)
    let slots := args ++ (← defaults ((c.block id).vars.toList.drop args.length))
    match f.segments, named with
    | some segments, some (.map r) => bindSegments ((← get).heap.entries r) segments.toList slots
    | _, _ => pure slots

/-- A function is called once its variables are known and the call is paid for. -/
theorem callFunc_eq (c : Context) (id : BlockId) (count : Option Nat) :
    callFunc c id count = (do
      let slots ← callSlots c id count
      pay c.limits [.function]
      checkDepth c
      enterBlock c id slots .call) := by
  simp only [pay_singleton]
  unfold callFunc callSlots
  by_cases hsize : c.registry.arena.size ≤ id
  · simp only [if_pos hsize]
    rfl
  · simp only [if_neg hsize]
    cases (c.block id).func? with
    | none => rfl
    | some f =>
      cases count <;>
        · simp only [bind_assoc, pure_bind]
          repeat refine bind_congr fun _ => ?_
          split
          · rename_i heq
            simp only [heq, bind_assoc]
            rfl
          · simp only [pure_bind]
            rfl

/-- The variables of a function that is called do not depend on what is not seen of the
environment. -/
theorem plain_callSlots (c : Context) (id : BlockId) (count : Option Nat) :
    Plain view (callSlots c id count) := by
  have hbind : ∀ (f : FuncInfo) (named : Option Value) (args : List Value), Plain view (do
      let args ← ofExcept (checkParams 1 f.params args)
      let slots := args ++ (← defaults ((c.block id).vars.toList.drop args.length))
      match f.segments, named with
      | some segments, some (.map r) =>
        bindSegments ((← MonadState.get).heap.entries r) segments.toList slots
      | _, _ => pure slots) := by
    intro f named args
    refine .bind (.ofExcept _) fun args => .bind (plain_defaults _) fun rest => ?_
    dsimp only
    split
    · exact .get_bind (fun _ _ _ => rfl) (fun _ _ => rfl) fun _ => plain_bindSegments _ _ _
    · exact .pure _
  refine .ite .crash_bind ?_
  split
  · exact .fail _
  · rename_i f _
    refine .bind (plain_popSegments f) fun named => ?_
    cases count with
    | some n =>
      exact .bind (plain_takeArgs n) fun args => .bind (plain_variadicArgs f args) (hbind f named)
    | none => exact .bind (plain_takeFixed _) (hbind f named)

/-! ### Extensions -/

/-- The arguments of an extension, before the call is paid for. -/
def extensionParams (e : Extension) (count : Option Nat) : Exec (List Value) := do
  let args ← match count with
    | some n => takeArgs n
    | none => takeFixed e.params.length
  if args.length < e.fixed then fail (.wrongParams e.name e.params.length)
  let args ← ofExcept (checkParams 1 (e.params.take e.fixed) args)
  let env := (← get).env
  return e.auto.map (fun key => (env.get? key).getD .nil) ++ args

/-- What a call of an extension costs. -/
def extensionCharges (c : Context) (e : Extension) : List Charge :=
  .extension :: ((c.registry.extensionCost e.name).map Charge.surcharge).toList

/-- The arguments of an extension, once they have been taken, checked and paid for. -/
def extensionArgs (c : Context) (e : Extension) (count : Option Nat) : Exec (List Value) := do
  let args ← match count with
    | some n => takeArgs n
    | none => takeFixed e.params.length
  if args.length < e.fixed then fail (.wrongParams e.name e.params.length)
  let args ← ofExcept (checkParams 1 (e.params.take e.fixed) args)
  let env := (← get).env
  let auto := e.auto.map fun key => (env.get? key).getD .nil
  charge c.limits.costExtend
  match c.registry.extensionCost e.name with
  | some cost => charge cost
  | none => pure ()
  checkDepth c
  return auto ++ args

/-- A call of an extension gathers the arguments and does what the extension does. -/
theorem callExtension_eq (c : Context) (e : Extension) (count : Option Nat) :
    callExtension c e count = extensionArgs c e count >>= behave c e := by
  unfold callExtension extensionArgs
  cases count <;> cases c.registry.extensionCost e.name <;>
    · simp only [bind_assoc]
      congr 1
      funext args
      split
      · rfl
      · simp only [bind_assoc, pure_bind]

/-- An extension is called once its arguments are known and the call is paid for. -/
theorem extensionArgs_eq (c : Context) (e : Extension) (count : Option Nat) :
    extensionArgs c e count = (do
      let args ← extensionParams e count
      pay c.limits (extensionCharges c e)
      checkDepth c
      return args) := by
  unfold extensionArgs extensionParams extensionCharges
  cases count <;> cases c.registry.extensionCost e.name <;>
    · simp only [bind_assoc, pay, Option.map_none, Option.map_some, Option.toList]
      refine bind_congr fun args => ?_
      split
      · rfl
      · simp only [bind_assoc, pure_bind]
        rfl

/-- The arguments of an extension do not depend on what is not seen, if the names that it is given
are seen. -/
theorem plain_extensionParams {e : Extension} (hauto : ∀ key ∈ e.auto, Sees view key)
    (count : Option Nat) : Plain view (extensionParams e count) := by
  have hcheck : ∀ vs : List Value, Plain view (do
      let args ← ofExcept (checkParams 1 (e.params.take e.fixed) vs)
      let env := (← MonadState.get).env
      return e.auto.map (fun key => (env.get? key).getD .nil) ++ args) := by
    refine fun vs => .bind (.ofExcept _) fun args =>
      .get_bind (fun m μ hμ => ?_) (fun _ _ => rfl) fun _ => .pure _
    have hsame : ∀ key ∈ e.auto, (μ.env.get? key).getD Value.nil = (m.env.get? key).getD .nil :=
      fun key hkey => by rw [hauto key hkey hμ]
    exact congrArg (fun vs => pure (vs ++ args)) (List.map_congr_left hsame)
  cases count with
  | none => exact .bind (plain_takeFixed _) fun vs => .ite (.fail_bind _) (hcheck vs)
  | some n => exact .bind (plain_takeArgs n) fun vs => .ite (.fail_bind _) (hcheck vs)

/-- A query is charged with its first result. -/
theorem deliver_query {e : Extension} (he : e.queriesDb = true) (cost : Value)
    (rest : List Value) :
    deliver e (cost :: rest) = (do
      let n ← ofExcept (cost.toInt (← get).heap)
      charge n.toInt
      pushAll rest) := by
  unfold deliver
  rw [he]

theorem deliver_of_not_query {e : Extension} {results : List Value}
    (h : e.queriesDb = false ∨ results = []) :
    deliver e results = pushAll results := by
  unfold deliver
  rcases h with he | rfl
  · rw [he]
  · cases e.queriesDb <;> rfl

/-! ### Contracts -/

/-- The contract that is called and its fields, before the call is paid for. -/
def contractParams (c : Context) (q : Request) : Exec (BlockId × Dict Value) := do
  match c.registry.qualified? q.name with
  | none => fail (.unknownContract q.name)
  | some id =>
    if c.registry.arena.size ≤ id then throw .crash
    match (c.block id).contract? with
    | none => fail (.unknownContract q.name)
    | some info =>
      if q.names.length ≠ q.values.length then fail (.contractParams q.name)
      if (← get).env.contains (Name.marker q.name) then fail (.contractLoop q.name)
      return (id, ← addFields (info.data.getD []) q.params)

/-- What a call of a contract costs. -/
def contractCharges (c : Context) (name : String) : List Charge :=
  .contract :: ((c.registry.contractPrice name).map Charge.price).toList

/-- The machine in which a contract has just been started. -/
def started (c : Context) (id : BlockId) (name : String) (via : Option Extension)
    (params : Dict Value) (m : Machine) : Machine :=
  let k : ContractCall :=
    { name := name, sections := sectionsOf (c.block id)
      this := m.env.get? "this_contract", parent := m.env.get? "parent"
      saved := m.env.toList.filter fun p => !Name.isSystem p.1
      via := via }
  { m with
    env := contractEnv m.env params name
    depth := m.depth + k.calls
    frames := .contract k :: m.frames }

/-- A contract is started once its fields are known and the call is paid for. -/
theorem callContract_eq (c : Context) (name names : String) (values : List Value)
    (via : Option Extension) :
    callContract c name names values via = (do
      let p ← contractParams c ⟨name, Text.fields names, values⟩
      pay c.limits (contractCharges c name)
      modify (started c p.1 name via p.2)) := by
  unfold callContract contractParams contractCharges
  cases c.registry.qualified? name with
  | none => rfl
  | some id =>
    by_cases hsize : c.registry.arena.size ≤ id
    · simp only [if_pos hsize]
      rfl
    · simp only [if_neg hsize]
      cases (c.block id).contract? with
      | none => rfl
      | some info =>
        by_cases hlength : (Text.fields names).length ≠ values.length
        · simp only [if_pos hlength]
          rfl
        · -- What is left is the check for a contract that runs already; then come the charges.
          simp only [if_neg hlength, bind_assoc]
          refine bind_congr fun m => ?_
          split
          · rfl
          · cases c.registry.contractPrice name <;>
              · simp only [bind_assoc, pure_bind, pay, Option.map_none, Option.map_some,
                  Option.toList]
                rfl

/-- The fields of a contract do not depend on what is not seen, if its marker is. -/
theorem plain_contractParams (c : Context) {q : Request}
    (hmarker : Sees view (Name.marker q.name)) :
    Plain view (contractParams c q) := by
  unfold contractParams
  split
  · exact .fail _
  · refine .ite .crash_bind ?_
    split
    · exact .fail _
    · refine .ite (.fail_bind _) (.get_bind (fun m μ hμ => ?_) (fun _ _ => rfl) fun _ =>
        .ite (.fail_bind _) ?_)
      · have hsame : μ.env.contains (Name.marker q.name) = m.env.contains (Name.marker q.name) := by
          rw [Dict.contains_eq, Dict.contains_eq, hmarker hμ]
        change (if μ.env.contains (Name.marker q.name) = true then _ else _) = _
        rw [hsame]
      · exact .bind (plain_addFields _ _) fun _ => .pure _

/-- A contract that can be called has the name, is not active, and the fields that were left out are
added. -/
theorem contractParams_ok {c : Context} {q : Request} {p : BlockId × Dict Value} {m m' : Machine}
    (h : contractParams c q m = .ok p m') :
    c.registry.qualified? q.name = some p.1 ∧ m.env.get? (Name.marker q.name) = none ∧
      ∃ info, (c.block p.1).contract? = some info ∧
        addFields (info.data.getD []) q.params m = .ok p.2 m' := by
  unfold contractParams at h
  -- Every check but the last branch of each fails, in the order of `contractParams`.
  cases hid : c.registry.qualified? q.name with
  | none =>
    rw [hid] at h
    cases h
  | some id =>
    simp only [hid] at h
    by_cases hsize : c.registry.arena.size ≤ id
    · rw [if_pos hsize] at h
      cases h
    · rw [if_neg hsize] at h
      cases hinfo : (c.block id).contract? with
      | none =>
        rw [hinfo] at h
        cases h
      | some info =>
        simp only [hinfo] at h
        split at h
        · cases h
        · -- The marker of a contract that runs is the one check that reads the environment.
          change (if m.env.contains (Name.marker q.name) = true then _ else _ :
            Exec (BlockId × Dict Value)) m = _ at h
          split at h
          · cases h
          · rename_i hmarker
            obtain ⟨params, m₁, hadd, hrest⟩ := bind_eq_ok h
            cases hrest
            refine ⟨rfl, ?_, info, hinfo, hadd⟩
            rw [Dict.contains_eq] at hmarker
            simpa using hmarker

/-! ### Going on with a contract -/

/-- What happens behind a contract with its result. -/
def behindContract (k : ContractCall) (result : Value) : Exec Unit :=
  match k.via with
  | none => push result
  | some e => do
    deliver e [result]
    advance

theorem resume_nil (c : Context) {k : ContractCall} (rest : List Frame) (m : Machine)
    (h : k.sections = []) :
    resume c k rest m = behindContract k ((m.env.get? "result").getD .nil) (finished k rest m) := by
  unfold resume
  rw [h]
  rfl

theorem resume_cons (c : Context) {k : ContractCall} (rest : List Frame) (m : Machine)
    {s : BlockId} {ss : List BlockId} (h : k.sections = s :: ss) :
    resume c k rest m = start c s [] .section
      { m with frames := .contract { k with sections := ss } :: rest } := by
  unfold resume
  rw [h]
  rfl

end Exec

end Covenant
