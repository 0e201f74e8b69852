import Covenant.Proofs.Machine.Changes
import Covenant.Proofs.Machine.Runs

/-!
# What a step changes

Calls and instructions make changes only (`Exec.tame_perform`), as far as the watch explains what
they write and where they break off. A step first ends the innermost block or contract, if it does
(`Lead`), and then makes changes (`Exec.step_tame`). What is needed of the machine before the step
is in `Machine.Steady`: that enough operands lie above the height that is watched, that the blocks
it starts can be started, and that its writes are known.
-/

namespace Covenant

open Covenant.Computation

variable {w : Watch} {m m' : Machine} {k : Nat}

/-- Whether a block is there and can be given its arguments. -/
def Registry.Startable (r : Registry) (id : BlockId) : Prop := id < r.arena.size ∧ (r.block id).Fits

/-- How many operands the call of a function takes. -/
def FuncInfo.operands (f : FuncInfo) (count : Option Nat) : Nat :=
  count.getD f.params.length + if f.segments.isSome then 1 else 0

/-- How many operands a call takes, besides the number of arguments. -/
def Callee.operands (c : Context) (count : Option Nat) : Callee → Nat
  | .func id => (((c.block id).func?).map fun f => f.operands count).getD 0
  | .ext e => count.getD e.params.length

/-- How many operands an instruction takes. -/
def Machine.takes (c : Context) (m : Machine) : Op → Nat
  | .if _ | .while _ | .error _ | .unary _ => 1
  | .index | .binary _ => 2
  | .setIndex => 3
  | .funcName _ count => count + 1
  | .assign =>
    match m.frames with
    | .block a :: _ => a.targets.length
    | _ => 0
  | .call f => f.operands c none
  | .callVariadic f => f.operands c m.count? + 1
  | .callExtend _ => m.count?.getD 0 + 1
  | _ => 0

/-- How an instruction ends its block, if it does. -/
def Op.leaves? : Op → Option Status
  | .return => some .return
  | .continue => some .continue
  | .break => some .break
  | _ => none

/-- What an instruction writes into an array or map: the heap, the place, the value and what the
memory meter is set to. The arguments of a chained segment go into the map below them, in an array
that is new. -/
inductive Op.Writes (c : Context) (m : Machine) : Op → Heap → Place → Value → Int → Prop
  | index {s : List Value} {container key value : Value} {p : Place} :
      m.stack.toList = s ++ [container, key, value] →
      m.heap.place c.limits container key value = .ok p →
      Writes c m .setIndex m.heap p value (if m.heap.replacesHolder p container then m.mem
        else max (m.mem + m.heap.growth p value) 0)
  | segment {s args : List Value} {r : Ref} (name : String) : m.stack.toList = s ++ .map r :: args →
      Writes c m (.funcName name args.length) (m.heap.newArray args.toArray).2 (.entry r name)
        (m.heap.newArray args.toArray).1 m.mem

/-- Whether the operands are those of an assignment to an element whose value holds the
container. -/
def Machine.MeetsHolder (c : Context) (m : Machine) : Prop :=
  ∃ s container key value p, m.stack.toList = s ++ [container, key, value] ∧
    m.heap.place c.limits container key value = .ok p ∧ m.heap.replacesHolder p container = true

/-- Whether a host function keeps what is said of values, and answers with such values, if it is
given such values. -/
def Extension.Keeps (P : Heap → Value → Prop) (e : Extension) : Prop :=
  ∀ run, e.behaviour = .host run → ∀ args host, (∀ v ∈ args, P host.heap v) →
    host.env.All (P host.heap) →
    (∀ v, P host.heap v → P (run args host).2.heap v) ∧
      (run args host).2.env.All (P (run args host).2.heap) ∧
      ∀ vs, (run args host).1 = .values vs → ∀ v ∈ vs, P (run args host).2.heap v

/-- Whether a host function may break off, or report that a run has broken off. -/
def Extension.Panics (e : Extension) : Prop :=
  ∃ run args host, e.behaviour = .host run ∧
    ((run args host).1 = .crash ∨ (run args host).1 = .fault .runtimePanic)

/-- Whether what is said of values passes on to new ones, host functions keep it, and it is
explained when the host or the registry makes a run break off. -/
structure Watch.Holds (w : Watch) : Prop where
  lasting : Lasting w.values
  keeps : ∀ e, w.context.registry.Offers e → e.Keeps w.values
  panics : ∀ e, w.context.registry.Offers e → e.Panics → w.crash
  contracts : ∀ name id, w.context.registry.qualified? name = some id →
    w.context.registry.arena.size ≤ id → w.crash
  writes : ∀ m p value mem, m.Has w.values w.floor → w.write m p value mem →
    ∀ v, w.values m.heap v → w.values (m.heap.store p value) v

namespace Exec

/-- Storing into a container. -/
theorem storeIndex_eq {c : Context} {container key value : Value} {p : Place}
    (hp : m.heap.place c.limits container key value = .ok p) :
    storeIndex c container key value m = if m.heap.replacesHolder p container then
        .error .crash { m with heap := m.heap.store p value }
      else .ok () { m with
        heap := m.heap.store p value
        mem := max (m.mem + m.heap.growth p value) 0 } := by
  change EStateM.bind (ofExcept (m.heap.place c.limits container key value)) _ m = _
  rw [hp]
  change (if m.heap.replacesHolder p container then _ else _ : Exec Unit)
    { m with heap := m.heap.store p value } = _
  split <;> rfl

section

variable (hw : w.Holds)
include hw

/-! ### Calls of functions -/

/-- Arguments of a function become its first variables, and the others get their defaults. -/
theorem tame_bindArgs (hm : m.Ready w k) {id : BlockId} {f : FuncInfo}
    (hf : (w.context.block id).func? = some f) {named : Option Value} {args : List Value}
    (hnamed : ∀ v, named = some v → w.values m.heap v) (hargs : Values w args m.heap)
    (hcrash : ¬ w.context.registry.Startable id → w.crash) :
    Tame w m k (Values w) ((do
      let args ← ofExcept (checkParams 1 f.params args)
      let slots := args ++ (← defaults ((w.context.block id).vars.toList.drop args.length))
      match f.segments, named with
      | some segments, some (.map r) =>
        bindSegments ((← get).heap.entries r) segments.toList slots
      | _, _ => pure slots : Exec (List Value)) m) := by
  have hP := hw.lasting
  refine .bind hm (tame_checkParams hP hm 1 f.params hargs) fun args m₁ hm₁ hlasts₁ hargs => ?_
  refine .bind hm₁ (tame_defaults hP hm₁ _) fun rest m₂ hm₂ hlasts₂ hrest => ?_
  have hslots : Values w (args ++ rest) m₂.heap := fun v hv =>
    (List.mem_append.1 hv).elim (fun hv => hlasts₂ (hargs v hv)) (hrest.1 v)
  -- The slots cover the block's variables, so an offset of a segment that fits them is a slot.
  have hlength : (w.context.block id).vars.size ≤ (args ++ rest).length := by
    have hvars : (w.context.block id).vars.toList.length = (w.context.block id).vars.size :=
      Array.length_toList
    rw [List.length_append, hrest.2, List.length_drop]
    omega
  have hkeep : Tame w m₂ k (Values w) (.ok (args ++ rest) m₂) := .ok hm₂ hslots
  cases hsegments : f.segments with
  | none => exact hkeep
  | some segments =>
    cases named with
    | none => exact hkeep
    | some v =>
      cases v with
      | map r =>
        have hr : w.values m₂.heap (.map r) := hlasts₂ (hlasts₁ (hnamed _ rfl))
        refine .get_bind (tame_bindSegments hP hm₂ (hP.entries hr) hslots fun hall => ?_)
        refine hcrash fun hstart => hall fun g hg i hi => ?_
        have hfits := hstart.2 f hf segments hsegments g.1 g.2 (Dict.get?_eq_some_iff.2 hg) i hi
        exact Nat.lt_of_lt_of_le hfits hlength
      | _ => exact hkeep

/-- The variables of a called function are filled with watched values: its arguments, what is
collected, and defaults. -/
theorem tame_callSlots {id : BlockId} {count : Option Nat} (hm : m.Ready w
      (k + (((w.context.block id).func?).map fun f => f.operands count).getD 0))
    (hcrash : ¬ w.context.registry.Startable id → w.crash) :
    Tame w m k (Values w) (callSlots w.context id count m) := by
  have hP := hw.lasting
  refine .ite (fun hsize => .crash (hcrash fun h => Nat.not_lt.2 hsize h.1)) fun hsize => ?_
  cases hf : (w.context.block id).func? with
  | none => exact .fault _ rfl
  | some f =>
    rw [hf, Option.map_some, Option.getD_some, FuncInfo.operands, ← Nat.add_assoc] at hm
    refine .bind hm (tame_popSegments hP hm) fun named m₁ hm₁ _ hnamed => ?_
    rw [Nat.add_comm] at hm₁
    cases count with
    | none =>
      exact .bind hm₁ (tame_takeFixed hP hm₁) fun args m₂ hm₂ hlasts hargs =>
        tame_bindArgs hw hm₂ hf (fun v hv => hlasts (hnamed v hv)) hargs hcrash
    | some n =>
      refine .bind hm₁ (tame_takeArgs hP hm₁) fun args m₂ hm₂ hlasts₂ hargs => ?_
      exact .bind hm₂ (tame_variadicArgs hP hm₂ f hargs) fun args m₃ hm₃ hlasts₃ hargs =>
        tame_bindArgs hw hm₃ hf (fun v hv => hlasts₃ (hlasts₂ (hnamed v hv))) hargs hcrash

/-- A block is entered with watched values. A crash is to be reckoned with if it cannot be
started. -/
theorem tame_enterBlock (hm : m.Ready w k) {id : BlockId} {given : List Value} (role : Role)
    (hgiven : Values w given m.heap) (hcrash : ¬ w.context.registry.Startable id → w.crash) :
    Tame w m k (fun _ _ => True) (enterBlock w.context id given role m) := by
  refine .ite (fun hsize => .crash (hcrash fun h => Nat.not_lt.2 hsize h.1)) fun _ => ?_
  refine .bind hm (tame_defaults hw.lasting hm _) fun rest m₁ hm₁ hlasts hrest => ?_
  have hroom := hm₁.room
  have hslots : (w.context.block id).vars.size ≤ (given ++ rest).toArray.size := by
    have hvars : (w.context.block id).vars.toList.length = (w.context.block id).vars.size :=
      Array.length_toList
    have hsize : (given ++ rest).toArray.size = (given ++ rest).length := List.size_toArray ..
    rw [hsize, List.length_append, hrest.2, List.length_drop]
    omega
  refine .of_link rfl ⟨.enter _ (by dsimp only; omega) hslots, hm₁.has,
    ⟨hm₁.has.nil, hm₁.has.stack, ?_, hm₁.has.env⟩, fun _ hv => hv⟩ hroom trivial
  refine List.forall_mem_cons.2 ⟨fun v hv => ?_, hm₁.has.frames⟩
  have hv : v ∈ given ++ rest := by simpa only [Frame.values] using hv
  exact (List.mem_append.1 hv).elim (fun hv => hlasts (hgiven v hv)) (hrest.1 v)

/-- A call of a function takes the operands that its header asks for. -/
theorem tame_callFunc {id : BlockId} (count : Option Nat) (hm : m.Ready w
      (k + (((w.context.block id).func?).map fun f => f.operands count).getD 0))
    (hcrash : ¬ w.context.registry.Startable id → w.crash) :
    Tame w m k (fun _ _ => True) (callFunc w.context id count m) := by
  rw [callFunc_eq]
  refine .bind hm (tame_callSlots hw hm hcrash) fun slots m₁ hm₁ _ hslots => ?_
  refine .bind hm₁ (tame_pay hw.lasting hm₁ _) fun _ m₂ hm₂ hlasts₂ _ => ?_
  refine .bind hm₂ (tame_checkDepth hm₂) fun _ m₃ hm₃ hlasts₃ _ => ?_
  exact tame_enterBlock hw hm₃ .call (fun v hv => hlasts₃ (hlasts₂ (hslots v hv))) hcrash

/-- A run or a section starts with watched parameters. -/
theorem tame_start (hm : m.Ready w k) {id : BlockId} {params : List Value} (role : Role)
    (hparams : Values w params m.heap) (hcrash : ¬ w.context.registry.Startable id → w.crash) :
    Tame w m k (fun _ _ => True) (start w.context id params role m) := by
  have hP := hw.lasting
  refine .ite (fun hsize => .crash (hcrash fun h => Nat.not_lt.2 hsize h.1)) fun _ => ?_
  cases (w.context.block id).func? with
  | none => exact tame_enterBlock hw hm role hparams hcrash
  | some f =>
    have hrest : ∀ {m₁ : Machine} {args : List Value}, m₁.Ready w k → Values w args m₁.heap →
        Tame w m₁ k (fun _ _ => True) ((do
          let args ← ofExcept (checkParams 1 f.params args)
          enterBlock w.context id args role : Exec Unit) m₁) := by
      intro m₁ args hm₁ hargs
      exact .bind hm₁ (tame_checkParams hP hm₁ 1 f.params hargs) fun args m₂ hm₂ _ hargs =>
        tame_enterBlock hw hm₂ role hargs hcrash
    refine .ite (fun _ => ?_) fun _ => .ite (fun _ => hrest hm hparams) fun _ => .fault _ rfl
    exact .bind hm (tame_variadicArgs hP hm f hparams) fun args m₁ hm₁ _ hargs => hrest hm₁ hargs

/-! ### Calls of contracts -/

/-- Fields that are left out get defaults, which are watched. -/
theorem tame_addFields (hm : m.Ready w k) (fs : List Field) {params : Dict Value}
    (hparams : params.All (w.values m.heap)) :
    Tame w m k (fun d h => d.All (w.values h)) (addFields fs params m) := by
  induction fs generalizing m params with
  | nil => exact .ok hm hparams
  | cons f fs ih =>
    unfold addFields
    refine .ite (fun _ => ih hm hparams) fun _ => .ite (fun _ => .fault _ rfl) fun _ => ?_
    refine .bind hm (tame_defaults hw.lasting hm _) fun vs m₁ hm₁ hlasts hvs => ?_
    have hparams₁ : params.All (w.values m₁.heap) := hparams.imp fun v hv => hlasts hv
    cases vs with
    | nil => exact ih hm₁ hparams₁
    | cons v vs => exact ih hm₁ (hparams₁.insert (hvs.1 v (List.mem_cons_self ..)) f.name)

/-- The fields of a contract are bound to the values of the request. -/
theorem tame_contractParams (hm : m.Ready w k) {q : Request} (hq : Values w q.values m.heap) :
    Tame w m k (fun p h => p.2.All (w.values h)) (contractParams w.context q m) := by
  have hparams : q.params.All (w.values m.heap) :=
    .ofList fun x hx => hq x.2 (List.of_mem_zip hx).2
  unfold contractParams
  cases hname : w.context.registry.qualified? q.name with
  | none => exact .fault _ rfl
  | some id =>
    refine .ite (fun hsize => .crash (hw.contracts _ id hname hsize)) fun _ => ?_
    cases (w.context.block id).contract? with
    | none => exact .fault _ rfl
    | some info =>
      refine .ite (fun _ => .fault _ rfl) fun _ =>
        .get_bind (.ite (fun _ => .fault _ rfl) fun _ => ?_)
      exact .bind hm (tame_addFields hw hm _ hparams) fun params m₁ hm₁ _ hparams => .ok hm₁ hparams

/-- A contract that is called gets watched values, whether it is found or not. -/
theorem tame_callContract (hm : m.Ready w k) {name names : String} {values : List Value}
    (via : Option Extension) (hvalues : Values w values m.heap) :
    Tame w m k (fun _ _ => True) (callContract w.context name names values via m) := by
  rw [callContract_eq]
  refine .bind hm (tame_contractParams hw hm hvalues) fun p m₁ hm₁ _ hp => ?_
  refine .bind hm₁ (tame_pay hw.lasting hm₁ _) fun _ m₂ hm₂ hlasts _ => ?_
  have henv : (contractEnv m₂.env p.2 name).All (w.values m₂.heap) := by
    have hsystem := hm₂.has.env.filterKeys Name.isSystem
    refine .insertAll (((hsystem.insert ?_ _).insert ?_ _).insert ?_ _) fun x hx => ?_
    · cases hthis : (m₂.env.filterKeys Name.isSystem).get? "this_contract" with
      | none => exact hw.lasting.scalar hm₂.has.nil rfl
      | some v => exact hsystem _ v hthis
    · exact hw.lasting.scalar hm₂.has.nil rfl
    · exact hw.lasting.scalar hm₂.has.nil rfl
    · exact hlasts (Dict.all_iff_forall_mem.1 hp x hx)
  refine .of_link rfl ⟨.begin ⟨name, _, _, _, _, via⟩ _, hm₂.has,
    ⟨hm₂.has.nil, hm₂.has.stack, ?_, henv⟩, fun _ hv => hv⟩
    hm₂.room trivial
  refine List.forall_mem_cons.2 ⟨fun v hv => ?_, hm₂.has.frames⟩
  simp only [Frame.values, List.mem_append, Option.mem_toList, List.mem_map] at hv
  rcases hv with (hv | hv) | ⟨x, hx, rfl⟩
  · exact hm₂.has.env _ v hv
  · exact hm₂.has.env _ v hv
  · exact Dict.all_iff_forall_mem.1 hm₂.has.env x (List.mem_filter.1 hx).1

/-! ### Calls of extensions -/

/-- The arguments of an extension are watched values from the stack or from the environment. -/
theorem tame_extensionParams {e : Extension} {count : Option Nat}
    (hm : m.Ready w (count.getD e.params.length + k)) :
    Tame w m k (Values w) (extensionParams e count m) := by
  have hP := hw.lasting
  -- Behind the arguments come the checks and the values taken from the environment.
  have hrest : ∀ {m₁ : Machine} {args : List Value}, m₁.Ready w k → Values w args m₁.heap →
      Tame w m₁ k (Values w) ((do
        if args.length < e.fixed then fail (.wrongParams e.name e.params.length)
        let args ← ofExcept (checkParams 1 (e.params.take e.fixed) args)
        let env := (← get).env
        return e.auto.map (fun key => (env.get? key).getD .nil)
          ++ args : Exec (List Value)) m₁) := by
    intro m₁ args hm₁ hargs
    refine .ite (fun _ => .fault _ rfl) fun _ => ?_
    refine .bind hm₁ (tame_checkParams hP hm₁ 1 _ hargs) fun args m₂ hm₂ _ hargs => ?_
    refine .get_bind (.ok hm₂ fun v hv => ?_)
    rcases List.mem_append.1 hv with hv | hv
    · obtain ⟨key, -, rfl⟩ := List.mem_map.1 hv
      cases hkey : m₂.env.get? key with
      | none => exact hm₂.has.nil
      | some v => exact hm₂.has.env key v hkey
    · exact hargs v hv
  cases count with
  | none =>
    exact .bind hm (tame_takeFixed hP hm) fun args m₁ hm₁ _ hargs => hrest hm₁ hargs
  | some n =>
    exact .bind hm (tame_takeArgs hP hm) fun args m₁ hm₁ _ hargs => hrest hm₁ hargs

/-- The results of a host are pushed, if they are watched. -/
theorem tame_deliver (hm : m.Ready w k) (e : Extension) {results : List Value}
    (hresults : Values w results m.heap) :
    Tame w m k (fun _ _ => True) (deliver e results m) := by
  have hP := hw.lasting
  unfold deliver
  cases e.queriesDb with
  | false => exact tame_pushAll hP hm hresults
  | true =>
    cases results with
    | nil => exact tame_pushAll hP hm hresults
    | cons cost rest =>
      refine .get_bind (.bind (Q := fun _ _ => True) hm (.ofExcept hm (Value.gives_toInt _ _))
        fun n m₁ hm₁ hlasts _ => ?_)
      refine .bind hm₁ (tame_charge hP hm₁ _) fun _ m₂ hm₂ hlasts₁ _ => tame_pushAll hP hm₂ ?_
      exact fun v hv => hlasts₁ (hlasts (hresults v (List.mem_cons_of_mem _ hv)))

/-- A host function gets watched values, and what it answers is watched because the host holds what
is watched. -/
theorem tame_callHost (hm : m.Ready w k) {e : Extension} (he : w.context.registry.Offers e)
    {run : List Value → Host → Reply × Host} (hrun : e.behaviour = .host run) {args : List Value}
    (hargs : Values w args m.heap) : Tame w m k (fun _ _ => True) (callHost e run args m) := by
  obtain ⟨hlasts, henv, hvalues⟩ :=
    hw.keeps e he run hrun args ⟨m.heap, m.env, m.cost⟩ hargs hm.has.env
  have hlink : Link w m (hosted run args m) := by
    refine ⟨.host e run args he hrun hargs, hm.has,
      ⟨hlasts _ hm.has.nil, fun v hv => hlasts v (hm.has.stack v hv), ?_, henv⟩, hlasts⟩
    exact fun f hf v hv => hlasts v (hm.has.frames f hf v hv)
  refine .bind (Q := fun reply h => reply = (run args ⟨m.heap, m.env, m.cost⟩).1 ∧
    ∀ vs, reply = .values vs → Values w vs h) hm (.of_link rfl hlink hm.room ⟨rfl, hvalues⟩)
    fun reply m₁ hm₁ _ hreply => ?_
  cases reply with
  | values vs =>
    exact .bind hm₁ (tame_deliver hw hm₁ e (hreply.2 vs rfl)) fun _ m₂ hm₂ _ _ =>
      tame_advance hw.lasting hm₂
  | fault f =>
    by_cases hf : f = .runtimePanic
    · have hpanics : e.Panics := ⟨run, args, _, hrun, .inr (hf ▸ hreply.1.symm)⟩
      exact ⟨.refl m₁, fun _ => hw.panics e he hpanics⟩
    · exact .refusal hf
  | crash => exact .crash (hw.panics e he ⟨run, args, _, hrun, .inl hreply.1.symm⟩)

/-- An extension runs its function or calls its contract with watched values. -/
theorem tame_behave (hm : m.Ready w k) {e : Extension} (he : w.context.registry.Offers e)
    {args : List Value} (hargs : Values w args m.heap) :
    Tame w m k (fun _ _ => True) (behave w.context e args m) := by
  unfold behave
  cases hbehaviour : e.behaviour with
  | host run => exact tame_callHost hw hm he hbehaviour hargs
  | execContract =>
    exact .get_bind (tame_callContract hw hm _ fun v hv => hargs v (List.mem_of_mem_drop hv))
  | callContract =>
    refine .get_bind (.bind (Q := fun _ _ => True) hm (.ofExcept hm (Value.gives_toInt _ _))
      fun state m₁ hm₁ hlasts _ => ?_)
    refine tame_callContract hw hm₁ _ fun v hv => hlasts ?_
    -- the values are those of the map that is the third argument
    have hthird : w.values m.heap (args.getD 2 .nil) := by
      rw [List.getD_eq_getElem?_getD]
      cases hget : args[2]? with
      | none => exact hm.has.nil
      | some x => exact hargs x (List.mem_of_getElem? hget)
    generalize args.getD 2 .nil = x at hv hthird
    cases x with
    | map r => exact Dict.all_iff_forall_values.1 (hw.lasting.entries hthird) v hv
    | _ => exact Dict.all_iff_forall_values.1 .empty v hv

/-- A call of an extension takes its arguments from the stack. -/
theorem tame_callExtension {e : Extension} (count : Option Nat)
    (hm : m.Ready w (count.getD e.params.length + k)) (he : w.context.registry.Offers e) :
    Tame w m k (fun _ _ => True) (callExtension w.context e count m) := by
  rw [callExtension_eq, extensionArgs_eq]
  simp only [bind_assoc, pure_bind]
  refine .bind hm (tame_extensionParams hw hm) fun args m₁ hm₁ _ hargs => ?_
  refine .bind hm₁ (tame_pay hw.lasting hm₁ _) fun _ m₂ hm₂ hlasts₂ _ => ?_
  refine .bind hm₂ (tame_checkDepth hm₂) fun _ m₃ hm₃ hlasts₃ _ => ?_
  exact tame_behave hw hm₃ he fun v hv => hlasts₃ (hlasts₂ (hargs v hv))

/-! ### Ending blocks and contracts -/

/-- Results are moved down over what the block has left on the stack. -/
theorem tame_keepResults (hm : m.Ready w 0) (f : FuncInfo) {base : Nat} (hbase : w.floor ≤ base) :
    Tame w m 0 (fun _ _ => True) (keepResults f base m) := by
  have hP := hw.lasting
  refine .ite (fun _ => .fault _ rfl) fun _ => .ite (fun hsize => .get_bind ?_)
    fun _ => .ok hm trivial
  refine .bind hm (tame_truncate hP hm hbase) fun _ m₁ hm₁ hlasts _ =>
    tame_pushAll hP hm₁ fun v hv => ?_
  rw [Array.toList_extract, List.extract_eq_take_drop] at hv
  refine hlasts (hm.has.of_append
    (List.take_append_drop (m.stack.size - f.results.length) _).symm ?_ v
    (List.mem_of_mem_take hv))
  rw [List.length_take, Array.length_toList]
  omega

/-- Behind a block come its results, the next section or the loop. A crash is to be reckoned with if
a section has less on the stack than it began with. -/
theorem tame_continueBehind (hm : m.Ready w 0) (role : Role) {base : Nat} (hbase : w.floor ≤ base)
    (status : Status) (hcrash : role = .section → m.stack.size < base → w.crash) :
    Tame w m 0 (fun _ _ => True) (continueBehind role base status m) := by
  have hP := hw.lasting
  have hending : Tame w m 0 (fun _ _ => True) ((modify fun m => { m with ending := some status } :
      Exec PUnit) m) := .of_counters hP rfl hm rfl rfl rfl rfl rfl trivial
  cases role with
  | entry => exact .ok hm trivial
  | «section» =>
    exact .get_bind (.ite (fun hsize => .crash (hcrash rfl hsize)) fun _ =>
      tame_truncate hP hm hbase)
  | branch =>
    cases status with
    | normal => exact tame_advance hP hm
    | «return» | «continue» | «break» => exact hending
  | loop =>
    have hjump : Tame w m 0 (fun _ _ => True) (modifyTop jump m) :=
      tame_modifyTop hP hm fun a => by
        unfold jump
        split <;> rfl
    cases status with
    | «return» => exact hending
    | «break» => exact tame_modifyTop hP hm fun _ => rfl
    | normal | «continue» => exact hjump
  | call => exact tame_advance hP hm

/-- What happens behind a block. A section breaks off if too few operands are there. -/
theorem tame_behindBlock (hm : m.Ready w 0) {a : Activation} (hbase : w.floor ≤ a.base)
    (status : Status) (hcrash : a.role = .section → m.stack.size < a.base → w.crash) :
    Tame w m 0 (fun _ _ => True) (behindBlock w.context a status m) := by
  have hP := hw.lasting
  have htruncate : ∀ status, Tame w m 0 (fun _ _ => True) ((do
      truncate a.base
      continueBehind a.role a.base status : Exec Unit) m) := by
    intro status
    refine .bind_eq hm (tame_truncate hP hm hbase) fun _ m₁ heq hm₁ _ _ => ?_
    refine tame_continueBehind hw hm₁ a.role hbase status fun hrole hsize => hcrash hrole ?_
    cases heq
    rw [Array.size_shrink] at hsize
    omega
  unfold behindBlock
  cases (w.context.block a.block).func? with
  | none =>
    exact .ite (fun _ => htruncate status) fun _ =>
      tame_continueBehind hw hm a.role hbase status hcrash
  | some f =>
    refine .ite (fun _ => ?_) fun _ => htruncate .normal
    refine .bind_eq hm (tame_keepResults hw hm f hbase) fun _ m₁ heq hm₁ _ _ => ?_
    refine tame_continueBehind hw hm₁ a.role hbase .normal fun _ hsize => ?_
    exact absurd (le_size_of_keepResults heq) (Nat.not_le.2 hsize)

/-- The result of a contract is pushed or given to the host that called it. -/
theorem tame_behindContract (hm : m.Ready w k) (c : ContractCall) {result : Value}
    (hresult : w.values m.heap result) :
    Tame w m k (fun _ _ => True) (behindContract c result m) := by
  have hP := hw.lasting
  unfold behindContract
  cases c.via with
  | none => exact tame_push hP hm hresult
  | some e =>
    refine .bind hm (tame_deliver hw hm e fun v hv => ?_) fun _ m₁ hm₁ _ _ => tame_advance hP hm₁
    exact List.mem_singleton.1 hv ▸ hresult

/-! ### Writing into arrays and maps -/

/-- A write that is known keeps what is said of values. -/
theorem link_write (hm : m.Has w.values w.floor) {p : Place} {value : Value} {mem : Int}
    (hwrite : w.write m p value mem) :
    Link w m { m with heap := m.heap.store p value, mem := mem } := by
  have hlasts := hw.writes m p value mem hm hwrite
  refine ⟨.write p value mem hwrite, hm,
    ⟨hlasts _ hm.nil, fun v hv => hlasts v (hm.stack v hv), ?_, ?_⟩, hlasts⟩
  · exact fun f hf v hv => hlasts v (hm.frames f hf v hv)
  · exact hm.env.imp hlasts

/-- A store into a container is allowed where the watch allows the write. -/
theorem tame_storeIndex (hm : m.Ready w k) {container key value : Value}
    (hwrite : ∀ p, m.heap.place w.context.limits container key value = .ok p →
      w.write m p value (if m.heap.replacesHolder p container then m.mem
        else max (m.mem + m.heap.growth p value) 0))
    (hcrash : ∀ p, m.heap.place w.context.limits container key value = .ok p →
      m.heap.replacesHolder p container = true → w.crash) :
    Tame w m k (fun _ _ => True) (storeIndex w.context container key value m) := by
  have hgives := m.heap.gives_place w.context.limits container key value
  cases hp : m.heap.place w.context.limits container key value with
  | error f =>
    rw [hp] at hgives
    -- A place that is refused leaves the machine as it is.
    have hresult : storeIndex w.context container key value m = .error (.fault f) m := by
      change EStateM.bind (ofExcept (m.heap.place w.context.limits container key value)) _ m = _
      rw [hp]
      rfl
    rw [hresult]
    exact .refusal hgives
  | ok p =>
    have hlink := link_write hw hm.has (hwrite p hp)
    rw [storeIndex_eq hp]
    split
    · rename_i hholder
      rw [if_pos hholder] at hlink
      exact ⟨.single hlink, fun _ => hcrash p hp hholder⟩
    · rename_i hholder
      rw [if_neg hholder] at hlink
      exact .of_link rfl hlink hm.room trivial

/-- An assignment to an index takes three operands and stores. -/
theorem tame_setIndex (hm : m.Ready w 3)
    (hwrite : ∀ s container key value p, m.stack.toList = s ++ [container, key, value] →
      m.heap.place w.context.limits container key value = .ok p → ∀ m₁ : Machine,
        m₁.heap = m.heap → m₁.frames = m.frames → m₁.mem = m.mem → w.write m₁ p value
          (if m.heap.replacesHolder p container then m.mem else max
            (m.mem + m.heap.growth p value) 0))
    (hcrash : ∀ s container key value p, m.stack.toList = s ++ [container, key, value] →
      m.heap.place w.context.limits container key value = .ok p →
      m.heap.replacesHolder p container = true → w.crash) :
    Tame w m 0 (fun _ _ => True) (perform w.context .setIndex m) := by
  have hP := hw.lasting
  refine .bind_eq hm (tame_pop hP hm) fun value m₁ h₁ hm₁ _ _ => ?_
  refine .bind_eq hm₁ (tame_pop hP hm₁) fun key m₂ h₂ hm₂ _ _ => ?_
  refine .bind_eq hm₂ (tame_pop hP hm₂) fun container m₃ h₃ hm₃ _ _ => ?_
  obtain ⟨s₁, hs₁, rfl⟩ := stack_of_pop h₁
  obtain ⟨s₂, hs₂, rfl⟩ := stack_of_pop h₂
  obtain ⟨s₃, hs₃, rfl⟩ := stack_of_pop h₃
  have hstack : m.stack.toList = s₃.toList ++ [container, key, value] := by
    rw [hs₁, hs₂, hs₃, List.append_assoc, List.append_assoc]
    rfl
  refine .bind hm₃ (tame_storeIndex hw hm₃ (fun p hp => ?_) fun p hp => ?_) fun _ m₄ hm₄ _ _ =>
    tame_advance hP hm₄
  · exact hwrite _ _ _ _ p hstack hp _ rfl rfl rfl
  · exact hcrash _ _ _ _ p hstack hp

/-- A segment stores its arguments in the map that collects them, which is a write like any
other. -/
theorem tame_collectSegment {count : Nat} (hm : m.Ready w (count + 1)) (segment : String)
    (hwrite : ∀ s r args, m.stack.toList = s ++ .map r :: args → args.length = count →
      ∀ m₁ : Machine, m₁.heap = (m.heap.newArray args.toArray).2 → m₁.frames = m.frames →
        m₁.mem = m.mem → w.write m₁ (.entry r segment) (m.heap.newArray args.toArray).1 m.mem) :
    Tame w m 0 (fun _ _ => True) (collectSegment segment count m) := by
  have hP := hw.lasting
  refine .bind_eq hm (tame_popN hP hm) fun args m₁ h₁ hm₁ _ hargs => .get_bind ?_
  obtain ⟨s, hs, hlength, rfl⟩ := stack_of_popN h₁
  have hskip : Tame w { m with stack := s } 0 (fun _ _ => True)
      (.ok () { m with stack := s }) := .ok (hm₁.mono (Nat.zero_le _)) trivial
  cases hback : s.back? with
  | none =>
    exact .fault _ rfl
  | some top =>
    obtain ⟨s', rfl⟩ := Array.back?_eq_some_iff.1 hback
    cases top with
    | nil =>
      -- The first segment of a call makes the map.
      refine .bind hm₁ (tame_newArray hP hm₁ hargs) fun list m₂ hm₂ _ hlist => ?_
      have hentries : Values w ([(segment, list)].map Prod.snd) m₂.heap := fun v hv =>
        List.mem_singleton.1 hv ▸ hlist
      refine .bind hm₂ (tame_newMap hP hm₂ hentries) fun map m₃ hm₃ _ hmap => ?_
      exact tame_replaceTop hP hm₃ hmap
    | map r =>
      -- A later one writes to it: the one place where a container is written without a check.
      refine .bind_eq hm₁ (tame_newArray hP hm₁ hargs) fun list m₂ h₂ hm₂ _ _ => ?_
      cases h₂
      have hstack : m.stack.toList = s'.toList ++ .map r :: args := by
        rw [hs, Array.toList_push, List.append_assoc]
        rfl
      exact .of_link rfl (link_write hw hm₂.has (hwrite _ r args hstack hlength _ rfl rfl rfl))
        (hm₂.mono (Nat.zero_le _)).room trivial
    | _ => exact hskip

/-! ### Instructions -/

theorem tame_raise (hm : m.Ready w 1) (level : Covenant.Level) :
    Tame w m 0 (fun _ _ => True) (raise w.context level m) :=
  .bind hm (tame_pop hw.lasting hm) fun _ _ _ _ _ => .fault _ rfl

/-- Pushing a value that is calculated and going on. -/
theorem tame_pushNext (hm : m.Ready w k) {x : Exec Value}
    (hx : Tame w m k (fun v h => w.values h v) (x m)) :
    Tame w m k (fun _ _ => True) ((do push (← x); advance : Exec Unit) m) :=
  .bind hm hx fun _ _ hm₁ _ hv => .bind hm₁ (tame_push hw.lasting hm₁ hv) fun _ _ hm₂ _ _ =>
    tame_advance hw.lasting hm₂

/-- An assignment takes one operand for each target. -/
theorem tame_assign (hm : m.Ready w (m.takes w.context .assign))
    (hassigns : ∀ a rest v, m.frames = .block a :: rest → .var v ∈ a.targets → w.assigns v) :
    Tame w m 0 (fun _ _ => True) (perform w.context .assign m) := by
  have hP := hw.lasting
  change Tame w m 0 _ ((match m.frames with
    | .block a :: _ => _
    | _ => _ : Exec Unit) m)
  rcases hframes : m.frames with _ | ⟨a | c, rest⟩
  · exact .ok (hm.mono (Nat.zero_le _)) trivial
  · have htakes : m.takes w.context .assign = a.targets.length + 0 := by
      rw [Machine.takes, hframes]
      rfl
    rw [htakes] at hm
    refine .bind hm (tame_modifyTop hP hm fun _ => rfl) fun _ m₁ hm₁ _ _ => ?_
    refine .bind hm₁ (tame_popN hP hm₁) fun values m₂ hm₂ _ hvalues => ?_
    exact .bind hm₂ (tame_assignAll hP hm₂ (hassigns a rest · hframes) hvalues) fun _ m₃ hm₃ _ _ =>
      tame_advance hP hm₃
  · exact .ok (hm.mono (Nat.zero_le _)) trivial

/-- **An instruction that does not end its block makes changes only.** -/
theorem tame_perform {op : Op} (hm : m.Ready w (m.takes w.context op)) (hop : op.leaves? = none)
    (hoffers : ∀ e, w.context.callee? op = some e → w.context.registry.Offers e)
    (hwrites : ∀ h p value mem, op.Writes w.context m h p value mem → ∀ m₁ : Machine,
      m₁.heap = h → m₁.frames = m.frames → m₁.mem = m.mem → w.write m₁ p value mem)
    (hassigns : op = .assign → ∀ a rest v, m.frames = .block a :: rest → .var v ∈ a.targets →
      w.assigns v)
    (hholders : op = .setIndex → m.MeetsHolder w.context → w.crash)
    (hcrash : ∀ id, op.starts? = some id → ¬ w.context.registry.Startable id → w.crash) :
    Tame w m 0 (fun _ _ => True) (perform w.context op m) := by
  have hP := hw.lasting
  cases op with
  | push x =>
    exact tame_pushNext hw (x := pure x.toValue) hm
      (.ok hm (hP.scalar hm.has.nil (by cases x <;> rfl)))
  | var v => exact tame_pushNext hw hm (tame_readVar hm v)
  | extendVar name => exact tame_pushNext hw hm (tame_readExtend hm name)
  | callExtend name =>
    -- what the registry holds under the name decides: only an extension can be called
    refine .bind hm (tame_popCount hP hm) fun count m₁ hm₁ _ hcount => ?_
    rw [hcount] at hm₁
    cases hname : w.context.registry.objects.get? name with
    | none => exact .fault _ rfl
    | some b =>
      cases b with
      | ext e =>
        refine tame_callExtension hw (some count) hm₁ (hoffers e ?_)
        rw [Context.callee?, hname]
      | contract | func | var | extVar => exact .fault _ rfl
  | call f =>
    cases f with
    | func id =>
      refine tame_callFunc hw none ?_ (hcrash id rfl)
      rwa [Nat.zero_add]
    | ext e => exact tame_callExtension hw none hm (hoffers e rfl)
  | callVariadic f =>
    refine .bind hm (tame_popCount hP hm) fun count m₁ hm₁ _ hcount => ?_
    rw [hcount] at hm₁
    cases f with
    | func id =>
      refine tame_callFunc hw (some count) ?_ (hcrash id rfl)
      rwa [Nat.zero_add]
    | ext e => exact tame_callExtension hw (some count) hm₁ (hoffers e rfl)
  | «if» body =>
    refine .bind hm (tame_pop hP hm) fun v m₁ hm₁ _ _ => .get_bind ?_
    refine .bind hm₁ (tame_modifyTop hP hm₁ fun _ => rfl) fun _ m₂ hm₂ _ _ => ?_
    exact .ite (fun _ => tame_enterBlock hw hm₂ .branch (List.forall_mem_nil _) (hcrash body rfl))
      fun _ => tame_advance hP hm₂
  | «else» body =>
    -- the frame says whether a branch was taken
    unfold perform
    refine .get_bind ?_
    rcases m.frames with _ | ⟨a | k, rest⟩
    · exact .ok hm trivial
    · exact .ite (fun _ => tame_advance hP hm) fun _ =>
        tame_enterBlock hw hm .branch (List.forall_mem_nil _) (hcrash body rfl)
    · exact .ok hm trivial
  | «while» body =>
    refine .bind hm (tame_pop hP hm) fun v m₁ hm₁ _ _ => .get_bind (.ite (fun _ => ?_) fun _ => ?_)
    · exact tame_enterBlock hw hm₁ .loop (List.forall_mem_nil _) (hcrash body rfl)
    · exact tame_modifyTop hP hm₁ fun _ => rfl
  | label => exact tame_modifyTop hP hm fun _ => rfl
  | assignVar ts => exact tame_modifyTop hP hm fun _ => rfl
  | assign => exact tame_assign hw hm (hassigns rfl)
  | error level => exact tame_raise hw hm level
  | unwrapArr =>
    exact .bind (Q := fun _ _ => True) hm (.of_counters hP rfl hm rfl rfl rfl rfl rfl trivial)
      fun _ m₁ hm₁ _ _ => tame_advance hP hm₁
  | mapInit entries => exact tame_pushNext hw hm (tame_item hP hm _)
  | arrayInit is => exact tame_pushNext hw hm (tame_item hP hm _)
  | index =>
    refine .bind hm (tame_pop hP hm) fun key m₁ hm₁ _ _ => ?_
    refine .bind hm₁ (tame_pop hP hm₁) fun container m₂ hm₂ _ hcontainer => .get_bind ?_
    exact tame_pushNext hw hm₂ (.ofExcept hm₂ (hP.index key hcontainer))
  | unary op =>
    refine .bind hm (tame_pop hP hm) fun a m₁ hm₁ _ _ => .get_bind ?_
    have hgives : Covenant.Gives (w.values m₁.heap) (Arithmetic.unary m₁.heap op a) :=
      (Arithmetic.gives_unary _ op a).imp fun v hv => hP.scalar hm₁.has.nil hv
    exact tame_pushNext hw hm₁ (.ofExcept hm₁ hgives)
  | binary op =>
    refine .bind hm (tame_pop hP hm) fun b m₁ hm₁ _ _ => ?_
    refine .bind hm₁ (tame_pop hP hm₁) fun a m₂ hm₂ _ _ => .get_bind ?_
    have hgives : Covenant.Gives (w.values m₂.heap) (Arithmetic.binary m₂.heap op a b) :=
      (Arithmetic.gives_binary _ op a b).imp fun v hv => hP.scalar hm₂.has.nil hv
    exact tame_pushNext hw hm₂ (.ofExcept hm₂ hgives)
  | setIndex =>
    exact tame_setIndex hw hm
      (fun s container key value p hs hp => hwrites _ p value _ (.index hs hp))
      fun s container key value p hs hp hholder => hholders rfl ⟨s, container,
        key, value, p, hs, hp, hholder⟩
  | funcName segment count =>
    refine .bind hm (tame_collectSegment hw hm segment fun s r args hs hlength => ?_)
      fun _ m₁ hm₁ _ _ => tame_advance hP hm₁
    subst hlength
    exact hwrites _ _ _ _ (.segment segment hs)
  | «return» | «continue» | «break» => cases hop

/-! ### Steps -/

end

end Exec

/-- How the next step ends the innermost block, if it does. -/
def Exec.leaving? (c : Context) (m : Machine) : Option Status :=
  match m.frames with
  | .block a :: _ =>
    match m.ending with
    | some status => some status
    | none =>
      match (c.block a.block).code[a.pc]? with
      | none => some .normal
      | some i => i.op.leaves?
  | _ => none

/-- Whether the next step ends a section of a contract, and fewer operands are there than when it
began. -/
def Machine.FallsShort (c : Context) (m : Machine) : Prop :=
  ∃ a rest status, m.frames = .block a :: rest ∧ Exec.leaving? c m = some status ∧
    a.role = .section ∧
    m.stack.size < a.base

/-- What is needed of a machine for its next step. -/
structure Machine.Steady (w : Watch) (m : Machine) : Prop where
  has : m.Has w.values w.floor
  room : w.floor ≤ m.stack.size
  base : ∀ a rest status, m.frames = .block a :: rest → Exec.leaving? w.context m = some status →
    w.floor ≤ a.base
  operands : ∀ op, Exec.nextOp? w.context m = some op →
    w.floor ≤ m.stack.size - m.takes w.context op
  writes : ∀ op h p value mem, Exec.nextOp? w.context m = some op →
    op.Writes w.context m h p value mem →
    ∀ m₁ : Machine, m₁.heap = h → m₁.frames = m.frames → m₁.mem = m.mem → w.write m₁ p value mem
  assigns : ∀ a rest v, m.frames = .block a :: rest → Exec.nextOp? w.context m = some .assign →
    .var v ∈ a.targets → w.assigns v
  holders : Exec.nextOp? w.context m = some .setIndex → m.MeetsHolder w.context → w.crash
  starts : ∀ op id, Exec.nextOp? w.context m = some op → op.starts? = some id →
    ¬ w.context.registry.Startable id → w.crash
  sections : ∀ c rest s ss, m.frames = .contract c :: rest → c.sections = s :: ss →
    ¬ w.context.registry.Startable s → w.crash
  ends : m.FallsShort w.context → w.crash

/-- How a step begins: perhaps the innermost block or contract ends, and then the rest of the step
is what happens behind it. -/
inductive Lead (c : Context) (m : Machine) (r : EStateM.Result Stop Machine Unit) : Machine → Prop
  | stay : Lead c m r m
  | drop (a : Activation) (rest : List Frame) (status : Status) (cost : Int) (ticks : Nat) :
      m.frames = .block a :: rest → Exec.leaving? c m = some status →
      r = Exec.behindBlock c a status
      (Exec.dropBlock a rest { m with cost := cost, ticks := ticks }) →
      Lead c m r (Exec.dropBlock a rest { m with cost := cost, ticks := ticks })
  | finish (k : ContractCall) (rest : List Frame) : m.frames = .contract k :: rest →
      k.sections = [] →
      r = Exec.behindContract k ((m.env.get? "result").getD .nil) (Exec.finished k rest m) →
      Lead c m r (Exec.finished k rest m)

/-- What a contract leaves to its caller are values that it has kept and values of the
environment. -/
theorem ContractCall.all_restore {c : ContractCall} {env : Dict Value} {P : Value → Prop}
    (hc : ∀ v ∈ (Frame.contract c).values, P v) (henv : env.All P) : (c.restore env).All P := by
  have hall : ∀ v, c.this = some v ∨ c.parent = some v ∨ (∃ x ∈ c.saved, x.2 = v) → P v := by
    intro v hv
    refine hc v ?_
    simpa only [Frame.values, List.mem_append, Option.mem_toList, List.mem_map, or_assoc] using hv
  have hnode := (henv.filterKeys Name.isSystem).erase (Name.marker c.name)
  refine .insertAll ((hnode.assign (fun v hv => ?_) _).assign (fun v hv => ?_) _) fun x hx => ?_
  · exact hall v (.inl hv)
  · exact hall v (.inr (.inl hv))
  · exact hall x.2 (.inr (.inr ⟨x, hx, rfl⟩))

/-- The values of a machine are those from before the step. -/
theorem Lead.has {c : Context} {r : EStateM.Result Stop Machine Unit}
    {P : Heap → Value → Prop} {n : Nat} (h : Lead c m r m') (hm : m.Has P n) : m'.Has P n := by
  cases h with
  | stay => exact hm
  | drop a rest status cost ticks hframes =>
    exact ⟨hm.nil, hm.stack, fun f hf => hm.frames f (hframes ▸ List.mem_cons_of_mem _ hf), hm.env⟩
  | finish k rest hframes =>
    refine ⟨hm.nil, hm.stack, fun f hf => hm.frames f (hframes ▸ List.mem_cons_of_mem _ hf), ?_⟩
    exact ContractCall.all_restore (hm.frames _ (hframes ▸ List.mem_cons_self ..)) hm.env

namespace Exec

/-- Without a next instruction a step ends the innermost block. -/
theorem step_of_nextOp?_eq_none {c : Context} {a : Activation} {rest : List Frame}
    (hframes : m.frames = .block a :: rest) (hop : nextOp? c m = none) :
    ∃ status, leaving? c m = some status ∧ step c m = leave c status m := by
  rw [leaving?, hframes]
  rw [nextOp?, hframes] at hop
  cases hending : m.ending with
  | some status => exact ⟨status, rfl, step_of_ending hframes hending⟩
  | none =>
    rw [hending] at hop
    have hcode : (c.block a.block).code[a.pc]? = none := Option.map_eq_none_iff.1 hop
    simp only [hcode]
    exact ⟨.normal, rfl, step_of_end hframes hending hcode⟩

section

variable (hw : w.Holds)
include hw

/-- Ending the innermost block, once the instruction that does so is paid for. -/
theorem tame_leave (hm : m.Steady w) {a : Activation} {rest : List Frame}
    (hframes : m.frames = .block a :: rest) {status : Status}
    (hleaving : leaving? w.context m = some status) (cost : Int) (ticks : Nat) : ∃ m₁,
      Lead w.context m (leave w.context status { m with cost := cost, ticks := ticks }) m₁ ∧
        Tame w m₁ 0 (fun _ _ => True)
          (leave w.context status { m with cost := cost, ticks := ticks }) := by
  have heq := leave_eq w.context status (m := { m with cost := cost, ticks := ticks }) hframes
  have hlead := Lead.drop a rest status cost ticks hframes hleaving heq
  refine ⟨_, hlead, ?_⟩
  rw [heq]
  exact tame_behindBlock hw ⟨hlead.has hm.has, hm.room⟩
    (hm.base a rest status hframes hleaving) status
    fun hrole hsize => hm.ends ⟨a, rest, status, hframes, hleaving, hrole, hsize⟩

/-- Going on with a contract. -/
theorem tame_resume (hm : m.Steady w) {k : ContractCall} {rest : List Frame}
    (hframes : m.frames = .contract k :: rest) :
    ∃ m₁, Lead w.context m (resume w.context k rest m) m₁ ∧
      Tame w m₁ 0 (fun _ _ => True) (resume w.context k rest m) := by
  have hready : m.Ready w 0 := ⟨hm.has, hm.room⟩
  cases hsections : k.sections with
  | cons s ss =>
    refine ⟨m, .stay, ?_⟩
    have hnext : Tame w m 0 (fun _ _ => True)
        (.ok () { m with frames := .contract { k with sections := ss } :: rest }) := by
      refine .of_counters hw.lasting rfl hready rfl ?_ rfl rfl rfl trivial
      rw [hframes]
      rfl
    rw [resume_cons _ _ _ hsections]
    refine Tame.after hready hnext fun hm₁ => ?_
    exact tame_start hw hm₁ .section (List.forall_mem_nil _)
      (hm.sections k rest s ss hframes hsections)
  | nil =>
    have heq := resume_nil w.context rest m hsections
    -- The contract's frame is taken off and the environment restored before the value is delivered.
    have hlead : Lead w.context m (resume w.context k rest m) _ :=
      .finish k rest hframes hsections heq
    refine ⟨_, hlead, ?_⟩
    rw [heq]
    refine tame_behindContract hw ⟨hlead.has hm.has, hm.room⟩ k ?_
    cases hresult : m.env.get? "result" with
    | none => exact (hlead.has hm.has).nil
    | some v => exact hm.has.env _ v hresult

/-- An instruction is paid for, perhaps ends its block, and makes changes. -/
theorem tame_instruction (hm : m.Steady w) {op : Op} (hop : nextOp? w.context m = some op) :
    ∃ m₁, Lead w.context m ((do tick w.context; perform w.context op : Exec Unit) m) m₁ ∧
      Tame w m₁ 0 (fun _ _ => True) ((do tick w.context; perform w.context op : Exec Unit) m) := by
  obtain ⟨a, rest, i, hframes, hending, hcode, hi⟩ := nextOp?_eq_some hop
  have hready : m.Ready w 0 := ⟨hm.has, hm.room⟩
  have htick := tame_tick hw.lasting hready
  cases hr : tick w.context m with
  | error e m₁ =>
    rw [hr] at htick
    rw [bind_of_error hr]
    exact ⟨m, .stay, htick⟩
  | ok u m₁ =>
    rw [hr] at htick
    obtain rfl := machine_of_tick hr
    rw [bind_of_ok hr]
    -- An instruction that ends the innermost block is followed from the machine without that block.
    cases hleaves : op.leaves? with
    | some status =>
      have hleaving : leaving? w.context m = some status := by
        rw [leaving?, hframes]
        simp only [hending, hcode, hi, hleaves]
      have hleave := tame_leave hw hm hframes hleaving (m.cost - 1) (m.ticks + 1)
      cases op <;> cases hleaves <;> exact hleave
    | none =>
      refine ⟨m, .stay, Tame.after hready htick fun hm₁ => ?_⟩
      refine tame_perform hw ⟨hm₁.has, hm.operands op hop⟩ hleaves
        (fun e he => offers_of_callee hop he) (fun h p value mem hwrites => ?_)
        (fun hassign a rest v hframes => hm.assigns a rest v hframes (hassign ▸ hop))
        (fun hset => ?_)
        fun id hid => hm.starts op id hop hid
      · exact hm.writes op h p value mem hop (by cases hwrites <;> constructor <;> assumption)
      · exact hm.holders (hset ▸ hop)

/-- **A step perhaps ends the innermost block or contract, and then makes changes only.** -/
theorem step_tame (hm : m.Steady w) : ∃ m₁, Lead w.context m (step w.context m) m₁ ∧
    Tame w m₁ 0 (fun _ _ => True) (step w.context m) := by
  rcases hframes : m.frames with _ | ⟨a | k, rest⟩
  · refine ⟨m, .stay, ?_⟩
    rw [step_of_nil hframes]
    exact .ok ⟨hm.has, hm.room⟩ trivial
  · cases hop : nextOp? w.context m with
    | some op =>
      rw [(step_of_nextOp? hop).1]
      exact tame_instruction hw hm hop
    | none =>
      obtain ⟨status, hleaving, hstep⟩ := step_of_nextOp?_eq_none hframes hop
      rw [hstep]
      exact tame_leave hw hm hframes hleaving m.cost m.ticks
  · rw [step_of_contract hframes]
    exact tame_resume hw hm hframes

end

end Exec

/-- The values that a run is given. -/
def Launch.values : Launch → List Value
  | func _ params => params
  | contract _ _ params => params.values

/-- **The start of a run makes changes only.** -/
theorem Launch.start_tame (hw : w.Holds) (l : Launch) (hm : m.Ready w k)
    (hl : ∀ v ∈ l.values, w.values m.heap v)
    (hcrash : ∀ id params, l = func id params → ¬ w.context.registry.Startable id → w.crash) :
    Exec.Tame w m k (fun _ _ => True) (l.start w.context m) := by
  cases l with
  | func id params => exact Exec.tame_start hw hm .entry hl (hcrash id params rfl)
  | contract state name params => exact Exec.tame_callContract hw hm none hl

end Covenant
