import Covenant.Proofs.Machine.Effects

/-!
# Moves of a run

What a step of a run can do to the environment (`Move`): it keeps the system variables and the
active contracts, it starts the contract that the step asks for, or it ends the innermost one.
`Request` is what a step asks for, and `Exec.stepRequest` finds it without carrying it out, by
taking the arguments as the call itself does.

The main statement is `Exec.step_move`. It is about clean code and about host functions that leave
the environment alone.
-/

namespace Covenant

open Covenant.Computation

/-! ### Quiet host functions -/

/-- Whether a host function leaves the environment alone. -/
def Extension.Quiet (e : Extension) : Prop :=
  ∀ run, e.behaviour = .host run → ∀ args host, (run args host).2.env = host.env

/-- Whether no program of a registry can reach a host function that writes the environment. -/
structure Registry.Quiet (r : Registry) : Prop where
  objects : ∀ x e, r.objects.get? x = some (.ext e) → e.Quiet
  code : ∀ id, ∀ i ∈ (r.block id).code, ∀ e, i.op.extension? = some e → e.Quiet

/-- Whether an extension is a way to call contracts. -/
def Extension.callsContract (e : Extension) : Bool :=
  match e.behaviour with
  | .host _ => false
  | _ => true

theorem Extension.behaviour_ne_host {e : Extension} (h : e.callsContract = true)
    (run : List Value → Host → Reply × Host) : e.behaviour ≠ .host run := by
  intro hrun
  rw [callsContract, hrun] at h
  cases h

/-- Whether the only extensions of a registry are the ways to call contracts. -/
def Registry.offersContractsOnly (r : Registry) : Bool := r.offersOnly Extension.callsContract

theorem Registry.callsContract_of_offers {r : Registry} (h : r.offersContractsOnly = true)
    {e : Extension} (he : r.Offers e) : e.callsContract = true :=
  offersOnly_sound h he

/-- A registry whose only extensions are the ways to call contracts is quiet. -/
theorem Registry.Quiet.of_offersContractsOnly {r : Registry} (h : r.offersContractsOnly = true) :
    r.Quiet := by
  have hquiet : ∀ e : Extension, e.callsContract = true → e.Quiet :=
    fun e he run hrun => absurd hrun (e.behaviour_ne_host he run)
  exact ⟨fun x e hx => hquiet e (callsContract_of_offers h (.inl ⟨x, hx⟩)), fun id i hi e he =>
    hquiet e (callsContract_of_offers h (.inr ⟨id, i, hi, he⟩))⟩

namespace Exec

/-- The contract call that a call of an extension is. -/
def extensionRequest (c : Context) (e : Extension) (count : Option Nat) :
    Exec (Option Request) := do
  let args ← extensionArgs c e count
  return e.behaviour.request? (← get).heap args

/-- The contract call that an instruction is. -/
def request (c : Context) : Op → Exec (Option Request)
  | .callExtend name => do
    let count ← popCount
    match c.registry.objects.get? name with
    | some (.ext e) => extensionRequest c e (some count)
    | _ => return none
  | .call (.ext e) => extensionRequest c e none
  | .callVariadic (.ext e) => do
    let count ← popCount
    extensionRequest c e (some count)
  | _ => return none

/-- The contract call that the next step is. -/
def stepRequest (c : Context) : Exec (Option Request) := do
  match (← get).frames with
  | .block a :: _ =>
    match (← get).ending with
    | some _ => return none
    | none =>
      match (c.block a.block).code[a.pc]? with
      | none => return none
      | some i => do
        tick c
        request c i.op
  | _ => return none

/-- What is asked for; a step that fails before asks for nothing. -/
def asked (x : Exec (Option Request)) (m : Machine) : Option Request :=
  match x m with
  | .ok q _ => q
  | .error _ _ => none

end Exec

/-! ### Moves -/

/-- Starting a contract that was asked for. -/
structure Starts (q : Request) (k : ContractCall) (m m' : Machine) : Prop where
  name : k.name = q.name
  calls : m'.calls = k :: m.calls
  /-- A system variable is bound as before, unless the call binds it itself or is given it. -/
  env : ∀ key, Name.isSystem key = true → ¬ Name.IsOwn k.name key →
    m'.env.get? key = (q.params.get? key).or (m.env.get? key)
  restores : ∀ key, (Name.isSystem key = true → q.params.get? key = none) →
    (k.restore m'.env).get? key = m.env.get? key

/-- Ending the innermost contract. -/
structure Ends (k : ContractCall) (m m' : Machine) : Prop where
  tidy : k.Tidy
  calls : m.calls = k :: m'.calls
  env : ∀ key, m'.env.get? key = (k.restore m.env).get? key

/-- What a step can do to the environment when it asks for something. A contract is started only by
a step that succeeds. -/
inductive Move (q : Option Request) (m : Machine) (r : EStateM.Result Stop Machine Unit) : Prop
  | keeps : Kept (fun _ => True) m (Exec.left r) → Move q m r
  /-- It writes variables that are no system variables, which keep their kinds of values. -/
  | writes : q = none → Kept (fun key => Name.isSystem key = true) m (Exec.left r) →
      (∀ key, KindKept key m.env (Exec.left r).env) → Move q m r
  | starts (q' : Request) (k : ContractCall) (m' : Machine) : q = some q' → r = .ok () m' →
      Starts q' k m m' → m'.Clean → Move q m r
  | ends (k : ContractCall) : q = none → Ends k m (Exec.left r) → (Exec.left r).Clean → Move q m r

theorem Move.clean {q : Option Request} {m : Machine} {r : EStateM.Result Stop Machine Unit}
    (h : Move q m r) (hm : m.Clean) : (Exec.left r).Clean := by
  cases h with
  | keeps hkept => exact hkept.clean hm
  | writes _ hkept => exact hkept.clean hm
  | starts q' k m' _ hr _ hclean => exact hr ▸ hclean
  | ends k _ _ hclean => exact hclean

/-- A move may come behind what keeps the environment and the contracts. -/
theorem Kept.move {q : Option Request} {m m₁ : Machine} {r : EStateM.Result Stop Machine Unit}
    (h : Kept (fun _ => True) m m₁) (hmove : Move q m₁ r) : Move q m r := by
  cases hmove with
  | keeps hkept => exact .keeps (h.trans hkept)
  | writes hq hkept hkinds =>
    refine .writes hq ((h.mono fun _ _ => trivial).trans hkept) fun key => ?_
    exact (KindKept.of_eq (h.env key trivial)).trans (hkinds key)
  | starts q' k m' hq hr hstarts hclean =>
    refine .starts q' k m' hq hr ⟨hstarts.name, ?_, fun key hsys hown => ?_,
      fun key hkey => ?_⟩ hclean
    · rw [hstarts.calls, h.calls]
    · rw [hstarts.env key hsys hown, h.env key trivial]
    · rw [hstarts.restores key hkey, h.env key trivial]
  | ends k hq hends hclean =>
    refine .ends k hq ⟨hends.tidy, h.calls ▸ hends.calls, fun key => ?_⟩ hclean
    rw [hends.env key]
    exact k.get?_restore_congr fun _ => h.env key trivial

namespace Exec

variable {α : Type} {c : Context}

/-- What keeps the environment comes before a move. -/
theorem Keeps.move_bind {z : Exec α} {x : α → Exec Unit} {q : Option Request} {m : Machine}
    (hz : Keeps (fun _ => True) z)
    (h : ∀ a m₁, z m = .ok a m₁ → Kept (fun _ => True) m m₁ → Move q m₁ (x a m₁)) :
    Move q m ((z >>= x) m) := by
  have hkept := hz m
  change Move q m (EStateM.bind z x m)
  rw [EStateM.bind]
  cases hr : z m with
  | ok a m₁ =>
    rw [hr] at hkept
    exact hkept.move (h a m₁ hr hkept)
  | error e m₁ =>
    rw [hr] at hkept
    exact .keeps hkept

/-- Whether a step moves the machine according to what it asks for. -/
def Moves (y : Exec (Option Request)) (x : Exec Unit) : Prop :=
  ∀ m, m.Clean → Move (asked y m) m (x m)

namespace Moves

variable {x : Exec Unit} {y : Exec (Option Request)}

theorem of_keeps (h : Keeps (fun _ => True) x) : Moves y x :=
  fun m _ => .keeps (h m)

theorem ite {p : Prop} [Decidable p] {x' : Exec Unit} (hx : Moves y x) (hx' : Moves y x') :
    Moves y (if p then x else x') := by
  split
  · exact hx
  · exact hx'

/-- What is done on the way to a request leaves the environment alone. -/
theorem bind {z : Exec α} {x : α → Exec Unit} {y : α → Exec (Option Request)}
    (hz : Keeps (fun _ => True) z) (h : ∀ a, Moves (y a) (x a)) :
    Moves (z >>= y) (z >>= x) := by
  intro m hm
  refine hz.move_bind fun a m₁ hr hkept => ?_
  have hasked : asked (z >>= y) m = asked (y a) m₁ := by
    change (match EStateM.bind z y m with | .ok q _ => q | .error _ _ => none) = _
    rw [EStateM.bind, hr]
    rfl
  rw [hasked]
  exact h a m₁ (hkept.clean hm)

end Moves

/-! ### Contract calls -/

/-- Fields that are left out are no system variables. -/
theorem get?_addFields {fs : List Field} (hfs : ∀ f ∈ fs, Name.isSystem f.name = false)
    {params params' : Dict Value} {m m' : Machine} (h : addFields fs params m = .ok params' m')
    {key : String} (hkey : Name.isSystem key = true) : params'.get? key = params.get? key := by
  induction fs generalizing params m with
  | nil =>
    cases h
    rfl
  | cons f fs ih =>
    obtain ⟨hf, hrest⟩ := List.forall_mem_cons.1 hfs
    unfold addFields at h
    split at h
    · exact ih hrest h
    · split at h
      · cases h
      · change EStateM.bind (defaults [f.ty]) _ m = _ at h
        unfold EStateM.bind at h
        split at h
        · dsimp only at h
          split at h
          · rw [ih hrest h, Dict.get?_insert, if_neg]
            rintro rfl
            rw [hkey] at hf
            cases hf
          · exact ih hrest h
        · cases h

/-- Starting a contract that is not active yet is a move. -/
theorem started_move (hclean : c.registry.arena.Clean) {id : BlockId} {info : ContractInfo}
    (hinfo : (c.block id).contract? = some info) {q : Request} {params : Dict Value}
    {m₀ m₁ m : Machine} (hadd : addFields (info.data.getD []) q.params m₀ = .ok params m₁)
    (hm : m.Clean) (hfresh : m.env.get? (Name.marker q.name) = none) (via : Option Extension) :
    Move (some q) m (.ok () (started c id q.name via params m)) := by
  have hfields : ∀ f ∈ info.data.getD [], Name.isSystem f.name = false := by
    intro f hf
    refine (hclean id).fields f.name ?_
    have hinfo' : (c.registry.arena.block id).contract? = some info := hinfo
    rw [Block.fieldNames, hinfo']
    exact List.mem_map_of_mem hf
  have hgiven : ∀ key, Name.isSystem key = true → params.get? key = q.params.get? key :=
    fun key hkey => get?_addFields hfields hadd hkey
  refine .starts q _ _ rfl rfl ⟨rfl, rfl, fun key hsys hown => ?_, fun key hkey => ?_⟩ ?_
  · change (contractEnv m.env params q.name).get? key = _
    rw [get?_contractEnv, hgiven key hsys, if_neg fun h => hown (.inr (.inr h.symm)),
      if_neg fun h => hown (.inr (.inl h.symm)), if_neg fun h => hown (.inl h.symm), if_pos hsys]
  · exact ContractCall.restore_contractEnv ⟨rfl, rfl, rfl, hfresh⟩ params fun hsys =>
      (hgiven key hsys).trans (hkey hsys)
  · refine List.forall_mem_cons.2 ⟨fun p hp => ?_, hm⟩
    simpa using (List.mem_filter.1 hp).2

/-- **Calling a contract by name is a move.** -/
theorem moves_callContract (hclean : c.registry.arena.Clean) (name names : String)
    (values : List Value) (via : Option Extension) :
    Moves (pure (some ⟨name, Text.fields names, values⟩))
      (callContract c name names values via) := by
  rw [callContract_eq]
  intro m hm
  have hplain := @plain_contractParams _ id c ⟨name, Text.fields names, values⟩ (sees_id _)
  refine hplain.keeps.move_bind fun p m₁ hparams hkept => ?_
  obtain ⟨-, hfresh, info, hinfo, hadd⟩ := contractParams_ok hparams
  refine (keeps_pay c.limits (contractCharges c name)).move_bind fun _ m₂ _ hpaid => ?_
  have hkept' := hkept.trans hpaid
  exact started_move hclean hinfo hadd (hkept'.clean hm) ((hkept'.env _ trivial).trans hfresh) via

/-! ### Extensions -/

/-- A host function that is quiet keeps the environment. -/
theorem keeps_callHost {e : Extension} {run : List Value → Host → Reply × Host}
    (hquiet : ∀ args host, (run args host).2.env = host.env) (args : List Value)
    {P : String → Prop} : Keeps P (callHost e run args) := by
  refine .bind (.modifyGet fun m => .of_eq (hquiet args _) rfl) fun reply => ?_
  cases reply with
  | values vs => exact .bind (keeps_deliver e vs) fun _ => plain_advance.keeps
  | fault f => exact .fail f
  | crash => exact .throw _

/-- An extension that calls a contract moves as the call does, and any other one keeps the
environment. -/
theorem moves_behave (hclean : c.registry.arena.Clean) {e : Extension} (hquiet : e.Quiet)
    (args : List Value) : Moves (do return e.behaviour.request? (← get).heap args)
      (behave c e args) := by
  unfold behave
  split
  · rename_i run hrun
    exact .of_keeps (keeps_callHost (hquiet run hrun) args)
  · rename_i hbehaviour
    intro m hm
    rw [hbehaviour]
    exact moves_callContract hclean _ _ _ _ m hm
  · rename_i hbehaviour
    intro m hm
    rw [hbehaviour]
    change Move (Behaviour.request? m.heap args .callContract) m
      (EStateM.bind (ofExcept ((args.getD 0 .nil).toInt m.heap)) _ m)
    rw [Behaviour.request?]
    cases hstate : (args.getD 0 .nil).toInt m.heap with
    | error f => exact .keeps (.refl m)
    | ok state => exact moves_callContract hclean _ _ _ _ m hm

theorem keeps_extensionArgs {P : String → Prop} (c : Context) (e : Extension)
    (count : Option Nat) : Keeps P (extensionArgs c e count) := by
  rw [extensionArgs_eq]
  exact .bind (plain_extensionParams (fun key _ => sees_id key) count).keeps
    fun _ => .bind (keeps_pay _ _) fun _ => .bind (plain_checkDepth c).keeps fun _ => .pure _

theorem moves_callExtension (hclean : c.registry.arena.Clean) {e : Extension} (hquiet : e.Quiet)
    (count : Option Nat) : Moves (extensionRequest c e count) (callExtension c e count) := by
  rw [callExtension_eq]
  exact .bind (keeps_extensionArgs c e count) fun args => moves_behave hclean hquiet args

/-! ### Instructions -/

/-- Assigning to an environment variable keeps the others. -/
theorem keeps_assignExtend {name : String} (hname : Name.isSystem name = false) (x : Value) :
    Keeps (fun key => Name.isSystem key = true) (assignExtend name x) := by
  have hset : Keeps (fun key => Name.isSystem key = true)
      (modify fun m => { m with env := m.env.insert name x } : Exec PUnit) := by
    refine .modify fun m => ⟨fun key hkey => ?_, rfl, fun hm => hm⟩
    rw [Dict.get?_insert, if_neg]
    rintro rfl
    rw [hname] at hkey
    cases hkey
  refine .bind .get fun m => ?_
  split
  · exact .ite (.fail_bind _) hset
  · exact hset

/-- Assignments to free targets keep the system variables. -/
theorem keeps_assignAll (c : Context) {ts : List Target} (hts : ∀ t ∈ ts, t.IsFree)
    (xs : List Value) : Keeps (fun key => Name.isSystem key = true) (assignAll c ts xs) := by
  induction ts generalizing xs with
  | nil => exact .pure _
  | cons t ts ih =>
    obtain ⟨ht, hrest⟩ := List.forall_mem_cons.1 hts
    cases xs with
    | nil => exact .pure _
    | cons x xs =>
      refine .bind ?_ fun _ => ih hrest xs
      cases t with
      | var v => exact (plain_assignVar c v x).keeps
      | extend name => exact keeps_assignExtend ht x

/-- Whether a step keeps the kinds of all values that are bound, also where it fails. -/
def KeepsKinds (x : Exec α) : Prop := ∀ m key, KindKept key m.env (left (x m)).env

theorem Keeps.kinds {x : Exec α} (h : Keeps (fun _ => True) x) : KeepsKinds x :=
  fun m key => .of_eq ((h m).env key trivial)

/-- What both parts keep of the kinds is kept by the two in a row. -/
theorem KeepsKinds.bind {β : Type} {x : Exec α} {k : α → Exec β} (hx : KeepsKinds x)
    (hk : ∀ a, KeepsKinds (k a)) : KeepsKinds (x >>= k) := by
  intro m key
  have hleft := hx m key
  cases hr : x m with
  | ok a m' =>
    rw [hr] at hleft
    rw [bind_of_ok hr]
    exact hleft.trans (hk a m' key)
  | error e m' =>
    rw [hr] at hleft
    rw [bind_of_error hr]
    exact hleft

/-- An environment variable is assigned only a value of the kind it has. -/
theorem keepsKinds_assignExtend (name : String) (x : Value) : KeepsKinds (assignExtend name x) := by
  intro m key
  cases hold : m.env.get? name with
  | none =>
    rw [assignExtend_of_none hold]
    apply KindKept.insert
    intro old h
    rw [hold] at h
    cases h
  | some old =>
    rw [assignExtend_of_some hold]
    split
    · exact .of_eq rfl
    · rename_i hkind
      apply KindKept.insert
      intro old' h
      obtain rfl := Option.some.inj (hold.symm.trans h)
      simpa [or_iff_not_imp_left] using hkind

/-- A bound name is only assigned values of its kind. -/
theorem keepsKinds_assignAll (c : Context) (ts : List Target) (xs : List Value) :
    KeepsKinds (assignAll c ts xs) := by
  induction ts generalizing xs with
  | nil => exact (Keeps.pure _).kinds
  | cons t ts ih =>
    cases xs with
    | nil => exact (Keeps.pure _).kinds
    | cons x xs =>
      refine .bind ?_ fun _ => ih xs
      cases t with
      | var v => exact (plain_assignVar c v x).keeps.kinds
      | extend name => exact keepsKinds_assignExtend name x

/-- Assigning goes to the targets that were set before. -/
theorem moves_assign (c : Context) : Moves (request c .assign) (perform c .assign) := by
  intro m hm
  change Move none m ((match m.frames with
    | .block a :: _ => _
    | _ => _ : Exec Unit) m)
  cases hframes : m.frames with
  | nil => exact .keeps (.refl m)
  | cons f rest =>
    cases f with
    | contract k => exact .keeps (.refl m)
    | block a =>
      -- The targets are taken off first, so what follows does not depend on them.
      have ha : ∀ t ∈ a.targets, t.IsFree := hm (.block a) (hframes ▸ List.mem_cons_self ..)
      have hassign : Keeps (fun key => Name.isSystem key = true) (do
          modifyTop fun a => { a with targets := [] }
          let values ← popN a.targets.length
          assignAll c a.targets values
          advance) :=
        .bind (keeps_modifyTop fun _ _ t ht => absurd ht List.not_mem_nil) fun _ =>
          .bind (plain_popN _).keeps fun values => .bind (keeps_assignAll c ha values) fun _ =>
            plain_advance.keeps
      have hkinds : KeepsKinds (do
          modifyTop fun a => { a with targets := [] }
          let values ← popN a.targets.length
          assignAll c a.targets values
          advance) :=
        .bind (keeps_modifyTop fun _ _ t ht => absurd ht List.not_mem_nil).kinds fun _ =>
          .bind (plain_popN _).keeps.kinds fun values =>
            .bind (keepsKinds_assignAll c a.targets values) fun _ => plain_advance.keeps.kinds
      exact .writes rfl (hassign m) (hkinds m)

/-- Every instruction of clean code is a move. -/
theorem moves_perform (hclean : c.registry.arena.Clean) (hquiet : c.registry.Quiet) {id : BlockId}
    {i : Instr} (hi : i ∈ (c.block id).code) : Moves (request c i.op) (perform c i.op) := by
  have hcode : ∀ e, i.op.extension? = some e → e.Quiet := hquiet.code id i hi
  have htargets : ∀ t ∈ i.op.targets, t.IsFree := fun t ht =>
    (hclean id).targets t (Block.mem_targets.2 ⟨i, hi, ht⟩)
  -- Only calls of extensions and assignments change bindings; the rest keeps them.
  cases hop : i.op with
  | callExtend name =>
    refine .bind plain_popCount.keeps fun count => ?_
    cases hname : c.registry.objects.get? name with
    | none => exact .of_keeps (.fail _)
    | some b =>
      cases b with
      | ext e => exact moves_callExtension hclean (hquiet.objects name e hname) _
      | _ => exact .of_keeps (.fail _)
  | call f =>
    cases f with
    | func id => exact .of_keeps (keeps_callFunc c id none)
    | ext e => exact moves_callExtension hclean (hcode e (by rw [hop]; rfl)) none
  | callVariadic f =>
    cases f with
    | func id => exact .of_keeps (.bind plain_popCount.keeps fun n => keeps_callFunc c id (some n))
    | ext e =>
      exact .bind plain_popCount.keeps fun _ =>
        moves_callExtension hclean (hcode e (by rw [hop]; rfl)) _
  | «return» | «continue» | «break» => exact .of_keeps (keeps_leave c _)
  | «if» body =>
    refine .of_keeps (.bind plain_pop.keeps fun v => .bind .get fun m => .bind ?_ fun _ =>
      .ite ?_ ?_)
    · exact keeps_modifyTop fun _ h => h
    · exact keeps_enterBlock c body [] .branch
    · exact plain_advance.keeps
  | «else» body =>
    refine .of_keeps (.bind .get fun m => ?_)
    split
    · exact .ite plain_advance.keeps (keeps_enterBlock c body [] .branch)
    · exact .pure _
  | «while» body =>
    exact .of_keeps (.bind plain_pop.keeps fun v => .bind .get fun m =>
      .ite (keeps_enterBlock c body [] .loop) plain_leaveLoop.keeps)
  | assignVar targets =>
    rw [hop] at htargets
    exact .of_keeps (keeps_modifyTop fun _ _ => htargets)
  | assign => exact moves_assign c
  | push | var | extendVar | label | error | funcName | unwrapArr | mapInit | arrayInit | index
  | setIndex | unary | binary =>
    exact .of_keeps (plain_perform c rfl fun name _ => sees_id name).keeps

/-! ### Steps -/

theorem keeps_behindContract {P : String → Prop} (k : ContractCall) (result : Value) :
    Keeps P (behindContract k result) := by
  unfold behindContract
  split
  · exact (plain_push _).keeps
  · exact .bind (keeps_deliver _ _) fun _ => plain_advance.keeps

/-- Going on with a contract starts its next section, or ends it. -/
theorem resume_move (c : Context) {k : ContractCall} {rest : List Frame} {m : Machine}
    (hm : m.Clean) (hframes : m.frames = .contract k :: rest) :
    Move none m (resume c k rest m) := by
  have hall : ∀ f ∈ Frame.contract k :: rest, f.Clean := hframes ▸ hm
  obtain ⟨hk, hrest⟩ := List.forall_mem_cons.1 hall
  cases hsections : k.sections with
  | cons s sections =>
    have hnext : Kept (fun _ => True) m
        { m with frames := .contract { k with sections := sections } :: rest } := by
      refine ⟨fun _ _ => rfl, ?_, fun _ => List.forall_mem_cons.2 ⟨hk, hrest⟩⟩
      rw [Machine.calls, Machine.calls, hframes]
      rfl
    rw [resume_cons c rest m hsections]
    exact .keeps (hnext.trans (keeps_start c s [] .section _))
  | nil =>
    have hkept := keeps_behindContract (P := fun _ => True) k ((m.env.get? "result").getD .nil)
      (finished k rest m)
    rw [resume_nil c rest m hsections]
    refine .ends { k with sections := [] } rfl ⟨hk, ?_, fun key => hkept.env key trivial⟩
      (hkept.clean hrest)
    rw [Machine.calls, hframes]
    exact congrArg (_ :: ·) hkept.calls.symm

/-- **Every step is a move.** -/
theorem step_move (hclean : c.registry.arena.Clean) (hquiet : c.registry.Quiet) :
    Moves (stepRequest c) (step c) := by
  intro m hm
  cases ahead c m with
  | done _ hstep =>
    rw [hstep]
    exact .keeps (.refl m)
  | resumes k rest hframes hstep =>
    -- A contract that is resumed asks for nothing.
    have hasked : asked (stepRequest c) m = none := by
      unfold asked stepRequest
      rw [get_bind_apply, hframes]
      rfl
    rw [hstep, hasked]
    exact resume_move c hm hframes
  | leaves a rest status _ _ hstep =>
    rw [hstep]
    exact .keeps (keeps_leave c status m)
  | runs a rest i hframes hending hcode hstep =>
    have hasked : asked (stepRequest c) m = asked (tick c >>= fun _ => request c i.op) m := by
      unfold asked stepRequest
      rw [get_bind_apply, hframes]
      dsimp only
      rw [get_bind_apply, hending, hcode]
    rw [hstep, hasked]
    exact Moves.bind (keeps_tick c) (fun _ =>
      moves_perform hclean hquiet (Array.mem_of_getElem? hcode)) m hm

end Exec

end Covenant
