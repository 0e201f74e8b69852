import Covenant.Proofs.Machine.Charges
import Covenant.Proofs.Machine.ContractCalls
import Covenant.Proofs.Machine.Reentry
import Covenant.Proofs.Registry.Linked
import Covenant.Proofs.Registry.StableNumbers
import Mathlib.Data.List.Basic

/-!
# Values for the fields of a contract

A map of values for the fields of a contract is written out as one list of names between commas and
a list of values, and put together again where the contract is called (`Request.params_inState`). No
value gets lost and no name changes as long as the names could stand in such a list
(`Text.IsEntry`).

Fields that the map leaves out take the default of their type if they are optional (`addFields_eq`).
What counts is the name: a field that repeats the name of an earlier one takes what that one was
given, even if it is not optional itself (`repeated_field_takes_default`).

The main statement is `callContractIn_binds`: which calls fail for want of a field, and in which
environment the others start the first section of the contract.
-/

namespace Covenant

open Covenant.Computation

/-! ### Lists of names -/

namespace Text

/-- Whether a text stands for itself in a list of names. -/
def IsEntry (s : String) : Prop := s ≠ "" ∧ ',' ∉ s.toList ∧ trim s = s

theorem toList_trimChars {s : String} (h : trim s = s) : trimChars s.toList = s.toList := by
  have hchars := congrArg String.toList h
  rwa [trim, String.toList_ofList] at hchars

/-- **A list of names is read as it was written.** -/
theorem fields_intercalate {names : List String} (h : ∀ s ∈ names, IsEntry s) :
    fields (",".intercalate names) = names := by
  have hsplit : ((",".intercalate names).toList.splitOn ',').map trimChars
      = if names = [] then [[]] else names.map String.toList := by
    rw [String.toList_intercalate]
    split
    · rename_i hnil
      rw [hnil]
      rfl
    · rename_i hnames
      change (List.splitOn ',' ([','].intercalate (names.map String.toList))).map trimChars = _
      rw [List.splitOn_intercalate ',' (by simpa using fun s hs => (h s hs).2.1)
        (by simpa using hnames), List.map_map]
      exact List.map_congr_left fun s hs => toList_trimChars (h s hs).2.2
  rw [fields, hsplit]
  split
  · rename_i hnil
    rw [hnil]
    rfl
  · rw [List.filterMap_map]
    refine (List.filterMap_congr fun s hs => ?_).trans List.filterMap_some
    have hne : s.toList ≠ [] := fun hnil => (h s hs).1 (String.toList_eq_nil_iff.1 hnil)
    simp [hne]

end Text

/-- A dictionary is made of its entries. -/
theorem Dict.ofList_toList {α : Type} (d : Dict α) : ofList d.toList = d := by
  apply ext_toList
  rw [ofList, toList_insertAll d.pairwise_toList]
  · rfl
  · intro p _
    rw [contains_eq, get?_empty]
    rfl

theorem Dict.ofList_zip {α : Type} (d : Dict α) : ofList (d.keys.zip d.values) = d := by
  have hzip : d.keys.zip d.values = d.toList := (List.zip_of_prod rfl rfl).symm
  rw [hzip, ofList_toList]

/-- **A map of fields is called with as it is.** -/
theorem Request.params_inState (state : UInt32) (name : String) {params : Dict Value}
    (h : ∀ key ∈ params.keys, Text.IsEntry key) :
    (Request.inState state name params).names = params.keys ∧
      (Request.inState state name params).params = params := by
  have hnames : (Request.inState state name params).names = params.keys := Text.fields_intercalate h
  refine ⟨hnames, ?_⟩
  rw [Request.params, hnames]
  exact params.ofList_zip

/-! ### Fields that are left out -/

/-- The fields that no name is given for, each by its first declaration. -/
def leftOut (given : String → Bool) : List Field → List Field
  | [] => []
  | f :: fs =>
    if given f.name then leftOut given fs
    else f :: leftOut (fun name => given name || f.name == name) fs

/-- A field is left out if its name is neither given nor that of an earlier field. -/
theorem mem_leftOut {given : String → Bool} {fs : List Field} {f : Field} :
    f ∈ leftOut given fs ↔ given f.name = false ∧
      ∃ before behind, fs = before ++ f :: behind ∧ ∀ g ∈ before, g.name ≠ f.name := by
  induction fs generalizing given with
  | nil => simp [leftOut]
  | cons g fs ih =>
    -- A field is the first of its name: it stands in front, or behind one of another name.
    have hsplit : (∃ before behind, g :: fs = before ++ f :: behind ∧
      ∀ g ∈ before, g.name ≠ f.name) ↔
        f = g ∨ g.name ≠ f.name ∧
          ∃ before behind, fs = before ++ f :: behind ∧ ∀ g ∈ before, g.name ≠ f.name := by
      constructor
      · rintro ⟨before, behind, heq, hbefore⟩
        cases before with
        | nil => exact .inl (List.cons.inj heq).1.symm
        | cons x before =>
          obtain ⟨rfl, rfl⟩ := List.cons.inj heq
          obtain ⟨hx, hbefore⟩ := List.forall_mem_cons.1 hbefore
          exact .inr ⟨hx, before, behind, rfl, hbefore⟩
      · rintro (rfl | ⟨hg, before, behind, rfl, hbefore⟩)
        · exact ⟨[], fs, rfl, nofun⟩
        · exact ⟨g :: before, behind, rfl, List.forall_mem_cons.2 ⟨hg, hbefore⟩⟩
    rw [hsplit, leftOut]
    by_cases hg : given g.name = true
    · rw [if_pos hg, ih]
      constructor
      · rintro ⟨hf, hrest⟩
        refine ⟨hf, .inr ⟨fun heq => ?_, hrest⟩⟩
        rw [← heq, hg] at hf
        cases hf
      · rintro ⟨hf, rfl | ⟨-, hrest⟩⟩
        · rw [hg] at hf
          cases hf
        · exact ⟨hf, hrest⟩
    · rw [if_neg hg, List.mem_cons, ih, Bool.or_eq_false_iff, beq_eq_false_iff_ne]
      constructor
      · rintro (rfl | ⟨⟨hf, hne⟩, hrest⟩)
        · exact ⟨by simpa using hg, .inl rfl⟩
        · exact ⟨hf, .inr ⟨hne, hrest⟩⟩
      · rintro ⟨hf, rfl | ⟨hne, hrest⟩⟩
        · exact .inl rfl
        · exact .inr ⟨⟨hf, hne⟩, hrest⟩

/-- A field that is left out is named once, however often it is declared. -/
theorem pairwise_leftOut (given : String → Bool) (fs : List Field) :
    ((leftOut given fs).map Field.name).Pairwise (· ≠ ·) := by
  induction fs generalizing given with
  | nil => exact .nil
  | cons f fs ih =>
    rw [leftOut]
    split
    · exact ih given
    · refine List.pairwise_cons.2 ⟨fun name hname => ?_, ih _⟩
      obtain ⟨g, hg, rfl⟩ := List.mem_map.1 hname
      have hnew := (mem_leftOut.1 hg).1
      rw [Bool.or_eq_false_iff, beq_eq_false_iff_ne] at hnew
      exact hnew.2

/-- The names of some fields with new values of their types, and the heap that holds these. -/
def Heap.defaultFields (h : Heap) (fs : List Field) : List (String × Value) × Heap :=
  let (values, h') := h.defaults (fs.map Field.ty)
  ((fs.map Field.name).zip values, h')

theorem Heap.defaultFields_cons (h : Heap) (f : Field) (fs : List Field) :
    h.defaultFields (f :: fs) = ((f.name, (h.default f.ty).1)
      :: ((h.default f.ty).2.defaultFields fs).1, ((h.default f.ty).2.defaultFields fs).2) := rfl

theorem Heap.map_fst_defaultFields (h : Heap) (fs : List Field) :
    (h.defaultFields fs).1.map Prod.fst = fs.map Field.name := by
  induction fs generalizing h with
  | nil => rfl
  | cons f fs ih => rw [defaultFields_cons, List.map_cons, List.map_cons, ih]

/-- Values for the fields that are left out go behind those that are given. -/
theorem toList_insertAll_defaultFields (params : Dict Value) (h : Heap) (fs : List Field) :
    (params.insertAll (h.defaultFields (leftOut params.contains fs)).1).toList
      = params.toList ++ (h.defaultFields (leftOut params.contains fs)).1 := by
  have hnames := h.map_fst_defaultFields (leftOut params.contains fs)
  apply Dict.toList_insertAll
  · have hdistinct := pairwise_leftOut params.contains fs
    rw [← hnames, List.pairwise_map] at hdistinct
    exact hdistinct
  · intro p hp
    have hname := List.mem_map_of_mem (f := Prod.fst) hp
    rw [hnames] at hname
    obtain ⟨f, hf, hfname⟩ := List.mem_map.1 hname
    rw [← hfname]
    exact (mem_leftOut.1 hf).1

namespace Exec

/-- **Fields that are left out take the default of their type**, or the first of them that has to be
given is an error. -/
theorem addFields_eq (fs : List Field) (params : Dict Value) (m : Machine) :
    match (leftOut params.contains fs).find? fun f => !f.isOptional with
    | some f =>
      ∃ h, addFields fs params m = .error (.fault (.undefinedParam f.name)) { m with heap := h }
    | none => addFields fs params m =
        .ok (params.insertAll (m.heap.defaultFields (leftOut params.contains fs)).1)
          { m with heap := (m.heap.defaultFields (leftOut params.contains fs)).2 } := by
  induction fs generalizing params m with
  | nil => rfl
  | cons f fs ih =>
    rw [leftOut, addFields]
    by_cases hgiven : params.contains f.name = true
    · rw [if_pos hgiven, if_pos hgiven]
      exact ih params m
    · rw [if_neg hgiven, if_neg hgiven, List.find?_cons]
      by_cases hoptional : f.isOptional = true
      · -- A default is given now too, so a later field of that name counts as given.
        have hcontains : (fun name => params.contains name || f.name == name)
            = (params.insert f.name (m.heap.default f.ty).1).contains := by
          funext name
          rw [Dict.contains_eq, Dict.contains_eq, Dict.get?_insert]
          by_cases hname : f.name = name <;> simp [hname]
        have hrest := ih (params.insert f.name (m.heap.default f.ty).1)
          { m with heap := (m.heap.default f.ty).2 }
        rw [← hcontains] at hrest
        rw [hoptional]
        exact hrest
      · rw [Bool.not_eq_true] at hoptional
        rw [hoptional]
        exact ⟨m.heap, rfl⟩

/-! ### Paying -/

/-- Whether a cost is enough for some charges: something is left of it behind each, and the counter
can hold that. -/
def Covers (limits : Limits) (cost : Int) : List Charge → Prop
  | [] => True
  | k :: ks => (0 < cost - k.amount limits ∧ InCounter (cost - k.amount limits)) ∧
    Covers limits (cost - k.amount limits) ks

instance decidableCovers (limits : Limits) (cost : Int) (ks : List Charge) :
    Decidable (Covers limits cost ks) :=
  match ks with
  | [] => .isTrue trivial
  | k :: ks => @instDecidableAnd _ _ _ (decidableCovers limits (cost - k.amount limits) ks)

/-- Charges that are covered are paid. -/
theorem pay_of_covers {limits : Limits} {ks : List Charge} {m : Machine}
    (h : Covers limits m.cost ks) : ∃ cost, pay limits ks m = .ok () { m with cost := cost } := by
  induction ks generalizing m with
  | nil => exact ⟨m.cost, rfl⟩
  | cons k ks ih =>
    obtain ⟨⟨hk, hfits⟩, hks⟩ := h
    rw [pay, bind_of_ok (charge_of_pos hfits hk)]
    exact ih hks

/-! ### Starting a contract -/

variable {c : Context} {m : Machine}

/-- A contract that is there and not active binds its fields. -/
theorem contractParams_apply {q : Request} {id : BlockId} {info : ContractInfo}
    (hname : c.registry.qualified? q.name = some id) (hid : id < c.registry.arena.size)
    (hinfo : (c.block id).contract? = some info) (hlength : q.names.length = q.values.length)
    (hfresh : m.env.get? (Name.marker q.name) = none) :
    contractParams c q m = (do
      let params ← addFields (info.data.getD []) q.params
      return (id, params) : Exec (BlockId × Dict Value)) m := by
  have hmarker : m.env.contains (Name.marker q.name) = false := by
    rw [Dict.contains_eq, hfresh]
    rfl
  unfold contractParams
  rw [hname]
  dsimp only
  rw [if_neg (Nat.not_le.2 hid), hinfo]
  dsimp only
  rw [if_neg (not_not.2 hlength), get_bind_apply, hmarker]
  rfl

/-- The environment of a contract that has just been started, with values for its fields: the node's
variables are those of its caller, but for the three that tell which contract is active. -/
structure StartsWith (fields : List (String × Value)) (name : String) (m m' : Machine) : Prop where
  fields_bound : ∀ key v, Name.isSystem key = false →
    (m'.env.get? key = some v ↔ (key, v) ∈ fields)
  system_kept : ∀ key, Name.isSystem key = true → ¬ Name.IsOwn name key →
    m'.env.get? key = m.env.get? key
  parent : m'.env.get? "parent" = some ((m.env.get? "this_contract").getD (.str ""))
  this : m'.env.get? "this_contract" = some (.str name)
  marker : m'.env.get? (Name.marker name) = some (.bool true)

/-- A contract starts with the values that are bound to its fields. -/
theorem startsWith_contractEnv {params : Dict Value} {name : String} {m m' : Machine}
    (hparams : ∀ p ∈ params.toList, Name.isSystem p.1 = false)
    (henv : m'.env = contractEnv m.env params name) : StartsWith params.toList name m m' := by
  -- A parameter cannot hide a system variable, so the three that the call binds are its own.
  have hgiven : ∀ key, Name.isSystem key = true → params.get? key = none := by
    intro key hkey
    cases hv : params.get? key with
    | none => rfl
    | some v =>
      have hfree := hparams _ (Dict.get?_eq_some_iff.1 hv)
      rw [hkey] at hfree
      cases hfree
  have hmarker : Name.isSystem (Name.marker name) = true := Name.isSystem_marker name
  have hthis : Name.isSystem "this_contract" = true := by decide
  have hparent : Name.isSystem "parent" = true := by decide
  have hdistinct : ∀ key, Name.markerStart.toList.isPrefixOf key.toList = false →
      Name.marker name ≠ key := fun _ hkey => Name.marker_ne_of_not_prefix hkey name
  constructor
  · intro key v hkey
    have hne : ∀ name, Name.isSystem name = true → name ≠ key := by
      rintro name hname rfl
      rw [hkey] at hname
      cases hname
    rw [henv, get?_contractEnv, if_neg (hne _ hmarker), if_neg (hne _ hthis),
      if_neg (hne _ hparent), hkey, if_neg Bool.false_ne_true, Option.or_none,
      Dict.get?_eq_some_iff]
  · intro key hkey hown
    rw [henv, get?_contractEnv, hgiven key hkey, if_neg fun h => hown (.inr (.inr h.symm)),
      if_neg fun h => hown (.inr (.inl h.symm)), if_neg fun h => hown (.inl h.symm), if_pos hkey,
      Option.none_or]
  · rw [henv, get?_contractEnv, hgiven _ hparent, if_neg (hdistinct _ (by decide)),
      if_neg (by decide), if_pos rfl, Option.none_or]
  · rw [henv, get?_contractEnv, hgiven _ hthis, if_neg (hdistinct _ (by decide)), if_pos rfl,
      Option.none_or]
  · rw [henv, get?_contractEnv, hgiven _ hmarker, if_pos rfl, Option.none_or]

/-- A function that takes nothing is entered when it is started. -/
theorem start_of_params_nil {id : BlockId} {f : FuncInfo} (hid : id < c.registry.arena.size)
    (hf : (c.block id).func? = some f) (hparams : f.params = []) (hvariadic : f.variadic = false)
    (role : Role) (m : Machine) : ∃ m' a, start c id [] role m = .ok () m' ∧ m'.env = m.env ∧
      m'.frames = .block a :: m.frames ∧ a.block = id ∧ a.pc = 0 := by
  have hsize : ¬ c.registry.arena.size ≤ id := Nat.not_le.2 hid
  have hstart : start c id [] role m = enterBlock c id [] role m := by
    unfold start
    rw [if_neg hsize, hf]
    dsimp only
    rw [hvariadic, hparams]
    rfl
  rw [hstart, enterBlock, if_neg hsize]
  exact ⟨_, _, rfl, rfl, rfl, rfl, rfl⟩

end Exec

/-- The fields that a contract declares, in order. -/
def Block.declaredFields (b : Block) : List Field := (b.contract?.bind ContractInfo.data).getD []

namespace Session

variable {s : Session}

/-- The block that a qualified name stands for is a contract. -/
theorem Reachable.contract_of_qualified (hs : s.Reachable) {name : String} {id : BlockId}
    (hname : s.registry.qualified? name = some id) :
    ∃ info, (s.registry.block id).contract? = some info := by
  have hobject : s.registry.objects.get? name = some (.contract id) := by
    unfold Registry.qualified? at hname
    split at hname
    · rename_i hget
      cases hname
      exact hget
    · cases hname
  obtain ⟨n, hheader, -⟩ := hs.numbered.now.found name _ id hobject rfl
  obtain ⟨-, -, hbinding⟩ := Block.header?_iff.1 hheader
  unfold Block.contract?
  cases hinfo : (s.registry.block id).info with
  | contract info => exact ⟨info, rfl⟩
  | func info | plain =>
    rw [Registry.block] at hinfo
    rw [Block.binding?, hinfo] at hbinding
    cases hbinding

/-- The fields of a contract that can be called are no system variables. -/
theorem Reachable.declaredFields_free (hs : s.Reachable) (id : BlockId) :
    ∀ f ∈ (s.registry.block id).declaredFields, Name.isSystem f.name = false :=
  fun f hf => (hs.clean id).fields f.name (List.mem_map_of_mem hf)

end Session

open Exec

/-- A call with a map of fields adds those that are left out, is paid for, and starts the
contract. -/
theorem callContractIn_apply {s : Session} (hs : s.Reachable) (allowance : Option Nat)
    (clock : Nat → Nat) {state : UInt32} {name : String} {id : BlockId}
    (hid : s.registry.contract? state name = some id) {m : Machine}
    (hfresh : m.env.get? (Name.marker (Name.qualify state.toNat name)) = none) {params : Dict Value}
    (hkeys : ∀ key ∈ params.keys, Text.IsEntry key) (via : Option Extension) :
    callContractIn (s.context allowance clock) state name params via m = (do
      let params ← addFields (s.registry.block id).declaredFields params
      pay s.registry.limits
        (contractCharges (s.context allowance clock) (Name.qualify state.toNat name))
      modify (started (s.context allowance clock) id (Name.qualify state.toNat name) via params) :
        Exec Unit) m := by
  obtain ⟨info, hinfo⟩ := hs.contract_of_qualified hid
  obtain ⟨hnames, hparams⟩ := Request.params_inState state name hkeys
  have hfields : (s.registry.block id).declaredFields = info.data.getD [] := by
    rw [Block.declaredFields, hinfo]
    rfl
  have hlength : (Request.inState state name params).names.length
      = (Request.inState state name params).values.length := by
    rw [hnames]
    exact (List.length_map _).trans (List.length_map _).symm
  have hbound := contractParams_apply (c := s.context allowance clock)
    (q := Request.inState state name params) hid
    (hs.linked.lt_of_qualified hid) hinfo hlength hfresh
  rw [hparams, ← hfields] at hbound
  rw [callContractIn, callContract_eq]
  change (contractParams (s.context allowance clock) (Request.inState state name params) >>= _) m
    = _
  -- Adding the fields is the one step that may fail now.
  cases hadd : addFields (s.registry.block id).declaredFields params m with
  | ok added m' =>
    rw [bind_of_ok hadd] at hbound
    rw [bind_of_ok hbound, bind_of_ok hadd]
    rfl
  | error e m' =>
    rw [bind_of_error hadd] at hbound
    rw [bind_of_error hbound, bind_of_error hadd]

/-- A contract that has just been started goes on with its first section, which gets no arguments.
If it takes none, it is entered. -/
theorem step_started {c : Context} {id sec : BlockId} {secs : List BlockId}
    (hsections : sectionsOf (c.block id) = sec :: secs) (hsec : sec < c.registry.arena.size)
    (name : String) (via : Option Extension) (params : Dict Value) (m : Machine) :
    ∃ k, step c (started c id name via params m) = start c sec [] .section
        { started c id name via params m with frames := .contract k :: m.frames } ∧
      ∀ f, (c.block sec).func? = some f → f.params = [] → f.variadic = false →
        ∃ m' a, step c (started c id name via params m) = .ok () m' ∧
          m'.env = (started c id name via params m).env ∧
          m'.frames = .block a :: .contract k :: m.frames ∧ a.block = sec ∧ a.pc = 0 := by
  have hstep := (step_of_contract (c := c) (m := started c id name via params m) rfl).trans
    (resume_cons c m.frames _ hsections)
  refine ⟨_, hstep, fun f hf hparams hvariadic => ?_⟩
  rw [hstep]
  exact start_of_params_nil hsec hf hparams hvariadic .section _

/-- **How a contract binds its fields.** Let a contract be called that is not active, with a map
whose names could stand in a list and are no system variables. If a field is left out that is not
optional, the first such field is the error, and nothing has been paid or bound. Otherwise, if the
cost is enough, the contract starts with exactly what the map has and a new default for each field
that is left out. If it has a section, the next step starts the first one in this environment
without arguments, so that a section that takes none is entered. -/
theorem callContractIn_binds {s : Session} (hs : s.Reachable) (allowance : Option Nat)
    (clock : Nat → Nat) {state : UInt32} {name : String} {id : BlockId}
    (hid : s.registry.contract? state name = some id) {m : Machine}
    (hfresh : m.env.get? (Name.marker (Name.qualify state.toNat name)) = none) {params : Dict Value}
    (hkeys : ∀ key ∈ params.keys, Text.IsEntry key ∧ Name.isSystem key = false)
    (via : Option Extension) :
    (∀ f, ((leftOut params.contains (s.registry.block id).declaredFields).find? fun f =>
        !f.isOptional) = some f →
      ∃ h, callContractIn (s.context allowance clock) state name params via m
        = .error (.fault (.undefinedParam f.name)) { m with heap := h }) ∧
    ((∀ f ∈ leftOut params.contains (s.registry.block id).declaredFields, f.isOptional = true) →
      Covers s.registry.limits m.cost
        (contractCharges (s.context allowance clock) (Name.qualify state.toNat name)) →
      ∃ m', callContractIn (s.context allowance clock) state name params via m = .ok () m' ∧
        StartsWith (params.toList ++ (m.heap.defaultFields
          (leftOut params.contains (s.registry.block id).declaredFields)).1)
          (Name.qualify state.toNat name) m m' ∧
        m'.heap = (m.heap.defaultFields
          (leftOut params.contains (s.registry.block id).declaredFields)).2 ∧
        ∀ sec secs, sectionsOf (s.registry.block id) = sec :: secs → ∃ k,
          step (s.context allowance clock) m' = start (s.context allowance clock) sec [] .section
            { m' with frames := .contract k :: m.frames } ∧
          ∀ f, (s.registry.block sec).func? = some f → f.params = [] → f.variadic = false →
            ∃ m'' a, step (s.context allowance clock) m' = .ok () m'' ∧ m''.env = m'.env ∧
              m''.frames = .block a :: .contract k :: m.frames ∧ a.block = sec ∧ a.pc = 0) := by
  have hcall := callContractIn_apply hs allowance clock hid hfresh
    (fun key hkey => (hkeys key hkey).1) via
  -- what is added depends on the first field that is left out and has to be given
  have hadd := addFields_eq (s.registry.block id).declaredFields params m
  constructor
  · intro f hfind
    rw [hfind] at hadd
    obtain ⟨h, hadd⟩ := hadd
    exact ⟨h, hcall.trans (bind_of_error hadd)⟩
  · intro hoptional hcost
    have hfind : (leftOut params.contains (s.registry.block id).declaredFields).find?
        (fun f => !f.isOptional) = none := List.find?_eq_none.2 fun f hf => by simp [hoptional f hf]
    rw [hfind] at hadd
    obtain ⟨cost, hpay⟩ := pay_of_covers (m := { m with heap := (m.heap.defaultFields
      (leftOut params.contains (s.registry.block id).declaredFields)).2 }) hcost
    rw [bind_of_ok hadd, bind_of_ok hpay] at hcall
    refine ⟨_, hcall, ?_, rfl, fun sec secs hsections => ?_⟩
    · rw [← toList_insertAll_defaultFields]
      refine startsWith_contractEnv (fun p hp => ?_) rfl
      rw [toList_insertAll_defaultFields] at hp
      -- a parameter is one that was given, or the default of a declared field
      rcases List.mem_append.1 hp with hgiven | hdefault
      · exact (hkeys p.1 (List.mem_map_of_mem hgiven)).2
      · have hname := List.mem_map_of_mem (f := Prod.fst) hdefault
        rw [Heap.map_fst_defaultFields] at hname
        obtain ⟨f, hf, hfname⟩ := List.mem_map.1 hname
        obtain ⟨-, before, behind, hfields, -⟩ := mem_leftOut.1 hf
        rw [← hfname]
        refine hs.declaredFields_free id f ?_
        rw [hfields]
        exact List.mem_append_right _ (List.mem_cons_self ..)
    · obtain ⟨info, hinfo⟩ := hs.contract_of_qualified hid
      have hlt : sec < s.registry.arena.size := by
        refine hs.known.lt_of_section (c := id) ?_ ?_
        · rw [hinfo]
          rfl
        · rw [hsections]
          exact List.mem_cons_self ..
      exact step_started (c := s.context allowance clock) hsections hlt _ via _ _

/-- A contract with a field that has to be given and one that has not. -/
def paymentSession : Session := Launch.callingSession
  ("contract Pay \x7b data \x7b\n amount int\n memo string \"optional\"\n \x7d\n" ++
    "action \x7b \x7d \x7d")

/-- The machine at the start of a run with some cost. -/
def startMachine (cost : Int) : Machine := { heap := .empty, env := Launch.hostEnv, cost := cost }

/-- The context of a run in a session without limits of time. -/
def Session.plainContext (s : Session) : Context := s.context none fun _ => 0

/-- A payment starts with the amount and an empty memo, and is refused without an amount. -/
theorem payment_binds :
    paymentSession.Reachable ∧ paymentSession.registry.contract? 1 "Pay" = some 1 ∧
      (startMachine 1000).env.get? (Name.marker (Name.qualify (1 : UInt32).toNat "Pay")) = none ∧
      (∀ key ∈ (Dict.ofList [("amount", Value.int 3)]).keys,
        Text.IsEntry key ∧ Name.isSystem key = false) ∧
      (∃ m', callContractIn paymentSession.plainContext 1 "Pay" (.ofList [("amount", .int 3)]) none
          (startMachine 1000) = .ok () m' ∧ m'.env.get? "amount" = some (.int 3) ∧
          m'.env.get? "memo" = some (.str "")) ∧
      ∃ h, callContractIn paymentSession.plainContext 1 "Pay" .empty none (startMachine 1000)
        = .error (.fault (.undefinedParam "amount")) { startMachine 1000 with heap := h } := by
  have hreachable : paymentSession.Reachable := Launch.reachable_callingSession _
  obtain ⟨hid, hall, hfirst, hcost⟩ : paymentSession.registry.contract? 1 "Pay" = some 1 ∧
      ((leftOut (Dict.ofList [("amount", Value.int 3)]).contains
        (paymentSession.registry.block 1).declaredFields).map fun f => (f.name, f.ty, f.isOptional))
          = [("memo", .string, true)] ∧
      (((leftOut (Dict.empty : Dict Value).contains
        (paymentSession.registry.block 1).declaredFields).find?
        fun f => !f.isOptional).map Field.name) = some "amount" ∧
      Covers paymentSession.registry.limits (startMachine 1000).cost
        (contractCharges paymentSession.plainContext (Name.qualify (1 : UInt32).toNat "Pay")) := by
    simp only [Session.plainContext, paymentSession, Launch.callingSession, Session.perform_compile,
      String.toList_append, String.reduceToList]
    decide +kernel
  have hfresh : (startMachine 1000).env.get? (Name.marker (Name.qualify (1 : UInt32).toNat "Pay"))
      = none := by
    rw [← Option.isNone_iff_eq_none]
    decide +kernel
  have hkeys : ∀ key ∈ (Dict.ofList [("amount", Value.int 3)]).keys,
      Text.IsEntry key ∧ Name.isSystem key = false := by
    unfold Text.IsEntry
    decide +kernel
  refine ⟨hreachable, hid, hfresh, hkeys, ?_, ?_⟩
  · -- With the amount given, the optional `memo` is added; without it the call fails.
    have hgiven := (callContractIn_binds hreachable none (fun _ => 0) hid hfresh hkeys none).2
    obtain ⟨f, hleft, hf⟩ := List.map_eq_singleton_iff.1 hall
    simp only [Prod.mk.injEq] at hf
    obtain ⟨hname, hty, hoptional⟩ := hf
    rw [hleft] at hgiven
    obtain ⟨m', hcall, hstarts, -⟩ := hgiven (List.forall_mem_singleton.2 hoptional) hcost
    refine ⟨m', hcall, ?_, ?_⟩
    · refine (hstarts.fields_bound "amount" _ (by decide)).2 (List.mem_append_left _ ?_)
      rw [← Dict.get?_eq_some_iff]
      change (Dict.empty.insert "amount" (Value.int 3)).get? "amount" = _
      rw [Dict.get?_insert, if_pos rfl]
    · refine (hstarts.fields_bound "memo" _ (by decide)).2 (List.mem_append_right _ ?_)
      rw [Heap.defaultFields_cons, hname, hty]
      exact List.mem_cons_self ..
  · have hnothing := (callContractIn_binds hreachable none (fun _ => 0) hid hfresh
      (fun key (hkey : key ∈ (Dict.empty : Dict Value).keys) =>
        absurd hkey List.not_mem_nil) none).1
    obtain ⟨f, hf, hname⟩ := Option.map_eq_some_iff.1 hfirst
    rw [← hname]
    exact hnothing f hf

/-- A contract with a field that repeats the name of another one, and a contract with a section that
takes an argument. -/
def oddContracts : Session := Launch.callingSession
  ("contract X \x7b data \x7b\n a int \"optional\"\n a string\n \x7d\n" ++
    "action \x7b $result = $a \x7d \x7d\n" ++
    "contract Y \x7b action(x int) \x7b $result = x \x7d \x7d")

/-- What a run has failed with. -/
def Outcome.fault? {α : Type} (o : Outcome α) : Option Fault :=
  match o.result with
  | .ok _ => none
  | .error e => some e.fault

/-- **A field that repeats the name of an optional one need not be given**: it takes the default of
the other's type, here zero for a text. And a section that takes an argument is not entered. -/
theorem repeated_field_takes_default :
    oddContracts.Reachable ∧
      oddContracts.registry.contract? 1 "X" = some 1 ∧
      ((oddContracts.registry.block 1).declaredFields.any fun f =>
        !f.isOptional && !(Dict.empty : Dict Value).contains f.name) = true ∧
      ((Launch.contract 1 "X" .empty).run oddContracts.registry .empty .empty
        fun _ => 0).result.toOption.any (·.any (Value.isInt 0)) = true ∧
      oddContracts.registry.contract? 1 "Y" = some 3 ∧
      (oddContracts.registry.block 3).declaredFields.isEmpty = true ∧
      ((Launch.contract 1 "Y" .empty).run oddContracts.registry .empty .empty fun _ => 0).fault?
        = some (.wrongParams "action" 1) := by
  have hreachable : oddContracts.Reachable := Launch.reachable_callingSession _
  refine ⟨hreachable, ?_⟩
  simp only [oddContracts, Launch.callingSession, Session.perform_compile,
    String.toList_append, String.reduceToList]
  decide +kernel

end Covenant
