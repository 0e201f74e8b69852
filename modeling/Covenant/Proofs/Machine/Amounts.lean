import Covenant.Proofs.Compile.Counted
import Covenant.Proofs.Machine.Arguments
import Covenant.Proofs.Machine.Depth
import Covenant.Proofs.Machine.Scopes
import Covenant.Proofs.Structured.Correctness

/-!
# Variables of type money

Nothing checks the values of variables as a run goes on, and yet the variables that are declared as
`money` hold amounts of money all the time (`Machine.HoldsMoney`). They get their values in three
ways, and each of them respects the declared type of the variable that it fills (`Amounts`):

* defaults are those of the declared types;
* arguments are checked against the types of parameters. Which variables these are is said by the
  layout of signatures: parameters are the first variables, in order, and each segment knows its
  own. That no surplus argument gets into a variable behind the parameters is due to what the
  compiler counts arguments for (`Session.Reachable.counted`);
* an assignment converts the value to the type of the variable that it names, and writes to an
  activation of the block that declares it.

Everything else leaves the variables alone (`Exec.Unmoved`).
-/

namespace Covenant

open Covenant.Computation

/-! ### Values for some types -/

/-- Whether values suit variables of some types as far as those of type `money` are concerned. -/
def Amounts (tys : List Ty) (vs : List Value) : Prop :=
  ∀ (i : Nat) (v : Value), tys[i]? = some Ty.money → vs[i]? = some v → ∃ x, v = Value.money x

namespace Amounts

variable {tys tys' : List Ty} {vs ws : List Value} {t : Ty} {v : Value}

theorem nil (tys : List Ty) : Amounts tys [] := fun _ _ _ hv => by cases hv

theorem of_no_types (vs : List Value) : Amounts [] vs := fun _ _ ht _ => by cases ht

/-- A value of the right kind can be put in front of others. -/
theorem cons (hv : t = .money → ∃ x, v = .money x) (hvs : Amounts tys vs) :
    Amounts (t :: tys) (v :: vs) := by
  intro i w ht hw
  cases i with
  | zero =>
    cases ht
    cases hw
    exact hv rfl
  | succ i => exact hvs i w ht hw

theorem head (h : Amounts (t :: tys) (v :: vs)) (ht : t = .money) : ∃ x, v = .money x :=
  h 0 v (congrArg some ht) rfl

theorem tail (h : Amounts (t :: tys) (v :: vs)) : Amounts tys vs :=
  fun i w ht hw => h (i + 1) w ht hw

/-- What suits the first types suits all of them, if it is not too long. -/
theorem widen (h : Amounts tys vs) (htys : tys <+: tys') (hlength : vs.length ≤ tys.length) :
    Amounts tys' vs := by
  obtain ⟨rest, rfl⟩ := htys
  intro i v ht hv
  have hi := (List.getElem?_eq_some_iff.1 hv).1
  rw [List.getElem?_append_left (by omega)] at ht
  exact h i v ht hv

/-- Values for the first variables and values for those behind them. -/
theorem append (h : Amounts tys vs) (h' : Amounts (tys.drop vs.length) ws) :
    Amounts tys (vs ++ ws) := by
  intro i v ht hv
  by_cases hi : i < vs.length
  · rw [List.getElem?_append_left hi] at hv
    exact h i v ht hv
  · rw [List.getElem?_append_right (by omega)] at hv
    refine h' (i - vs.length) v ?_ hv
    rw [List.getElem?_drop, Nat.add_sub_of_le (by omega)]
    exact ht

/-- A value of the right kind can take the place of another one. -/
theorem set (h : Amounts tys vs) {i : Nat} (hv : tys[i]? = some .money → ∃ x, v = .money x) :
    Amounts tys (vs.set i v) := by
  intro j w ht hw
  by_cases hij : i = j
  · subst hij
    obtain ⟨hi, rfl⟩ := List.getElem?_eq_some_iff.1 hw
    rw [List.getElem_set_self]
    exact hv ht
  · rw [List.getElem?_set_ne hij] at hw
    exact h j w ht hw

end Amounts

/-- Defaults suit the types that they are those of. -/
theorem Heap.amounts_defaults (h : Heap) (tys : List Ty) : Amounts tys (h.defaults tys).1 := by
  induction tys generalizing h with
  | nil => exact .nil _
  | cons t ts ih =>
    refine .cons (fun ht => ?_) (ih (h.default t).2)
    subst ht
    exact ⟨.zero, rfl⟩

/-- Only money may be bound to a parameter of type `money`. -/
theorem Ty.eq_money_of_accepts {v : Value} (h : Ty.accepts .money v = true) :
    ∃ x, v = .money x := by
  cases v with
  | money x => exact ⟨x, rfl⟩
  | _ => cases h

/-- An argument that is bound to a parameter is one that the parameter accepts. -/
theorem accepts_of_checkParams {i : Nat} {t : Ty} {ts : List Ty} {v : Value} {vs bound : List Value}
    (h : checkParams i (t :: ts) (v :: vs) = .ok bound) :
    ∃ w ws, bound = w :: ws ∧ checkParams (i + 1) ts vs = .ok ws ∧ t.accepts w = true := by
  have hcons : ∀ w, t.accepts w = true → (checkParams (i + 1) ts vs >>= fun ws => pure (w :: ws))
    = .ok bound →
      ∃ w ws, bound = w :: ws ∧ checkParams (i + 1) ts vs = .ok ws ∧ t.accepts w = true := by
    intro w haccepts hw
    obtain ⟨ws, hws, hbound⟩ := except_bind_eq_ok hw
    cases hbound
    exact ⟨w, ws, rfl, hws, haccepts⟩
  unfold checkParams at h
  dsimp only at h
  split at h
  · exact hcons _ rfl h
  · split at h
    · exact hcons v ‹_› h
    · cases h

/-- Arguments that pass a check suit the types that they are checked against. -/
theorem amounts_checkParams {i : Nat} {tys : List Ty} {vs bound : List Value}
    (h : checkParams i tys vs = .ok bound) : Amounts tys bound := by
  induction tys generalizing i vs bound with
  | nil => exact .of_no_types _
  | cons t ts ih =>
    cases vs with
    | nil =>
      cases h
      exact .nil _
    | cons v vs =>
      obtain ⟨w, ws, rfl, hws, haccepts⟩ := accepts_of_checkParams h
      refine .cons (fun ht => ?_) (ih hws)
      subst ht
      exact Ty.eq_money_of_accepts haccepts

/-- What is assigned to a variable of type `money` is converted to money. -/
theorem Ty.convert_money (v : Value) : convert (some .money) v = v.toMoney.map .money := by
  cases v <;> rfl

/-! ### Frames that hold money -/

/-- Assigning to another variable leaves the value of a variable. -/
theorem Frame.slot?_setSlot_ne {u v : VarRef} (hne : v ≠ u) (x : Value) (fs : List Frame) :
    Frame.slot? v (Frame.setSlot u x fs) = Frame.slot? v fs := by
  induction fs with
  | nil => rfl
  | cons f fs ih =>
    cases f with
    | contract k => exact ih
    | block a =>
      rw [Frame.setSlot]
      split
      · rename_i howner
        rw [Frame.slot?, Frame.slot?]
        split
        · rename_i howner'
          -- a variable of the same block is another one by its index
          have howners : v.owner = u.owner :=
            (beq_iff_eq.1 howner').symm.trans (beq_iff_eq.1 howner)
          have hindex : u.index ≠ v.index :=
            fun hindex => hne (congr (congrArg VarRef.mk howners) hindex.symm)
          exact Array.getElem?_setIfInBounds_ne hindex
        · rfl
      · rw [Frame.slot?, Frame.slot?, ih]

/-- Whether the variables of a running block that are declared as `money` hold money. -/
def Frame.HoldsMoney (r : Registry) : Frame → Prop
  | .block a => Amounts (r.block a.block).vars.toList a.slots.toList
  | .contract _ => True

/-- Whether all live variables that are declared as `money` hold money. -/
def Machine.HoldsMoney (r : Registry) (m : Machine) : Prop := ∀ f ∈ m.frames, f.HoldsMoney r

section

variable {r : Registry} {m m' : Machine}

theorem Frame.holdsMoney_fixed (f : Frame) : f.fixed.HoldsMoney r ↔ f.HoldsMoney r := by
  cases f <;> exact Iff.rfl

theorem Machine.HoldsMoney.of_fixed (h : m.HoldsMoney r)
    (hfixed : m'.frames.map Frame.fixed = m.frames.map Frame.fixed) : m'.HoldsMoney r := by
  intro f hf
  have hmem : f.fixed ∈ m.frames.map Frame.fixed := hfixed ▸ List.mem_map_of_mem hf
  obtain ⟨g, hg, hgf⟩ := List.mem_map.1 hmem
  rw [← f.holdsMoney_fixed, ← hgf, g.holdsMoney_fixed]
  exact h g hg

theorem Machine.HoldsMoney.tail {f : Frame} {rest : List Frame} (h : m.HoldsMoney r)
    (hframes : m.frames = f :: rest) : ∀ g ∈ rest, g.HoldsMoney r :=
  fun g hg => h g (hframes ▸ List.mem_cons_of_mem _ hg)

/-- A variable of type `money` goes on to hold money if the value that it gets is money. -/
theorem Frame.holdsMoney_setSlot {v : VarRef} {x : Value}
    (hx : (r.block v.owner).vars[v.index]? = some .money → ∃ y, x = .money y) {fs : List Frame}
    (h : ∀ f ∈ fs, f.HoldsMoney r) : ∀ f ∈ Frame.setSlot v x fs, f.HoldsMoney r := by
  induction fs with
  | nil => exact h
  | cons f fs ih =>
    obtain ⟨hf, hfs⟩ := List.forall_mem_cons.1 h
    cases f with
    | block a =>
      rw [setSlot]
      split
      · rename_i howner
        refine List.forall_mem_cons.2 ⟨?_, hfs⟩
        rw [HoldsMoney, Array.toList_setIfInBounds]
        refine Amounts.set hf fun ht => hx ?_
        rw [← beq_iff_eq.1 howner, ← Array.getElem?_toList]
        exact ht
      · exact List.forall_mem_cons.2 ⟨hf, ih hfs⟩
    | contract k => exact List.forall_mem_cons.2 ⟨trivial, ih hfs⟩

end

namespace Exec

variable {α β : Type} {c : Context} {r : Registry} {m m' : Machine}

/-! ### What leaves variables alone -/

/-- Whether a computation leaves the variables of all frames, and the frames themselves, as they
are. -/
abbrev Unmoved (x : Exec α) : Prop := Preserves (fun m => m.frames.map Frame.fixed) x

/-- Changes that assign to no variable leave the frames that there were below new ones. -/
theorem fixed_of_follows (h : Follows (Watch.assigning c fun _ => False) m m') :
    ∃ above, m'.frames.map Frame.fixed = above ++ m.frames.map Frame.fixed := by
  induction h with
  | refl => exact ⟨[], rfl⟩
  | @tail m₁ m₂ _ hlink ih =>
    obtain ⟨above, hm₁⟩ := ih
    cases hlink.change with
    | quiet hquiet => exact ⟨above, hquiet.frames.trans hm₁⟩
    | enter a => exact ⟨(Frame.block a).fixed :: above, congrArg ((Frame.block a).fixed :: ·) hm₁⟩
    | begin k => exact ⟨(Frame.contract k).fixed :: above,
      congrArg ((Frame.contract k).fixed :: ·) hm₁⟩
    | assign v x old _ hassigns => exact hassigns.elim
    | bind | write | host => exact ⟨above, hm₁⟩

/-- What starts and ends nothing and assigns to no variable leaves the variables alone. -/
theorem Unmoved.of_still {x : Exec α} {k : Nat} {Q : Machine → α → Heap → Prop} (hstill : Still x)
    (htame : ∀ m : Machine, (∀ j, m.Ready (Watch.assigning c fun _ => False) j) →
      Tame (Watch.assigning c fun _ => False) m k (Q m) (x m)) : Unmoved x := by
  intro m
  obtain ⟨hfollows, -⟩ := htame m fun j => ⟨.of_true m _, Nat.zero_le _⟩
  obtain ⟨above, habove⟩ := fixed_of_follows hfollows
  have hlength := congrArg List.length (hstill m)
  have hlength' := congrArg List.length habove
  simp only [Machine.outline, List.length_map, List.length_append] at hlength hlength'
  have hnil : above = [] := List.eq_nil_of_length_eq_zero (by omega)
  rw [hnil] at habove
  exact habove

theorem Unmoved.slot? {x : Exec α} (hx : Unmoved x) (v : VarRef) (m : Machine) :
    Frame.slot? v (left (x m)).frames = Frame.slot? v m.frames :=
  Frame.slot?_fixed.symm.trans ((congrArg (Frame.slot? v) (hx m)).trans Frame.slot?_fixed)

theorem unmoved_modifyTop {f : Activation → Activation}
    (hf : ∀ a, (Frame.block (f a)).fixed = (Frame.block a).fixed) : Unmoved (modifyTop f) := by
  refine .modify fun m => ?_
  split
  · rename_i a rest hframes
    rw [hframes, List.map_cons, List.map_cons, hf]
  · rfl

theorem unmoved_advance : Unmoved advance := unmoved_modifyTop fun _ => rfl

theorem unmoved_readVar (v : VarRef) : Unmoved (readVar v) := preserves_readVar v

section

variable (c)
include c

theorem unmoved_pop : Unmoved pop :=
  .of_still (c := c) (k := 0) (.of_plain plain_pop) fun _ hm => tame_pop lasting_true (hm 1)

theorem unmoved_popN (n : Nat) : Unmoved (popN n) :=
  .of_still (c := c) (k := 0) (.of_plain (plain_popN n)) fun _ hm => tame_popN lasting_true (hm _)

theorem unmoved_popCount : Unmoved popCount :=
  .of_still (c := c) (k := 0) (.of_plain plain_popCount) fun _ hm =>
    tame_popCount lasting_true (hm 1)

theorem unmoved_tick : Unmoved (tick c) :=
  .of_still (k := 0) (still_tick c) fun _ hm =>
    tame_tick (w := Watch.assigning c _) lasting_true (hm 0)

theorem unmoved_pay (ks : List Charge) : Unmoved (pay c.limits ks) :=
  .of_still (k := 0) (still_pay _ ks) fun _ hm =>
    tame_pay (w := Watch.assigning c _) lasting_true (hm 0) ks

theorem unmoved_checkDepth : Unmoved (checkDepth c) :=
  .of_still (k := 0) (.of_plain (plain_checkDepth c)) fun _ hm =>
    tame_checkDepth (w := Watch.assigning c _) (hm 0)

theorem unmoved_callSlots (id : BlockId) (count : Option Nat) : Unmoved (callSlots c id count) :=
  .of_still (k := 0) (.of_plain (plain_callSlots c id count)) fun _ hm =>
    tame_callSlots (Watch.assigning_holds c _) (hm _) fun _ => trivial

theorem unmoved_variadicArgs (f : FuncInfo) (args : List Value) : Unmoved (variadicArgs f args) :=
  .of_still (c := c) (k := 0) (.of_plain (plain_variadicArgs f args)) fun _ hm =>
    tame_variadicArgs lasting_true (hm 0) f fun _ _ => trivial

theorem unmoved_extensionParams (e : Extension) (count : Option Nat) :
    Unmoved (extensionParams e count) :=
  .of_still (c := c) (k := 0) (.of_plain (plain_extensionParams (fun key _ => sees_id key) count))
    fun _ hm =>
    tame_extensionParams (Watch.assigning_holds c _) (hm _)

theorem unmoved_contractParams (q : Request) : Unmoved (contractParams c q) :=
  .of_still (k := 0) (.of_plain (plain_contractParams c (sees_id _))) fun _ hm =>
    tame_contractParams (Watch.assigning_holds c _) (hm 0) fun _ _ => trivial

theorem unmoved_deliver (e : Extension) (results : List Value) : Unmoved (deliver e results) :=
  .of_still (c := c) (k := 0) (still_deliver e results) fun _ hm =>
    tame_deliver (Watch.assigning_holds c _) (hm 0) e fun _ _ => trivial

theorem unmoved_behindBlock (a : Activation) (status : Status) : Unmoved (behindBlock c a status) :=
  .of_still (k := 0) (.of_plain (plain_behindBlock c a status)) fun _ hm =>
    tame_behindBlock (Watch.assigning_holds c _) (hm 0) (Nat.zero_le _) status fun _ _ => trivial

theorem unmoved_behindContract (k : ContractCall) (result : Value) :
    Unmoved (behindContract k result) :=
  .of_still (c := c) (k := 0) (still_behindContract k result) fun _ hm =>
    tame_behindContract (Watch.assigning_holds c _) (hm 0) k trivial

/-- Instructions on operands and literals leave variables alone. -/
theorem unmoved_perform {op : Op} (hop : op.isPlain = true) : Unmoved (perform c op) := by
  refine .of_still (c := c) (k := 0) (Q := fun _ _ _ => True)
    (.of_plain (plain_perform c hop fun name _ => sees_id name)) fun m hm => ?_
  refine tame_perform (Watch.assigning_holds c _) (hm _) ?_ ?_ (fun _ _ _ _ _ _ _ _ _ => trivial) ?_
    (fun _ _ => trivial) fun _ _ _ => trivial
  · cases op <;> first | rfl | cases hop
  · intro e he
    cases op <;> first | cases he | cases hop
  · rintro rfl
    cases hop

end

/-! ### Arguments -/

/-- Whether the values that a computation gives have a property. -/
def Yields (P : α → Prop) (x : Exec α) : Prop := ∀ m a m', x m = .ok a m' → P a

namespace Yields

variable {P : α → Prop} {P' : β → Prop} {x : Exec α} {f : α → Exec β}

theorem pure {a : α} (ha : P a) : Yields P (pure a : Exec α) := by
  rintro _ _ _ ⟨⟩
  exact ha

theorem throw (e : Stop) : Yields P (throw e : Exec α) := fun _ _ _ h => by cases h

theorem of_any (x : Exec α) : Yields (fun _ => True) x := fun _ _ _ _ => trivial

theorem throw_bind (e : Stop) : Yields P' ((MonadExcept.throw e : Exec α) >>= f) :=
  fun _ _ _ h => by cases h

theorem bind (hx : Yields P x) (hf : ∀ a, P a → Yields P' (f a)) : Yields P' (x >>= f) := by
  intro m b m' h
  obtain ⟨a, m₁, hm₁, hrest⟩ := bind_eq_ok h
  exact hf a (hx m a m₁ hm₁) m₁ b m' hrest

theorem any_bind (hf : ∀ a, Yields P' (f a)) : Yields P' (x >>= f) :=
  (of_any x).bind fun a _ => hf a

theorem ite {p : Prop} [Decidable p] {y : Exec α} (hx : p → Yields P x) (hy : ¬ p → Yields P y) :
    Yields P (if p then x else y) := by
  split
  · exact hx ‹_›
  · exact hy ‹_›

theorem ofExcept {r : Except Fault α} (h : ∀ a, r = .ok a → P a) : Yields P (ofExcept r) := by
  cases r with
  | ok a => exact .pure (h a rfl)
  | error f => exact .throw _

end Yields

theorem yields_takeFixed (n : Nat) : Yields (fun vs => vs.length = n) (takeFixed n) := by
  refine .any_bind fun _ m vs m' h => ?_
  obtain ⟨_, -, hlength, -⟩ := stack_of_popN h
  exact hlength

/-- A function with a parameter to collect what is left gets one argument for each parameter. -/
theorem yields_variadicArgs {f : FuncInfo} (hf : f.params ≠ []) (args : List Value) :
    Yields (fun vs => vs.length = f.params.length) (variadicArgs f args) := by
  have hpos := List.length_pos_iff.2 hf
  refine .ite (fun _ => .throw_bind _) fun hlength => .any_bind fun tail => .pure ?_
  rw [List.length_append, List.length_take, List.length_singleton]
  omega

theorem yields_defaults (tys : List Ty) : Yields (Amounts tys) (defaults tys) := by
  rintro m _ _ ⟨⟩
  exact m.heap.amounts_defaults tys

theorem yields_checkParams (i : Nat) (tys : List Ty) (vs : List Value) :
    Yields (fun bound => Amounts tys bound ∧ bound.length = vs.length)
    (ofExcept (checkParams i tys vs)) :=
  .ofExcept fun _ h => ⟨amounts_checkParams h, Structured.length_checkParams h⟩

/-- Values are put into variables of their types. -/
theorem yields_fillSlots {vars : Array Ty} {is : List Nat} {tys : List Ty}
    (hplaces : List.Forall₂ (fun i t => vars[i]? = some t) is tys) {vs slots : List Value}
    (hvs : Amounts tys vs) (hslots : Amounts vars.toList slots) :
    Yields (Amounts vars.toList) (fillSlots is vs slots) := by
  induction hplaces generalizing vs slots with
  | nil => exact .pure hslots
  | @cons i t is tys hi _ ih =>
    cases vs with
    | nil => exact .pure hslots
    | cons v vs =>
      refine .ite (fun _ => ih hvs.tail (hslots.set fun ht => hvs.head ?_)) fun _ => .throw _
      rw [Array.getElem?_toList, hi] at ht
      exact Option.some.inj ht

/-- The arguments of segments are put into the variables that are the parameters of these. -/
theorem yields_bindSegments {vars : Array Ty} {named : Dict Value} {gs : List (String × Segment)}
    (hgs : ∀ g ∈ gs, List.Forall₂ (fun i t => vars[i]? = some t) g.2.offsets g.2.params)
    {slots : List Value} (hslots : Amounts vars.toList slots) :
    Yields (Amounts vars.toList) (bindSegments named gs slots) := by
  induction gs generalizing slots with
  | nil => exact .pure hslots
  | cons g gs ih =>
    obtain ⟨hg, hgs⟩ := List.forall_mem_cons.1 hgs
    have hrest : ∀ args, Yields (Amounts vars.toList) (do
        let args ← ofExcept (checkParams 1 g.2.params args)
        fillSlots g.2.offsets args slots) :=
      fun args => (yields_checkParams 1 g.2.params args).bind fun bound hbound =>
        yields_fillSlots hg hbound.1 hslots
    have hbind : ∀ args, Yields (Amounts vars.toList) (bindSegment g.2 args slots) := fun args =>
      .ite (fun _ => .any_bind hrest) fun _ => hrest args
    unfold bindSegments
    split
    · exact .any_bind fun _ => (hbind _).bind fun slots hslots => ih hgs hslots
    · exact ih hgs hslots

/-- The parameters of segments are variables of their types. -/
theorem placed_of_layout {g : Signature} {f : FuncInfo} {b : Block} (h : g.Layout f b)
    {segments : Dict Segment} (hsegments : f.segments = some segments) :
    ∀ p ∈ segments.toList, List.Forall₂ (fun i t => b.vars[i]? = some t)
    p.2.offsets p.2.params := by
  intro p hp
  have hall := h.segments
  rw [hsegments, Option.getD_some] at hall
  obtain ⟨i, hi, rfl⟩ := List.getElem_of_mem hp
  exact ((List.forall₂_iff_get.1 hall).2 i hi (hall.length_eq ▸ hi)).2.2.2

/-- Filling the variables of a called function with its arguments. -/
theorem yields_bindArgs {id : BlockId} {g : Signature} {f : FuncInfo}
    (hlayout : g.Layout f (c.block id)) (named : Option Value) {args : List Value}
    (hlength : args.length = f.params.length) :
    Yields (Amounts (c.block id).vars.toList) (do
      let args ← ofExcept (checkParams 1 f.params args)
      let slots := args ++ (← defaults ((c.block id).vars.toList.drop args.length))
      match f.segments, named with
      | some segments, some (.map r) =>
        bindSegments ((← MonadState.get).heap.entries r) segments.toList slots
      | _, _ => pure slots) := by
  refine (yields_checkParams 1 f.params args).bind fun bound hbound => ?_
  have hparams : Amounts (c.block id).vars.toList bound :=
    hbound.1.widen hlayout.vars (hbound.2.trans hlength).le
  refine (yields_defaults _).bind fun rest hrest => ?_
  have hslots : Amounts (c.block id).vars.toList (bound ++ rest) := hparams.append hrest
  dsimp only
  split
  · rename_i segments r hsegments
    exact .any_bind fun m => yields_bindSegments (placed_of_layout hlayout hsegments) hslots
  · exact .pure hslots

/-- The variables that a called function starts with suit their types. -/
theorem yields_callSlots {id : BlockId} (hlaid : (c.block id).LaidOut) {count : Option Nat}
    (hcount : count.isSome → ∃ f, (c.block id).func? = some f ∧ f.params ≠ []) :
    Yields (Amounts (c.block id).vars.toList) (callSlots c id count) := by
  refine .ite (fun _ => .throw_bind _) fun _ => ?_
  cases hf : (c.block id).func? with
  | none => exact .throw _
  | some f =>
    obtain ⟨g, hlayout⟩ := hlaid f hf
    refine .any_bind fun named => ?_
    cases count with
    | some n =>
      obtain ⟨f', hf', hparams⟩ := hcount rfl
      cases hf.symm.trans hf'
      exact .any_bind fun args =>
        (yields_variadicArgs hparams args).bind fun _ hlength =>
          yields_bindArgs hlayout named hlength
    | none => exact (yields_takeFixed _).bind fun _ hlength => yields_bindArgs hlayout named hlength

/-! ### What keeps money in its variables -/

/-- Whether a computation keeps money in the variables of type `money`. -/
def Upholds (r : Registry) (x : Exec α) : Prop :=
  ∀ m : Machine, m.HoldsMoney r → (left (x m)).HoldsMoney r

namespace Upholds

variable {x : Exec α} {f : α → Exec β}

theorem of_unmoved (hx : Unmoved x) : Upholds r x := fun m hm => hm.of_fixed (hx m)

theorem throw (e : Stop) : Upholds r (throw e : Exec α) := fun _ hm => hm

/-- What is known of the result of the first part can be used for the second. -/
theorem bind_yields {P : α → Prop} (hx : Upholds r x) (hP : Yields P x)
    (hf : ∀ a, P a → Upholds r (f a)) :
    Upholds r (x >>= f) := by
  intro m hm
  have hleft := hx m hm
  cases hr : x m with
  | error e m' =>
    rw [hr] at hleft
    rw [bind_of_error hr]
    exact hleft
  | ok a m' =>
    rw [hr] at hleft
    rw [bind_of_ok hr]
    exact hf a (hP m a m' hr) m' hleft

theorem bind (hx : Upholds r x) (hf : ∀ a, Upholds r (f a)) : Upholds r (x >>= f) :=
  hx.bind_yields (.of_any x) fun a _ => hf a

theorem get_bind {f : Machine → Exec β} (h : ∀ m, Upholds r (f m)) : Upholds r (get >>= f) :=
  fun m hm => h m m hm

theorem ite {p : Prop} [Decidable p] {y : Exec α} (hx : Upholds r x) (hy : Upholds r y) :
    Upholds r (if p then x else y) := by
  split
  · exact hx
  · exact hy

end Upholds

/-! ### Starting blocks and contracts -/

/-- A block starts with money in its variables of type `money` if what it is given suits them. -/
theorem upholds_enterBlock {id : BlockId} {given : List Value}
    (hgiven : Amounts (c.block id).vars.toList given) (role : Role) :
    Upholds c.registry (enterBlock c id given role) := by
  refine .ite (.throw _) fun m hm => List.forall_mem_cons.2 ⟨?_, hm⟩
  show Amounts _ (given ++ (m.heap.defaults _).1).toArray.toList
  rw [List.toList_toArray]
  exact hgiven.append (m.heap.amounts_defaults _)

/-- A call gives the function amounts in its variables of type `money`, if its parameters are laid
out as its header says. -/
theorem upholds_callFunc {id : BlockId} (hlaid : (c.block id).LaidOut) {count : Option Nat}
    (hcount : count.isSome → ∃ f, (c.block id).func? = some f ∧ f.params ≠ []) :
    Upholds c.registry (callFunc c id count) := by
  rw [callFunc_eq]
  refine .bind_yields (.of_unmoved (unmoved_callSlots c id count)) (yields_callSlots hlaid hcount)
    fun slots hslots => ?_
  refine .bind (.of_unmoved (unmoved_pay c _)) fun _ =>
    .bind (.of_unmoved (unmoved_checkDepth c)) fun _ => ?_
  exact upholds_enterBlock hslots .call

/-- A block that is started from outside, or as a section, is a function or is given nothing. -/
theorem upholds_start {id : BlockId} (hlaid : (c.block id).LaidOut) {params : List Value}
    (hparams : (c.block id).func? ≠ none ∨ params = []) (role : Role) :
    Upholds c.registry (start c id params role) := by
  refine .ite (.throw _) ?_
  cases hf : (c.block id).func? with
  | none =>
    obtain rfl := hparams.resolve_left fun h => h hf
    exact upholds_enterBlock (.nil _) role
  | some f =>
    obtain ⟨g, hlayout⟩ := hlaid f hf
    -- The checked arguments have the types of the parameters, which come first among the variables.
    have hrest : ∀ args : List Value, args.length = f.params.length → Upholds c.registry (do
        let args ← ofExcept (checkParams 1 f.params args)
        enterBlock c id args role) := fun args hlength =>
      .bind_yields (.of_unmoved (.ofExcept _)) (yields_checkParams 1 f.params args)
        fun bound hbound =>
        upholds_enterBlock (hbound.1.widen hlayout.vars (hbound.2.trans hlength).le) role
    by_cases hvariadic : f.variadic = true
    · dsimp only
      rw [if_pos hvariadic]
      exact .bind_yields (.of_unmoved (unmoved_variadicArgs c f params))
        (yields_variadicArgs (hlaid.params_ne_nil hf hvariadic) params) hrest
    · dsimp only
      rw [if_neg hvariadic]
      split
      · exact hrest params ‹_›
      · exact .throw _

theorem upholds_callContract (c : Context) (name names : String) (values : List Value)
    (via : Option Extension) : Upholds c.registry (callContract c name names values via) := by
  rw [callContract_eq]
  refine .bind (.of_unmoved (unmoved_contractParams c _)) fun p => ?_
  refine .bind (.of_unmoved (unmoved_pay c _)) fun _ m hm => ?_
  exact List.forall_mem_cons.2 ⟨trivial, hm⟩

/-- Extensions touch no variables, be they host functions or calls of contracts. -/
theorem upholds_behave (c : Context) (e : Extension) (args : List Value) :
    Upholds c.registry (behave c e args) := by
  unfold behave
  split
  · refine .bind (.of_unmoved (.modifyGet fun _ => rfl)) fun reply => ?_
    cases reply with
    | values vs =>
      exact .bind (.of_unmoved (unmoved_deliver c e vs)) fun _ => .of_unmoved unmoved_advance
    | fault f => exact .throw _
    | crash => exact .throw _
  · exact .get_bind fun _ => upholds_callContract c _ _ _ (some e)
  · exact .get_bind fun _ => .bind (.of_unmoved (.ofExcept _)) fun _ =>
      upholds_callContract c _ _ _ (some e)

theorem upholds_callExtension (c : Context) (e : Extension) (count : Option Nat) :
    Upholds c.registry (callExtension c e count) := by
  rw [callExtension_eq, extensionArgs_eq]
  simp only [bind_assoc, pure_bind]
  refine .bind (.of_unmoved (unmoved_extensionParams c e count)) fun args => ?_
  refine .bind (.of_unmoved (unmoved_pay c _)) fun _ =>
    .bind (.of_unmoved (unmoved_checkDepth c)) fun _ => ?_
  exact upholds_behave c e args

/-! ### Assignments -/

/-- What is assigned to a variable is of its type if that is `money`. -/
theorem upholds_assignVar (c : Context) (v : VarRef) (x : Value) :
    Upholds c.registry (assignVar c v x) := by
  refine .bind (.of_unmoved (unmoved_readVar v)) fun old => ?_
  refine .bind_yields (P := fun y => (c.block v.owner).vars[v.index]? = some .money →
    ∃ z, y = .money z)
    (.of_unmoved (.ofExcept _)) (.ofExcept fun y hy ht => ?_) fun y hy m hm =>
    Frame.holdsMoney_setSlot hy hm
  rw [ht, Ty.convert_money] at hy
  cases hx : x.toMoney with
  | error f =>
    rw [hx] at hy
    cases hy
  | ok z =>
    rw [hx] at hy
    cases hy
    exact ⟨z, rfl⟩

/-- Each assignment converts its value to what the variable is declared as. -/
theorem upholds_assignAll (c : Context) (ts : List Target) (xs : List Value) :
    Upholds c.registry (assignAll c ts xs) := by
  fun_induction assignAll c ts xs with
  | case1 t ts x xs ih =>
    refine .bind ?_ fun _ => ih
    cases t with
    | var v => exact upholds_assignVar c v x
    | extend name =>
      refine .of_unmoved (.get_bind fun m => ?_)
      split
      · exact .ite (.fail_bind _) (.modify fun _ => rfl)
      · exact .modify fun _ => rfl
  | case2 => exact .of_unmoved (.pure _)

/-! ### Steps -/

/-- A block that is left takes its variables with it. -/
theorem upholds_leave (c : Context) (status : Status) : Upholds c.registry (leave c status) := by
  intro m hm
  rcases hframes : m.frames with _ | ⟨a | k, rest⟩
  · rw [leave_of_nil c status hframes]
    exact hm
  · rw [leave_eq c status hframes]
    have hrest : (dropBlock a rest m).HoldsMoney c.registry := hm.tail hframes
    exact hrest.of_fixed (unmoved_behindBlock c a status _)
  · rw [leave_of_contract c status hframes]
    exact hm

section

variable (hlaid : ∀ id, (c.block id).LaidOut)
include hlaid

theorem upholds_call (f : Callee) {count : Option Nat}
    (hcount : ∀ id, f = .func id → count.isSome → ∃ i, (c.block id).func? = some i ∧
      i.params ≠ []) :
    Upholds c.registry (call c f count) := by
  cases f with
  | func id => exact upholds_callFunc (hlaid id) (hcount id rfl)
  | ext e => exact upholds_callExtension c e count

/-- An instruction keeps money in variables if it counts arguments for a function with parameters
only. -/
theorem upholds_perform {op : Op}
    (hop : ∀ id, op.counts? = some id → ∃ f, (c.block id).func? = some f ∧ f.params ≠ []) :
    Upholds c.registry (perform c op) := by
  -- What only moves operands and counters of the innermost block writes no variable.
  have hpop : Upholds c.registry pop := .of_unmoved (unmoved_pop c)
  have hcount : Upholds c.registry popCount := .of_unmoved (unmoved_popCount c)
  have hadvance : Upholds c.registry advance := .of_unmoved unmoved_advance
  have htop : ∀ {f : Activation → Activation}, (∀ a, (Frame.block (f a)).fixed
    = (Frame.block a).fixed) →
      Upholds c.registry (modifyTop f) := fun hf => .of_unmoved (unmoved_modifyTop hf)
  have hbody : ∀ (body : BlockId) (role : Role), Upholds c.registry (enterBlock c body [] role) :=
    fun _ role => upholds_enterBlock (.nil _) role
  cases op with
  | callExtend name =>
    refine .bind hcount fun count => ?_
    split
    · exact upholds_callExtension c _ _
    · exact .throw _
  | call f => exact upholds_call hlaid f nofun
  | callVariadic f =>
    refine .bind hcount fun count => upholds_call hlaid f fun id hf _ => hop id ?_
    rw [hf]
    rfl
  | «return» | «continue» | «break» => exact upholds_leave c _
  | «if» body =>
    refine .bind hpop fun v => .get_bind fun m => .bind (htop fun _ => rfl) fun _ => ?_
    exact .ite (hbody body .branch) hadvance
  | «else» body =>
    refine .get_bind fun m => ?_
    split
    · exact .ite hadvance (hbody body .branch)
    · exact .of_unmoved (.pure _)
  | «while» body =>
    exact .bind hpop fun v => .get_bind fun m => .ite (hbody body .loop) (htop fun _ => rfl)
  | assignVar ts => exact htop fun _ => rfl
  | assign =>
    refine .get_bind fun m => ?_
    split
    · refine .bind (htop fun _ => rfl) fun _ => .bind (.of_unmoved (unmoved_popN c _))
        fun values => ?_
      exact .bind (upholds_assignAll c _ values) fun _ => hadvance
    · exact .of_unmoved (.pure _)
  | push | var | extendVar | label | error | funcName | unwrapArr | mapInit | arrayInit | index
  | setIndex | unary | binary => exact .of_unmoved (unmoved_perform c rfl)

/-- A contract goes on with a section, which is given nothing, or ends. -/
theorem upholds_resume {k : ContractCall} {rest : List Frame}
    (hframes : m.frames = .contract k :: rest) (hm : m.HoldsMoney c.registry) :
    (left (resume c k rest m)).HoldsMoney c.registry := by
  have hrest := hm.tail hframes
  cases hsections : k.sections with
  | cons s ss =>
    rw [resume_cons c rest m hsections]
    exact upholds_start (hlaid s) (.inr rfl) .section _ (List.forall_mem_cons.2 ⟨trivial, hrest⟩)
  | nil =>
    rw [resume_nil c rest m hsections]
    have hfinished : (finished k rest m).HoldsMoney c.registry := hrest
    exact hfinished.of_fixed (unmoved_behindContract c k _ _)

/-- **A step keeps money in the variables of type `money`.** -/
theorem upholds_step (hcounted : ∀ b, ∀ op ∈ (c.block b).ops, ∀ id, op.counts? = some id →
    ∃ f, (c.block id).func? = some f ∧ f.params ≠ []) : Upholds c.registry (step c) := by
  intro m hm
  cases ahead c m with
  | done _ hstep =>
    rw [hstep]
    exact hm
  | resumes k rest hframes hstep =>
    rw [hstep]
    exact upholds_resume hlaid hframes hm
  | leaves a rest status _ _ hstep =>
    rw [hstep]
    exact upholds_leave c status m hm
  | runs a rest i _ _ hcode hstep =>
    rw [hstep]
    have hi : i.op ∈ (c.block a.block).ops :=
      List.mem_map_of_mem (Array.mem_toList_iff.2 (Array.mem_of_getElem? hcode))
    have htick : Upholds c.registry (tick c) := .of_unmoved (unmoved_tick c)
    exact (htick.bind fun _ => upholds_perform hlaid (hcounted _ _ hi)) m hm

end

/-! ### Assignments that fail -/

/-- Assigning to other targets leaves the value of a variable. -/
theorem preserves_slot_assignAll {v : VarRef} {ts : List Target}
    (hts : .var v ∉ ts) (xs : List Value) :
    Preserves (fun m => Frame.slot? v m.frames) (assignAll c ts xs) := by
  fun_induction assignAll c ts xs with
  | case1 t ts x xs ih =>
    obtain ⟨ht, hts⟩ := not_or.1 (mt List.mem_cons.2 hts)
    refine .bind ?_ fun _ => ih hts
    cases t with
    | var u =>
      have hne : v ≠ u := fun h => ht (congrArg Target.var h)
      exact .bind (preserves_readVar u) fun _ => .bind (.ofExcept _) fun _ =>
        .modify fun m => Frame.slot?_setSlot_ne hne _ m.frames
    | extend name =>
      refine .get_bind fun m => ?_
      split
      · exact .ite (.fail_bind _) (.modify fun _ => rfl)
      · exact .modify fun _ => rfl
  | case2 => exact .pure _

/-- Several assignments can be made in two parts. -/
theorem assignAll_append {ts us : List Target} {xs ys : List Value}
    (hlength : xs.length = ts.length) :
    assignAll c (ts ++ us) (xs ++ ys) = (do assignAll c ts xs; assignAll c us ys) := by
  induction ts generalizing xs with
  | nil =>
    rw [List.length_nil, List.length_eq_zero_iff] at hlength
    subst hlength
    rfl
  | cons t ts ih =>
    obtain ⟨x, xs, rfl⟩ := List.exists_of_length_succ _ hlength
    rw [List.cons_append, List.cons_append, assignAll, assignAll,
      ih (Nat.succ.inj hlength), bind_assoc]

/-- An assignment to a variable of type `money` fails if the value is nothing that can be converted,
and changes nothing. -/
theorem assignVar_refuses {v : VarRef} {x : Value} {f : Fault}
    (hv : (c.block v.owner).vars[v.index]? = some .money)
    (hx : x.toMoney = .error f) (m : Machine) :
    ∃ e, assignVar c v x m = .error (.fault e) m := by
  unfold assignVar
  cases hslot : Frame.slot? v m.frames with
  | none =>
    rw [bind_of_error (readVar_of_none hslot)]
    exact ⟨_, rfl⟩
  | some old =>
    rw [bind_of_ok (readVar_of_some hslot), hv, Ty.convert_money, hx]
    exact ⟨f, rfl⟩

/-- So does an assignment to several targets, and those before it are made. -/
theorem assignAll_refuses {v : VarRef} {x : Value} {f : Fault}
    (hv : (c.block v.owner).vars[v.index]? = some .money) (hx : x.toMoney = .error f)
    {ts us : List Target} {xs ys : List Value} (hlength : xs.length = ts.length) (m : Machine) :
    ∃ e, assignAll c (ts ++ .var v :: us) (xs ++ x :: ys) m
      = .error e (left (assignAll c ts xs m)) := by
  rw [assignAll_append hlength]
  cases hr : assignAll c ts xs m with
  | error e m₁ => exact ⟨e, bind_of_error hr⟩
  | ok _ m₁ =>
    obtain ⟨e, he⟩ := assignVar_refuses hv hx m₁
    rw [bind_of_ok hr]
    exact ⟨.fault e, bind_of_error he⟩

end Exec

open Exec

/-- Whether the next instruction of a machine assigns a value to a variable, when it has assigned to
some targets before. -/
def Machine.AboutToAssign (c : Context) (m : Machine) (before : List Target)
    (v : VarRef) (x : Value) : Prop :=
  nextOp? c m = some .assign ∧ ∃ a rest us below xs ys, m.frames = .block a :: rest ∧
    a.targets = before ++ .var v :: us ∧ m.stack = below ++ (xs ++ x :: ys).toArray ∧
    xs.length = before.length ∧ ys.length = us.length

/-- A step that assigns a value to a variable of type `money` fails if the value is nothing that can
be converted, and leaves the variable as it was. -/
theorem Machine.AboutToAssign.refuses {c : Context} {m : Machine} {before : List Target}
    {v : VarRef} {x : Value} {f : Fault} (h : m.AboutToAssign c before v x)
    (hv : (c.block v.owner).vars[v.index]? = some .money) (hx : x.toMoney = .error f) :
    ∃ e m', step c m = .error e m' ∧
      (.var v ∉ before → Frame.slot? v m'.frames = Frame.slot? v m.frames) := by
  obtain ⟨hop, a, rest, us, below, xs, ys, hframes, htargets, hstack, hxs, hys⟩ := h
  have hslot := (unmoved_tick c).slot? v m
  rw [(step_of_nextOp? hop).1]
  cases htick : tick c m with
  | error e m₁ =>
    rw [htick] at hslot
    exact ⟨e, m₁, bind_of_error htick, fun _ => hslot⟩
  | ok _ m₁ =>
    have hstack₁ : m₁.stack = m.stack := by rw [machine_of_tick htick]
    have hframes₁ : m₁.frames = .block a :: rest := (frames_of_tick htick).trans hframes
    have hlength : (before ++ Target.var v :: us).length = (xs ++ x :: ys).length := by
      rw [List.length_append, List.length_append, List.length_cons, List.length_cons, hxs, hys]
    rw [bind_of_ok htick, perform_assign hframes₁, htargets, hlength]
    -- The machine behind the targets: they are taken off before the values.
    let m₂ : Machine := { m₁ with frames := .block { a with targets := [] } :: rest }
    have hpop : popN (xs ++ x :: ys).length m₂ = .ok (xs ++ x :: ys) { m₂ with stack := below } :=
      popN_append (hstack₁.trans hstack)
    rw [bind_of_ok (modifyTop_eq hframes₁), bind_of_ok hpop]
    obtain ⟨e, he⟩ := assignAll_refuses hv hx hxs { m₂ with stack := below }
    refine ⟨e, _, bind_of_error he, fun hbefore => ?_⟩
    rw [hframes]
    exact preserves_slot_assignAll hbefore xs _

/-! ### Runs -/

section

variable {c : Context} {l : Launch} {m₀ m : Machine} {q : Option Request}
  {r : EStateM.Result Stop Machine Unit}

/-- In a run that is started with a function or a contract, variables of type `money` hold money. -/
theorem Transition.holdsMoney (hlaid : ∀ id, (c.block id).LaidOut)
    (hcounted : ∀ b, ∀ op ∈ (c.block b).ops, ∀ id, op.counts? = some id →
      ∃ f, (c.block id).func? = some f ∧ f.params ≠ [])
    (hl : ∀ id params, l = .func id params → (c.block id).func? ≠ none)
      (hm₀ : m₀.HoldsMoney c.registry)
    (h : Transition c l m₀ m q r) : (left r).HoldsMoney c.registry := by
  induction h with
  | start =>
    cases l with
    | func id params => exact upholds_start (hlaid id) (.inl (hl id params rfl)) .entry m₀ hm₀
    | contract state name params => exact upholds_callContract c _ _ _ none m₀ hm₀
  | step _ _ ih => exact upholds_step hlaid hcounted _ ih

end

namespace Launch

variable {s : Session} {l : Launch} {allowance : Option Nat} {clock : Nat → Nat} {m₀ m : Machine}
  {q : Option Request} {r : EStateM.Result Stop Machine Unit}

/-- **Variables of type `money` hold money.** Whatever a host has compiled, in every machine that
comes up in a run that is started with a function or with a contract, each variable of a running
block that is declared as `money` has a value, and this is money. To assign a value to such a
variable that cannot be converted fails and changes nothing, and so does a step that makes such an
assignment: it leaves the variable as it was, unless the same instruction has assigned to it
before. -/
theorem money_variables_hold_money (hs : s.Reachable)
    (hl : ∀ id params, l = func id params → (s.registry.block id).func? ≠ none)
    (hm₀ : m₀.frames = []) (h : Transition (s.context allowance clock) l m₀ m q r) :
    (∀ a, .block a ∈ (left r).frames →
      ∀ i : Nat, (s.registry.block a.block).vars[i]? = some .money →
        ∃ x, a.slots[i]? = some (.money x)) ∧
    ∀ v x f, (s.registry.block v.owner).vars[v.index]? = some .money → x.toMoney = .error f →
      (∀ m₁, ∃ e, assignVar (s.context allowance clock) v x m₁ = .error (.fault e) m₁) ∧
      ∀ m₁ before, m₁.AboutToAssign (s.context allowance clock) before v x →
        ∃ e m₂, Exec.step (s.context allowance clock) m₁ = .error e m₂ ∧
          (.var v ∉ before → Frame.slot? v m₂.frames = Frame.slot? v m₁.frames) := by
  have hnone : ∀ {P : Frame → Prop}, ∀ f ∈ m₀.frames, P f := by
    intro P f hf
    rw [hm₀] at hf
    exact absurd hf List.not_mem_nil
  have hholds : (left r).HoldsMoney s.registry :=
    h.holdsMoney (c := s.context allowance clock) hs.laidOut
    (fun b op hop id hid => hs.counted hop hid) hl hnone
  have hfilled := h.filled (c := s.context allowance clock) hnone
  refine ⟨fun a ha i hi => ?_, fun v x f hv hx => ⟨fun m₁ => ?_, fun m₁ before hassigns => ?_⟩⟩
  · -- A block's frame has a slot for each of its variables, so `i` is a slot of `a`.
    have hsize : (s.registry.block a.block).vars.size ≤ a.slots.size := hfilled _ ha
    have hlt : i < a.slots.size := (Array.getElem?_eq_some_iff.1 hi).1.trans_le hsize
    rw [← Array.getElem?_toList] at hi
    obtain ⟨x, hx⟩ := hholds _ ha i a.slots[i] hi (by
      rw [Array.getElem?_toList, Array.getElem?_eq_getElem hlt])
    exact ⟨x, by rw [Array.getElem?_eq_getElem hlt, hx]⟩
  · exact assignVar_refuses hv hx m₁
  · exact hassigns.refuses hv hx

/-- The variable and the value of an assignment to nothing else that is the next instruction. -/
def soleAssignment? (c : Context) (m : Machine) : Option (VarRef × Value) :=
  match nextOp? c m, m.frames, m.stack.back? with
  | some .assign, .block a :: _, some x =>
    match a.targets with
    | [.var v] => some (v, x)
    | _ => none
  | _, _, _ => none

/-- The check finds assignments to a single variable. -/
theorem aboutToAssign_of_soleAssignment? {c : Context} {v : VarRef} {x : Value}
    (h : soleAssignment? c m = some (v, x)) : m.AboutToAssign c [] v x := by
  unfold soleAssignment? at h
  split at h
  · rename_i a rest y hop hframes hback
    split at h
    · rename_i htargets
      cases h
      obtain ⟨below, hstack⟩ := Array.back?_eq_some_iff.1 hback
      exact ⟨hop, a, rest, [], below, [], [], hframes, htargets, by rw [hstack]; rfl, rfl, rfl⟩
    · cases h
  · cases h

/-- The running block, unless the innermost frame is that of a called contract. -/
def innermost? (m : Machine) : Option Activation :=
  match m.frames with
  | .block a :: _ => some a
  | _ => none

theorem frames_of_innermost? {a : Activation} (h : innermost? m = some a) :
    ∃ rest, m.frames = .block a :: rest := by
  unfold innermost? at h
  split at h
  · cases h
    exact ⟨_, ‹_›⟩
  · cases h

/-- A function with a parameter, a parameter of a segment and a variable of its own, which are all
of type `money`; it assigns to the last one first an amount and then a text that is none. -/
def tipping : Session := callingSession
  ("func pay(base money).Tip(extra money) money \x7b var own money\n" ++
    " own = base\n own = \"little\"\n" ++
    "return own \x7d\nfunc main() money \x7b var m money\n m = 5\n return pay(m).Tip(m) \x7d")

/-- All three variables hold money when the second assignment is to be made, and the last one goes
on to do so when that fails. -/
theorem money_variables_hold_money_tipping : ∃ m q m' a rest x,
    Transition (tipping.context none fun _ => 0) (func 2 []) emptyMachine m q (.ok () m') ∧
      m'.frames = .block a :: rest ∧ (∀ i < 3, ∃ y, a.slots[i]? = some (.money y)) ∧
      m'.AboutToAssign (tipping.context none fun _ => 0) [] ⟨1, 2⟩ x ∧
      ∃ e m'', Exec.step (tipping.context none fun _ => 0) m' = .error e m'' ∧
        Frame.slot? ⟨1, 2⟩ m''.frames = Frame.slot? ⟨1, 2⟩ m'.frames := by
  obtain ⟨hfunc, hvars, hsteps⟩ : (tipping.registry.block 2).func?.isSome = true ∧
      (tipping.registry.block 1).vars = #[.money, .money, .money] ∧
      ((func 2 []).machineAfter (tipping.context none fun _ => 0) 13 emptyMachine).any
        (fun m => (innermost? m).any (fun a => a.block == 1) &&
          (soleAssignment? (tipping.context none fun _ => 0) m).any fun p =>
            p.1 = ⟨1, 2⟩ && !p.2.toMoney.isOk) = true := by
    simp only [tipping, callingSession, Session.perform_compile, String.toList_append,
      String.reduceToList]
    decide +kernel
  obtain ⟨m, q, m', htrans, hm'⟩ := machineAfter_sound hsteps
  obtain ⟨htop, hnext⟩ := Bool.and_eq_true_iff.1 hm'
  obtain ⟨⟨v, x⟩, hassignment, hp⟩ := (Option.any_eq_true _ _).1 hnext
  obtain ⟨hv, hx⟩ := Bool.and_eq_true_iff.1 hp
  obtain rfl : v = ⟨1, 2⟩ := of_decide_eq_true hv
  obtain ⟨f, hf⟩ : ∃ f, x.toMoney = .error f := by
    cases hmoney : x.toMoney with
    | error f => exact ⟨f, rfl⟩
    | ok y =>
      rw [hmoney] at hx
      cases hx
  have hreachable : tipping.Reachable := reachable_callingSession _
  obtain ⟨hholds, hrefuses⟩ := money_variables_hold_money hreachable (l := func 2 [])
    (fun id params h => by cases h; exact Option.isSome_iff_ne_none.1 hfunc) rfl htrans
  have hassigns := aboutToAssign_of_soleAssignment? hassignment
  -- The tests say that the third of the `money` variables is about to get a value that is none.
  have hmoney : ∀ b, b = 1 → ∀ i < 3, (tipping.registry.block b).vars[i]? = some .money := by
    rintro b rfl
    rw [hvars]
    decide
  obtain ⟨a, ha, hblock⟩ := (Option.any_eq_true _ _).1 htop
  obtain ⟨rest, hframes⟩ := frames_of_innermost? ha
  obtain ⟨e, m'', hstep, hslot⟩ :=
    (hrefuses ⟨1, 2⟩ x f (hmoney _ rfl _ (by decide)) hf).2 m' [] hassigns
  refine ⟨m, q, m', a, rest, x, htrans, hframes, fun i hi => hholds a ?_ i ?_,
    hassigns, e, m'', hstep, hslot List.not_mem_nil⟩
  · exact hframes ▸ List.mem_cons_self ..
  · exact hmoney _ (beq_iff_eq.1 hblock) i hi

end Launch

end Covenant
