import Covenant.Proofs.Machine.Steps

/-!
# Finding variables

A variable is looked up by its block: the innermost activation of that block has the value, and an
assignment changes it there and nowhere else (`Frame.slot?_of_innermost`,
`Frame.setSlot_of_active`). The only instructions that look variables up are those that read one,
assign to some, or make an array or map of the elements of a literal. If such an instruction fails
because a variable is unknown, then it is one that the instruction names, and no value was there for
it before (`Exec.unknown_of_step`).
-/

namespace Covenant

open Covenant.Computation

/-! ### Active blocks -/

namespace Frame

variable {b : BlockId} {a : Activation} {k : ContractCall} {f : Frame} {fs above below : List Frame}
  {u v : VarRef} {x y : Value}

/-- Whether a block is active among some frames. -/
def Active (b : BlockId) (fs : List Frame) : Prop := ∃ a : Activation, .block a ∈ fs ∧ a.block = b

theorem not_active_nil : ¬ Active b [] := by
  rintro ⟨a, ha, -⟩
  exact absurd ha List.not_mem_nil

/-- A block is active if it is the innermost one or active below it. -/
theorem active_block : Active b (.block a :: fs) ↔ a.block = b ∨ Active b fs := by
  constructor
  · rintro ⟨a', ha', hb⟩
    rcases List.mem_cons.1 ha' with heq | ha'
    · cases heq
      exact .inl hb
    · exact .inr ⟨a', ha', hb⟩
  · rintro (hb | ⟨a', ha', hb⟩)
    · exact ⟨a, List.mem_cons_self .., hb⟩
    · exact ⟨a', List.mem_cons_of_mem _ ha', hb⟩

theorem active_contract : Active b (.contract k :: fs) ↔ Active b fs := by
  constructor
  · rintro ⟨a', ha', hb⟩
    exact ⟨a', (List.mem_cons.1 ha').resolve_left nofun, hb⟩
  · rintro ⟨a', ha', hb⟩
    exact ⟨a', List.mem_cons_of_mem _ ha', hb⟩

theorem active_append : Active b (above ++ below) ↔ Active b above ∨ Active b below := by
  constructor
  · rintro ⟨a, ha, hb⟩
    exact (List.mem_append.1 ha).imp (fun ha => ⟨a, ha, hb⟩) fun ha => ⟨a, ha, hb⟩
  · rintro (⟨a, ha, hb⟩ | ⟨a, ha, hb⟩)
    · exact ⟨a, List.mem_append_left _ ha, hb⟩
    · exact ⟨a, List.mem_append_right _ ha, hb⟩

/-- Which blocks are active does not depend on their values. -/
theorem active_bare : Active b (fs.map Frame.bare) ↔ Active b fs := by
  induction fs with
  | nil => exact Iff.rfl
  | cons f fs ih =>
    cases f with
    | block a =>
      rw [List.map_cons, Frame.bare, active_block, active_block, ih]
      exact Iff.rfl
    | contract k => exact active_contract.trans (ih.trans active_contract.symm)

/-- An active block has an innermost activation. -/
theorem Active.innermost (h : Active b fs) : ∃ above a below,
    fs = above ++ .block a :: below ∧ a.block = b ∧ ¬ Active b above := by
  induction fs with
  | nil => exact absurd h not_active_nil
  | cons f fs ih =>
    have hinside : (∀ hf : Active b [f], False) → Active b fs → ∃ above a below,
        f :: fs = above ++ .block a :: below ∧ a.block = b ∧ ¬ Active b above := by
      intro hf hfs
      obtain ⟨above, a, below, heq, hb, hnot⟩ := ih hfs
      refine ⟨f :: above, a, below, congrArg (f :: ·) heq, hb, fun hactive => ?_⟩
      have hsplit : Active b ([f] ++ above) := hactive
      exact (active_append.1 hsplit).elim hf hnot
    cases f with
    | block a =>
      by_cases ha : a.block = b
      · exact ⟨[], a, fs, rfl, ha, not_active_nil⟩
      · refine hinside (fun hf => ?_) ((active_block.1 h).resolve_left ha)
        exact (active_block.1 hf).elim ha not_active_nil
    | contract k =>
      exact hinside (fun hf => not_active_nil (active_contract.1 hf)) (active_contract.1 h)

/-! ### Values and assignments -/

/-- The value of a variable is in the innermost activation of its block. -/
theorem slot?_of_innermost (hnot : ¬ Active v.owner above) (ha : a.block = v.owner) :
    slot? v (above ++ .block a :: below) = a.slots[v.index]? := by
  induction above with
  | nil =>
    rw [List.nil_append, slot?, if_pos (beq_iff_eq.2 ha)]
  | cons f fs ih =>
    cases f with
    | block a' =>
      rw [active_block, not_or] at hnot
      rw [List.cons_append, slot?, if_neg (by simpa using hnot.1), ih hnot.2]
    | contract k =>
      rw [active_contract] at hnot
      rw [List.cons_append, slot?, ih hnot]

/-- Only the variables of active blocks have values. -/
theorem active_of_slot? (h : slot? v fs = some x) : Active v.owner fs := by
  induction fs with
  | nil => cases h
  | cons f fs ih =>
    cases f with
    | block a =>
      rw [slot?] at h
      split at h
      · rename_i ha
        exact active_block.2 (.inl (beq_iff_eq.1 ha))
      · exact active_block.2 (.inr (ih h))
    | contract k => exact active_contract.2 (ih h)

theorem slot?_fixed : slot? v (fs.map Frame.fixed) = slot? v fs := by
  induction fs with
  | nil => rfl
  | cons f fs ih =>
    cases f with
    | block a => exact ite_congr rfl (fun _ => rfl) fun _ => ih
    | contract k => exact ih

/-- An assignment to a variable of a block that is active above some frames leaves those. -/
theorem setSlot_of_active (h : Active v.owner above) :
    setSlot v x (above ++ below) = setSlot v x above ++ below := by
  induction above with
  | nil => exact absurd h not_active_nil
  | cons f fs ih =>
    cases f with
    | block a =>
      rw [List.cons_append, setSlot, setSlot]
      split
      · rfl
      · rename_i ha
        rw [ih ((active_block.1 h).resolve_left (by simpa using ha))]
        rfl
    | contract k => exact congrArg (_ :: ·) (ih (active_contract.1 h))

/-- An assignment to a variable of a block that is not active above some frames changes only
those. -/
theorem setSlot_of_not_active (h : ¬ Active v.owner above) :
    setSlot v x (above ++ below) = above ++ setSlot v x below := by
  induction above with
  | nil => rfl
  | cons f fs ih =>
    cases f with
    | block a =>
      rw [active_block, not_or] at h
      rw [List.cons_append, setSlot, if_neg (by simpa using h.1), ih h.2]
      rfl
    | contract k =>
      rw [active_contract] at h
      exact congrArg (_ :: ·) (ih h)

/-- An assignment gives no variable a value that has none, and takes none away. -/
theorem slot?_setSlot_eq_none : slot? v (setSlot u x fs) = none ↔ slot? v fs = none := by
  induction fs with
  | nil => exact Iff.rfl
  | cons f fs ih =>
    cases f with
    | block a =>
      rw [setSlot]
      split
      · rw [slot?, slot?]
        split
        · rw [Array.getElem?_eq_none_iff, Array.getElem?_eq_none_iff, Array.size_setIfInBounds]
        · exact Iff.rfl
      · rw [slot?, slot?]
        split
        · exact Iff.rfl
        · exact ih
    | contract k => exact ih

end Frame

/-! ### What names a variable -/

/-- Whether a fault says that a variable is unknown. -/
def Fault.unknown : Fault → Bool
  | .unknownVariable _ => true
  | _ => false

/-- Whether an instruction does nothing but look variables up, apart from changing operands and
variables. -/
def Op.looksUp : Op → Bool
  | .var _ | .assign | .mapInit _ | .arrayInit _ => true
  | _ => false

/-- Whether the next instruction reads a variable or assigns to it. -/
inductive Machine.Uses (c : Context) (m : Machine) (v : VarRef) : Prop
  | reads (op : Op) : Exec.nextOp? c m = some op → v ∈ op.vars → Uses c m v
  | assigns (a : Activation) (rest : List Frame) : Exec.nextOp? c m = some .assign →
      m.frames = .block a :: rest → .var v ∈ a.targets → Uses c m v

namespace Exec

variable {α β : Type} {c : Context} {m m' : Machine} {p : VarRef → Prop}

/-- Whether a computation leaves the same variables without values, and fails because a variable is
unknown only if some variable that is looked up has no value. -/
def Finds (p : VarRef → Prop) (x : Exec α) : Prop := ∀ m,
  (∀ v, Frame.slot? v (left (x m)).frames = none ↔ Frame.slot? v m.frames = none) ∧
    ∀ n m', x m = .error (.fault (.unknownVariable n)) m' → ∃ v, p v ∧ Frame.slot? v m.frames = none

namespace Finds

variable {x : Exec α} {f : α → Exec β}

theorem pure (a : α) : Finds p (pure a : Exec α) := fun _ => ⟨fun _ => Iff.rfl, nofun⟩

theorem fail (e : Fault) (he : e.unknown = false) : Finds p (Exec.fail e : Exec α) := by
  refine fun m => ⟨fun _ => Iff.rfl, fun n m' h => ?_⟩
  cases h
  cases he

theorem fail_bind (e : Fault) (he : e.unknown = false) :
    Finds p ((Exec.fail e : Exec α) >>= f) := by
  refine fun m => ⟨fun _ => Iff.rfl, fun n m' h => ?_⟩
  cases h
  cases he

theorem overflow_bind : Finds p ((throw .overflow : Exec α) >>= f) :=
  fun _ => ⟨fun _ => Iff.rfl, fun _ _ h => by cases h⟩

/-- Two parts find their variables if each of them does. -/
theorem bind (hx : Finds p x) (hf : ∀ a, Finds p (f a)) : Finds p (x >>= f) := by
  intro m
  obtain ⟨hkept, hfails⟩ := hx m
  cases hr : x m with
  | error e m₁ =>
    rw [hr] at hkept
    rw [bind_of_error hr]
    refine ⟨hkept, fun n m' h => hfails n m' ?_⟩
    rw [hr]
    cases h
    rfl
  | ok a m₁ =>
    rw [hr] at hkept
    rw [bind_of_ok hr]
    obtain ⟨hkept', hfails'⟩ := hf a m₁
    refine ⟨fun v => (hkept' v).trans (hkept v), fun n m' h => ?_⟩
    obtain ⟨v, hv, hnone⟩ := hfails' n m' h
    exact ⟨v, hv, (hkept v).1 hnone⟩

theorem get_bind {f : Machine → Exec β} (h : ∀ m, Finds p (f m)) : Finds p (get >>= f) :=
  fun m => h m m

theorem ite {q : Prop} [Decidable q] {y : Exec α} (hx : Finds p x) (hy : Finds p y) :
    Finds p (if q then x else y) := by
  split
  · exact hx
  · exact hy

theorem modify {g : Machine → Machine}
    (h : ∀ m v, Frame.slot? v (g m).frames = none ↔ Frame.slot? v m.frames = none) :
    Finds p (modify g : Exec PUnit) := fun m => ⟨h m, nofun⟩

theorem modifyGet {g : Machine → α × Machine} (h : ∀ m, (g m).2.frames = m.frames) :
    Finds p (modifyGet g : Exec α) := by
  refine fun m => ⟨fun v => ?_, nofun⟩
  show Frame.slot? v (g m).2.frames = none ↔ _
  rw [h]

theorem mono {q : VarRef → Prop} (h : Finds p x) (hpq : ∀ v, p v → q v) : Finds q x := fun m =>
  ⟨(h m).1, fun n m' hx => ((h m).2 n m' hx).imp fun v hv => ⟨hpq v hv.1, hv.2⟩⟩

end Finds

theorem finds_readVar (v : VarRef) (hv : p v) : Finds p (readVar v) := by
  intro m
  cases h : Frame.slot? v m.frames with
  | some x =>
    rw [readVar_of_some h]
    exact ⟨fun _ => Iff.rfl, nofun⟩
  | none =>
    rw [readVar_of_none h]
    exact ⟨fun _ => Iff.rfl, fun _ _ _ => ⟨v, hv, h⟩⟩

theorem finds_push (x : Value) : Finds p (push x) := .modify fun _ _ => Iff.rfl

theorem finds_modifyTop {f : Activation → Activation}
    (hf : ∀ a, (Frame.block (f a)).fixed = (Frame.block a).fixed) : Finds p (modifyTop f) := by
  refine .modify fun m v => ?_
  split
  · rename_i a rest hframes
    rw [hframes, ← Frame.slot?_fixed, List.map_cons, hf, ← List.map_cons, Frame.slot?_fixed]
  · exact Iff.rfl

theorem finds_advance : Finds p advance := finds_modifyTop fun _ => rfl

theorem finds_popN (n : Nat) : Finds p (popN n) := by
  refine .get_bind fun _ => .ite (.fail_bind _ rfl) (.get_bind fun _ => ?_)
  exact .bind (.modify fun _ _ => Iff.rfl) fun _ => .pure _

/-! ### Literals -/

theorem finds_newArray (items : List Value) : Finds p (newArray items) := .modifyGet fun _ => rfl

theorem finds_newMap (entries : List (String × Value)) : Finds p (newMap entries) :=
  .modifyGet fun _ => rfl

theorem finds_readExtend (name : String) : Finds p (readExtend name) := by
  refine .get_bind fun m => ?_
  split
  · exact .pure _
  · exact .fail _ rfl

mutual

theorem finds_item (i : Item) (hi : ∀ v ∈ i.vars, p v) : Finds p (item i) := by
  cases i with
  | const x => exact .pure _
  | var v => exact finds_readVar v (hi v (List.mem_singleton.2 rfl))
  | extend name => exact finds_readExtend name
  | map entries => exact .bind (finds_bindings entries hi) finds_newMap
  | array is => exact .bind (finds_items is hi) finds_newArray

theorem finds_items (is : List Item) (his : ∀ v ∈ Item.varsOfAll is, p v) : Finds p (items is) := by
  cases is with
  | nil => exact .pure _
  | cons i is =>
    refine .bind (finds_item i fun v hv => his v (List.mem_append_left _ hv)) fun x => ?_
    exact .bind (finds_items is fun v hv => his v (List.mem_append_right _ hv)) fun xs => .pure _

theorem finds_bindings (is : List (String × Item)) (his : ∀ v ∈ Item.varsOfEntries is, p v) :
    Finds p (bindings is) := by
  cases is with
  | nil => exact .pure _
  | cons i is =>
    refine .bind (finds_item i.2 fun v hv => his v (List.mem_append_left _ hv)) fun x => ?_
    exact .bind (finds_bindings is fun v hv => his v (List.mem_append_right _ hv)) fun xs => .pure _

end

/-! ### Assignments -/

/-- A value that cannot be brought to the type of a variable is another fault. -/
theorem convert_not_unknown {t : Option Ty} {x : Value} {e : Fault}
    (h : Ty.convert t x = .error e) :
    e.unknown = false := by
  have hmoney : ∀ {e}, x.toMoney = .error e → e.unknown = false := by
    intro e he
    unfold Value.toMoney at he
    repeat' split at he
    all_goals cases he <;> rfl
  unfold Ty.convert at h
  split at h
  · cases h
  · cases hx : x.toMoney with
    | error e =>
      rw [hx] at h
      cases h
      exact hmoney hx
    | ok y =>
      rw [hx] at h
      cases h
  · cases h
  · cases h

theorem finds_assignVar (c : Context) {v : VarRef} (hv : p v) (x : Value) :
    Finds p (assignVar c v x) := by
  refine .bind (finds_readVar v hv) fun old => .bind ?_ fun y => .modify fun m u => ?_
  · cases hx : Ty.convert ((c.block v.owner).vars[v.index]?) x with
    | ok y => exact .pure y
    | error e => exact .fail e (convert_not_unknown hx)
  · exact Frame.slot?_setSlot_eq_none

theorem finds_assignExtend (name : String) (x : Value) : Finds p (assignExtend name x) := by
  have hset : Finds p (modify fun m => { m with env := m.env.insert name x } : Exec PUnit) :=
    .modify fun _ _ => Iff.rfl
  refine .get_bind fun m => ?_
  split
  · exact .ite (.bind (.fail _ rfl) fun _ => hset) hset
  · exact hset

/-- Assignments find their variables if all targets are such. -/
theorem finds_assignAll (c : Context) {ts : List Target} (hts : ∀ v, .var v ∈ ts → p v)
    (xs : List Value) : Finds p (assignAll c ts xs) := by
  fun_induction assignAll c ts xs with
  | case1 t ts x xs ih =>
    refine .bind ?_ fun _ => ih fun v hv => hts v (List.mem_cons_of_mem _ hv)
    cases t with
    | var v => exact finds_assignVar c (hts v (List.mem_cons_self ..)) x
    | extend name => exact finds_assignExtend name x
  | case2 => exact .pure _

/-! ### Instructions -/

theorem finds_charge (n : Int) : Finds p (charge n) :=
  .get_bind fun _ => .ite .overflow_bind (.bind (.modify fun _ _ => Iff.rfl) fun _ =>
    .ite (.fail _ rfl) (.pure _))

theorem finds_tick (c : Context) : Finds p (tick c) := by
  refine .bind (.modify fun _ _ => Iff.rfl) fun _ => .bind (finds_charge 1) fun _ => ?_
  have hmem : Finds p (do if c.limits.maxMem < (← get).mem then fail .memoryLimit : Exec Unit) :=
    .get_bind fun _ => .ite (.fail _ rfl) (.pure _)
  split
  · exact .get_bind fun _ => .ite (.fail_bind _ rfl) hmem
  · exact hmem

/-- The value of a literal is pushed, and the block goes on. -/
theorem finds_pushNext {x : Exec Value} (hx : Finds p x) :
    Finds p (do push (← x); advance : Exec Unit) :=
  .bind hx fun y => .bind (finds_push y) fun _ => finds_advance

/-- An instruction that looks variables up finds those that have values. -/
theorem finds_perform (c : Context) {op : Op} (hop : op.looksUp = true)
    (hreads : ∀ v ∈ op.vars, p v) {a : Activation} {rest : List Frame}
    (hframes : m.frames = .block a :: rest) (hassigns : op = .assign → ∀ v, .var v ∈ a.targets →
    p v) {n : String}
    (h : perform c op m = .error (.fault (.unknownVariable n)) m') :
    ∃ v, p v ∧ Frame.slot? v m.frames = none := by
  cases op with
  | var v =>
    exact (finds_pushNext (finds_readVar v (hreads v (List.mem_singleton.2 rfl))) m).2 n m' h
  | mapInit entries => exact (finds_pushNext (finds_item (.map entries) hreads) m).2 n m' h
  | arrayInit is => exact (finds_pushNext (finds_item (.array is) hreads) m).2 n m' h
  | assign =>
    rw [perform_assign hframes] at h
    have hfinds : Finds p (do
        modifyTop fun a => { a with targets := [] }
        let values ← popN a.targets.length
        assignAll c a.targets values
        advance : Exec Unit) :=
      .bind (finds_modifyTop fun _ => rfl) fun _ => .bind (finds_popN _) fun values =>
        .bind (finds_assignAll c (hassigns rfl) values) fun _ => finds_advance
    exact (hfinds m).2 n m' h
  | _ => cases hop

/-- **An unknown variable is one that the instruction names**, and it had no value before. -/
theorem unknown_of_step {op : Op} (hnext : nextOp? c m = some op)
    (hop : op.looksUp = true) {n : String}
    (h : step c m = .error (.fault (.unknownVariable n)) m') :
    ∃ v, m.Uses c v ∧ Frame.slot? v m.frames = none := by
  obtain ⟨a, rest, -, hframes, -⟩ := nextOp?_eq_some hnext
  rw [(step_of_nextOp? hnext).1] at h
  rcases bind_eq_error h with htick | ⟨u, m₁, htick, h⟩
  · exact (finds_tick c m).2 n m' htick
  · obtain rfl := machine_of_tick htick
    refine finds_perform (m := { m with cost := m.cost - 1, ticks := m.ticks + 1 })
      (p := m.Uses c) c
      hop (fun v hv => .reads op hnext hv) hframes ?_ h
    rintro rfl v hv
    exact .assigns a rest hnext hframes hv

end Exec

end Covenant
