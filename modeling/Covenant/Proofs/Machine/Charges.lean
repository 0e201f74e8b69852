import Covenant.Proofs.Machine.Shifts
import Mathlib.Tactic.Ring

/-!
# What a run is charged

The bill of a run lists what it is charged for, one charge after the other, the one that uses up the
cost included. It is found from the machine before each step: an instruction is charged when it
starts, a call when its arguments have been found and checked, and a query when it has answered.

`Charged` says that a result agrees with a bill: what is left of the cost is what was there less all
that the bill lists, the instructions on the bill are those that were started, and whoever succeeds
after a charge has something left. The counter for the cost overflows if, and only if, the bill has
a charge after which it cannot hold the rest (`Charge.Fits`). The main statement is
`Exec.metered_step`: every step agrees with its bill, if host functions do not touch the cost
themselves.
-/

namespace Covenant

open Covenant.Computation

/-- The charges that a computation attempts in a machine. -/
abbrev Bill := Machine → List Charge

/-- The bill of what comes behind a computation. -/
def Bill.after {α : Type} (x : Exec α) (b : α → Bill) : Bill := fun m =>
  match x m with
  | .ok a m' => b a m'
  | .error _ _ => []

theorem Bill.after_of_ok {α : Type} {x : Exec α} {b : α → Bill} {m m' : Machine} {a : α}
    (h : x m = .ok a m') : Bill.after x b m = b a m' := by
  rw [after, h]

theorem Bill.after_nil {α : Type} (x : Exec α) : (Bill.after x fun _ _ => []) = fun _ => [] := by
  funext m
  unfold Bill.after
  split <;> rfl

namespace Charge

/-- The sum of some charges. -/
def total (limits : Limits) (ks : List Charge) : Int := (ks.map (amount limits)).sum

@[simp] theorem total_nil (limits : Limits) : total limits [] = 0 := rfl

@[simp] theorem total_cons (limits : Limits) (k : Charge) (ks : List Charge) :
    total limits (k :: ks) = k.amount limits + total limits ks := by
  rw [total, List.map_cons, List.sum_cons]
  rfl

@[simp] theorem total_append (limits : Limits) (ks ks' : List Charge) :
    total limits (ks ++ ks') = total limits ks + total limits ks' := by
  rw [total, List.map_append, List.sum_append]
  rfl

/-- Whether the counter for the cost can hold what is left after each of some charges. -/
def Fits (limits : Limits) : Int → List Charge → Prop
  | _, [] => True
  | cost, k :: ks => InCounter (cost - k.amount limits) ∧ Fits limits (cost - k.amount limits) ks

instance decidableFits (limits : Limits) : ∀ cost ks, Decidable (Fits limits cost ks)
  | _, [] => .isTrue trivial
  | cost, k :: ks =>
    have := decidableFits limits (cost - k.amount limits) ks
    inferInstanceAs (Decidable (_ ∧ _))

theorem fits_append {limits : Limits} {cost : Int} {ks ks' : List Charge} :
    Fits limits cost (ks ++ ks') ↔ Fits limits cost ks ∧
    Fits limits (cost - total limits ks) ks' := by
  induction ks generalizing cost with
  | nil => simp [Fits]
  | cons k ks ih =>
    rw [List.cons_append, Fits, Fits, ih, total_cons, and_assoc, Int.sub_sub]

/-- Behind charges that are all attempted and leave something come those that this is enough for. -/
theorem attempted_append {limits : Limits} {cost : Int} {ks ks' : List Charge}
    (h : attempted limits cost ks = ks) (hfits : Fits limits cost ks)
    (hleft : ks = [] ∨ 0 < cost - total limits ks)
    (h' : attempted limits (cost - total limits ks) ks' = ks') :
    attempted limits cost (ks ++ ks') = ks ++ ks' := by
  induction ks generalizing cost with
  | nil => simpa using h'
  | cons k ks ih =>
    rw [total_cons, ← Int.sub_sub] at hleft h'
    rw [attempted, List.cons.injEq] at h
    have hpos := hleft.resolve_left (List.cons_ne_nil _ _)
    rw [List.cons_append, attempted]
    split at h
    · rename_i hpaid
      rw [if_pos hpaid, ih h.2 hfits.2 (.inr hpos) h']
    · rename_i hstop
      rw [← h.2, total_nil, Int.sub_zero] at hpos
      exact absurd ⟨hfits.1, hpos⟩ hstop

/-- **The counter does not overflow** when charges that are not negative are attempted with a cost
that is not negative. -/
theorem fits_of_attempted {limits : Limits} {cost : Int} {ks : List Charge}
    (h : attempted limits cost ks = ks)
    (hks : ∀ k ∈ ks, 0 ≤ k.amount limits ∧ k.amount limits ≤ 9223372036854775807)
    (hcost : 0 ≤ cost ∧ cost ≤ 9223372036854775807) : Fits limits cost ks := by
  induction ks generalizing cost with
  | nil => trivial
  | cons k ks ih =>
    obtain ⟨hk, hrest⟩ := List.forall_mem_cons.1 hks
    rw [attempted, List.cons.injEq] at h
    refine ⟨⟨by omega, by omega⟩, ?_⟩
    split at h
    · exact ih h.2 hrest ⟨by omega, by omega⟩
    · rw [← h.2]
      trivial

end Charge

open Charge

/-- Whether a result agrees with a bill. -/
structure Charged {α : Type} (limits : Limits) (ks : List Charge) (m : Machine)
    (r : EStateM.Result Stop Machine α) : Prop where
  cost : (∀ m', r ≠ .error .overflow m') →
    Fits limits m.cost ks ∧ (Exec.left r).cost = m.cost - total limits ks
  overflow : ∀ m', r = .error .overflow m' → ¬ Fits limits m.cost ks
  /-- The counter holds the cost, whatever happens. -/
  held : InCounter m.cost → InCounter (Exec.left r).cost
  ticks : (Exec.left r).ticks = m.ticks + ks.count .instruction
  /-- Whoever succeeds has paid all charges and has something left. -/
  paid : ∀ a m', r = .ok a m' → ks = [] ∨ 0 < m'.cost
  /-- The bill ends at the charge that uses up the cost. -/
  attempts : attempted limits m.cost ks = ks

namespace Charged

variable {α : Type} {limits : Limits} {ks : List Charge} {m m₁ m' : Machine} {a : α}
  {r : EStateM.Result Stop Machine α}

/-- Bills are about the cost and the number of instructions only. -/
theorem of_eq (h : Charged limits ks m₁ r) (hcost : m₁.cost = m.cost)
    (hticks : m₁.ticks = m.ticks) :
    Charged limits ks m r :=
  ⟨hcost ▸ h.cost, hcost ▸ h.overflow, hcost ▸ h.held, hticks ▸ h.ticks, h.paid, hcost ▸ h.attempts⟩

/-- What succeeds has not overflowed the counter. -/
theorem ok (h : Charged limits ks m (.ok a m')) :
    Fits limits m.cost ks ∧ m'.cost = m.cost - total limits ks := h.cost fun _ h => by cases h

/-- A result agrees with a bill that fits only if the counter does not overflow. -/
theorem fits (h : Charged limits ks m r) (hfits : Fits limits m.cost ks) :
    (Exec.left r).cost = m.cost - total limits ks :=
  (h.cost fun m' hr => h.overflow m' hr hfits).2

end Charged

/-- Whether a host function does not touch the cost itself. -/
def Extension.Steady (e : Extension) : Prop :=
  ∀ run, e.behaviour = .host run → ∀ args host, (run args host).2.cost = host.cost

namespace Exec

variable {α β : Type} {limits : Limits} {c : Context}

/-- Whether a computation agrees with a bill. -/
def Metered (limits : Limits) (b : Bill) (x : Exec α) : Prop := ∀ m, Charged limits (b m) m (x m)

/-! ### Binds -/

/-- What leaves the meter alone is free. -/
theorem Metered.free {x : Exec α} (hcost : ∀ m, (left (x m)).cost = m.cost)
    (hticks : ∀ m, (left (x m)).ticks = m.ticks) (hcounter : ∀ m m', x m ≠ .error .overflow m') :
    Metered limits (fun _ => []) x := by
  intro m
  refine ⟨fun _ => ⟨trivial, ?_⟩, fun m' h => absurd h (hcounter m m'), fun h => by rwa [hcost], ?_,
    fun _ _ _ => .inl rfl, rfl⟩
  · rw [hcost, total_nil, Int.sub_zero]
  · rw [hticks, List.count_nil, Nat.add_zero]

theorem Blind.metered {x : Exec α} (hx : Blind id x) : Metered limits (fun _ => []) x :=
  .free (fun m => congrArg Meter.cost (hx.meter m)) (fun m => congrArg Meter.ticks (hx.meter m))
    hx.counter

/-- Changing what is neither the cost nor the number of instructions. -/
theorem Metered.modify {f : Machine → Machine} (hcost : ∀ m, (f m).cost = m.cost)
    (hticks : ∀ m, (f m).ticks = m.ticks) : Metered limits (fun _ => []) (modify f : Exec PUnit) :=
  .free hcost hticks fun _ _ h => by cases h

theorem Metered.get : Metered limits (fun _ => []) (get : Exec Machine) :=
  .free (fun _ => rfl) (fun _ => rfl) fun _ _ h => by cases h

namespace Metered

variable {x : Exec α} {k : α → Exec β} {b : Bill} {b' : α → Bill}

/-- The bill of two parts is the first one followed by the second, which is made out for the machine
in between. -/
theorem bind (hx : Metered limits b x) (hk : ∀ a, Metered limits (b' a) (k a)) :
    Metered limits (fun m => b m ++ Bill.after x b' m) (x >>= k) := by
  intro m
  have hfirst := hx m
  change Charged limits (b m ++ match x m with | .ok a m' => b' a m' | .error _ _ => []) m
    (EStateM.bind x k m)
  rw [EStateM.bind]
  cases hr : x m with
  | error e m₁ =>
    rw [hr] at hfirst
    rw [List.append_nil]
    refine ⟨fun hno => hfirst.cost fun m' h => ?_, fun m' h => hfirst.overflow m' ?_, hfirst.held,
      hfirst.ticks, fun a m' h => (by cases h), hfirst.attempts⟩
    · cases h
      exact hno m₁ rfl
    · cases h
      rfl
  | ok a m₁ =>
    rw [hr] at hfirst
    change Charged limits (b m ++ b' a m₁) m (k a m₁)
    have hsecond := hk a m₁
    obtain ⟨hfits, hcost₁⟩ := hfirst.ok
    have hpaid := hfirst.paid a m₁ rfl
    have hticks₁ : m₁.ticks = m.ticks + (b m).count .instruction := hfirst.ticks
    refine ⟨fun hno => ?_, fun m' h hall => ?_, fun h => hsecond.held (hfirst.held h), ?_,
      fun y m' h => ?_, ?_⟩
    · obtain ⟨hfits', hcost'⟩ := hsecond.cost hno
      rw [hcost₁] at hfits'
      refine ⟨fits_append.2 ⟨hfits, hfits'⟩, ?_⟩
      rw [hcost', hcost₁, total_append]
      omega
    · have hrest := (fits_append.1 hall).2
      rw [← hcost₁] at hrest
      exact hsecond.overflow m' h hrest
    · rw [hsecond.ticks, hticks₁, List.count_append]
      omega
    · -- the last charge is one of the second part, or the second part keeps the cost
      rw [h] at hsecond
      rcases hsecond.paid y m' rfl with hnil | hpos
      · have hsame := hsecond.ok.2
        rw [hnil, total_nil, Int.sub_zero] at hsame
        rw [hnil, List.append_nil, hsame]
        exact hpaid
      · exact .inr hpos
    · have hattempts := hsecond.attempts
      rw [hcost₁] at hpaid hattempts
      exact attempted_append hfirst.attempts hfits hpaid hattempts

/-- What comes behind a computation that is free. -/
theorem after (hx : Metered limits (fun _ => []) x) (hk : ∀ a, Metered limits (b' a) (k a)) :
    Metered limits (Bill.after x b') (x >>= k) := hx.bind hk

/-- What comes behind may be free. -/
theorem bind_free (hx : Metered limits b x) (hk : ∀ a, Metered limits (fun _ => []) (k a)) :
    Metered limits b (x >>= k) := by
  have h := hx.bind hk
  simpa only [Bill.after_nil, List.append_nil] using h

theorem ite {p : Prop} [Decidable p] {y : Exec α} (hx : Metered limits b x)
    (hy : Metered limits b y) : Metered limits b (if p then x else y) := by
  split
  · exact hx
  · exact hy

end Metered

/-! ### Charging -/

/-- A charge agrees with its bill but for the number of instructions. -/
theorem charged_charge (k : Charge) {m : Machine} {ticks : Nat}
    (hticks : m.ticks = ticks + [k].count .instruction) :
    Charged limits [k] { m with ticks := ticks } (charge (k.amount limits) m) := by
  have htotal : total limits [k] = k.amount limits := by simp
  have hattempts : attempted limits m.cost [k] = [k] := by
    rw [attempted, attempted, ite_self]
  rw [charge_eq]
  split
  · rename_i hfits
    split
    · exact ⟨fun _ => ⟨⟨hfits, trivial⟩, by rw [htotal]; rfl⟩,
        fun _ h => (by cases h), fun _ => hfits, hticks, fun _ _ h => (by cases h), hattempts⟩
    · rename_i hpos
      refine ⟨fun _ => ⟨⟨hfits, trivial⟩, by rw [htotal]; rfl⟩,
        fun _ h => (by cases h), fun _ => hfits, hticks, fun _ _ h => .inr ?_, hattempts⟩
      cases h
      exact Int.not_le.1 hpos
  · rename_i hover
    exact ⟨fun hno => absurd rfl (hno m), fun _ _ hfits => hover hfits.1, id, hticks,
      fun _ _ h => (by cases h), hattempts⟩

theorem metered_charge {k : Charge} (hk : k ≠ .instruction) :
    Metered limits (fun _ => [k]) (charge (k.amount limits)) := by
  intro m
  have hcount : [k].count .instruction = 0 := by
    rw [List.count_singleton, if_neg (by simpa using hk)]
  exact charged_charge k (by rw [hcount, Nat.add_zero])

/-- Behind a charge come those that are attempted with what it leaves. -/
theorem attempted_cons_eq_bill (limits : Limits) (k : Charge) (ks : List Charge) (m : Machine) :
    attempted limits m.cost (k :: ks)
      = [k] ++ Bill.after (charge (k.amount limits)) (fun _ m => attempted limits m.cost ks) m := by
  rw [attempted, Bill.after, charge_eq]
  by_cases hfits : InCounter (m.cost - k.amount limits)
  · rw [if_pos hfits]
    by_cases hpos : 0 < m.cost - k.amount limits
    · rw [if_pos ⟨hfits, hpos⟩, if_neg (Int.not_le.2 hpos)]
      rfl
    · rw [if_neg fun h => hpos h.2, if_pos (Int.not_lt.1 hpos)]
      rfl
  · rw [if_neg hfits, if_neg fun h => hfits h.1]
    rfl

/-- Paying for one thing after the other stops at the charge that uses up the cost. -/
theorem metered_pay {ks : List Charge} (hks : .instruction ∉ ks) :
    Metered limits (fun m => attempted limits m.cost ks) (pay limits ks) := by
  induction ks with
  | nil => exact (Blind.pure ()).metered
  | cons k ks ih =>
    obtain ⟨hk, hrest⟩ := not_or.1 (List.mem_cons.not.1 hks)
    rw [funext fun m : Machine => attempted_cons_eq_bill limits k ks m]
    exact (metered_charge (Ne.symm hk)).bind fun _ => ih hrest

/-- The limits that are checked behind the charge for an instruction. -/
def checkLimits (c : Context) : Exec Unit := do
  match c.allowance with
  | some ms => if ms ≤ c.clock (← get).ticks then fail .timeLimit
  | none => pure ()
  if c.limits.maxMem < (← get).mem then fail .memoryLimit

/-- The limits are checked without changing the machine. -/
theorem left_checkLimits (c : Context) (m : Machine) : left (checkLimits c m) = m := by
  have hmem : left ((if c.limits.maxMem < m.mem then fail .memoryLimit else pure () : Exec Unit) m)
      = m := by
    split <;> rfl
  unfold checkLimits
  cases c.allowance with
  | none => exact hmem
  | some ms =>
    change left ((if ms ≤ c.clock m.ticks then _ else _ : Exec Unit) m) = m
    split
    · rfl
    · exact hmem

/-- The checks behind a charge do not touch the counter for the cost. -/
theorem counter_checkLimits (c : Context) (m m' : Machine) :
    checkLimits c m ≠ .error .overflow m' := by
  have hmem : (if c.limits.maxMem < m.mem then fail .memoryLimit else pure () : Exec Unit) m
      ≠ .error .overflow m' := by
    split <;> exact fun h => by cases h
  unfold checkLimits
  cases c.allowance with
  | none => exact hmem
  | some ms =>
    change (if ms ≤ c.clock m.ticks then _ else _ : Exec Unit) m ≠ _
    split
    · exact fun h => by cases h
    · exact hmem

theorem tick_eq (c : Context) :
    tick c = (do
      modify fun m => { m with ticks := m.ticks + 1 }
      charge 1
      checkLimits c) := rfl

/-- An instruction that is started is paid for and counted, and nothing else. -/
theorem machine_of_tick {c : Context} {m m' : Machine} (h : tick c m = .ok () m') :
    m' = { m with cost := m.cost - 1, ticks := m.ticks + 1 } := by
  rw [tick_eq] at h
  obtain ⟨_, m₁, hm₁, h⟩ := bind_eq_ok h
  obtain ⟨_, m₂, hm₂, h⟩ := bind_eq_ok h
  have hcheck := left_checkLimits c m₂
  rw [h] at hcheck
  have hm' : m' = m₂ := hcheck
  cases hm₁
  rw [hm', (charge_eq_ok hm₂).2.2]

theorem frames_of_tick {c : Context} {m m' : Machine} (h : tick c m = .ok () m') :
    m'.frames = m.frames := by
  rw [machine_of_tick h]

/-- A tick charges for one instruction. -/
theorem metered_tick (c : Context) : Metered c.limits (fun _ => [.instruction]) (tick c) := by
  have hstart : Metered c.limits (fun _ => [.instruction]) (do
      modify fun m => { m with ticks := m.ticks + 1 }
      charge 1) := by
    intro m
    exact @charged_charge c.limits .instruction { m with ticks := m.ticks + 1 } m.ticks rfl
  have hcheck : Metered c.limits (fun _ => []) (checkLimits c) :=
    .free (fun m => congrArg Machine.cost (left_checkLimits c m))
      (fun m => congrArg Machine.ticks (left_checkLimits c m)) (counter_checkLimits c)
  rw [tick_eq, ← bind_assoc]
  exact hstart.bind_free fun _ => hcheck

/-! ### Calls of functions -/

/-- The bill of a call of a function. -/
def callBill (c : Context) (id : BlockId) (count : Option Nat) : Bill :=
  .after (callSlots c id count) fun _ _ => [.function]

/-- A call of a function charges for the call and for what it collects. -/
theorem metered_callFunc (c : Context) (id : BlockId) (count : Option Nat) :
    Metered c.limits (callBill c id count) (callFunc c id count) := by
  rw [callFunc_eq]
  refine .after (plain_callSlots c id count).blind.metered fun slots => ?_
  rw [pay_singleton]
  refine .bind_free (metered_charge (by decide)) fun _ => ?_
  exact .bind_free (plain_checkDepth c).blind.metered fun _ =>
    (blind_enterBlock c id slots .call).metered

/-! ### Calls of contracts -/

/-- The bill of a call of a contract. -/
def contractBill (c : Context) (q : Request) : Bill :=
  .after (contractParams c q) fun _ m => attempted c.limits m.cost (contractCharges c q.name)

/-- A call of a contract charges for the call. -/
theorem metered_callContract (c : Context) (name names : String) (values : List Value)
    (via : Option Extension) :
    Metered c.limits (contractBill c ⟨name, Text.fields names, values⟩)
      (callContract c name names values via) := by
  rw [callContract_eq]
  refine .after (plain_contractParams c (sees_id _)).blind.metered fun p => ?_
  refine .bind_free (metered_pay ?_) fun _ => .modify (fun _ => rfl) fun _ => rfl
  cases c.registry.contractPrice name <;> simp [contractCharges]

/-! ### Calls of extensions -/

/-- What the results of an extension are charged with. -/
def queryCharges (e : Extension) (results : List Value) (h : Heap) : List Charge :=
  match e.queriesDb, results with
  | true, cost :: _ =>
    match cost.toInt h with
    | .ok n => [.query n.toInt]
    | .error _ => []
  | _, _ => []

/-- Results that a host charges for are paid for one by one. -/
theorem metered_deliver (e : Extension) (results : List Value) :
    Metered limits (fun m => queryCharges e results m.heap) (deliver e results) := by
  -- Only a query that answers something is charged: its first result is its price.
  by_cases hquery : e.queriesDb = false ∨ results = []
  · have hfree : (fun m : Machine => queryCharges e results m.heap) = fun _ => [] := by
      funext m
      rcases hquery with he | rfl
      · simp [queryCharges, he]
      · simp [queryCharges]
    rw [deliver_of_not_query hquery, hfree]
    exact (plain_pushAll results).blind.metered
  · obtain ⟨he, hne⟩ := not_or.1 hquery
    obtain ⟨cost, rest, rfl⟩ := List.exists_cons_of_ne_nil hne
    have he' : e.queriesDb = true := by simpa using he
    rw [deliver_query he']
    intro m
    change Charged limits (queryCharges e (cost :: rest) m.heap) m
      ((ofExcept (cost.toInt m.heap) >>= fun n => do
        charge n.toInt
        pushAll rest : Exec Unit) m)
    have hpay : ∀ n : Int64, Metered limits (fun _ => [.query n.toInt]) (do
        charge n.toInt
        pushAll rest) := fun n =>
      (metered_charge (k := .query n.toInt) (by simp)).bind_free fun _ =>
        (plain_pushAll rest).blind.metered
    simp only [queryCharges, he']
    cases cost.toInt m.heap with
    | error f => exact (Plain.fail f).blind.metered m
    | ok n => exact hpay n m

/-- What the answer of a host function is charged with. -/
def replyCharges (e : Extension) (reply : Reply) (h : Heap) : List Charge :=
  match reply with
  | .values vs => queryCharges e vs h
  | _ => []

/-- The bill of what an extension does. -/
def behaveBill (c : Context) (e : Extension) (args : List Value) : Bill := fun m =>
  match e.behaviour with
  | .host run =>
    let answer := run args ⟨m.heap, m.env, m.cost⟩
    replyCharges e answer.1 answer.2.heap
  | b =>
    match b.request? m.heap args with
    | some q => contractBill c q m
    | none => []

/-- The bill of a call of an extension. -/
def extensionBill (c : Context) (e : Extension) (count : Option Nat) : Bill :=
  .after (extensionParams e count) fun args m =>
    attempted c.limits m.cost (extensionCharges c e) ++
      Bill.after (pay c.limits (extensionCharges c e))
        (fun _ => .after (checkDepth c) fun _ => behaveBill c e args) m

/-- A host function pays for its replies, and nothing by itself. -/
theorem metered_callHost {e : Extension} {run : List Value → Host → Reply × Host}
    (hsteady : ∀ args host, (run args host).2.cost = host.cost) (args : List Value) :
    Metered limits (fun m => replyCharges e (run args ⟨m.heap, m.env, m.cost⟩).1
      (run args ⟨m.heap, m.env, m.cost⟩).2.heap) (callHost e run args) := by
  have hrun : Metered limits (fun _ => []) (modifyGet fun m =>
      ((run args ⟨m.heap, m.env, m.cost⟩).1, { m with
        heap := (run args ⟨m.heap, m.env, m.cost⟩).2.heap
        env := (run args ⟨m.heap, m.env, m.cost⟩).2.env
        cost := (run args ⟨m.heap, m.env, m.cost⟩).2.cost }) : Exec Reply) :=
    .free (fun m => hsteady args _) (fun _ => rfl) fun _ _ h => by cases h
  refine @Metered.after _ _ _ _ _ (fun reply m => replyCharges e reply m.heap) hrun fun reply => ?_
  cases reply with
  | values vs => exact (metered_deliver e vs).bind_free fun _ => plain_advance.blind.metered
  | fault f => exact (Plain.fail f).blind.metered
  | crash => exact Blind.crash.metered

/-- An extension charges for what it does. -/
theorem metered_behave (c : Context) {e : Extension} (he : e.Steady) (args : List Value) :
    Metered c.limits (behaveBill c e args) (behave c e args) := by
  intro m
  unfold behaveBill behave
  cases hbehaviour : e.behaviour with
  | host run => exact metered_callHost (he run hbehaviour) args m
  | execContract => exact metered_callContract c _ _ _ _ m
  | callContract =>
    change Charged c.limits (match Behaviour.request? m.heap args .callContract with
      | some q => contractBill c q m
      | none => []) m (EStateM.bind (ofExcept ((args.getD 0 .nil).toInt m.heap)) _ m)
    rw [Behaviour.request?]
    cases (args.getD 0 .nil).toInt m.heap with
    | error f => exact (Plain.fail f).blind.metered m
    | ok state => exact metered_callContract c _ _ _ _ m

theorem metered_callExtension (c : Context) {e : Extension} (he : e.Steady) (count : Option Nat) :
    Metered c.limits (extensionBill c e count) (callExtension c e count) := by
  rw [callExtension_eq, extensionArgs_eq]
  simp only [bind_assoc, pure_bind]
  refine .after (plain_extensionParams (fun key _ => sees_id key) count).blind.metered
    fun args => ?_
  refine .bind (metered_pay ?_) fun _ => ?_
  · cases c.registry.extensionCost e.name <;> simp [extensionCharges]
  · exact .after (plain_checkDepth c).blind.metered fun _ => metered_behave c he args

/-! ### Instructions -/

/-- The bill of an instruction beyond the charge for starting it. -/
def opBill (c : Context) : Op → Bill
  | .callExtend name => .after popCount fun count =>
    match c.registry.objects.get? name with
    | some (.ext e) => extensionBill c e (some count)
    | _ => fun _ => []
  | .call (.func id) => callBill c id none
  | .call (.ext e) => extensionBill c e none
  | .callVariadic (.func id) => .after popCount fun count => callBill c id (some count)
  | .callVariadic (.ext e) => .after popCount fun count => extensionBill c e (some count)
  | _ => fun _ => []

/-- Assignments are free. -/
theorem metered_assignAll (c : Context) (ts : List Target) (xs : List Value) :
    Metered limits (fun _ => []) (assignAll c ts xs) := by
  fun_induction assignAll c ts xs with
  | case1 t ts x xs ih =>
    refine .bind_free ?_ fun _ => ih
    cases t with
    | var v => exact (plain_assignVar c v x).blind.metered
    | extend name =>
      have hset : Metered limits (fun _ => [])
          (modify fun m => { m with env := m.env.insert name x } : Exec PUnit) :=
        .modify (fun _ => rfl) fun _ => rfl
      refine .bind_free .get fun m => ?_
      split
      · exact .ite (.bind_free (Plain.fail _).blind.metered fun _ => hset) hset
      · exact hset
  | case2 => exact (Blind.pure _).metered

theorem metered_assign (c : Context) : Metered limits (fun _ => []) (perform c .assign) := by
  refine .bind_free .get fun m => ?_
  split
  · exact .bind_free (Blind.modifyTop _).metered fun _ => .bind_free (plain_popN _).blind.metered
      fun values => .bind_free (metered_assignAll c _ values) fun _ => plain_advance.blind.metered
  · exact (Blind.pure _).metered

/-- Every instruction agrees with its bill. -/
theorem metered_perform (hsteady : ∀ e, c.registry.Offers e → e.Steady) {id : BlockId} {i : Instr}
    (hi : i ∈ (c.block id).code) : Metered c.limits (opBill c i.op) (perform c i.op) := by
  -- A host is called as one that the code names or one that the registry binds to the name.
  have hcode : ∀ e, i.op.extension? = some e → e.Steady := fun e he =>
    hsteady e (.inr ⟨id, i, hi, he⟩)
  generalize i.op = op at hcode
  cases op with
  | callExtend name =>
    refine .after plain_popCount.blind.metered fun count => ?_
    cases hname : c.registry.objects.get? name with
    | none => exact (Plain.fail _).blind.metered
    | some b =>
      cases b with
      | ext e => exact metered_callExtension c (hsteady e (.inl ⟨name, hname⟩)) _
      | contract | func | var | extVar => exact (Plain.fail _).blind.metered
  | call f =>
    cases f with
    | func id => exact metered_callFunc c id none
    | ext e => exact metered_callExtension c (hcode e rfl) none
  | callVariadic f =>
    cases f with
    | func id => exact .after plain_popCount.blind.metered fun n => metered_callFunc c id (some n)
    | ext e =>
      exact .after plain_popCount.blind.metered fun n =>
        metered_callExtension c (hcode e rfl) (some n)
  | assign => exact metered_assign c
  | push | var | extendVar | label | error | funcName | unwrapArr | mapInit | arrayInit | index
  | setIndex | unary | binary | «return» | «if» | «else» | «while» | «continue» | «break»
  | assignVar => exact (blind_perform c rfl fun name _ => sees_id name).metered

/-! ### Steps -/

/-- The bill of a step. -/
def stepBill (c : Context) : Bill := fun m =>
  match m.frames with
  | [] => []
  | .contract k :: _ =>
    match k.sections, k.via with
    | [], some e => queryCharges e [(m.env.get? "result").getD .nil] m.heap
    | _, _ => []
  | .block a :: _ =>
    match m.ending with
    | some _ => []
    | none =>
      match (c.block a.block).code[a.pc]? with
      | none => []
      | some i => .instruction :: Bill.after (tick c) (fun _ => opBill c i.op) m

/-- The end of a contract is free, unless it was called by an extension that charges for results. -/
theorem metered_behindContract (k : ContractCall) (result : Value) :
    Metered limits (fun m => match k.via with
      | some e => queryCharges e [result] m.heap
      | none => []) (behindContract k result) := by
  unfold behindContract
  cases k.via with
  | none => exact (plain_push result).blind.metered
  | some e => exact (metered_deliver e [result]).bind_free fun _ => plain_advance.blind.metered

/-- **Every step agrees with its bill.** -/
theorem metered_step (hsteady : ∀ e, c.registry.Offers e → e.Steady) :
    Metered c.limits (stepBill c) (step c) := by
  intro m
  have hleave : ∀ status, Charged c.limits [] m (leave c status m) := fun status =>
    (blind_leave c status).metered m
  change Charged c.limits (stepBill c m) m ((match m.frames with
    | [] => _
    | .contract k :: rest => _
    | .block a :: _ => _ : Exec Unit) m)
  unfold stepBill
  -- A step resumes a contract, leaves a block, or runs one
  -- instruction, which costs a tick and its own bill.
  rcases m.frames with _ | ⟨a | k, rest⟩
  · exact (Blind.pure ()).metered m
  · change Charged c.limits _ m ((match m.ending with
      | some status => _
      | none => _ : Exec Unit) m)
    cases m.ending with
    | some status => exact hleave status
    | none =>
      change Charged c.limits (match (c.block a.block).code[a.pc]? with
        | none => []
        | some i => _) m ((match (c.block a.block).code[a.pc]? with
        | none => _
        | some i => _ : Exec Unit) m)
      cases hcode : (c.block a.block).code[a.pc]? with
      | none => exact hleave .normal
      | some i =>
        exact (metered_tick c).bind (fun _ =>
          metered_perform hsteady (Array.mem_of_getElem? hcode)) m
  · change Charged c.limits (match k.sections, k.via with
      | [], some e => _
      | _, _ => []) m (resume c k rest m)
    cases hsections : k.sections with
    | cons s ss =>
      rw [resume_cons c rest m hsections]
      exact ((blind_start c s [] .section).metered _).of_eq rfl rfl
    | nil =>
      rw [resume_nil c rest m hsections]
      have h := @metered_behindContract c.limits k ((m.env.get? "result").getD .nil)
        (finished k rest m)
      cases hvia : k.via with
      | none =>
        rw [hvia] at h
        exact h.of_eq rfl rfl
      | some e =>
        rw [hvia] at h
        exact h.of_eq rfl rfl

end Exec

end Covenant
