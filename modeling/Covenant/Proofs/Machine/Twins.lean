import Covenant.Proofs.Machine.Charges

/-!
# Two runs with different budgets

Two machines are twins if they differ in the cost that is left, by a fixed amount, and in what
`txcost` is bound to. Whatever looks at neither of the two does the same in both, until the twin has
nothing left: then it stops at a charge that the first machine could pay (`Agrees`). The charge that
stops the twin is one after which the first machine's cost is too low by the fixed amount, and as no
charge is negative this stays so. If the counter for the cost overflows in the twin, it does so at
the first charge, because behind a charge that was paid something is left. The main statement is
`Exec.step_agrees`.
-/

namespace Covenant

open Covenant.Computation

open Charge

/-- The environment without the cost that is left. -/
def hideCost (env : Dict Value) : Dict Value := env.erase "txcost"

theorem sees_hideCost {name : String} (h : name ≠ "txcost") : Exec.Sees hideCost name :=
  fun _ _ henv => Dict.get?_eq_of_erase_eq henv h

theorem marker_ne_txcost (contract : String) : Name.marker contract ≠ "txcost" := by
  intro h
  have hfirst := congrArg (fun s : String => s.toList.head?) h
  simp [Name.marker, Name.markerStart] at hfirst

/-- The meters of a twin, whose cost differs by a fixed amount. The counter can hold both costs. -/
structure Twin (gap : Int) (m : Machine) (μ : Meter) : Prop where
  env : hideCost m.env = hideCost μ.env
  cost : μ.cost = m.cost + gap
  ticks : μ.ticks = m.ticks
  bounds : m.cost ≤ 9223372036854775807 ∧ μ.cost ≤ 9223372036854775807

/-- Whether an extension neither reads nor touches the cost that is left or `txcost`. -/
structure Extension.IgnoresCost (e : Extension) : Prop where
  auto : "txcost" ∉ e.auto
  host : ∀ run, e.behaviour = .host run → ∀ args h env env' cost cost',
    hideCost env = hideCost env' →
      (run args ⟨h, env, cost⟩).1 = (run args ⟨h, env', cost'⟩).1 ∧
      (run args ⟨h, env, cost⟩).2.heap = (run args ⟨h, env', cost'⟩).2.heap ∧
      hideCost (run args ⟨h, env, cost⟩).2.env = hideCost (run args ⟨h, env', cost'⟩).2.env ∧
      (run args ⟨h, env, cost⟩).2.cost = cost ∧ (run args ⟨h, env', cost'⟩).2.cost = cost'

namespace Exec

variable {α β : Type} {limits : Limits} {gap : Int} {m : Machine} {ks : List Charge}

/-- How a twin stops at one of some charges: nothing is left, or the counter cannot hold what would
be left after the first of them. -/
inductive StopsAt (limits : Limits) (ks : List Charge) (cost : Int) : Stop → Prop
  | limit : StopsAt limits ks cost (.fault .costLimit)
  | overflow (k : Charge) : ks.head? = some k → cost - k.amount limits < -9223372036854775808 →
      k.amount limits ≤ 9223372036854775807 → StopsAt limits ks cost .overflow

/-- What a twin comes to whose machine changes in a computation and is charged with a bill: the
same, or it stops at a charge, and then the computation has left too little for the twin. -/
def Mirrors (limits : Limits) (gap : Int) (ks : List Charge) (m m' : Machine) (cost : Int) (a : α)
    (r : EStateM.Result Stop Machine α) : Prop :=
  (∃ μ', r = .ok a (m'.withMeter μ') ∧ Twin gap m' μ' ∧
    (ks = [] ∧ m'.cost = m.cost ∨ 0 < μ'.cost)) ∨
  (∃ e m₂, r = .error e m₂ ∧ StopsAt limits ks cost e) ∧ m'.cost + gap ≤ 0

/-- What a computation that succeeds in a machine, and is charged with a bill there, does in its
twins. -/
def Agrees (limits : Limits) (gap : Int) (ks : List Charge) (x : Exec α) (m : Machine) : Prop :=
  ∀ a m', x m = .ok a m' → m'.cost ≤ m.cost ∧
    ∀ μ, Twin gap m μ → Mirrors limits gap ks m m' μ.cost a (x (m.withMeter μ))

/-! ### Binds -/

/-- What is blind to the cost does the same with another budget. -/
theorem Blind.agrees {x : Exec α} (hx : Blind hideCost x) (m : Machine) :
    Agrees limits gap [] x m := by
  intro a m' h
  have hmeter := hx.meter m
  rw [h] at hmeter
  have hcost : m'.cost = m.cost := congrArg Meter.cost hmeter
  have henv : m'.env = m.env := congrArg Meter.env hmeter
  have hticks : m'.ticks = m.ticks := congrArg Meter.ticks hmeter
  refine ⟨Int.le_of_eq hcost, fun μ hμ => .inl ⟨μ, ?_, ?_, .inl ⟨rfl, hcost⟩⟩⟩
  · rw [hx.same m μ hμ.env, h]
    rfl
  · exact ⟨henv ▸ hμ.env, hcost ▸ hμ.cost, hticks ▸ hμ.ticks, hcost ▸ hμ.bounds⟩

namespace StopsAt

variable {ks' : List Charge} {cost cost' : Int} {e : Stop}

theorem append (h : StopsAt limits ks cost e) : StopsAt limits (ks ++ ks') cost e := by
  cases h with
  | limit => exact .limit
  | overflow k hhead hlow hk =>
    obtain ⟨rest, rfl⟩ := List.head?_eq_some_iff.1 hhead
    exact .overflow k rfl hlow hk

/-- Behind a charge that was paid the counter does not overflow. -/
theorem behind (h : StopsAt limits ks' cost' e) (hpaid : ks = [] ∧ cost' = cost ∨ 0 < cost') :
    StopsAt limits (ks ++ ks') cost e := by
  cases h with
  | limit => exact .limit
  | overflow k hhead hlow hk =>
    rcases hpaid with ⟨rfl, rfl⟩ | hpos
    · exact .overflow k hhead hlow hk
    · omega

end StopsAt

/-- A twin goes on behind what it has done. -/
theorem Mirrors.bind {x : Exec α} {k : α → Exec β} {ks' : List Charge}
    {m₁ m' : Machine} {μ : Meter} {a : α} {y : β} (hμ : Twin gap m μ)
    (hx : Mirrors limits gap ks m m₁ μ.cost a (x (m.withMeter μ))) (hle : m'.cost ≤ m₁.cost)
    (hk : ∀ μ₁, Twin gap m₁ μ₁ → (ks = [] ∧ m₁.cost = m.cost ∨ 0 < μ₁.cost) →
      Mirrors limits gap ks' m₁ m' μ₁.cost y (k a (m₁.withMeter μ₁))) :
    Mirrors limits gap (ks ++ ks') m m' μ.cost y ((x >>= k) (m.withMeter μ)) := by
  have h₀ := hμ.cost
  rcases hx with ⟨μ₁, hx₁, hμ₁, hpos⟩ | ⟨⟨e, m₂, hx₁, hstop⟩, hover⟩
  · have h₁ := hμ₁.cost
    rw [bind_of_ok hx₁]
    rcases hk μ₁ hμ₁ hpos with ⟨μ₂, hk₂, hμ₂, hpos'⟩ | ⟨⟨e, m₂, hk₂, hstop⟩, hover⟩
    · have h₂ := hμ₂.cost
      refine .inl ⟨μ₂, hk₂, hμ₂, ?_⟩
      rcases hpos' with ⟨hnil', hsame'⟩ | hpos'
      · rcases hpos with ⟨hnil, hsame⟩ | hpos
        · exact .inl ⟨by rw [hnil, hnil']; rfl, by omega⟩
        · exact .inr (by omega)
      · exact .inr hpos'
    · exact .inr ⟨⟨e, m₂, hk₂, hstop.behind (hpos.imp_left fun h => ⟨h.1, by omega⟩)⟩, hover⟩
  · -- the twin has stopped, and the first machine only loses
    exact .inr ⟨⟨e, m₂, bind_of_error hx₁, hstop.append⟩, by omega⟩

namespace Agrees

variable {x : Exec α} {k : α → Exec β} {b : α → Bill}

/-- Two parts agree if each of them does. Where the other run stops in the first part, it does not
come to the second. -/
theorem bind (hx : Agrees limits gap ks x m)
    (hk : ∀ a m', x m = .ok a m' → Agrees limits gap (b a m') (k a) m') :
    Agrees limits gap (ks ++ Bill.after x b m) (x >>= k) m := by
  intro y m' h
  obtain ⟨a, m₁, hm₁, hrest⟩ := bind_eq_ok h
  obtain ⟨hcost, htwin⟩ := hx a m₁ hm₁
  obtain ⟨hcost', htwin'⟩ := hk a m₁ hm₁ y m' hrest
  rw [Bill.after_of_ok hm₁]
  exact ⟨Int.le_trans hcost' hcost, fun μ hμ =>
    (htwin μ hμ).bind hμ hcost' fun μ₁ hμ₁ _ => htwin' μ₁ hμ₁⟩

/-- What comes behind a computation that is free. -/
theorem after (hx : Agrees limits gap [] x m)
    (hk : ∀ a m', x m = .ok a m' → Agrees limits gap (b a m') (k a) m') :
    Agrees limits gap (Bill.after x b m) (x >>= k) m := hx.bind hk

/-- What comes behind may be free. -/
theorem bind_free (hx : Agrees limits gap ks x m)
    (hk : ∀ a m', x m = .ok a m' → Agrees limits gap [] (k a) m') :
    Agrees limits gap ks (x >>= k) m := by
  have h := hx.bind (b := fun _ _ => []) hk
  rwa [Bill.after_nil, List.append_nil] at h

/-- To look at the machine is no difference, if nothing depends on the meter. -/
theorem get_bind {k : Machine → Exec β} (h : Agrees limits gap ks (k m) m)
    (hk : ∀ μ, Twin gap m μ → k (m.withMeter μ) = k m) : Agrees limits gap ks (get >>= k) m := by
  intro y m' hm'
  obtain ⟨hcost, htwin⟩ := h y m' hm'
  refine ⟨hcost, fun μ hμ => ?_⟩
  change Mirrors limits gap ks m m' μ.cost y (k (m.withMeter μ) (m.withMeter μ))
  rw [hk μ hμ]
  exact htwin μ hμ

theorem ofExcept_bind {r : Except Fault α} (h : ∀ a, r = .ok a → Agrees limits gap ks (k a) m) :
    Agrees limits gap ks (ofExcept r >>= k) m := by
  cases r with
  | error f => exact fun a m' hm' => by cases hm'
  | ok a => exact h a rfl

end Agrees

/-! ### Charging -/

/-- A charge lowers both counters, or stops the run that has less. -/
theorem agrees_charge {k : Charge} (hk : 0 ≤ k.amount limits) (m : Machine) :
    Agrees limits gap [k] (charge (k.amount limits)) m := by
  intro a m' h
  obtain ⟨-, hpaid, rfl⟩ := charge_eq_ok h
  refine ⟨by dsimp only; omega, fun μ hμ => ?_⟩
  have hcost := hμ.cost
  obtain ⟨hbound, hbound'⟩ := hμ.bounds
  rw [charge_eq]
  change (∃ μ', (if InCounter (μ.cost - k.amount limits) then _ else _) = _ ∧ _) ∨
    (∃ e m₂, (if InCounter (μ.cost - k.amount limits) then _ else _) = _ ∧ _) ∧ _
  -- Either the other budget pays too, or it fails for a lack of cost or an overflow.
  by_cases hpos : 0 < μ.cost - k.amount limits
  · have hfits : InCounter (μ.cost - k.amount limits) := ⟨by omega, by omega⟩
    rw [if_pos hfits, if_neg (show ¬ (m.withMeter μ).cost - k.amount limits
      ≤ 0 from Int.not_le.2 hpos)]
    refine .inl ⟨{ μ with cost := μ.cost - k.amount limits }, rfl,
      ⟨hμ.env, ?_, hμ.ticks, ?_⟩, .inr hpos⟩
    · dsimp only
      omega
    · dsimp only
      omega
  · refine .inr ⟨?_, by dsimp only; omega⟩
    by_cases hfits : InCounter (μ.cost - k.amount limits)
    · rw [if_pos hfits, if_pos (show (m.withMeter μ).cost - k.amount limits
        ≤ 0 from Int.not_lt.1 hpos)]
      exact ⟨_, _, rfl, .limit⟩
    · rw [if_neg hfits]
      refine ⟨_, _, rfl, .overflow k rfl ?_ (by omega)⟩
      by_contra hlow
      exact hfits ⟨Int.not_lt.1 hlow, by omega⟩

/-- So do several charges, of which the last may be the one that is too much. -/
theorem agrees_pay {ks : List Charge} {m : Machine}
    (h : ∀ k ∈ attempted limits m.cost ks, 0 ≤ k.amount limits) :
    Agrees limits gap (attempted limits m.cost ks) (pay limits ks) m := by
  induction ks generalizing m with
  | nil => exact (Blind.pure ()).agrees m
  | cons k ks ih =>
    rw [attempted] at h
    obtain ⟨hk, hrest⟩ := List.forall_mem_cons.1 h
    rw [attempted_cons_eq_bill]
    refine (agrees_charge hk m).bind fun _ m' hm' => ih ?_
    obtain ⟨hfits, hpos, rfl⟩ := charge_eq_ok hm'
    rwa [if_pos ⟨hfits, hpos⟩] at hrest

/-- A change that keeps the cost agrees if it leaves twins. -/
theorem agrees_modify {f : Machine → Machine} (hcost : (f m).cost = m.cost)
    (h : ∀ μ, Twin gap m μ → ∃ μ', f (m.withMeter μ) = (f m).withMeter μ' ∧ Twin gap (f m) μ') :
    Agrees limits gap [] (modify f : Exec PUnit) m := by
  intro a m' hm'
  cases hm'
  refine ⟨Int.le_of_eq hcost, fun μ hμ => ?_⟩
  obtain ⟨μ', heq, htwin⟩ := h μ hμ
  exact .inl ⟨μ', congrArg (EStateM.Result.ok PUnit.unit) heq, htwin, .inl ⟨rfl, hcost⟩⟩

/-- A tick charges for an instruction. With a time limit it would look at the clock. -/
theorem agrees_tick {c : Context} (hc : c.allowance = none) (m : Machine) :
    Agrees c.limits gap [.instruction] (tick c) m := by
  have hstart : Agrees c.limits gap [] (modify fun m =>
    { m with ticks := m.ticks + 1 } : Exec PUnit) m :=
    agrees_modify rfl fun μ hμ => ⟨{ μ with ticks := μ.ticks + 1 }, rfl, hμ.env, hμ.cost,
      congrArg (· + 1) hμ.ticks, hμ.bounds⟩
  have hcheck : Blind hideCost (checkLimits c) := by
    unfold checkLimits
    rw [hc]
    exact .get_bind (fun _ => .ite (.fail _) (.pure _)) fun _ _ _ => rfl
  have hcharge : ∀ m₁, Agrees c.limits gap [.instruction] (do charge 1; checkLimits c) m₁ :=
    fun m₁ =>
    (agrees_charge (k := .instruction) (show (0 : Int) ≤ 1 by decide) m₁).bind_free fun _ m₂ _ =>
      hcheck.agrees m₂
  exact hstart.after fun _ m₁ _ => hcharge m₁

/-! ### Calls -/

/-- A call of a function pays its bill in both runs. -/
theorem agrees_callFunc {c : Context} {id : BlockId} {count : Option Nat}
    (hbill : ∀ k ∈ callBill c id count m, 0 ≤ k.amount c.limits) :
    Agrees c.limits gap (callBill c id count m) (callFunc c id count) m := by
  rw [callFunc_eq]
  refine .after ((plain_callSlots c id count).blind.agrees m) fun slots m₁ hm₁ => ?_
  rw [callBill, Bill.after_of_ok hm₁] at hbill
  rw [pay_singleton]
  refine (agrees_charge (hbill .function (List.mem_singleton.2 rfl)) m₁).bind_free fun _ m₂ _ => ?_
  exact ((plain_checkDepth c).blind.agrees m₂).bind_free fun _ m₃ _ =>
    (blind_enterBlock c id slots .call).agrees m₃

/-- Twins start a contract in the same environment, but for the cost. -/
theorem hideCost_contractEnv {env env' : Dict Value} (h : hideCost env = hideCost env')
    (params : Dict Value) (name : String) :
    hideCost (contractEnv env params name) = hideCost (contractEnv env' params name) := by
  have hthis : (env.filterKeys Name.isSystem).get? "this_contract"
      = (env'.filterKeys Name.isSystem).get? "this_contract" := by
    rw [Dict.get?_filterKeys, Dict.get?_filterKeys, Dict.get?_eq_of_erase_eq h (by decide)]
  unfold contractEnv hideCost
  dsimp only
  rw [hthis]
  exact Dict.insertAll_erase_congr (Dict.insert_erase_congr (Dict.insert_erase_congr
    (Dict.insert_erase_congr (Dict.filterKeys_erase_congr h _) _ _) _ _) _ _) _

theorem hideCost_restore {env env' : Dict Value} (h : hideCost env = hideCost env')
    (k : ContractCall) : hideCost (k.restore env) = hideCost (k.restore env') :=
  Dict.insertAll_erase_congr (Dict.assign_erase_congr (Dict.assign_erase_congr
    (Dict.erase_erase_congr (Dict.filterKeys_erase_congr h _) _) _ _) _ _) _

theorem agrees_started (c : Context) (id : BlockId) (name : String) (via : Option Extension)
    (params : Dict Value) (m : Machine) :
    Agrees limits gap [] (modify (started c id name via params) : Exec PUnit) m := by
  refine agrees_modify rfl fun μ hμ => ⟨⟨contractEnv μ.env params name, μ.cost, μ.ticks⟩, ?_,
    hideCost_contractEnv hμ.env params name, hμ.cost, hμ.ticks, hμ.bounds⟩
  have hthis := Dict.get?_eq_of_erase_eq hμ.env (show "this_contract" ≠ "txcost" by decide)
  have hparent := Dict.get?_eq_of_erase_eq hμ.env (show "parent" ≠ "txcost" by decide)
  have hsaved := Dict.filter_toList_congr hμ.env (fun x => !Name.isSystem x) (by decide)
  unfold started Machine.withMeter
  dsimp only
  rw [hthis, hparent, hsaved]

/-- A contract is called alike, as its marker is not the name of the cost. -/
theorem agrees_callContract {c : Context} {name names : String} {values : List Value}
    (via : Option Extension)
    (hbill : ∀ k ∈ contractBill c ⟨name, Text.fields names, values⟩ m, 0 ≤ k.amount c.limits) :
    Agrees c.limits gap (contractBill c ⟨name, Text.fields names, values⟩ m)
      (callContract c name names values via) m := by
  rw [callContract_eq]
  have hplain : Plain hideCost (contractParams c ⟨name, Text.fields names, values⟩) :=
    plain_contractParams c (sees_hideCost (marker_ne_txcost name))
  refine .after (hplain.blind.agrees m) fun p m₁ hm₁ => ?_
  rw [contractBill, Bill.after_of_ok hm₁] at hbill
  exact (agrees_pay hbill).bind_free fun _ m₂ _ => agrees_started c p.1 name via p.2 m₂

/-- The results of a host are paid for in both runs. -/
theorem agrees_deliver {e : Extension} {results : List Value}
    (hbill : ∀ k ∈ queryCharges e results m.heap, 0 ≤ k.amount limits) :
    Agrees limits gap (queryCharges e results m.heap) (deliver e results) m := by
  by_cases hquery : e.queriesDb = false ∨ results = []
  · have hfree : queryCharges e results m.heap = [] := by
      rcases hquery with he | rfl
      · simp [queryCharges, he]
      · simp [queryCharges]
    rw [deliver_of_not_query hquery, hfree]
    exact (plain_pushAll results).blind.agrees m
  · obtain ⟨he, hne⟩ := not_or.1 hquery
    obtain ⟨cost, rest, rfl⟩ := List.exists_cons_of_ne_nil hne
    have he' : e.queriesDb = true := by simpa using he
    rw [deliver_query he']
    refine .get_bind (.ofExcept_bind fun n hn => ?_) fun _ _ => rfl
    have hquery : queryCharges e (cost :: rest) m.heap = [.query n.toInt] := by
      simp [queryCharges, he', hn]
    rw [hquery] at hbill ⊢
    exact (agrees_charge (hbill _ (List.mem_singleton_self _)) m).bind_free fun _ m₂ _ =>
      (plain_pushAll rest).blind.agrees m₂

/-- A host function that ignores the cost answers the same. -/
theorem agrees_callHost {e : Extension} (he : e.IgnoresCost)
    {run : List Value → Host → Reply × Host} (hrun : e.behaviour = .host run) (args : List Value)
    (hbill : ∀ k ∈ replyCharges e (run args ⟨m.heap, m.env, m.cost⟩).1
      (run args ⟨m.heap, m.env, m.cost⟩).2.heap, 0 ≤ k.amount limits) :
    Agrees limits gap (replyCharges e (run args ⟨m.heap, m.env, m.cost⟩).1
      (run args ⟨m.heap, m.env, m.cost⟩).2.heap) (callHost e run args) m := by
  -- The host gives the same answer and charges the same amount at either cost.
  have hhost : Agrees limits gap [] (modifyGet fun m =>
      ((run args ⟨m.heap, m.env, m.cost⟩).1, { m with
        heap := (run args ⟨m.heap, m.env, m.cost⟩).2.heap
        env := (run args ⟨m.heap, m.env, m.cost⟩).2.env
        cost := (run args ⟨m.heap, m.env, m.cost⟩).2.cost }) : Exec Reply) m := by
    intro reply m' hm'
    cases hm'
    have hleft := fun env' cost' henv => he.host run hrun args m.heap m.env env' m.cost cost' henv
    refine ⟨Int.le_of_eq (hleft m.env m.cost rfl).2.2.2.1, fun μ hμ => .inl ?_⟩
    obtain ⟨hreply, hheap, henv, hcost, hcost'⟩ := hleft μ.env μ.cost hμ.env
    refine ⟨⟨(run args ⟨m.heap, μ.env, μ.cost⟩).2.env, (run args ⟨m.heap, μ.env, μ.cost⟩).2.cost,
      μ.ticks⟩, ?_, ⟨henv, ?_, hμ.ticks, ?_⟩, .inl ⟨rfl, hcost⟩⟩
    · refine congrArg₂ EStateM.Result.ok hreply.symm ?_
      unfold Machine.withMeter
      dsimp only
      rw [hheap]
    · change (run args ⟨m.heap, μ.env, μ.cost⟩).2.cost
        = (run args ⟨m.heap, m.env, m.cost⟩).2.cost + gap
      rw [hcost, hcost', hμ.cost]
    · change (run args ⟨m.heap, m.env, m.cost⟩).2.cost ≤ _
        ∧ (run args ⟨m.heap, μ.env, μ.cost⟩).2.cost ≤ _
      rw [hcost, hcost']
      exact hμ.bounds
  refine hhost.after (b := fun reply m => replyCharges e reply m.heap) fun reply m' hm' => ?_
  cases hm'
  cases hreply : (run args ⟨m.heap, m.env, m.cost⟩).1 with
  | values vs =>
    rw [hreply] at hbill
    exact Agrees.bind_free (agrees_deliver hbill) fun _ m₂ _ =>
      plain_advance.blind.agrees m₂
  | fault f => exact (Plain.fail f).blind.agrees _
  | crash => exact Blind.crash.agrees _

theorem agrees_behave {c : Context} {e : Extension} (he : e.IgnoresCost) (args : List Value)
    (hbill : ∀ k ∈ behaveBill c e args m, 0 ≤ k.amount c.limits) :
    Agrees c.limits gap (behaveBill c e args m) (behave c e args) m := by
  unfold behave
  rw [behaveBill] at hbill ⊢
  cases hbehaviour : e.behaviour with
  | host run =>
    rw [hbehaviour] at hbill
    exact agrees_callHost he hbehaviour args hbill
  | execContract =>
    rw [hbehaviour] at hbill
    exact .get_bind (agrees_callContract _ hbill) fun _ _ => rfl
  | callContract =>
    rw [hbehaviour] at hbill
    refine .get_bind (.ofExcept_bind fun state hstate => ?_) fun _ _ => rfl
    simp only [Behaviour.request?, hstate] at hbill ⊢
    exact agrees_callContract _ hbill

theorem agrees_callExtension {c : Context} {e : Extension} (he : e.IgnoresCost)
    {count : Option Nat} (hbill : ∀ k ∈ extensionBill c e count m, 0 ≤ k.amount c.limits) :
    Agrees c.limits gap (extensionBill c e count m) (callExtension c e count) m := by
  have hauto : ∀ key ∈ e.auto, Sees hideCost key := fun key hkey =>
    sees_hideCost fun h => he.auto (h ▸ hkey)
  rw [callExtension_eq, extensionArgs_eq]
  simp only [bind_assoc, pure_bind]
  refine .after ((plain_extensionParams hauto count).blind.agrees m) fun args m₁ hm₁ => ?_
  rw [extensionBill, Bill.after_of_ok hm₁] at hbill
  obtain ⟨hpay, hrest⟩ := List.forall_mem_append.1 hbill
  refine (agrees_pay hpay).bind fun _ m₂ hm₂ => ?_
  rw [Bill.after_of_ok hm₂] at hrest
  refine .after ((plain_checkDepth c).blind.agrees m₂) fun _ m₃ hm₃ => ?_
  rw [Bill.after_of_ok hm₃] at hrest
  exact agrees_behave he args hrest

/-! ### Instructions -/

/-- An assignment to any name but the cost is made in both environments. -/
theorem agrees_assignExtend {name : String} (hname : name ≠ "txcost") (x : Value) (m : Machine) :
    Agrees limits gap [] (assignExtend name x) m := by
  have hset : ∀ m, Agrees limits gap []
      (modify fun m => { m with env := m.env.insert name x } : Exec PUnit) m :=
    fun m => agrees_modify rfl fun μ hμ => ⟨{ μ with env := μ.env.insert name x }, rfl,
      Dict.insert_erase_congr hμ.env name x, hμ.cost, hμ.ticks, hμ.bounds⟩
  refine .get_bind ?_ fun μ hμ => ?_
  · split
    · split
      · exact ((Plain.fail _).blind.agrees m).bind_free fun _ m' _ => hset m'
      · exact hset m
    · exact hset m
  · have hsame : (m.withMeter μ).env.get? name = m.env.get? name :=
      (Dict.get?_eq_of_erase_eq hμ.env hname).symm
    rw [hsame]

theorem agrees_assignAll {c : Context} {ts : List Target} (hts : .extend "txcost" ∉ ts)
    (xs : List Value) (m : Machine) : Agrees limits gap [] (assignAll c ts xs) m := by
  induction ts generalizing xs m with
  | nil => exact (Blind.pure ()).agrees m
  | cons t ts ih =>
    obtain ⟨ht, hrest⟩ := not_or.1 (List.mem_cons.not.1 hts)
    cases xs with
    | nil => exact (Blind.pure ()).agrees m
    | cons x xs =>
      refine .bind_free ?_ fun _ m' _ => ih hrest xs m'
      cases t with
      | var v => exact (plain_assignVar c v x).blind.agrees m
      | extend name => exact agrees_assignExtend (fun h => ht (h ▸ rfl)) x m

theorem agrees_assign {c : Context} {a : Activation} {rest : List Frame}
    (hframes : m.frames = .block a :: rest) (ha : .extend "txcost" ∉ a.targets) :
    Agrees limits gap [] (perform c .assign) m := by
  refine .get_bind ?_ fun _ _ => rfl
  rw [hframes]
  exact ((Blind.modifyTop _).agrees m).bind_free fun _ m₁ _ =>
    ((plain_popN _).blind.agrees m₁).bind_free fun values m₂ _ =>
      (agrees_assignAll ha values m₂).bind_free fun _ m₃ _ => plain_advance.blind.agrees m₃

end Exec

/-- The extension that an instruction calls, be it by name. -/
def Context.callee? (c : Context) : Op → Option Extension
  | .callExtend name =>
    match c.registry.objects.get? name with
    | some (.ext e) => some e
    | _ => none
  | op => op.extension?

namespace Exec

variable {gap : Int} {m : Machine} {c : Context}

/-- An instruction agrees if it neither reads the cost nor calls what looks at it nor assigns to
it. -/
theorem agrees_perform {op : Op} (hreads : "txcost" ∉ op.reads)
    (hcallee : ∀ e, c.callee? op = some e → e.IgnoresCost)
    (htargets : ∀ a rest, m.frames = .block a :: rest → .extend "txcost" ∉ a.targets)
    (hbill : ∀ k ∈ opBill c op m, 0 ≤ k.amount c.limits) :
    Agrees c.limits gap (opBill c op m) (perform c op) m := by
  have hsees : ∀ name ∈ op.reads, Sees hideCost name := fun name hname =>
    sees_hideCost fun h => hreads (h ▸ hname)
  -- What extensions read and what a target names are the only ways to see the cost that is left.
  cases op with
  | callExtend name =>
    refine .after (plain_popCount.blind.agrees m) fun count m₁ hm₁ => ?_
    rw [opBill, Bill.after_of_ok hm₁] at hbill
    cases hname : c.registry.objects.get? name with
    | none => exact (Plain.fail _).blind.agrees m₁
    | some b =>
      cases b with
      | ext e =>
        rw [hname] at hbill
        exact agrees_callExtension (hcallee e (by rw [Context.callee?, hname])) hbill
      | contract | func | var | extVar => exact (Plain.fail _).blind.agrees m₁
  | call f =>
    cases f with
    | func id => exact agrees_callFunc hbill
    | ext e => exact agrees_callExtension (hcallee e rfl) hbill
  | callVariadic f =>
    cases f with
    | func id =>
      refine .after (plain_popCount.blind.agrees m) fun count m₁ hm₁ => ?_
      rw [opBill, Bill.after_of_ok hm₁] at hbill
      exact agrees_callFunc hbill
    | ext e =>
      refine .after (plain_popCount.blind.agrees m) fun count m₁ hm₁ => ?_
      rw [opBill, Bill.after_of_ok hm₁] at hbill
      exact agrees_callExtension (hcallee e rfl) hbill
  | assign =>
    rcases hframes : m.frames with _ | ⟨a | k, rest⟩
    · refine .get_bind ?_ fun _ _ => rfl
      rw [hframes]
      exact (Blind.pure ()).agrees m
    · exact agrees_assign hframes (htargets a rest hframes)
    · refine .get_bind ?_ fun _ _ => rfl
      rw [hframes]
      exact (Blind.pure ()).agrees m
  | push | var | extendVar | label | error | funcName | unwrapArr | mapInit | arrayInit | index
  | setIndex | unary | binary | «return» | «if» | «else» | «while» | «continue» | «break»
  | assignVar => exact (blind_perform c rfl hsees).agrees m

/-! ### Steps -/

/-- The instruction that the next step runs. -/
def nextOp? (c : Context) (m : Machine) : Option Op :=
  match m.frames, m.ending with
  | .block a :: _, none => ((c.block a.block).code[a.pc]?).map Instr.op
  | _, _ => none

/-- An instruction that a step runs is one of the innermost block. -/
theorem nextOp?_eq_some {c : Context} {m : Machine} {op : Op} (h : nextOp? c m = some op) :
    ∃ a rest i, m.frames = .block a :: rest ∧ m.ending = none ∧
      (c.block a.block).code[a.pc]? = some i ∧ i.op = op := by
  unfold nextOp? at h
  split at h
  · rename_i a rest hframes hending
    obtain ⟨i, hcode, hop⟩ := Option.map_eq_some_iff.1 h
    exact ⟨a, rest, i, hframes, hending, hcode, hop⟩
  · cases h

theorem frames_ne_nil_of_nextOp? {c : Context} {m : Machine} {op : Op} (h : nextOp? c m = some op) :
    m.frames ≠ [] := by
  obtain ⟨a, rest, -, hframes, -⟩ := nextOp?_eq_some h
  rw [hframes]
  exact List.cons_ne_nil _ _

/-- An extension that a step calls is one that programs of the registry can call. -/
theorem offers_of_callee {c : Context} {m : Machine} {op : Op} (hop : nextOp? c m = some op)
    {e : Extension} (he : c.callee? op = some e) : c.registry.Offers e := by
  obtain ⟨a, rest, i, -, -, hcode, rfl⟩ := nextOp?_eq_some hop
  unfold Context.callee? at he
  split at he
  · split at he
    · rename_i hname
      cases he
      exact .inl ⟨_, hname⟩
    · cases he
  · exact .inr ⟨_, i, Array.mem_of_getElem? hcode, he⟩

/-- The end of a contract agrees: what is put back is the environment from before the call. -/
theorem agrees_resume {k : ContractCall} {rest : List Frame}
    (hframes : m.frames = .contract k :: rest) (hbill : ∀ k ∈ stepBill c m, 0 ≤ k.amount c.limits) :
    Agrees c.limits gap (stepBill c m) (resume c k rest) m := by
  rw [stepBill, hframes] at hbill ⊢
  cases hsections : k.sections with
  | cons s ss =>
    have hblind : Blind hideCost (resume c k rest) := by
      unfold resume
      rw [hsections]
      exact .bind (.modify fun _ _ => rfl) fun _ => blind_start c s [] .section
    simp only [hsections]
    exact hblind.agrees m
  | nil =>
    simp only [hsections] at hbill ⊢
    have hresume : resume c k rest = (do
        let m ← get
        modify (finished k rest)
        behindContract k ((m.env.get? "result").getD .nil)) :=
      funext fun m => resume_nil c rest m hsections
    have hfinish : Agrees c.limits gap [] (modify (finished k rest) : Exec PUnit) m :=
      agrees_modify rfl fun μ hμ => ⟨⟨k.restore μ.env, μ.cost, μ.ticks⟩, rfl,
        hideCost_restore hμ.env k, hμ.cost, hμ.ticks, hμ.bounds⟩
    rw [hresume]
    refine .get_bind ?_ fun μ hμ => ?_
    · unfold behindContract
      cases hvia : k.via with
      | none => exact hfinish.bind_free fun _ m₁ _ => (plain_push _).blind.agrees m₁
      | some e =>
        rw [hvia] at hbill
        refine hfinish.after (b := fun _ m₁ =>
          queryCharges e [(m.env.get? "result").getD .nil] m₁.heap)
          fun _ m₁ hm₁ => ?_
        cases hm₁
        exact Agrees.bind_free (agrees_deliver hbill) fun _ m₂ _ => plain_advance.blind.agrees m₂
    · -- The value of the contract is the variable `result`, which both environments share.
      have hresult : μ.env.get? "result" = m.env.get? "result" :=
        (Dict.get?_eq_of_erase_eq hμ.env (by decide)).symm
      exact congrArg (fun r : Option Value => (do
        modify (finished k rest)
        behindContract k (r.getD .nil) : Exec Unit)) hresult

/-- Whether the next step does not look at the cost that is left. -/
structure StepIgnoresCost (c : Context) (m : Machine) : Prop where
  reads : ∀ op, nextOp? c m = some op → "txcost" ∉ op.reads
  callee : ∀ op e, nextOp? c m = some op → c.callee? op = some e → e.IgnoresCost
  targets : ∀ a rest, m.frames = .block a :: rest → .extend "txcost" ∉ a.targets

/-- What a step does, and is charged for, that runs an instruction. -/
theorem step_of_nextOp? {op : Op} (h : nextOp? c m = some op) :
    step c m = (tick c >>= fun _ => perform c op) m ∧
      stepBill c m = .instruction :: Bill.after (tick c) (fun _ => opBill c op) m := by
  obtain ⟨a, rest, i, hframes, hending, hcode, rfl⟩ := nextOp?_eq_some h
  refine ⟨step_of_instr hframes hending hcode, ?_⟩
  rw [stepBill, hframes]
  simp only [hending, hcode]

/-- The instruction of a step does the same in a twin, behind the charge for its start. -/
theorem StepIgnoresCost.perform (hm : StepIgnoresCost c m) {op : Op} (hop : nextOp? c m = some op)
    (hbill : ∀ k ∈ stepBill c m, 0 ≤ k.amount c.limits) {m₁ : Machine}
    (h : tick c m = .ok () m₁) : Agrees c.limits gap (opBill c op m₁) (perform c op) m₁ := by
  rw [(step_of_nextOp? hop).2] at hbill
  obtain ⟨-, hrest⟩ := List.forall_mem_cons.1 hbill
  rw [Bill.after_of_ok h] at hrest
  exact agrees_perform (hm.reads op hop) (fun e => hm.callee op e hop)
    (fun a rest hframes => hm.targets a rest ((frames_of_tick h).symm.trans hframes)) hrest

/-- **A step does the same in a twin**, or the twin has nothing left, if no time limit is set, the
step does not look at the cost, and nothing on its bill is negative. -/
theorem step_agrees (hc : c.allowance = none) (hm : StepIgnoresCost c m)
    (hbill : ∀ k ∈ stepBill c m, 0 ≤ k.amount c.limits) :
    Agrees c.limits gap (stepBill c m) (step c) m := by
  refine .get_bind ?_ fun _ _ => rfl
  rcases hframes : m.frames with _ | ⟨a | k, rest⟩
  · rw [stepBill, hframes]
    exact (Blind.pure ()).agrees m
  · refine .get_bind ?_ fun _ _ => rfl
    cases hending : m.ending with
    | some status =>
      simp only [stepBill, hframes, hending]
      exact (blind_leave c status).agrees m
    | none =>
      cases hcode : (c.block a.block).code[a.pc]? with
      | none =>
        simp only [stepBill, hframes, hending, hcode]
        exact (blind_leave c .normal).agrees m
      | some i =>
        have hop : nextOp? c m = some i.op := by
          simp only [nextOp?, hframes, hending, hcode, Option.map_some]
        rw [(step_of_nextOp? hop).2]
        exact (agrees_tick hc m).bind fun _ m₁ hm₁ => hm.perform hop hbill hm₁
  · exact agrees_resume hframes hbill

/-- A step that runs an instruction costs something. -/
theorem step_cost_lt (hm : StepIgnoresCost c m) {op : Op} (hop : nextOp? c m = some op)
    (hbill : ∀ k ∈ stepBill c m, 0 ≤ k.amount c.limits) {m' : Machine}
    (h : step c m = .ok () m') : m'.cost < m.cost := by
  rw [(step_of_nextOp? hop).1] at h
  obtain ⟨_, m₁, hm₁, hrest⟩ := bind_eq_ok h
  have htick := metered_tick c m
  rw [hm₁] at htick
  have htick' : m₁.cost = m.cost - total c.limits [.instruction] := htick.ok.2
  have hone : total c.limits [.instruction] = 1 := rfl
  have hperform := (@StepIgnoresCost.perform 0 m c hm op hop hbill m₁ hm₁ () m' hrest).1
  omega

end Exec

end Covenant
