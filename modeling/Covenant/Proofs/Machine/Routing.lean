import Covenant.Proofs.Compile.Counted
import Covenant.Proofs.Machine.Evaluation
import Covenant.Proofs.Machine.Segments
import Covenant.Proofs.Machine.Spreading

/-!
# Where the arguments of a call go

A call of a function with segments takes an operand for these and its own arguments from the stack
(`Exec.callSlots_apply`). It puts the arguments into the variables of the parameters and what was
kept for a segment into those of the segment, and changes nothing that was there
(`Exec.bindCall_eq_ok`). If all parameters accept what they get, this never fails
(`Exec.bindCall_of_accepts`).
-/

namespace Covenant

open Covenant.Computation

/-- The arguments that a call passes: those on the stack, of which the last one is spread if that
was asked for and the function collects what is left. -/
def Machine.passed (m : Machine) (variadic : Bool) (vs : List Value) : List Value :=
  if variadic && m.spread then vs.dropLast ++ vs.getLast?.elim [] (Value.elements m.heap) else vs

/-- The number of arguments that a call tells a function, if this collects what is left of them. -/
def counted (variadic : Bool) (count : Nat) : Option Nat := if variadic then some count else none

theorem Segment.takes_iff {t : Segment} {count : Nat} : t.takes count = true ↔
    if t.variadic then t.params.length ≤ count + 1 else count = t.params.length := by
  unfold takes
  split
  · exact decide_eq_true_iff
  · exact beq_iff_eq

namespace Exec

variable {c : Context} {id : BlockId} {b : Block} {f : FuncInfo}
  {gs : Dict Segment} {operand : Value}
  {vs ws slots : List Value} {named : List (String × List Value)} {m m' : Machine}

/-- One value for each parameter of a function, if it gets enough arguments. -/
def gatherArgs (f : FuncInfo) (vs : List Value) : Exec (List Value) :=
  if f.variadic then variadicArgs f vs else pure vs

/-- The variables of a function that gets some arguments, while nothing is put into those of its
segments. -/
def bindBase (b : Block) (f : FuncInfo) (vs : List Value) : Exec (List Value) := do
  let args ← gatherArgs f vs
  let args ← ofExcept (checkParams 1 f.params args)
  return args ++ (← defaults (b.vars.toList.drop args.length))

/-- Binding the arguments of segments that an operand holds. -/
def bindNamed (f : FuncInfo) (operand : Value) (slots : List Value) : Exec (List Value) :=
  match f.segments, some operand with
  | some segments, some (.map r) => do bindSegments ((← get).heap.entries r) segments.toList slots
  | _, _ => pure slots

/-- A call of a function with segments takes the operand that holds their arguments. -/
theorem popSegments_apply (hgs : f.segments = some gs) {below : Array Value}
    (hstack : m.stack = below.push operand) :
    popSegments f m = .ok (some operand) { m with stack := below } := by
  have hpop : pop m = .ok operand { m with stack := below } := by
    rw [pop_eq_ok (m := m) (v := operand) (by rw [hstack, Array.back?_push]),
      hstack, Array.pop_push]
  unfold popSegments
  rw [hgs]
  show (pop >>= fun v => pure (some v)) m = _
  rw [bind_of_ok hpop]
  rfl

/-- **A call takes its own operands** and binds them: the segments' operand from the top of the
stack, and the arguments from below it. -/
theorem callSlots_apply (hf : (c.block id).func? = some f) (hgs : f.segments = some gs)
    {below : Array Value} (hstack : m.stack = (below ++ vs.toArray).push operand)
    (hfixed : f.variadic = false → vs.length = f.params.length) :
    callSlots c id (counted f.variadic vs.length) m
      = (bindBase (c.block id) f (m.passed f.variadic vs) >>= bindNamed f operand)
        { m with stack := below, spread := false } := by
  have hid := c.lt_size_of_func? hf
  have hpopped := popSegments_apply hgs hstack
  unfold callSlots bindBase bindNamed gatherArgs counted Machine.passed
  rw [if_neg (Nat.not_le.2 hid)]
  simp only [hf]
  rw [bind_of_ok hpopped]
  -- Fixed arguments are as many as the parameters; others were counted on the stack.
  cases hvariadic : f.variadic with
  | true =>
    have htake := takeArgs_of_popN (popN_append (m := { m with stack := below ++ vs.toArray }) rfl)
    simp only [if_true, Bool.true_and, bind_assoc, pure_bind]
    exact bind_of_ok htake
  | false =>
    have htake : takeFixed f.params.length { m with stack := below ++ vs.toArray }
        = .ok vs { m with stack := below, spread := false } := by
      rw [← hfixed hvariadic]
      unfold takeFixed
      rw [modify_bind_apply]
      exact popN_append (m := { m with stack := below ++ vs.toArray, spread := false }) rfl
    simp only [Bool.false_eq_true, if_false, Bool.false_and, bind_assoc, pure_bind]
    exact bind_of_ok htake

/-- Arguments are gathered for the parameters, and refused if there are too few of them. -/
theorem gathered_of_gatherArgs (hpos : f.variadic = true → 0 < f.params.length)
    (hfixed : f.variadic = false → vs.length = f.params.length)
    (h : gatherArgs f vs m = .ok ws m') :
    Grew m m' ∧ Gathered m'.heap f.variadic f.params.length vs ws ∧
    ws.length = f.params.length := by
  have hfits : if f.variadic then f.params.length ≤ vs.length + 1 else vs.length
    = f.params.length := by
    cases hvariadic : f.variadic with
    | true =>
      show f.params.length ≤ vs.length + 1
      by_contra hfew
      rw [gatherArgs, hvariadic, if_pos rfl, variadicArgs, if_pos (by omega)] at h
      obtain ⟨_, _, hfail, -⟩ := bind_eq_ok h
      cases hfail
    | false => exact hfixed hvariadic
  refine gathered_of_collectTail hpos hfits (.trans ?_ h)
  cases hvariadic : f.variadic with
  | true =>
    rw [hvariadic, if_pos rfl] at hfits
    rw [gatherArgs, hvariadic, if_pos rfl, if_pos rfl, variadicArgs, if_neg (by omega)]
  | false =>
    rw [gatherArgs, hvariadic]
    rfl

/-- Arguments that the parameters accept are gathered. -/
theorem gatherArgs_of_accepts (hvs : Accepts f.variadic f.params vs) (m : Machine) :
    ∃ ws m', gatherArgs f vs m = .ok ws m' := by
  have hfits := hvs.fits
  unfold gatherArgs
  cases hvariadic : f.variadic with
  | true =>
    rw [hvariadic, if_pos rfl] at hfits
    rw [if_pos rfl, variadicArgs, if_neg (by omega)]
    exact ⟨_, _, collectTail_apply (f.params.length - 1) vs m⟩
  | false => exact ⟨vs, m, rfl⟩

/-- A variable behind the parameters holds what it does when it is new. -/
theorem initialIn_defaults {h h' : Heap} {us : List Ty} {args : List Value}
    (hext : (h.defaults (us.drop args.length)).2.Extends h') {i : Nat}
    {t : Ty} (ht : us[i]? = some t) (hi : args.length ≤ i) :
    ∃ v, (args ++ (h.defaults (us.drop args.length)).1)[i]? = some v ∧ t.InitialIn h' v := by
  have hall := h.initial_defaults (us.drop args.length)
  have hget : (us.drop args.length)[i - args.length]? = some t := by
    rw [List.getElem?_drop, Nat.add_sub_cancel' hi]
    exact ht
  obtain ⟨hlt, rfl⟩ := List.getElem?_eq_some_iff.1 hget
  have hinit := (List.forall₂_iff_get.1 hall).2 (i - args.length) hlt (hall.length_eq ▸ hlt)
  refine ⟨_, ?_, hinit.grow hext⟩
  rw [List.getElem?_append_right hi]
  exact List.getElem?_eq_getElem _

section binding

variable {g : Signature} {K : Ref → Prop}

/-- Values that come first are the first variables. -/
theorem map_getElem?_range (xs ys : List Value) :
    (List.range xs.length).map ((xs ++ ys)[·]?) = xs.map some := by
  refine List.ext_getElem? fun i => ?_
  rw [List.getElem?_map, List.getElem?_map]
  by_cases hi : i < xs.length
  · rw [List.getElem?_range hi, Option.map_some, List.getElem?_append_left hi,
      List.getElem?_eq_getElem hi]
    rfl
  · rw [List.getElem?_eq_none (by rwa [List.length_range, ← Nat.not_lt]),
      List.getElem?_eq_none (Nat.not_lt.1 hi)]
    rfl

/-- The variables of a function in front of the segments. -/
theorem routed_of_gathered (hgathered : Gathered m.heap f.variadic f.params.length vs ws)
    (hlength : ws.length = f.params.length) :
    let args := List.zipWith Ty.cut f.params ws
    let new := m.heap.defaults (b.vars.toList.drop args.length)
    b.vars.size ≤ (args ++ new.1).length ∧ Routed b f gs new.2 (args ++ new.1) vs [] := by
  intro args new
  have hargs : args.length = f.params.length := by
    rw [List.length_zipWith, hlength, Nat.min_self]
  have hext : m.heap.Extends new.2 := (lasting_true.defaults trivial _).1
  refine ⟨?_, ?_, nofun, fun i t ht hi _ => ?_⟩
  · rw [List.length_append, Heap.length_defaults, List.length_drop, Array.length_toList]
    exact le_add_tsub
  · exact Receives.congr ⟨ws, hgathered, hargs ▸ map_getElem?_range args new.1⟩ hext fun _ _ => rfl
  · exact initialIn_defaults (.refl _) (by rwa [Array.getElem?_toList]) (hargs ▸ hi)

/-- The variables of segments that have been called hold their arguments behind them. -/
theorem routed_of_bindSegments {entries : Dict Value} {slots' : List Value} (hlayout : g.Layout f b)
    (hgs : f.segments = some gs) (hrouted : Routed b f gs m.heap slots vs [])
    (hentries : ∀ p ∈ named, ∃ q, entries.get? p.1 = some (.array q) ∧
      m.heap.cells[q]? = some (.array p.2.toArray))
    (hnames : ∀ name v, entries.get? name = some v → name ∈ named.map Prod.fst)
    (hnamed : ∀ p ∈ named, ∃ t, gs.get? p.1 = some t ∧ t.takes p.2.length = true)
    (h : bindSegments entries gs.toList slots m = .ok slots' m') :
    Grew m m' ∧ slots'.length = slots.length ∧ Routed b f gs m'.heap slots' vs named := by
  -- A segment in the map was named in the call, with as many values as its parameters take.
  have hcalled : ∀ p ∈ gs.toList, ∀ r, entries.get? p.1 = some (.array r) → ∃ vs : List Value,
      m.heap.cells[r]? = some (.array vs.toArray) ∧
        if p.2.variadic then p.2.params.length ≤ vs.length + 1 else vs.length
          = p.2.params.length := by
    intro p hp r hr
    obtain ⟨q, hq, hname⟩ := List.mem_map.1 (hnames _ _ hr)
    obtain ⟨r', hr', hcell⟩ := hentries q hq
    obtain ⟨t, ht, htakes⟩ := hnamed q hq
    rw [hname] at hr' ht
    cases hr.symm.trans hr'
    cases ht.symm.trans (Dict.get?_eq_some_iff.2 hp)
    exact ⟨q.2, hcell, Segment.takes_iff.1 htakes⟩
  obtain ⟨hgrew, hsize, hothers, hreceives⟩ :=
    bindSegments_eq_ok (hlayout.placed hgs) (hlayout.offsets_nodup hgs) hcalled h
  refine ⟨hgrew, hsize, ?_, fun p hp t ht => ?_, fun i t ht hi hnot => ?_⟩
  · refine hrouted.base.congr hgrew.heap fun i hi => hothers i fun p hp hmem => ?_
    exact absurd (hlayout.le_of_mem_offsets hgs hp hmem) (Nat.not_le.2 (List.mem_range.1 hi))
  · obtain ⟨r, hr, hcell⟩ := hentries p hp
    exact hreceives (p.1, t) (Dict.get?_eq_some_iff.1 ht) r p.2 hr hcell
  · obtain ⟨v, hv, hinitial⟩ := hrouted.others i t ht hi fun _ _ _ => List.not_mem_nil
    refine ⟨v, .trans (hothers i fun p hp hmem r hr => ?_) hv, hinitial.grow hgrew.heap⟩
    exact hnot p hp hmem (hnames _ _ hr)

variable (gs) in
/-- What a function starts with before its segments are bound. -/
theorem bindBase_eq_ok (hlayout : g.Layout f b)
    (hfixed : f.variadic = false → vs.length = f.params.length)
    (h : bindBase b f vs m = .ok slots m') :
    Grew m m' ∧ b.vars.size ≤ slots.length ∧ Routed b f gs m'.heap slots vs [] := by
  have hpos : f.variadic = true → 0 < f.params.length := fun hv =>
    List.length_pos_of_mem (List.mem_of_getLast? (hlayout.last hv))
  obtain ⟨ws, m₁, hws, h⟩ := bind_eq_ok h
  obtain ⟨hgrew, hgathered, hlength⟩ := gathered_of_gatherArgs hpos hfixed hws
  obtain ⟨args, m₂, hargs, h⟩ := bind_eq_ok h
  obtain ⟨hchecked, rfl⟩ := eq_of_ofExcept hargs
  obtain rfl := eq_of_checkParams hchecked hlength
  cases h
  exact ⟨hgrew.trans ⟨_, (lasting_true.defaults trivial _).1, rfl⟩,
    routed_of_gathered hgathered hlength⟩

/-- **What a call binds is routed**: the parameters hold the arguments, those of the segments that
have been called what is kept for them, and nothing that was there is changed. -/
theorem bindCall_eq_ok (hlayout : g.Layout f b) (hgs : f.segments = some gs)
    (hheld : Holding K m.heap operand named)
    (hnamed : ∀ p ∈ named, ∃ t, gs.get? p.1 = some t ∧ t.takes p.2.length = true)
    (hfixed : f.variadic = false → vs.length = f.params.length)
    (h : (bindBase b f vs >>= bindNamed f operand) m = .ok slots m') :
    Grew m m' ∧ b.vars.size ≤ slots.length ∧ Routed b f gs m'.heap slots vs named := by
  obtain ⟨slots₀, m₀, hbase, h⟩ := bind_eq_ok h
  obtain ⟨hgrew, hsize, hrouted⟩ := bindBase_eq_ok gs hlayout hfixed hbase
  unfold bindNamed at h
  rw [hgs] at h
  cases hheld with
  | none =>
    cases h
    exact ⟨hgrew, hsize, hrouted⟩
  | @some r entries _ _ hcell hentries hnames =>
    have hmap : m₀.heap.entries r = entries := by rw [Heap.entries, hgrew.cell hcell]
    change bindSegments (m₀.heap.entries r) gs.toList slots₀ m₀ = _ at h
    rw [hmap] at h
    obtain ⟨hgrew', hsize', hrouted'⟩ := routed_of_bindSegments hlayout hgs hrouted (fun p hp => by
      obtain ⟨q, -, hq, hcell⟩ := hentries p hp
      exact ⟨q, hq, hgrew.cell hcell⟩) hnames hnamed h
    exact ⟨hgrew.trans hgrew', hsize' ▸ hsize, hrouted'⟩

/-- A call is bound if the parameters accept the arguments. -/
theorem bindCall_of_accepts (hlayout : g.Layout f b) (hgs : f.segments = some gs)
    (hheld : Holding K m.heap operand named) (hvs : Accepts f.variadic f.params vs)
    (hnamed : ∀ p ∈ named, ∃ t, gs.get? p.1 = some t ∧ Accepts t.variadic t.params p.2) :
    ∃ slots m', (bindBase b f vs >>= bindNamed f operand) m = .ok slots m' := by
  have hpos : f.variadic = true → 0 < f.params.length := fun hv =>
    List.length_pos_of_mem (List.mem_of_getLast? (hlayout.last hv))
  obtain ⟨ws, m₁, hws⟩ := gatherArgs_of_accepts hvs m
  have hfixed : f.variadic = false → vs.length = f.params.length := fun hv => by
    have hfits := hvs.fits
    rw [hv] at hfits
    exact hfits
  obtain ⟨-, hgathered, -⟩ := gathered_of_gatherArgs hpos hfixed hws
  have hchecked := checkParams_of_takes (hvs.gathered hlayout.last hgathered) 1
  have hbase : ∃ slots₀ m₀, bindBase b f vs m = .ok slots₀ m₀ := by
    unfold bindBase
    rw [bind_of_ok hws, hchecked]
    exact ⟨_, _, rfl⟩
  obtain ⟨slots₀, m₀, hbase⟩ := hbase
  obtain ⟨hgrew, hsize, -⟩ := bindBase_eq_ok gs hlayout hfixed hbase
  rw [bind_of_ok hbase]
  unfold bindNamed
  rw [hgs]
  -- Without a segment in the call the operand is `nil`, and nothing else is bound.
  cases hheld with
  | none => exact ⟨_, _, rfl⟩
  | @some r entries _ _ hcell hentries hnames =>
    have hmap : m₀.heap.entries r = entries := by rw [Heap.entries, hgrew.cell hcell]
    change ∃ slots m', bindSegments (m₀.heap.entries r) gs.toList slots₀ m₀ = .ok slots m'
    rw [hmap]
    refine bindSegments_of_accepts (hlayout.placed hgs) (hlayout.offsets_nodup hgs)
      (fun p hp i hi => Nat.lt_of_lt_of_le (hlayout.lt_of_mem_offsets hgs hp hi) hsize)
      fun p hp q hq => ?_
    obtain ⟨p', hp', hname⟩ := List.mem_map.1 (hnames _ _ hq)
    obtain ⟨q', -, hq', hcell'⟩ := hentries p' hp'
    obtain ⟨t, ht, haccepts⟩ := hnamed p' hp'
    rw [hname] at hq' ht
    cases hq.symm.trans hq'
    cases ht.symm.trans (Dict.get?_eq_some_iff.2 hp)
    exact ⟨p'.2, hgrew.cell hcell', haccepts⟩

end binding

end Exec

end Covenant
