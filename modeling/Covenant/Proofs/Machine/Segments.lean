import Covenant.Proofs.Compile.Layout
import Covenant.Proofs.Machine.Arguments

/-!
# Arguments of chained segments

A function with chained segments gets its own arguments and, in a map, an array of arguments for
each segment that has been called. `Receives` says what the variables of a list of parameters hold
then: the arguments one by one, or, if the last parameter takes what is left, that in a new array.
Binding a segment fills its own variables and leaves the others (`bindSegment_eq_ok`), and segments
have different ones, so that in the end each of them holds what its segment was called with, and the
variables of the others hold what they did (`bindSegments_eq_ok`).
-/

namespace Covenant

open Covenant.Computation

/-! ### What parameters are given -/

/-- An argument as a parameter of some type gets it: one for an integer loses its fraction. -/
def Ty.cut : Ty → Value → Value
  | .int, .float x => .int (Number.Binary64.toInt64 x)
  | _, v => v

/-- Whether a parameter of some type can be given a value. -/
def Ty.takes (t : Ty) (v : Value) : Bool := t.accepts (t.cut v)

/-- Whether a list of parameters can be given some values, of which the last one may take what is
left. -/
def Accepts (variadic : Bool) (ts : List Ty) (vs : List Value) : Prop :=
  if variadic then List.Forall₂ (fun t v => t.takes v = true) ts.dropLast (vs.take (ts.length - 1))
  else List.Forall₂ (fun t v => t.takes v = true) ts vs

/-- One value for each parameter: the arguments, or those in front of the last parameter and a new
array of what is left. -/
def Gathered (h : Heap) (variadic : Bool) (count : Nat) (vs ws : List Value) : Prop :=
  if variadic then ∃ r, ws = vs.take (count - 1) ++ [.array r] ∧
    h.cells[r]? = some (.array (vs.drop (count - 1)).toArray)
  else ws = vs

/-- Whether the variables of a list of parameters hold the values that these have been given. -/
def Receives (h : Heap) (slots : List Value) (variadic : Bool) (is : List Nat) (ts : List Ty)
    (vs : List Value) : Prop :=
  ∃ ws, Gathered h variadic ts.length vs ws ∧ is.map (slots[·]?)
    = (List.zipWith Ty.cut ts ws).map some

/-- Whether a call of a segment with this many arguments fits the signature. -/
def Segment.takes (g : Segment) (count : Nat) : Bool :=
  if g.variadic then g.params.length ≤ count + 1 else count == g.params.length

/-- Whether each parameter of a segment has a variable, and the one that takes what is left is an
array. -/
structure Segment.Placed (g : Segment) : Prop where
  length : g.offsets.length = g.params.length
  last : g.variadic = true → g.params.getLast? = some .array

section checking

variable {i : Nat} {t : Ty} {ts : List Ty} {v : Value} {vs ws : List Value}

/-- Parameters are checked one after the other, and the first one that does not fit is reported by
its place. -/
theorem checkParams_cons (i : Nat) (t : Ty) (ts : List Ty) (v : Value) (vs : List Value) :
    checkParams i (t :: ts) (v :: vs) = if t.takes v = true
      then checkParams (i + 1) ts vs >>=
      fun ws => .ok (t.cut v :: ws) else .error (.paramType i) := by
  generalize hrest : checkParams (i + 1) ts vs = rest
  unfold checkParams
  simp only [hrest]
  split
  · exact (if_pos rfl).symm
  · rename_i hne
    have hcut : t.cut v = v := by
      unfold Ty.cut
      split
      · exact (hne _ rfl rfl).elim
      · rfl
    rw [Ty.takes, hcut]
    split <;> rfl

/-- A check passes if each parameter can be given its argument. -/
theorem checkParams_of_takes (h : List.Forall₂ (fun t v => t.takes v = true) ts vs) (i : Nat) :
    checkParams i ts vs = .ok (List.zipWith Ty.cut ts vs) := by
  induction h generalizing i with
  | nil => rfl
  | cons htv _ ih =>
    rw [checkParams_cons, if_pos htv, ih]
    rfl

/-- What passes a check is cut. -/
theorem eq_of_checkParams (h : checkParams i ts vs = .ok ws) (hlength : vs.length = ts.length) :
    ws = List.zipWith Ty.cut ts vs := by
  induction ts generalizing i vs ws with
  | nil =>
    obtain rfl := List.length_eq_zero_iff.1 hlength
    cases h
    rfl
  | cons t ts ih =>
    obtain ⟨v, vs, rfl⟩ := List.exists_cons_of_length_eq_add_one hlength
    rw [checkParams_cons] at h
    split at h
    · obtain ⟨us, hus, hws⟩ := except_bind_eq_ok h
      cases hws
      exact congrArg _ (ih hus (Nat.succ.inj hlength))
    · cases h

end checking

section accepting

variable {h : Heap} {variadic : Bool} {ts : List Ty} {vs ws : List Value}

/-- As many arguments are accepted as fit. -/
theorem Accepts.fits (hvs : Accepts variadic ts vs) :
    if variadic then ts.length ≤ vs.length + 1 else vs.length = ts.length := by
  cases variadic with
  | false => exact (List.Forall₂.length_eq hvs).symm
  | true =>
    have hlength := List.Forall₂.length_eq hvs
    rw [List.length_dropLast, List.length_take] at hlength
    show ts.length ≤ vs.length + 1
    omega

/-- The values for the parameters are accepted if the arguments are. -/
theorem Accepts.gathered (hvs : Accepts variadic ts vs)
    (hlast : variadic = true → ts.getLast? = some .array)
    (hws : Gathered h variadic ts.length vs ws) :
    List.Forall₂ (fun t v => t.takes v = true) ts ws := by
  cases variadic with
  | false =>
    obtain rfl : ws = vs := hws
    exact hvs
  | true =>
    obtain ⟨r, rfl, -⟩ := hws
    have hall : List.Forall₂ (fun t v => t.takes v = true) (ts.dropLast ++ [.array])
        (vs.take (ts.length - 1) ++ [.array r]) := List.rel_append hvs (.cons rfl .nil)
    rwa [List.dropLast_append_getLast? _ (hlast rfl)] at hall

end accepting

/-- What parameters hold stays with their variables, whatever cells are added. -/
theorem Receives.congr {h h' : Heap} {slots slots' : List Value} {variadic : Bool}
    {is : List Nat} {ts : List Ty} {vs : List Value} (hr : Receives h slots variadic is ts vs)
    (hgrow : h.Extends h') (hslots : ∀ i ∈ is, slots'[i]? = slots[i]?) :
    Receives h' slots' variadic is ts vs := by
  obtain ⟨ws, hws, hall⟩ := hr
  refine ⟨ws, ?_, (List.map_congr_left hslots).trans hall⟩
  cases variadic with
  | false => exact hws
  | true =>
    obtain ⟨r, hwr, hcell⟩ := hws
    exact ⟨r, hwr, (hgrow r (Array.getElem?_eq_some_iff.1 hcell).1).trans hcell⟩

/-! ### Filling variables -/

namespace Exec

variable {m m' : Machine} {is : List Nat} {vs slots slots' : List Value}

/-- Values that are put into different variables are there, and the other variables are as they
were. -/
theorem fillSlots_eq_ok (hnodup : is.Nodup) (hlength : vs.length = is.length)
    (h : fillSlots is vs slots m = .ok slots' m') : m' = m ∧ slots'.length = slots.length ∧
      (∀ i ∉ is, slots'[i]? = slots[i]?) ∧ is.map (slots'[·]?) = vs.map some := by
  induction is generalizing vs slots with
  | nil =>
    obtain rfl := List.length_eq_zero_iff.1 hlength
    cases h
    exact ⟨rfl, rfl, fun _ _ => rfl, rfl⟩
  | cons i is ih =>
    obtain ⟨v, vs, rfl⟩ := List.exists_cons_of_length_eq_add_one hlength
    obtain ⟨hnot, hnodup⟩ := List.nodup_cons.1 hnodup
    rw [fillSlots] at h
    split at h
    · obtain ⟨hm, hsize, hothers, hall⟩ := ih hnodup (Nat.succ.inj hlength) h
      refine ⟨hm, by rw [hsize, List.length_set], fun j hj => ?_, ?_⟩
      · rw [hothers j fun hmem => hj (List.mem_cons_of_mem _ hmem),
          List.getElem?_set_ne fun heq : i = j => hj (heq ▸ List.mem_cons_self ..)]
      · rw [List.map_cons, List.map_cons, hall, hothers i hnot, List.getElem?_set_self ‹_›]
    · cases h

/-- Variables that are there can be filled. -/
theorem fillSlots_of_lt (hlt : ∀ i ∈ is, i < slots.length) (vs : List Value) (m : Machine) :
    ∃ slots', fillSlots is vs slots m = .ok slots' m := by
  induction is generalizing vs slots with
  | nil => exact ⟨slots, rfl⟩
  | cons i is ih =>
    obtain ⟨hi, his⟩ := List.forall_mem_cons.1 hlt
    cases vs with
    | nil => exact ⟨slots, rfl⟩
    | cons v vs =>
      rw [fillSlots, if_pos hi]
      exact ih (fun j hj => by rw [List.length_set]; exact his j hj) vs

/-- What is left of the arguments behind some of them is in a new array. -/
theorem collectTail_apply (fixed : Nat) (vs : List Value) (m : Machine) :
    collectTail fixed vs m = .ok (vs.take fixed ++ [.array m.heap.cells.size])
      { m with heap := (m.heap.newArray (vs.drop fixed).toArray).2 } := rfl

/-- Whether a machine is another one with more cells. -/
def Grew (m m' : Machine) : Prop := ∃ h, m.heap.Extends h ∧ m' = { m with heap := h }

namespace Grew

theorem refl (m : Machine) : Grew m m := ⟨m.heap, .refl _, rfl⟩

theorem trans {m'' : Machine} (h : Grew m m') (h' : Grew m' m'') : Grew m m'' := by
  obtain ⟨h₁, hext, rfl⟩ := h
  obtain ⟨h₂, hext', rfl⟩ := h'
  exact ⟨h₂, hext.trans hext', rfl⟩

theorem heap (h : Grew m m') : m.heap.Extends m'.heap := by
  obtain ⟨h₁, hext, rfl⟩ := h
  exact hext

/-- A cell that is there stays. -/
theorem cell (h : Grew m m') {r : Ref} {c : Cell} (hr : m.heap.cells[r]? = some c) :
    m'.heap.cells[r]? = some c :=
  (h.heap r (Array.getElem?_eq_some_iff.1 hr).1).trans hr

end Grew

theorem eq_of_ofExcept {α : Type} {r : Except Fault α} {a : α} (h : ofExcept r m = .ok a m') :
    r = .ok a ∧ m' = m := by
  cases r with
  | ok b =>
    cases h
    exact ⟨rfl, rfl⟩
  | error f => cases h

/-- The values for parameters are gathered, in a new array those that are left. -/
theorem gathered_of_collectTail {variadic : Bool} {count : Nat} (hpos : variadic = true → 0 < count)
    (hfits : if variadic then count ≤ vs.length + 1 else vs.length = count) {ws : List Value}
    (h : (if variadic then collectTail (count - 1) vs else pure vs : Exec (List Value)) m
      = .ok ws m') :
    Grew m m' ∧ Gathered m'.heap variadic count vs ws ∧ ws.length = count := by
  cases variadic with
  | false =>
    cases h
    exact ⟨.refl m, rfl, hfits⟩
  | true =>
    cases (collectTail_apply (count - 1) vs m).symm.trans h
    refine ⟨⟨_, .push _ _, rfl⟩, ⟨_, rfl, Array.getElem?_push_size⟩, ?_⟩
    have hpos := hpos rfl
    have hfits : count ≤ vs.length + 1 := hfits
    rw [List.length_append, List.length_take, List.length_singleton]
    omega

theorem gather_apply (variadic : Bool) (count : Nat) (vs : List Value) (m : Machine) : ∃ ws m',
    (if variadic then collectTail (count - 1) vs else pure vs : Exec (List Value)) m
      = .ok ws m' := by
  cases variadic with
  | false => exact ⟨vs, m, rfl⟩
  | true => exact ⟨_, _, collectTail_apply (count - 1) vs m⟩

/-! ### Binding segments -/

section segment

variable {g : Segment}

theorem length_pos_of_placed (hg : g.Placed) (hvariadic : g.variadic = true) :
    0 < g.params.length :=
  List.length_pos_of_mem (List.mem_of_getLast? (hg.last hvariadic))

theorem bindSegment_eq (g : Segment) (vs slots : List Value) : bindSegment g vs slots =
    (if g.variadic then collectTail (g.offsets.length - 1) vs else pure vs) >>= fun ws =>
      ofExcept (checkParams 1 g.params ws) >>= fun xs => fillSlots g.offsets xs slots := by
  unfold bindSegment
  dsimp only
  split <;> rfl

/-- **Binding a segment** fills its variables with its arguments, and leaves the others. -/
theorem bindSegment_eq_ok (hg : g.Placed) (hnodup : g.offsets.Nodup)
    (hfits : if g.variadic then g.params.length ≤ vs.length + 1 else vs.length = g.params.length)
    (h : bindSegment g vs slots m = .ok slots' m') : Grew m m' ∧ slots'.length = slots.length ∧
      (∀ i ∉ g.offsets, slots'[i]? = slots[i]?) ∧
      Receives m'.heap slots' g.variadic g.offsets g.params vs := by
  rw [bindSegment_eq] at h
  obtain ⟨ws, m₁, hws, h⟩ := bind_eq_ok h
  rw [hg.length] at hws
  obtain ⟨hgrew, hgathered, hlength⟩ := gathered_of_collectTail (length_pos_of_placed hg) hfits hws
  obtain ⟨xs, m₂, hxs, h⟩ := bind_eq_ok h
  obtain ⟨hchecked, rfl⟩ := eq_of_ofExcept hxs
  obtain rfl := eq_of_checkParams hchecked hlength
  obtain ⟨rfl, hsize, hothers, hall⟩ := fillSlots_eq_ok hnodup (by simp [hg.length, hlength]) h
  exact ⟨hgrew, hsize, hothers, ws, hgathered, hall⟩

/-- A segment is bound if its parameters accept the arguments. -/
theorem bindSegment_of_accepts (hg : g.Placed) (hlt : ∀ i ∈ g.offsets, i < slots.length)
    (hvs : Accepts g.variadic g.params vs) (m : Machine) :
    ∃ slots' m', bindSegment g vs slots m = .ok slots' m' := by
  rw [bindSegment_eq, hg.length]
  obtain ⟨ws, m₁, hws⟩ := gather_apply g.variadic g.params.length vs m
  obtain ⟨-, hgathered, -⟩ := gathered_of_collectTail (length_pos_of_placed hg) hvs.fits hws
  rw [bind_of_ok hws, checkParams_of_takes (hvs.gathered hg.last hgathered) 1]
  obtain ⟨slots', hslots'⟩ := fillSlots_of_lt hlt (List.zipWith Ty.cut g.params ws) m₁
  exact ⟨slots', m₁, hslots'⟩

end segment

section segments

variable {named : Dict Value} {gs : List (String × Segment)}

theorem bindSegments_cons {name : String} {g : Segment} {r : Ref}
    (hget : named.get? name = some (.array r)) :
    bindSegments named ((name, g) :: gs) slots m
      = (bindSegment g (m.heap.items r).toList slots >>= bindSegments named gs) m := by
  rw [bindSegments, hget]
  rfl

theorem bindSegments_cons_of_ne {name : String} {g : Segment}
    (hne : ∀ r, named.get? name ≠ some (.array r)) :
    bindSegments named ((name, g) :: gs) slots = bindSegments named gs slots := by
  rw [bindSegments]
  split
  · exact absurd ‹_› (hne _)
  · rfl

/-- **Binding segments** fills the variables of each that has been called with its arguments, and
leaves the others. -/
theorem bindSegments_eq_ok (hplaced : ∀ p ∈ gs, p.2.Placed)
    (hnodup : (gs.flatMap fun p => p.2.offsets).Nodup) (hnamed : ∀ p ∈ gs, ∀ r, named.get? p.1
      = some (.array r) → ∃ vs : List Value,
      m.heap.cells[r]? = some (.array vs.toArray) ∧
        if p.2.variadic then p.2.params.length ≤ vs.length + 1 else vs.length = p.2.params.length)
    (h : bindSegments named gs slots m = .ok slots' m') : Grew m m' ∧ slots'.length = slots.length ∧
      (∀ i, (∀ p ∈ gs, i ∈ p.2.offsets → ∀ r, named.get? p.1 ≠ some (.array r)) →
        slots'[i]? = slots[i]?) ∧
      ∀ p ∈ gs, ∀ r vs, named.get? p.1 = some (.array r) →
      m.heap.cells[r]? = some (.array vs.toArray) →
        Receives m'.heap slots' p.2.variadic p.2.offsets p.2.params vs := by
  induction gs generalizing slots m with
  | nil =>
    cases h
    exact ⟨.refl _, rfl, fun _ _ => rfl, nofun⟩
  | cons p gs ih =>
    obtain ⟨name, g⟩ := p
    obtain ⟨hg, hgs⟩ := List.forall_mem_cons.1 hplaced
    rw [List.flatMap_cons, List.nodup_append] at hnodup
    obtain ⟨hdistinct, hnodup, hdisjoint⟩ := hnodup
    by_cases hget : ∃ r, named.get? name = some (.array r)
    · obtain ⟨r, hget⟩ := hget
      obtain ⟨vs, hcell, hfits⟩ := hnamed _ (List.mem_cons_self ..) r hget
      rw [bindSegments_cons hget, show (m.heap.items r).toList = vs by rw [Heap.items, hcell]] at h
      obtain ⟨slots₁, m₁, hbound, h⟩ := bind_eq_ok h
      obtain ⟨hgrew, hsize, hothers, hreceives⟩ := bindSegment_eq_ok hg hdistinct hfits hbound
      obtain ⟨hgrew', hsize', hothers', hreceives'⟩ := ih hgs hnodup (fun p hp r hr => by
        obtain ⟨vs, hcell, hfits⟩ := hnamed p (List.mem_cons_of_mem _ hp) r hr
        exact ⟨vs, hgrew.cell hcell, hfits⟩) h
      refine ⟨hgrew.trans hgrew', hsize'.trans hsize, fun i hi => ?_,
        fun p hp r' vs' hr' hcell' => ?_⟩
      · rw [hothers' i fun p hp => hi p (List.mem_cons_of_mem _ hp),
          hothers i fun hmem => hi _ (List.mem_cons_self ..) hmem r hget]
      · -- the segments that follow have other variables, so this one keeps what it received
        rcases List.mem_cons.1 hp with rfl | hp
        · cases hget.symm.trans hr'
          cases hcell.symm.trans hcell'
          refine hreceives.congr hgrew'.heap fun i hi => hothers' i fun p hp hmem => ?_
          exact absurd rfl (hdisjoint i hi i (List.mem_flatMap.2 ⟨p, hp, hmem⟩))
        · exact hreceives' p hp r' vs' hr' (hgrew.cell hcell')
    · have hne := not_exists.1 hget
      rw [bindSegments_cons_of_ne hne] at h
      obtain ⟨hgrew, hsize, hothers, hreceives⟩ :=
        ih hgs hnodup (fun p hp => hnamed p (List.mem_cons_of_mem _ hp)) h
      refine ⟨hgrew, hsize, fun i hi => hothers i fun p hp => hi p (List.mem_cons_of_mem _ hp),
        fun p hp r vs hr hcell => ?_⟩
      rcases List.mem_cons.1 hp with rfl | hp
      · exact absurd hr (hne r)
      · exact hreceives p hp r vs hr hcell

/-- Segments are bound if the parameters of those that have been called accept the arguments. -/
theorem bindSegments_of_accepts (hplaced : ∀ p ∈ gs, p.2.Placed)
    (hnodup : (gs.flatMap fun p => p.2.offsets).Nodup)
    (hlt : ∀ p ∈ gs, ∀ i ∈ p.2.offsets, i < slots.length)
    (hnamed : ∀ p ∈ gs, ∀ r, named.get? p.1 = some (.array r) → ∃ vs : List Value,
      m.heap.cells[r]? = some (.array vs.toArray) ∧ Accepts p.2.variadic p.2.params vs) :
    ∃ slots' m', bindSegments named gs slots m = .ok slots' m' := by
  induction gs generalizing slots m with
  | nil => exact ⟨slots, m, rfl⟩
  | cons p gs ih =>
    obtain ⟨name, g⟩ := p
    obtain ⟨hg, hgs⟩ := List.forall_mem_cons.1 hplaced
    obtain ⟨hltg, hltgs⟩ := List.forall_mem_cons.1 hlt
    rw [List.flatMap_cons, List.nodup_append] at hnodup
    by_cases hget : ∃ r, named.get? name = some (.array r)
    · obtain ⟨r, hget⟩ := hget
      obtain ⟨vs, hcell, hvs⟩ := hnamed _ (List.mem_cons_self ..) r hget
      rw [bindSegments_cons hget, show (m.heap.items r).toList = vs by rw [Heap.items, hcell]]
      obtain ⟨slots₁, m₁, hbound⟩ := bindSegment_of_accepts hg hltg hvs m
      obtain ⟨hgrew, hsize, -⟩ := bindSegment_eq_ok hg hnodup.1 hvs.fits hbound
      rw [bind_of_ok hbound]
      refine ih hgs hnodup.2.1 (hsize ▸ hltgs) fun p hp r hr => ?_
      obtain ⟨vs, hcell, hvs⟩ := hnamed p (List.mem_cons_of_mem _ hp) r hr
      exact ⟨vs, hgrew.cell hcell, hvs⟩
    · rw [bindSegments_cons_of_ne (not_exists.1 hget)]
      exact ih hgs hnodup.2.1 hltgs fun p hp => hnamed p (List.mem_cons_of_mem _ hp)

end segments

end Exec

/-! ### What a called function starts with -/

/-- What a new variable of some type holds, while nothing is written to it. -/
def Ty.InitialIn (t : Ty) (h : Heap) (v : Value) : Prop :=
  ∃ h₀ : Heap, v = (h₀.default t).1 ∧ (h₀.default t).2.Extends h

theorem Ty.InitialIn.grow {t : Ty} {h h' : Heap} {v : Value} (hv : t.InitialIn h v)
    (hext : h.Extends h') :
    t.InitialIn h' v := by
  obtain ⟨h₀, hv, hext₀⟩ := hv
  exact ⟨h₀, hv, hext₀.trans hext⟩

theorem Heap.initial_defaults (h : Heap) (ts : List Ty) :
    List.Forall₂ (fun t v => t.InitialIn (h.defaults ts).2 v) ts (h.defaults ts).1 := by
  induction ts generalizing h with
  | nil => exact .nil
  | cons t ts ih => exact .cons ⟨h, rfl, (lasting_true.defaults trivial ts).1⟩ (ih (h.default t).2)

/-- Whether variables are what a function is to start with: its parameters hold its arguments, those
of the segments that have been called hold theirs, and all others are as they are when they are
new. -/
structure Routed (b : Block) (f : FuncInfo) (gs : Dict Segment) (h : Heap) (slots vs : List Value)
    (named : List (String × List Value)) : Prop where
  base : Receives h slots f.variadic (List.range f.params.length) f.params vs
  called : ∀ p ∈ named, ∀ g, gs.get? p.1 = some g →
    Receives h slots g.variadic g.offsets g.params p.2
  others : ∀ i t, b.vars[i]? = some t → f.params.length ≤ i →
    (∀ p ∈ gs.toList, i ∈ p.2.offsets → p.1 ∉ named.map Prod.fst) →
    ∃ v, slots[i]? = some v ∧ t.InitialIn h v

/-- What the arguments of segments are kept in until the call, in cells of some kind: nothing, or a
map with an array for each. -/
inductive Holding (K : Ref → Prop) (h : Heap) : Value → List (String × List Value) → Prop
  | none : Holding K h .nil []
  | some {r : Ref} {entries : Dict Value} {named : List (String × List Value)} :
      K r → h.cells[r]? = some (.map entries) →
      (∀ p ∈ named, ∃ q, K q ∧ entries.get? p.1 = some (.array q) ∧
        h.cells[q]? = some (.array p.2.toArray)) →
      (∀ name v, entries.get? name = some v → name ∈ named.map Prod.fst) →
        Holding K h (.map r) named

namespace Signature.Layout

variable {g : Signature} {f : FuncInfo} {b : Block} {gs : Dict Segment}

theorem getLast?_of_endsInTail {ps : List Param} (htails : TailLast ps) (h : EndsInTail ps) :
    (ps.map Param.ty).getLast? = some .array := by
  obtain ⟨p, hp, htail⟩ := h
  rw [List.getLast?_map, hp, Option.map_some, htails.array p (List.mem_of_getLast? hp) htail]

/-- The parameter of a function that takes what is left is an array. -/
theorem last (h : g.Layout f b) (hvariadic : f.variadic = true) :
    f.params.getLast? = some .array := by
  rw [h.params]
  exact getLast?_of_endsInTail (h.tails _ (List.mem_cons_self ..)) (h.variadic.1 hvariadic)

/-- In a block that is laid out as its header says, the segments are placed. -/
theorem placed (h : g.Layout f b) (hgs : f.segments = some gs) : ∀ p ∈ gs.toList, p.2.Placed := by
  intro p hp
  have hall := h.segments
  rw [hgs, Option.getD_some] at hall
  obtain ⟨i, hi, rfl⟩ := List.getElem_of_mem hp
  obtain ⟨-, hparams, hvariadic, htypes⟩ :=
    (List.forall₂_iff_get.1 hall).2 i hi (hall.length_eq ▸ hi)
  refine ⟨htypes.length_eq, fun hv => ?_⟩
  have hmem : g.segments.get ⟨i, hall.length_eq ▸ hi⟩ ∈ g.segments := List.get_mem ..
  exact hparams ▸ getLast?_of_endsInTail
    (h.tails _ (List.mem_cons_of_mem _ (List.mem_map_of_mem hmem))) (hvariadic.1 hv)

/-- Segments have different variables, behind those of the function's own parameters. -/
theorem offsets_eq (h : g.Layout f b) (hgs : f.segments = some gs) : ∃ n,
    gs.toList.flatMap (fun p => p.2.offsets) = List.range' f.params.length n := by
  have hoffsets := h.offsets
  rw [hgs, Option.getD_some] at hoffsets
  exact ⟨_, hoffsets⟩

theorem offsets_nodup (h : g.Layout f b) (hgs : f.segments = some gs) :
    (gs.toList.flatMap fun p => p.2.offsets).Nodup := by
  obtain ⟨n, hn⟩ := h.offsets_eq hgs
  rw [hn]
  exact List.nodup_range'

theorem le_of_mem_offsets (h : g.Layout f b) (hgs : f.segments = some gs) {p : String × Segment}
    (hp : p ∈ gs.toList) {i : Nat} (hi : i ∈ p.2.offsets) : f.params.length ≤ i := by
  obtain ⟨n, hn⟩ := h.offsets_eq hgs
  have hmem : i ∈ gs.toList.flatMap fun p => p.2.offsets := List.mem_flatMap.2 ⟨p, hp, hi⟩
  rw [hn] at hmem
  exact (List.mem_range'_1.1 hmem).1

/-- These places are among the variables of the block. -/
theorem lt_of_mem_offsets (h : g.Layout f b) (hgs : f.segments = some gs) {p : String × Segment}
    (hp : p ∈ gs.toList) {i : Nat} (hi : i ∈ p.2.offsets) : i < b.vars.size := by
  have hall := h.segments
  rw [hgs, Option.getD_some] at hall
  obtain ⟨k, hk, rfl⟩ := List.getElem_of_mem hp
  obtain ⟨-, -, -, htypes⟩ := (List.forall₂_iff_get.1 hall).2 k hk (hall.length_eq ▸ hk)
  obtain ⟨j, hj, rfl⟩ := List.getElem_of_mem hi
  exact (Array.getElem?_eq_some_iff.1 ((List.forall₂_iff_get.1 htypes).2 j hj
    (htypes.length_eq ▸ hj))).1

end Signature.Layout

end Covenant
