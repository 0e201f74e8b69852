import Covenant.Heap
import Mathlib.Algebra.Order.BigOperators.Group.List
import Mathlib.Data.Finset.Card
import Mathlib.Logic.Relation
import Mathlib.Tactic.Common
import Mathlib.Tactic.Ring

/-!
# Grounded values

Arrays and maps are shared, so a value could come to hold itself. It is *grounded* if every
reference leads to a cell of its kind and following references ends (`Value.Grounded`). Then it
holds itself through no chain of elements (`Value.Grounded.not_cyclic`), and neither does anything
inside it.

The functions that read a value through the heap follow as many references in a row as there are
cells. On a path through a grounded value no cell comes up twice, so that is always enough: with
more fuel they answer the same (`Value.Grounded.stable`). Whether a value is grounded can therefore
be computed (`Value.grounded_iff`).
-/

namespace Covenant

namespace Heap

variable {h h' h'' : Heap} {u v w : Value}

/-! ### Cells that are there -/

/-- Whether a reference leads to a cell of its kind. -/
def leads (h : Heap) : Value → Bool
  | .array r => match h.cells[r]? with
    | some (.array _) => true
    | _ => false
  | .map r => match h.cells[r]? with
    | some (.map _) => true
    | _ => false
  | _ => true

/-- Whether a value lies directly inside another one. -/
def Inside (h : Heap) (w v : Value) : Prop := w ∈ h.inside v

/-- The size of a value without what is inside it. -/
def overhead (h : Heap) : Value → Int
  | .array r => 12 + ((h.items r).toList.map fun _ => 4).sum
  | .map r => 12 + ((h.entries r).toList.map fun p => 4 + (p.1.utf8ByteSize : Int)).sum
  | v => v.sizeWith h 0

theorem leads_array {r : Ref} :
    h.leads (.array r) = true ↔ h.cells[r]? = some (.array (h.items r)) := by
  unfold leads items
  rcases hcell : h.cells[r]? with _ | _ | _ <;> simp [hcell]

theorem leads_map {r : Ref} :
    h.leads (.map r) = true ↔ h.cells[r]? = some (.map (h.entries r)) := by
  unfold leads entries
  rcases hcell : h.cells[r]? with _ | _ | _ <;> simp [hcell]

theorem leads_of_ref?_eq_none (hv : v.ref? = none) : h.leads v = true := by
  cases v <;> first | rfl | cases hv

theorem inside_of_ref?_eq_none (hv : v.ref? = none) : h.inside v = [] := by
  cases v <;> first | rfl | cases hv

/-- What leads somewhere is the reference of a cell. -/
theorem lt_size_of_leads {r : Ref} (hv : h.leads v = true) (hr : v.ref? = some r) :
    r < h.cells.size := by
  cases v with
  | array =>
    cases hr
    exact (Array.getElem?_eq_some_iff.1 (leads_array.1 hv)).1
  | map =>
    cases hr
    exact (Array.getElem?_eq_some_iff.1 (leads_map.1 hv)).1
  | _ => cases hr

/-- A cell is of one kind only. -/
theorem eq_of_ref?_eq {r : Ref} (hu : h.leads u = true) (hv : h.leads v = true)
    (hur : u.ref? = some r) (hvr : v.ref? = some r) : u = v := by
  cases u <;> cases hur <;> cases v <;> cases hvr
  · rfl
  · cases (leads_map.1 hu).symm.trans (leads_array.1 hv)
  · cases (leads_array.1 hu).symm.trans (leads_map.1 hv)
  · rfl

/-- A value is what the cell that it refers to makes of it. -/
theorem cell_congr (hcells : ∀ r, v.ref? = some r → h'.cells[r]? = h.cells[r]?) :
    h'.leads v = h.leads v ∧ h'.inside v = h.inside v ∧ h'.overhead v = h.overhead v := by
  cases v with
  | array r => simp only [leads, inside, overhead, items, hcells r rfl, and_self]
  | map r => simp only [leads, inside, overhead, entries, hcells r rfl, and_self]
  | _ => exact ⟨rfl, rfl, rfl⟩

/-! ### Adding cells -/

/-- Whether a heap is another one with cells added. -/
def Extends (h h' : Heap) : Prop := ∀ r < h.cells.size, h'.cells[r]? = h.cells[r]?

namespace Extends

theorem refl (h : Heap) : h.Extends h := fun _ _ => rfl

theorem le (hext : h.Extends h') : h.cells.size ≤ h'.cells.size := by
  by_contra hlt
  have hget := hext h'.cells.size (Nat.lt_of_not_le hlt)
  rw [Array.getElem?_eq_none (Nat.le_refl _),
    Array.getElem?_eq_getElem (Nat.lt_of_not_le hlt)] at hget
  cases hget

theorem trans (hext : h.Extends h') (hext' : h'.Extends h'') : h.Extends h'' :=
  fun r hr => (hext' r (Nat.lt_of_lt_of_le hr hext.le)).trans (hext r hr)

theorem push (h : Heap) (cell : Cell) : h.Extends ⟨h.cells.push cell⟩ := by
  intro r hr
  rw [Array.getElem?_push, if_neg (Nat.ne_of_lt hr)]

/-- What a reference leads to stays as it is. -/
theorem cell (hext : h.Extends h') (hv : h.leads v = true) :
    h'.leads v = true ∧ h'.inside v = h.inside v ∧ h'.overhead v = h.overhead v := by
  obtain ⟨hleads, hsame⟩ := cell_congr fun r hr => hext r (lt_size_of_leads hv hr)
  exact ⟨hleads.trans hv, hsame⟩

end Extends

end Heap

namespace Value

variable {h h' : Heap} {v w : Value}

/-! ### Following references -/

/-- Whether every reference leads to a cell of its kind and following references ends. -/
inductive Grounded (h : Heap) : Value → Prop
  | intro {v : Value} : h.leads v = true → (∀ w ∈ h.inside v, Grounded h w) → Grounded h v

namespace Grounded

theorem leads (hv : v.Grounded h) : h.leads v = true := by
  obtain ⟨hleads, -⟩ := hv
  exact hleads

theorem inside (hv : v.Grounded h) (hw : w ∈ h.inside v) : w.Grounded h := by
  obtain ⟨-, hinside⟩ := hv
  exact hinside w hw

theorem of_ref?_eq_none (hv : v.ref? = none) : v.Grounded h := by
  refine .intro (Heap.leads_of_ref?_eq_none hv) fun w hw => ?_
  rw [Heap.inside_of_ref?_eq_none hv] at hw
  exact absurd hw List.not_mem_nil

/-- Values stay grounded when cells are added. -/
theorem grow (hv : v.Grounded h) (hext : h.Extends h') : v.Grounded h' := by
  induction hv with
  | intro hleads _ ih =>
    obtain ⟨hleads', hinside, -⟩ := hext.cell hleads
    refine .intro hleads' fun w hw => ih w ?_
    rwa [hinside] at hw

/-- What comes to lie inside a value when cells are added lay there before. -/
theorem reached_of_grow (hv : v.Grounded h) (hext : h.Extends h')
    (hw : Relation.ReflTransGen h'.Inside w v) : Relation.ReflTransGen h.Inside w v := by
  induction hv with
  | @intro v hleads _ ih =>
    rcases Relation.ReflTransGen.cases_tail hw with rfl | ⟨u, hw, hu⟩
    · exact .refl
    · have hu : u ∈ h.inside v := by
        rwa [Heap.Inside, (hext.cell hleads).2.1] at hu
      exact (ih u hu hw).tail hu

theorem of_reached (hv : v.Grounded h) (hw : Relation.ReflTransGen h.Inside w v) :
    w.Grounded h := by
  induction hw using Relation.ReflTransGen.head_induction_on with
  | refl => exact hv
  | head hstep _ ih => exact ih.inside hstep

/-- **A grounded value does not hold itself**, through any chain of elements. -/
theorem not_cyclic (hv : v.Grounded h) : ¬ Relation.TransGen h.Inside v v := by
  induction hv with
  | @intro v _ _ ih =>
    intro hcycle
    -- the element through which the chain comes back to the value holds itself, too
    obtain ⟨w, hvw, hw⟩ := Relation.TransGen.tail'_iff.1 hcycle
    exact ih w hw (Relation.TransGen.head' hw hvw)

end Grounded

/-! ### How far references lead -/

/-- Whether a value is grounded and no more than some references have to be followed in a row. -/
def groundedWith (h : Heap) : Nat → Value → Bool
  | 0, v => v.ref?.isNone
  | fuel + 1, v => h.leads v && (h.inside v).all (groundedWith h fuel)

theorem groundedWith_succ {k : Nat} : groundedWith h (k + 1) v = true ↔
    h.leads v = true ∧ ∀ w ∈ h.inside v, groundedWith h k w = true := by
  rw [groundedWith, Bool.and_eq_true, List.all_eq_true]

theorem groundedWith_of_ref?_eq_none (hv : v.ref? = none) (k : Nat) :
    groundedWith h k v = true := by
  cases k with
  | zero => rw [groundedWith, hv, Option.isNone_none]
  | succ k =>
    rw [groundedWith_succ, Heap.inside_of_ref?_eq_none hv]
    exact ⟨Heap.leads_of_ref?_eq_none hv, fun w hw => absurd hw List.not_mem_nil⟩

/-- A value that is grounded at some depth is so at any greater one. -/
theorem groundedWith_mono {k k' : Nat} (hk : k ≤ k') (hv : groundedWith h k v = true) :
    groundedWith h k' v = true := by
  induction k generalizing k' v with
  | zero => exact groundedWith_of_ref?_eq_none (by simpa [groundedWith] using hv) k'
  | succ k ih =>
    obtain ⟨j, rfl⟩ := Nat.exists_eq_add_of_lt hk
    obtain ⟨hleads, hinside⟩ := groundedWith_succ.1 hv
    exact groundedWith_succ.2 ⟨hleads, fun w hw => ih (by omega) (hinside w hw)⟩

theorem Grounded.of_groundedWith {k : Nat} (hv : groundedWith h k v = true) : v.Grounded h := by
  induction k generalizing v with
  | zero => exact .of_ref?_eq_none (by simpa [groundedWith] using hv)
  | succ k ih =>
    obtain ⟨hleads, hinside⟩ := groundedWith_succ.1 hv
    exact .intro hleads fun w hw => ih (hinside w hw)

open Classical in
/-- The references that come up inside a value. -/
noncomputable def refs (h : Heap) (v : Value) : Finset Ref :=
  (Finset.range h.cells.size).filter fun r =>
    ∃ u : Value, Relation.ReflTransGen h.Inside u v ∧ u.ref? = some r

theorem mem_refs {r : Ref} : r ∈ refs h v ↔
    r < h.cells.size ∧ ∃ u : Value, Relation.ReflTransGen h.Inside u v ∧ u.ref? = some r := by
  simp only [refs, Finset.mem_filter, Finset.mem_range]

theorem card_refs_le (h : Heap) (v : Value) : (refs h v).card ≤ h.cells.size := by
  have hsub : refs h v ⊆ Finset.range h.cells.size :=
    fun r hr => Finset.mem_range.2 (mem_refs.1 hr).1
  simpa using Finset.card_le_card hsub

/-- Inside an element fewer references come up than in the value: the value's own does not. -/
theorem Grounded.card_refs_lt (hv : v.Grounded h) (hw : w ∈ h.inside v) :
    (refs h w).card < (refs h v).card := by
  obtain ⟨r, hr⟩ : ∃ r, v.ref? = some r := by
    rw [← Option.ne_none_iff_exists']
    intro hnone
    rw [Heap.inside_of_ref?_eq_none hnone] at hw
    exact absurd hw List.not_mem_nil
  refine Finset.card_lt_card ⟨fun x hx => ?_, fun hsub => ?_⟩
  · obtain ⟨hlt, u, hu, hux⟩ := mem_refs.1 hx
    exact mem_refs.2 ⟨hlt, u, hu.tail hw, hux⟩
  · have hmem : r ∈ refs h v := mem_refs.2 ⟨Heap.lt_size_of_leads hv.leads hr, v, .refl, hr⟩
    obtain ⟨-, u, hu, hur⟩ := mem_refs.1 (hsub hmem)
    have hsame : u = v :=
      Heap.eq_of_ref?_eq ((hv.inside hw).of_reached hu).leads hv.leads hur hr
    subst hsame
    exact hv.not_cyclic (Relation.TransGen.tail' hu hw)

theorem Grounded.groundedWith_card (hv : v.Grounded h) :
    groundedWith h ((refs h v).card + 1) v = true := by
  induction hv with
  | @intro v hleads hinside ih =>
    refine groundedWith_succ.2 ⟨hleads, fun w hw => groundedWith_mono ?_ (ih w hw)⟩
    exact (Grounded.intro hleads hinside).card_refs_lt hw

/-- **As many references as there are cells are enough** to come to the end of a grounded value. -/
theorem grounded_iff : v.Grounded h ↔ groundedWith h h.fuel v = true := by
  constructor
  · intro hv
    exact groundedWith_mono (Nat.succ_le_succ (card_refs_le h v)) hv.groundedWith_card
  · exact Grounded.of_groundedWith

instance (h : Heap) (v : Value) : Decidable (v.Grounded h) := decidable_of_iff' _ grounded_iff

/-! ### Enough fuel -/

section fuel

variable {β : Type} {F : Nat → Value → β}
  (hscalar : ∀ k v, v.ref? = none → F k v = F 0 v)
  (hstep : ∀ k k' v, (∀ w ∈ h.inside v, F k w = F k' w) → F (k + 1) v = F (k' + 1) v)
include hscalar hstep

/-- A function that reads a value through its elements answers the same with more fuel than it
needs. -/
theorem stable_of_groundedWith {k k' : Nat} (hk : k ≤ k') (hv : groundedWith h k v = true) :
    F k' v = F k v := by
  induction k generalizing k' v with
  | zero =>
    have hnone : v.ref? = none := by simpa [groundedWith] using hv
    exact hscalar k' v hnone
  | succ k ih =>
    obtain ⟨j, rfl⟩ := Nat.exists_eq_add_of_lt hk
    obtain ⟨-, hinside⟩ := groundedWith_succ.1 hv
    exact hstep (k + j) k v fun w hw => ih (by omega) (hinside w hw)

/-- **The number of cells is enough fuel for a grounded value.** -/
theorem Grounded.stable (hv : v.Grounded h) {k : Nat} (hk : h.fuel ≤ k) : F k v = F h.fuel v :=
  stable_of_groundedWith hscalar hstep hk (grounded_iff.1 hv)

theorem Grounded.stable_inside (hv : v.Grounded h) (hw : w ∈ h.inside v) :
    F h.cells.size w = F h.fuel w := by
  have hground := (groundedWith_succ.1 (grounded_iff.1 hv)).2 w hw
  exact (stable_of_groundedWith hscalar hstep (Nat.le_succ _) hground).symm

end fuel

/-! ### Sizes -/

theorem foldl_add_eq {α : Type} (f : α → Int) (xs : List α) (n : Int) :
    xs.foldl (fun n x => n + f x) n = n + (xs.map f).sum := by
  induction xs generalizing n with
  | nil => simp
  | cons x xs ih => rw [List.foldl_cons, ih, List.map_cons, List.sum_cons, Int.add_assoc]

theorem sizeWith_of_ref?_eq_none (hv : v.ref? = none) (k : Nat) :
    sizeWith h k v = sizeWith h 0 v := by
  cases v <;> cases k <;> first | rfl | cases hv

/-- The size of a value is its own and that of what is inside it. -/
theorem sizeWith_succ (h : Heap) (k : Nat) (v : Value) :
    sizeWith h (k + 1) v = h.overhead v + ((h.inside v).map (sizeWith h k)).sum := by
  cases v with
  | array r =>
    rw [sizeWith, ← Array.foldl_toList, foldl_add_eq, List.sum_map_add, Heap.overhead, Heap.inside]
    ring
  | map r =>
    rw [sizeWith, ← Array.foldl_toList, foldl_add_eq, List.sum_map_add, Heap.overhead, Heap.inside,
      Dict.values, List.map_map]
    exact (Int.add_assoc ..).symm
  | _ => exact (Int.add_zero _).symm

theorem sizeWith_congr (k k' : Nat) (v : Value)
    (hinside : ∀ w ∈ h.inside v, sizeWith h k w = sizeWith h k' w) :
    sizeWith h (k + 1) v = sizeWith h (k' + 1) v := by
  rw [sizeWith_succ, sizeWith_succ, List.map_congr_left hinside]

theorem Grounded.memSize_eq (hv : v.Grounded h) :
    v.memSize h = h.overhead v + ((h.inside v).map (memSize h)).sum := by
  have hall : ∀ w ∈ h.inside v, sizeWith h h.cells.size w = memSize h w := fun w hw =>
    hv.stable_inside (fun k v hv => sizeWith_of_ref?_eq_none hv k) sizeWith_congr hw
  rw [memSize, Heap.fuel, sizeWith_succ, List.map_congr_left hall]

/-- Sizes stay when cells are added. -/
theorem Grounded.memSize_grow (hv : v.Grounded h) (hext : h.Extends h') :
    v.memSize h' = v.memSize h := by
  induction hv with
  | @intro v hleads hinside ih =>
    have hv : v.Grounded h := .intro hleads hinside
    obtain ⟨-, hsame, hover⟩ := hext.cell hleads
    rw [(hv.grow hext).memSize_eq, hv.memSize_eq, hsame, hover, List.map_congr_left ih]

/-! ### What a value holds -/

theorem reachesWith_succ (h : Heap) (target : Ref) (k : Nat) (v : Value) :
    reachesWith h target (k + 1) v
      = (v.ref? == some target || (h.inside v).any (reachesWith h target k)) := by
  cases v with
  | array r => simp [reachesWith, Heap.inside]
  | map r => simp [reachesWith, Heap.inside, Dict.values, Dict.toList, Function.comp_def]
  | _ => simp [reachesWith, Heap.inside]

theorem reachesWith_of_ref?_eq_none (hv : v.ref? = none) (target : Ref) (k : Nat) :
    reachesWith h target k v = reachesWith h target 0 v := by
  cases k with
  | zero => rfl
  | succ k =>
    rw [reachesWith_succ, Heap.inside_of_ref?_eq_none hv, List.any_nil, Bool.or_false, reachesWith]

/-- Whether a value reaches a cell depends on what is inside of it. -/
theorem reachesWith_congr (target : Ref) (k k' : Nat) (v : Value)
    (hinside : ∀ w ∈ h.inside v, reachesWith h target k w = reachesWith h target k' w) :
    reachesWith h target (k + 1) v = reachesWith h target (k' + 1) v := by
  have hany : (h.inside v).any (reachesWith h target k) = (h.inside v).any
    (reachesWith h target k') := by
    rw [Bool.eq_iff_iff, List.any_eq_true, List.any_eq_true]
    exact exists_congr fun w => and_congr_right fun hw => by rw [hinside w hw]
  rw [reachesWith_succ, reachesWith_succ, hany]

/-- A reference that is met lies somewhere inside. -/
theorem reached_of_reachesWith {target : Ref} {k : Nat} (hv : reachesWith h target k v = true) :
    ∃ u : Value, Relation.ReflTransGen h.Inside u v ∧ u.ref? = some target := by
  induction k generalizing v with
  | zero => exact ⟨v, .refl, by simpa [reachesWith] using hv⟩
  | succ k ih =>
    rw [reachesWith_succ, Bool.or_eq_true, List.any_eq_true] at hv
    rcases hv with hself | ⟨w, hw, hreach⟩
    · exact ⟨v, .refl, by simpa using hself⟩
    · obtain ⟨u, hu, hur⟩ := ih hreach
      exact ⟨u, hu.tail hw, hur⟩

/-- What lies somewhere inside a grounded value is met. -/
theorem Grounded.reachesWith_fuel (hv : v.Grounded h) {u : Value} {target : Ref}
    (hu : Relation.ReflTransGen h.Inside u v) (hur : u.ref? = some target) :
    reachesWith h target h.fuel v = true := by
  induction hu with
  | refl => rw [Heap.fuel, reachesWith_succ, hur, beq_self_eq_true, Bool.true_or]
  | @tail w v hw hwv ih =>
    rw [Heap.fuel, reachesWith_succ, Bool.or_eq_true, List.any_eq_true]
    refine .inr ⟨w, hwv, ?_⟩
    rw [hv.stable_inside (fun k v hv => reachesWith_of_ref?_eq_none hv target k)
      (reachesWith_congr target) hwv]
    exact ih (hv.inside hwv)

/-- A grounded value holds a container if the container lies somewhere inside it. -/
theorem Grounded.holds_iff (hv : v.Grounded h) {container : Value}
    (hc : h.leads container = true) (href : container.ref? ≠ none) :
    v.holds h container = true ↔ Relation.ReflTransGen h.Inside container v := by
  obtain ⟨r, hr⟩ := Option.ne_none_iff_exists'.1 href
  rw [holds, hr]
  constructor
  · intro hreach
    obtain ⟨u, hu, hur⟩ := reached_of_reachesWith hreach
    rwa [← Heap.eq_of_ref?_eq (hv.of_reached hu).leads hc hur hr]
  · exact fun hreach => hv.reachesWith_fuel hreach hr

/-! ### Texts and equality -/

theorem textWith_of_ref?_eq_none (hv : v.ref? = none) (k : Nat) :
    textWith h k v = textWith h 0 v := by
  cases v <;> cases k <;> first | rfl | cases hv

/-- So does its text. -/
theorem textWith_congr (k k' : Nat) (v : Value)
    (hinside : ∀ w ∈ h.inside v, textWith h k w = textWith h k' w) :
    textWith h (k + 1) v = textWith h (k' + 1) v := by
  cases v with
  | array r =>
    have hall : ∀ w ∈ (h.items r).toList, textWith h k w = textWith h k' w := hinside
    rw [textWith, textWith, List.map_congr_left hall]
  | map r =>
    have hall : ∀ p ∈ (h.entries r).toList,
        p.1 ++ ":" ++ textWith h k p.2 = p.1 ++ ":" ++ textWith h k' p.2 :=
      fun p hp => congrArg _ (hinside p.2 (List.mem_map_of_mem hp))
    rw [textWith, textWith, List.map_congr_left hall]
  | _ => rfl

theorem eqWith_of_ref?_eq_none (hv : v.ref? = none) (k : Nat) : eqWith h k v = eqWith h 0 v := by
  funext w
  cases v <;> cases k <;> cases w <;> first | rfl | cases hv

theorem all_congr_of_mem {α : Type} {xs : List α} {p q : α → Bool} (hxs : ∀ x ∈ xs, p x = q x) :
    xs.all p = xs.all q := by
  rw [Bool.eq_iff_iff, List.all_eq_true, List.all_eq_true]
  exact forall₂_congr fun x hx => by rw [hxs x hx]

/-- So does whether it equals another one. -/
theorem eqWith_congr (k k' : Nat) (v : Value)
    (hinside : ∀ w ∈ h.inside v, eqWith h k w = eqWith h k' w) :
    eqWith h (k + 1) v = eqWith h (k' + 1) v := by
  funext u
  cases v with
  | array a =>
    cases u with
    | array b =>
      have hall : ∀ p ∈ (h.items a).toList.zip (h.items b).toList,
          eqWith h k p.1 p.2 = eqWith h k' p.1 p.2 :=
        fun p hp => congrFun (hinside p.1 (List.of_mem_zip hp).1) p.2
      rw [eqWith, eqWith, all_congr_of_mem hall]
    | _ => rfl
  | map a =>
    cases u with
    | map b =>
      rw [eqWith, eqWith, ← Array.all_toList, ← Array.all_toList]
      refine congrArg (a == b || (h.entries a).size == (h.entries b).size && ·)
        (all_congr_of_mem fun p hp => ?_)
      rw [hinside p.2 (List.mem_map_of_mem hp)]
    | _ => rfl
  | _ => cases u <;> rfl

end Value

end Covenant
