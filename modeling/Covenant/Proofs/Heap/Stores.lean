import Covenant.Machine.Variable
import Covenant.Proofs.Dict
import Covenant.Proofs.Heap.Grounded
import Mathlib.Tactic.Ring

/-!
# Storing into arrays and maps

A value is stored into a container only if it does not hold the container (`Heap.place`). Then all
that was grounded stays grounded (`Value.Grounded.store`). The size of the container changes by what
the memory meter is charged (`Heap.growth`). The size of another value changes by that much as often
as the container is reached inside it (`Value.ways`, `Value.Grounded.memSize_store`): a container
that is held twice grows twice.
-/

namespace Covenant

/-- The array or map of a place. -/
def Place.container : Place → Value
  | .item r _ => .array r
  | .entry r _ => .map r

theorem Place.ref?_container (p : Place) : p.container.ref? ≠ none := by cases p <;> nofun

namespace Heap

variable {h : Heap} {p : Place} {v w value : Value}

/-- A place is one of the container that is asked for, and the value does not hold it. -/
theorem place_eq_ok {limits : Limits} {container key : Value}
    (hp : h.place limits container key value = .ok p) :
    p.container = container ∧ value.holds h container = false := by
  unfold place at hp
  split at hp
  · cases hp
  · rename_i hholds
    refine ⟨?_, by simpa using hholds⟩
    split at hp
    · split at hp
      · split at hp
        · cases hp
        · cases hp
          rfl
      · cases hp
    · split at hp
      · split at hp
        · cases hp
        · split at hp
          · cases hp
          · cases hp
            rfl
      · cases hp
    · cases hp

/-! ### Cells behind a store -/

theorem size_store (h : Heap) (p : Place) (value : Value) :
    (h.store p value).cells.size = h.cells.size := by
  cases p <;> simp [store, modifyArray, modifyMap]

theorem cells_store_of_ne {r : Ref} (hr : p.container.ref? ≠ some r) (value : Value) :
    (h.store p value).cells[r]? = h.cells[r]? := by
  cases p <;> simp only [store, modifyArray, modifyMap, Array.getElem?_modify] <;>
    exact if_neg fun heq => hr (congrArg some heq)

/-- A store into an array leaves an array, in which the item is the value. -/
theorem items_store {r : Ref} {i : Nat} (hr : h.leads (.array r) = true) (value : Value) :
    (h.store (.item r i) value).leads (.array r) = true ∧ (h.store (.item r i) value).items r
      = if i < (h.items r).size then (h.items r).setIfInBounds i value
        else (h.items r ++ Array.replicate (i - (h.items r).size) Value.nil).push value := by
  have hcell := leads_array.1 hr
  have hstored : (h.store (.item r i) value).cells[r]? = some (.array
      (if i < (h.items r).size then (h.items r).setIfInBounds i value
        else (h.items r ++ Array.replicate (i - (h.items r).size) Value.nil).push value)) := by
    simp only [store, modifyArray, Array.getElem?_modify, if_pos, hcell, Option.map_some]
  constructor
  · simp only [leads, hstored]
  · rw [items, hstored]

/-- A store into a map leaves a map, in which the key is bound to the value. -/
theorem entries_store {r : Ref} {k : String} (hr : h.leads (.map r) = true) (value : Value) :
    (h.store (.entry r k) value).leads (.map r) = true ∧
      (h.store (.entry r k) value).entries r = (h.entries r).insert k value := by
  have hcell := leads_map.1 hr
  have hstored : (h.store (.entry r k) value).cells[r]?
    = some (.map ((h.entries r).insert k value)) := by
    simp only [store, modifyMap, Array.getElem?_modify, if_pos, hcell, Option.map_some]
  constructor
  · simp only [leads, hstored]
  · rw [entries, hstored]

/-- What is not the container stays as it is. -/
theorem cell_store_of_ne (hc : h.leads p.container = true) (hv : h.leads v = true)
    (hne : v ≠ p.container) (value : Value) :
    (h.store p value).leads v = true ∧ (h.store p value).inside v = h.inside v ∧
      (h.store p value).overhead v = h.overhead v := by
  obtain ⟨hleads, hsame⟩ := cell_congr fun r hr => cells_store_of_ne
    (fun hpr => hne (eq_of_ref?_eq hv hc hr hpr)) value
  exact ⟨hleads.trans hv, hsame⟩

/-- The container keeps its elements but for one, and gets the value and perhaps some `nil`. -/
theorem inside_store_self (hc : h.leads p.container = true) (value : Value) :
    (h.store p value).leads p.container = true ∧ ∀ w ∈ (h.store p value).inside p.container,
      w ∈ h.inside p.container ∨ w = value ∨ w = .nil := by
  cases p with
  | item r i =>
    -- in an array the item is replaced, or the gap up to it is filled with `nil`
    obtain ⟨hleads, hitems⟩ := items_store (i := i) hc value
    refine ⟨hleads, fun w hw => ?_⟩
    simp only [Place.container, inside, hitems] at hw ⊢
    split at hw
    · rw [Array.toList_setIfInBounds] at hw
      exact (List.mem_or_eq_of_mem_set hw).imp_right .inl
    · simp only [Array.toList_push, Array.toList_append, Array.toList_replicate, List.mem_append,
        List.mem_replicate, List.mem_singleton] at hw
      tauto
  | entry r k =>
    -- in a map the value of the key is replaced, or added
    obtain ⟨hleads, hentries⟩ := entries_store (k := k) hc value
    refine ⟨hleads, fun w hw => ?_⟩
    simp only [Place.container, inside, hentries, Dict.values] at hw ⊢
    obtain ⟨q, hq, rfl⟩ := List.mem_map.1 hw
    obtain ⟨i, old, -, -, hset⟩ | ⟨-, hpush⟩ := (h.entries r).toList_insert_cases k value
    · rw [hset] at hq
      rcases List.mem_or_eq_of_mem_set hq with hq | rfl
      · exact .inl (List.mem_map_of_mem hq)
      · exact .inr (.inl rfl)
    · rw [hpush] at hq
      rcases List.mem_append.1 hq with hq | hq
      · exact .inl (List.mem_map_of_mem hq)
      · rw [List.mem_singleton.1 hq]
        exact .inr (.inl rfl)

end Heap

namespace Value

variable {h : Heap} {p : Place} {v w value : Value}

/-- What is replaced in a container does not hold the container. -/
theorem Grounded.not_replacesHolder (hc : p.container.Grounded h) :
    h.replacesHolder p p.container = false := by
  rw [Bool.eq_false_iff]
  intro hholder
  obtain ⟨old, hold, hholds⟩ := (Option.any_eq_true _ _).1 hholder
  have hinside : h.Inside old p.container := by
    cases p with
    | entry r k => exact Dict.mem_values_of_get? hold
    | item r i => exact Array.mem_toList_iff.2 (Array.mem_of_getElem? hold)
  have hreach := ((hc.inside hinside).holds_iff hc.leads p.ref?_container).1 hholds
  exact hc.not_cyclic (.tail' hreach hinside)

/-! ### What stays grounded -/

/-- What does not hold the container stays grounded and keeps its size. -/
theorem Grounded.store_of_not_reached (hc : h.leads p.container = true) (hv : v.Grounded h)
    (hnot : ¬ Relation.ReflTransGen h.Inside p.container v) (value : Value) :
    v.Grounded (h.store p value) ∧ v.memSize (h.store p value) = v.memSize h := by
  induction hv with
  | @intro v hleads hinside ih =>
    have hv : v.Grounded h := .intro hleads hinside
    have hne : v ≠ p.container := fun heq => hnot (heq ▸ .refl)
    obtain ⟨hleads', hsame, hover⟩ := Heap.cell_store_of_ne hc hleads hne value
    have hih : ∀ w ∈ h.inside v, w.Grounded (h.store p value) ∧
        w.memSize (h.store p value) = w.memSize h :=
      fun w hw => ih w hw fun hreach => hnot (hreach.tail hw)
    have hv' : v.Grounded (h.store p value) := .intro hleads' fun w hw => (hih w (hsame ▸ hw)).1
    refine ⟨hv', ?_⟩
    rw [hv'.memSize_eq, hv.memSize_eq, hsame, hover, List.map_congr_left fun w hw => (hih w hw).2]

/-- What the container holds behind a store does not hold the container. -/
theorem Grounded.inside_store_self (hc : p.container.Grounded h) (hvalue : value.Grounded h)
    (hnot : ¬ Relation.ReflTransGen h.Inside p.container value)
    (hw : w ∈ (h.store p value).inside p.container) :
    w.Grounded (h.store p value) ∧ w.memSize (h.store p value) = w.memSize h := by
  rcases (Heap.inside_store_self hc.leads value).2 w hw with hold | rfl | rfl
  · refine (hc.inside hold).store_of_not_reached hc.leads (fun hreach => ?_) value
    exact hc.not_cyclic (Relation.TransGen.tail' hreach hold)
  · exact hvalue.store_of_not_reached hc.leads hnot w
  · exact ⟨.of_ref?_eq_none rfl, rfl⟩

/-- **A value that does not hold the container can be stored into it**: what is grounded stays
so. -/
theorem Grounded.store (hc : p.container.Grounded h) (hvalue : value.Grounded h)
    (hnot : ¬ Relation.ReflTransGen h.Inside p.container value) (hv : v.Grounded h) :
    v.Grounded (h.store p value) := by
  induction hv with
  | @intro v hleads hinside ih =>
    by_cases hself : v = p.container
    · rw [hself]
      exact .intro (Heap.inside_store_self hc.leads value).1 fun w hw =>
        (hc.inside_store_self hvalue hnot hw).1
    · obtain ⟨hleads', hsame, -⟩ := Heap.cell_store_of_ne hc.leads hleads hself value
      exact .intro hleads' fun w hw => ih w (hsame ▸ hw)

/-! ### Sizes -/

/-- To replace a member changes a sum by the difference. -/
theorem sum_map_set {α : Type} (f : α → Int) {xs : List α} {i : Nat} {old : α}
    (hold : xs[i]? = some old) (x : α) :
    ((xs.set i x).map f).sum = (xs.map f).sum + (f x - f old) := by
  induction xs generalizing i with
  | nil => cases hold
  | cons y ys ih =>
    cases i with
    | zero =>
      cases hold
      simp only [List.set_cons_zero, List.map_cons, List.sum_cons]
      ring
    | succ i =>
      simp only [List.set_cons_succ, List.map_cons, List.sum_cons, ih hold]
      ring

/-- The elements of a container, measured as before, and what they cost beside grow as the meter is
charged. -/
theorem sum_inside_store_self (hc : h.leads p.container = true) (value : Value) :
    (h.store p value).overhead p.container
        + (((h.store p value).inside p.container).map (memSize h)).sum
      = h.overhead p.container + ((h.inside p.container).map (memSize h)).sum
        + h.growth p value := by
  cases p with
  | item r i =>
    simp only [Place.container, Heap.overhead, Heap.inside, (Heap.items_store (i := i) hc value).2,
      Heap.growth]
    split
    · -- The place exists: one item is replaced, and the sum changes by the difference.
      rename_i hi
      have hold : (h.items r).toList[i]? = some (h.items r)[i] := by
        rw [Array.getElem?_toList, Array.getElem?_eq_getElem hi]
      rw [Array.toList_setIfInBounds, sum_map_set _ hold, sum_map_set _ hold,
        Array.getElem?_eq_getElem hi]
      ring
    · -- The array is filled up with `nil`, which has no size, and the value is pushed behind it.
      rename_i hi
      have hnil : memSize h .nil = 0 := rfl
      rw [Array.getElem?_eq_none (Nat.le_of_not_lt hi)]
      simp only [Array.toList_push, Array.toList_append, Array.toList_replicate, List.map_append,
        List.map_replicate, List.map_cons, List.map_nil, List.sum_append, List.sum_replicate,
        List.sum_cons, List.sum_nil, hnil, nsmul_eq_mul]
      have hcast : ((i + 1 - (h.items r).size : Nat) : Int) = (i - (h.items r).size : Nat) + 1 := by
        omega
      rw [hcast]
      ring
  | entry r k =>
    simp only [Place.container, Heap.overhead, Heap.inside,
      (Heap.entries_store (k := k) hc value).2, Heap.growth, Dict.values, List.map_map]
    obtain ⟨i, old, hget, hold, hset⟩ | ⟨hget, hpush⟩ := (h.entries r).toList_insert_cases k value
    · -- The key is there, so one value is replaced; else an entry is added.
      rw [hget, hset, sum_map_set _ hold, sum_map_set _ hold]
      simp only [Function.comp_apply]
      ring
    · rw [hget, hpush]
      simp only [List.map_append, List.map_cons, List.map_nil, List.sum_append, List.sum_cons,
        List.sum_nil, Function.comp_apply]
      ring

/-! ### In how many ways a container is held -/

/-- In how many ways a reference is met by following at most `fuel` references. -/
def waysWith (h : Heap) (target : Ref) : Nat → Value → Nat
  | 0, v => if v.ref? = some target then 1 else 0
  | fuel + 1, v =>
    if v.ref? = some target then 1 else ((h.inside v).map (waysWith h target fuel)).sum

/-- In how many ways a container is reached inside a value. -/
def ways (h : Heap) (v container : Value) : Nat :=
  match container.ref? with
  | some r => waysWith h r h.fuel v
  | none => 0

theorem waysWith_of_ref?_eq_none (hv : v.ref? = none) (target : Ref) (k : Nat) :
    waysWith h target k v = waysWith h target 0 v := by
  cases k with
  | zero => rfl
  | succ k => simp [waysWith, hv, Heap.inside_of_ref?_eq_none hv]

theorem waysWith_congr (target : Ref) (k k' : Nat) (v : Value)
    (hinside : ∀ w ∈ h.inside v, waysWith h target k w = waysWith h target k' w) :
    waysWith h target (k + 1) v = waysWith h target (k' + 1) v := by
  rw [waysWith, waysWith, List.map_congr_left hinside]

/-- A container is reached once in itself. -/
theorem ways_self (h : Heap) (p : Place) : ways h p.container p.container = 1 := by
  cases p <;> exact if_pos rfl

/-- In another value, a container is reached through the elements. -/
theorem Grounded.ways_of_ne (hc : h.leads p.container = true) (hv : v.Grounded h)
    (hne : v ≠ p.container) :
    ways h v p.container = ((h.inside v).map fun w => ways h w p.container).sum := by
  obtain ⟨r, hr⟩ : ∃ r, p.container.ref? = some r := by cases p <;> exact ⟨_, rfl⟩
  simp only [ways, hr]
  have hall : ∀ w ∈ h.inside v, waysWith h r h.cells.size w = waysWith h r h.fuel w := fun w hw =>
    hv.stable_inside (fun k v hv => waysWith_of_ref?_eq_none hv r k) (waysWith_congr r) hw
  rw [Heap.fuel, waysWith, if_neg fun hvr => hne (Heap.eq_of_ref?_eq hv.leads hc hvr hr),
    List.map_congr_left hall]
  rfl

/-- A sum of multiples of one number. -/
theorem sum_map_add_mul {α : Type} (f : α → Int) (n : α → Nat) (g : Int) (xs : List α) :
    (xs.map fun x => f x + n x * g).sum = (xs.map f).sum + ((xs.map n).sum : Nat) * g := by
  induction xs with
  | nil => simp
  | cons x xs ih =>
    simp only [List.map_cons, List.sum_cons, ih]
    push_cast
    ring

/-- **What a store does to sizes**: a value grows with the container as often as it holds it. -/
theorem Grounded.memSize_store (hc : p.container.Grounded h) (hvalue : value.Grounded h)
    (hnot : ¬ Relation.ReflTransGen h.Inside p.container value) (hv : v.Grounded h) :
    v.memSize (h.store p value) = v.memSize h + ways h v p.container * h.growth p value := by
  induction hv with
  | @intro v hleads hinside ih =>
    have hv : v.Grounded h := .intro hleads hinside
    by_cases hself : v = p.container
    · have hall : ∀ w ∈ (h.store p value).inside p.container,
          w.memSize (h.store p value) = w.memSize h :=
        fun w hw => (hc.inside_store_self hvalue hnot hw).2
      rw [hself, (hc.store hvalue hnot hc).memSize_eq, List.map_congr_left hall,
        sum_inside_store_self hc.leads, ← hc.memSize_eq, ways_self, Nat.cast_one, Int.one_mul]
    · obtain ⟨-, hsame, hover⟩ := Heap.cell_store_of_ne hc.leads hleads hself value
      rw [(hc.store hvalue hnot hv).memSize_eq, hv.memSize_eq, hsame, hover,
        List.map_congr_left ih, sum_map_add_mul, hv.ways_of_ne hc.leads hself, Int.add_assoc]

end Value

end Covenant
