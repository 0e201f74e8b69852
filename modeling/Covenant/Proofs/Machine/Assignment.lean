import Covenant.Proofs.Heap.Stores
import Covenant.Proofs.Machine.Steps

/-!
# Index assignment

Storing a value into a container at a key either fails and changes nothing, or puts the value there
and nothing else (`Heap.Assigned`): the other cells stay, a map keeps its other bindings in order,
an array keeps its other elements and is filled up with `nil` as far as the index. The memory meter
is charged with what the container has grown by, and the assignment is refused as one of a container
to itself exactly if the value holds the container (`storeIndex_exact`).
-/

namespace Covenant

/-! ### What an assignment does to a container -/

/-- One dictionary is another one with a value bound to a name, and no other name is touched. -/
structure Dict.Binds {α : Type} (d : Dict α) (k : String) (v : α) (d' : Dict α) : Prop where
  value : d'.get? k = some v
  others : d'.toList.filter (fun p => p.1 != k) = d.toList.filter fun p => p.1 != k
  size : d'.size = if d.contains k then d.size else d.size + 1

/-- One array is another one with a value at an index: it is only as long as the index asks for, and
what was not there before is filled up. -/
structure Puts {α : Type} (fill : α) (xs : Array α) (i : Nat) (v : α) (ys : Array α) : Prop where
  value : ys[i]? = some v
  others : ∀ j < xs.size, j ≠ i → ys[j]? = xs[j]?
  filled : ∀ j, xs.size ≤ j → j < i → ys[j]? = some fill
  size : ys.size = max xs.size (i + 1)

/-- To insert a binding binds the key to the value and leaves the other keys alone. -/
theorem Dict.binds_insert {α : Type} (d : Dict α) (k : String) (v : α) :
    d.Binds k v (d.insert k v) where
  value := by rw [get?_insert, if_pos rfl]
  others := by rw [← toList_erase, ← toList_erase, erase_insert_self]
  size := by
    have hlength : ∀ d : Dict α, d.size = d.toList.length := fun d => Array.length_toList.symm
    rw [hlength, hlength, toList_insert]
    split <;> simp

/-- To write at an index is to write in place or, behind the end, to fill the gap. -/
theorem puts_set {α : Type} (fill : α) (xs : Array α) (i : Nat) (v : α) :
    Puts fill xs i v (if i < xs.size then xs.setIfInBounds i v
      else (xs ++ Array.replicate (i - xs.size) fill).push v) := by
  split
  · rename_i hi
    refine ⟨?_, fun j hj hne => ?_, fun j hle hlt => by omega, ?_⟩
    · rw [Array.getElem?_setIfInBounds_self_of_lt hi]
    · rw [Array.getElem?_setIfInBounds_ne hne.symm]
    · rw [Array.size_setIfInBounds]
      omega
  · rename_i hi
    have hsize : (xs ++ Array.replicate (i - xs.size) fill).size = i := by
      rw [Array.size_append, Array.size_replicate]
      omega
    refine ⟨?_, fun j hj _ => ?_, fun j hle hlt => ?_, ?_⟩
    · rw [Array.getElem?_push, if_pos hsize.symm]
    · rw [Array.getElem?_push, if_neg (by omega), Array.getElem?_append_left hj]
    · rw [Array.getElem?_push, if_neg (by omega), Array.getElem?_append_right hle,
        Array.getElem?_replicate, if_pos (by omega)]
    · rw [Array.size_push, hsize]
      omega

namespace Heap

variable {limits : Limits} {h h' : Heap} {container key value : Value}

/-- One heap is another one with a value in a container at a key: no other cell is touched, and the
container has not grown beyond the limits unless it was larger before. -/
structure Assigned (limits : Limits) (h : Heap) (container key value : Value) (h' : Heap) :
    Prop where
  others : ∀ r, container.ref? ≠ some r → h'.cells[r]? = h.cells[r]?
  size : h'.cells.size = h.cells.size
  content :
    (∃ r k, container = .map r ∧ key = .str k ∧ (h.entries r).Binds k value (h'.entries r) ∧
      (h'.entries r).size ≤ max (h.entries r).size limits.maxMapCount) ∨
    ∃ r i, container = .array r ∧ key = .int i ∧ 0 ≤ i ∧
      Puts .nil (h.items r) i.toNatClampNeg value (h'.items r) ∧
      (h'.items r).size ≤ max (h.items r).size limits.maxArrayIndex

/-- What a place is found for: a name in a map or an index in an array, within the limits. -/
theorem place_cases {p : Place} (hp : h.place limits container key value = .ok p) :
    (∃ r k, container = .map r ∧ key = .str k ∧ p = .entry r k ∧
      ((h.entries r).contains k = true ∨ (h.entries r).size < limits.maxMapCount)) ∨
    ∃ r i, container = .array r ∧ key = .int i ∧ p = .item r i.toNatClampNeg ∧ 0 ≤ i ∧
      i.toNatClampNeg < limits.maxArrayIndex := by
  -- The one way through the checks for each kind of
  -- container; every other pair of kinds is an error.
  unfold place at hp
  split at hp
  · cases hp
  · cases container with
    | map r =>
      cases key with
      | str k =>
        dsimp only at hp
        split at hp
        · cases hp
        · rename_i hlimit
          cases hp
          refine .inl ⟨r, k, rfl, rfl, rfl, ?_⟩
          rw [Bool.and_eq_true, Bool.not_eq_true', decide_eq_true_eq, not_and_or, Bool.not_eq_false,
            Nat.not_le] at hlimit
          exact hlimit
      | nil | bool | int | float | money | bytes | map | array => cases hp
    | array r =>
      cases key with
      | int i =>
        dsimp only at hp
        split at hp
        · cases hp
        · rename_i hsign
          split at hp
          · cases hp
          · rename_i hlimit
            cases hp
            exact .inr ⟨r, i, rfl, rfl, rfl, Int64.not_lt.1 hsign, Nat.lt_of_not_le hlimit⟩
      | nil | bool | str | float | money | bytes | map | array => cases hp
    | nil | bool | int | str | float | money | bytes => cases hp

/-- What is stored at a place of a container is an assignment to it. -/
theorem assigned_store {p : Place} (hc : h.leads container = true)
    (hp : h.place limits container key value = .ok p) :
    h.Assigned limits container key value (h.store p value) := by
  have hcontainer := (place_eq_ok hp).1
  refine ⟨fun r hr => cells_store_of_ne (hcontainer ▸ hr) value, h.size_store p value, ?_⟩
  obtain ⟨r, k, rfl, rfl, rfl, hlimit⟩ | ⟨r, i, rfl, rfl, rfl, hi, hlimit⟩ := place_cases hp
  · have hbinds := (h.entries r).binds_insert k value
    rw [← (entries_store hc value).2] at hbinds
    refine .inl ⟨r, k, rfl, rfl, hbinds, ?_⟩
    rw [hbinds.size]
    split
    · exact Nat.le_max_left _ _
    · rename_i hnew
      exact le_max_of_le_right (hlimit.resolve_left hnew)
  · have hputs := puts_set .nil (h.items r) i.toNatClampNeg value
    rw [← (items_store hc value).2] at hputs
    refine .inr ⟨r, i, rfl, rfl, hi, hputs, ?_⟩
    rw [hputs.size]
    omega

/-- A container is refused as its own element exactly if the value holds it. -/
theorem place_eq_selfAssignment_iff :
    h.place limits container key value = .error .selfAssignment ↔
    value.holds h container = true := by
  constructor
  · -- Containment is checked first, and no later check gives this fault.
    intro hp
    unfold place at hp
    split at hp
    · assumption
    · cases container with
      | map r =>
        cases key with
        | str k =>
          dsimp only at hp
          split at hp <;> cases hp
        | nil | bool | int | float | money | bytes | map | array => cases hp
      | array r =>
        cases key with
        | int i =>
          dsimp only at hp
          split at hp
          · cases hp
          · split at hp <;> cases hp
        | nil | bool | str | float | money | bytes | map | array => cases hp
      | nil | bool | int | str | float | money | bytes => cases hp
  · intro hholds
    unfold place
    exact if_pos hholds

end Heap

namespace Exec

variable {m : Machine} {container key value : Value}

theorem storeIndex_of_error {c : Context} {e : Fault}
    (hp : m.heap.place c.limits container key value = .error e) :
    storeIndex c container key value m = .error (.fault e) m := by
  change EStateM.bind (ofExcept (m.heap.place c.limits container key value)) _ m = _
  rw [hp]
  rfl

/-- **Index assignment is exact and atomic.** Where neither the container nor the value holds
itself, an assignment fails and changes nothing, or stores the value at the key and charges the
memory meter, which never falls below zero, with what the container has grown by. It is refused as
an assignment of a container to itself exactly if the container is reached from the value. -/
theorem storeIndex_exact (c : Context) (key : Value) (hc : container.Grounded m.heap)
    (hvalue : value.Grounded m.heap) :
    (storeIndex c container key value m = .error (.fault .selfAssignment) m ↔
      container.ref? ≠ none ∧ Relation.ReflTransGen m.heap.Inside container value) ∧
    ((∃ e, storeIndex c container key value m = .error (.fault e) m) ∨
      ∃ h, storeIndex c container key value m = .ok () { m with
          heap := h
          mem := max (m.mem + (container.memSize h - container.memSize m.heap)) 0 } ∧
        m.heap.Assigned c.limits container key value h) := by
  have hself : value.holds m.heap container = true ↔
      container.ref? ≠ none ∧ Relation.ReflTransGen m.heap.Inside container value := by
    by_cases href : container.ref? = none
    · simp [Value.holds, href]
    · rw [hvalue.holds_iff hc.leads href]
      exact ⟨fun hreach => ⟨href, hreach⟩, And.right⟩
  have hplace : m.heap.place c.limits container key value = .error .selfAssignment ↔
      value.holds m.heap container = true := Heap.place_eq_selfAssignment_iff
  rw [← hself, ← hplace]
  cases hp : m.heap.place c.limits container key value with
  | error e =>
    have hfails := storeIndex_of_error hp
    refine ⟨?_, .inl ⟨e, hfails⟩⟩
    rw [hfails]
    simp
  | ok p =>
    obtain ⟨rfl, hnot⟩ := Heap.place_eq_ok hp
    have hreach : ¬ Relation.ReflTransGen m.heap.Inside p.container value := by
      intro hreach
      rw [hself.2 ⟨p.ref?_container, hreach⟩] at hnot
      cases hnot
    -- the container is not reached from the value, so it is counted once in what it grows by
    have hsize := hc.memSize_store hvalue hreach hc
    rw [Value.ways_self, Nat.cast_one, Int.one_mul] at hsize
    have hstores : storeIndex c p.container key value m = .ok () { m with
        heap := m.heap.store p value
        mem := max (m.mem + (p.container.memSize (m.heap.store p value)
          - p.container.memSize m.heap)) 0 } := by
      rw [storeIndex_eq hp, hc.not_replacesHolder, hsize, add_sub_cancel_left]
      rfl
    refine ⟨?_, .inr ⟨_, hstores, Heap.assigned_store hc.leads hp⟩⟩
    rw [hstores]
    simp

/-- A machine with the array `[1]`, which is counted. -/
def machineWithArray : Machine where
  heap := ⟨#[.array #[.int 1]]⟩
  env := .empty
  cost := 100
  mem := 24

/-- Assigning to the fourth element makes `[1, nil, nil, 5]` of it. -/
theorem fourth_element_assigned :
    (Value.array 0).Grounded machineWithArray.heap ∧
      ∃ h, storeIndex { registry := .new {} [] } (.array 0) (.int 3) (.int 5) machineWithArray
          = .ok () { machineWithArray with heap := h, mem := 44 } ∧
        h.items 0 = #[.int 1, .nil, .nil, .int 5] := by
  have hgrounded : (Value.array 0).Grounded machineWithArray.heap := by decide
  refine ⟨hgrounded, ?_⟩
  obtain ⟨hself, ⟨e, herror⟩ | ⟨h, hok, hassigned⟩⟩ := storeIndex_exact (m := machineWithArray)
    { registry := .new {} [] } (.int 3) hgrounded (.of_ref?_eq_none (v := .int 5) rfl)
  · exact absurd herror (by rintro ⟨⟩)
  · have hheap : h = ⟨#[.array #[.int 1, .nil, .nil, .int 5]]⟩ := by cases hok; rfl
    exact ⟨h, by rw [hok, hheap]; rfl, by rw [hheap]; rfl⟩

end Exec

end Covenant
