import Std.Data.ExtTreeMap

/-!
# Dictionaries in insertion order

A `Dict α` binds names to values and remembers the order in which the names were first bound.
Rebinding a name keeps its place, and erasing a name closes the gap. The entries are an array; a
search tree from names to positions makes look-ups fast, and a field of the structure keeps the two
in step, so that no name occurs twice.

The view of a dictionary is `toList`, the entries in order; `get?` finds the entry of a name.
-/

namespace Covenant

/-- Bindings of names in the order of their first binding. -/
structure Dict (α : Type) where
  entries : Array (String × α)
  index : Std.ExtTreeMap String Nat
  index_eq : ∀ (key : String) (i : Nat),
    index[key]? = some i ↔ (entries[i]?).map Prod.fst = some key

namespace Dict

variable {α : Type}

/-- No bindings. -/
def empty : Dict α := ⟨#[], ∅, by simp⟩

instance : Inhabited (Dict α) := ⟨empty⟩

/-- The bindings in order. -/
def toList (d : Dict α) : List (String × α) := d.entries.toList

/-- The bound names in order. -/
def keys (d : Dict α) : List String := d.toList.map Prod.fst

/-- The bound values in the order of their names. -/
def values (d : Dict α) : List α := d.toList.map Prod.snd

/-- The number of bindings. -/
def size (d : Dict α) : Nat := d.entries.size

/-- Whether nothing is bound. -/
def isEmpty (d : Dict α) : Bool := d.size == 0

/-- The value bound to a name. -/
def get? (d : Dict α) (key : String) : Option α :=
  match d.index[key]? with
  | none => none
  | some i => (d.entries[i]?).map Prod.snd

/-- Whether a name is bound. -/
def contains (d : Dict α) (key : String) : Bool := d.index.contains key

/-- A position the index knows is a position of the array. -/
theorem lt_of_index {d : Dict α} {key : String} {i : Nat} (h : d.index[key]? = some i) :
    i < d.entries.size := by
  have := (d.index_eq key i).1 h
  rcases Nat.lt_or_ge i d.entries.size with hi | hi
  · exact hi
  · simp [Array.getElem?_eq_none hi] at this

/-- Rebinding a known name keeps index and entries in step. -/
theorem index_eq_set (d : Dict α) {key : String} {i : Nat} (value : α)
    (h : d.index[key]? = some i) (k : String) (j : Nat) :
    d.index[k]? = some j ↔
      ((d.entries.set i (key, value) (lt_of_index h))[j]?).map Prod.fst = some k := by
  rw [d.index_eq, Array.getElem?_set (lt_of_index h)]
  split
  · rename_i e
    subst e
    simp [(d.index_eq key i).1 h]
  · rfl

/-- Binding a new name keeps index and entries in step. -/
theorem index_eq_push (d : Dict α) {key : String} (value : α) (h : d.index[key]? = none)
    (k : String) (j : Nat) :
    (d.index.insert key d.entries.size)[k]? = some j ↔
      ((d.entries.push (key, value))[j]?).map Prod.fst = some k := by
  -- The key is not in use, so the new entry is the only one under it.
  have hnew : ∀ i : Nat, (d.entries[i]?).map Prod.fst ≠ some key := by
    intro i hi
    rw [← d.index_eq, h] at hi
    simp at hi
  rw [Std.ExtTreeMap.getElem?_insert, Array.getElem?_push]
  by_cases hk : key = k
  · subst hk
    have hself : compare key key = .eq := Std.ReflCmp.compare_self
    rw [if_pos hself]
    split
    · rename_i e
      simp [e]
    · rename_i e
      simp only [Option.some.injEq]
      exact ⟨fun hj => absurd hj.symm e, fun hj => absurd hj (hnew j)⟩
  · have hc : ¬ compare key k = .eq := fun hc => hk (Std.LawfulEqCmp.eq_of_compare hc)
    rw [if_neg hc, d.index_eq]
    split
    · rename_i e
      subst e
      simp [hk]
    · rfl

/-- Binds a name. A new name goes to the end, a known one keeps its place. -/
def insert (d : Dict α) (key : String) (value : α) : Dict α :=
  match h : d.index[key]? with
  | some i => ⟨d.entries.set i (key, value) (lt_of_index h), d.index, d.index_eq_set value h⟩
  | none =>
    let size := d.entries.size
    ⟨d.entries.push (key, value), d.index.insert key size, d.index_eq_push value h⟩

/-- Binds the names of a list one after the other. -/
def insertAll (d : Dict α) (pairs : List (String × α)) : Dict α :=
  pairs.foldl (fun d p => d.insert p.1 p.2) d

/-- The dictionary of a list of bindings; of several bindings of a name the last one wins. -/
def ofList (pairs : List (String × α)) : Dict α := empty.insertAll pairs

/-- Keeps the bindings whose name passes a test. -/
def filterKeys (d : Dict α) (keep : String → Bool) : Dict α :=
  ofList (d.toList.filter fun p => keep p.1)

/-- Drops the binding of a name and closes the gap. -/
def erase (d : Dict α) (key : String) : Dict α :=
  if d.contains key then d.filterKeys (· != key) else d

/-- Binds a name, or drops it when there is no value. -/
def assign (d : Dict α) (key : String) (value : Option α) : Dict α :=
  match value with
  | some v => d.insert key v
  | none => d.erase key

/-- The bindings sorted by name. -/
def sorted (d : Dict α) : List (String × α) :=
  d.toList.mergeSort fun p q => p.1 ≤ q.1

/-- Dictionaries with the same bindings in the same order are equal. -/
theorem ext_entries {d₁ d₂ : Dict α} (h : d₁.entries = d₂.entries) : d₁ = d₂ := by
  have hi : d₁.index = d₂.index := by
    apply Std.ExtTreeMap.ext_getElem?
    intro k
    apply Option.ext
    intro i
    rw [d₁.index_eq, d₂.index_eq, h]
  cases d₁
  cases d₂
  simp_all

/-- What a name is bound to after binding a name. -/
theorem get?_insert (d : Dict α) (key name : String) (value : α) :
    (d.insert key value).get? name = if key = name then some value else d.get? name := by
  unfold insert
  split
  · -- the key is there: its entry is overwritten, and no other key has the same index
    rename_i i h
    have hi := lt_of_index h
    by_cases hk : key = name
    · subst hk
      simp [get?, h, hi]
    · rw [if_neg hk]
      unfold get?
      dsimp only
      split
      · rfl
      · rename_i j hj
        have hne : i ≠ j := by
          rintro rfl
          have h₁ := (d.index_eq key i).1 h
          have h₂ := (d.index_eq name i).1 hj
          rw [h₁] at h₂
          exact hk (Option.some.inj h₂)
        simp [Array.getElem?_set hi, hne]
  · -- the key is new: it gets the index behind all others
    rename_i h
    by_cases hk : key = name
    · subst hk
      simp [get?]
    · rw [if_neg hk]
      have hc : ¬ compare key name = .eq := fun hc => hk (Std.LawfulEqCmp.eq_of_compare hc)
      unfold get?
      dsimp only
      rw [Std.ExtTreeMap.getElem?_insert, if_neg hc]
      split
      · rfl
      · rename_i j hj
        have hlt := lt_of_index hj
        simp [Array.getElem?_push, Nat.ne_of_lt hlt]

end Dict

end Covenant
