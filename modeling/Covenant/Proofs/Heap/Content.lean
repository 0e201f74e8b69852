import Covenant.Proofs.Dict
import Covenant.Proofs.Heap.Grounded
import Covenant.Proofs.Money
import Mathlib.Data.List.Nodup

/-!
# What a value holds

References make two values different that hold the same, and so does the order in which names were
bound in a map, or the scale of an amount. The *content* of a value (`Value.content`) forgets all
three: an array holds a list of contents, a map a content for each name that it binds, and an amount
is a number.

Equality of values looks at the content and at nothing else (`Value.Comparable.eq_iff`), provided
that the values do not hold themselves, for then following references ends, and that no double is
inside, for not every double is equal to itself.
-/

namespace Covenant

/-- What a value holds. -/
inductive Content where
  | nil
  | bool (b : Bool)
  | int (n : Int64)
  | float (x : Float)
  | money (amount : ℚ)
  | str (s : String)
  | bytes (b : List UInt8)
  | array (items : List Content)
  | map (bound : String → Option Content)

namespace Dict

variable {α : Type} {d : Dict α} {name : String}

theorem nodup_keys (d : Dict α) : d.keys.Nodup := by
  rw [keys, List.Nodup, List.pairwise_map]
  exact d.pairwise_toList

theorem length_keys (d : Dict α) : d.keys.length = d.size := by
  rw [keys, List.length_map, toList, Array.length_toList, size]

theorem mem_keys_iff : name ∈ d.keys ↔ ∃ v, d.get? name = some v := by
  simp [keys, get?_eq_some_iff]

end Dict

namespace Value

variable {h : Heap} {a b v w : Value} {k : Nat}

/-- The content of a value, following at most `fuel` references in a row. -/
def contentWith (h : Heap) : Nat → Value → Content
  | _, nil => .nil
  | _, bool b => .bool b
  | _, int n => .int n
  | _, float x => .float x
  | _, money m => .money m.number
  | _, str s => .str s
  | _, bytes b => .bytes b
  | 0, array _ => .array []
  | 0, map _ => .map fun _ => none
  | fuel + 1, array r => .array ((h.items r).toList.map (contentWith h fuel))
  | fuel + 1, map r => .map fun name => ((h.entries r).get? name).map (contentWith h fuel)

/-- The content of a value. -/
def content (h : Heap) (v : Value) : Content := v.contentWith h h.fuel

/-- Whether no double lies somewhere inside a value. -/
def FloatFree (h : Heap) (v : Value) : Prop :=
  ∀ u, Relation.ReflTransGen h.Inside u v → ∀ x, u ≠ .float x

/-- Whether a value does not hold itself and has no double inside. -/
structure Comparable (h : Heap) (v : Value) : Prop where
  grounded : v.Grounded h
  floatFree : v.FloatFree h

theorem FloatFree.ne (hv : v.FloatFree h) (x : Float) : v ≠ .float x := hv v .refl x

theorem FloatFree.inside (hv : v.FloatFree h) (hw : w ∈ h.inside v) : w.FloatFree h :=
  fun u hu => hv u (hu.tail hw)

/-- Whether a value is a double. -/
def isFloat : Value → Bool
  | float _ => true
  | _ => false

end Value

/-- Whether no array and no map has a double as its element. -/
def Heap.floatless (h : Heap) : Bool :=
  h.cells.all fun
    | .array items => items.all fun v => !v.isFloat
    | .map entries => entries.values.all fun v => !v.isFloat

namespace Value

variable {h : Heap} {a b v w : Value} {k : Nat}

/-- There are no doubles inside of values of a heap without any. -/
theorem isFloat_of_inside (hh : h.floatless = true) (hw : w ∈ h.inside v) : w.isFloat = false := by
  have hall := Array.all_eq_true_iff_forall_mem.1 hh
  cases v with
  | array r =>
    rw [Heap.inside, Heap.items] at hw
    split at hw
    · rename_i items hcell
      have hitems := Array.all_eq_true_iff_forall_mem.1 (hall _ (Array.mem_of_getElem? hcell))
      simpa using hitems w (Array.mem_toList_iff.1 hw)
    · exact absurd hw List.not_mem_nil
  | map r =>
    rw [Heap.inside, Heap.entries] at hw
    split at hw
    · rename_i entries hcell
      simpa using List.all_eq_true.1 (hall _ (Array.mem_of_getElem? hcell)) w hw
    · exact absurd hw List.not_mem_nil
  | _ => exact absurd hw List.not_mem_nil

/-- In a heap without doubles only a double has one inside. -/
theorem FloatFree.of_floatless (hh : h.floatless = true) (hv : v.isFloat = false) :
    v.FloatFree h := by
  rintro u hu x rfl
  rcases Relation.ReflTransGen.cases_head hu with rfl | ⟨w, hw, -⟩
  · cases hv
  · cases isFloat_of_inside hh hw

/-! ### Scalars -/

/-- A scalar is equal to what has the same content. -/
theorem eqWith_iff_of_scalar (ha : a.ref? = none) (hfree : ∀ x, a ≠ .float x) (k : Nat) :
    eqWith h k a b = true ↔ contentWith h k a = contentWith h k b := by
  cases a with
  | float x => exact absurd rfl (hfree x)
  | map r | array r => cases ha
  | money m =>
    cases b with
    | money m' => simp only [eqWith, contentWith, Money.compare_beq_eq, Content.money.injEq]
    | _ => cases k <;> simp [eqWith, contentWith]
  | _ => cases b <;> cases k <;> simp [eqWith, contentWith]

/-! ### Arrays and maps -/

/-- Two lists hold the same if they are of one length and hold the same at each position. -/
theorem all_zip_iff {α β : Type} {eq : α → α → Bool} {f : α → β} {xs ys : List α}
    (heq : ∀ x ∈ xs, ∀ y ∈ ys, (eq x y = true ↔ f x = f y)) :
    (xs.length = ys.length ∧ (xs.zip ys).all (fun p => eq p.1 p.2) = true) ↔
    xs.map f = ys.map f := by
  induction xs generalizing ys with
  | nil => cases ys <;> simp
  | cons x xs ih =>
    cases ys with
    | nil => simp
    | cons y ys =>
      have hrest := ih fun u hu v hv => heq u (List.mem_cons_of_mem _ hu) v
        (List.mem_cons_of_mem _ hv)
      simp only [List.length_cons, Nat.add_right_cancel_iff, List.zip_cons_cons, List.all_cons,
        Bool.and_eq_true, List.map_cons, List.cons.injEq, ← hrest,
        heq x List.mem_cons_self y List.mem_cons_self]
      exact and_left_comm

/-- Two dictionaries hold the same if they are of one size and the first one's names are bound to
the same in the second one. -/
theorem all_get?_iff {α β : Type} {eq : α → α → Bool} {f : α → β} {d e : Dict α}
    (heq : ∀ x ∈ d.values, ∀ y ∈ e.values, (eq x y = true ↔ f x = f y)) :
    (d.size = e.size ∧ ∀ p ∈ d.toList, ∃ y, e.get? p.1 = some y ∧ eq p.2 y = true) ↔
      ∀ name, (d.get? name).map f = (e.get? name).map f := by
  have hd : ∀ {name x}, d.get? name = some x → x ∈ d.values := Dict.mem_values_of_get?
  have he : ∀ {name y}, e.get? name = some y → y ∈ e.values := Dict.mem_values_of_get?
  constructor
  · rintro ⟨hsize, hall⟩ name
    cases hx : d.get? name with
    | some x =>
      obtain ⟨y, hy, hxy⟩ := hall (name, x) (Dict.get?_eq_some_iff.1 hx)
      have hy : e.get? name = some y := hy
      rw [hy, Option.map_some, Option.map_some, (heq x (hd hx) y (he hy)).1 hxy]
    | none =>
      -- no name of the second one is left over, since the first one has as many
      have hsub : d.keys ⊆ e.keys := fun key hkey => by
        obtain ⟨x, hx⟩ := Dict.mem_keys_iff.1 hkey
        obtain ⟨y, hy, -⟩ := hall (key, x) (Dict.get?_eq_some_iff.1 hx)
        exact Dict.mem_keys_iff.2 ⟨y, hy⟩
      have hperm : d.keys.Perm e.keys :=
        (d.nodup_keys.subperm hsub).perm_of_length_le
          (by rw [Dict.length_keys, Dict.length_keys, hsize])
      cases hy : e.get? name with
      | none => rfl
      | some y =>
        obtain ⟨x, hx'⟩ := Dict.mem_keys_iff.1 (hperm.mem_iff.2 (Dict.mem_keys_iff.2 ⟨y, hy⟩))
        rw [hx] at hx'
        cases hx'
  · intro hsame
    have hbound : ∀ name, (d.get? name).isSome = (e.get? name).isSome := fun name => by
      have hmap := congrArg Option.isSome (hsame name)
      rwa [Option.isSome_map, Option.isSome_map] at hmap
    have hperm : d.keys.Perm e.keys := by
      rw [List.perm_ext_iff_of_nodup d.nodup_keys e.nodup_keys]
      intro name
      rw [Dict.mem_keys_iff, Dict.mem_keys_iff, ← Option.isSome_iff_exists,
        ← Option.isSome_iff_exists, hbound name]
    refine ⟨by rw [← Dict.length_keys, ← Dict.length_keys, hperm.length_eq], fun p hp => ?_⟩
    have hx : d.get? p.1 = some p.2 := Dict.get?_eq_some_iff.2 hp
    obtain ⟨y, hy⟩ := Option.isSome_iff_exists.1 ((hbound p.1).symm.trans (by rw [hx]; rfl))
    have hfxy := hsame p.1
    rw [hx, hy, Option.map_some, Option.map_some, Option.some.injEq] at hfxy
    exact ⟨y, hy, (heq p.2 (hd hx) y (he hy)).2 hfxy⟩

/-! ### Equality -/

theorem eqWith_array {r s : Ref} : eqWith h (k + 1) (.array r) (.array s) = true ↔ r = s ∨
    ((h.items r).toList.length = (h.items s).toList.length ∧
      ((h.items r).toList.zip (h.items s).toList).all (fun p => eqWith h k p.1 p.2) = true) := by
  simp [eqWith]

/-- Maps are equal if they have equal values for the same keys. -/
theorem eqWith_map {r s : Ref} : eqWith h (k + 1) (.map r) (.map s) = true ↔ r = s ∨
    ((h.entries r).size = (h.entries s).size ∧
      ∀ p ∈ (h.entries r).toList, ∃ y, (h.entries s).get? p.1 = some y ∧
      eqWith h k p.2 y = true) := by
  rw [eqWith, Bool.or_eq_true, Bool.and_eq_true, beq_iff_eq, beq_iff_eq,
    ← Array.all_toList, List.all_eq_true]
  refine or_congr_right (and_congr_right fun _ => forall₂_congr fun p hp => ?_)
  cases (h.entries s).get? p.1 <;> simp

/-- With enough fuel for both, equality compares contents. -/
theorem eqWith_iff_contentWith (ha : groundedWith h k a = true) (hb : groundedWith h k b = true)
    (hfa : a.FloatFree h) (hfb : b.FloatFree h) :
    eqWith h k a b = true ↔ contentWith h k a = contentWith h k b := by
  induction k generalizing a b with
  | zero => exact eqWith_iff_of_scalar (by simpa [groundedWith] using ha) hfa.ne 0
  | succ k ih =>
    -- Containers are compared by what is inside, one level less deep.
    have hinside : ∀ x ∈ h.inside a, ∀ y ∈ h.inside b,
        (eqWith h k x y = true ↔ contentWith h k x = contentWith h k y) := fun x hx y hy =>
      ih ((groundedWith_succ.1 ha).2 x hx) ((groundedWith_succ.1 hb).2 y hy)
        (hfa.inside hx) (hfb.inside hy)
    cases a with
    | array r =>
      cases b with
      | array s =>
        have hitems : ∀ x ∈ (h.items r).toList, ∀ y ∈ (h.items s).toList,
            (eqWith h k x y = true ↔ contentWith h k x = contentWith h k y) := hinside
        rw [eqWith_array, all_zip_iff hitems, contentWith, contentWith, Content.array.injEq]
        exact or_iff_right_of_imp fun hrs => by rw [hrs]
      | _ => simp [eqWith, contentWith]
    | map r =>
      cases b with
      | map s =>
        rw [eqWith_map, all_get?_iff hinside, contentWith, contentWith,
          Content.map.injEq, funext_iff]
        exact or_iff_right_of_imp fun hrs name => by rw [hrs]
      | _ => simp [eqWith, contentWith]
    | _ => exact eqWith_iff_of_scalar rfl hfa.ne (k + 1)

/-- **Values are equal exactly if they hold the same**, if they do not hold themselves and have no
doubles inside. -/
theorem Comparable.eq_iff (ha : a.Comparable h) (hb : b.Comparable h) :
    a.eq h b = true ↔ a.content h = b.content h :=
  eqWith_iff_contentWith (grounded_iff.1 ha.grounded) (grounded_iff.1 hb.grounded)
    ha.floatFree hb.floatFree

end Value

end Covenant
