import Covenant.Machine.Call
import Covenant.Proofs.Dict
import Covenant.Proofs.Heap.Grounded

/-!
# Properties of values that last

The machine makes values of other values: it reads elements, checks and converts arguments,
calculates, and puts values into new arrays and maps. A property of values is `Lasting` if it passes
on from what the machine uses to what it makes, and is not lost when cells are added to the heap.
Being grounded is such a property (`Value.Grounded.lasting`).
-/

namespace Covenant

/-- Whether a computation that may fail gives a value with a property, or says what is wrong: that a
run has broken off is no such cause. -/
def Gives {α : Type} (P : α → Prop) : Except Fault α → Prop
  | .ok a => P a
  | .error f => f ≠ .runtimePanic

theorem Gives.bind {α β : Type} {P : α → Prop} {Q : β → Prop} {x : Except Fault α}
    {f : α → Except Fault β} (hx : Gives P x) (hf : ∀ a, P a → Gives Q (f a)) :
    Gives Q (x >>= f) := by
  cases x with
  | ok a => exact hf a hx
  | error e => exact hx

theorem Gives.imp {α : Type} {P Q : α → Prop} {x : Except Fault α} (hx : Gives P x)
    (h : ∀ a, P a → Q a) : Gives Q x := by
  cases x with
  | ok a => exact h a hx
  | error e => exact hx

theorem Gives.map {α β : Type} {P : α → Prop} {Q : β → Prop} {x : Except Fault α} {f : α → β}
    (hx : Gives P x) (hf : ∀ a, P a → Q (f a)) : Gives Q (x.map f) := by
  cases x with
  | ok a => exact hf a hx
  | error e => exact hx

/-- A conversion to an integer gives one or fails. -/
theorem Value.gives_toInt (h : Heap) (v : Value) : Gives (fun _ => True) (v.toInt h) := by
  unfold toInt
  split
  · trivial
  · trivial
  · split
    · trivial
    · exact nofun
  · trivial
  · split
    · trivial
    · split
      · trivial
      · exact nofun
  · exact nofun

/-- So does one to an amount. -/
theorem Value.gives_toMoney (v : Value) : Gives (fun _ => True) v.toMoney := by
  unfold toMoney
  split
  · trivial
  · trivial
  · split
    · trivial
    · exact nofun
  · split
    · trivial
    · split
      · trivial
      · exact nofun
  · exact nofun

namespace Arithmetic

theorem gives_compareWith (op : BinaryOp) (o : Ordering) :
    Gives (fun v => v.ref? = none) (compareWith op o) := by
  unfold compareWith
  split
  · rfl
  · exact nofun

theorem gives_strings (op : BinaryOp) (x y : String) :
    Gives (fun v => v.ref? = none) (strings op x y) := by
  unfold strings
  split
  · rfl
  · exact gives_compareWith _ _

/-- Integers are combined to values without references. -/
theorem gives_ints (op : BinaryOp) (x y : Int64) :
    Gives (fun v => v.ref? = none) (ints op x y) := by
  unfold ints
  split
  · rfl
  · rfl
  · rfl
  · split
    · exact nofun
    · rfl
  · exact gives_compareWith _ _

/-- So are doubles. -/
theorem gives_floats (op : BinaryOp) (x y : Float) :
    Gives (fun v => v.ref? = none) (floats op x y) := by
  unfold floats
  split
  · rfl
  · rfl
  · rfl
  · split
    · exact nofun
    · rfl
  · split
    · exact gives_compareWith _ _
    · rfl

theorem gives_amount (m : Option Money) : Gives (fun v => v.ref? = none) (amount m) := by
  cases m with
  | none => exact nofun
  | some m => rfl

/-- So are amounts. -/
theorem gives_moneys (op : BinaryOp) (x y : Money) :
    Gives (fun v => v.ref? = none) (moneys op x y) := by
  unfold moneys
  split
  · exact gives_amount _
  · exact gives_amount _
  · exact gives_amount _
  · split
    · exact nofun
    · exact gives_amount _
  · exact gives_compareWith _ _

theorem gives_others (h : Heap) (op : BinaryOp) (a b : Value) :
    Gives (fun v => v.ref? = none) (others h op a b) := by
  unfold others
  split
  · rfl
  · rfl
  · exact nofun

/-- What is calculated from two values is no array or map. -/
theorem gives_binary (h : Heap) (op : BinaryOp) (a b : Value) :
    Gives (fun v => v.ref? = none) (binary h op a b) := by
  unfold binary
  split
  · rfl
  · rfl
  · split
    · exact gives_others ..
    · exact gives_strings ..
    · exact .bind (a.gives_toInt h) fun x _ => .bind (b.gives_toInt h) fun y _ => gives_ints ..
    · exact gives_floats ..
    · exact .bind a.gives_toMoney fun x _ => .bind b.gives_toMoney fun y _ => gives_moneys ..

/-- What is calculated from a value is no array or map. -/
theorem gives_unary (h : Heap) (op : UnaryOp) (a : Value) :
    Gives (fun v => v.ref? = none) (unary h op a) := by
  unfold unary
  split
  · rfl
  · rfl
  · rfl
  · rfl
  · exact .bind (Value.gives_toInt h _) fun n _ => rfl
  · exact nofun

end Arithmetic

/-- A place in a container is found, or the access fails. -/
theorem Heap.gives_place (limits : Limits) (h : Heap) (container key value : Value) :
    Gives (fun _ => True) (h.place limits container key value) := by
  unfold place
  split
  · exact nofun
  · split
    · split
      · split
        · exact nofun
        · trivial
      · exact nofun
    · split
      · split
        · exact nofun
        · split
          · exact nofun
          · trivial
      · exact nofun
    · exact nofun

/-- Whether a property of values holds of what the machine makes of such values, and lasts while
cells are added to the heap. What is said of `nil` is what the property says of the heap alone. -/
structure Lasting (P : Heap → Value → Prop) : Prop where
  nil : ∀ {h : Heap} {v : Value}, P h v → P h .nil
  scalar : ∀ {h : Heap} {v : Value}, P h .nil → v.ref? = none → P h v
  inside : ∀ {h : Heap} {v w : Value}, P h v → w ∈ h.inside v → P h w
  grow : ∀ {h h' : Heap} {v : Value}, P h v → h.Extends h' → P h' v
  array : ∀ {h : Heap} {items : Array Value}, P h .nil → (∀ v ∈ items.toList, P h v) →
    P (h.newArray items).2 (h.newArray items).1
  map : ∀ {h : Heap} {entries : Dict Value}, P h .nil → (∀ v ∈ entries.values, P h v) →
    P (h.newMap entries).2 (h.newMap entries).1

theorem lasting_true : Lasting fun _ _ => True :=
  ⟨fun _ => trivial, fun _ _ => trivial, fun _ _ => trivial, fun _ _ => trivial, fun _ _ => trivial,
    fun _ _ => trivial⟩

/-- A new array holds the values that it is made of. -/
theorem Heap.inside_newArray (h : Heap) (items : Array Value) :
    (h.newArray items).2.inside (h.newArray items).1 = items.toList := by
  have hcell : (h.newArray items).2.cells[h.cells.size]? = some (.array items) :=
    Array.getElem?_push_size
  show ((h.newArray items).2.items h.cells.size).toList = items.toList
  rw [Heap.items, hcell]

/-- A new map holds the values that it is made of. -/
theorem Heap.inside_newMap (h : Heap) (entries : Dict Value) :
    (h.newMap entries).2.inside (h.newMap entries).1 = entries.values := by
  have hcell : (h.newMap entries).2.cells[h.cells.size]? = some (.map entries) :=
    Array.getElem?_push_size
  show ((h.newMap entries).2.entries h.cells.size).values = entries.values
  rw [Heap.entries, hcell]

/-- New arrays and maps of grounded values are grounded. -/
theorem Value.Grounded.lasting : Lasting Value.Grounded where
  nil _ := .of_ref?_eq_none rfl
  scalar _ := .of_ref?_eq_none
  inside := .inside
  grow := .grow
  array := by
    intro h items _ hitems
    refine .intro ?_ fun w hw => ?_
    · simp [Heap.leads, Heap.newArray]
    · rw [Heap.inside_newArray] at hw
      exact (hitems w hw).grow (.push h _)
  map := by
    intro h entries _ hentries
    refine .intro ?_ fun w hw => ?_
    · simp [Heap.leads, Heap.newMap]
    · rw [Heap.inside_newMap] at hw
      exact (hentries w hw).grow (.push h _)

theorem Heap.length_defaults (h : Heap) (tys : List Ty) :
    (h.defaults tys).1.length = tys.length := by
  induction tys generalizing h with
  | nil => rfl
  | cons t ts ih => exact congrArg Nat.succ (ih (h.default t).2)

namespace Lasting

variable {P : Heap → Value → Prop} {h : Heap}

/-- The values of new variables, and the cells for them. -/
theorem defaults (hP : Lasting P) (hnil : P h .nil) (tys : List Ty) :
    h.Extends (h.defaults tys).2 ∧ ∀ v ∈ (h.defaults tys).1, P (h.defaults tys).2 v := by
  induction tys generalizing h with
  | nil => exact ⟨.refl h, fun v hv => absurd hv List.not_mem_nil⟩
  | cons t ts ih =>
    have hone : h.Extends (h.default t).2 ∧ P (h.default t).2 (h.default t).1 := by
      have harray : P (h.newArray #[]).2 (h.newArray #[]).1 := hP.array hnil fun v hv => by cases hv
      have hmap : P (h.newMap .empty).2 (h.newMap .empty).1 :=
        hP.map hnil (Dict.all_iff_forall_values.1 .empty)
      cases t with
      | array => exact ⟨.push h _, harray⟩
      | map | file => exact ⟨.push h _, hmap⟩
      | bool | bytes | int | address | money | float | string | any =>
        exact ⟨.refl h, hP.scalar hnil rfl⟩
    obtain ⟨hext, hrest⟩ := ih (hP.grow hnil hone.1)
    refine ⟨hone.1.trans hext, fun v hv => ?_⟩
    rcases List.mem_cons.1 hv with rfl | hv
    · exact hP.grow hone.2 hext
    · exact hrest v hv

theorem items (hP : Lasting P) {r : Ref} (hr : P h (.array r)) : ∀ v ∈ (h.items r).toList, P h v :=
  fun _ hv => hP.inside hr hv

theorem entries (hP : Lasting P) {r : Ref} (hr : P h (.map r)) : (h.entries r).All (P h) :=
  Dict.all_iff_forall_values.2 fun _ hv => hP.inside hr hv

/-- Reading an element. -/
theorem index (hP : Lasting P) {container : Value} (key : Value) (hc : P h container) :
    Gives (P h) (h.index container key) := by
  unfold Heap.index
  split
  · rename_i r
    split
    · rename_i k
      change P h (((h.entries r).get? k).getD .nil)
      cases hget : (h.entries r).get? k with
      | none => exact hP.nil hc
      | some v => exact hP.entries hc k v hget
    · exact nofun
  · split
    · split
      · exact nofun
      · split
        · rename_i hget
          exact hP.items hc _ (Array.mem_toList_iff.2 (Array.mem_of_getElem? hget))
        · exact nofun
    · exact nofun
  · exact nofun

/-- Checking arguments keeps them or makes integers of them. -/
theorem checkParams (hP : Lasting P) (i : Nat) (ts : List Ty) {vs : List Value}
    (hvs : ∀ v ∈ vs, P h v) :
    Gives (fun vs' => ∀ v ∈ vs', P h v) (Covenant.checkParams i ts vs) := by
  induction ts generalizing i vs with
  | nil => cases vs <;> exact hvs
  | cons t ts ih =>
    cases vs with
    | nil => exact hvs
    | cons v vs =>
      obtain ⟨hv, hrest⟩ := List.forall_mem_cons.1 hvs
      have htail : ∀ u, P h u → Gives (fun vs' => ∀ v ∈ vs', P h v)
          (Covenant.checkParams (i + 1) ts vs >>= fun us => pure (u :: us)) := fun u hu =>
        .bind (ih (i + 1) hrest) fun us hus => List.forall_mem_cons.2 ⟨hu, hus⟩
      unfold Covenant.checkParams
      dsimp only
      split
      · exact htail _ (hP.scalar (hP.nil hv) rfl)
      · split
        · exact htail v hv
        · exact nofun

/-- Converting a value keeps it or makes a number of it. -/
theorem convert (hP : Lasting P) (t : Option Ty) {x : Value} (hx : P h x) :
    Gives (P h) (Ty.convert t x) := by
  unfold Ty.convert
  split
  · exact hx
  · exact .map x.gives_toMoney fun m _ => hP.scalar (hP.nil hx) rfl
  · exact hP.scalar (hP.nil hx) rfl
  · exact hx

end Lasting

end Covenant
