import Covenant.Proofs.Heap.Lasting
import Covenant.Proofs.Heap.Stores

/-!
# Cells that values do not lead to

Following references from a value comes to some cells and to no others. If it comes to none of
certain cells (`Value.Avoids`), then these cells do not matter to the value: they can be changed
(`Value.Avoids.of_same`), and whatever is made of such values and stored into such values leaves
them as they are (`Value.Apart.lasting`, `Value.Apart.store`).
-/

namespace Covenant

namespace Heap

variable {h : Heap} {p : Place} {u v w value : Value}

/-- A value that leads nowhere has nothing inside. -/
theorem inside_of_not_leads (hv : h.leads v = false) : h.inside v = [] := by
  cases v with
  | array r =>
    have hitems : h.items r = #[] := by
      rw [leads] at hv
      rw [items]
      rcases hcell : h.cells[r]? with _ | _ | _ <;> simp_all
    rw [inside, hitems]
  | map r =>
    have hentries : h.entries r = .empty := by
      rw [leads] at hv
      rw [entries]
      rcases hcell : h.cells[r]? with _ | _ | _ <;> simp_all
    rw [inside, hentries]
    rfl
  | _ => rfl

/-- A store at a place that is not there changes nothing. -/
theorem store_of_not_leads (hp : h.leads p.container = false) : h.store p value = h := by
  -- a cell of the other kind is left as it is
  have hsame : ∀ (r : Ref) (f : Cell → Cell), (∀ c, h.cells[r]? = some c → f c = c) →
      (⟨h.cells.modify r f⟩ : Heap) = h := by
    intro r f hf
    congr 1
    apply Array.ext_getElem?
    intro i
    rw [Array.getElem?_modify]
    split
    · rename_i heq
      subst heq
      cases hcell : h.cells[r]? with
      | none => rfl
      | some c => rw [Option.map_some, hf c hcell]
    · rfl
  cases p with
  | item r i =>
    refine hsame r _ fun c hc => ?_
    rw [Place.container, leads, hc] at hp
    cases c with
    | array items => cases hp
    | map entries => rfl
  | entry r k =>
    refine hsame r _ fun c hc => ?_
    rw [Place.container, leads, hc] at hp
    cases c with
    | array items => rfl
    | map entries => cases hp

/-- What comes to lie in a value by a store is what is stored, or `nil`. -/
theorem mem_inside_store (hw : w ∈ (h.store p value).inside u) :
    w ∈ h.inside u ∨ w = value ∨ w = .nil := by
  cases hp : h.leads p.container with
  | false =>
    rw [store_of_not_leads hp] at hw
    exact .inl hw
  | true =>
    obtain ⟨hstored, hinside⟩ := inside_store_self hp value
    by_cases hself : u = p.container
    · exact hself ▸ hinside w (hself ▸ hw)
    · cases hu : (h.store p value).leads u with
      | false =>
        rw [inside_of_not_leads hu] at hw
        exact absurd hw List.not_mem_nil
      | true =>
        have hother : ∀ r, u.ref? = some r → (h.store p value).cells[r]? = h.cells[r]? :=
          fun r hr =>
          cells_store_of_ne (fun hpr => hself (eq_of_ref?_eq hu hstored hr hpr)) value
        rw [(cell_congr hother).2.1] at hw
        exact .inl hw

end Heap

namespace Value

variable {K K' : Ref → Prop} {h₀ h h' : Heap} {p : Place} {u v w value : Value}

/-! ### Values that avoid some cells -/

/-- Whether following references from a value comes to cells that are there, and to none of some
others. -/
def Avoids (K : Ref → Prop) (h : Heap) (v : Value) : Prop :=
  ∀ u : Value, Relation.ReflTransGen h.Inside u v → ∀ r, u.ref? = some r → r < h.cells.size ∧ ¬ K r

theorem avoids_iff : v.Avoids K h ↔
    (∀ r, v.ref? = some r → r < h.cells.size ∧ ¬ K r) ∧ ∀ w ∈ h.inside v, w.Avoids K h := by
  refine ⟨fun hv => ⟨hv v .refl, fun w hw u hu => hv u (hu.tail hw)⟩, fun hv u hu => ?_⟩
  rcases Relation.ReflTransGen.cases_tail hu with rfl | ⟨w, hu, hw⟩
  · exact hv.1
  · exact hv.2 w hw u hu

namespace Avoids

theorem inside (hv : v.Avoids K h) (hw : w ∈ h.inside v) : w.Avoids K h := (avoids_iff.1 hv).2 w hw

theorem of_ref?_eq_none (hv : v.ref? = none) : v.Avoids K h := by
  refine avoids_iff.2 ⟨fun r hr => ?_, fun w hw => ?_⟩
  · cases hv.symm.trans hr
  · rw [Heap.inside_of_ref?_eq_none hv] at hw
    exact absurd hw List.not_mem_nil

/-- What can be reached in another heap avoids the cells, if what lies inside such values there
does. -/
theorem reached (hinside : ∀ u : Value, u.Avoids K h → ∀ w ∈ h'.inside u, w.Avoids K h)
    (hv : v.Avoids K h) (hu : Relation.ReflTransGen h'.Inside u v) : u.Avoids K h := by
  induction hu using Relation.ReflTransGen.head_induction_on with
  | refl => exact hv
  | head hstep _ ih => exact hinside _ ih _ hstep

/-- **Cells that a value avoids do not matter to it**, and neither do new ones. -/
theorem of_same (hcells : ∀ r < h.cells.size, ¬ K r → h'.cells[r]? = h.cells[r]?)
    (hK : ∀ r < h.cells.size, K' r → K r) (hv : v.Avoids K h) : v.Avoids K' h' := by
  intro u hu r hr
  have hinside : ∀ u : Value, u.Avoids K h → ∀ w ∈ h'.inside u, w.Avoids K h := by
    intro u hu w hw
    have hsame : h'.inside u = h.inside u :=
      (Heap.cell_congr fun r hr => hcells r (hu u .refl r hr).1 (hu u .refl r hr).2).2.1
    exact hu.inside (hsame ▸ hw)
  obtain ⟨hlt, hnot⟩ := hv.reached hinside hu u .refl r hr
  refine ⟨?_, fun hr' => hnot (hK r hlt hr')⟩
  have hget := hcells r hlt hnot
  rw [Array.getElem?_eq_getElem hlt] at hget
  exact (Array.getElem?_eq_some_iff.1 hget).1

theorem grow (hv : v.Avoids K h) (hext : h.Extends h') : v.Avoids K h' :=
  hv.of_same (fun r hr _ => hext r hr) fun _ _ hr => hr

/-- Storing such a value anywhere keeps what avoids the cells. -/
theorem store (hvalue : value.Avoids K h) (hv : v.Avoids K h) : v.Avoids K (h.store p value) := by
  intro u hu r hr
  rw [Heap.size_store]
  refine hv.reached (fun u hu w hw => ?_) hu u .refl r hr
  rcases Heap.mem_inside_store hw with hw | rfl | rfl
  · exact hu.inside hw
  · exact hvalue
  · exact of_ref?_eq_none rfl

end Avoids

/-- Whether all references that following them comes to are to cells that are there. -/
def Bounded (h : Heap) (v : Value) : Prop := v.Avoids (fun _ => False) h

/-! ### Cells that stay -/

/-- Whether some cells are those of another heap, which has no more cells, and a value avoids
them. -/
structure Apart (K : Ref → Prop) (h₀ h : Heap) (v : Value) : Prop where
  size : h₀.cells.size ≤ h.cells.size
  kept : ∀ r, K r → r < h.cells.size ∧ h.cells[r]? = h₀.cells[r]?
  avoids : v.Avoids K h

namespace Apart

/-- At first all cells are as they are. -/
theorem start (hK : ∀ r, K r → r < h.cells.size) (hv : v.Avoids K h) : v.Apart K h h :=
  ⟨Nat.le_refl _, fun r hr => ⟨hK r hr, rfl⟩, hv⟩

/-- If no cells are to stay, references are to be to cells only. -/
theorem iff_bounded : v.Apart (fun _ => False) .empty h ↔ v.Bounded h :=
  ⟨Apart.avoids, fun hv => ⟨Nat.zero_le _, fun _ hr => hr.elim, hv⟩⟩

theorem grow (hv : v.Apart K h₀ h) (hext : h.Extends h') : v.Apart K h₀ h' where
  size := hv.size.trans hext.le
  kept r hr := ⟨Nat.lt_of_lt_of_le (hv.kept r hr).1 hext.le,
    (hext r (hv.kept r hr).1).trans (hv.kept r hr).2⟩
  avoids := hv.avoids.grow hext

/-- A value of which nothing is to be shown but that it avoids the cells. -/
theorem of_avoids (hu : u.Apart K h₀ h) (hv : v.Avoids K h) :
    v.Apart K h₀ h := ⟨hu.size, hu.kept, hv⟩

/-- A new cell is none of those that stay. -/
theorem fresh (hv : v.Apart K h₀ h) : ¬ K h.cells.size := fun hK => Nat.lt_irrefl _ (hv.kept _ hK).1

/-- The machine makes such values of such values, and leaves the cells as they are. -/
theorem lasting (K : Ref → Prop) (h₀ : Heap) : Lasting (Apart K h₀) where
  nil hv := hv.of_avoids (.of_ref?_eq_none rfl)
  scalar hnil hv := hnil.of_avoids (.of_ref?_eq_none hv)
  inside hv hw := hv.of_avoids (hv.avoids.inside hw)
  grow := grow
  array {h items} hnil hitems := by
    have hext : h.Extends (h.newArray items).2 := .push h _
    refine (hnil.grow hext).of_avoids (avoids_iff.2 ⟨fun r hr => ?_, fun w hw => ?_⟩)
    · cases hr
      exact ⟨by simp [Heap.newArray], hnil.fresh⟩
    · rw [Heap.inside_newArray] at hw
      exact (hitems w hw).avoids.grow hext
  map {h entries} hnil hentries := by
    have hext : h.Extends (h.newMap entries).2 := .push h _
    refine (hnil.grow hext).of_avoids (avoids_iff.2 ⟨fun r hr => ?_, fun w hw => ?_⟩)
    · cases hr
      exact ⟨by simp [Heap.newMap], hnil.fresh⟩
    · rw [Heap.inside_newMap] at hw
      exact (hentries w hw).avoids.grow hext

/-- **Storing a value leaves the cells as they are**, if neither the container nor the value leads
to them. -/
theorem store (hp : p.container.Apart K h₀ h) (hvalue : value.Apart K h₀ h) (hv : v.Apart K h₀ h) :
    v.Apart K h₀ (h.store p value) where
  size := (h.size_store p value).symm ▸ hv.size
  kept r hr := by
    obtain ⟨hlt, hsame⟩ := hv.kept r hr
    refine ⟨h.size_store p value ▸ hlt, ?_⟩
    rw [Heap.cells_store_of_ne (fun hpr => (hp.avoids _ .refl r hpr).2 hr) value, hsame]
  avoids := hvalue.avoids.store hv.avoids

end Apart

end Value

end Covenant
