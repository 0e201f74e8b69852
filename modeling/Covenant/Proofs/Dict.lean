import Covenant.Dict
import Mathlib.Tactic.Common

/-!
# Dictionaries as finite maps

What a name is bound to after each operation on a dictionary, and how the view `toList` relates to
`get?`: a pair is an entry exactly if its name is bound to its value, and no name occurs twice.
-/

namespace Covenant.Dict

variable {α : Type}

@[simp] theorem get?_empty (key : String) : (empty : Dict α).get? key = none := by
  simp [get?, empty]

/-- A name is bound to the value of its entry. -/
theorem get?_eq_some_iff_getElem? {d : Dict α} {key : String} {v : α} :
    d.get? key = some v ↔ ∃ i : Nat, d.entries[i]? = some (key, v) := by
  constructor
  · intro h
    unfold get? at h
    split at h
    · exact absurd h (by simp)
    · rename_i i hi
      obtain ⟨⟨k, u⟩, hp, rfl⟩ := Option.map_eq_some_iff.1 h
      have hk := (d.index_eq key i).1 hi
      rw [hp, Option.map_some, Option.some.injEq] at hk
      obtain rfl : k = key := hk
      exact ⟨i, hp⟩
  · rintro ⟨i, hi⟩
    have hindex : d.index[key]? = some i := (d.index_eq key i).2 (by rw [hi]; rfl)
    simp [get?, hindex, hi]

theorem get?_eq_some_iff {d : Dict α} {key : String} {v : α} :
    d.get? key = some v ↔ (key, v) ∈ d.toList := by
  rw [get?_eq_some_iff_getElem?, toList, List.mem_iff_getElem?]
  simp only [Array.getElem?_toList]

theorem mem_values_of_get? {d : Dict α} {key : String} {v : α} (h : d.get? key = some v) :
    v ∈ d.values :=
  List.mem_map_of_mem (f := Prod.snd) (get?_eq_some_iff.1 h)

/-- A key is contained if and only if something is found for it. -/
theorem contains_iff {d : Dict α} {key : String} :
    d.contains key = true ↔ (d.get? key).isSome = true := by
  rw [contains, Std.ExtTreeMap.contains_eq_isSome_getElem?, Option.isSome_iff_exists,
    Option.isSome_iff_exists]
  constructor
  · rintro ⟨i, hi⟩
    obtain ⟨⟨k, v⟩, hp, rfl⟩ := Option.map_eq_some_iff.1 ((d.index_eq key i).1 hi)
    exact ⟨v, get?_eq_some_iff_getElem?.2 ⟨i, hp⟩⟩
  · rintro ⟨v, hv⟩
    obtain ⟨i, hi⟩ := get?_eq_some_iff_getElem?.1 hv
    exact ⟨i, (d.index_eq key i).2 (by rw [hi]; rfl)⟩

theorem contains_eq (d : Dict α) (key : String) : d.contains key = (d.get? key).isSome :=
  Bool.eq_iff_iff.2 contains_iff

/-! ### Binding many names -/

theorem get?_insertAll_congr {d d' : Dict α} {key : String} (h : d.get? key = d'.get? key)
    (pairs : List (String × α)) : (d.insertAll pairs).get? key = (d'.insertAll pairs).get? key := by
  induction pairs generalizing d d' with
  | nil => exact h
  | cons p ps ih =>
    refine ih ?_
    rw [get?_insert, get?_insert, h]

theorem get?_insertAll_of_not_mem (d : Dict α) {key : String} {pairs : List (String × α)}
    (h : ∀ p ∈ pairs, p.1 ≠ key) : (d.insertAll pairs).get? key = d.get? key := by
  induction pairs generalizing d with
  | nil => rfl
  | cons p ps ih =>
    refine (ih (d.insert p.1 p.2) fun q hq => h q (List.mem_cons_of_mem _ hq)).trans ?_
    rw [get?_insert, if_neg (h p (List.mem_cons_self ..))]

/-- A name that occurs with one value only is bound to it. -/
theorem get?_insertAll_of_mem (d : Dict α) {key : String} {v : α} {pairs : List (String × α)}
    (h : (key, v) ∈ pairs) (hunique : ∀ u, (key, u) ∈ pairs → u = v) :
    (d.insertAll pairs).get? key = some v := by
  induction pairs generalizing d with
  | nil => exact absurd h List.not_mem_nil
  | cons p ps ih =>
    have hrest : ∀ u, (key, u) ∈ ps → u = v := fun u hu => hunique u (List.mem_cons_of_mem _ hu)
    by_cases hlater : (key, v) ∈ ps
    · exact ih (d.insert p.1 p.2) hlater hrest
    · rcases List.mem_cons.1 h with rfl | hmem
      · have hnone : ∀ q ∈ ps, q.1 ≠ key := by
          rintro ⟨k, u⟩ hq rfl
          exact hlater (hrest u hq ▸ hq)
        refine (get?_insertAll_of_not_mem (d.insert key v) hnone).trans ?_
        rw [get?_insert, if_pos rfl]
      · exact absurd hmem hlater

/-- Binding the entries of a dictionary whose names pass a test. -/
theorem get?_insertAll_filter (d e : Dict α) (keep : String → Bool) (key : String) :
    (d.insertAll (e.toList.filter fun p => keep p.1)).get? key =
      if keep key then (e.get? key).or (d.get? key) else d.get? key := by
  have hmem : ∀ u, (key, u) ∈ (e.toList.filter fun p => keep p.1) ↔
      e.get? key = some u ∧ keep key = true := by
    intro u
    rw [List.mem_filter, get?_eq_some_iff]
  by_cases hkeep : keep key = true
  · rw [if_pos hkeep]
    cases he : e.get? key with
    | none =>
      refine get?_insertAll_of_not_mem _ ?_
      rintro ⟨k, u⟩ hp rfl
      have := ((hmem u).1 hp).1
      rw [he] at this
      cases this
    | some v =>
      refine get?_insertAll_of_mem _ ((hmem v).2 ⟨he, hkeep⟩) fun u hu => ?_
      have := ((hmem u).1 hu).1
      rw [he] at this
      exact (Option.some.inj this).symm
  · rw [if_neg hkeep]
    refine get?_insertAll_of_not_mem _ ?_
    rintro ⟨k, u⟩ hp rfl
    exact hkeep ((hmem u).1 hp).2

theorem get?_insertAll_toList (d e : Dict α) (key : String) :
    (d.insertAll e.toList).get? key = (e.get? key).or (d.get? key) := by
  have h := get?_insertAll_filter d e (fun _ => true) key
  rwa [List.filter_eq_self.2 (fun _ _ => rfl), if_pos rfl] at h

theorem get?_filterKeys (d : Dict α) (keep : String → Bool) (key : String) :
    (d.filterKeys keep).get? key = if keep key then d.get? key else none := by
  rw [filterKeys, ofList, get?_insertAll_filter]
  simp

/-- What is found without a key. -/
theorem get?_erase (d : Dict α) (key name : String) :
    (d.erase key).get? name = if key = name then none else d.get? name := by
  unfold erase
  split
  · rw [get?_filterKeys]
    by_cases h : key = name
    · simp [h]
    · simp [h, Ne.symm h]
  · rename_i hnone
    by_cases h : key = name
    · rw [if_pos h, ← h]
      rw [contains_eq] at hnone
      simpa using hnone
    · rw [if_neg h]

theorem get?_assign (d : Dict α) (key name : String) (value : Option α) :
    (d.assign key value).get? name = if key = name then value else d.get? name := by
  unfold assign
  split
  · exact get?_insert ..
  · exact get?_erase ..

/-! ### What all values have in common -/

/-- Whether all bound values have a property. -/
def All (p : α → Prop) (d : Dict α) : Prop := ∀ key v, d.get? key = some v → p v

section

variable {p q : α → Prop} {d : Dict α}

theorem all_iff_forall_mem : d.All p ↔ ∀ x ∈ d.toList, p x.2 :=
  ⟨fun h x hx => h x.1 x.2 (get?_eq_some_iff.2 hx), fun h key v hv =>
    h (key, v) (get?_eq_some_iff.1 hv)⟩

theorem all_iff_forall_values : d.All p ↔ ∀ v ∈ d.values, p v := by
  rw [all_iff_forall_mem, values, List.forall_mem_map]

theorem All.empty : (Dict.empty : Dict α).All p := by
  intro key v hv
  rw [get?_empty] at hv
  cases hv

theorem All.imp (h : d.All p) (hpq : ∀ v, p v → q v) : d.All q := fun key v hv => hpq v (h key v hv)

theorem All.insert (h : d.All p) {v : α} (hv : p v) (key : String) : (d.insert key v).All p := by
  intro name u hu
  rw [get?_insert] at hu
  split at hu
  · cases hu
    exact hv
  · exact h name u hu

theorem All.insertAll (h : d.All p) {pairs : List (String × α)} (hpairs : ∀ x ∈ pairs, p x.2) :
    (d.insertAll pairs).All p := by
  induction pairs generalizing d with
  | nil => exact h
  | cons x xs ih =>
    obtain ⟨hx, hxs⟩ := List.forall_mem_cons.1 hpairs
    exact ih (h.insert hx x.1) hxs

theorem All.ofList {pairs : List (String × α)} (hpairs : ∀ x ∈ pairs, p x.2) :
    (ofList pairs).All p :=
  .insertAll .empty hpairs

theorem All.filterKeys (h : d.All p) (keep : String → Bool) : (d.filterKeys keep).All p := by
  intro key v hv
  rw [get?_filterKeys] at hv
  split at hv
  · exact h key v hv
  · cases hv

theorem All.erase (h : d.All p) (key : String) : (d.erase key).All p := by
  intro name v hv
  rw [get?_erase] at hv
  split at hv
  · cases hv
  · exact h name v hv

theorem All.assign (h : d.All p) {value : Option α} (hvalue : ∀ v, value = some v → p v)
    (key : String) : (d.assign key value).All p := by
  intro name v hv
  rw [get?_assign] at hv
  split at hv
  · exact hvalue v hv
  · exact h name v hv

end

/-! ### The order of the entries -/

/-- Dictionaries with the same entries in the same order are equal. -/
theorem ext_toList {d d' : Dict α} (h : d.toList = d'.toList) : d = d' :=
  ext_entries (Array.toList_inj.1 h)

/-- The place of an entry is the one that the index has for its name. -/
theorem index_of_getElem? {d : Dict α} {i : Nat} {p : String × α} (h : d.toList[i]? = some p) :
    d.index[p.1]? = some i :=
  (d.index_eq p.1 i).2
    (by rw [← Array.getElem?_toList, show d.entries.toList[i]? = some p from h]; rfl)

theorem contains_iff_index {d : Dict α} {key : String} :
    d.contains key = true ↔ ∃ i : Nat, d.index[key]? = some i := by
  rw [contains, Std.ExtTreeMap.contains_eq_isSome_getElem?, Option.isSome_iff_exists]

/-- A known name keeps its place when it is bound again, a new one goes to the end. -/
theorem toList_insert (d : Dict α) (key : String) (v : α) :
    (d.insert key v).toList = if d.contains key then
      d.toList.map fun p => if p.1 = key then (key, v) else p
    else d.toList ++ [(key, v)] := by
  unfold insert
  split
  · -- the key is there: its entry is replaced, and it is the only one with the key
    rename_i i hi
    rw [if_pos (contains_iff_index.2 ⟨i, hi⟩)]
    have hlt : i < d.toList.length := lt_of_index hi
    change (d.entries.set i (key, v) (lt_of_index hi)).toList = _
    rw [Array.toList_set]
    change d.toList.set i (key, v) = _
    refine List.ext_getElem? fun j => ?_
    rw [List.getElem?_map]
    by_cases hij : i = j
    · subst hij
      have hkey := (d.index_eq key i).1 hi
      obtain ⟨p, hp, hfst⟩ := Option.map_eq_some_iff.1 hkey
      have hp' : d.toList[i]? = some p := by rw [toList, Array.getElem?_toList, hp]
      rw [List.getElem?_set_self hlt, hp', Option.map_some, if_pos hfst]
    · rw [List.getElem?_set_ne hij]
      cases hp : d.toList[j]? with
      | none => rfl
      | some p =>
        have hne : p.1 ≠ key := by
          rintro rfl
          have hj := index_of_getElem? hp
          rw [hi] at hj
          exact hij (Option.some.inj hj)
        rw [Option.map_some, if_neg hne]
  · rename_i hnone
    rw [if_neg fun hc => ?_]
    · exact Array.toList_push ..
    · obtain ⟨i, hi⟩ := contains_iff_index.1 hc
      rw [hnone] at hi
      cases hi

/-- A known name keeps its entry's place, and a new one gets an entry at the end. -/
theorem toList_insert_cases (d : Dict α) (key : String) (v : α) :
    (∃ (i : Nat) (old : α), d.get? key = some old ∧ d.toList[i]? = some (key, old) ∧
      (d.insert key v).toList = d.toList.set i (key, v)) ∨
    d.get? key = none ∧ (d.insert key v).toList = d.toList ++ [(key, v)] := by
  unfold insert
  split
  · rename_i i hi
    obtain ⟨⟨k, old⟩, hp, rfl⟩ := Option.map_eq_some_iff.1 ((d.index_eq key i).1 hi)
    refine .inl ⟨i, old, get?_eq_some_iff_getElem?.2 ⟨i, hp⟩, ?_, ?_⟩
    · rw [toList, Array.getElem?_toList, hp]
    · show (d.entries.set i (k, v) (lt_of_index hi)).toList = _
      rw [Array.toList_set, toList]
  · rename_i hnone
    refine .inr ⟨?_, Array.toList_push ..⟩
    rw [get?, hnone]

/-- No name has two entries. -/
theorem pairwise_toList (d : Dict α) : d.toList.Pairwise fun p q => p.1 ≠ q.1 := by
  rw [List.pairwise_iff_getElem]
  intro i j hi hj hij heq
  have hi' := index_of_getElem? (List.getElem?_eq_getElem hi)
  have hj' := index_of_getElem? (List.getElem?_eq_getElem hj)
  rw [heq, hj'] at hi'
  exact absurd (Option.some.inj hi') (by omega)

/-- What binds one name only has one entry. -/
theorem toList_eq_singleton {d : Dict α} {key : String} {v : α}
    (h : ∀ name w, d.get? name = some w ↔ name = key ∧ w = v) : d.toList = [(key, v)] := by
  have hmem : ∀ p ∈ d.toList, p = (key, v) := fun p hp => by
    obtain ⟨hname, hvalue⟩ := (h p.1 p.2).1 (get?_eq_some_iff.2 hp)
    exact Prod.ext hname hvalue
  have hself : (key, v) ∈ d.toList := get?_eq_some_iff.1 ((h key v).2 ⟨rfl, rfl⟩)
  have hdistinct := d.pairwise_toList
  cases hlist : d.toList with
  | nil => exact absurd (hlist ▸ hself) List.not_mem_nil
  | cons p ps =>
    rw [hlist] at hmem hdistinct
    obtain ⟨hp, hps⟩ := List.forall_mem_cons.1 hmem
    cases ps with
    | nil => rw [hp]
    | cons q qs =>
      rw [hp, hps q (List.mem_cons_self ..)] at hdistinct
      exact absurd rfl (List.rel_of_pairwise_cons hdistinct (List.mem_cons_self ..))

/-- New names go to the end in their order. -/
theorem toList_insertAll {d : Dict α} {pairs : List (String × α)}
    (hpairs : pairs.Pairwise fun p q => p.1 ≠ q.1) (hd : ∀ p ∈ pairs, d.contains p.1 = false) :
    (d.insertAll pairs).toList = d.toList ++ pairs := by
  induction pairs generalizing d with
  | nil => exact (List.append_nil _).symm
  | cons p ps ih =>
    obtain ⟨hp, hps⟩ := List.pairwise_cons.1 hpairs
    obtain ⟨hpd, hpsd⟩ := List.forall_mem_cons.1 hd
    have hnew : (d.insert p.1 p.2).toList = d.toList ++ [p] := by
      rw [toList_insert, hpd, if_neg Bool.false_ne_true]
    have hfresh : ∀ q ∈ ps, (d.insert p.1 p.2).contains q.1 = false := by
      intro q hq
      rw [contains_eq, get?_insert, if_neg (hp q hq), ← contains_eq]
      exact hpsd q hq
    change ((d.insert p.1 p.2).insertAll ps).toList = _
    rw [ih hps hfresh, hnew, List.append_assoc, List.singleton_append]

theorem toList_filterKeys (d : Dict α) (keep : String → Bool) :
    (d.filterKeys keep).toList = d.toList.filter fun p => keep p.1 := by
  rw [filterKeys, ofList, toList_insertAll (d.pairwise_toList.filter _)]
  · rfl
  · intro p _
    rw [contains_eq, get?_empty]
    rfl

/-- To erase a key leaves the other entries in their order. -/
theorem toList_erase (d : Dict α) (key : String) :
    (d.erase key).toList = d.toList.filter fun p => p.1 != key := by
  unfold erase
  split
  · exact toList_filterKeys ..
  · rename_i hnone
    refine (List.filter_eq_self.2 fun p hp => ?_).symm
    have hne : p.1 ≠ key := by
      rintro rfl
      refine hnone (contains_iff.2 ?_)
      rw [get?_eq_some_iff.2 hp]
      rfl
    simpa using hne

/-! ### Dictionaries that differ in one name -/

/-- To bind a key and erase it is to erase it. -/
theorem erase_insert_self (d : Dict α) (key : String) (v : α) :
    (d.insert key v).erase key = d.erase key := by
  refine ext_toList ?_
  rw [toList_erase, toList_erase, toList_insert]
  split
  · rw [List.filter_map]
    have hkeep : ((fun p : String × α => p.1 != key) ∘ fun p => if p.1 = key then (key, v) else p)
        = fun p => p.1 != key := by
      funext p
      by_cases hp : p.1 = key <;> simp [hp]
    rw [hkeep, List.map_congr_left (g := id), List.map_id]
    intro p hp
    have hne : p.1 ≠ key := by simpa using (List.mem_filter.1 hp).2
    rw [if_neg hne, id]
  · simp

/-- To erase a key does not concern what is bound to others. -/
theorem erase_insert_of_ne (d : Dict α) {key name : String} (h : key ≠ name) (v : α) :
    (d.insert key v).erase name = (d.erase name).insert key v := by
  refine ext_toList ?_
  have hcontains : (d.erase name).contains key = d.contains key := by
    rw [contains_eq, contains_eq, get?_erase, if_neg h.symm]
  rw [toList_erase, toList_insert, toList_insert, hcontains, toList_erase]
  split
  · rw [List.filter_map]
    congr 2
    funext p
    by_cases hp : p.1 = key
    · simp [hp]
    · simp [hp]
  · simp [h]

theorem erase_filterKeys (d : Dict α) (keep : String → Bool) (name : String) :
    (d.filterKeys keep).erase name = (d.erase name).filterKeys keep := by
  refine ext_toList ?_
  rw [toList_erase, toList_filterKeys, toList_filterKeys, toList_erase, List.filter_filter,
    List.filter_filter]
  exact List.filter_congr fun p _ => Bool.and_comm ..

section

variable {d d' : Dict α} {name : String} (h : d.erase name = d'.erase name)
include h

theorem get?_eq_of_erase_eq {key : String} (hkey : key ≠ name) : d.get? key = d'.get? key := by
  have hget := congrArg (·.get? key) h
  simpa only [get?_erase, if_neg hkey.symm] using hget

theorem insert_erase_congr (key : String) (v : α) :
    (d.insert key v).erase name = (d'.insert key v).erase name := by
  by_cases hkey : key = name
  · subst hkey
    rw [erase_insert_self, erase_insert_self, h]
  · rw [erase_insert_of_ne _ hkey, erase_insert_of_ne _ hkey, h]

theorem filterKeys_erase_congr (keep : String → Bool) :
    (d.filterKeys keep).erase name = (d'.filterKeys keep).erase name := by
  rw [erase_filterKeys, erase_filterKeys, h]

/-- Dictionaries that are the same without one key are the same without two. -/
theorem erase_erase_congr (key : String) :
    (d.erase key).erase name = (d'.erase key).erase name := by
  have hcomm : ∀ e : Dict α, (e.erase key).erase name = (e.erase name).erase key := by
    intro e
    refine ext_toList ?_
    rw [toList_erase, toList_erase, toList_erase, toList_erase, List.filter_filter,
      List.filter_filter]
    exact List.filter_congr fun p _ => Bool.and_comm ..
  rw [hcomm, hcomm, h]

theorem assign_erase_congr (key : String) (v : Option α) :
    (d.assign key v).erase name = (d'.assign key v).erase name := by
  cases v with
  | none => exact erase_erase_congr h key
  | some v => exact insert_erase_congr h key v

theorem insertAll_erase_congr (pairs : List (String × α)) :
    (d.insertAll pairs).erase name = (d'.insertAll pairs).erase name := by
  induction pairs generalizing d d' with
  | nil => exact h
  | cons p ps ih => exact ih (insert_erase_congr h p.1 p.2)

/-- The entries that pass a test are the same if the name does not pass it. -/
theorem filter_toList_congr (keep : String → Bool) (hname : keep name = false) :
    (d.toList.filter fun p => keep p.1) = d'.toList.filter fun p => keep p.1 := by
  have hfilter : ∀ e : Dict α, (e.toList.filter fun p => keep p.1)
      = (e.erase name).toList.filter fun p => keep p.1 := by
    intro e
    rw [toList_erase, List.filter_filter]
    refine List.filter_congr fun p _ => ?_
    by_cases hp : p.1 = name
    · rw [hp, hname]
      rfl
    · simp [hp]
  rw [hfilter d, hfilter d', h]

end

end Covenant.Dict
