import Covenant.Proofs.Registry.Closure
import Mathlib.Data.List.Nodup

/-!
# Stable numbers

Contracts and functions have numbers that outlive them: a name that is declared again keeps its
number. A number is given twice, when a block is named and when it is entered into the registry;
names may come to stand for extensions and back; and a rollback restores names and numbers while the
numbers in the headers stay. All the same every name finds itself under its number
(`Arena.Numbered.found`), now and behind every rollback. The main statement is
`Session.Reachable.numbers_stable`.
-/

namespace Covenant

/-- The number in the header of a contract or function. -/
def Block.number? (b : Block) : Option Nat :=
  match b.info with
  | .func info => some info.id
  | .contract info => some info.id
  | .plain => none

namespace Block

theorem header?_eq (b : Block) (self : BlockId) :
    b.header? self = (b.number?.bind fun n => (b.binding? self).map fun v => (b.name, n, v)) := by
  obtain ⟨_, info, _, _, _, _⟩ := b
  cases info <;> rfl

theorem header?_iff {b : Block} {self : BlockId} {x : String} {n : Nat} {v : Binding} :
    b.header? self = some (x, n, v) ↔ b.name = x ∧ b.number? = some n ∧
    b.binding? self = some v := by
  rw [header?_eq]
  cases b.number? <;> cases b.binding? self <;> simp

theorem header?_setId {b : Block} {self : BlockId} {x : String} {n : Nat} {v : Binding}
    (h : b.header? self = some (x, n, v)) (m : Nat) :
    (b.setId m).header? self = some (x, m, v) := by
  obtain ⟨_, info, _, _, _, _⟩ := b
  cases info <;> cases h <;> rfl

end Block

/-- Whether every global contract and function finds itself under its name and number, and no block
has two numbers. -/
structure Arena.Numbered (a : Arena) (objects : Dict Binding) (children : Array BlockId) :
    Prop where
  found : ∀ x v b, objects.get? x = some v → v.block? = some b →
    ∃ n, (a.block b).header? b = some (x, n, v) ∧ children[n]? = some b
  distinct : children.toList.Nodup

namespace Arena.Numbered

variable {a a' : Arena} {objects : Dict Binding} {children : Array BlockId}

theorem lt_size (h : a.Numbered objects children) {x : String} {v : Binding} {b : BlockId}
    (hx : objects.get? x = some v) (hv : v.block? = some b) : b < a.size := by
  obtain ⟨n, hheader, -⟩ := h.found x v b hx hv
  by_contra hle
  rw [block_of_le (Nat.le_of_not_lt hle)] at hheader
  cases hheader

/-- Adding blocks leaves the numbers. -/
theorem grow (h : a.Numbered objects children) (hkept : a.Precedes a') :
    a'.Numbered objects children := by
  refine { h with found := fun x v b hx hv => ?_ }
  rw [hkept.block (h.lt_size hx hv)]
  exact h.found x v b hx hv

/-- A name that comes to stand for an extension loses its number. -/
theorem extend (h : a.Numbered objects children) (e : Extension) :
    a.Numbered (objects.insert e.name (.ext e)) children := by
  refine { h with found := fun x v b hx hv => ?_ }
  rw [Dict.get?_insert] at hx
  split at hx
  · rw [← Option.some.inj hx] at hv
    cases hv
  · exact h.found x v b hx hv

/-- Names with the same number are the same. -/
theorem name_eq (h : a.Numbered objects children) {x y : String} {v u : Binding} {b c : BlockId}
    (hx : objects.get? x = some v) (hv : v.block? = some b) (hy : objects.get? y = some u)
    (hu : u.block? = some c) (hnumber : (a.block b).number? = (a.block c).number?) : x = y := by
  obtain ⟨n, hb, hn⟩ := h.found x v b hx hv
  obtain ⟨m, hc, hm⟩ := h.found y u c hy hu
  obtain ⟨hname, hn', -⟩ := Block.header?_iff.1 hb
  obtain ⟨hname', hm', -⟩ := Block.header?_iff.1 hc
  rw [hn', hm', Option.some.injEq] at hnumber
  rw [hnumber, hm, Option.some.injEq] at hn
  rw [← hname, ← hname', hn]

/-- The block of a name is the only one with its number. -/
theorem index_eq (h : a.Numbered objects children) {x y : String} {v u : Binding}
    {b c : BlockId} {n : Nat} (hx : objects.get? x = some v) (hv : v.block? = some b)
    (hy : objects.get? y = some u) (hu : u.block? = some c) (hb : (a.block b).number? = some n)
    (hc : children[n]? = some c) : x = y := by
  obtain ⟨m, hheader, hm⟩ := h.found x v b hx hv
  obtain ⟨hname, hm', -⟩ := Block.header?_iff.1 hheader
  obtain ⟨k, hheader', -⟩ := h.found y u c hy hu
  cases hb.symm.trans hm'
  rw [hm, Option.some.injEq] at hc
  rw [hc] at hname
  exact hname.symm.trans (Block.header?_iff.1 hheader').1

end Arena.Numbered

namespace Registry

variable {r r' : Registry}

/-- The number that a name already has is that of its block. -/
theorem stableId?_eq (h : r.arena.Numbered r.objects r.children) (x : String) :
    r.stableId? x = (((r.objects.get? x).bind Binding.block?).bind fun b =>
      (r.block b).number?) := by
  unfold stableId?
  cases hbound : (r.objects.get? x).bind Binding.block? with
  | none => rfl
  | some b =>
    obtain ⟨v, hx, hv⟩ := Option.bind_eq_some_iff.1 hbound
    obtain ⟨n, hheader, hn⟩ := h.found x v b hx hv
    have hlt : n < r.children.size := (Array.getElem?_eq_some_iff.1 hn).1
    change (r.block b).header? b = _ at hheader
    obtain ⟨-, hnumber, -⟩ := Block.header?_iff.1 hheader
    dsimp only
    rw [hheader]
    simp only [hlt, if_true, Option.bind_some, hnumber]

/-- What entering a block does to a registry in which every name finds itself under its number. -/
theorem enter_cases (child : BlockId) :
    r.enter child = r ∨ ∃ x n v, (r.block child).header? child = some (x, n, v) ∧
    child < r.arena.size ∧
      ∃ m children, r.enter child = { r with
          children := children
          arena := r.arena.modify child (·.setId m)
          objects := r.objects.insert x v } ∧
        (r.stableId? x = some m ∧ children = r.children.setIfInBounds m child ∨
          r.stableId? x = none ∧ m = r.children.size ∧ children = r.children.push child) := by
  unfold enter
  cases hheader : (r.block child).header? child with
  | none => exact .inl rfl
  | some h =>
    obtain ⟨x, n, v⟩ := h
    refine .inr ⟨x, n, v, rfl, lt_size_of_header hheader, ?_⟩
    cases hid : r.stableId? x with
    | none => exact ⟨r.children.size, r.children.push child, by simp [hid], .inr ⟨rfl, rfl, rfl⟩⟩
    | some m => exact ⟨m, r.children.setIfInBounds m child, by simp [hid], .inl ⟨rfl, rfl⟩⟩

/-- **Entering a new block keeps the numbers**: the block gets the number of its name, or a new
one. -/
theorem enter_numbered (h : r.arena.Numbered r.objects r.children) {child : BlockId}
    (hnew : child ∉ r.children) :
    (r.enter child).arena.Numbered (r.enter child).objects (r.enter child).children ∧
      (∀ c ∈ (r.enter child).children, c ∈ r.children ∨ c = child) ∧
      ∀ x v b, r.objects.get? x = some v → v.block? = some b → ∃ v' b',
        (r.enter child).objects.get? x = some v' ∧ v'.block? = some b' ∧
          ((r.enter child).block b').number? = (r.block b).number? := by
  rcases enter_cases (r := r) child with heq | ⟨x, n, v, hheader, hlt, m, children, heq, hcases⟩
  · rw [heq]
    exact ⟨h, fun c hc => .inl hc, fun x v b hx hv => ⟨v, b, hx, hv, rfl⟩⟩
  rw [heq]
  obtain ⟨hname, -, hbinding⟩ := Block.header?_iff.1 hheader
  have hv := Block.block?_of_binding? hbinding
  -- the block is not yet known by any name, for all that are have numbers
  have hfresh : ∀ y u c, r.objects.get? y = some u → u.block? = some c → c ≠ child := by
    rintro y u c hy hu rfl
    obtain ⟨k, -, hk⟩ := h.found y u c hy hu
    exact hnew (Array.mem_of_getElem? hk)
  have hself : Arena.block (r.arena.modify child (·.setId m)) child = (r.block child).setId m :=
    Arena.block_modify_self hlt _
  have hother : ∀ c ≠ child, Arena.block (r.arena.modify child (·.setId m)) c = r.block c :=
    fun c hc => Arena.block_modify_of_ne _ (Ne.symm hc) _
  have hnumber : ((r.block child).setId m).header? child = some (x, m, v) :=
    Block.header?_setId hheader m
  -- the new number refers to the block, and the numbers of other names are left alone
  have hchildren : children[m]? = some child ∧
      (∀ y u c k, r.objects.get? y = some u → u.block? = some c → y ≠ x →
        (r.block c).number? = some k → r.children[k]? = some c → children[k]? = some c) ∧
      (∀ c ∈ children, c ∈ r.children ∨ c = child) ∧ children.toList.Nodup := by
    rcases hcases with ⟨hid, rfl⟩ | ⟨hid, rfl, rfl⟩
    · rw [stableId?_eq h] at hid
      obtain ⟨old, hold, hm⟩ := Option.bind_eq_some_iff.1 hid
      obtain ⟨u₀, hx₀, hu₀⟩ := Option.bind_eq_some_iff.1 hold
      obtain ⟨k₀, hheader₀, hk₀⟩ := h.found x u₀ old hx₀ hu₀
      cases hm.symm.trans (Block.header?_iff.1 hheader₀).2.1
      have hltm : m < r.children.size := (Array.getElem?_eq_some_iff.1 hk₀).1
      refine ⟨by simp [hltm], fun y u c k hy hu hne hk hkc => ?_, fun c hc => ?_, ?_⟩
      · have hkm : m ≠ k := by
          rintro rfl
          exact hne (h.index_eq hx₀ hu₀ hy hu hm hkc).symm
        rw [Array.getElem?_setIfInBounds_ne hkm]
        exact hkc
      · exact Array.mem_or_eq_of_mem_setIfInBounds hc
      · rw [Array.toList_setIfInBounds]
        exact List.Nodup.set h.distinct (fun hin => hnew (Array.mem_toList_iff.1 hin))
    · refine ⟨by simp, fun y u c k hy hu hne hk hkc => ?_, fun c hc => ?_, ?_⟩
      · rw [Array.getElem?_push_lt (Array.getElem?_eq_some_iff.1 hkc).1]
        exact congrArg some (Array.getElem?_eq_some_iff.1 hkc).2
      · exact Array.mem_push.1 hc
      · rw [Array.toList_push]
        refine List.nodup_append.2 ⟨h.distinct, List.pairwise_singleton _ _,
          fun c hc d hd heq => ?_⟩
        rw [heq, List.mem_singleton.1 hd] at hc
        exact hnew (Array.mem_toList_iff.1 hc)
  obtain ⟨hm, hkeep, hsub, hdistinct⟩ := hchildren
  refine ⟨⟨fun y u c hy hu => ?_, hdistinct⟩, hsub, fun y u c hy hu => ?_⟩
  · rw [Dict.get?_insert] at hy
    split at hy
    · rename_i hyx
      cases hy
      cases hv.symm.trans hu
      exact ⟨m, by rw [hself, ← hyx]; exact hnumber, hm⟩
    · rename_i hne
      obtain ⟨k, hheader', hk⟩ := h.found y u c hy hu
      rw [hother c (hfresh y u c hy hu)]
      exact ⟨k, hheader', hkeep y u c k hy hu (Ne.symm hne) (Block.header?_iff.1 hheader').2.1 hk⟩
  · by_cases hyx : y = x
    · subst hyx
      refine ⟨v, child, by rw [Dict.get?_insert, if_pos rfl], hv, ?_⟩
      show (Arena.block (r.arena.modify child (·.setId m)) child).number? = _
      rw [hself, (Block.header?_iff.1 hnumber).2.1]
      obtain ⟨k, hheader', -⟩ := h.found y u c hy hu
      rcases hcases with ⟨hid, -⟩ | ⟨hid, -, -⟩ <;> rw [stableId?_eq h, hy, Option.bind_some, hu,
        Option.bind_some] at hid
      · exact hid.symm
      · cases (Block.header?_iff.1 hheader').2.1.symm.trans hid
    · refine ⟨u, c, by rw [Dict.get?_insert, if_neg (Ne.symm hyx)]; exact hy, hu, ?_⟩
      exact congrArg Block.number? (hother c (hfresh y u c hy hu))

/-- Entering the blocks of a unit keeps the numbers, if they are new and all different. -/
theorem foldl_enter_numbered (h : r.arena.Numbered r.objects r.children) {ids : List BlockId}
    (hnew : ∀ id ∈ ids, id ∉ r.children) (hdistinct : ids.Nodup) :
    (ids.foldl enter r).arena.Numbered (ids.foldl enter r).objects (ids.foldl enter r).children ∧
      ∀ x v b, r.objects.get? x = some v → v.block? = some b → ∃ v' b',
        (ids.foldl enter r).objects.get? x = some v' ∧ v'.block? = some b' ∧
          ((ids.foldl enter r).block b').number? = (r.block b).number? := by
  induction ids generalizing r with
  | nil => exact ⟨h, fun x v b hx hv => ⟨v, b, hx, hv, rfl⟩⟩
  | cons id ids ih =>
    obtain ⟨hid, hids⟩ := List.forall_mem_cons.1 hnew
    obtain ⟨hnotin, hdistinct⟩ := List.nodup_cons.1 hdistinct
    obtain ⟨hentered, hsub, hstable⟩ := enter_numbered h hid
    obtain ⟨hnumbered, hstable'⟩ := ih hentered (fun c hc hin => (hsub c hin).elim (hids c hc)
      fun heq => hnotin (heq ▸ hc)) hdistinct
    refine ⟨hnumbered, fun x v b hx hv => ?_⟩
    obtain ⟨v₁, b₁, hx₁, hv₁, hnumber₁⟩ := hstable x v b hx hv
    obtain ⟨v₂, b₂, hx₂, hv₂, hnumber₂⟩ := hstable' x v₁ b₁ hx₁ hv₁
    exact ⟨v₂, b₂, hx₂, hv₂, hnumber₂.trans hnumber₁⟩

/-- A unit keeps the numbers of the names that were there. -/
theorem compile_numbered (hheld : r.Held) (h : r.arena.Numbered r.objects r.children)
    {state : UInt32} {text : String} (hcompile : r.compile state text = .ok r') :
    r'.arena.Numbered r'.objects r'.children ∧
      ∀ x v b, r.objects.get? x = some v → v.block? = some b → ∃ v' b',
        r'.objects.get? x = some v' ∧ v'.block? = some b' ∧
          (r'.block b').number? = (r.block b).number? := by
  obtain ⟨root, arena, hunit, rfl⟩ := compile_eq_ok.1 hcompile
  obtain ⟨-, hdistinct⟩ := Arena.compile_titled hunit
  obtain ⟨rfl, w, rfl, hbeside⟩ := Arena.compile_beside hunit
  have hnew : ∀ id ∈ (w.arena.block r.arena.size).children.toList, id ∉ r.children :=
    fun id hid hin => Nat.lt_irrefl _ (Nat.lt_of_lt_of_le (hheld.children id hin)
      (hbeside.children _ (Nat.le_refl _) id (Array.mem_toList_iff.1 hid)).1)
  obtain ⟨hnumbered, hstable⟩ := foldl_enter_numbered (r := { r with arena := w.arena })
    (h.grow hbeside.kept) hnew hdistinct
  rw [Array.foldl_toList] at hnumbered hstable
  refine ⟨hnumbered, fun x v b hx hv => ?_⟩
  obtain ⟨v', b', hx', hv', hnumber⟩ := hstable x v b hx hv
  refine ⟨v', b', hx', hv', hnumber.trans ?_⟩
  exact congrArg Block.number? (hbeside.kept.block (h.lt_size hx hv))

/-- Whether every name finds itself under its number, now and behind every rollback. -/
structure Numbered (r : Registry) : Prop where
  now : r.arena.Numbered r.objects r.children
  points : ∀ p ∈ r.savepoints, Arena.Numbered (r.arena.take p.blocks) p.objects p.children

theorem numbered_iff : r.Numbered ↔ r.Throughout fun a p => a.Numbered p.objects p.children :=
  ⟨fun h => ⟨h.now, h.points⟩, fun h => ⟨h.now, h.points⟩⟩

/-- There is no numbered block at first. -/
theorem new_numbered (limits : Limits) (extensions : List Extension) :
    (Registry.new limits extensions).Numbered := by
  have hall : ∀ r : Registry, r.Numbered → (extensions.foldl extend r).Numbered := by
    induction extensions with
    | nil => exact fun _ h => h
    | cons e es ih => exact fun r h => ih _ ⟨h.now.extend e, h.points⟩
  refine hall _ ⟨⟨fun x v b hx => ?_, List.nodup_nil⟩, by simp⟩
  rw [Dict.get?_empty] at hx
  cases hx

/-- A condition takes new numbers. -/
theorem compileEval_numbered (hsound : r.Sound) (h : r.Numbered) {state : UInt32} {text : String}
    {id : BlockId} (hcompile : r.compileEval state text = .ok (id, r')) : r'.Numbered := by
  have hgrew := compileEval_grew hcompile
  refine ⟨?_, (numbered_iff.1 h).points_grew hsound hgrew⟩
  have hsame : r'.objects = r.objects ∧ r'.children = r.children := by
    rcases compileEval_cases hcompile with rfl | ⟨arena, -, -, rfl⟩ <;> exact ⟨rfl, rfl⟩
  rw [hsame.1, hsame.2]
  exact h.now.grow hgrew.arena

end Registry

namespace Session

variable {s : Session}

/-- Every operation keeps the numbers that names have. -/
theorem perform_numbered (hsound : s.registry.Sound) (hheld : s.registry.Held)
    (h : s.registry.Numbered) (op : Operation) : (s.perform op).registry.Numbered := by
  have heval : ∀ state text, (s.compileEval state text).2.registry.Numbered := by
    intro state text
    rcases s.compileEval_registry state text with hsame | ⟨id, hcompile⟩
    · exact (congrArg Registry.Numbered hsame).mpr h
    · exact Registry.compileEval_numbered hsound h hcompile
  cases op with
  | extend e => exact ⟨h.now.extend e, h.points⟩
  | compile state text =>
    rcases s.compile_registry state text with hsame | hcompile
    · exact (congrArg Registry.Numbered hsame).mpr h
    · exact ⟨(Registry.compile_numbered hheld h.now hcompile).1,
        (Registry.numbered_iff.1 h).points_grew hsound (Registry.compile_grew hcompile)⟩
  | compileEval state text => exact heval state text
  | evalIf state text =>
    rcases evalIf_registry s state text with hsame | hsame
    · exact (congrArg Registry.Numbered hsame).mpr h
    · exact (congrArg Registry.Numbered hsame).mpr (heval state text)
  | savepoint => exact Registry.numbered_iff.2 (Registry.numbered_iff.1 h).savepoint
  | rollback => exact Registry.numbered_iff.2 ((Registry.numbered_iff.1 h).rollback hsound)
  | release => exact Registry.numbered_iff.2 (Registry.numbered_iff.1 h).release
  | run | runContract | provide => exact h
  | configure => exact ⟨h.now, h.points⟩

theorem Reachable.numbered (h : s.Reachable) : s.registry.Numbered := by
  induction h with
  | new limits extensions => exact Registry.new_numbered limits extensions
  | perform op hs ih => exact perform_numbered hs.sound hs.held ih op

/-- **Numbers are stable.** In every registry of a host the block of a global contract or function
is found under its number, no block has two numbers, and different names have different numbers; and
compiling a unit leaves every name that stood for a contract or function its number, whether the
unit declares the name again or not. -/
theorem Reachable.numbers_stable (h : s.Reachable) :
    (∀ x v b, s.registry.objects.get? x = some v → v.block? = some b →
        ∃ n, (s.registry.block b).number? = some n ∧ s.registry.children[n]? = some b) ∧
      s.registry.children.toList.Nodup ∧
      (∀ x y v u b c, s.registry.objects.get? x = some v → v.block? = some b →
        s.registry.objects.get? y = some u → u.block? = some c → x ≠ y →
          (s.registry.block b).number? ≠ (s.registry.block c).number?) ∧
      ∀ state text x v b,
        s.registry.objects.get? x = some v → v.block? = some b → ∃ u c,
          (s.compile state text).2.registry.objects.get? x = some u ∧ u.block? = some c ∧
            ((s.compile state text).2.registry.block c).number? = (s.registry.block b).number? := by
  have hnow := h.numbered.now
  refine ⟨fun x v b hx hv => ?_, hnow.distinct, fun x y v u b c hx hv hy hu hne hnumber =>
    hne (hnow.name_eq hx hv hy hu hnumber), fun state text x v b hx hv => ?_⟩
  · obtain ⟨n, hheader, hn⟩ := hnow.found x v b hx hv
    exact ⟨n, (Block.header?_iff.1 hheader).2.1, hn⟩
  · rcases s.compile_registry state text with hsame | hcompile
    · rw [hsame]
      exact ⟨v, b, hx, hv, rfl⟩
    · exact (Registry.compile_numbered h.held hnow hcompile).2 x v b hx hv

/-- A session with two functions, behind a rollback that has dropped a third. -/
def twoFunctions : Session := Session.new.performAll
  [.compile 1 "func g \x7b\x7d\nfunc f int \x7b return 1 \x7d", .savepoint,
    .compile 1 "func h \x7b\x7d", .rollback]

/-- A unit with a new function and the second one of the two. -/
def redeclaration : String := "func k \x7b\x7d\nfunc f int \x7b return 2 \x7d"

/-- A function that is declared again keeps its number, though it comes second in its unit. -/
theorem redeclared_function_keeps_number : twoFunctions.Reachable ∧
    twoFunctions.registry.objects.get? "f" = some (.func 2) ∧
      (twoFunctions.registry.block 2).number? = some 1 ∧ ∃ u c,
        (twoFunctions.compile 1 redeclaration).2.registry.objects.get? "f" = some u ∧
          u.block? = some c ∧
          ((twoFunctions.compile 1 redeclaration).2.registry.block c).number? = some 1 := by
  have hreachable : twoFunctions.Reachable := Reachable.start.performAll _
  have hf : twoFunctions.registry.objects.get? "f" = some (.func 2) :=
    Binding.eq_func_of_isFunc (by decide +kernel)
  have hnumber : (twoFunctions.registry.block 2).number? = some 1 := by decide +kernel
  obtain ⟨-, -, -, hstable⟩ := hreachable.numbers_stable
  obtain ⟨u, c, hu, hc, hsame⟩ := hstable 1 redeclaration "f" (.func 2) 2 hf rfl
  exact ⟨hreachable, hf, hnumber, u, c, hu, hc, hsame.trans hnumber⟩

end Session

end Covenant
