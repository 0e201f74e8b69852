import Covenant.Proofs.Compile.Declared
import Covenant.Proofs.Lexeme.Wrapping
import Covenant.Proofs.Registry.Conditions
import Covenant.Proofs.Registry.Writes

/-!
# Conditions stay in their function

A condition is compiled as the body of a function `eval`, and its text may hold braces. It cannot
close the function and go on behind it: all that a condition adds is a root block that holds the
hidden function, and blocks within the function (`Session.Reachable.condition_wrapped`).

The braces of the text are counted before it is put into the function. A count that never falls
below zero keeps the lexemes of the text inside the function's braces, so the unit declares `eval`
alone (`Lexeme.declared_condition`), and every block of a unit lies within a child of its root
(`Arena.compile_within`).
-/

namespace Covenant

namespace Lexeme

/-! ### What the lexemes of a condition declare -/

/-- The declarations of lexemes are told by their tokens. -/
theorem declaredFrom_congr {ls ls' : List Lexeme} (h : ls.map token = ls'.map token) (level : Int) :
    declaredFrom level ls = declaredFrom level ls' := by
  induction ls generalizing ls' level with
  | nil =>
    obtain rfl : ls' = [] := List.map_eq_nil_iff.1 h.symm
    rfl
  | cons l ls ih =>
    obtain ⟨l', ls', rfl, hl, hls⟩ := List.map_eq_cons_iff.1 h.symm
    have hhead : ls'.head?.map token = ls.head?.map token := by
      rw [← List.head?_map, ← List.head?_map, hls]
    simp only [declaredFrom, hl, hhead, ih hls.symm]

theorem declaredFrom_none {ls : List Lexeme} (h : ∀ l ∈ ls, l.kind.declares = false) (level : Int) :
    declaredFrom level ls = [] := by
  induction ls generalizing level with
  | nil => rfl
  | cons l ls ih =>
    obtain ⟨hl, hls⟩ := List.forall_mem_cons.1 h
    rw [declaredFrom_rise hl, ih hls]

/-- Inside of braces nothing is declared. -/
theorem declaredFrom_inner {level : Int} (hlevel : level ≠ 0) (l : Lexeme) (ls : List Lexeme) :
    declaredFrom level (l :: ls) = declaredFrom (level + l.kind.rise) ls := by
  cases hdeclares : l.kind.declares with
  | false => exact declaredFrom_rise hdeclares level ls
  | true =>
    have hrise : l.kind.rise = 0 := by
      revert hdeclares
      cases l.kind with
      | punct => exact nofun
      | _ => exact fun _ => rfl
    rw [hrise, Int.add_zero, declaredFrom]
    split
    · rename_i hl
      rw [kind, hl] at hdeclares
      cases hdeclares
    · rename_i hl
      rw [kind, hl] at hdeclares
      cases hdeclares
    · simp [hlevel]
    · simp [hlevel]
    · rfl

/-- Lexemes that close no brace but their own stay inside of the braces around them. -/
theorem declaredFrom_inside {ls more rest : List Lexeme} {d : Nat}
    (h : Registry.braceDepth? d (ls ++ more) ≠ none) (hrest : ∀ l ∈ rest, l.kind.declares = false) :
    declaredFrom (d + 1) (ls ++ rest) = [] := by
  induction ls generalizing d with
  | nil => exact declaredFrom_none hrest _
  | cons l ls ih =>
    rw [List.cons_append, declaredFrom_inner (by omega)]
    rw [List.cons_append, Registry.braceDepth?] at h
    split at h
    · rename_i hkind
      rw [hkind]
      exact ih h
    · rename_i hkind
      split at h
      · exact absurd rfl h
      · rename_i hdepth
        -- The depth counts the braces inside of the wrapper's own, so it does not reach its end.
        have hlevel : (d : Int) + 1 + Kind.rise (.punct .rcurly) = ((d - 1 : Nat) : Int) + 1 := by
          rw [Kind.rise]
          omega
        rw [hkind, hlevel]
        exact ih h
    · rename_i hlcurly hrcurly
      have hrise : l.kind.rise = 0 := by
        unfold Kind.rise
        split
        · exact absurd ‹_› hlcurly
        · exact absurd ‹_› hrcurly
        · rfl
      rw [hrise, Int.add_zero]
      exact ih h

/-- **A condition of which the braces have passed declares `eval` and nothing else.** -/
theorem declared_condition {text : String} {names : List String}
    (hbraces : Registry.checkBraces text = .ok ())
    (h : declared (Registry.wrapCondition text) = .ok names) : names = ["eval"] := by
  unfold Registry.checkBraces at hbraces
  split at hbraces
  · cases hbraces
  · rename_i lexemes halone
    split at hbraces
    · rename_i hdepth
      rw [declared] at h
      cases hwrapped : read (Registry.wrapCondition text) with
      | error e =>
        rw [hwrapped] at h
        cases h
      | ok wrapped =>
        rw [hwrapped] at h
        obtain ⟨ts, m, hts, hall⟩ := read_condition halone hwrapped
        obtain ⟨ls, more, hls, rfl, -⟩ := List.map_eq_append_iff.1 hts
        -- the positions of the lexemes do not matter
        let place (ts : List Token) : List Lexeme := ts.map (⟨·, ⟨1, 1⟩⟩)
        have hplace : ∀ ts, (place ts).map token = ts := fun ts => by
          rw [List.map_map]
          exact List.map_id ts
        have hsame : declaredFrom 0 wrapped.toList = declaredFrom 0 (place conditionHeader ++
            (ls ++ place (List.replicate m (.punct .rcurly) ++ [.newline]))) := by
          refine declaredFrom_congr ?_ 0
          rw [hall, List.map_append, List.map_append, hplace, hplace, List.append_assoc,
            List.append_assoc]
        have hcounted : Registry.braceDepth? 0 (ls ++ more) ≠ none := by
          rw [← hls, beq_iff_eq.1 hdepth]
          exact Option.some_ne_none _
        have hrest : ∀ l ∈ place (List.replicate m (.punct .rcurly) ++ [.newline]),
            l.kind.declares = false := by
          intro l hl
          obtain ⟨t, ht, rfl⟩ := List.mem_map.1 hl
          rcases List.mem_append.1 ht with ht | ht
          · rw [List.eq_of_mem_replicate ht]
            rfl
          · rw [List.mem_singleton.1 ht]
            rfl
        have hinside : declaredFrom ((0 : Nat) + 1)
            (ls ++ place (List.replicate m (.punct .rcurly) ++ [.newline])) = [] :=
          declaredFrom_inside hcounted hrest
        rw [← Except.ok.inj h]
        exact hsame.trans (congrArg (List.cons "eval") hinside)
    · cases hbraces

end Lexeme

namespace Compile

variable {a : Arena} {s : Source} {w w' : Work} {id : BlockId}

/-! ### Blocks of a unit -/

/-- An edit adds one block at most, which is opened in the innermost one. -/
theorem parent_of_new (h : Beside a w) (hedit : Edit s w w') (hnew : w.arena.size ≤ id)
    (hlt : id < w'.arena.size) : id = w.arena.size ∧ (w'.block id).parent = some w.top := by
  have htop := (h.opened w.top (top_mem_opened w)).2
  -- Only three edits push a block, and each pushes exactly one.
  have hopened : (w.openBlock.block w.arena.size).parent = some w.top := by
    rw [Work.block_openBlock_new htop]
  cases hedit with
  | note harena =>
    rw [harena] at hlt
    exact absurd hlt (Nat.not_lt.2 hnew)
  | block =>
    rw [Work.size_modifyBlock] at hlt
    exact absurd hlt (Nat.not_lt.2 hnew)
  | marks =>
    rw [Work.size_setWritable] at hlt
    exact absurd hlt (Nat.not_lt.2 hnew)
  | closes => exact absurd hlt (Nat.not_lt.2 hnew)
  | opens =>
    rw [Work.size_openBlock] at hlt
    obtain rfl : id = w.arena.size := Nat.le_antisymm (Nat.lt_succ_iff.1 hlt) hnew
    exact ⟨rfl, hopened⟩
  | control =>
    rw [Work.size_modifyBlock, Work.size_openBlock] at hlt
    obtain rfl : id = w.arena.size := Nat.le_antisymm (Nat.lt_succ_iff.1 hlt) hnew
    exact ⟨rfl, by rwa [Work.block_modifyBlock_of_ne _ (Nat.ne_of_lt htop)]⟩
  | @declares info v x hv =>
    rw [Work.size_modifyBlock, Work.size_modifyBlock, Work.size_openBlock] at hlt
    obtain rfl : id = w.arena.size := Nat.le_antisymm (Nat.lt_succ_iff.1 hlt) hnew
    refine ⟨rfl, ?_⟩
    rw [Work.block_modifyBlock_of_ne _ (Nat.ne_of_lt htop),
      Work.block_modifyBlock_self (by rw [Work.size_openBlock]; exact Nat.lt_succ_self _)]
    exact hopened

/-- Where the innermost block is the unit's root, nothing is open inside of it. -/
theorem inner_of_top_eq_root (hroot : w.root ∉ w.inner) (htop : w.top = w.root) : w.inner = [] := by
  by_contra hne
  obtain ⟨c, cs, hcs⟩ := List.exists_cons_of_ne_nil hne
  rw [Work.top, hcs] at htop
  exact hroot (hcs ▸ htop ▸ List.mem_cons_self ..)

/-- Whether every block that a unit adds lies in the unit's root, which then counts it among its
children, or in a block that the unit has added before. -/
def Nested (w : Work) : Prop :=
  ∀ id, w.root < id → id < w.arena.size → ∃ p, (w.block id).parent = some p ∧ w.root ≤ p ∧ p < id ∧
    (p = w.root → id ∈ (w.block w.root).children)

namespace Nested

/-- An edit keeps how the blocks of a unit lie within each other. -/
theorem edit (h : Nested w) (ht : Titled a w) (hroot : w.root = a.size) (hedit : Edit s w w') :
    Nested w' := by
  have hd := Declaring.edit ht.beside ht.outside hedit
  intro id hlow hhigh
  rw [hd.root] at hlow ⊢
  rcases Nat.lt_or_ge id w.arena.size with hold | hnew
  · obtain ⟨p, hp, hle, hlt, hchild⟩ := h id hlow hold
    refine ⟨p, ((Kept.edit ht.beside hedit).parent id hold).trans hp, hle, hlt, fun hpr => ?_⟩
    rcases hd.children with ⟨hsame, -⟩ | ⟨hmore, -⟩
    · rw [hd.root] at hsame
      exact hsame ▸ hchild hpr
    · rw [hd.root] at hmore
      exact hmore ▸ Array.mem_push_of_mem _ (hchild hpr)
  · obtain ⟨hle, hlt⟩ := ht.beside.opened w.top (top_mem_opened w)
    obtain ⟨rfl, hparent⟩ := parent_of_new ht.beside hedit hnew hhigh
    refine ⟨w.top, hparent, hroot ▸ hle, hlt, fun htop => ?_⟩
    rcases hd.children with ⟨-, hsame⟩ | ⟨hmore, -⟩
    · rcases hsame with hsame | hne
      · exact absurd hhigh (hsame ▸ Nat.lt_irrefl _)
      · exact absurd (inner_of_top_eq_root ht.outside htop) hne
    · rw [hd.root] at hmore
      exact hmore ▸ Array.mem_push_self

theorem edits (h : Nested w) (ht : Titled a w) (hroot : w.root = a.size) (hedits : Edits s w w') :
    Nested w' := by
  induction hedits with
  | refl => exact h
  | tail hold hedit ih => exact ih.edit (ht.edits hold) ((ht.root_eq hold).trans hroot) hedit

theorem start (a : Arena) : Nested { arena := a.push { parent := none }, root := a.size } := by
  intro id hlow hhigh
  rw [Array.size_push] at hhigh
  exact absurd hhigh (Nat.not_lt.2 hlow)

end Nested

end Compile

namespace Arena

variable {a a' : Arena} {scope : Scope} {text : String} {root : BlockId}

/-- A unit binds no names but those of its contracts and functions. -/
theorem compile_owns (h : a.compile scope text = .ok (root, a')) {x : String} {v : Binding}
    (hx : (a'.block root).objects.get? x = some v) :
    ∃ c ∈ (a'.block root).children, (a'.block c).name = x ∧ (a'.block c).binding? c = some v := by
  obtain ⟨rfl, lexemes, -, w, rfl, -, hedits, -⟩ := compile_edits h
  have htitled := Compile.Titled.start a
  have howns := htitled.owns (Compile.Work.owns_start a) hedits
  have hroot : w.root = a.size := htitled.root_eq hedits
  unfold Compile.Work.Owns at howns
  rw [hroot] at howns
  exact howns x v hx

/-- **Every block of a unit lies within a child of the unit's root.** -/
theorem compile_within (h : a.compile scope text = .ok (root, a')) {id : BlockId} (hlow : root < id)
    (hhigh : id < a'.size) : ∃ c ∈ (a'.block root).children, a'.Within id c := by
  obtain ⟨rfl, lexemes, -, w, rfl, -, hedits, -⟩ := compile_edits h
  have htitled := Compile.Titled.start a
  have hnested := (Compile.Nested.start a).edits htitled rfl hedits
  have hroot : w.root = a.size := htitled.root_eq hedits
  unfold Compile.Nested at hnested
  rw [hroot] at hnested
  induction id using Nat.strongRecOn with
  | ind id ih =>
    obtain ⟨p, hp, hle, hlt, hchild⟩ := hnested id hlow hhigh
    rcases Nat.eq_or_lt_of_le hle with heq | hgt
    · exact ⟨id, hchild heq.symm, .refl⟩
    · obtain ⟨c, hc, hwithin⟩ := ih p hlt hgt (Nat.lt_trans hlt hhigh)
      exact ⟨c, hc, .head hp hwithin⟩

end Arena

/-! ### The unit of a condition -/

/-- The unit around a condition has one child, the function `eval`, and binds nothing else. -/
theorem Registry.unit_of_condition {a a' : Arena} {scope : Scope} {text : String} {root : BlockId}
    (ha : a.Every Block.Spelled) (hbraces : checkBraces text = .ok ())
    (h : a.compile scope (wrapCondition text) = .ok (root, a')) :
    (a'.block root).children = #[a.size + 1] ∧
      (∃ f, (a'.block (a.size + 1)).info = .func f ∧ f.name = "eval") ∧
      (a'.block root).objects.toList = [("eval", .func (a.size + 1))] := by
  have heval := eval_of_compile h
  obtain ⟨names, hnames, hall⟩ := Arena.compile_declared ha h
  obtain rfl := Lexeme.declared_condition hbraces hnames
  obtain ⟨c, cs, hdeclared, hnil, hchildren⟩ := List.forall₂_cons_left_iff.1 hall
  obtain rfl := List.forall₂_nil_left_iff.1 hnil
  have honly : ∀ c' ∈ (a'.block root).children, c' = c := fun c' hc' => by
    rw [← Array.mem_toList_iff, hchildren] at hc'
    exact List.mem_singleton.1 hc'
  -- what the unit binds is the name of its only child
  obtain ⟨c', hc', -, hbinding⟩ := Arena.compile_owns h heval
  obtain rfl := honly c' hc'
  obtain rfl : c' = a.size + 1 :=
    (Option.some.inj (Block.block?_of_binding? hbinding)).symm
  obtain ⟨f, hf, hname⟩ : ∃ f, (a'.block (a.size + 1)).info = .func f ∧ f.name = "eval" := by
    rcases hdeclared with hfunc | ⟨k, hk, -⟩
    · exact hfunc
    · rw [Block.binding?, hk] at hbinding
      cases hbinding
  refine ⟨Array.toList_inj.1 hchildren, ⟨f, hf, hname⟩,
    Dict.toList_eq_singleton fun x v => ⟨fun hx => ?_, ?_⟩⟩
  · obtain ⟨c', hc', hx', hv⟩ := Arena.compile_owns h hx
    obtain rfl := honly c' hc'
    rw [Block.name, hf] at hx'
    exact ⟨hx'.symm.trans hname, Option.some.inj (hv.symm.trans hbinding)⟩
  · rintro ⟨rfl, rfl⟩
    exact heval

namespace Session

variable {s s' : Session} {state : UInt32} {text : String} {id : BlockId}

/-- **A condition cannot leave its function.** What a condition adds that is not found is a root
block with one child, the hidden function `eval`, which is all that the root binds, and blocks
within that function. The global names and the numbered contracts and functions stay as they are. -/
theorem Reachable.condition_wrapped (h : s.Reachable)
    (hfresh : s.registry.evals.lookup (Registry.conditionKey state text) = none)
    (hcompile : s.compileEval state text = (.ok id, s')) :
    (s'.registry.block s.registry.arena.size).children = #[id] ∧
      (∃ f, (s'.registry.block id).func? = some f ∧ f.name = "eval" ∧ f.hidden = true) ∧
      (s'.registry.block s.registry.arena.size).objects.toList = [("eval", .func id)] ∧
      (∀ b, s.registry.arena.size < b → b < s'.registry.arena.size →
        s'.registry.arena.Within b id) ∧
      s'.registry.objects = s.registry.objects ∧ s'.registry.children = s.registry.children := by
  have hcondition : s.registry.compileCondition state text = (.ok id, s'.registry) := by
    unfold compileEval at hcompile
    obtain ⟨hresult, rfl⟩ := Prod.mk.inj hcompile
    exact Prod.ext hresult rfl
  rcases s.registry.compileCondition_cases state text with
    ⟨id', hfound, -⟩ | ⟨-, ⟨e, heq⟩ | ⟨a', hbraces, hunit, heq⟩⟩
  · -- The condition is not filed yet, and compiling it succeeds.
    cases hfresh.symm.trans hfound
  · cases heq.symm.trans hcondition
  · obtain ⟨hid, hregistry⟩ := Prod.mk.inj (heq.symm.trans hcondition)
    obtain rfl := Except.ok.inj hid
    obtain ⟨hchildren, ⟨f, hf, hname⟩, hobjects⟩ :=
      Registry.unit_of_condition (h.every Block.Spelled.invariant) hbraces hunit
    -- Marking the function as hidden changes nothing else of the arena.
    have halike := Registry.alike_hidden a' (s.registry.arena.size + 1)
    have hsize : s.registry.arena.size + 1 < a'.size := by
      by_contra hle
      rw [Arena.block_of_le (Nat.le_of_not_lt hle)] at hf
      cases hf
    rw [← hregistry]
    refine ⟨?_, ⟨{ f with hidden := true }, ?_, hname, rfl⟩, ?_, fun b hlow hhigh => ?_, rfl, rfl⟩
    · show (Arena.block (a'.modify _ _) _).children = _
      rw [Arena.block_modify_of_ne _ (Nat.succ_ne_self _), hchildren]
    · show (Arena.block (a'.modify _ _) _).func? = _
      rw [Arena.block_modify_self hsize, Block.modifyFunc, hf]
      rfl
    · exact (congrArg Dict.toList (halike.objects _)).trans hobjects
    · obtain ⟨c, hc, hwithin⟩ := Arena.compile_within hunit hlow (halike.size ▸ hhigh)
      rw [hchildren, List.mem_toArray, List.mem_singleton] at hc
      show Arena.Within (a'.modify _ _) b _
      rw [halike.within, ← hc]
      exact hwithin

/-- A condition with braces of its own. -/
def bracedCondition : String := "\x7b\x7d == \x7b\"a\": \x7b\x7d\x7d"

/-- A condition with braces of its own is wrapped in one function. -/
theorem bracedCondition_wrapped : ∃ s', new.Reachable ∧
    new.registry.evals.lookup (Registry.conditionKey 1 bracedCondition) = none ∧
    new.compileEval 1 bracedCondition = (.ok 1, s') ∧
    (s'.registry.block 0).children = #[1] ∧
    (∃ f, (s'.registry.block 1).func? = some f ∧ f.name = "eval" ∧ f.hidden = true) ∧
    (s'.registry.block 0).objects.toList = [("eval", .func 1)] ∧
    (∀ b, 0 < b → b < s'.registry.arena.size → s'.registry.arena.Within b 1) ∧
    s'.registry.objects = new.registry.objects ∧ s'.registry.children = new.registry.children := by
  have hfresh : new.registry.evals.lookup (Registry.conditionKey 1 bracedCondition) = none := by
    decide +kernel
  have hcompiled : (new.compileEval 1 bracedCondition).1.toOption = some 1 := by
    decide +kernel
  have hsize : new.registry.arena.size = 0 := rfl
  obtain ⟨s', hcompile⟩ : ∃ s', new.compileEval 1 bracedCondition = (.ok 1, s') :=
    ⟨_, compileEval_of_toOption hcompiled⟩
  have hwrapped := Reachable.condition_wrapped .start hfresh hcompile
  rw [hsize] at hwrapped
  exact ⟨s', .start, hfresh, hcompile, hwrapped⟩

end Session

end Covenant
