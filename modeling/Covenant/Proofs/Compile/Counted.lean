import Covenant.Proofs.Compile.Layout
import Covenant.Proofs.Compile.Passages

/-!
# Functions that are called with a count

A call that counts its arguments is compiled for functions that collect what is left of them, and
for no others. When the call is read, the signature says so (`Phrase.Fits`), and a function that
collects goes on to do so whatever is compiled behind it (`BlockEdit.variadic`). So the instruction
of such a call names a function with a parameter, in every block of a host
(`Session.Reachable.counted`).
-/

namespace Covenant

/-- The function that an instruction calls with the number of its arguments. -/
def Op.counts? : Op → Option BlockId
  | .callVariadic (.func g) => some g
  | _ => none

theorem Op.counts?_of_isStatement {op : Op} (h : op.isStatement = true) : op.counts? = none := by
  cases op <;> first | rfl | cases h

/-- Whether the functions that are called with the number of their arguments collect what is left of
them. -/
def Arena.Counting (a : Arena) : Prop :=
  ∀ b, ∀ op ∈ (a.block b).ops, ∀ g, op.counts? = some g → (a.block g).Variadic

namespace Arena.Counting

variable {a a' : Arena} {f : Block → Block} {id : BlockId}

/-- What is added to code counts for such functions only, and they remain such functions. -/
theorem of_kept (h : a.Counting) (hkept : ∀ g, (a.block g).Variadic → (a'.block g).Variadic)
    (hcode : ∀ b, ∀ op ∈ (a'.block b).ops, op ∈ (a.block b).ops ∨
      ∀ g, op.counts? = some g → (a.block g).Variadic) : a'.Counting := by
  intro b op hop g hg
  rcases hcode b op hop with hold | hnew
  · exact hkept g (h b op hold g hg)
  · exact hkept g (hnew g hg)

/-- A change of one block keeps that all counted calls are of functions that collect. -/
theorem modify (h : a.Counting) (hkept : (a.block id).Variadic → (f (a.block id)).Variadic)
    (hcode : ∀ op ∈ (f (a.block id)).ops, op ∈ (a.block id).ops ∨
      ∀ g, op.counts? = some g → (a.block g).Variadic) : Counting (a.modify id f) := by
  refine h.of_kept (fun g hg => ?_) fun b op hop => ?_
  · rw [block_modify]
    split
    · rename_i hid
      obtain ⟨rfl, -⟩ := hid
      exact hkept hg
    · exact hg
  · rw [block_modify] at hop
    split at hop
    · rename_i hid
      obtain ⟨rfl, -⟩ := hid
      exact hcode op hop
    · exact .inl hop

/-- A change that leaves the code of a block. -/
theorem modify_code (h : a.Counting) (hkept : (a.block id).Variadic → (f (a.block id)).Variadic)
    (hcode : (f (a.block id)).ops = (a.block id).ops) : Counting (a.modify id f) :=
  h.modify hkept fun _ hop => .inl (hcode ▸ hop)

/-- A block that is added is no such function, and has no code. -/
theorem push (h : a.Counting) (p : Option BlockId) : Counting (a.push { parent := p }) := by
  refine h.of_kept (fun g hg => ?_) fun b op hop => .inl ?_
  · rw [block_push, if_neg]
    · exact hg
    · rintro rfl
      obtain ⟨f, hf, -⟩ := hg
      rw [block_of_le (Nat.le_refl _)] at hf
      cases hf
  · rw [block_push] at hop
    split at hop
    · exact absurd hop List.not_mem_nil
    · exact hop

end Arena.Counting

namespace Compile

variable {s : Source} {w w' : Work}

/-! ### Calls that are read -/

/-- Whether a function collects what is left of its arguments. -/
def Outlook.Collects (v : Outlook) (g : BlockId) : Prop :=
  ∃ f, v.signatures g = some f ∧ f.variadic = true

theorem Work.collects_outlook {g : BlockId} (h : (w.outlook s).Collects g) :
    (w.block g).Variadic := by
  obtain ⟨f, hf, hvariadic⟩ := h
  obtain ⟨i, hi, rfl⟩ := Option.map_eq_some_iff.1 hf
  exact ⟨i, hi, hvariadic⟩

/-- A call that fits counts its arguments only for a function that collects what is left. -/
theorem Phrase.Fits.collects {v : Outlook} {head : Token} {front back : List Constant}
    {args : List Phrase} {segments : List (Token × List Phrase)} {ending : Ending}
    (h : Phrase.Fits v (.call head front args back segments ending)) {g : BlockId}
    (hg : ending.op.counts? = some g) : v.Collects g := by
  cases h with
  | @func x id f _ _ _ _ hf =>
    rw [Ending.of] at hg
    split at hg
    · cases hg
      exact ⟨f, hf, ‹_›⟩
    · cases hg
  | @ext _ e =>
    rw [Ending.of] at hg
    split at hg <;> cases hg
  | named => cases hg

theorem counts?_pushes {cs : List Constant} {op : Op} (h : op ∈ pushes cs) : op.counts? = none := by
  obtain ⟨c, -, rfl⟩ := List.mem_map.1 h
  rfl

theorem counts?_counting {e : Ending} {op : Op} (h : op ∈ e.counting) : op.counts? = none := by
  cases e with
  | fixed => exact absurd h List.not_mem_nil
  | counted | named =>
    rw [List.mem_singleton.1 h]
    rfl

mutual

/-- The functions that the code of a phrase calls with a count collect what is left. -/
theorem Phrase.collects {v : Outlook} {op : Op} {g : BlockId} (hg : op.counts? = some g) :
    ∀ {e : Phrase}, e.Sound v → op ∈ e.ops → v.Collects g
  | .atom _ i, _, hop => by
    rw [List.mem_singleton.1 hop] at hg
    cases i <;> cases hg
  | .group _, he, hop => collects_all hg he hop
  | .unary _ _ e, he, hop => by
    rcases List.mem_append.1 hop with hop | hop
    · exact Phrase.collects hg (e := e) he hop
    · rw [List.mem_singleton.1 hop] at hg
      cases hg
  | .binary _ _ a b, he, hop => by
    rcases List.mem_append.1 hop with hop | hop
    · rcases List.mem_append.1 hop with hop | hop
      · exact Phrase.collects hg (e := a) (fun u hu => he u (List.mem_append_left _ hu)) hop
      · exact Phrase.collects hg (e := b) (fun u hu => he u (List.mem_append_right _ hu)) hop
    · rw [List.mem_singleton.1 hop] at hg
      cases hg
  | .index a es, he, hop => by
    rcases List.mem_append.1 hop with hop | hop
    · rcases List.mem_append.1 hop with hop | hop
      · exact Phrase.collects hg (e := a) (fun u hu => he u (List.mem_append_left _ hu)) hop
      · exact collects_all hg (l := es) (fun u hu => he u (List.mem_append_right _ hu)) hop
    · rw [List.mem_singleton.1 hop] at hg
      cases hg
  | .spread e, he, hop => by
    rcases List.mem_append.1 hop with hop | hop
    · exact Phrase.collects hg (e := e) he hop
    · rw [List.mem_singleton.1 hop] at hg
      cases hg
  | .call head front args back segments ending, he, hop => by
    obtain ⟨hself, hinside⟩ := List.forall_mem_cons.1 he
    -- the instruction is the last one of the call, or one of an argument; what is pushed and
    -- counted in between counts no arguments itself
    rw [Phrase.ops] at hop
    simp only [List.mem_append, List.mem_singleton] at hop
    rcases hop with ((((hop | hop) | hop) | hop) | hop) | rfl
    · cases (counts?_pushes hop).symm.trans hg
    · exact collects_all hg (l := args) (fun u hu => hinside u (List.mem_append_left _ hu)) hop
    · cases (counts?_pushes hop).symm.trans hg
    · exact collects_chained hg (fun u hu => hinside u (List.mem_append_right _ hu)) hop
    · cases (counts?_counting hop).symm.trans hg
    · exact hself.collects hg

theorem collects_all {v : Outlook} {op : Op} {g : BlockId} (hg : op.counts? = some g) :
    ∀ {l : List Phrase}, (∀ u ∈ callsAll l, u.Fits v) → op ∈ opsAll l → v.Collects g
  | [], _, hop => absurd hop List.not_mem_nil
  | e :: es, hes, hop => by
    rcases List.mem_append.1 hop with hop | hop
    · exact Phrase.collects hg (e := e) (fun u hu => hes u (List.mem_append_left _ hu)) hop
    · exact collects_all hg (l := es) (fun u hu => hes u (List.mem_append_right _ hu)) hop

/-- A counted call among the arguments of segments collects. -/
theorem collects_chained {v : Outlook} {op : Op} {g : BlockId} (hg : op.counts? = some g) :
    ∀ {segments : List (Token × List Phrase)}, (∀ u ∈ callsChained segments, u.Fits v) →
      op ∈ opsChained segments → v.Collects g
  | [], _, hop => absurd hop List.not_mem_nil
  | (name, args) :: rest, hsegments, hop => by
    rcases List.mem_append.1 hop with hop | hop
    · rcases List.mem_append.1 hop with hop | hop
      · exact collects_all hg (l := args) (fun u hu => hsegments u (List.mem_append_left _ hu)) hop
      · rw [List.mem_singleton.1 hop] at hg
        cases hg
    · exact collects_chained hg (fun u hu => hsegments u (List.mem_append_right _ hu)) hop

end

/-- The functions that the code of a sentence calls with a count collect what is left. -/
theorem Sentence.collects {v : Outlook} {p : Sentence} (hp : ∀ u ∈ p.calls, u.Fits v) {op : Op}
    (hop : op ∈ p.ops) {g : BlockId} (hg : op.counts? = some g) : v.Collects g := by
  rw [Sentence.ops] at hop
  -- The instruction is one of a phrase, or the `setIndex` that the sentence ends with.
  rcases List.mem_append.1 hop with hop | hop
  · rcases List.mem_append.1 hop with hop | hop
    · obtain ⟨l, hl, hop⟩ := List.mem_flatMap.1 hop
      have hcalls : ∀ u ∈ l.calls, u.Fits v := fun u hu =>
        hp u (List.mem_append_left _ (List.mem_flatMap.2 ⟨l, hl, hu⟩))
      cases l with
      | value e => exact Phrase.collects hg hcalls hop
      | target a es =>
        rcases List.mem_append.1 hop with hop | hop
        · exact Phrase.collects hg (fun u hu => hcalls u (List.mem_append_left _ hu)) hop
        · exact collects_all hg (fun u hu => hcalls u (List.mem_append_right _ hu)) hop
    · rw [Sentence.calls] at hp
      cases hlast : p.last with
      | none =>
        rw [hlast] at hop
        exact absurd hop List.not_mem_nil
      | some e =>
        rw [hlast] at hop hp
        exact Phrase.collects hg (fun u hu => hp u (List.mem_append_right _ hu)) hop
  · split at hop
    · rw [List.mem_singleton.1 hop] at hg
      cases hg
    · exact absurd hop List.not_mem_nil

/-! ### What the compiler adds -/

/-- What a change makes of the commands of a block counts arguments for functions that collect
only. -/
theorem variadic_of_grows (hspelled : w.arena.Every Block.Spelled) {os os' : List Op}
    (h : Grows s w os os') {op : Op} (hop : op ∈ os') {g : BlockId} (hg : op.counts? = some g) :
    op ∈ os ∨ (w.block g).Variadic := by
  cases h with
  | statement hstatement =>
    rcases List.mem_append.1 hop with hop | hop
    · exact .inl hop
    · rw [List.mem_singleton.1 hop, Op.counts?_of_isStatement hstatement] at hg
      cases hg
  | targets =>
    rcases List.mem_append.1 hop with hop | hop
    · exact .inl (List.mem_append_left _ hop)
    · rw [List.mem_singleton.1 hop] at hg
      cases hg
  | moves => exact .inl (List.mem_append_left _ hop)
  | @expression _ w₀ blockFollows fuel start stop y code htake hfinish =>
    rcases List.mem_append.1 hop with hop | hop
    · exact .inl hop
    have houtlook : w.outlook s = w₀.outlook s :=
      (refers_takeAll blockFollows fuel (.refl s w₀) start _ w htake).outlook
    obtain ⟨-, p, -, hops, hsuits⟩ :=
      sentence_takeAll (houtlook ▸ named_outlook hspelled) htake hfinish
    rw [← houtlook] at hsuits
    refine .inr (Work.collects_outlook (Sentence.collects hsuits.fits ?_ hg))
    exact hops ▸ hop

theorem variadic_of_edit (hspelled : w.arena.Every Block.Spelled) {os os' : List Op}
    (h : Relation.ReflTransGen (Grows s w) os os') {op : Op} (hop : op ∈ os') {g : BlockId}
    (hg : op.counts? = some g) : op ∈ os ∨ (w.block g).Variadic := by
  induction h with
  | refl => exact .inl hop
  | tail _ hgrow ih => exact (variadic_of_grows hspelled hgrow hop hg).elim ih .inr

theorem counting_openBlock (h : w.arena.Counting) : w.openBlock.arena.Counting :=
  (h.push _).modify_code (fun hb => hb.of_func? rfl) rfl

/-- Every edit keeps for whom calls count their arguments. -/
theorem counting_edit (hspelled : w.arena.Every Block.Spelled) (h : w.arena.Counting)
    (hedit : Edit s w w') :
    w'.arena.Counting := by
  cases hedit with
  | note harena => exact harena ▸ h
  | @block id f _ hblock =>
    refine h.modify hblock.variadic fun op hop => ?_
    by_cases hold : op ∈ (w.block id).ops
    · exact .inl hold
    · exact .inr fun g hg => (variadic_of_edit hspelled hblock.grows hop hg).resolve_left hold
  | marks =>
    refine h.of_kept (fun g hg => ?_) fun b op hop => .inl ?_
    · show (w.setWritable.block g).Variadic
      rw [Work.block_setWritable]
      split
      · exact hg.setWritable
      · exact hg
    · change op ∈ (w.setWritable.block b).ops at hop
      rw [Work.block_setWritable, Block.setWritable_eq] at hop
      split at hop <;> exact hop
  | opens => exact counting_openBlock h
  | control line hop =>
    refine (counting_openBlock h).modify (fun hb => hb.of_func? rfl) fun op' hop' => ?_
    rw [Block.ops_emit] at hop'
    rcases List.mem_append.1 hop' with hold | hnew
    · exact .inl hold
    · refine .inr fun g hg => ?_
      rw [List.mem_singleton.1 hnew,
        Op.counts?_of_isStatement (Op.isStatement_of_body? (hop _))] at hg
      cases hg
  | @declares info v x hv =>
    -- a block that has just been opened is no function yet
    have hnew : ¬ (w.openBlock.block w.arena.size).Variadic := by
      rintro ⟨i, hi, -⟩
      have hsome := (Work.Grown.openBlock w w.arena.size).isSome
      rw [hi, Work.block, Arena.block_of_le (Nat.le_refl _)] at hsome
      cases hsome
    have hinfo : (w.openBlock.modifyBlock w.arena.size fun b =>
      { b with info := info }).arena.Counting :=
      Arena.Counting.modify_code (counting_openBlock h) (fun hb => absurd hb hnew) rfl
    exact Arena.Counting.modify_code hinfo (fun hb => hb.of_func? rfl) rfl
  | closes => exact h

/-- Edits of a work keep it. -/
theorem counting_edits (hs : s.Spelled) (hspelled : w.arena.Every Block.Spelled)
    (h : w.arena.Counting) (hedits : Edits s w w') : w'.arena.Counting := by
  have hboth : w'.arena.Every Block.Spelled ∧ w'.arena.Counting := by
    induction hedits with
    | refl => exact ⟨hspelled, h⟩
    | tail _ hedit ih => exact ⟨(editInvariant_spelled hs).edit ih.1 hedit,
      counting_edit ih.1 ih.2 hedit⟩
  exact hboth.2

end Compile

/-! ### Registries -/

/-- A unit keeps for whom calls count their arguments. -/
theorem Arena.Counting.compile {a a' : Arena} {scope : Scope} {text : String} {root : BlockId}
    (h : a.Counting) (hspelled : a.Every Block.Spelled)
    (hcompile : a.compile scope text = .ok (root, a')) :
    a'.Counting := by
  obtain ⟨-, lexemes, hread, w, rfl, -, hedits, -⟩ := Arena.compile_edits hcompile
  have hs := Compile.spelled_of_read hread scope
  have hnew : Block.Spelled { parent := none } := .of_func?_eq_none rfl
  exact Compile.counting_edits hs (hspelled.push hnew) (h.push none) hedits

namespace Registry

theorem enter_counting {r : Registry} (h : r.arena.Counting) (child : BlockId) :
    (r.enter child).arena.Counting := by
  unfold enter
  split
  · exact h
  · exact h.modify_code (fun hb => hb.setId _) (Block.ops_setId _ _)

/-- For whom calls count their arguments is kept in a host's registry. -/
theorem counting_invariant : TableInvariant fun a _ => a.Counting where
  empty b op hop := by
    rw [Arena.block_of_le (Nat.zero_le b)] at hop
    exact absurd hop List.not_mem_nil
  extend _ h := h
  compile {s r state text} hs h hcompile := by
    obtain ⟨root, arena, hunit, rfl⟩ := compile_eq_ok.1 hcompile
    have harena := h.compile (hs.every Block.Spelled.invariant) hunit
    have hall : ∀ (ids : List BlockId) (r : Registry), r.arena.Counting →
        (ids.foldl enter r).arena.Counting := by
      intro ids
      induction ids with
      | nil => exact fun _ h => h
      | cons id ids ih => exact fun r h => ih _ (enter_counting h id)
    rw [enterUnit, ← Array.foldl_toList]
    exact hall _ _ harena
  condition {s r state text id} hs h hcompile := by
    rcases compileEval_cases hcompile with rfl | ⟨arena, hunit, rfl, rfl⟩
    · exact h
    · exact (h.compile (hs.every Block.Spelled.invariant) hunit).modify_code
        (fun hb => hb.modifyFunc fun _ hi => hi) (Block.ops_modifyFunc _ _)

end Registry

/-- A function that collects what is left of its arguments has a parameter to do so. -/
theorem Block.LaidOut.params_ne_nil {b : Block} (h : b.LaidOut) {f : FuncInfo}
    (hf : b.func? = some f) (hvariadic : f.variadic = true) : f.params ≠ [] := by
  obtain ⟨g, hg⟩ := h f hf
  obtain ⟨p, hp, -⟩ := hg.variadic.1 hvariadic
  rw [hg.params]
  exact fun hnil => List.ne_nil_of_mem (List.mem_of_getLast? hp) (List.map_eq_nil_iff.1 hnil)

/-- **A function that is called with a count has a parameter** that collects what is left of the
arguments. -/
theorem Session.Reachable.counted {s : Session} (h : s.Reachable) {b g : BlockId} {op : Op}
    (hop : op ∈ (s.registry.block b).ops) (hg : op.counts? = some g) :
    ∃ f, (s.registry.block g).func? = some f ∧ f.params ≠ [] := by
  obtain ⟨f, hf, hvariadic⟩ := h.table Registry.counting_invariant b op hop g hg
  exact ⟨f, hf, (h.laidOut g).params_ne_nil hf hvariadic⟩

end Covenant
