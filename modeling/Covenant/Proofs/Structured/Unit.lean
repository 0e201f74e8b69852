import Covenant.Proofs.Compile.Outcome
import Covenant.Proofs.Structured.Statements
import Covenant.Registry

/-!
# Functions compile to their code

A unit with one function is read in three parts: the header, which leaves a `Header`, the body, and
the end of the unit. The main statement is `Func.compile_of_writtenAs`: every spelling of a scoped
function compiles in every registry, and the registry then knows the function by its name and holds
its signature, its variables and its code (`Func.Known`).
-/

namespace Covenant.Structured

open Covenant.Compile Covenant.Computation

/-! ### The header -/

/-- A unit whose only function is being declared: its parameters and results so far. -/
structure Header (w : Work) (name : String) (params : List (String × Ty)) (results : List Ty) :
    Prop where
  isOpen : Open w [⟨w.root + 1, params.map Prod.fst⟩]
  size : w.arena.size = w.root + 2
  info : (w.block w.top).info
    = .func { name := name, id := 0, params := params.map Prod.snd, results := results }
  vars : (w.block w.top).vars.toList = params.map Prod.snd
  code : (w.block w.top).code = #[]
  children : (w.block w.root).children = #[w.root + 1]
  rootCode : (w.block w.root).code = #[]

section header

variable {s : Source} {w : Work} {i : Nat} {name : String} {params : List (String × Ty)}
  {results : List Ty} {rest : List Token}

/-- The work at the start of a unit. -/
def blank (a : Arena) : Work := { arena := a.push { parent := none }, root := a.size }

theorem block_blank (a : Arena) : (blank a).block a.size = { parent := none } := by
  show Arena.block (a.push _) a.size = _
  rw [Arena.block_push, if_pos rfl]

theorem root_openBlock_blank (a : Arena) :
    (blank a).openBlock.block a.size = { parent := none, children := #[a.size + 1] } := by
  refine (Work.block_openBlock_top (by simp [blank, Work.top])).trans ?_
  show Block.mk _ _ _ _ _ _ = _
  rw [show (blank a).top = a.size from rfl, block_blank]
  simp [blank]

/-- The work behind the name of a function. -/
def named (a : Arena) (name : String) : Work :=
  ((blank a).openBlock.modifyTop fun b =>
    { b with info := .func { name := name, id := 0 } }).modifyBlock
    a.size fun b => { b with objects := b.objects.insert name (.func (a.size + 1)) }

/-- The keyword and the name of a function open its block and bind its name. -/
theorem reads_named (a : Arena) (hts : TokensAt s i (.keyword .func :: .ident name :: rest)) :
    Reads s 2 .root i (blank a) .funcParams (i + 2) (named a name) := by
  have hfunc : Reads s 1 .root i (blank a) .func (i + 1) (blank a).openBlock := by
    refine .step hts.kind? fun fork => ⟨fork, ?_⟩
    have hentry : Grammar.entry .root (.keyword .func) = .go .func { push := true } .none := rfl
    show advance s (.keyword .func) _ _ = _
    unfold advance
    rw [hentry]
    rfl
  -- the name goes to the function's block and to the unit
  have hact : act s .nameBlock (i + 1) (blank a).openBlock = .ok () (named a name) := by
    have hkind : (s.kind? i == some (.keyword .contract)) = false := by
      rw [hts.kind?]
      rfl
    have hobj : ((blank a).openBlock.block a.size).objects.contains name = false := by
      rw [Dict.contains_eq, Work.objects_openBlock, block_blank, Dict.get?_empty]
      rfl
    have hid : ((blank a).openBlock.block a.size).children.size - 1 = 0 := by
      rw [root_openBlock_blank]
      rfl
    have hname : s.name (i + 1) = name := hts.next.name
    have hparent : (blank a).openBlock.parent = a.size := rfl
    have htop : (blank a).openBlock.top = a.size + 1 := by simp [blank]
    simp [act, nameBlock, hname, hkind, hparent, hid, hobj, htop, named, bind, EStateM.bind,
      get_apply, set_apply]
  exact hfunc.trans (.step hts.next.kind? fun fork => ⟨fork, advance_goTo rfl (by decide) hact⟩)

/-- The keyword and the name of a function. -/
theorem reads_func (a : Arena) (hts : TokensAt s i (.keyword .func :: .ident name :: rest)) :
    ∃ w, Reads s 2 .root i (blank a) .funcParams (i + 2) w ∧ Header w name [] [] ∧
      w.root = a.size := by
  have hlt : (blank a).top < (blank a).arena.size := by simp [blank, Work.top]
  have hnew : (blank a).openBlock.block (a.size + 1) = { parent := some a.size } := by
    have := Work.block_openBlock_new hlt
    rwa [show (blank a).arena.size = a.size + 1 by simp [blank]] at this
  have hsize : (named a name).arena.size = a.size + 2 := by
    simp [named, Work.modifyTop, blank]
  have htop : (named a name).top = a.size + 1 := by simp [named, Work.modifyTop, blank]
  -- The function's block is the one pushed behind the root.
  have hblock : (named a name).block (a.size + 1)
      = { parent := some a.size, info := .func { name := name, id := 0 } } := by
    have hlt₁ : (blank a).openBlock.top < (blank a).openBlock.arena.size := by simp [blank]
    rw [named, Work.block_modifyBlock_of_ne _ (Nat.ne_of_lt (Nat.lt_succ_self _)), Work.modifyTop]
    rw [show (blank a).openBlock.top = a.size + 1 by simp [blank]] at hlt₁ ⊢
    rw [Work.block_modifyBlock_self hlt₁, hnew]
  -- The root gets the function as its child and under its name.
  have hrootBlock : (named a name).block a.size
      = { parent := none, children := #[a.size + 1]
          objects := Dict.empty.insert name (.func (a.size + 1)) } := by
    have hne : (blank a).openBlock.top ≠ a.size := by simp [blank]
    have hlt₁ : a.size < (blank a).openBlock.arena.size := by
      simp only [blank, Work.size_openBlock, Array.size_push]
      exact Nat.lt_succ_of_lt (Nat.lt_succ_self _)
    rw [named, Work.block_modifyBlock_self (by rwa [Work.modifyTop, Work.size_modifyBlock]),
      Work.modifyTop, Work.block_modifyBlock_of_ne _ hne, root_openBlock_blank]
  -- The level of the function is open, without names so far.
  have hopen : Open (named a name) [⟨a.size + 1, []⟩] := {
    inner := by
      show (blank a).arena.size :: _ = _
      simp [blank]
    pending := rfl
    nodup := by simp
    lt := fun l hl => by
      rw [List.mem_singleton.1 hl, hsize]
      exact Nat.lt_succ_self _
    vars := fun l hl => by
      rw [List.mem_singleton.1 hl]
      show ((named a name).block (a.size + 1)).vars.size = _
      rw [hblock]
      rfl
    objects := fun l hl x => by
      rw [List.mem_singleton.1 hl]
      show ((named a name).block (a.size + 1)).objects.get? x = _
      rw [hblock]
      simp }
  refine ⟨named a name, reads_named a hts, ?_, rfl⟩
  exact {
    isOpen := hopen
    size := hsize
    info := by
      rw [htop, hblock]
      rfl
    vars := by
      rw [htop, hblock]
      rfl
    code := by rw [htop, hblock]
    children := by
      show ((named a name).block a.size).children = _
      rw [hrootBlock]
      rfl
    rootCode := by
      show ((named a name).block a.size).code = _
      rw [hrootBlock] }

/-- A change of the function's block alone. -/
theorem Header.modifyTop (h : Header w name params results) {f : Block → Block}
    {params' : List (String × Ty)} {results' : List Ty}
    (hbinds : Binds (f (w.block w.top)) (params'.map Prod.fst))
    (hinfo : (f (w.block w.top)).info
      = .func { name := name, id := 0, params := params'.map Prod.snd, results := results' })
    (hvars : (f (w.block w.top)).vars.toList = params'.map Prod.snd)
    (hcode : (f (w.block w.top)).code = #[]) : Header (w.modifyTop f) name params' results' := by
  have hlt := h.isOpen.top_lt
  have htop : w.top = w.root + 1 := h.isOpen.top
  -- The root is another block, so it is not touched.
  have hroot : (w.modifyTop f).block w.root = w.block w.root :=
    Work.block_modifyBlock_of_ne w (by rw [htop]; exact Nat.succ_ne_self _) f
  have hself : (w.modifyTop f).block w.top = f (w.block w.top) := Work.block_modifyBlock_self hlt f
  have hinner : (w.modifyTop f).inner = w.inner := rfl
  exact {
    isOpen := by
      refine h.isOpen.update hinner h.isOpen.pending (by simp [Work.modifyTop]) (fun id _ hne => ?_)
        (params'.map Prod.fst) ?_ ?_
      · exact Work.block_modifyBlock_of_ne w (Ne.symm hne) f
      · rw [hself]
        exact hbinds.1
      · rw [hself]
        exact hbinds.2
    size := by
      rw [Work.modifyTop, Work.size_modifyBlock]
      exact h.size
    info := (congrArg Block.info hself).trans hinfo
    vars := (congrArg (Array.toList ∘ Block.vars) hself).trans hvars
    code := (congrArg Block.code hself).trans hcode
    children := (congrArg Block.children hroot).trans h.children
    rootCode := (congrArg Block.code hroot).trans h.rootCode }

/-- Adds a parameter to the block of a function. -/
def addTyped (x : String) (t : Ty) (slot : Nat) (b : Block) : Block :=
  (b.declare x t).modifyFunc fun f => addParam f t slot false

/-- One parameter with its type. -/
theorem reads_param (h : Header w name params []) {x : String} {t : Ty}
    (hx : x ∉ params.map Prod.fst) (hts : TokensAt s i (.ident x :: .type t :: rest)) :
    ∃ w', Reads s 2 .funcParam i w .funcParam (i + 2) w' ∧
      Header w' name (params ++ [(x, t)]) [] ∧ w'.root = w.root := by
  have hbinds := h.isOpen.binds
  -- The name is free, as the header has bound the parameters before it and nothing else.
  have htaken : taken w x = false := by
    rw [taken, Dict.contains_eq, hbinds.2, if_neg hx, h.isOpen.pending]
    rfl
  have hparam : act s .param i w = .ok () { w with pending := [x] } := by
    have hname : s.name i = x := hts.name
    simp [act, param, hname, htaken, h.isOpen.pending, bind, EStateM.bind, get_apply, set_apply]
  have htype : act s .paramType (i + 1) { w with pending := [x] }
      = .ok () (w.modifyTop (addTyped x t (w.block w.top).vars.size)) := by
    have hw : { w with pending := [] } = w := by rw [← h.isOpen.pending]
    have hty : typeAt s (i + 1) = t := by rw [typeAt, hts.next.token?]
    have hset : addTyped x t (w.block w.top).vars.size = fun b =>
    (b.declare x t).modifyFunc fun f =>
      addParam f t (w.block w.top).vars.size false := rfl
    simp [act, hty, declareParams, declareParam, hw, hset, bind, EStateM.bind, get_apply, set_apply,
      pure_apply]
  -- The name waits for its type, and the type declares the parameter.
  have hfirst : Reads s 1 .funcParam i w .funcParamType (i + 1) { w with pending := [x] } :=
    .step hts.kind? fun fork => ⟨fork, advance_goTo rfl (by decide) hparam⟩
  have hsecond : Reads s 1 .funcParamType (i + 1) { w with pending := [x] } .funcParam (i + 1 + 1)
      (w.modifyTop (addTyped x t (w.block w.top).vars.size)) :=
    .step hts.next.kind? fun fork => ⟨fork, advance_goTo rfl (by decide) htype⟩
  have hdeclare := hbinds.declare hx t
  have hadd : ∀ slot, addTyped x t slot (w.block w.top)
      = { (w.block w.top).declare x t with
          info := .func { name := name, id := 0, params := params.map Prod.snd ++ [t] } } := by
    intro slot
    rw [addTyped, Block.modifyFunc]
    simp [Block.declare, h.info, addParam]
  refine ⟨_, hfirst.trans hsecond, h.modifyTop ?_ ?_ ?_ ?_, rfl⟩
  · rw [hadd, List.map_append]
    exact hdeclare
  · rw [hadd, List.map_append]
    rfl
  · rw [hadd, List.map_append, ← h.vars]
    simp [Block.declare]
  · rw [hadd]
    exact h.code

theorem notMem_of_nodup {p : String × Ty} {more : List (String × Ty)}
    (h : ((params ++ p :: more).map Prod.fst).Nodup) : p.1 ∉ params.map Prod.fst := by
  rw [List.map_append, List.map_cons, List.nodup_append] at h
  exact fun hmem => h.2.2 _ hmem _ (List.mem_cons_self ..) rfl

/-- The parameters of a function. -/
theorem reads_params (more : List (String × Ty)) (h : Header w name params [])
    (hnodup : ((params ++ more).map Prod.fst).Nodup)
    (hts : TokensAt s i (paramTokens more ++ rest)) :
    ∃ w', Reads s (paramTokens more).length .funcParam i w .funcParam
        (i + (paramTokens more).length) w' ∧
      Header w' name (params ++ more) [] ∧ w'.root = w.root := by
  induction more using paramTokens.induct generalizing params i w with
  | case1 => exact ⟨w, .refl s .funcParam i w, by rwa [List.append_nil], rfl⟩
  | case2 x t => exact reads_param h (notMem_of_nodup hnodup) hts
  | case3 x t ps hps ih =>
    rw [paramTokens] at hts ⊢
    · obtain ⟨w₁, hreads₁, hheader₁, hroot₁⟩ := reads_param h (notMem_of_nodup hnodup) hts
      have hcomma : Reads s 1 .funcParam (i + 2) w₁ .funcParam (i + 2 + 1) w₁ :=
        .step hts.next.next.kind? fun fork => ⟨fork, advance_goTo rfl (by decide) rfl⟩
      obtain ⟨w₂, hreads₂, hheader₂, hroot₂⟩ :=
        ih hheader₁ (by simpa using hnodup) hts.next.next.next
      refine ⟨w₂, ?_, by simpa using hheader₂, hroot₂.trans hroot₁⟩
      have hlen : (Token.ident x :: .type t :: .punct .comma :: paramTokens ps).length
          = 2 + 1 + (paramTokens ps).length := by
        simp only [List.length_cons]
        omega
      rw [hlen, ← Nat.add_assoc, ← Nat.add_assoc]
      exact (hreads₁.trans hcomma).trans hreads₂
    · exact hps
    · exact hps

/-- The result type and the left brace of a function. -/
theorem reads_result (h : Header w name params []) {t : Ty}
    (hts : TokensAt s i (.punct .rpar :: .type t :: .punct .lcurly :: rest)) :
    ∃ w', Reads s 4 .funcParam i w .body (i + 3) w' ∧ Header w' name params [t] ∧
      w'.root = w.root := by
  have hrpar : Reads s 1 .funcParam i w .funcResult (i + 1) w :=
    .step hts.kind? fun fork => ⟨fork, advance_goTo rfl (by decide) rfl⟩
  have hact : act s .result (i + 1) w = .ok () (w.modifyTop fun b => b.modifyFunc fun f =>
      { f with results := f.results ++ [t] }) := by
    rw [act, result, hts.next.token?]
    rfl
  have htype : Reads s 1 .funcResult (i + 1) w .funcResult (i + 1 + 1) _ :=
    .step hts.next.kind? fun fork => ⟨fork, advance_goTo rfl (by decide) hact⟩
  -- The brace is read again in the next state, since a function may have no result.
  have hstay : ∀ w, Reads s 1 .funcResult (i + 1 + 1) w .block (i + 1 + 1) w :=
    fun w => .step hts.next.next.kind? fun fork => ⟨fork, rfl⟩
  have hadd : (w.block w.top).modifyFunc (fun f => { f with results := f.results ++ [t] })
      = { w.block w.top with
          info := .func { name := name, id := 0, params := params.map Prod.snd, results := [t] }
            } := by
    rw [Block.modifyFunc, h.info]
    rfl
  refine ⟨_, ((hrpar.trans htype).trans (hstay _)).trans (reads_lcurly hts.next.next _),
    h.modifyTop ?_ ?_ ?_ ?_, rfl⟩
  · rw [hadd]
    exact h.isOpen.binds
  · rw [hadd]
  · rw [hadd]
    exact h.vars
  · rw [hadd]
    exact h.code

end header

/-! ### The unit -/

/-- Whether a registry knows a compiled function: its name, its signature, its variables and its
code. -/
structure Func.Known (f : Func) (r : Registry) (id : BlockId) (info : FuncInfo) : Prop where
  found : r.func? f.name = some id
  lt : id < r.arena.size
  isFunc : (r.block id).info = .func info
  name : info.name = f.name
  params : info.params = f.params.map Prod.snd
  results : info.results = [f.result]
  variadic : info.variadic = false
  vars : (r.block id).vars.toList = f.params.map Prod.snd ++ f.body.types
  code : f.body.Code r.arena [⟨id, f.params.map Prod.fst⟩] (opsOf (r.block id).code)

/-- The header of a function, from the start of the unit to the left brace. -/
theorem Func.reads_header (f : Func) (hnodup : (f.params.map Prod.fst).Nodup) {s : Source} {n : Nat}
    {rest : List Token} (a : Arena)
    (hts : TokensAt s 0 (lineEnds n ++ .keyword .func :: .ident f.name :: .punct .lpar ::
      (paramTokens f.params ++ .punct .rpar :: .type f.result :: .punct .lcurly :: rest))) :
    ∃ w, Reads s (n + (paramTokens f.params).length + 7) .root 0 (blank a) .body
        (n + (paramTokens f.params).length + 6) w ∧
      TokensAt s (n + (paramTokens f.params).length + 6) rest ∧
      Header w f.name f.params [f.result] ∧ w.root = a.size := by
  have hlines := reads_lineEnds .root rfl (by decide) hts (blank a)
  have hts₀ := hts.lineEnds
  rw [Nat.zero_add] at hlines hts₀
  obtain ⟨w₁, hreads₁, hheader₁, hroot₁⟩ := reads_func a hts₀
  have hts₁ := hts₀.next.next
  have hlpar : Reads s 1 .funcParams (n + 2) w₁ .funcParam (n + 2 + 1) w₁ :=
    .step hts₁.kind? fun fork => ⟨fork, advance_goTo rfl (by decide) rfl⟩
  obtain ⟨w₂, hreads₂, hheader₂, hroot₂⟩ :=
    reads_params f.params hheader₁ (by simpa using hnodup) hts₁.next
  rw [List.nil_append] at hheader₂
  have hts₂ := hts₁.next.skip
  obtain ⟨w₃, hreads₃, hheader₃, hroot₃⟩ := reads_result hheader₂ hts₂
  -- Empty lines, `func` and the name, `(`, the parameters, and `)` with the result and a brace.
  have hreads := (((hlines.trans hreads₁).trans hlpar).trans hreads₂).trans hreads₃
  have hts₃ := hts₂.next.next.next
  have hpos : n + 1 + 1 + 1 + (paramTokens f.params).length + 3
      = n + (paramTokens f.params).length + 6 := by omega
  rw [hpos] at hreads hts₃
  exact ⟨w₃, hreads.mono (by omega), hts₃, hheader₃, by rw [hroot₃, hroot₂, hroot₁]⟩

/-- The right brace of a function and the end of the unit. -/
theorem Header.reads_end {s : Source} {w w' : Work} {i m : Nat} {name : String}
    {params : List (String × Ty)} {results : List Ty} {names : List String} {ops : List Op}
    {types : List Ty} (h : Header w name params results) (hopen : Open w' [⟨w.root + 1, names⟩])
    (hgrow : Grows w w' ops types)
    (hts : TokensAt s i (.punct .rcurly :: (lineEnds m ++ [.newline]))) :
    Reads s (m + 2) .body i w' .root (i + m + 2) (leaveBlock w') ∧
      s.kind? (i + m + 2) = none ∧ w'.block w.root = w.block w.root := by
  have htop : w.top = w.root + 1 := h.isOpen.top
  have hroot : w'.block w.root = w.block w.root := by
    refine hgrow.keeps _ ?_ (by rw [htop]; exact Nat.ne_of_lt (Nat.lt_succ_self _))
    rw [h.size]
    exact Nat.lt_succ_of_lt (Nat.lt_succ_self _)
  have hinner : (leaveBlock w').inner = [] := congrArg List.tail hopen.inner
  -- The root has no code, so nothing is completed when the function's block is closed.
  have hclose : closeBlock s i w' = .ok () (leaveBlock w') := by
    refine closeBlock_branch (by rw [hopen.inner]; simp) ?_
    have htop' : (leaveBlock w').top = w.root := by
      rw [Work.top, hinner]
      exact hgrow.root
    rw [htop', hroot, h.rootCode]
    simp
  have hbrace := reads_rcurly hts.kind? hclose
  rw [hinner] at hbrace
  have hlines := reads_lineEnds .root rfl (by decide) hts.next (leaveBlock w')
  have hlast : TokensAt s (i + 1 + m) (lineEnds 1 ++ []) := hts.next.lineEnds
  have hline := reads_lineEnds .root rfl (by decide) hlast (leaveBlock w')
  have hend := hlast.lineEnds.kind?_nil
  have hpos : i + 1 + m + 1 = i + m + 2 := by omega
  rw [hpos] at hline hend
  exact ⟨((hbrace.trans hlines).trans hline).mono (by omega), hend, hroot⟩

/-- The signature of a function that is the first of its unit. -/
def Func.info (f : Func) : FuncInfo :=
  { name := f.name, id := 0, params := f.params.map Prod.snd, results := [f.result] }

/-- What compiling the tokens of a function leaves: the function's block behind the root, and behind
it the blocks of its body. -/
theorem Func.unit_tokens {f : Func} (hs : f.isScoped = true) {ts : List Token} (htok : f.Tokens ts)
    {s : Source} (hts : TokensAt s 0 (ts ++ [.newline])) (a : Arena) :
    ∃ w, unit s (blank a) = .ok () w ∧
      (w.block a.size).children = #[a.size + 1] ∧ a.size + 1 < w.arena.size ∧
      (w.block (a.size + 1)).info = .func f.info ∧
      (w.block (a.size + 1)).vars.toList = f.params.map Prod.snd ++ f.body.types ∧
      ∀ A : Arena, w.arena.size ≤ A.size →
        (∀ id, a.size + 1 < id → id < w.arena.size → A.block id = w.block id) →
        f.body.Code A [⟨a.size + 1, f.params.map Prod.fst⟩]
        (opsOf (w.block (a.size + 1)).code) := by
  rw [Func.isScoped, Bool.and_eq_true, decide_eq_true_eq] at hs
  -- The header, the body and what is behind the last brace are read one after the other.
  obtain ⟨n, m, bs, hbs, rfl⟩ := htok
  simp only [List.append_assoc, List.cons_append] at hts
  obtain ⟨w₁, hreads₁, hts₁, hheader, hroot⟩ := f.reads_header hs.1 a hts
  have htop : w₁.top = a.size + 1 := by rw [← hroot]; exact hheader.isOpen.top
  have hsettled : Settled w₁ := by
    intro targets
    rw [hheader.code]
    simp
  have hres : Resolves [⟨w₁.root + 1, f.params.map Prod.fst⟩] [f.params.map Prod.fst] := by
    intro x hx
    exact ⟨_, if_pos (by simpa using hx)⟩
  obtain ⟨names, w₂, ops, hreads₂, hopen₂, -, hgrow, hcode⟩ :=
    f.body.compiles hs.2 hbs hheader.isOpen hsettled hres hts₁
  obtain ⟨hreads₃, hend, hrootBlock⟩ := hheader.reads_end hopen₂ hgrow hts₁.skip
  obtain ⟨fork, k, hk, hread⟩ := ((hreads₁.trans hreads₂).trans hreads₃) 0
  -- every lexeme is read, so the fuel of the whole unit is enough
  have hsize : s.lexemes.size = n + 8 + (paramTokens f.params).length + bs.length + m := by
    have := hts.length
    simp only [lineEnds, List.length_append, List.length_cons, List.length_replicate,
      List.length_nil] at this
    omega
  have hread : readAll s (4 * (s.lexemes.size + 1)) {} (blank a) = .ok () (leaveBlock w₂) := by
    obtain ⟨fuel, hfuel⟩ := Nat.exists_eq_add_of_le' (show k ≤ 4 * (s.lexemes.size + 1) by omega)
    rw [hfuel]
    refine (hread fuel).trans ?_
    cases fuel <;> rw [readAll, hend] <;> rfl
  have hinfo := hgrow.info
  have hvars := hgrow.vars
  have hops := hgrow.code
  have hlt : a.size + 1 < w₂.arena.size := by
    have := hgrow.size
    rw [hheader.size, hroot] at this
    exact this
  rw [htop] at hinfo hvars hops
  rw [← htop, hheader.info, htop] at hinfo
  rw [← htop, hheader.vars, htop] at hvars
  rw [← htop, hheader.code, htop, opsOf_empty, List.nil_append] at hops
  have hchildren : (w₂.block a.size).children = #[a.size + 1] := by
    rw [← hroot, hrootBlock, hheader.children]
  refine ⟨leaveBlock w₂, ?_, hchildren, hlt, hinfo, hvars, fun A hA hblock => ?_⟩
  · have hinner : (leaveBlock w₂).inner = [] := congrArg List.tail hopen₂.inner
    have hroot₂ : (leaveBlock w₂).root = a.size := hgrow.root.trans hroot
    have hchildren' : ((leaveBlock w₂).block a.size).children = #[a.size + 1] := hchildren
    have hcontract : (Arena.block w₂.arena (a.size + 1)).contract? = none := by
      rw [Block.contract?, show Arena.block w₂.arena (a.size + 1) = w₂.block (a.size + 1) from rfl,
        hinfo]
    have hconditions : conditionsWrite w₂.arena (a.size + 1) = false := by
      rw [conditionsWrite, hcontract]
      rfl
    simp [unit, hread, hinner, hroot₂, hchildren', hconditions, bind, EStateM.bind, get_apply,
      pure_apply]
  · have : Body.Code A [⟨w₁.root + 1, f.params.map Prod.fst⟩] f.body ops :=
      hcode A ⟨hA, fun id hid hid' =>
        hblock id (by rw [hheader.size, hroot] at hid; exact hid) hid'⟩
    rw [hroot] at this
    exact hops ▸ this

/-- **Compiling a function**: every spelling of a scoped function compiles in every registry, which
then knows the function. -/
theorem Func.compile_of_writtenAs {f : Func} (hs : f.isScoped = true) {text : String}
    (htext : f.WrittenAs text) (r : Registry) (state : UInt32) :
    ∃ r' id info, r.compile state text = .ok r' ∧ f.Known r' id info := by
  obtain ⟨lexemes, ts, hread, htok, hts⟩ := Func.read_of_writtenAs hs htext
  obtain ⟨w, hunit, hchildren, hlt, hinfo, hvars, hcode⟩ := Func.unit_tokens hs htok
    (s := { lexemes, globals := r.objects, state := state, lateCalls := r.lateCalls }) hts r.arena
  have harena : r.arena.compile (r.scope state) text = .ok (r.arena.size, w.arena) :=
    Arena.compile_eq_ok.2 (Arena.compileUnit_of_ok hread hunit)
  have hcompile : r.compile state text
      = .ok (Registry.enter { r with arena := w.arena } (r.arena.size + 1)) := by
    have hblock : Registry.block { r with arena := w.arena } r.arena.size = w.block r.arena.size :=
      rfl
    refine Registry.compile_eq_ok.2 ⟨_, _, harena, ?_⟩
    simp [Registry.enterUnit, hblock, hchildren]
  -- the function gets a number when it is entered, which changes nothing else of its block
  obtain ⟨k, children, henter⟩ : ∃ k children,
      Registry.enter { r with arena := w.arena } (r.arena.size + 1)
        = { r with
            children := children
            arena := w.arena.modify (r.arena.size + 1) (·.setId k)
            objects := r.objects.insert f.name (.func (r.arena.size + 1)) } := by
    have hheader : (Registry.block { r with arena := w.arena } (r.arena.size + 1)).header?
        (r.arena.size + 1) = some (f.name, 0, .func (r.arena.size + 1)) := by
      rw [Block.header?, show Registry.block { r with arena := w.arena } (r.arena.size + 1)
        = w.block (r.arena.size + 1) from rfl, hinfo]
      rfl
    rw [Registry.enter, hheader]
    exact ⟨_, _, rfl⟩
  have hself : Arena.block (w.arena.modify (r.arena.size + 1) (·.setId k)) (r.arena.size + 1)
      = (w.block (r.arena.size + 1)).setId k := Arena.block_modify_self hlt _
  have hset : (w.block (r.arena.size + 1)).setId k = { w.block (r.arena.size + 1) with
      info := .func { f.info with id := k } } := by
    rw [Block.setId, Block.modifyFunc, hinfo]
    rfl
  rw [hset] at hself
  refine ⟨_, r.arena.size + 1, { f.info with id := k }, hcompile, ?_⟩
  rw [henter]
  refine ⟨?_, ?_, congrArg Block.info hself, rfl, rfl, rfl, rfl, ?_, ?_⟩
  · rw [Registry.func?, Dict.get?_insert, if_pos rfl]
  · simpa using hlt
  · exact (congrArg (Array.toList ∘ Block.vars) hself).trans hvars
  · have hops : opsOf (Arena.block (w.arena.modify (r.arena.size + 1) (·.setId k))
        (r.arena.size + 1)).code = opsOf (w.block (r.arena.size + 1)).code := by
      rw [hself]
    refine hops ▸ hcode _ (by simp) fun id hid _ => ?_
    exact Arena.block_modify_of_ne _ (Nat.ne_of_lt hid) _

end Covenant.Structured
