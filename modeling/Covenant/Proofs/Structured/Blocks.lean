import Covenant.Compile.Unit
import Covenant.Proofs.Arena
import Covenant.Proofs.Dict
import Covenant.Proofs.Structured.Code

/-!
# Blocks and the driver of the compiler

`Code` gives the code that the blocks of an arena hold for a tree: the body of an `if`, `else` or
`while` is a block of its own, the body of a loop ends in the instruction that repeats it, and an
`elif` is an `else` block around another `if`.

The driver of the compiler goes through the grammar table lexeme by lexeme; `Reads` says how far it
gets in some number of steps. Compiling a statement adds blocks at the end of the arena and changes
the innermost open block only (`Grows`); what the code of the statement is can be said of every
arena that keeps the added blocks (`Agrees`). A block inside a block is opened behind the
instruction that runs it (`Enters`), and closing it gives a `Child` of the blocks around it.
-/

namespace Covenant.Structured

open Covenant.Compile Covenant.Computation

/-! ### The code of trees -/

/-- Adds names to the innermost block. -/
def declareLevel (names : List String) : List Level → List Level
  | [] => []
  | l :: ls => { l with names := l.names ++ names } :: ls

/-- A block of the arena for a body inside some open blocks: its variables and its code. -/
structure Child (A : Arena) (Γ : List Level) (id : BlockId) (types : List Ty) (ops : List Op) :
    Prop where
  lt : id < A.size
  fresh : ∀ l ∈ Γ, l.id ≠ id
  plain : (A.block id).info = .plain
  vars : (A.block id).vars.toList = types
  code : opsOf (A.block id).code = ops

mutual

/-- The code of a statement. -/
def Stmt.Code (A : Arena) (Γ : List Level) : Stmt → List Op → Prop
  | .declare _, ops => ops = []
  | .assign xs es, ops => xs.length = es.length ∧ ∃ vs us,
      List.Forall₂ (fun x v => resolve x Γ = some v) xs vs ∧ codeAll Γ es = some us ∧
      ops = .assignVar (vs.map .var) :: (us ++ [.assign])
  | .return e, ops => ∃ us, e.code Γ = some us ∧ ops = us ++ [.return]
  | .break, ops => ops = [.break]
  | .continue, ops => ops = [.continue]
  | .if c b rest, ops => ∃ id us vs ws, c.code Γ = some us ∧ b.Code A (⟨id, []⟩ :: Γ) vs ∧
      Child A Γ id b.types vs ∧ rest.Code A Γ ws ∧ ops = us ++ .if id :: ws
  | .while c b, ops => ∃ id us vs, c.code Γ = some us ∧ b.Code A (⟨id, []⟩ :: Γ) vs ∧
      Child A Γ id b.types (vs ++ [.continue]) ∧ ops = .label :: (us ++ [.while id])

/-- The code of further branches. -/
def Branches.Code (A : Arena) (Γ : List Level) : Branches → List Op → Prop
  | .none, ops => ops = []
  | .else b, ops => ∃ id vs, b.Code A (⟨id, []⟩ :: Γ) vs ∧ Child A Γ id b.types vs ∧
      ops = [.else id]
  | .elif c b rest, ops => ∃ wrap id us vs ws, c.code (⟨wrap, []⟩ :: Γ) = some us ∧
      b.Code A (⟨id, []⟩ :: ⟨wrap, []⟩ :: Γ) vs ∧ Child A (⟨wrap, []⟩ :: Γ) id b.types vs ∧
      rest.Code A (⟨wrap, []⟩ :: Γ) ws ∧ Child A Γ wrap [] (us ++ .if id :: ws) ∧
      ops = [.else wrap]

/-- The code of the statements of a block. -/
def Body.Code (A : Arena) (Γ : List Level) : Body → List Op → Prop
  | .nil, ops => ops = []
  | .cons s rest, ops => ∃ us vs, s.Code A Γ us ∧ rest.Code A (declareLevel s.names Γ) vs ∧
      ops = us ++ vs

end

/-! ### The driver -/

/-- How the driver gets from one lexeme to another in at most `n` steps. -/
def Reads (s : Source) (n : Nat) (st : Grammar.State) (i : Nat) (w : Work) (st' : Grammar.State)
    (i' : Nat) (w' : Work) : Prop :=
  ∀ fork, ∃ fork', ∃ k ≤ n, ∀ fuel,
    readAll s (fuel + k) ⟨st, fork, i⟩ w = readAll s fuel ⟨st', fork', i'⟩ w'

namespace Reads

variable {s : Source} {n n' i i' i'' : Nat} {st st' st'' : Grammar.State} {w w' w'' : Work}

theorem refl (s : Source) (st : Grammar.State) (i : Nat) (w : Work) : Reads s 0 st i w st i w :=
  fun fork => ⟨fork, 0, Nat.le_refl 0, fun _ => rfl⟩

theorem trans (h : Reads s n st i w st' i' w') (h' : Reads s n' st' i' w' st'' i'' w'') :
    Reads s (n + n') st i w st'' i'' w'' := by
  intro fork
  obtain ⟨fork₁, k₁, hk₁, h₁⟩ := h fork
  obtain ⟨fork₂, k₂, hk₂, h₂⟩ := h' fork₁
  refine ⟨fork₂, k₂ + k₁, by omega, fun fuel => ?_⟩
  rw [← Nat.add_assoc, h₁, h₂]

theorem mono (h : Reads s n st i w st' i' w') (hn : n ≤ n') : Reads s n' st i w st' i' w' := by
  intro fork
  obtain ⟨fork', k, hk, h⟩ := h fork
  exact ⟨fork', k, Nat.le_trans hk hn, h⟩

end Reads

theorem readAll_succ {s : Source} {c c' : Cursor} {k : Kind} {w w' : Work}
    (hk : s.kind? c.position = some k) (h : advance s k c w = .ok c' w') (fuel : Nat) :
    readAll s (fuel + 1) c w = readAll s fuel c' w' := by
  rw [readAll, hk]
  exact bind_of_ok h

theorem Reads.step {s : Source} {st st' : Grammar.State} {i i' : Nat} {w w' : Work} {k : Kind}
    (hk : s.kind? i = some k)
    (h : ∀ fork, ∃ fork', advance s k ⟨st, fork, i⟩ w = .ok ⟨st', fork', i'⟩ w') :
    Reads s 1 st i w st' i' w' := by
  intro fork
  obtain ⟨fork', h⟩ := h fork
  exact ⟨fork', 1, Nat.le_refl 1, readAll_succ hk h⟩

/-- An entry that only changes the state and carries out an action. -/
theorem advance_goTo {s : Source} {st next : Grammar.State} {action : Grammar.Action} {k : Kind}
    {fork i : Nat} {w w' : Work} (h : Grammar.entry st k = Grammar.goTo next action)
    (hne : next ≠ .eval) (hact : act s action i w = .ok () w') :
    advance s k ⟨st, fork, i⟩ w = .ok ⟨next, fork, i + 1⟩ w' := by
  have hnext : (next == Grammar.State.eval) = false := by simp [hne]
  simp [advance, h, Grammar.goTo, hnext, stateBehind, bind, EStateM.bind,
    pure_apply, get_apply, hact]

/-! ### The compiler's work -/

/-- The blocks that are open at a statement, with the variables they have declared. -/
structure Open (w : Work) (Γ : List Level) : Prop where
  inner : w.inner = Γ.map Level.id
  pending : w.pending = []
  nodup : (Γ.map Level.id).Nodup
  lt : ∀ l ∈ Γ, l.id < w.arena.size
  vars : ∀ l ∈ Γ, (w.block l.id).vars.size = l.names.length
  objects : ∀ l ∈ Γ, ∀ x, (w.block l.id).objects.get? x
    = if x ∈ l.names then some (.var (l.names.idxOf x)) else none

/-- The innermost open block gets code and variables, other blocks only come at the end. -/
structure Grows (w w' : Work) (ops : List Op) (types : List Ty) : Prop where
  root : w'.root = w.root
  size : w.arena.size ≤ w'.arena.size
  keeps : ∀ id < w.arena.size, id ≠ w.top → w'.block id = w.block id
  info : (w'.block w.top).info = (w.block w.top).info
  code : opsOf (w'.block w.top).code = opsOf (w.block w.top).code ++ ops
  vars : (w'.block w.top).vars.toList = (w.block w.top).vars.toList ++ types

/-- Whether an arena has the blocks that were added between two points. -/
structure Agrees (A : Arena) (w w' : Work) : Prop where
  size : w'.arena.size ≤ A.size
  block : ∀ id, w.arena.size ≤ id → id < w'.arena.size → A.block id = w'.block id

/-- Whether the innermost open block is between two statements: no assignment is under way. -/
def Settled (w : Work) : Prop := ∀ targets, (opsOf (w.block w.top).code).getLast? ≠ some
    (.assignVar targets)

/-- The blocks that are open find a variable where the levels do. -/
theorem findVarIn_of_resolve {w : Work} {x : String} {v : VarRef} (Γ : List Level)
    (hobj : ∀ l ∈ Γ, ∀ x, (w.block l.id).objects.get? x
      = if x ∈ l.names then some (.var (l.names.idxOf x)) else none)
    (hv : resolve x Γ = some v) (ids : List BlockId) :
    w.findVarIn x (Γ.map Level.id ++ ids) = some (.var v) := by
  induction Γ with
  | nil => exact absurd hv (by simp [resolve])
  | cons l Γ ih =>
    have hl := hobj l (List.mem_cons_self ..) x
    rw [List.map_cons, List.cons_append, Work.findVarIn, hl]
    rw [resolve] at hv
    by_cases hx : x ∈ l.names
    · rw [if_pos hx] at hv ⊢
      rw [Option.some.injEq] at hv
      rw [← hv]
    · rw [if_neg hx] at hv ⊢
      exact ih (fun l hl => hobj l (List.mem_cons_of_mem _ hl)) hv

namespace Open

variable {w w' : Work} {l : Level} {Γ : List Level}

theorem finds (h : Open w Γ) : Finds w Γ := by
  intro x v hv
  rw [Work.findVar, Work.opened, h.inner]
  exact findVarIn_of_resolve Γ h.objects hv _

theorem top (h : Open w (l :: Γ)) : w.top = l.id := by
  rw [Work.top, h.inner]
  rfl

theorem top_lt (h : Open w (l :: Γ)) : w.top < w.arena.size := by
  rw [h.top]
  exact h.lt l (List.mem_cons_self ..)

/-- Names of the blocks further out are other numbers. -/
theorem ne_top (h : Open w (l :: Γ)) {l' : Level} (hl : l' ∈ Γ) : l'.id ≠ w.top := by
  rw [h.top]
  have hnodup := h.nodup
  rw [List.map_cons, List.nodup_cons] at hnodup
  rintro heq
  exact hnodup.1 (heq ▸ List.mem_map_of_mem hl)

/-- What keeps the blocks further out and describes the innermost one keeps the description. -/
theorem update (h : Open w (l :: Γ)) (hinner : w'.inner = w.inner) (hpending : w'.pending = [])
    (hsize : w.arena.size ≤ w'.arena.size)
    (hkeeps : ∀ id < w.arena.size, id ≠ w.top → w'.block id = w.block id) (names : List String)
    (hvars : (w'.block w.top).vars.size = names.length)
    (hobj : ∀ x, (w'.block w.top).objects.get? x
      = if x ∈ names then some (.var (names.idxOf x)) else none) :
    Open w' (⟨l.id, names⟩ :: Γ) where
  inner := hinner.trans h.inner
  pending := hpending
  nodup := h.nodup
  lt := by
    intro l' hl
    rcases List.mem_cons.1 hl with rfl | hl
    · exact Nat.lt_of_lt_of_le (h.lt l (List.mem_cons_self ..)) hsize
    · exact Nat.lt_of_lt_of_le (h.lt l' (List.mem_cons_of_mem _ hl)) hsize
  vars := by
    intro l' hl
    -- The innermost level has the new names; the blocks of the others are kept.
    rcases List.mem_cons.1 hl with rfl | hl
    · exact h.top ▸ hvars
    · rw [hkeeps _ (h.lt l' (List.mem_cons_of_mem _ hl)) (h.ne_top hl)]
      exact h.vars l' (List.mem_cons_of_mem _ hl)
  objects := by
    intro l' hl
    rcases List.mem_cons.1 hl with rfl | hl
    · exact h.top ▸ hobj
    · rw [hkeeps _ (h.lt l' (List.mem_cons_of_mem _ hl)) (h.ne_top hl)]
      exact h.objects l' (List.mem_cons_of_mem _ hl)

/-- A change of the innermost block that declares nothing. -/
theorem modifyTop (h : Open w (l :: Γ)) {f : Block → Block} (hvars : ∀ b, (f b).vars = b.vars)
    (hobj : ∀ b, (f b).objects = b.objects) : Open (w.modifyTop f) (l :: Γ) := by
  have hl := List.mem_cons_self (a := l) (l := Γ)
  have hinner : (w.modifyTop f).inner = w.inner := rfl
  refine h.update hinner h.pending (by simp [Work.modifyTop]) (fun id _ hne => ?_) l.names ?_ ?_
  · exact Work.block_modifyBlock_of_ne w (Ne.symm hne) f
  · rw [Work.modifyTop, Work.block_modifyBlock_self h.top_lt, hvars, h.top]
    exact h.vars l hl
  · intro x
    rw [Work.modifyTop, Work.block_modifyBlock_self h.top_lt, hobj, h.top]
    exact h.objects l hl x

end Open

namespace Grows

variable {w w₁ w₂ : Work} {us vs : List Op} {ts ts' : List Ty}

theorem refl (w : Work) : Grows w w [] [] where
  root := rfl
  size := Nat.le_refl _
  keeps := fun _ _ _ => rfl
  info := rfl
  code := by simp
  vars := by simp

/-- Two pieces of code, one behind the other. -/
theorem trans (h : Grows w w₁ us ts) (htop : w₁.top = w.top) (h' : Grows w₁ w₂ vs ts') :
    Grows w w₂ (us ++ vs) (ts ++ ts') where
  root := h'.root.trans h.root
  size := Nat.le_trans h.size h'.size
  keeps := fun id hid hne => by
    rw [h'.keeps id (Nat.lt_of_lt_of_le hid h.size) (htop ▸ hne), h.keeps id hid hne]
  info := by rw [← htop, h'.info, htop, h.info]
  code := by rw [← htop, h'.code, htop, h.code, List.append_assoc]
  vars := by rw [← htop, h'.vars, htop, h.vars, List.append_assoc]

/-- A change of the innermost block alone. -/
theorem modifyTop (hlt : w.top < w.arena.size) {f : Block → Block}
    (hinfo : ∀ b, (f b).info = b.info) (hcode : opsOf (f (w.block w.top)).code
      = opsOf (w.block w.top).code ++ us)
    (hvars : (f (w.block w.top)).vars.toList = (w.block w.top).vars.toList ++ ts) :
    Grows w (w.modifyTop f) us ts where
  root := rfl
  size := by simp [Work.modifyTop]
  keeps := fun _ _ hne => Work.block_modifyBlock_of_ne w (Ne.symm hne) f
  info := by rw [Work.modifyTop, Work.block_modifyBlock_self hlt, hinfo]
  code := by rw [Work.modifyTop, Work.block_modifyBlock_self hlt, hcode]
  vars := by rw [Work.modifyTop, Work.block_modifyBlock_self hlt, hvars]

/-- The blocks added by the first of two changes are still there behind the second. -/
theorem agrees (h : Grows w w₁ us ts) (hlt : w.top < w.arena.size) (htop : w₁.top = w.top)
    (h' : Grows w₁ w₂ vs ts') {A : Arena} (hA : Agrees A w w₂) :
    Agrees A w w₁ ∧ Agrees A w₁ w₂ := by
  refine ⟨⟨Nat.le_trans h'.size hA.size, fun id hid hlt' => ?_⟩,
    ⟨hA.size, fun id hid hlt' => hA.block id (Nat.le_trans h.size hid) hlt'⟩⟩
  rw [hA.block id hid (Nat.lt_of_lt_of_le hlt' h'.size),
    h'.keeps id hlt' (htop ▸ Nat.ne_of_gt (Nat.lt_of_lt_of_le hlt hid))]

end Grows

/-! ### Entries of the table -/

/-- Adding an instruction to the innermost block. -/
theorem Open.emit {w : Work} {l : Level} {Γ : List Level} (h : Open w (l :: Γ)) (op : Op)
    (line : Nat) : Open (w.modifyTop (·.emit ⟨op, line⟩)) (l :: Γ) ∧
      Grows w (w.modifyTop (·.emit ⟨op, line⟩)) [op] [] :=
  ⟨h.modifyTop (fun _ => rfl) fun _ => rfl,
    .modifyTop h.top_lt (fun _ => rfl) (by simp [Block.emit]) (by simp [Block.emit])⟩

/-- Adding code to the innermost block. -/
theorem Open.append {w : Work} {l : Level} {Γ : List Level} (h : Open w (l :: Γ))
    (code : Array Instr) :
    Open (w.modifyTop fun b => { b with code := b.code ++ code }) (l :: Γ) ∧
      Grows w (w.modifyTop fun b => { b with code := b.code ++ code }) (opsOf code) [] :=
  ⟨h.modifyTop (fun _ => rfl) fun _ => rfl,
    .modifyTop h.top_lt (fun _ => rfl) (by simp) (by simp)⟩

/-- The expressions of an entry, with the label in front of them if the entry asks for one. -/
theorem entryExpression_tokens {s : Source} {w : Work} {l : Level} {Γ : List Level}
    (hopen : Open w (l :: Γ)) {es : List Expr} (hne : es ≠ []) (hg : ∀ e ∈ es, e.isGrouped = true)
    {ops : List Op} (hops : codeAll (l :: Γ) es = some ops) {i : Nat}
    {t : Token} {rest : List Token} (hts : TokensAt s (i + 1) (exprTokens es ++ t :: rest))
    (ht : endsExpr t = true) (f : Grammar.Flags) (hf : f.toFork = false)
    (hstart : f.toBlock = true → (exprTokens es).head? ≠ some (.punct .lcurly)) :
    ∃ w₁, entryExpression s f i w = .ok (i + 1 + (exprTokens es).length) w₁ ∧ Open w₁ (l :: Γ) ∧
      w₁.arena.size = w.arena.size ∧ Grows w w₁ ((if f.label then [.label] else []) ++ ops) [] := by
  -- the work behind the label, if there is one
  obtain ⟨w₀, hlabel, hopen₀, hsize₀, hgrow₀⟩ : ∃ w₀,
      (if f.label = true then emit .label (s.line i) else pure ()) w = .ok () w₀ ∧
      Open w₀ (l :: Γ) ∧ w₀.arena.size = w.arena.size ∧
      Grows w w₀ (if f.label then [.label] else []) [] := by
    cases hl : f.label with
    | true =>
      obtain ⟨h₁, h₂⟩ := hopen.emit .label (s.line i)
      exact ⟨_, rfl, h₁, by simp [Work.modifyTop], h₂⟩
    | false => exact ⟨w, rfl, hopen, rfl, .refl w⟩
  obtain ⟨code, hcode, hexpr⟩ := expression_tokens hopen₀.finds hne hg hops hts ht hstart
  obtain ⟨hopen₁, hgrow₁⟩ := hopen₀.append code
  have hnonempty : code ≠ #[] := by
    rintro rfl
    exact codeAll_ne_nil hne hops hcode.symm
  have htop₀ : w₀.top = w.top := by rw [hopen₀.top, hopen.top]
  refine ⟨_, ?_, hopen₁, by simpa [Work.modifyTop] using hsize₀,
    by simpa [hcode] using hgrow₀.trans htop₀ hgrow₁⟩
  have hsize : ((w₀.modifyTop fun b => { b with code := b.code ++ code }).block
      (w₀.modifyTop fun b => { b with code := b.code ++ code }).top).code.size
      ≠ (w₀.block w₀.top).code.size := by
    have htop : (w₀.modifyTop fun b => { b with code := b.code ++ code }).top = w₀.top := rfl
    rw [htop, Work.modifyTop, Work.block_modifyBlock_self hopen₀.top_lt]
    simpa using hnonempty
  unfold entryExpression
  cases hl : f.label with
  | true =>
    rw [hl, if_pos rfl] at hlabel
    simp [bind, EStateM.bind, hlabel, get_apply, pure_apply, hf, hexpr, hsize]
  | false =>
    rw [hl] at hlabel
    cases hlabel
    simp [bind, EStateM.bind, get_apply, pure_apply, hf, hexpr, hsize]

/-- An entry with one expression, which has no braces if a block follows. -/
theorem Expr.entryExpression_tokens {s : Source} {w : Work} {l : Level} {Γ : List Level}
    (hopen : Open w (l :: Γ)) {e : Expr} (hg : e.isGrouped = true) {ops : List Op}
    (hops : e.code (l :: Γ) = some ops) {i : Nat} {t : Token} {rest : List Token}
    (hts : TokensAt s (i + 1) (e.tokens ++ t :: rest)) (ht : endsExpr t = true) (f : Grammar.Flags)
    (hf : f.toFork = false) (hbraceless : f.toBlock = true → e.isBraceless = true) :
    ∃ w₁, entryExpression s f i w = .ok (i + 1 + e.tokens.length) w₁ ∧ Open w₁ (l :: Γ) ∧
      w₁.arena.size = w.arena.size ∧ Grows w w₁ ((if f.label then [.label] else []) ++ ops) [] := by
  have hone : exprTokens [e] = e.tokens := by rw [exprTokens]
  rw [← hone] at hts ⊢
  refine Structured.entryExpression_tokens hopen (List.cons_ne_nil e []) (fun e' he => ?_)
    (codeAll_singleton hops) hts ht f hf fun hb hhead => ?_
  · rwa [List.mem_singleton.1 he]
  · rw [hone] at hhead
    exact Expr.lcurly_notMem (hbraceless hb) (List.mem_of_mem_head? hhead)

/-- An entry that asks for an expression: the block it opens and its action come behind. -/
theorem advance_eval {s : Source} {st : Grammar.State} {f : Grammar.Flags}
    {action : Grammar.Action} {k : Kind} {i stop : Nat} {w w₁ w₂ : Work} (fork : Nat)
    (h : Grammar.entry st k = .go .eval f action) (hfork : f.toFork = false)
    (hstay : f.stay = false) (hpop : f.pop = false)
    (hexpr : entryExpression s f i w = .ok stop w₁)
    (hact : act s action i (if f.push then w₁.openBlock else w₁) = .ok () w₂) :
    ∃ fork', advance s k ⟨st, fork, i⟩ w
      = .ok ⟨if f.toBody then .body else if f.toBlock then .block else st, fork', stop⟩ w₂ := by
  refine ⟨if f.fork then i else fork, ?_⟩
  unfold advance
  rw [h]
  cases hp : f.push with
  | true =>
    rw [hp, if_pos rfl] at hact
    simp [hstay, hpop, hp, hfork, hexpr, hact, stateBehind, bind, EStateM.bind, pure_apply,
      get_apply, modify_apply]
  | false =>
    rw [hp] at hact
    have hact : act s action i w₁ = .ok () w₂ := hact
    simp [hstay, hpop, hp, hfork, hexpr, hact, stateBehind, bind, EStateM.bind, pure_apply,
      get_apply]

/-! ### Blocks inside blocks -/

/-- A block is opened behind some code of the block around it. -/
structure Enters (w w' : Work) (ops : List Op) : Prop where
  inner : w'.inner = w.arena.size :: w.inner
  root : w'.root = w.root
  pending : w'.pending = w.pending
  size : w'.arena.size = w.arena.size + 1
  keeps : ∀ id < w.arena.size, id ≠ w.top → w'.block id = w.block id
  info : (w'.block w.top).info = (w.block w.top).info
  code : opsOf (w'.block w.top).code = opsOf (w.block w.top).code ++ ops
  vars : (w'.block w.top).vars = (w.block w.top).vars
  objects : ∀ x, (w'.block w.top).objects.get? x = (w.block w.top).objects.get? x
  new : w'.block w.arena.size = { parent := some w.top }

namespace Enters

variable {w w₁ w₂ w₃ : Work} {l : Level} {Γ : List Level} {ops us vs : List Op} {types : List Ty}
  {names : List String}

theorem top (h : Enters w w₁ ops) : w₁.top = w.arena.size := by
  rw [Work.top, h.inner]
  rfl

/-- Opening a block and then adding to the block around it. -/
theorem openBlock (hlt : w.top < w.arena.size) {f : Block → Block}
    (hinfo : ∀ b, (f b).info = b.info) (hcode : ∀ b, opsOf (f b).code = opsOf b.code ++ ops)
    (hvars : ∀ b, (f b).vars = b.vars) (hobj : ∀ b, (f b).objects = b.objects) :
    Enters w (w.openBlock.modifyBlock w.top f) ops := by
  have hlt' : w.top < w.openBlock.arena.size := by
    rw [Work.size_openBlock]
    exact Nat.lt_succ_of_lt hlt
  have htop := Work.block_openBlock_top hlt
  exact {
    inner := rfl
    root := rfl
    pending := rfl
    size := by simp
    keeps := fun id hid hne => by
      rw [Work.block_modifyBlock_of_ne _ (Ne.symm hne), Work.block_openBlock w hid hne]
    info := by rw [Work.block_modifyBlock_self hlt', hinfo, htop]
    code := by rw [Work.block_modifyBlock_self hlt', hcode, htop]
    vars := by rw [Work.block_modifyBlock_self hlt', hvars, htop]
    objects := fun x => by rw [Work.block_modifyBlock_self hlt', hobj, htop]
    new := by rw [Work.block_modifyBlock_of_ne _ (Nat.ne_of_lt hlt), Work.block_openBlock_new hlt] }

/-- Code in front of the code behind which a block is opened. -/
theorem append (hgrow : Grows w w₁ us []) (hopen : Open w (l :: Γ)) (hopen₁ : Open w₁ (l :: Γ))
    (hsize : w₁.arena.size = w.arena.size) (h : Enters w₁ w₂ ops) :
    Enters w w₂ (us ++ ops) := by
  have htop : w₁.top = w.top := by rw [hopen.top, hopen₁.top]
  have hinner : w₁.inner = w.inner := by rw [hopen.inner, hopen₁.inner]
  exact {
    inner := by rw [h.inner, hsize, hinner]
    root := by rw [h.root, hgrow.root]
    pending := by rw [h.pending, hopen.pending, hopen₁.pending]
    size := by rw [h.size, hsize]
    keeps := fun id hid hne => by rw [h.keeps id (hsize ▸ hid) (htop ▸ hne), hgrow.keeps id hid hne]
    info := by rw [← htop, h.info, htop, hgrow.info]
    code := by rw [← htop, h.code, htop, hgrow.code, List.append_assoc]
    vars := by
      rw [← htop, h.vars, htop]
      apply Array.toList_inj.1
      rw [hgrow.vars, List.append_nil]
    objects := fun x => by
      rw [← htop, h.objects, hopen₁.top, hopen₁.objects l (List.mem_cons_self ..), ← hopen.top,
        hopen.top, hopen.objects l (List.mem_cons_self ..)]
    new := by rw [← hsize, h.new, htop] }

/-- A block that is entered is open, with no names of its own. -/
theorem isOpen (h : Enters w w₁ ops) (hopen : Open w (l :: Γ)) :
    Open w₁ (⟨w.arena.size, []⟩ :: l :: Γ) where
  inner := by rw [h.inner, hopen.inner]; rfl
  pending := h.pending.trans hopen.pending
  nodup := by
    rw [List.map_cons, List.nodup_cons]
    refine ⟨fun hmem => ?_, hopen.nodup⟩
    obtain ⟨l', hl', heq⟩ := List.mem_map.1 hmem
    exact absurd (hopen.lt l' hl') (heq ▸ Nat.lt_irrefl _)
  lt := by
    intro l' hl'
    rw [h.size]
    rcases List.mem_cons.1 hl' with rfl | hl'
    · exact Nat.lt_succ_self _
    · exact Nat.lt_succ_of_lt (hopen.lt l' hl')
  vars := by
    intro l' hl'
    rcases List.mem_cons.1 hl' with rfl | hl'
    · rw [h.new]
      rfl
    · -- The innermost level has a new instruction and nothing
      -- else; the levels around it are not touched.
      by_cases hid : l'.id = w.top
      · rw [hid, h.vars, ← hid]
        exact hopen.vars l' hl'
      · rw [h.keeps _ (hopen.lt l' hl') hid]
        exact hopen.vars l' hl'
  objects := by
    intro l' hl' x
    rcases List.mem_cons.1 hl' with rfl | hl'
    · rw [h.new]
      simp
    · by_cases hid : l'.id = w.top
      · rw [hid, h.objects, ← hid]
        exact hopen.objects l' hl' x
      · rw [h.keeps _ (hopen.lt l' hl') hid]
        exact hopen.objects l' hl' x

/-- What the arena of a closed block has to do with what came before: the block is a child with the
code and variables it got, and the blocks added inside it are there. -/
theorem child (h : Enters w w₁ ops) (hgrow : Grows w₁ w₂ vs types) (hopen : Open w (l :: Γ))
    (hsize : w₃.arena.size = w₂.arena.size)
    (hkeeps : ∀ id, w.arena.size < id → w₃.block id = w₂.block id)
    (hinfo : (w₃.block w.arena.size).info = (w₂.block w.arena.size).info)
    (hcode : opsOf (w₃.block w.arena.size).code = opsOf (w₂.block w.arena.size).code ++ us)
    (hvars : (w₃.block w.arena.size).vars = (w₂.block w.arena.size).vars) {A : Arena}
    (hA : Agrees A w w₃) :
    Child A (l :: Γ) w.arena.size types (vs ++ us) ∧ Agrees A w₁ w₂ := by
  have htop := h.top
  have hlt : w.arena.size < w₂.arena.size := by
    have := hgrow.size
    rw [h.size] at this
    exact this
  -- The block is closed at `w₃`, so it is the one that `A` keeps.
  have hblock : A.block w.arena.size = w₃.block w.arena.size :=
    hA.block _ (Nat.le_refl _) (hsize ▸ hlt)
  have hinfo₂ := hgrow.info
  have hcode₂ := hgrow.code
  have hvars₂ := hgrow.vars
  rw [htop, h.new] at hinfo₂ hcode₂ hvars₂
  refine ⟨⟨?_, fun l' hl' => ?_, ?_, ?_, ?_⟩, ⟨hsize ▸ hA.size, fun id hid hlt' => ?_⟩⟩
  · exact Nat.lt_of_lt_of_le hlt (hsize ▸ hA.size)
  · exact Nat.ne_of_lt (hopen.lt l' hl')
  · rw [hblock, hinfo, hinfo₂]
  · rw [hblock, hvars, hvars₂]
    rfl
  · rw [hblock, hcode, hcode₂]
    rfl
  · rw [h.size] at hid
    rw [hA.block id (Nat.le_of_succ_le hid) (hsize ▸ hlt'), hkeeps id hid]

/-- What the block around was left with is still so when the block inside is complete. -/
theorem block_top (h : Enters w w₁ ops) (hgrow : Grows w₁ w₂ vs types)
    (hlt : w.top < w.arena.size) :
    w₂.block w.top = w₁.block w.top := by
  refine hgrow.keeps _ ?_ ?_
  · rw [h.size]
    exact Nat.lt_succ_of_lt hlt
  · rw [h.top]
    exact Nat.ne_of_lt hlt

end Enters

/-- The work without its innermost block. -/
def leaveBlock (w : Work) : Work := { w with inner := w.inner.tail }

@[simp] theorem arena_leaveBlock (w : Work) : (leaveBlock w).arena = w.arena := rfl

/-- A block without its last instruction. -/
def dropInstr (b : Block) : Block := { b with code := b.code.pop }

/-- Closing a block forgets its names. -/
theorem Open.tail {w : Work} {l : Level} {Γ : List Level} (h : Open w (l :: Γ)) :
    Open (leaveBlock w) Γ where
  inner := congrArg List.tail h.inner
  pending := h.pending
  nodup := (List.nodup_cons.1 h.nodup).2
  lt := fun l' hl => h.lt l' (List.mem_cons_of_mem _ hl)
  vars := fun l' hl => h.vars l' (List.mem_cons_of_mem _ hl)
  objects := fun l' hl => h.objects l' (List.mem_cons_of_mem _ hl)

/-- Blocks that are not open may change. -/
theorem Open.modifyBlock {w : Work} {Γ : List Level} (h : Open w Γ) {id : BlockId}
    (hid : ∀ l ∈ Γ, l.id ≠ id) (f : Block → Block) : Open (w.modifyBlock id f) Γ where
  inner := h.inner
  pending := h.pending
  nodup := h.nodup
  lt := fun l hl => by
    rw [Work.size_modifyBlock]
    exact h.lt l hl
  vars := fun l hl => by
    rw [Work.block_modifyBlock_of_ne w (Ne.symm (hid l hl))]
    exact h.vars l hl
  objects := fun l hl => by
    rw [Work.block_modifyBlock_of_ne w (Ne.symm (hid l hl))]
    exact h.objects l hl

/-- A right brace closes the innermost block. -/
theorem reads_rcurly {s : Source} {w w' : Work} {j : Nat} (hk : s.kind? j = some (.punct .rcurly))
    (hclose : closeBlock s j w = .ok () w') :
    Reads s 1 .body j w (if w'.inner.isEmpty then .root else .body) (j + 1) w' := by
  refine .step hk fun fork => ⟨fork, ?_⟩
  have hentry : Grammar.entry .body (.punct .rcurly) = .go .body { pop := true } .none := rfl
  unfold advance
  rw [hentry]
  simp [hclose, stateBehind, act, bind, EStateM.bind, pure_apply,
    get_apply]

theorem back?_op (code : Array Instr) : code.back?.map Instr.op = (opsOf code).getLast? := by
  rw [opsOf, List.getLast?_map, Array.getLast?_toList]

theorem opsOf_pop (code : Array Instr) : opsOf code.pop = (opsOf code).dropLast := by
  rw [opsOf, opsOf, Array.toList_pop, List.map_dropLast]

/-- Closing a block behind anything but the repetition of a loop. -/
theorem closeBlock_branch {s : Source} {w : Work} {j : Nat} (hinner : w.inner ≠ [])
    (hlast : (opsOf (w.block (leaveBlock w).top).code).getLast? ≠ some .continue) :
    closeBlock s j w = .ok () (leaveBlock w) := by
  obtain ⟨child, rest, hinner⟩ := List.exists_cons_of_ne_nil hinner
  have hleave : { w with inner := rest } = leaveBlock w := by rw [leaveBlock, hinner]; rfl
  have hblock : (leaveBlock w).block (leaveBlock w).top = w.block (leaveBlock w).top := rfl
  rw [← back?_op] at hlast
  unfold closeBlock
  simp only [bind, EStateM.bind, get_apply, hinner, hleave, hblock]
  cases hback : (w.block (leaveBlock w).top).code.back? with
  | none => rfl
  | some i =>
    have hnot : dangling (w.block (leaveBlock w).top).code child = false := by
      unfold dangling
      rw [hback]
      rw [hback, Option.map_some] at hlast
      split
      · rename_i h _
        exact absurd h hlast
      · rfl
    simp [hnot, set_apply]

/-- Closing the body of a loop: the instruction that repeats the loop moves into the body. -/
theorem closeBlock_loop {s : Source} {w : Work} {j : Nat} {child : BlockId} {rest : List BlockId}
    (hinner : w.inner = child :: rest) {us : List Op}
    (hcode : opsOf (w.block (leaveBlock w).top).code = us ++ [.while child, .continue]) :
    ∃ line, closeBlock s j w = .ok ()
      (((leaveBlock w).modifyTop dropInstr).modifyBlock child (·.emit ⟨.continue, line⟩)) := by
  have hleave : { w with inner := rest } = leaveBlock w := by rw [leaveBlock, hinner]; rfl
  have hblock : (leaveBlock w).block (leaveBlock w).top = w.block (leaveBlock w).top := rfl
  have hlast := back?_op (w.block (leaveBlock w).top).code
  have hprev := back?_op (w.block (leaveBlock w).top).code.pop
  have hsplit : us ++ [.while child, .continue] = (us ++ [.while child]) ++ [Op.continue] := by simp
  rw [opsOf_pop, hcode, hsplit, List.dropLast_concat, List.getLast?_concat] at hprev
  rw [hcode, hsplit, List.getLast?_concat] at hlast
  obtain ⟨i, hback, hop⟩ := Option.map_eq_some_iff.1 hlast
  have hdangling : dangling (w.block (leaveBlock w).top).code child = true := by
    unfold dangling
    rw [hlast, hprev]
    exact beq_self_eq_true child
  have hi : i = ⟨.continue, i.line⟩ := by rw [← hop]
  refine ⟨i.line, ?_⟩
  unfold closeBlock
  simp only [bind, EStateM.bind, get_apply, hinner, hleave, hblock, hback, hdangling, if_true,
    set_apply]
  rw [← hi]
  rfl

section close

variable {s : Source} {w w₁ w₂ : Work} {l : Level} {Γ : List Level} {j : Nat} {ops vs : List Op}
  {types : List Ty} {names : List String}

theorem Enters.size_lt (h : Enters w w₁ ops) (hgrow : Grows w₁ w₂ vs types) :
    w.arena.size < w₂.arena.size := by
  have := hgrow.size
  rwa [h.size] at this

theorem Enters.keeps_inside (h : Enters w w₁ ops) (hgrow : Grows w₁ w₂ vs types) {id : BlockId}
    (hid : id < w.arena.size) (hne : id ≠ w.top) : w₂.block id = w.block id := by
  rw [hgrow.keeps id, h.keeps id hid hne]
  · rw [h.size]
    exact Nat.lt_succ_of_lt hid
  · rw [h.top]
    exact Nat.ne_of_lt hid

/-- The end of the body of an `if` or `else`. -/
theorem Enters.close_branch (us : List Op) {op : Op} (h : Enters w w₁ (us ++ [op]))
    (hop : op ≠ .continue) (hopen : Open w (l :: Γ))
    (hopen₂ : Open w₂ (⟨w.arena.size, names⟩ :: l :: Γ)) (hgrow : Grows w₁ w₂ vs types)
    (hk : s.kind? j = some (.punct .rcurly)) :
    ∃ w₃, Reads s 1 .body j w₂ .body (j + 1) w₃ ∧ Open w₃ (l :: Γ) ∧ Grows w w₃ (us ++ [op]) [] ∧
      ∀ A, Agrees A w w₃ → Child A (l :: Γ) w.arena.size types vs ∧ Agrees A w₁ w₂ := by
  have hopen₃ := hopen₂.tail
  have hid : (leaveBlock w₂).top = w.top := by rw [hopen₃.top, hopen.top]
  have htop := h.block_top hgrow hopen.top_lt
  -- A branch does not end with `continue`, so closing it completes nothing.
  have hlast : (opsOf (w₂.block (leaveBlock w₂).top).code).getLast? ≠ some .continue := by
    rw [hid, htop, h.code, ← List.append_assoc, List.getLast?_concat]
    simpa using hop
  have hclose := closeBlock_branch (s := s) (j := j) (by rw [hopen₂.inner]; simp) hlast
  have hreads := reads_rcurly hk hclose
  rw [hopen₃.inner] at hreads
  refine ⟨_, hreads, hopen₃, ?_, fun A hA => ?_⟩
  · have hsize := Nat.le_of_lt (h.size_lt hgrow)
    refine ⟨hgrow.root.trans h.root, hsize,
      fun id hid hne => h.keeps_inside hgrow hid hne, ?_, ?_, ?_⟩
    · exact (congrArg Block.info htop).trans h.info
    · exact (congrArg (opsOf ∘ Block.code) htop).trans h.code
    · rw [List.append_nil]
      exact congrArg Array.toList ((congrArg Block.vars htop).trans h.vars)
  · have hA₂ : Agrees A w w₂ := ⟨hA.size, hA.block⟩
    rw [← List.append_nil vs]
    exact h.child hgrow hopen rfl (fun _ _ => rfl) rfl (List.append_nil _).symm rfl hA₂

/-- The end of the body of a loop. -/
theorem Enters.close_loop {us : List Op} (h : Enters w w₁ (us ++ [.while w.arena.size, .continue]))
    (hopen : Open w (l :: Γ)) (hopen₂ : Open w₂ (⟨w.arena.size, names⟩ :: l :: Γ))
    (hgrow : Grows w₁ w₂ vs types) (hk : s.kind? j = some (.punct .rcurly)) :
    ∃ w₃, Reads s 1 .body j w₂ .body (j + 1) w₃ ∧ Open w₃ (l :: Γ) ∧
      Grows w w₃ (us ++ [.while w.arena.size]) [] ∧
      ∀ A, Agrees A w w₃ →
        Child A (l :: Γ) w.arena.size types (vs ++ [.continue]) ∧ Agrees A w₁ w₂ := by
  have hid : (leaveBlock w₂).top = w.top := by rw [hopen₂.tail.top, hopen.top]
  have htop := h.block_top hgrow hopen.top_lt
  have hne : w.top ≠ w.arena.size := Nat.ne_of_lt hopen.top_lt
  have hcode : opsOf (w₂.block (leaveBlock w₂).top).code
      = (opsOf (w.block w.top).code ++ us) ++ [.while w.arena.size, .continue] := by
    rw [hid, htop, h.code, List.append_assoc]
  obtain ⟨line, hclose⟩ := closeBlock_loop (s := s) (j := j) hopen₂.inner hcode
  -- the open blocks are still described, since the body is not among them
  have hopen₃ : Open (((leaveBlock w₂).modifyTop dropInstr).modifyBlock w.arena.size
      (·.emit ⟨.continue, line⟩)) (l :: Γ) :=
    Open.modifyBlock (hopen₂.tail.modifyTop (f := dropInstr) (fun _ => rfl) fun _ => rfl)
      (fun l' hl' => Nat.ne_of_lt (hopen.lt l' hl')) _
  have haround : (((leaveBlock w₂).modifyTop dropInstr).modifyBlock w.arena.size
      (·.emit ⟨.continue, line⟩)).block w.top = dropInstr (w₂.block w.top) := by
    rw [Work.block_modifyBlock_of_ne _ (Ne.symm hne), Work.modifyTop, hid]
    have hlt := Nat.lt_trans hopen.top_lt (h.size_lt hgrow)
    exact Work.block_modifyBlock_self (w := leaveBlock w₂) hlt _
  have hbody : (((leaveBlock w₂).modifyTop dropInstr).modifyBlock w.arena.size
      (·.emit ⟨.continue, line⟩)).block w.arena.size
        = (w₂.block w.arena.size).emit ⟨.continue, line⟩ := by
    rw [Work.block_modifyBlock_self (by simpa [Work.modifyTop] using h.size_lt hgrow),
      Work.modifyTop, hid, Work.block_modifyBlock_of_ne _ hne]
    rfl
  have hother : ∀ id, id ≠ w.top → id ≠ w.arena.size →
      (((leaveBlock w₂).modifyTop dropInstr).modifyBlock w.arena.size
        (·.emit ⟨.continue, line⟩)).block id = w₂.block id := by
    intro id h₁ h₂
    rw [Work.block_modifyBlock_of_ne _ (Ne.symm h₂), Work.modifyTop, hid,
      Work.block_modifyBlock_of_ne _ (Ne.symm h₁)]
    rfl
  have hreads := reads_rcurly hk hclose
  rw [hopen₃.inner] at hreads
  refine ⟨_, hreads, hopen₃, ?grows, fun A hA => ?child⟩
  case grows =>
    exact {
      root := hgrow.root.trans h.root
      size := by simpa [Work.modifyTop] using Nat.le_of_lt (h.size_lt hgrow)
      keeps := fun id hid hne' => by rw [hother id hne' (Nat.ne_of_lt hid),
        h.keeps_inside hgrow hid hne']
      info := by
        rw [haround, htop]
        exact h.info
      code := by
        rw [haround, htop, dropInstr, opsOf_pop, h.code]
        simp
      vars := by
        rw [haround, htop, List.append_nil]
        exact congrArg Array.toList h.vars }
  case child =>
    refine h.child hgrow hopen (by simp [Work.modifyTop]) (fun id hid => ?_) ?_ ?_ ?_ hA
    · exact hother id (Nat.ne_of_gt (Nat.lt_trans hopen.top_lt hid)) (Nat.ne_of_gt hid)
    · rw [hbody]
      rfl
    · rw [hbody]
      simp [Block.emit]
    · rw [hbody]
      rfl

end close

end Covenant.Structured
