import Covenant.Proofs.Structured.Blocks

/-!
# Statements compile to their code

Every statement of the structured language, followed by a line end or a right brace, compiles to its
code. The proof goes by recursion on the tree: `reads_if`, `reads_else` and `reads_while` open the
blocks of control statements, the recursion fills them, and `Enters.close_branch` and
`Enters.close_loop` close them. The main statement is `Body.compiles`.
-/

namespace Covenant.Structured

open Covenant.Compile Covenant.Computation

/-! ### Names in scope -/

/-- Whether every name that scopes know stands for a variable of the open blocks. -/
def Resolves (Γ : List Level) (scopes : List (List String)) : Prop :=
  ∀ x, scopes.any (·.contains x) = true → ∃ v, resolve x Γ = some v

theorem Resolves.push {Γ : List Level} {scopes : List (List String)} (h : Resolves Γ scopes)
    (id : BlockId) : Resolves (⟨id, []⟩ :: Γ) ([] :: scopes) := by
  intro x hx
  obtain ⟨v, hv⟩ := h x (by simpa using hx)
  exact ⟨v, by simp [resolve, hv]⟩

/-- A block that declares nothing hides nothing. -/
theorem Resolves.wrap {Γ : List Level} {scopes : List (List String)} (h : Resolves Γ scopes)
    (id : BlockId) : Resolves (⟨id, []⟩ :: Γ) scopes := by
  intro x hx
  obtain ⟨v, hv⟩ := h x hx
  exact ⟨v, by simp [resolve, hv]⟩

/-- Declared names are in scope. -/
theorem Resolves.declare {l : Level} {Γ : List Level} {scopes : List (List String)}
    (h : Resolves (l :: Γ) (l.names :: scopes)) (names : List String) :
    Resolves (declareLevel names (l :: Γ)) (declareIn names (l.names :: scopes)) := by
  intro x hx
  simp only [declareIn, List.any_cons, Bool.or_eq_true] at hx
  rw [declareLevel, resolve]
  by_cases hmem : x ∈ l.names ++ names
  · exact ⟨_, if_pos hmem⟩
  · rw [if_neg hmem]
    have hnot : x ∉ l.names := fun hm => hmem (List.mem_append_left _ hm)
    rcases hx with hx | hx
    · exact absurd (by simpa using hx) hmem
    · obtain ⟨v, hv⟩ := h x (by simp only [List.any_cons, Bool.or_eq_true]; exact Or.inr hx)
      rw [resolve, if_neg hnot] at hv
      exact ⟨v, hv⟩

section code

variable {Γ : List Level} {scopes : List (List String)}

mutual

/-- An operand whose variables are visible is an item. -/
theorem Operand.exists_item (h : Resolves Γ scopes) (o : Operand) (ho : o.isScoped scopes = true) :
    ∃ i, o.item? Γ = some i := by
  cases o with
  | literal l => exact ⟨_, rfl⟩
  | var x =>
    obtain ⟨v, hv⟩ := h x ho
    exact ⟨.var v, by rw [Operand.item?, hv]; rfl⟩
  | array os =>
    obtain ⟨is, his⟩ := os.exists_items h ho
    exact ⟨.array is, by rw [Operand.item?, his]; rfl⟩
  | map es =>
    obtain ⟨bs, hbs⟩ := es.exists_bindings h ho
    exact ⟨.map bs, by rw [Operand.item?, hbs]; rfl⟩

/-- Operands whose names are in scope can be compiled. -/
theorem Operands.exists_items (h : Resolves Γ scopes) (os : Operands)
    (hos : os.isScoped scopes = true) : ∃ is, os.items? Γ = some is := by
  cases os with
  | nil => exact ⟨_, rfl⟩
  | cons o rest =>
    rw [Operands.isScoped, Bool.and_eq_true] at hos
    obtain ⟨i, hi⟩ := o.exists_item h hos.1
    obtain ⟨is, his⟩ := rest.exists_items h hos.2
    exact ⟨i :: is, by rw [Operands.items?, hi, his]; rfl⟩

/-- So can the entries of a map literal. -/
theorem Entries.exists_bindings (h : Resolves Γ scopes) (es : Entries)
    (hes : es.isScoped scopes = true) : ∃ bs, es.bindings? Γ = some bs := by
  cases es with
  | nil => exact ⟨_, rfl⟩
  | cons k o rest =>
    rw [Entries.isScoped, Bool.and_eq_true] at hes
    obtain ⟨i, hi⟩ := o.exists_item h hes.1
    obtain ⟨bs, hbs⟩ := rest.exists_bindings h hes.2
    exact ⟨(k.text, i) :: bs, by rw [Entries.bindings?, hi, hbs]; rfl⟩

end

/-- So can expressions. -/
theorem Expr.exists_term (h : Resolves Γ scopes) {e : Expr} (he : e.isScoped scopes = true) :
    ∃ t, e.term? Γ = some t := by
  induction e with
  | operand o =>
    obtain ⟨i, hi⟩ := o.exists_item h he
    exact ⟨.leaf i, by rw [term?, hi]; rfl⟩
  | unary op e ih =>
    obtain ⟨t, ht⟩ := ih he
    exact ⟨.unary op t, by rw [term?, ht]; rfl⟩
  | binary op a b iha ihb =>
    rw [isScoped, Bool.and_eq_true] at he
    obtain ⟨x, hx⟩ := iha he.1
    obtain ⟨y, hy⟩ := ihb he.2
    exact ⟨.binary op x y, by rw [term?, hx, hy]; rfl⟩
  | paren e ih => exact ih he

theorem Expr.exists_code (h : Resolves Γ scopes) {e : Expr} (he : e.isScoped scopes = true) :
    ∃ ops, e.code Γ = some ops := by
  obtain ⟨t, ht⟩ := Expr.exists_term h he
  exact ⟨t.code, by rw [code, ht]; rfl⟩

/-- So can several of them. -/
theorem exists_codeAll (h : Resolves Γ scopes) {es : List Expr}
    (hes : ∀ e ∈ es, e.isScoped scopes = true) : ∃ ops, codeAll Γ es = some ops := by
  induction es with
  | nil => exact ⟨[], rfl⟩
  | cons e es ih =>
    obtain ⟨us, hus⟩ := Expr.exists_code h (hes e (List.mem_cons_self ..))
    obtain ⟨vs, hvs⟩ := ih fun e he => hes e (List.mem_cons_of_mem _ he)
    exact ⟨us ++ vs, by rw [codeAll, hus, hvs]; rfl⟩

/-- Names that are in scope are targets. -/
theorem exists_targets (h : Resolves Γ scopes) {xs : List String}
    (hxs : ∀ x ∈ xs, scopes.any (·.contains x) = true) :
    ∃ vs, List.Forall₂ (fun x v => resolve x Γ = some v) xs vs := by
  induction xs with
  | nil => exact ⟨[], .nil⟩
  | cons x xs ih =>
    obtain ⟨v, hv⟩ := h x (hxs x (List.mem_cons_self ..))
    obtain ⟨vs, hvs⟩ := ih fun x hx => hxs x (List.mem_cons_of_mem _ hx)
    exact ⟨v :: vs, .cons hv hvs⟩

end code

/-! ### Simple statements -/

section simple

variable {s : Source} {w : Work} {l : Level} {Γ : List Level} {i : Nat} {rest : List Token}

/-- Whether a token ends a statement. -/
def endsStmt : Token → Bool
  | .newline => true
  | .punct p => p == .rcurly
  | _ => false

theorem endsExpr_of_endsStmt {t : Token} (h : endsStmt t = true) : endsExpr t = true := by
  cases t with
  | newline => rfl
  | punct p => cases p <;> first | rfl | exact absurd h (by decide)
  | _ => exact absurd h (by simp [endsStmt])

theorem TokensAt.lineEnds {n : Nat} (hts : TokensAt s i (lineEnds n ++ rest)) :
    TokensAt s (i + n) rest := by
  have := hts.skip
  rwa [Structured.lineEnds, List.length_replicate] at this

/-- Line ends do nothing in a state that allows them. -/
theorem reads_lineEnds (st : Grammar.State)
    (hst : Grammar.entry st .newline = Grammar.goTo st .none) (hne : st ≠ .eval) {n : Nat}
    (hts : TokensAt s i (lineEnds n ++ rest)) (w : Work) : Reads s n st i w st (i + n) w := by
  induction n generalizing i with
  | zero => exact .refl s st i w
  | succ n ih =>
    have hts : TokensAt s i (.newline :: (lineEnds n ++ rest)) := hts
    have hstep : Reads s 1 st i w st (i + 1) w :=
      .step hts.kind? fun fork => ⟨fork, advance_goTo hst hne rfl⟩
    have := hstep.trans (ih hts.next)
    rwa [Nat.add_comm 1 n, Nat.add_assoc, Nat.add_comm 1 n] at this

/-- The left brace of a block. -/
theorem reads_lcurly (hts : TokensAt s i (.punct .lcurly :: rest)) (w : Work) :
    Reads s 1 .block i w .body (i + 1) w :=
  .step hts.kind? fun fork => ⟨fork, advance_goTo rfl (by decide) rfl⟩

/-- What reading a statement, or some, comes to: the innermost block is again between two
statements, and what was added is the code of the tree. -/
def Compiled (s : Source) (w : Work) (Γ : List Level) (i n : Nat) (types : List Ty)
    (P : Arena → List Op → Prop) : Prop :=
  ∃ w' ops, Reads s (2 * n) .body i w .body (i + n) w' ∧ Open w' Γ ∧ Settled w' ∧
    Grows w w' ops types ∧ ∀ A, Agrees A w w' → P A ops

/-- Code that ends in another command than a target leaves the block between two statements. -/
theorem settled_of_concat {w w' : Work} (us : List Op) {op : Op} {types : List Ty}
    (h : Grows w w' (us ++ [op]) types) (htop : w'.top = w.top)
    (hop : ∀ targets, op ≠ .assignVar targets) : Settled w' := by
  intro targets
  rw [htop, h.code, ← List.append_assoc, List.getLast?_concat]
  simpa using hop targets

theorem Open.top_eq {w w' : Work} {l l' : Level} {Γ Γ' : List Level} (h : Open w (l :: Γ))
    (h' : Open w' (l' :: Γ')) (hid : l'.id = l.id) : w'.top = w.top := by
  rw [h.top, h'.top, hid]

/-- A statement of one keyword and one instruction. -/
theorem compiled_emit (hopen : Open w (l :: Γ)) {k : Keyword} {op : Op} {action : Grammar.Action}
    (hentry : Grammar.entry .body (.keyword k) = Grammar.goTo .body action)
    (hact : act s action i = emit op (s.line i)) (hop : ∀ targets, op ≠ .assignVar targets)
    (hts : TokensAt s i (.keyword k :: rest)) :
    Compiled s w (l :: Γ) i 1 [] fun _ ops => ops = [op] := by
  obtain ⟨hopen₁, hgrow⟩ := hopen.emit op (s.line i)
  refine ⟨_, [op], ?_, hopen₁, settled_of_concat [] hgrow rfl hop, hgrow, fun _ _ => rfl⟩
  have hstep : Reads s 1 .body i w .body (i + 1) (w.modifyTop (·.emit ⟨op, s.line i⟩)) :=
    .step hts.kind? fun fork => ⟨fork, advance_goTo hentry (by decide) (by rw [hact]; rfl)⟩
  exact hstep.mono (by decide)

/-- A `return` with its expression. -/
theorem compiled_return (hopen : Open w (l :: Γ)) {e : Expr} (hg : e.isGrouped = true)
    {us : List Op} (hus : e.code (l :: Γ) = some us) {t : Token} (ht : endsStmt t = true)
    (hts : TokensAt s i (.keyword .return :: (e.tokens ++ t :: rest))) :
    Compiled s w (l :: Γ) i (1 + e.tokens.length) [] fun A ops =>
      Stmt.Code A (l :: Γ) (.return e) ops := by
  obtain ⟨w₁, hexpr, hopen₁, -, hgrow₁⟩ := e.entryExpression_tokens hopen hg hus hts.next
    (endsExpr_of_endsStmt ht) {} rfl fun h => absurd h Bool.false_ne_true
  obtain ⟨hopen₂, hgrow₂⟩ := hopen₁.emit .return (s.line i)
  have hgrow := hgrow₁.trans (hopen.top_eq hopen₁ rfl) hgrow₂
  refine ⟨_, us ++ [.return], ?_, hopen₂,
    settled_of_concat us hgrow (hopen.top_eq hopen₂ rfl) (by simp), hgrow, fun A _ => ?_⟩
  rotate_left
  · simp only [Stmt.Code]
    exact ⟨us, hus, rfl⟩
  have hentry : Grammar.entry .body (.keyword .return) = .go .eval {} .return := rfl
  have hstep : Reads s 1 .body i w .body _ _ :=
    .step hts.kind? fun fork => advance_eval fork hentry rfl rfl rfl hexpr rfl
  rw [Nat.add_assoc] at hstep
  exact hstep.mono (by omega)

/-- An assignment is read twice up to what follows its first target: the name decides only then what
the statement is. -/
theorem reads_target {x : String} {t : Token} (ht : t = .punct .comma ∨ t = .punct .eq)
    (hts : TokensAt s i (.ident x :: t :: rest)) (w : Work) : Reads s 2 .body i w .assign i w := by
  intro fork
  refine ⟨i, 2, Nat.le_refl 2, fun fuel => ?_⟩
  have hname : advance s .ident ⟨.body, fork, i⟩ w = .ok ⟨.assignEval, i, i + 1⟩ w := rfl
  have hback : advance s t.kind ⟨.assignEval, i, i + 1⟩ w = .ok ⟨.assign, i, i⟩ w := by
    rcases ht with rfl | rfl <;> rfl
  rw [show fuel + 2 = fuel + 1 + 1 from rfl, readAll_succ hts.kind? hname,
    readAll_succ hts.next.kind? hback]

/-- Behind what is no assignment in progress, a target begins one. -/
theorem addTarget_of_settled {b : Block} {t : Target} {line : Nat}
    (h : ∀ targets, (opsOf b.code).getLast? ≠ some (.assignVar targets)) :
    addTarget b t line = b.emit ⟨.assignVar [t], line⟩ := by
  unfold addTarget
  split
  · rename_i targets line' hback
    have hlast := back?_op b.code
    rw [hback] at hlast
    exact absurd hlast.symm (h targets)
  · rfl

/-- A further target joins those that the last instruction has. -/
theorem addTarget_emit (b : Block) (targets : List Target) (t : Target) (line n : Nat) :
    addTarget (b.emit ⟨.assignVar targets, line⟩) t n
      = b.emit ⟨.assignVar (targets ++ [t]), line⟩ := by
  simp [addTarget, Block.emit]

theorem modifyTop_addTarget (w : Work) (targets : List Target) (t : Target) (line n : Nat) :
    (w.modifyTop (·.emit ⟨.assignVar targets, line⟩)).modifyTop (fun b => addTarget b t n)
      = w.modifyTop (·.emit ⟨.assignVar (targets ++ [t]), line⟩) := by
  change (w.modifyBlock w.top _).modifyBlock w.top _ = _
  rw [Work.modifyBlock_modifyBlock]
  exact Work.modifyBlock_congr (addTarget_emit ..)

/-- A name that is a target of an assignment. -/
theorem act_assignVar (hopen : Open w (l :: Γ)) {x : String} {v : VarRef}
    (hv : resolve x (l :: Γ) = some v) (hts : TokensAt s i (.ident x :: rest)) :
    act s .assignVar i w = .ok () (w.modifyTop fun b => addTarget b (.var v) (s.line i)) := by
  have hname : s.name i = x := hts.name
  have hkind : s.kind? i ≠ some .extend := by rw [hts.kind?]; simp [Token.kind]
  simp [act, Compile.assignVar, hname, hkind, hopen.finds x v hv, bind, EStateM.bind, pure_apply,
    get_apply, set_apply]

/-- The targets of an assignment are gathered in one instruction behind the code of `w`. The work
`w'` is the one with the targets so far. -/
theorem reads_targets {w' : Work} (targets : List Target) {xs : List String} {vs : List VarRef}
    (hopen : Open w (l :: Γ)) (hopen' : Open w' (l :: Γ))
    (hadd : ∀ t n, ∃ line, w'.modifyTop (fun b => addTarget b t n)
      = w.modifyTop (·.emit ⟨.assignVar (targets ++ [t]), line⟩))
    (hne : xs ≠ []) (hvs : List.Forall₂ (fun x v => resolve x (l :: Γ) = some v) xs vs)
    (hts : TokensAt s i (nameTokens xs ++ rest)) :
    ∃ line, Reads s (nameTokens xs).length .assign i w' .assign (i + (nameTokens xs).length)
      (w.modifyTop (·.emit ⟨.assignVar (targets ++ vs.map .var), line⟩)) := by
  induction xs using nameTokens.induct generalizing i w' targets vs with
  | case1 => exact absurd rfl hne
  | case2 x =>
    cases hvs with
    | @cons _ v _ vs hv hvs =>
      cases hvs
      obtain ⟨line, hline⟩ := hadd (.var v) (s.line i)
      have hact := act_assignVar hopen' hv hts
      rw [hline] at hact
      exact ⟨line, .step hts.kind? fun fork => ⟨fork, advance_goTo rfl (by decide) hact⟩⟩
  | case3 x xs hxs ih =>
    rw [nameTokens] at hts ⊢
    · cases hvs with
      | @cons _ v _ vs hv hvs =>
        obtain ⟨line, hline⟩ := hadd (.var v) (s.line i)
        have hact := act_assignVar hopen' hv hts
        rw [hline] at hact
        have hname : Reads s 1 .assign i w' .assign (i + 1) _ :=
          .step hts.kind? fun fork => ⟨fork, advance_goTo rfl (by decide) hact⟩
        have hcomma := fun w => (Reads.step (w := w) hts.next.kind? fun fork =>
          ⟨fork, advance_goTo rfl (by decide) rfl⟩ : Reads s 1 .assign
            (i + 1) w .assign (i + 1 + 1) w)
        -- Another target is added to the instruction that the first one emitted.
        obtain ⟨line', hrest⟩ := ih (targets ++ [.var v])
          (hopen.emit (.assignVar (targets ++ [.var v])) line).1
          (fun t n => ⟨line, modifyTop_addTarget w _ t line n⟩) hxs hvs hts.next.next
        refine ⟨line', ?_⟩
        have hlen : (Token.ident x :: .punct .comma :: nameTokens xs).length
            = 1 + 1 + (nameTokens xs).length := by
          rw [List.length_cons, List.length_cons]
          omega
        have hall := (hname.trans (hcomma _)).trans hrest
        rw [List.append_assoc, List.singleton_append] at hall
        rwa [hlen, ← Nat.add_assoc, ← Nat.add_assoc]
    · exact hxs
    · exact hxs

/-- What the tokens of some names start with. -/
theorem nameTokens_starts {xs : List String} (hne : xs ≠ []) (ts : List Token) :
    ∃ x t rest, nameTokens xs ++ .punct .eq :: ts = .ident x :: t :: rest ∧
      (t = .punct .comma ∨ t = .punct .eq) := by
  cases xs using nameTokens.fun_cases with
  | case1 => exact absurd rfl hne
  | case2 x => exact ⟨x, _, ts, rfl, .inr rfl⟩
  | case3 x xs hxs => exact ⟨x, _, _, by rw [nameTokens]; rfl; exact hxs, .inl rfl⟩

/-- An assignment with its targets and its expressions. -/
theorem compiled_assign (hopen : Open w (l :: Γ)) (hsettled : Settled w) {xs : List String}
    {vs : List VarRef} (hne : xs ≠ [])
    (hvs : List.Forall₂ (fun x v => resolve x (l :: Γ) = some v) xs vs) {es : List Expr}
    (hlength : xs.length = es.length) (hg : ∀ e ∈ es, e.isGrouped = true) {us : List Op}
    (hus : codeAll (l :: Γ) es = some us) {t : Token} (ht : endsStmt t = true)
    (hts : TokensAt s i (nameTokens xs ++ .punct .eq :: (exprTokens es ++ t :: rest))) :
    Compiled s w (l :: Γ) i ((nameTokens xs).length + 1 + (exprTokens es).length) [] fun A ops =>
      Stmt.Code A (l :: Γ) (.assign xs es) ops := by
  have hes : es ≠ [] := by
    rintro rfl
    exact hne (List.length_eq_zero_iff.1 hlength)
  -- The first name is read twice; with the second reading the targets are gathered.
  have hback : Reads s 2 .body i w .assign i w := by
    obtain ⟨x, t', rest', heq, ht'⟩ := nameTokens_starts hne (exprTokens es ++ t :: rest)
    rw [heq] at hts
    exact reads_target ht' hts w
  obtain ⟨line, htargets⟩ := reads_targets [] hopen hopen
    (fun t n => ⟨n, Work.modifyBlock_congr (addTarget_of_settled hsettled)⟩) hne hvs hts
  obtain ⟨hopen₁, hgrow₁⟩ := hopen.emit (.assignVar (vs.map .var)) line
  have heq := hts.skip
  obtain ⟨w₂, hexpr, hopen₂, -, hgrow₂⟩ := entryExpression_tokens hopen₁ hes hg hus heq.next
    (endsExpr_of_endsStmt ht) { toBody := true, mustEval := true } rfl
    fun h => absurd h Bool.false_ne_true
  obtain ⟨hopen₃, hgrow₃⟩ := hopen₂.emit .assign (s.line (i + (nameTokens xs).length))
  have hgrow := (hgrow₁.trans rfl hgrow₂).trans (hopen.top_eq hopen₂ rfl) hgrow₃
  refine ⟨_, _, ?_, hopen₃, settled_of_concat _ hgrow (hopen.top_eq hopen₃ rfl) (by simp), hgrow,
    fun A _ => ?_⟩
  · have hentry : Grammar.entry .assign (.punct .eq)
      = .go .eval { toBody := true, mustEval := true } .assign := rfl
    have heval : Reads s 1 .assign (i + (nameTokens xs).length) _ .body _ _ :=
      .step heq.kind? fun fork => advance_eval fork hentry rfl rfl rfl hexpr rfl
    have hall := (hback.trans htargets).trans heval
    have hpos : 1 ≤ (nameTokens xs).length := by
      obtain ⟨x, xs, rfl⟩ := List.exists_cons_of_ne_nil hne
      cases xs with
      | nil => exact Nat.le_refl 1
      | cons x' xs => exact Nat.succ_le_succ (Nat.zero_le _)
    rw [show i + (nameTokens xs).length + 1 + (exprTokens es).length
      = i + ((nameTokens xs).length + 1 + (exprTokens es).length) by omega] at hall
    exact hall.mono (by omega)
  · simp only [Stmt.Code]
    exact ⟨hlength, vs, us, hvs, hus, by simp⟩

end simple

/-! ### Declarations -/

/-- Declares variables of one type in order. -/
def declareAll (names : List String) (ty : Ty) (b : Block) : Block :=
  names.foldl (fun b x => b.declare x ty) b

theorem declareAll_cons (x : String) (names : List String) (ty : Ty) (b : Block) :
    declareAll (x :: names) ty b = declareAll names ty (b.declare x ty) := rfl

theorem info_declareAll (names : List String) (ty : Ty) (b : Block) :
    (declareAll names ty b).info = b.info := by
  induction names generalizing b with
  | nil => rfl
  | cons x names ih => rw [declareAll_cons, ih]; rfl

theorem code_declareAll (names : List String) (ty : Ty) (b : Block) :
    (declareAll names ty b).code = b.code := by
  induction names generalizing b with
  | nil => rfl
  | cons x names ih => rw [declareAll_cons, ih]; rfl

theorem vars_declareAll (names : List String) (ty : Ty) (b : Block) :
    (declareAll names ty b).vars.toList = b.vars.toList ++ names.map fun _ => ty := by
  induction names generalizing b with
  | nil => simp [declareAll]
  | cons x names ih => rw [declareAll_cons, ih]; simp [Block.declare]

/-- The names of a block by slot. -/
def Binds (b : Block) (names : List String) : Prop :=
  b.vars.size = names.length ∧ ∀ x, b.objects.get? x
    = if x ∈ names then some (.var (names.idxOf x)) else none

/-- Declaring a new name gives it the next slot. -/
theorem Binds.declare {b : Block} {names : List String} (h : Binds b names) {x : String}
    (hx : x ∉ names) (ty : Ty) : Binds (b.declare x ty) (names ++ [x]) := by
  refine ⟨by simp [Block.declare, h.1], fun y => ?_⟩
  rw [Block.declare, Dict.get?_insert, h.2, h.1]
  by_cases hy : x = y
  · subst hy
    rw [if_pos rfl, if_pos (by simp), List.idxOf_append, if_neg hx]
    simp
  · rw [if_neg hy]
    by_cases hmem : y ∈ names
    · rw [if_pos hmem, if_pos (by simp [hmem]), List.idxOf_append, if_pos hmem]
    · rw [if_neg hmem, if_neg (by simp [hmem, Ne.symm hy])]

/-- Declared variables are bound to the next places. -/
theorem Binds.declareAll {b : Block} {l : List String} (h : Binds b l) {names : List String}
    (hnodup : names.Nodup) (hnew : ∀ x ∈ names, x ∉ l) (ty : Ty) :
    Binds (declareAll names ty b) (l ++ names) := by
  induction names generalizing b l with
  | nil => simpa [Structured.declareAll] using h
  | cons x names ih =>
    rw [List.nodup_cons] at hnodup
    have hstep := h.declare (hnew x (List.mem_cons_self ..)) ty
    rw [declareAll_cons, show l ++ x :: names = (l ++ [x]) ++ names by simp]
    refine ih hstep hnodup.2 fun y hy hmem => ?_
    rcases List.mem_append.1 hmem with hmem | hmem
    · exact hnew y (List.mem_cons_of_mem _ hy) hmem
    · rw [List.mem_singleton.1 hmem] at hy
      exact hnodup.1 hy

theorem Open.binds {w : Work} {l : Level} {Γ : List Level} (h : Open w (l :: Γ)) :
    Binds (w.block w.top) l.names := by
  rw [h.top]
  exact ⟨h.vars l (List.mem_cons_self ..), h.objects l (List.mem_cons_self ..)⟩

section declare

variable {s : Source} {w : Work} {l : Level} {Γ : List Level} {i : Nat} {rest : List Token}

/-- A name that waits for its type. -/
theorem act_var {x : String} (hname : s.name i = x)
    (hfree : (w.block w.top).objects.get? x = none) (hpending : x ∉ w.pending) :
    act s .var i w = .ok () { w with pending := w.pending ++ [x] } := by
  have htaken : taken w x = false := by
    rw [taken, Dict.contains_eq, hfree]
    simpa using hpending
  simp [act, var, hname, htaken, bind, EStateM.bind, get_apply, set_apply]

/-- The names of a declaration wait for their type. -/
theorem reads_names {st : Grammar.State}
    (hst : Grammar.entry st .ident = Grammar.goTo .varType .var) {names : List String}
    (hne : names ≠ []) (hnodup : names.Nodup)
    (hfree : ∀ x ∈ names, (w.block w.top).objects.get? x = none) (hpending : ∀ x ∈ names, x
    ∉ w.pending) (hts : TokensAt s i (nameTokens names ++ rest)) :
    Reads s (nameTokens names).length st i w .varType (i + (nameTokens names).length)
      { w with pending := w.pending ++ names } := by
  induction names using nameTokens.induct generalizing st i w with
  | case1 => exact absurd rfl hne
  | case2 x =>
    have hact := act_var (w := w) hts.name (hfree x (List.mem_cons_self ..))
      (hpending x (List.mem_cons_self ..))
    exact .step hts.kind? fun fork => ⟨fork, advance_goTo hst (by decide) hact⟩
  | case3 x xs hxs ih =>
    rw [nameTokens] at hts ⊢
    · rw [List.nodup_cons] at hnodup
      have hact := act_var (w := w) hts.name (hfree x (List.mem_cons_self ..))
        (hpending x (List.mem_cons_self ..))
      have hname : Reads s 1 st i w .varType (i + 1) _ :=
        .step hts.kind? fun fork => ⟨fork, advance_goTo hst (by decide) hact⟩
      have hcomma : Reads s 1 .varType (i + 1) { w with pending := w.pending ++ [x] } .varType
          (i + 1 + 1) _ :=
        .step hts.next.kind? fun fork => ⟨fork, advance_goTo rfl (by decide) rfl⟩
      have hvar : Grammar.entry .varType .ident = Grammar.goTo .varType .var := rfl
      -- The names wait in `pending` until their type is read.
      have hrest := ih (w := { w with pending := w.pending ++ [x] }) hvar hxs hnodup.2
        (fun y hy => hfree y (List.mem_cons_of_mem _ hy))
        (fun y hy hmem => by
          rcases List.mem_append.1 hmem with hmem | hmem
          · exact hpending y (List.mem_cons_of_mem _ hy) hmem
          · rw [List.mem_singleton.1 hmem] at hy
            exact hnodup.1 hy)
        hts.next.next
      have hlen : (Token.ident x :: .punct .comma :: nameTokens xs).length
          = 1 + 1 + (nameTokens xs).length := by
        rw [List.length_cons, List.length_cons]
        omega
      have := (hname.trans hcomma).trans hrest
      rw [List.append_assoc, List.singleton_append] at this
      rwa [hlen, ← Nat.add_assoc, ← Nat.add_assoc]
    · exact hxs
    · exact hxs

/-- The end of a declaration is read as the end of any statement. -/
theorem reads_var_end {t : Token} (ht : endsStmt t = true) (hts : TokensAt s i (t :: rest))
    (w : Work) : Reads s 1 .var i w .body i w := by
  intro fork
  cases t with
  | newline =>
    refine ⟨fork, 0, Nat.zero_le 1, fun fuel => ?_⟩
    have hk : s.kind? i = some .newline := hts.kind?
    cases fuel with
    | zero => simp only [readAll, hk]
    | succ fuel =>
      have hvar : advance s .newline ⟨.var, fork, i⟩ w = .ok ⟨.body, fork, i + 1⟩ w := rfl
      have hbody : advance s .newline ⟨.body, fork, i⟩ w = .ok ⟨.body, fork, i + 1⟩ w := rfl
      rw [Nat.add_zero, readAll_succ hk hvar, readAll_succ hk hbody]
  | punct p =>
    obtain rfl : p = .rcurly := by simpa [endsStmt] using ht
    exact ⟨fork, 1, Nat.le_refl 1, readAll_succ hts.kind? rfl⟩
  | _ => exact absurd ht (by simp [endsStmt])

/-- One group of a declaration: its names, then their type, and only the type declares the
variables. -/
theorem reads_group (hopen : Open w (l :: Γ)) {names : List String} {ty : Ty} (hne : names ≠ [])
    (hnodup : names.Nodup) (hnew : ∀ x ∈ names, x ∉ l.names)
    (hts : TokensAt s i (nameTokens names ++ .type ty :: rest)) :
    ∃ w', Reads s ((nameTokens names).length + 1) .var i w .var
        (i + ((nameTokens names).length + 1)) w' ∧
      Open w' (declareLevel names (l :: Γ)) ∧ Grows w w' [] (names.map fun _ => ty) := by
  have hbinds := hopen.binds
  have hfree : ∀ x ∈ names, (w.block w.top).objects.get? x = none := by
    intro x hx
    rw [hbinds.2, if_neg (hnew x hx)]
  have hpending : ∀ x ∈ names, x ∉ w.pending := by
    intro x _
    rw [hopen.pending]
    exact List.not_mem_nil
  have hvar : Grammar.entry .var .ident = Grammar.goTo .varType .var := rfl
  have hnames := reads_names hvar hne hnodup hfree hpending hts
  have htype := hts.skip
  rw [hopen.pending, List.nil_append] at hnames
  have hty : typeAt s (i + (nameTokens names).length) = ty := by
    rw [typeAt, htype.token?]
  -- The type declares all names that wait.
  have hdeclare : Reads s 1 .varType (i + (nameTokens names).length) { w with pending := names }
      .var (i + (nameTokens names).length + 1)
      { w.modifyTop (declareAll names ty) with pending := [] } := by
    refine .step htype.kind? fun fork => ⟨fork, advance_goTo rfl (by decide) ?_⟩
    rw [act, varType, hty]
    rfl
  have hgrow : Grows w (w.modifyTop (declareAll names ty)) [] (names.map fun _ => ty) := by
    refine .modifyTop hopen.top_lt (fun b => info_declareAll names ty b) ?_ ?_
    · rw [code_declareAll, List.append_nil]
    · rw [vars_declareAll]
  have hbinds' := hbinds.declareAll hnodup hnew ty
  have hopen' : Open { w.modifyTop (declareAll names ty) with pending := [] }
      (declareLevel names (l :: Γ)) := by
    have hblock := Work.block_modifyBlock_self hopen.top_lt (declareAll names ty)
    rw [← hblock] at hbinds'
    have hinner : Work.inner { w.modifyTop (declareAll names ty) with pending := [] } = w.inner :=
    rfl
    exact hopen.update hinner rfl hgrow.size hgrow.keeps (l.names ++ names) hbinds'.1 hbinds'.2
  exact ⟨_, hnames.trans hdeclare, hopen',
    ⟨hgrow.1, hgrow.2, hgrow.3, hgrow.4, hgrow.5, hgrow.6⟩⟩

/-- The groups of a declaration, one after the other. -/
theorem reads_groups (groups : List (List String × Ty)) (hopen : Open w (l :: Γ))
    (hne : ∀ g ∈ groups, g.1 ≠ []) (hnodup : (groupNames groups).Nodup)
    (hnew : ∀ x ∈ groupNames groups, x ∉ l.names)
    (hts : TokensAt s i (groupTokens groups ++ rest)) :
    ∃ w', Reads s (groupTokens groups).length .var i w .var (i + (groupTokens groups).length) w' ∧
      Open w' (declareLevel (groupNames groups) (l :: Γ)) ∧ Grows w w' [] (groupTypes groups) := by
  induction groups generalizing i w l with
  | nil =>
    refine ⟨w, .refl s .var i w, ?_, .refl w⟩
    rwa [groupNames, List.flatMap_nil, declareLevel, List.append_nil]
  | cons g groups ih =>
    rw [groupNames, List.flatMap_cons, ← groupNames] at hnodup hnew ⊢
    rw [groupTokens, List.append_assoc, List.cons_append] at hts
    obtain ⟨hfirst, hothers, hapart⟩ := List.nodup_append.1 hnodup
    obtain ⟨w₁, hreads₁, hopen₁, hgrow₁⟩ := reads_group hopen (hne g (List.mem_cons_self ..)) hfirst
      (fun x hx => hnew x (List.mem_append_left _ hx)) hts
    -- The names of the other groups differ from those of the first as well.
    have hnew₁ : ∀ x ∈ groupNames groups, x ∉ l.names ++ g.1 := by
      intro x hx hmem
      rcases List.mem_append.1 hmem with hmem | hmem
      · exact hnew x (List.mem_append_right _ hx) hmem
      · exact hapart x hmem x hx rfl
    obtain ⟨w₂, hreads₂, hopen₂, hgrow₂⟩ := ih (l := ⟨l.id, l.names ++ g.1⟩) hopen₁
      (fun g' hg' => hne g' (List.mem_cons_of_mem _ hg')) hothers hnew₁ hts.skip.next
    refine ⟨w₂, ?_, ?_, ?_⟩
    · have hlen : (groupTokens (g :: groups)).length
          = (nameTokens g.1).length + 1 + (groupTokens groups).length := by
        rw [groupTokens, List.length_append, List.length_cons]
        omega
      rw [hlen, ← Nat.add_assoc]
      exact hreads₁.trans hreads₂
    · rw [declareLevel, ← List.append_assoc]
      exact hopen₂
    · exact hgrow₁.trans (hopen.top_eq hopen₁ rfl) hgrow₂

/-- A declaration with its groups. -/
theorem compiled_declare (hopen : Open w (l :: Γ)) (hsettled : Settled w)
    {groups : List (List String × Ty)} (hne : ∀ g ∈ groups, g.1 ≠ [])
    (hnodup : (groupNames groups).Nodup) (hnew : ∀ x ∈ groupNames groups, x ∉ l.names)
    {t : Token} (ht : endsStmt t = true)
    (hts : TokensAt s i (.keyword .var :: (groupTokens groups ++ t :: rest))) :
    Compiled s w (declareLevel (groupNames groups) (l :: Γ)) i ((groupTokens groups).length + 1)
      (groupTypes groups) fun _ ops => ops = [] := by
  have hkeyword : Reads s 1 .body i w .var (i + 1) w :=
    .step hts.kind? fun fork => ⟨fork, advance_goTo rfl (by decide) rfl⟩
  obtain ⟨w', hgroups, hopen', hgrow⟩ := reads_groups groups hopen hne hnodup hnew hts.next
  refine ⟨w', [], ?_, hopen', ?_, hgrow, fun _ _ => rfl⟩
  · have hall := (hkeyword.trans hgroups).trans (reads_var_end ht hts.next.skip w')
    rw [show i + 1 + (groupTokens groups).length = i + ((groupTokens groups).length + 1) by omega]
      at hall
    exact hall.mono (by omega)
  · intro targets
    have hcode := hgrow.code
    rw [List.append_nil] at hcode
    rw [hopen.top_eq hopen' rfl, hcode]
    exact hsettled targets

end declare

/-! ### Control statements -/

section control

variable {s : Source} {w : Work} {l : Level} {Γ : List Level} {i : Nat} {rest : List Token}

theorem parent_openBlock (hopen : Open w (l :: Γ)) : w.openBlock.parent = w.top := by
  rw [hopen.top, Work.parent, Work.inner_openBlock, hopen.inner]
  rfl

/-- The condition of an `if` and the block it opens. -/
theorem reads_if (hopen : Open w (l :: Γ)) {c : Expr} (hg : c.isGrouped = true)
    (hbraceless : c.isBraceless = true) {us : List Op} (hus : c.code (l :: Γ) = some us)
    (hts : TokensAt s i (.keyword .if :: (c.tokens ++ .punct .lcurly :: rest))) :
    ∃ w₁, Reads s 2 .body i w .body (i + 1 + c.tokens.length + 1) w₁ ∧
      Enters w w₁ (us ++ [.if w.arena.size]) := by
  obtain ⟨w₁, hexpr, hopen₁, hsize, hgrow⟩ := c.entryExpression_tokens hopen hg hus hts.next rfl
    { push := true, toBlock := true, mustEval := true } rfl fun _ => hbraceless
  have hact : act s .if i w₁.openBlock
      = .ok () (w₁.openBlock.modifyBlock w₁.top (·.emit ⟨.if w.arena.size, s.line i⟩)) := by
    rw [← parent_openBlock hopen₁, ← hsize]
    rfl
  have henter : Enters w₁ (w₁.openBlock.modifyBlock w₁.top (·.emit ⟨.if w.arena.size, s.line i⟩))
      [.if w.arena.size] :=
    .openBlock hopen₁.top_lt (fun _ => rfl) (fun _ => by simp [Block.emit]) (fun _ => rfl)
      fun _ => rfl
  have hentry : Grammar.entry .body (.keyword .if)
    = .go .eval { push := true, toBlock := true, mustEval := true } .if := rfl
  have hstep : Reads s 1 .body i w .block _ _ :=
    .step hts.kind? fun fork => advance_eval fork hentry rfl rfl rfl hexpr hact
  exact ⟨_, hstep.trans (reads_lcurly hts.next.skip _), henter.append hgrow hopen hopen₁ hsize⟩

/-- The condition of a `while` and the block it opens. The instruction that repeats the loop waits
behind it. -/
theorem reads_while (hopen : Open w (l :: Γ)) {c : Expr} (hg : c.isGrouped = true)
    (hbraceless : c.isBraceless = true) {us : List Op} (hus : c.code (l :: Γ) = some us)
    (hts : TokensAt s i (.keyword .while :: (c.tokens ++ .punct .lcurly :: rest))) :
    ∃ w₁, Reads s 2 .body i w .body (i + 1 + c.tokens.length + 1) w₁ ∧
      Enters w w₁ (.label :: us ++ [.while w.arena.size, .continue]) := by
  obtain ⟨w₁, hexpr, hopen₁, hsize, hgrow⟩ := c.entryExpression_tokens hopen hg hus hts.next rfl
    { push := true, toBlock := true, label := true, mustEval := true } rfl fun _ => hbraceless
  have hact : act s .while i w₁.openBlock = .ok () ((w₁.openBlock.modifyBlock w₁.top
      (·.emit ⟨.while w.arena.size, s.line i⟩)).modifyBlock w₁.top
        (·.emit ⟨.continue, s.line i⟩)) := by
    rw [← parent_openBlock hopen₁, ← hsize]
    rfl
  rw [Work.modifyBlock_modifyBlock] at hact
  have henter : Enters w₁ (w₁.openBlock.modifyBlock w₁.top ((·.emit ⟨.continue, s.line i⟩) ∘
      (·.emit ⟨.while w.arena.size, s.line i⟩))) [.while w.arena.size, .continue] :=
    .openBlock hopen₁.top_lt (fun _ => rfl) (fun _ => by simp [Block.emit]) (fun _ => rfl)
      fun _ => rfl
  have hentry : Grammar.entry .body (.keyword .while)
    = .go .eval { push := true, toBlock := true, label := true, mustEval := true } .while := rfl
  have hstep : Reads s 1 .body i w .block _ _ :=
    .step hts.kind? fun fork => advance_eval fork hentry rfl rfl rfl hexpr hact
  exact ⟨_, hstep.trans (reads_lcurly hts.next.skip _), henter.append hgrow hopen hopen₁ hsize⟩

/-- The block of an `else`, which stands behind an `if`. -/
theorem reads_else (hopen : Open w (l :: Γ)) {id : BlockId}
    (hif : (opsOf (w.block w.top).code).getLast? = some (.if id))
    (hts : TokensAt s i (.keyword .else :: .punct .lcurly :: rest)) :
    ∃ w₁, Reads s 2 .body i w .body (i + 2) w₁ ∧ Enters w w₁ [.else w.arena.size] := by
  -- An `else` is accepted only behind the `if` that it belongs to.
  have hback : ((w.openBlock.block w.openBlock.parent).code.back?).map Instr.op
    = some (.if id) := by
    rw [parent_openBlock hopen, Work.block_openBlock_top hopen.top_lt, back?_op]
    exact hif
  have hact : act s .else i w.openBlock
      = .ok () (w.openBlock.modifyBlock w.top (·.emit ⟨.else w.arena.size, s.line i⟩)) := by
    have hwrap : wrapTop .else s i w.openBlock
        = .ok () (w.openBlock.modifyBlock w.top (·.emit ⟨.else w.arena.size, s.line i⟩)) := by
      rw [← parent_openBlock hopen]
      rfl
    simp only [act, elseBranch, bind, EStateM.bind, get_apply, hback]
    exact hwrap
  have henter : Enters w (w.openBlock.modifyBlock w.top (·.emit ⟨.else w.arena.size, s.line i⟩))
      [.else w.arena.size] :=
    .openBlock hopen.top_lt (fun _ => rfl) (fun _ => by simp [Block.emit]) (fun _ => rfl)
      fun _ => rfl
  have hstep : Reads s 1 .body i w .block (i + 1)
      (w.openBlock.modifyBlock w.top (·.emit ⟨.else w.arena.size, s.line i⟩)) := by
    refine .step hts.kind? fun fork => ⟨fork, ?_⟩
    have hentry : Grammar.entry .body (.keyword .else) = .go .block { push := true } .else := rfl
    show advance s (.keyword .else) _ _ = _
    unfold advance
    rw [hentry]
    simp [hact, stateBehind, bind, EStateM.bind, pure_apply, get_apply, modify_apply]
  exact ⟨_, hstep.trans (reads_lcurly hts.next _), henter⟩

/-- A new block holds no instructions yet. -/
theorem Enters.settled {w w₁ : Work} {ops : List Op} (h : Enters w w₁ ops) : Settled w₁ := by
  intro targets
  rw [h.top, h.new]
  simp

/-- An `if` with all its branches, given how its body and the further branches compile. -/
theorem compiled_if {after bs rs : List Token} {c : Expr} {b : Body} {more : Branches}
    (hopen : Open w (l :: Γ)) (hg : c.isGrouped = true) (hbraceless : c.isBraceless = true)
    {us : List Op} (hus : c.code (l :: Γ) = some us)
    (hbody : ∀ w₁ j, Open w₁ (⟨w.arena.size, []⟩ :: l :: Γ) → Settled w₁ →
      TokensAt s j (bs ++ .punct .rcurly :: (rs ++ after)) → ∃ names,
        Compiled s w₁ (⟨w.arena.size, names⟩ :: l :: Γ) j bs.length b.types
          fun A => b.Code A (⟨w.arena.size, []⟩ :: l :: Γ))
    (hmore : ∀ w₃ j, Open w₃ (l :: Γ) →
      (opsOf (w₃.block w₃.top).code).getLast? = some (.if w.arena.size) →
      TokensAt s j (rs ++ after) →
        Compiled s w₃ (l :: Γ) j rs.length [] fun A => more.Code A (l :: Γ))
    (hts : TokensAt s i (.keyword .if ::
      (c.tokens ++ .punct .lcurly :: (bs ++ .punct .rcurly :: (rs ++ after))))) :
    Compiled s w (l :: Γ) i (c.tokens.length + bs.length + rs.length + 3) [] fun A ops =>
      ∃ id us vs ws, c.code (l :: Γ) = some us ∧ b.Code A (⟨id, []⟩ :: l :: Γ) vs ∧
        Child A (l :: Γ) id b.types vs ∧ more.Code A (l :: Γ) ws ∧ ops = us ++ .if id :: ws := by
  obtain ⟨w₁, hreads₁, henter⟩ := reads_if hopen hg hbraceless hus hts
  have hts₁ := hts.next.skip.next
  obtain ⟨names, w₂, vs, hreads₂, hopen₂, -, hgrow₂, hcode₂⟩ :=
    hbody w₁ _ (henter.isOpen hopen) henter.settled hts₁
  obtain ⟨w₃, hreads₃, hopen₃, hgrow₃, hchild⟩ :=
    henter.close_branch us (by simp) hopen hopen₂ hgrow₂ hts₁.skip.kind?
  have htop₃ := hopen.top_eq hopen₃ rfl
  -- The `if` is the last instruction when its other branches are read.
  have hif : (opsOf (w₃.block w₃.top).code).getLast? = some (.if w.arena.size) := by
    rw [htop₃, hgrow₃.code, ← List.append_assoc, List.getLast?_concat]
  obtain ⟨w₄, ws, hreads₄, hopen₄, hsettled₄, hgrow₄, hcode₄⟩ :=
    hmore w₃ _ hopen₃ hif hts₁.skip.next
  have hgrow := hgrow₃.trans htop₃ hgrow₄
  refine ⟨w₄, us ++ [.if w.arena.size] ++ ws, ?_, hopen₄, hsettled₄, hgrow, fun A hA => ?_⟩
  · have := ((hreads₁.trans hreads₂).trans hreads₃).trans hreads₄
    rw [show i + 1 + c.tokens.length + 1 + bs.length + 1 + rs.length
      = i + (c.tokens.length + bs.length + rs.length + 3) by omega] at this
    exact this.mono (by omega)
  · obtain ⟨hA₃, hA₄⟩ := hgrow₃.agrees hopen.top_lt htop₃ hgrow₄ hA
    obtain ⟨hc, hA₂⟩ := hchild A hA₃
    exact ⟨_, us, vs, ws, hus, hcode₂ A hA₂, hc, hcode₄ A hA₄, by simp⟩

end control

/-! ### Trees -/

/-- The token behind a statement of a block ends the statement. -/
theorem exists_endsStmt {m : Nat} {b : Body} {vs after : List Token} (hvs : b.Tokens vs)
    (hm : b = .nil ∨ 0 < m) :
    ∃ t rest, lineEnds m ++ (vs ++ .punct .rcurly :: after) = t :: rest ∧ endsStmt t = true := by
  cases m with
  | succ m => exact ⟨.newline, _, rfl, rfl⟩
  | zero =>
    obtain rfl : b = .nil := hm.resolve_right (Nat.lt_irrefl 0)
    rw [Body.Tokens] at hvs
    obtain ⟨n, rfl⟩ := hvs
    cases n with
    | zero => exact ⟨.punct .rcurly, _, rfl, rfl⟩
    | succ n => exact ⟨.newline, _, rfl, rfl⟩

mutual

/-- A scoped statement compiles to its code. -/
theorem Stmt.compiles (st : Stmt) {s : Source} {w : Work} {l : Level} {Γ : List Level}
    {scopes : List (List String)} {inLoop : Bool} {i : Nat} {ts rest : List Token} {t : Token}
    (hs : st.isScoped (l.names :: scopes) inLoop = true) (htok : st.Tokens ts)
    (hopen : Open w (l :: Γ)) (hsettled : Settled w)
    (hres : Resolves (l :: Γ) (l.names :: scopes)) (ht : endsStmt t = true)
    (hts : TokensAt s i (ts ++ t :: rest)) :
    Compiled s w (declareLevel st.names (l :: Γ)) i ts.length st.types
      fun A => st.Code A (l :: Γ) := by
  have hsame : declareLevel [] (l :: Γ) = l :: Γ := by rw [declareLevel, List.append_nil]
  cases st with
  | declare groups =>
    rw [Stmt.isScoped] at hs
    simp only [Bool.and_eq_true, Bool.not_eq_true', List.isEmpty_eq_false_iff, decide_eq_true_eq,
      List.all_eq_true, List.headD_cons] at hs
    obtain ⟨⟨⟨-, hne⟩, hnodup⟩, hnew⟩ := hs
    rw [Stmt.Tokens] at htok
    subst htok
    have hnew : ∀ x ∈ groupNames groups, x ∉ l.names := fun x hx hmem => by
      simpa [hmem] using hnew x hx
    simp only [Stmt.Code, List.length_cons]
    exact compiled_declare hopen hsettled hne hnodup hnew ht hts
  | assign xs es =>
    rw [Stmt.isScoped] at hs
    simp only [Bool.and_eq_true, Bool.not_eq_true', List.isEmpty_eq_false_iff, decide_eq_true_eq,
      List.all_eq_true, Expr.isWellFormed] at hs
    obtain ⟨⟨⟨hne, hlength⟩, hxs⟩, hes⟩ := hs
    rw [Stmt.Tokens] at htok
    subst htok
    obtain ⟨vs, hvs⟩ := exists_targets hres hxs
    obtain ⟨us, hus⟩ := exists_codeAll hres fun e he => (hes e he).2
    have hlen : (nameTokens xs ++ .punct .eq :: exprTokens es).length
        = (nameTokens xs).length + 1 + (exprTokens es).length := by
      rw [List.length_append, List.length_cons]
      omega
    rw [List.append_assoc, List.cons_append] at hts
    simp only [Stmt.names, hsame, hlen]
    exact compiled_assign hopen hsettled hne hvs hlength (fun e he => (hes e he).1) hus ht hts
  | «return» e =>
    rw [Stmt.isScoped, Expr.isWellFormed, Bool.and_eq_true] at hs
    rw [Stmt.Tokens] at htok
    subst htok
    obtain ⟨us, hus⟩ := Expr.exists_code hres hs.2
    have hlen : (Token.keyword .return :: e.tokens).length = 1 + e.tokens.length := by
      simp [Nat.add_comm]
    simp only [Stmt.names, hsame, hlen]
    exact compiled_return hopen hs.1 hus ht hts
  | «break» =>
    rw [Stmt.Tokens] at htok
    subst htok
    simp only [Stmt.names, hsame, Stmt.Code]
    exact compiled_emit hopen rfl rfl (by simp) hts
  | «continue» =>
    rw [Stmt.Tokens] at htok
    subst htok
    simp only [Stmt.names, hsame, Stmt.Code]
    exact compiled_emit hopen rfl rfl (by simp) hts
  | «if» c b more =>
    rw [Stmt.isScoped] at hs
    simp only [Expr.isCondition, Expr.isWellFormed, Bool.and_eq_true] at hs
    obtain ⟨⟨⟨hbraceless, hg, hc⟩, hb⟩, hmore⟩ := hs
    rw [Stmt.Tokens] at htok
    obtain ⟨bs, rs, hbs, hrs, rfl⟩ := htok
    obtain ⟨us, hus⟩ := Expr.exists_code hres hc
    simp only [List.cons_append, List.append_assoc] at hts
    have hlen : (Token.keyword .if
      :: (c.tokens ++ .punct .lcurly :: (bs ++ .punct .rcurly :: rs))).length
        = c.tokens.length + bs.length + rs.length + 3 := by
      simp only [List.length_cons, List.length_append]
      omega
    simp only [Stmt.names, hsame, hlen, Stmt.Code]
    exact compiled_if hopen hg hbraceless hus
      (fun _ _ ho hset hat => b.compiles hb hbs ho hset (hres.push _) hat)
      (fun _ _ ho hlast hat => more.compiles hmore hrs ho hlast hres hat) hts
  | «while» c b =>
    rw [Stmt.isScoped] at hs
    simp only [Expr.isCondition, Expr.isWellFormed, Bool.and_eq_true] at hs
    obtain ⟨⟨hbraceless, hg, hc⟩, hb⟩ := hs
    rw [Stmt.Tokens] at htok
    obtain ⟨bs, hbs, rfl⟩ := htok
    obtain ⟨us, hus⟩ := Expr.exists_code hres hc
    simp only [List.cons_append, List.append_assoc, List.nil_append] at hts
    -- The body is compiled into a block of its own, and closing that adds the jump back.
    obtain ⟨w₁, hreads₁, henter⟩ := reads_while hopen hg hbraceless hus hts
    have hts₁ := hts.next.skip.next
    obtain ⟨names, w₂, vs, hreads₂, hopen₂, -, hgrow₂, hcode₂⟩ :=
      b.compiles hb hbs (henter.isOpen hopen) henter.settled (hres.push _) hts₁
    obtain ⟨w₃, hreads₃, hopen₃, hgrow₃, hchild⟩ :=
      henter.close_loop hopen hopen₂ hgrow₂ hts₁.skip.kind?
    simp only [Stmt.names, hsame]
    refine ⟨w₃, _, ?_, hopen₃, settled_of_concat _ hgrow₃ (hopen.top_eq hopen₃ rfl) (by simp),
      hgrow₃, fun A hA => ?_⟩
    · have := (hreads₁.trans hreads₂).trans hreads₃
      have hlen : (Token.keyword .while ::
          (c.tokens ++ .punct .lcurly :: (bs ++ [.punct .rcurly]))).length
            = c.tokens.length + bs.length + 3 := by
        simp only [List.length_cons, List.length_append, List.length_nil]
        omega
      rw [show i + 1 + c.tokens.length + 1 + bs.length + 1
        = i + (c.tokens.length + bs.length + 3) by omega] at this
      rw [hlen]
      exact this.mono (by omega)
    · obtain ⟨hc, hA₂⟩ := hchild A hA
      simp only [Stmt.Code]
      exact ⟨_, us, vs, hus, hcode₂ A hA₂, hc, rfl⟩

/-- Further branches compile to their code. -/
theorem Branches.compiles (more : Branches) {s : Source} {w : Work} {l : Level} {Γ : List Level}
    {scopes : List (List String)} {inLoop : Bool} {i : Nat} {ts after : List Token} {id : BlockId}
    (hs : more.isScoped scopes inLoop = true) (htok : more.Tokens ts) (hopen : Open w (l :: Γ))
    (hif : (opsOf (w.block w.top).code).getLast? = some (.if id)) (hres : Resolves (l :: Γ) scopes)
    (hts : TokensAt s i (ts ++ after)) :
    Compiled s w (l :: Γ) i ts.length [] fun A => more.Code A (l :: Γ) := by
  cases more with
  | none =>
    rw [Branches.Tokens] at htok
    subst htok
    refine ⟨w, [], .refl s .body i w, hopen, fun targets => ?_, .refl w, fun A _ => ?_⟩
    · rw [hif]
      simp
    · simp only [Branches.Code]
  | «else» b =>
    rw [Branches.isScoped] at hs
    rw [Branches.Tokens] at htok
    obtain ⟨n, bs, hbs, rfl⟩ := htok
    simp only [List.cons_append, List.append_assoc, List.nil_append] at hts
    have hlines := reads_lineEnds .body rfl (by decide) hts w
    have hts₀ := hts.lineEnds
    obtain ⟨w₁, hreads₁, henter⟩ := reads_else hopen hif hts₀
    have hts₁ := hts₀.next.next
    obtain ⟨names, w₂, vs, hreads₂, hopen₂, -, hgrow₂, hcode₂⟩ :=
      b.compiles hs hbs (henter.isOpen hopen) henter.settled (hres.push _) hts₁
    obtain ⟨w₃, hreads₃, hopen₃, hgrow₃, hchild⟩ :=
      Enters.close_branch [] henter (by simp) hopen hopen₂ hgrow₂ hts₁.skip.kind?
    refine ⟨w₃, _, ?_, hopen₃, settled_of_concat [] hgrow₃ (hopen.top_eq hopen₃ rfl) (by simp),
      hgrow₃, fun A hA => ?_⟩
    · have := ((hlines.trans hreads₁).trans hreads₂).trans hreads₃
      have hlen : (lineEnds n ++ Token.keyword .else :: .punct .lcurly ::
          (bs ++ [.punct .rcurly])).length = n + bs.length + 3 := by
        simp only [lineEnds, List.length_append, List.length_replicate, List.length_cons,
          List.length_nil]
        omega
      rw [show i + n + 2 + bs.length + 1 = i + (n + bs.length + 3) by omega] at this
      rw [hlen]
      exact this.mono (by omega)
    · obtain ⟨hc, hA₂⟩ := hchild A hA
      simp only [Branches.Code]
      exact ⟨_, vs, hcode₂ A hA₂, hc, rfl⟩
  | elif c b more =>
    rw [Branches.isScoped] at hs
    simp only [Expr.isCondition, Expr.isWellFormed, Bool.and_eq_true] at hs
    obtain ⟨⟨⟨hbraceless, hg, hc⟩, hb⟩, hmore⟩ := hs
    rw [Branches.Tokens] at htok
    obtain ⟨n, bs, rs, hbs, hrs, rfl⟩ := htok
    simp only [List.cons_append, List.append_assoc, List.nil_append] at hts
    have hlines := reads_lineEnds .body rfl (by decide) hts w
    have hts₀ := hts.lineEnds
    obtain ⟨w₁, hreads₁, henter⟩ := reads_else hopen hif hts₀
    have hts₁ := hts₀.next.next
    have hres₁ := hres.wrap w.arena.size
    obtain ⟨us, hus⟩ := Expr.exists_code hres₁ hc
    -- the `if` that the `else` block holds, with the branches behind it
    obtain ⟨w₂, ops, hreads₂, hopen₂, -, hgrow₂, hcode₂⟩ := compiled_if (henter.isOpen hopen) hg
      hbraceless hus
      (fun _ _ ho hset hat => b.compiles hb hbs ho hset (hres₁.push _) hat)
      (fun _ _ ho hlast hat => more.compiles hmore hrs ho hlast hres₁ hat) hts₁
    have hts₂ : TokensAt s (i + n + 1 + 1 + (c.tokens.length + bs.length + rs.length + 3))
        (.punct .rcurly :: after) := by
      have := hts₁.next.skip.next.skip.next.skip
      rwa [show i + n + 1 + 1 + 1 + c.tokens.length + 1 + bs.length + 1 + rs.length
        = i + n + 1 + 1 + (c.tokens.length + bs.length + rs.length + 3) by omega] at this
    obtain ⟨w₃, hreads₃, hopen₃, hgrow₃, hchild⟩ :=
      Enters.close_branch [] henter (by simp) hopen hopen₂ hgrow₂ hts₂.kind?
    refine ⟨w₃, _, ?_, hopen₃, settled_of_concat [] hgrow₃ (hopen.top_eq hopen₃ rfl) (by simp),
      hgrow₃, fun A hA => ?_⟩
    · have := ((hlines.trans hreads₁).trans hreads₂).trans hreads₃
      have hlen : (lineEnds n ++ Token.keyword .else :: .punct .lcurly :: .keyword .if ::
          (c.tokens ++ .punct .lcurly :: (bs ++ .punct .rcurly :: (rs ++ [.punct .rcurly])))).length
            = n + c.tokens.length + bs.length + rs.length + 6 := by
        simp only [lineEnds, List.length_append, List.length_replicate, List.length_cons,
          List.length_nil]
        omega
      rw [show i + n + 2 + (c.tokens.length + bs.length + rs.length + 3) + 1
        = i + (n + c.tokens.length + bs.length + rs.length + 6) by omega] at this
      rw [hlen]
      exact this.mono (by omega)
    · obtain ⟨hwrap, hA₂⟩ := hchild A hA
      obtain ⟨id', us', vs, ws, hus', hvs, hc, hws, rfl⟩ := hcode₂ A hA₂
      simp only [Branches.Code]
      exact ⟨_, id', us', vs, ws, hus', hvs, hc, hws, hwrap, rfl⟩

/-- A scoped block compiles to its code. -/
theorem Body.compiles (b : Body) {s : Source} {w : Work} {l : Level} {Γ : List Level}
    {scopes : List (List String)} {inLoop : Bool} {i : Nat} {ts rest : List Token}
    (hs : b.isScoped (l.names :: scopes) inLoop = true) (htok : b.Tokens ts)
    (hopen : Open w (l :: Γ)) (hsettled : Settled w)
    (hres : Resolves (l :: Γ) (l.names :: scopes))
    (hts : TokensAt s i (ts ++ .punct .rcurly :: rest)) :
    ∃ names, Compiled s w (⟨l.id, names⟩ :: Γ) i ts.length b.types fun A => b.Code A (l :: Γ) := by
  cases b with
  | nil =>
    rw [Body.Tokens] at htok
    obtain ⟨n, rfl⟩ := htok
    have hlines := reads_lineEnds .body rfl (by decide) hts w
    have hlen : (lineEnds n).length = n := List.length_replicate
    refine ⟨l.names, w, [], ?_, hopen, hsettled, .refl w, fun A _ => ?_⟩
    · rw [hlen]
      exact hlines.mono (by omega)
    · simp only [Body.Code]
  | cons st more =>
    rw [Body.isScoped, Bool.and_eq_true] at hs
    rw [Body.Tokens] at htok
    obtain ⟨n, m, us, vs, hus, hvs, hm, rfl⟩ := htok
    simp only [List.append_assoc] at hts
    have hlines := reads_lineEnds .body rfl (by decide) hts w
    have hts₁ := hts.lineEnds
    obtain ⟨t, tail, heq, ht⟩ := exists_endsStmt (m := m) hvs hm
    obtain ⟨w₁, ops₁, hreads₁, hopen₁, hsettled₁, hgrow₁, hcode₁⟩ :=
      st.compiles hs.1 hus hopen hsettled hres ht (by rw [← heq]; exact hts₁)
    have hts₂ := hts₁.skip
    have hlines₂ := reads_lineEnds .body rfl (by decide) hts₂ w₁
    -- what the first statement declares is in scope for the rest
    have hres₁ := hres.declare st.names
    obtain ⟨names, w₂, ops₂, hreads₂, hopen₂, hsettled₂, hgrow₂, hcode₂⟩ :=
      more.compiles (l := ⟨l.id, l.names ++ st.names⟩) hs.2 hvs hopen₁ hsettled₁ hres₁ hts₂.lineEnds
    have htop₁ := hopen.top_eq hopen₁ rfl
    have hgrow := hgrow₁.trans htop₁ hgrow₂
    refine ⟨names, w₂, ops₁ ++ ops₂, ?_, hopen₂, hsettled₂, hgrow, fun A hA => ?_⟩
    · have := ((hlines.trans hreads₁).trans hlines₂).trans hreads₂
      have hlen : (lineEnds n ++ (us ++ (lineEnds m ++ vs))).length
          = n + us.length + m + vs.length := by
        simp only [lineEnds, List.length_append, List.length_replicate]
        omega
      rw [show i + n + us.length + m + vs.length = i + (n + us.length + m + vs.length) by omega]
        at this
      rw [hlen]
      exact this.mono (by omega)
    · obtain ⟨hA₁, hA₂⟩ := hgrow₁.agrees hopen.top_lt htop₁ hgrow₂ hA
      simp only [Body.Code]
      exact ⟨ops₁, ops₂, hcode₁ A hA₁, hcode₂ A hA₂, rfl⟩

end

end Covenant.Structured
