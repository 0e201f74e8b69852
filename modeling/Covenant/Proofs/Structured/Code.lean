import Covenant.Proofs.Compile.Terms

/-!
# The code of expressions

The compiler turns the tokens of an expression into postfix code. An expression of the structured
language is a term once its names stand for variables of the open blocks (`Expr.term?`), and
`Expr.code` is the code of that term. The tokens of a grouped expression are one of the ways in
which the term can be written (`Expr.written`), and the priorities with which it is grouped are the
strengths of the term.

The main statement is `expression_tokens`: compiling expressions with commas between them adds their
codes, one behind the other, to the innermost open block.
-/

namespace Covenant.Structured

open Covenant.Compile Covenant.Computation

/-! ### Names -/

/-- An open block as the compiler knows it. -/
structure Level where
  id : BlockId
  /-- The names of the block's variables so far, by slot. -/
  names : List String

/-- The variable of a name: the innermost block that declares the name has it. -/
def resolve (x : String) : List Level → Option VarRef
  | [] => none
  | l :: ls => if x ∈ l.names then some ⟨l.id, l.names.idxOf x⟩ else resolve x ls

/-- Whether the variables of some open blocks are found by their names. -/
def Finds (w : Work) (Γ : List Level) : Prop :=
  ∀ x v, resolve x Γ = some v → w.findVar x = some (.var v)

/-! ### Terms of expressions -/

mutual

/-- The item that an operand is, unless some name is unknown. -/
def Operand.item? (Γ : List Level) : Operand → Option Item
  | .literal l => some (.const l.value)
  | .var x => (resolve x Γ).map .var
  | .array os => (os.items? Γ).map .array
  | .map es => (es.bindings? Γ).map .map

/-- The items that elements are. -/
def Operands.items? (Γ : List Level) : Operands → Option (List Item)
  | .nil => some []
  | .cons o rest => (o.item? Γ).bind fun i => (rest.items? Γ).map (i :: ·)

/-- The keys and items of entries. -/
def Entries.bindings? (Γ : List Level) : Entries → Option (List (String × Item))
  | .nil => some []
  | .cons k o rest => (o.item? Γ).bind fun i => (rest.bindings? Γ).map ((k.text, i) :: ·)

end

namespace Expr

/-- The term that an expression is, unless some name is unknown. Parentheses leave no trace. -/
def term? (Γ : List Level) : Expr → Option Term
  | operand o => (o.item? Γ).map .leaf
  | unary op e => (e.term? Γ).map (.unary op)
  | binary op a b => (a.term? Γ).bind fun x => (b.term? Γ).map (.binary op x)
  | paren e => e.term? Γ

/-- The postfix code of an expression, unless some name is unknown. -/
def code (Γ : List Level) (e : Expr) : Option (List Op) := (e.term? Γ).map Term.code

/-- How strongly an expression holds together as it is written. -/
def strength : Expr → Nat
  | operand _ => Term.wholeStrength
  | unary _ _ => Term.signStrength
  | binary op _ _ => op.priority
  | paren _ => Term.wholeStrength

/-- An expression without an outermost operator of two operands holds together like a sign at
least. -/
theorem sign_le_strength {e : Expr} (h : e.priority?.isNone = true) :
    Term.signStrength ≤ e.strength := by
  cases e with
  | binary op a b => exact absurd h Bool.false_ne_true
  | operand | paren => exact (by decide : Term.signStrength ≤ Term.wholeStrength)
  | unary op e => exact Nat.le_refl _

theorem priority_le_strength {op : BinaryOp} {e : Expr}
    (h : e.priority?.all (op.priority ≤ ·) = true) : op.priority ≤ e.strength := by
  cases e with
  | binary op' a b => exact of_decide_eq_true h
  | _ => exact Nat.le_trans (Nat.le_of_lt op.priority_lt) (sign_le_strength rfl)

theorem priority_lt_strength {op : BinaryOp} {e : Expr}
    (h : e.priority?.all (op.priority < ·) = true) : op.priority < e.strength := by
  cases e with
  | binary op' a b => exact of_decide_eq_true h
  | _ => exact Nat.lt_of_lt_of_le op.priority_lt (sign_le_strength rfl)

end Expr

/-! ### Tokens of expressions -/

section Tokens

variable {w : Work} {Γ : List Level}

theorem Key.namesKey (k : Key) : NamesKey k.token k.text := by
  cases k with
  | name x => exact .ident x
  | quoted l s reads =>
    rw [Key.token, reads]
    exact .string s

mutual

/-- The tokens of an operand are those its item can be written with. -/
theorem Operand.written (hw : Finds w Γ) (o : Operand) {i : Item} (h : o.item? Γ = some i) :
    i.Written w o.tokens := by
  cases o with
  | literal l =>
    cases h
    exact .const l.value
  | var x =>
    obtain ⟨v, hv, rfl⟩ := Option.map_eq_some_iff.1 h
    exact .var (hw x v hv)
  | array os =>
    obtain ⟨is, his, rfl⟩ := Option.map_eq_some_iff.1 h
    exact .array (os.written hw his false)
  | map es =>
    obtain ⟨bs, hbs, rfl⟩ := Option.map_eq_some_iff.1 h
    exact .map (es.written hw hbs false)

/-- The tokens of elements and the right bracket are those an array literal can go on with. -/
theorem Operands.written (hw : Finds w Γ) (os : Operands) {is : List Item}
    (h : os.items? Γ = some is) (behind : Bool) :
    ItemsWritten w behind is (os.tokens behind ++ [.punct .rbrack]) := by
  cases os with
  | nil =>
    cases h
    exact .close behind
  | cons o rest =>
    obtain ⟨i, hi, h⟩ := Option.bind_eq_some_iff.1 h
    obtain ⟨is, his, rfl⟩ := Option.map_eq_some_iff.1 h
    have hitem := ItemsWritten.item (o.written hw hi) (rest.written hw his true)
    rw [← List.append_assoc] at hitem
    cases behind with
    | false => exact hitem
    | true => exact .comma hitem

/-- The tokens of entries and the right brace are those a map literal can go on with. -/
theorem Entries.written (hw : Finds w Γ) (es : Entries) {bs : List (String × Item)}
    (h : es.bindings? Γ = some bs) (behind : Bool) :
    EntriesWritten w behind bs (es.tokens behind ++ [.punct .rcurly]) := by
  cases es with
  | nil =>
    cases h
    exact .close behind
  | cons k o rest =>
    obtain ⟨i, hi, h⟩ := Option.bind_eq_some_iff.1 h
    obtain ⟨bs, hbs, rfl⟩ := Option.map_eq_some_iff.1 h
    have hentry := EntriesWritten.entry 0 0 k.namesKey (o.written hw hi) (rest.written hw hbs true)
    have hsame : k.token :: (lineEnds 0 ++ .punct .colon :: (lineEnds 0 ++
        (o.tokens ++ (rest.tokens true ++ [.punct .rcurly]))))
          = (k.token :: .punct .colon :: (o.tokens ++ rest.tokens true)) ++ [.punct .rcurly] := by
      simp [lineEnds]
    rw [hsame] at hentry
    cases behind with
    | false => exact hentry
    | true => exact .comma hentry

end

/-- **The tokens of a grouped expression are those its term can be written with.** -/
theorem Expr.written (hw : Finds w Γ) {e : Expr} (hg : e.isGrouped = true) {t : Term}
    (ht : e.term? Γ = some t) (inside : Bool) : t.Written w inside e.strength e.tokens := by
  induction e generalizing t inside with
  | operand o =>
    obtain ⟨i, hi, rfl⟩ := Option.map_eq_some_iff.1 ht
    exact .leaf (o.written hw hi)
  | unary op e ih =>
    rw [isGrouped, Bool.and_eq_true] at hg
    obtain ⟨x, hx, rfl⟩ := Option.map_eq_some_iff.1 ht
    exact .unary op (sign_le_strength hg.1) (ih hg.2 hx inside)
  | binary op a b iha ihb =>
    rw [isGrouped] at hg
    simp only [Bool.and_eq_true] at hg
    obtain ⟨⟨⟨hpa, hpb⟩, hga⟩, hgb⟩ := hg
    obtain ⟨x, hx, ht⟩ := Option.bind_eq_some_iff.1 ht
    obtain ⟨y, hy, rfl⟩ := Option.map_eq_some_iff.1 ht
    exact .binary op (priority_le_strength hpa) (priority_lt_strength hpb) (iha hga hx inside)
      (ihb hgb hy inside)
  | paren e ih => exact .paren (ih hg ht true)

mutual

/-- An operand that is written without braces has none among its tokens. -/
theorem Operand.lcurly_notMem (o : Operand) (h : o.isBraceless = true) :
    Token.punct .lcurly ∉ o.tokens := by
  cases o with
  | literal l => simp [Operand.tokens]
  | var x => simp [Operand.tokens]
  | array os =>
    have hos := os.lcurly_notMem h false
    simp [Operand.tokens, hos]
  | map es => exact absurd h Bool.false_ne_true

/-- Operands without map literals are written without braces. -/
theorem Operands.lcurly_notMem (os : Operands) (h : os.isBraceless = true) (behind : Bool) :
    Token.punct .lcurly ∉ os.tokens behind := by
  cases os with
  | nil => exact List.not_mem_nil
  | cons o rest =>
    rw [Operands.isBraceless, Bool.and_eq_true] at h
    have ho := o.lcurly_notMem h.1
    have hrest := rest.lcurly_notMem h.2 true
    cases behind <;> simp [Operands.tokens, commaTokens, ho, hrest]

end

/-- So are expressions without them. -/
theorem Expr.lcurly_notMem {e : Expr} (h : e.isBraceless = true) :
    Token.punct .lcurly ∉ e.tokens := by
  induction e with
  | operand o => exact o.lcurly_notMem h
  | unary op e ih => simp [tokens, ih h]
  | binary op a b iha ihb =>
    rw [isBraceless, Bool.and_eq_true] at h
    simp [tokens, iha h.1, ihb h.2]
  | paren e ih => simp [tokens, ih h]

end Tokens

/-! ### Lists of expressions -/

/-- The code of some expressions, one behind the other, unless some name is unknown. -/
def codeAll (Γ : List Level) : List Expr → Option (List Op)
  | [] => some []
  | e :: es => (e.code Γ).bind fun us => (codeAll Γ es).map (us ++ ·)

theorem codeAll_singleton {Γ : List Level} {e : Expr} {ops : List Op} (h : e.code Γ = some ops) :
    codeAll Γ [e] = some ops := by
  rw [codeAll, h, codeAll, Option.bind_some, Option.map_some, List.append_nil]

/-- The code of an expression is not empty. -/
theorem Expr.code_ne_nil {Γ : List Level} {e : Expr} {ops : List Op} (h : e.code Γ = some ops) :
    ops ≠ [] := by
  obtain ⟨t, -, rfl⟩ := Option.map_eq_some_iff.1 h
  exact t.code_ne_nil

/-- Expressions have some code. -/
theorem codeAll_ne_nil {Γ : List Level} {es : List Expr} (hne : es ≠ []) {ops : List Op}
    (h : codeAll Γ es = some ops) : ops ≠ [] := by
  cases es with
  | nil => exact absurd rfl hne
  | cons e es =>
    obtain ⟨us, hus, h⟩ := Option.bind_eq_some_iff.1 h
    obtain ⟨vs, -, rfl⟩ := Option.map_eq_some_iff.1 h
    exact List.append_ne_nil_of_left_ne_nil (Expr.code_ne_nil hus) vs

/-- Whether a token ends an expression that has an operand. -/
def endsExpr : Token → Bool
  | .newline => true
  | .punct p => p == .lcurly || p == .rcurly
  | _ => false

theorem stopsBefore_of_endsExpr {t : Token} (h : endsExpr t = true) : stopsBefore t = true := by
  cases t with
  | newline => rfl
  | punct p => cases p <;> first | rfl | exact absurd h (by decide)
  | _ => exact absurd h Bool.false_ne_true

/-- What ends an expression is no part of a call, an index or an assignment. -/
theorem detached_of_endsExpr {t : Token} (h : endsExpr t = true) (ts : List Token) (n : Nat) :
    Detached ts n (some t.kind) := by
  refine .of_next (fun heq => ?_) (fun heq => ?_) (fun heq => ?_) <;>
    rw [Token.eq_punct (Option.some.inj heq)] at h <;> exact absurd h (by decide)

/-- The yard behind a comma between expressions. -/
def behindComma (y : Yard) (code : Array Instr) : Yard :=
  { y with code := y.code ++ code, expectOperand := true, prev := some (.punct .comma) }

section Lists

variable {s : Source} {b : Bool} {w : Work} {Γ : List Level}

/-- A comma lets out all the operators behind it. -/
theorem take_comma {y : Yard} (hbuf : y.buffer = []) {i : Nat} {code : Array Instr} {ps : List Op}
    {k : Kind} : take s b (behind y code ps k) i (.punct .comma) w
      = .ok (some (behindComma y (code ++ instrsOf (s.line i) ps), i + 1)) w := by
  have hflush : Yard.flushOps (fun _ => true) (s.line i) (y.code ++ code) (pendingOps ps ++ [])
      = (y.code ++ code ++ instrsOf (s.line i) ps, []) :=
    flushOps_pendingOps (s.line i) (show Stops (fun _ => true) [] from trivial) ps
      (fun _ _ => rfl) _
  rw [List.append_nil] at hflush
  simp [take, comma, behind, behindComma, hflush, hbuf, bind, EStateM.bind, pure_apply]

/-- The tokens of expressions take the yard behind the last of them: the code of the others is let
out, and the last may leave operators waiting. -/
theorem takeAll_exprs (hw : Finds w Γ) (es : List Expr) (hne : es ≠ [])
    (hg : ∀ e ∈ es, e.isGrouped = true) {ops : List Op} (hops : codeAll Γ es = some ops) {i : Nat}
    {t : Token} {rest : List Token} (hts : TokensAt s i (exprTokens es ++ t :: rest))
    (ht : endsExpr t = true) {y : Yard} (hy : y.expectOperand = true) (hbuf : y.buffer = [])
    (hstart : b = true → y.prev = none → (exprTokens es).head? ≠ some (.punct .lcurly)) :
    ∃ code ps k used, opsOf code ++ ps = ops ∧ EndsOperand k ∧ used ≤ (exprTokens es).length ∧
      ∀ fuel, takeAll s b (fuel + used) y i w
        = takeAll s b fuel (behind y code ps k) (i + (exprTokens es).length) w := by
  -- By induction on the expressions: a comma leaves an empty buffer for the ones behind it.
  induction es using exprTokens.induct generalizing ops i y with
  | case1 => exact absurd rfl hne
  | case2 e =>
    rw [exprTokens] at hts hstart ⊢
    obtain ⟨us, hus, hops⟩ := Option.bind_eq_some_iff.1 hops
    obtain rfl : us = ops := by simpa [codeAll] using hops
    obtain ⟨x, hx, rfl⟩ := Option.map_eq_some_iff.1 hus
    have hcut : Detached e.tokens e.strength (s.kind? (i + e.tokens.length)) := by
      rw [hts.skip.kind?]
      exact detached_of_endsExpr ht _ _
    obtain ⟨code, ps, k, used, hcode, -, hk, hused, htake⟩ :=
      (Expr.written hw (hg e (List.mem_singleton_self e)) hx false).absorbs hts hcut hy
        (fun _ o tail h => by rw [hbuf] at h; cases h) (fun h => absurd h Bool.false_ne_true) hstart
    exact ⟨code, ps, k, used, hcode, hk, by omega, htake⟩
  | case3 e es hes ih =>
    have hcons : exprTokens (e :: es) = e.tokens ++ .punct .comma :: exprTokens es := by
      rw [exprTokens]
      exact hes
    rw [hcons] at hts hstart ⊢
    obtain ⟨us, hus, hops⟩ := Option.bind_eq_some_iff.1 hops
    obtain ⟨vs, hvs, rfl⟩ := Option.map_eq_some_iff.1 hops
    obtain ⟨x, hx, rfl⟩ := Option.map_eq_some_iff.1 hus
    have hwritten := Expr.written hw (hg e (List.mem_cons_self ..)) hx false
    rw [List.append_assoc, List.cons_append] at hts
    have hcomma := hts.skip
    have hcut : Detached e.tokens e.strength (s.kind? (i + e.tokens.length)) := by
      rw [hcomma.kind?]
      exact .of_next (by simp [Token.kind]) (by simp [Token.kind]) (by simp [Token.kind])
    obtain ⟨code₁, ps₁, k₁, used₁, hcode₁, -, -, hused₁, htake₁⟩ :=
      hwritten.absorbs hts hcut hy (fun _ o tail h => by rw [hbuf] at h; cases h)
        (fun h => absurd h Bool.false_ne_true) fun hb hp => by
          rw [← List.head?_append_of_ne_nil _ hwritten.ne_nil]
          exact hstart hb hp
    obtain ⟨code₂, ps₂, k₂, used₂, hcode₂, hk₂, hused₂, htake₂⟩ :=
      ih (y := behindComma y (code₁ ++ instrsOf (s.line (i + e.tokens.length)) ps₁)) hes
        (fun e he => hg e (List.mem_cons_of_mem _ he)) hvs hcomma.next rfl hbuf
        fun _ hp => by cases hp
    refine ⟨code₁ ++ instrsOf (s.line (i + e.tokens.length)) ps₁ ++ code₂, ps₂, k₂,
      used₁ + 1 + used₂, ?_, hk₂, ?_, fun fuel => ?_⟩
    · rw [← hcode₁, ← hcode₂]
      simp
    · rw [List.length_append, List.length_cons]
      omega
    · have hlen : i + (e.tokens ++ .punct .comma :: exprTokens es).length
          = i + e.tokens.length + 1 + (exprTokens es).length := by
        rw [List.length_append, List.length_cons]
        omega
      rw [show fuel + (used₁ + 1 + used₂) = fuel + used₂ + 1 + used₁ by omega, htake₁,
        takeAll_succ hcomma.token? (take_comma hbuf), htake₂, hlen]
      simp [behind, behindComma]

/-- **Expressions**: the tokens of grouped expressions with commas between them compile to their
postfix codes, which are added to the innermost open block. -/
theorem expression_tokens (hw : Finds w Γ) {es : List Expr} (hne : es ≠ [])
    (hg : ∀ e ∈ es, e.isGrouped = true) {ops : List Op} (hops : codeAll Γ es = some ops) {i : Nat}
    {t : Token} {rest : List Token} (hts : TokensAt s i (exprTokens es ++ t :: rest))
    (ht : endsExpr t = true) (hstart : b = true → (exprTokens es).head? ≠ some (.punct .lcurly)) :
    ∃ code, opsOf code = ops ∧ expression s b i w
      = .ok (i + (exprTokens es).length)
          (w.modifyTop fun b => { b with code := b.code ++ code }) := by
  obtain ⟨code, ps, k, used, hcode, hk, hused, htake⟩ :=
    takeAll_exprs hw es hne hg hops hts ht (y := {}) rfl rfl fun hb _ => hstart hb
  refine ⟨_, ?_, expression_of_takeAll htake hk hused hts fun t' ht' => ?_⟩
  · simpa using hcode
  · cases ht'
    exact stopsBefore_of_endsExpr ht

end Lists

end Covenant.Structured
