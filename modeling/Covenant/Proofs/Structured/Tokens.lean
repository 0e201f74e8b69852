import Covenant.Proofs.Structured.Syntax

/-!
# The tokens of structured programs

Reading turns `elif` into an `else` block of its own, so the tokens of a program are not its words
one by one. `Tokens` gives the tokens a tree can be read as. The main statement is
`Func.read_of_writtenAs`: every spelling of a function reads as tokens of the function.

Inside the braces of an `if` the reader counts depth, and the braces that `elif` opened are closed
all at once behind the last branch (`Branches.feedAll_written`).
-/

namespace Covenant.Structured

/-! ### Tokens of trees -/

/-- The token a key is read as. -/
def Key.token : Key → Token
  | name x => .ident x
  | quoted l _ _ => .const l.value

/-- The comma in front of every element but the first. -/
def commaTokens (behind : Bool) : List Token := if behind then [.punct .comma] else []

mutual

/-- The tokens of an operand. -/
def Operand.tokens : Operand → List Token
  | .literal l => [.const l.value]
  | .var x => [.ident x]
  | .array os => .punct .lbrack :: (os.tokens false ++ [.punct .rbrack])
  | .map es => .punct .lcurly :: (es.tokens false ++ [.punct .rcurly])

/-- The tokens of elements, the first of which may stand behind others. -/
def Operands.tokens (behind : Bool) : Operands → List Token
  | .nil => []
  | .cons o rest => commaTokens behind ++ (o.tokens ++ rest.tokens true)

/-- The tokens of entries, the first of which may stand behind others. -/
def Entries.tokens (behind : Bool) : Entries → List Token
  | .nil => []
  | .cons k o rest =>
    commaTokens behind ++ k.token :: .punct .colon :: (o.tokens ++ rest.tokens true)

end

/-- The tokens of an expression. -/
def Expr.tokens : Expr → List Token
  | .operand o => o.tokens
  | .unary op e => .oper (unarySign op) :: e.tokens
  | .binary op a b => a.tokens ++ .oper (binarySign op) :: b.tokens
  | .paren e => .punct .lpar :: (e.tokens ++ [.punct .rpar])

/-- Some line ends. -/
def lineEnds (n : Nat) : List Token := List.replicate n .newline

/-- Names with commas between them. -/
def nameTokens : List String → List Token
  | [] => []
  | [x] => [.ident x]
  | x :: xs => .ident x :: .punct .comma :: nameTokens xs

/-- Groups of names, each with its type behind it. -/
def groupTokens : List (List String × Ty) → List Token
  | [] => []
  | (names, ty) :: groups => nameTokens names ++ .type ty :: groupTokens groups

/-- Expressions with commas between them. -/
def exprTokens : List Expr → List Token
  | [] => []
  | [e] => e.tokens
  | e :: es => e.tokens ++ .punct .comma :: exprTokens es

/-- Parameters with commas between them. -/
def paramTokens : List (String × Ty) → List Token
  | [] => []
  | [(x, t)] => [.ident x, .type t]
  | (x, t) :: ps => .ident x :: .type t :: .punct .comma :: paramTokens ps

mutual

/-- The tokens a statement can be read as. -/
def Stmt.Tokens : Stmt → List Token → Prop
  | .declare groups, ts => ts = .keyword .var :: groupTokens groups
  | .assign xs es, ts => ts = nameTokens xs ++ .punct .eq :: exprTokens es
  | .return e, ts => ts = .keyword .return :: e.tokens
  | .break, ts => ts = [.keyword .break]
  | .continue, ts => ts = [.keyword .continue]
  | .if c b rest, ts => ∃ bs rs, b.Tokens bs ∧ rest.Tokens rs ∧
      ts = .keyword .if :: (c.tokens ++ .punct .lcurly :: (bs ++ .punct .rcurly :: rs))
  | .while c b, ts => ∃ bs, b.Tokens bs ∧
      ts = .keyword .while :: (c.tokens ++ .punct .lcurly :: (bs ++ [.punct .rcurly]))

/-- The tokens further branches can be read as: an `elif` opens an `else` block. -/
def Branches.Tokens : Branches → List Token → Prop
  | .none, ts => ts = []
  | .else b, ts => ∃ n bs, b.Tokens bs ∧
      ts = lineEnds n ++ .keyword .else :: .punct .lcurly :: (bs ++ [.punct .rcurly])
  | .elif c b rest, ts => ∃ n bs rs, b.Tokens bs ∧ rest.Tokens rs ∧
      ts = lineEnds n ++ .keyword .else :: .punct .lcurly :: .keyword .if ::
        (c.tokens ++ .punct .lcurly :: (bs ++ .punct .rcurly :: (rs ++ [.punct .rcurly])))

/-- The tokens a block can be read as. -/
def Body.Tokens : Body → List Token → Prop
  | .nil, ts => ∃ n, ts = lineEnds n
  | .cons s rest, ts => ∃ n m us vs, s.Tokens us ∧ rest.Tokens vs ∧ (rest = .nil ∨ 0 < m) ∧
      ts = lineEnds n ++ (us ++ (lineEnds m ++ vs))

end

/-- The tokens a function can be read as. -/
def Func.Tokens (f : Func) (ts : List Token) : Prop :=
  ∃ n m bs, f.body.Tokens bs ∧
    ts = lineEnds n ++ .keyword .func :: .ident f.name :: .punct .lpar ::
      (paramTokens f.params ++ .punct .rpar :: .type f.result :: .punct .lcurly ::
        (bs ++ .punct .rcurly :: lineEnds m))

/-! ### Feeding words that open nothing -/

theorem feed_newline (ts : List Token) (fs : List OpenIf) (after : List Word) :
    Draft.feed ⟨ts, fs⟩ .newline after = ⟨ts ++ [.newline], fs⟩ := rfl

/-- Line feeds are read as they are. -/
theorem feedAll_newlines (ts : List Token) (fs : List OpenIf) (n : Nat) (after : List Word) :
    Draft.feedAll ⟨ts, fs⟩ (newlines n ++ after) = Draft.feedAll ⟨ts ++ lineEnds n, fs⟩ after := by
  induction n generalizing ts with
  | zero => rw [lineEnds, List.replicate_zero, List.append_nil]; rfl
  | succ n ih =>
    have hw : newlines (n + 1) ++ after = .newline :: (newlines n ++ after) := rfl
    have ht : lineEnds (n + 1) = .newline :: lineEnds n := rfl
    rw [hw, Draft.feedAll, feed_newline, ih, ht, List.append_assoc, List.singleton_append]

theorem feed_name (ts : List Token) (fs : List OpenIf) (x : String) (after : List Word) :
    Draft.feed ⟨ts, fs⟩ (.name x) after = ⟨ts ++ [.ident x], fs⟩ := rfl

theorem feed_type (ts : List Token) (fs : List OpenIf) (t : Ty) (after : List Word) :
    Draft.feed ⟨ts, fs⟩ (.type t) after = ⟨ts ++ [.type t], fs⟩ := rfl

theorem feed_oper (ts : List Token) (fs : List OpenIf) (o : Operator) (after : List Word) :
    Draft.feed ⟨ts, fs⟩ (.oper o) after = ⟨ts ++ [.oper o], fs⟩ := rfl

/-- A mark other than a brace stands for itself. -/
theorem feed_punct (ts : List Token) (fs : List OpenIf) {p : Punct} (hl : p ≠ .lcurly)
    (hr : p ≠ .rcurly) (after : List Word) :
    Draft.feed ⟨ts, fs⟩ (.punct p) after = ⟨ts ++ [.punct p], fs⟩ := by
  cases p <;> first | rfl | exact absurd rfl hl | exact absurd rfl hr

/-- A keyword that does not belong to an `if` stands for itself. -/
theorem feed_keyword (ts : List Token) (fs : List OpenIf) {k : Keyword} (hi : k ≠ .if)
    (he : k ≠ .elif) (after : List Word) :
    Draft.feed ⟨ts, fs⟩ (.keyword k) after = ⟨ts ++ [.keyword k], fs⟩ := by
  cases k <;> first | rfl | exact absurd rfl hi | exact absurd rfl he

/-! ### Feeding braces -/

/-- Whether the reader stands inside the braces of the innermost open `if`. -/
def Inside : List OpenIf → Prop
  | [] => True
  | f :: _ => 0 < f.depth

/-- Counts one more brace in the innermost open `if`. -/
def deeper : List OpenIf → List OpenIf
  | [] => []
  | f :: fs => { f with depth := f.depth + 1 } :: fs

theorem inside_deeper (fs : List OpenIf) : Inside (deeper fs) := by
  cases fs with
  | nil => trivial
  | cons f fs => exact Nat.succ_pos _

theorem feed_lcurly (ts : List Token) (fs : List OpenIf) (after : List Word) :
    Draft.feed ⟨ts, fs⟩ (.punct .lcurly) after = ⟨ts ++ [.punct .lcurly], deeper fs⟩ := by
  cases fs <;> rfl

/-- A right brace that closes no branch only undoes its left brace. -/
theorem feed_rcurly {fs : List OpenIf} (h : Inside fs) (ts : List Token) (after : List Word) :
    Draft.feed ⟨ts, deeper fs⟩ (.punct .rcurly) after = ⟨ts ++ [.punct .rcurly], fs⟩ := by
  cases fs with
  | nil => rfl
  | cons f fs =>
    have hf : 0 < f.depth := h
    simp [Draft.feed, Draft.push, Draft.closeBrace, deeper, hf]

/-! ### Feeding expressions -/

/-- So is a comma between two operands. -/
theorem feedAll_commaWords (behind : Bool) (ts : List Token) (fs : List OpenIf)
    (after : List Word) :
    Draft.feedAll ⟨ts, fs⟩ (commaWords behind ++ after)
      = Draft.feedAll ⟨ts ++ commaTokens behind, fs⟩ after := by
  cases behind with
  | false => rw [commaWords, commaTokens, if_neg Bool.false_ne_true, if_neg Bool.false_ne_true,
      List.append_nil, List.nil_append]
  | true => rfl

theorem feed_key (k : Key) (ts : List Token) (fs : List OpenIf) (after : List Word) :
    Draft.feed ⟨ts, fs⟩ k.word after = ⟨ts ++ [k.token], fs⟩ := by
  cases k <;> rfl

mutual

/-- An operand feeds its tokens. Right behind an `if` the reader would take a brace for that of the
branch, so there it must have none. -/
theorem Operand.feedAll_words (o : Operand) {fs : List OpenIf}
    (h : o.isBraceless = true ∨ Inside fs) (ts : List Token) (after : List Word) :
    Draft.feedAll ⟨ts, fs⟩ (o.words ++ after) = Draft.feedAll ⟨ts ++ o.tokens, fs⟩ after := by
  cases o with
  | literal l => rfl
  | var x => rfl
  | array os =>
    rw [Operand.words, List.cons_append, Draft.feedAll, feed_punct _ _ (by decide) (by decide),
      List.append_assoc, os.feedAll_words h, List.singleton_append, Draft.feedAll,
      feed_punct _ _ (by decide) (by decide), Operand.tokens]
    simp only [List.append_assoc, List.cons_append, List.nil_append]
  | map es =>
    have hin : Inside fs := h.resolve_left Bool.false_ne_true
    rw [Operand.words, List.cons_append, Draft.feedAll, feed_lcurly, List.append_assoc,
      es.feedAll_words (inside_deeper fs), List.singleton_append, Draft.feedAll, feed_rcurly hin,
      Operand.tokens]
    simp only [List.append_assoc, List.cons_append, List.nil_append]

/-- Elements feed their tokens. -/
theorem Operands.feedAll_words (os : Operands) {behind : Bool} {fs : List OpenIf}
    (h : os.isBraceless = true ∨ Inside fs) (ts : List Token) (after : List Word) :
    Draft.feedAll ⟨ts, fs⟩ (os.words behind ++ after)
      = Draft.feedAll ⟨ts ++ os.tokens behind, fs⟩ after := by
  cases os with
  | nil => rw [Operands.words, Operands.tokens, List.append_nil, List.nil_append]
  | cons o rest =>
    have ho : o.isBraceless = true ∨ Inside fs := h.imp_left fun h => (Bool.and_eq_true_iff.1 h).1
    have hrest : rest.isBraceless = true ∨ Inside fs :=
      h.imp_left fun h => (Bool.and_eq_true_iff.1 h).2
    rw [Operands.words, List.append_assoc, feedAll_commaWords, List.append_assoc,
      o.feedAll_words ho, rest.feedAll_words hrest, Operands.tokens]
    simp only [List.append_assoc]

/-- Entries feed their tokens; they stand inside of a brace. -/
theorem Entries.feedAll_words (es : Entries) {behind : Bool} {fs : List OpenIf} (h : Inside fs)
    (ts : List Token) (after : List Word) :
    Draft.feedAll ⟨ts, fs⟩ (es.words behind ++ after)
      = Draft.feedAll ⟨ts ++ es.tokens behind, fs⟩ after := by
  cases es with
  | nil => rw [Entries.words, Entries.tokens, List.append_nil, List.nil_append]
  | cons k o rest =>
    rw [Entries.words, List.append_assoc, feedAll_commaWords, List.cons_append, Draft.feedAll,
      feed_key, List.cons_append, Draft.feedAll, feed_punct _ _ (by decide) (by decide),
      List.append_assoc o.words, o.feedAll_words (.inr h), rest.feedAll_words h, Entries.tokens]
    simp only [List.append_assoc, List.cons_append, List.nil_append]

end

/-- An expression feeds its tokens. -/
theorem Expr.feedAll_words (e : Expr) {fs : List OpenIf} (h : e.isBraceless = true ∨ Inside fs)
    (ts : List Token) (after : List Word) :
    Draft.feedAll ⟨ts, fs⟩ (e.words ++ after) = Draft.feedAll ⟨ts ++ e.tokens, fs⟩ after := by
  induction e generalizing ts after with
  | operand o => exact o.feedAll_words h ts after
  | unary op e ih =>
    rw [words, List.cons_append, Draft.feedAll, feed_oper, ih h, tokens, List.append_assoc,
      List.singleton_append]
  | binary op a b iha ihb =>
    have ha : a.isBraceless = true ∨ Inside fs := h.imp_left fun h => (Bool.and_eq_true_iff.1 h).1
    have hb : b.isBraceless = true ∨ Inside fs := h.imp_left fun h => (Bool.and_eq_true_iff.1 h).2
    rw [words, List.append_assoc, iha ha, List.cons_append, Draft.feedAll,
      feed_oper, ihb hb, tokens]
    simp only [List.append_assoc, List.singleton_append]
  | paren e ih =>
    rw [words, List.cons_append, Draft.feedAll, feed_punct _ _ (by decide) (by decide),
      List.append_assoc, ih h, List.singleton_append, Draft.feedAll,
      feed_punct _ _ (by decide) (by decide), tokens]
    simp only [List.append_assoc, List.cons_append, List.nil_append]

/-! ### Feeding lists -/

/-- Expressions inside of a block feed their tokens. -/
theorem feedAll_exprWords (es : List Expr) {fs : List OpenIf} (h : Inside fs) (ts : List Token)
    (after : List Word) :
    Draft.feedAll ⟨ts, fs⟩ (exprWords es ++ after)
      = Draft.feedAll ⟨ts ++ exprTokens es, fs⟩ after := by
  induction es using exprWords.induct generalizing ts with
  | case1 => rw [exprWords, exprTokens, List.append_nil, List.nil_append]
  | case2 e => exact e.feedAll_words (.inr h) ts after
  | case3 e es hne ih =>
    rw [exprWords, exprTokens, List.append_assoc, e.feedAll_words (.inr h), List.cons_append,
      Draft.feedAll, feed_punct _ _ (by decide) (by decide), ih]
    · simp only [List.append_assoc, List.cons_append, List.nil_append]
    · exact hne
    · exact hne

/-- So are names with commas between them. -/
theorem feedAll_nameWords (names : List String) (ts : List Token) (fs : List OpenIf)
    (after : List Word) :
    Draft.feedAll ⟨ts, fs⟩ (nameWords names ++ after)
      = Draft.feedAll ⟨ts ++ nameTokens names, fs⟩ after := by
  induction names using nameWords.induct generalizing ts with
  | case1 => rw [nameWords, nameTokens, List.append_nil, List.nil_append]
  | case2 x => rfl
  | case3 x xs hne ih =>
    rw [nameWords, nameTokens, List.cons_append, Draft.feedAll, feed_name, List.cons_append,
      Draft.feedAll, feed_punct _ _ (by decide) (by decide), ih]
    · simp only [List.append_assoc, List.cons_append, List.nil_append]
    · exact hne
    · exact hne

/-- So are the groups of a declaration. -/
theorem feedAll_groupWords (groups : List (List String × Ty)) (ts : List Token) (fs : List OpenIf)
    (after : List Word) :
    Draft.feedAll ⟨ts, fs⟩ (groupWords groups ++ after)
      = Draft.feedAll ⟨ts ++ groupTokens groups, fs⟩ after := by
  induction groups generalizing ts with
  | nil => rw [groupWords, groupTokens, List.append_nil, List.nil_append]
  | cons g groups ih =>
    rw [groupWords, groupTokens, List.append_assoc, feedAll_nameWords, List.cons_append,
      Draft.feedAll, feed_type, ih]
    simp only [List.append_assoc, List.singleton_append]

/-- So are the parameters of a function. -/
theorem feedAll_paramWords (ps : List (String × Ty)) (ts : List Token) (fs : List OpenIf)
    (after : List Word) :
    Draft.feedAll ⟨ts, fs⟩ (paramWords ps ++ after)
      = Draft.feedAll ⟨ts ++ paramTokens ps, fs⟩ after := by
  induction ps using paramWords.induct generalizing ts with
  | case1 => rw [paramWords, paramTokens, List.append_nil, List.nil_append]
  | case2 x t =>
    rw [paramWords, paramTokens, List.cons_append, Draft.feedAll, feed_name, List.singleton_append,
      Draft.feedAll, feed_type, List.append_assoc, List.singleton_append]
  | case3 x t ps hne ih =>
    rw [paramWords, paramTokens, List.cons_append, Draft.feedAll, feed_name, List.cons_append,
      Draft.feedAll, feed_type, List.cons_append, Draft.feedAll,
      feed_punct _ _ (by decide) (by decide), ih]
    · simp only [List.append_assoc, List.cons_append, List.nil_append]
    · exact hne
    · exact hne

/-! ### Feeding blocks -/

/-- A right brace before a further branch leaves the `if` open. -/
theorem feed_rcurly_more {after : List Word} (h : branchAhead after = true) (ts : List Token)
    (owed : Nat) (fs : List OpenIf) :
    Draft.feed ⟨ts, ⟨1, owed⟩ :: fs⟩ (.punct .rcurly) after
      = ⟨ts ++ [.punct .rcurly], ⟨0, owed⟩ :: fs⟩ := by
  simp [Draft.feed, Draft.closeBrace, Draft.push, h]

/-- The right brace of the last branch is followed by the braces that are owed. -/
theorem feed_rcurly_last {after : List Word} (h : branchAhead after = false) (ts : List Token)
    (owed : Nat) (fs : List OpenIf) :
    Draft.feed ⟨ts, ⟨1, owed⟩ :: fs⟩ (.punct .rcurly) after
      = ⟨ts ++ .punct .rcurly :: List.replicate owed (.punct .rcurly), fs⟩ := by
  simp [Draft.feed, Draft.closeBrace, Draft.push, h]

theorem feed_if (ts : List Token) (fs : List OpenIf) (after : List Word) :
    Draft.feed ⟨ts, fs⟩ (.keyword .if) after = ⟨ts ++ [.keyword .if], {} :: fs⟩ := rfl

theorem feed_elif (ts : List Token) (owed : Nat) (fs : List OpenIf) (after : List Word) :
    Draft.feed ⟨ts, ⟨0, owed⟩ :: fs⟩ (.keyword .elif) after
      = ⟨ts ++ [.keyword .else, .punct .lcurly, .keyword .if], ⟨0, owed + 1⟩ :: fs⟩ := rfl

/-- The left brace of a branch opens it. -/
theorem feed_lcurly_branch (ts : List Token) (owed : Nat) (fs : List OpenIf) (after : List Word) :
    Draft.feed ⟨ts, ⟨0, owed⟩ :: fs⟩ (.punct .lcurly) after
      = ⟨ts ++ [.punct .lcurly], ⟨1, owed⟩ :: fs⟩ := rfl

theorem branchAhead_newlines (n : Nat) (ws : List Word) :
    branchAhead (newlines n ++ ws) = branchAhead ws := by
  induction n with
  | zero => rfl
  | succ n ih => exact ih

theorem branchAhead_nameWords (names : List String) (ws : List Word) :
    branchAhead (nameWords names ++ .punct .eq :: ws) = false := by
  match names with
  | [] => rfl
  | [x] => rfl
  | x :: y :: names => rfl

/-- No statement starts like a further branch. -/
theorem Stmt.branchAhead_written {s : Stmt} {ws : List Word} (h : s.Written ws)
    (after : List Word) : branchAhead (ws ++ after) = false := by
  cases s with
  | declare | «return» | «break» | «continue» =>
    rw [Stmt.Written] at h
    subst h
    rfl
  | assign xs es =>
    rw [Stmt.Written] at h
    subst h
    rw [List.append_assoc]
    exact branchAhead_nameWords xs _
  | «if» c b rest =>
    rw [Stmt.Written] at h
    obtain ⟨bs, rs, -, -, rfl⟩ := h
    rfl
  | «while» c b =>
    rw [Stmt.Written] at h
    obtain ⟨bs, -, rfl⟩ := h
    rfl

/-- No branch is ahead in front of a body. -/
theorem Body.branchAhead_written {b : Body} {ws : List Word} (h : b.Written ws)
    {after : List Word} (hafter : branchAhead after = false) :
    branchAhead (ws ++ after) = false := by
  cases b with
  | nil =>
    rw [Body.Written] at h
    obtain ⟨n, rfl⟩ := h
    rw [branchAhead_newlines, hafter]
  | cons s rest =>
    rw [Body.Written] at h
    obtain ⟨n, m, us, vs, hs, -, -, rfl⟩ := h
    rw [List.append_assoc, branchAhead_newlines, List.append_assoc]
    exact Stmt.branchAhead_written hs _

mutual

/-- A statement feeds its tokens and leaves the open `if`s as they were. -/
theorem Stmt.feedAll_written (s : Stmt) {scopes : List (List String)} {inLoop : Bool}
    (hs : s.isScoped scopes inLoop = true) {ws : List Word} (h : s.Written ws) {fs : List OpenIf}
    (hin : Inside fs) {after : List Word} (hafter : branchAhead after = false) :
    ∃ ts, s.Tokens ts ∧
      ∀ us, Draft.feedAll ⟨us, fs⟩ (ws ++ after) = Draft.feedAll ⟨us ++ ts, fs⟩ after := by
  cases s with
  | declare groups =>
    rw [Stmt.Written] at h
    subst h
    refine ⟨_, by rw [Stmt.Tokens], fun us => ?_⟩
    simp only [List.cons_append, List.append_assoc, List.nil_append, Draft.feedAll,
      feed_keyword _ _ (by decide : Keyword.var ≠ .if) (by decide), feedAll_groupWords]
  | assign xs es =>
    rw [Stmt.Written] at h
    subst h
    refine ⟨_, by rw [Stmt.Tokens], fun us => ?_⟩
    simp only [List.cons_append, List.append_assoc, List.nil_append, Draft.feedAll,
      feedAll_nameWords, feed_punct _ _ (by decide : Punct.eq ≠ .lcurly) (by decide),
      feedAll_exprWords es hin]
  | «return» e =>
    rw [Stmt.Written] at h
    subst h
    refine ⟨_, by rw [Stmt.Tokens], fun us => ?_⟩
    simp only [List.cons_append, List.append_assoc, List.nil_append, Draft.feedAll,
      feed_keyword _ _ (by decide : Keyword.return ≠ .if) (by decide),
      e.feedAll_words (.inr hin)]
  | «break» | «continue» =>
    rw [Stmt.Written] at h
    subst h
    exact ⟨_, by rw [Stmt.Tokens], fun us => rfl⟩
  | «if» c b rest =>
    rw [Stmt.Written] at h
    obtain ⟨bs, rs, hb, hr, rfl⟩ := h
    rw [Stmt.isScoped, Bool.and_eq_true, Bool.and_eq_true, Expr.isCondition, Bool.and_eq_true] at hs
    obtain ⟨rt, hrt, hrfeed⟩ := rest.feedAll_written hs.2 hr 0 fs hafter
    obtain ⟨bt, hbt, hbfeed⟩ := b.feedAll_written hs.1.2 hb
      (show Inside (⟨1, 0⟩ :: fs) from Nat.one_pos)
      (show branchAhead (.punct .rcurly :: (rs ++ after)) = false from rfl)
    refine ⟨_, by rw [Stmt.Tokens]; exact ⟨bt, rt, hbt, hrt, rfl⟩, fun us => ?_⟩
    -- The condition has no braces of its own, so the frame of the `if` is open at its branches.
    simp only [List.cons_append, List.append_assoc, List.nil_append, Draft.feedAll, feed_if,
      c.feedAll_words (.inl hs.1.1.1), feed_lcurly_branch]
    rw [hbfeed, hrfeed]
    simp only [List.replicate_zero, List.append_nil, List.append_assoc, List.cons_append,
      List.nil_append]
  | «while» c b =>
    rw [Stmt.Written] at h
    obtain ⟨bs, hb, rfl⟩ := h
    rw [Stmt.isScoped, Bool.and_eq_true] at hs
    obtain ⟨bt, hbt, hbfeed⟩ := b.feedAll_written hs.2 hb (inside_deeper fs)
      (show branchAhead (.punct .rcurly :: after) = false from rfl)
    refine ⟨_, by rw [Stmt.Tokens]; exact ⟨bt, hbt, rfl⟩, fun us => ?_⟩
    simp only [List.cons_append, List.append_assoc, List.nil_append, Draft.feedAll,
      feed_keyword _ _ (by decide : Keyword.while ≠ .if) (by decide), c.feedAll_words (.inr hin),
      feed_lcurly, hbfeed, feed_rcurly hin]

/-- The branches behind a right brace feed their tokens, and behind the last of them stand the
braces that are owed. -/
theorem Branches.feedAll_written (rest : Branches) {scopes : List (List String)} {inLoop : Bool}
    (hs : rest.isScoped scopes inLoop = true) {ws : List Word} (h : rest.Written ws) (owed : Nat)
    (fs : List OpenIf) {after : List Word} (hafter : branchAhead after = false) :
    ∃ ts, rest.Tokens ts ∧
      ∀ us, Draft.feedAll ⟨us, ⟨1, owed⟩ :: fs⟩ (.punct .rcurly :: (ws ++ after))
        = Draft.feedAll
            ⟨us ++ .punct .rcurly :: (ts ++ List.replicate owed (.punct .rcurly)), fs⟩ after := by
  cases rest with
  | none =>
    rw [Branches.Written] at h
    subst h
    refine ⟨[], by rw [Branches.Tokens], fun us => ?_⟩
    rw [List.nil_append, Draft.feedAll, feed_rcurly_last hafter, List.nil_append]
  | «else» b =>
    rw [Branches.Written] at h
    obtain ⟨n, bs, hb, rfl⟩ := h
    rw [Branches.isScoped] at hs
    obtain ⟨bt, hbt, hbfeed⟩ := b.feedAll_written hs hb
      (show Inside (⟨1, owed⟩ :: fs) from Nat.one_pos)
      (show branchAhead (.punct .rcurly :: after) = false from rfl)
    refine ⟨_, by rw [Branches.Tokens]; exact ⟨n, bt, hbt, rfl⟩, fun us => ?_⟩
    have hmore : branchAhead (newlines n ++ .keyword .else :: .punct .lcurly ::
        (bs ++ .punct .rcurly :: after)) = true := by
      rw [branchAhead_newlines]
      rfl
    simp only [List.cons_append, List.append_assoc, List.nil_append, Draft.feedAll,
      feed_rcurly_more hmore, feedAll_newlines,
      feed_keyword _ _ (by decide : Keyword.else ≠ .if) (by decide), feed_lcurly_branch]
    rw [hbfeed, Draft.feedAll, feed_rcurly_last hafter]
    simp only [List.append_assoc, List.cons_append, List.nil_append]
  | elif c b rest =>
    rw [Branches.Written] at h
    obtain ⟨n, bs, rs, hb, hr, rfl⟩ := h
    rw [Branches.isScoped, Bool.and_eq_true, Bool.and_eq_true, Expr.isCondition,
      Bool.and_eq_true] at hs
    -- Every `elif` owes one brace, which the last branch of the chain pays.
    obtain ⟨rt, hrt, hrfeed⟩ := rest.feedAll_written hs.2 hr (owed + 1) fs hafter
    obtain ⟨bt, hbt, hbfeed⟩ := b.feedAll_written hs.1.2 hb
      (show Inside (⟨1, owed + 1⟩ :: fs) from Nat.one_pos)
      (show branchAhead (.punct .rcurly :: (rs ++ after)) = false from rfl)
    refine ⟨_, by rw [Branches.Tokens]; exact ⟨n, bt, rt, hbt, hrt, rfl⟩, fun us => ?_⟩
    have hmore : branchAhead (newlines n ++ .keyword .elif :: (c.words ++ .punct .lcurly ::
        (bs ++ .punct .rcurly :: (rs ++ after)))) = true := by
      rw [branchAhead_newlines]
      rfl
    simp only [List.cons_append, List.append_assoc, List.nil_append, Draft.feedAll,
      feed_rcurly_more hmore, feedAll_newlines, feed_elif, c.feedAll_words (.inl hs.1.1.1),
      feed_lcurly_branch]
    rw [hbfeed, hrfeed, List.replicate_succ]
    simp only [List.append_assoc, List.cons_append, List.nil_append]

/-- A block feeds its tokens and leaves the open `if`s as they were. -/
theorem Body.feedAll_written (b : Body) {scopes : List (List String)} {inLoop : Bool}
    (hs : b.isScoped scopes inLoop = true) {ws : List Word} (h : b.Written ws) {fs : List OpenIf}
    (hin : Inside fs) {after : List Word} (hafter : branchAhead after = false) :
    ∃ ts, b.Tokens ts ∧
      ∀ us, Draft.feedAll ⟨us, fs⟩ (ws ++ after) = Draft.feedAll ⟨us ++ ts, fs⟩ after := by
  cases b with
  | nil =>
    rw [Body.Written] at h
    obtain ⟨n, rfl⟩ := h
    exact ⟨_, by rw [Body.Tokens]; exact ⟨n, rfl⟩, fun us => feedAll_newlines _ _ _ _⟩
  | cons s rest =>
    rw [Body.Written] at h
    obtain ⟨n, m, ws, vs, hw, hr, hm, rfl⟩ := h
    rw [Body.isScoped, Bool.and_eq_true] at hs
    have hrest : branchAhead (newlines m ++ (vs ++ after)) = false := by
      rw [branchAhead_newlines]
      exact Body.branchAhead_written hr hafter
    obtain ⟨st, hst, hsfeed⟩ := s.feedAll_written hs.1 hw hin hrest
    obtain ⟨rt, hrt, hrfeed⟩ := rest.feedAll_written hs.2 hr hin hafter
    refine ⟨_, by rw [Body.Tokens]; exact ⟨n, m, st, rt, hst, hrt, hm, rfl⟩, fun us => ?_⟩
    simp only [List.append_assoc, feedAll_newlines, hsfeed, hrfeed]

end

/-- **Reading a function**: every spelling of a scoped function reads as tokens of the function,
with a line end behind. -/
theorem Func.read_of_writtenAs {f : Func} {text : String} (hs : f.isScoped = true)
    (h : f.WrittenAs text) :
    ∃ lexemes ts, Lexeme.read text = .ok lexemes ∧ f.Tokens ts ∧
      lexemes.toList.map Lexeme.token = ts ++ [.newline] := by
  obtain ⟨ws, ⟨n, m, bs, hb, rfl⟩, hspell⟩ := h
  obtain ⟨lexemes, hread, htokens⟩ := read_of_spells hspell
  obtain ⟨bt, hbt, hbfeed⟩ :=
    f.body.feedAll_written (Bool.and_eq_true_iff.1 hs).2 hb (inside_deeper [])
    (show branchAhead (.punct .rcurly :: (newlines m ++ [.newline])) = false from rfl)
  refine ⟨lexemes, _, hread, ⟨n, m, bt, hbt, rfl⟩, ?_⟩
  have hstart : ({} : Draft) = ⟨[], []⟩ := rfl
  rw [htokens, hstart]
  simp only [List.cons_append, List.append_assoc, List.nil_append, feedAll_newlines, Draft.feedAll,
    feed_keyword _ _ (by decide : Keyword.func ≠ .if) (by decide), feed_name,
    feed_punct _ _ (by decide : Punct.lpar ≠ .lcurly) (by decide), feedAll_paramWords,
    feed_punct _ _ (by decide : Punct.rpar ≠ .lcurly) (by decide), feed_type, feed_lcurly, hbfeed,
    feed_rcurly (show Inside [] from trivial), feed_newline]

end Covenant.Structured
