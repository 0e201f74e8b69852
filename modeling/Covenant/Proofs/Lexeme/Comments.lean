import Covenant.Proofs.Lexeme.Slices

/-!
# Comments between tokens

A comment with blanks around it adds no lexeme, and leaves what the text around it reads as
(`Lexeme.read_comment`). There is one place where it does not: behind the right brace of a branch of
an `if`, the reader looks for `else` and `elif` behind blanks and line ends only, and a comment
hides them (`Lexeme.comment_hides_branch`).

The readers of two texts go side by side (`Reader.Behind`): the one has read the same tokens as the
other, which may stand behind some more.
-/

namespace Covenant

/-- Whether a slice is a right brace. -/
def Cut.IsBrace (k : Cut) : Prop := k.shape = .punct ∧ k.text.head? = some '\x7d'

namespace Reader

variable {pre : List Token} {r r' r₁ r₂ : Reader} {p p' : Position} {k k' : Cut} {ks : List Cut}

/-! ### Readers side by side -/

/-- Whether a reader has read the tokens of another one behind some others, with the same `if`s
open. -/
structure Behind (pre : List Token) (r r' : Reader) : Prop where
  tokens : r'.lexemes.toList.map Lexeme.token = pre ++ r.lexemes.toList.map Lexeme.token
  ifs : r'.ifs = r.ifs

/-- Whether a right brace ends a branch of the innermost open `if`. -/
def InBranch (r : Reader) : Prop := ∃ f fs, r.ifs = f :: fs ∧ f.depth = 1

namespace Behind

theorem refl (r : Reader) : Behind [] r r := ⟨rfl, rfl⟩

theorem push (h : Behind pre r r') (t : Token) (p p' : Position) :
    Behind pre (r.push t p) (r'.push t p') := by
  refine ⟨?_, h.ifs⟩
  rw [Reader.push, Reader.push, Array.toList_push, Array.toList_push,
    List.map_append, List.map_append, h.tokens, List.append_assoc]
  rfl

theorem pushTimes (h : Behind pre r r') (t : Token) (p p' : Position) (n : Nat) :
    Behind pre (r.pushTimes t p n) (r'.pushTimes t p' n) := by
  unfold Reader.pushTimes
  induction n with
  | zero => exact h
  | succ n ih => exact ih.push t p p'

theorem setIfs (h : Behind pre r r') (ifs : List OpenIf) :
    Behind pre { r with ifs := ifs } { r' with ifs := ifs } :=
  ⟨h.tokens, rfl⟩

theorem openBrace (h : Behind pre r r') : Behind pre r.openBrace r'.openBrace := by
  unfold Reader.openBrace
  rw [h.ifs]
  split
  · exact h
  · exact h.setIfs _

/-- Where a right brace ends a branch, what follows must be alike. -/
theorem closeBrace (h : Behind pre r r') {rest rest' : List Char}
    (hbranch : r.InBranch → branchFollows rest' = branchFollows rest) (p p' : Position) :
    Behind pre (r.closeBrace p rest) (r'.closeBrace p' rest') := by
  unfold Reader.closeBrace
  rw [h.ifs]
  split
  · exact h
  · rename_i f fs hifs
    split
    · exact h
    · split
      · exact h.setIfs _
      · have hsame := hbranch ⟨f, fs, hifs, by omega⟩
        rw [hsame]
        split
        · exact h.setIfs _
        · exact (h.setIfs fs).pushTimes _ p p' _

/-- A sign is read alike behind the same tokens, if both see the same branch behind a brace. -/
theorem punct (h : Behind pre r r') {m : Punct} {rest rest' : List Char}
    (hbranch : m = .rcurly → r.InBranch → branchFollows rest' = branchFollows rest)
    (p p' : Position) :
    Behind pre (r.punct m p rest) (r'.punct m p' rest') := by
  have hpush := h.push (.punct m) p p'
  cases m with
  | lcurly => exact hpush.openBrace
  | rcurly => exact hpush.closeBrace (hbranch rfl) p p'
  | _ => exact hpush

/-- The last lexeme is the keyword `func` in both, if the tokens in front do not end in it. -/
theorem afterFunc (h : Behind pre r r') (hpre : pre.getLast? ≠ some (.keyword .func)) :
    r'.afterFunc = r.afterFunc := by
  have hlast : ∀ r : Reader, r.afterFunc
      = ((r.lexemes.toList.map Lexeme.token).getLast?).any fun t => t.kind == .keyword .func := by
    intro r
    rw [Reader.afterFunc, List.getLast?_map, Array.getLast?_toList, Option.any_map]
    rfl
  rw [hlast, hlast, h.tokens, List.getLast?_append]
  cases (r.lexemes.toList.map Lexeme.token).getLast? with
  | some t => rfl
  | none =>
    rw [Option.none_or]
    cases hl : pre.getLast? with
    | none => rfl
    | some t =>
      rw [hl] at hpre
      cases t with
      | keyword k => cases k <;> first | exact absurd rfl hpre | rfl
      | const c => cases c <;> rfl
      | _ => rfl

/-- So is a keyword. -/
theorem keyword (h : Behind pre r r') (hpre : pre.getLast? ≠ some (.keyword .func)) (k : Keyword)
    (p p' : Position) : Behind pre (r.keyword k p) (r'.keyword k p') := by
  -- The two sections of a contract are functions, so they
  -- bring the keyword `func` if it is missing.
  have hname : ∀ t : Token, Behind pre
      ((if r.afterFunc then r else r.push (.keyword .func) p).push t p)
      ((if r'.afterFunc then r' else r'.push (.keyword .func) p').push t p') := by
    intro t
    rw [h.afterFunc hpre]
    refine push ?_ t p p'
    split
    · exact h
    · exact h.push _ p p'
  cases k with
  | action | conditions => exact hname _
  | «if» =>
    show Behind pre (Reader.push { r with ifs := {} :: r.ifs } _ p)
      (Reader.push { r' with ifs := {} :: r'.ifs } _ p')
    rw [h.ifs]
    exact (h.setIfs _).push _ p p'
  | «elif» =>
    unfold Reader.keyword
    dsimp only
    rw [h.ifs]
    split
    · exact h.push _ p p'
    · exact (((h.setIfs _).push _ p p').push _ p p').push _ p p'
  | _ => exact h.push _ p p'

/-- So is a word. -/
theorem word (h : Behind pre r r') (hpre : pre.getLast? ≠ some (.keyword .func)) {cs : List Char}
    (hr : r.word cs p = .ok r₁) (p' : Position) :
    ∃ r₁', r'.word cs p' = .ok r₁' ∧ Behind pre r₁ r₁' := by
  unfold Reader.word at hr ⊢
  split at hr
  · cases hr
  · cases hr
    exact ⟨_, rfl, h.push _ p p'⟩
  · dsimp only at hr ⊢
    split at hr
    · cases hr
      exact ⟨_, rfl, h.keyword hpre _ p p'⟩
    · split at hr <;> cases hr <;> exact ⟨_, rfl, h.push _ p p'⟩

/-- Readers stay side by side behind slices that are alike. -/
theorem slice (h : Behind pre r r') (hpre : pre.getLast? ≠ some (.keyword .func))
    (hshape : k'.shape = k.shape) (htext : k'.text = k.text)
    (hbranch : k.IsBrace → r.InBranch → branchFollows k'.rest = branchFollows k.rest)
    (hr : r.slice k p = .ok r₁) (p' : Position) :
    ∃ r₁', r'.slice k' p' = .ok r₁' ∧ Behind pre r₁ r₁' := by
  unfold Reader.slice at hr ⊢
  rw [hshape, htext]
  -- Only a brace looks at what follows it, and there `hbranch` says that both readers see the same.
  cases hk : k.shape with
  | blank | comment =>
    rw [hk] at hr
    cases hr
    exact ⟨r', rfl, h⟩
  | newline | string =>
    rw [hk] at hr
    cases hr
    exact ⟨_, rfl, h.push _ p p'⟩
  | punct =>
    rw [hk] at hr
    dsimp only at hr ⊢
    split at hr
    · rename_i m hm
      cases hr
      refine ⟨_, rfl, h.punct (fun hrcurly => hbranch ⟨hk, ?_⟩) p p'⟩
      obtain ⟨c, hc, hm⟩ := Option.bind_eq_some_iff.1 hm
      have hchar : m.char = c := by simpa using List.find?_some hm
      rw [hc, ← hchar, hrcurly]
      rfl
    · cases hr
  | oper =>
    rw [hk] at hr
    dsimp only at hr ⊢
    split at hr
    · rename_i heq
      cases hr
      exact ⟨_, if_pos heq, h.push _ p p'⟩
    · rename_i hne
      split at hr <;> cases hr
      exact ⟨_, if_neg hne, h.push _ p p'⟩
  | number =>
    rw [hk] at hr
    dsimp only at hr ⊢
    split at hr <;> cases hr
    exact ⟨_, rfl, h.push _ p p'⟩
  | word =>
    rw [hk] at hr
    exact h.word hpre hr p'

end Behind

/-! ### Runs side by side -/

theorem run_step {c : Char} {cs : List Char} (hk : Cut.first c cs = .ok k)
    (hr : r.slice k p = .ok r₁) (fuel : Nat) :
    run (fuel + 1) r p (c :: cs) = run fuel r₁ (p.after k.text) k.rest := by
  rw [run, hk]
  dsimp only
  rw [hr]

/-- A run that succeeds reads the first slice and goes on behind it. -/
theorem run_eq_ok {fuel : Nat} {c : Char} {cs : List Char} (h : run fuel r p (c :: cs) = .ok r₁) :
    ∃ n k r₂, Cut.first c cs = .ok k ∧ r.slice k p = .ok r₂ ∧
      run n r₂ (p.after k.text) k.rest = .ok r₁ := by
  cases fuel with
  | zero => cases h
  | succ n =>
    unfold run at h
    split at h
    · cases h
    · rename_i k hk
      split at h
      · cases h
      · exact ⟨n, k, _, hk, ‹_›, h⟩

/-- Reading the same text, readers stay side by side. -/
theorem Behind.run (h : Behind pre r r') (hpre : pre.getLast? ≠ some (.keyword .func))
    {cs : List Char} {fuel fuel' : Nat} (hfuel' : cs.length ≤ fuel')
    (hrun : Reader.run fuel r p cs = .ok r₁) (p' : Position) :
    ∃ r₁', Reader.run fuel' r' p' cs = .ok r₁' ∧ Behind pre r₁ r₁' := by
  induction fuel' generalizing r r' p p' cs fuel with
  | zero =>
    obtain rfl : cs = [] := List.length_eq_zero_iff.1 (Nat.le_zero.1 hfuel')
    rw [Reader.run] at hrun
    cases hrun
    exact ⟨r', rfl, h⟩
  | succ fuel' ih =>
    cases cs with
    | nil =>
      rw [Reader.run] at hrun
      cases hrun
      exact ⟨r', rfl, h⟩
    | cons c cs =>
      obtain ⟨n, k, r₂, hk, hr, hrun⟩ := run_eq_ok hrun
      -- The same slice is added to both readers.
      obtain ⟨r₂', hr', h₂⟩ := h.slice hpre rfl rfl (fun _ _ => rfl) hr p'
      obtain ⟨ds, -, hcs⟩ := Cut.first_eq_ok hk
      have hlength : k.rest.length ≤ fuel' := by
        rw [hcs] at hfuel'
        simp at hfuel'
        omega
      rw [run_step hk hr']
      exact ih h₂ hlength hrun _

/-- Whether reading some slices leads from a reader to another one, positions aside. -/
inductive Feeds : Reader → List Cut → Reader → Prop
  | nil (r : Reader) : Feeds r [] r
  | cons {r r₁ r₂ : Reader} {p : Position} {k : Cut} {ks : List Cut} : r.slice k p = .ok r₁ →
      Feeds r₁ ks r₂ → Feeds r (k :: ks) r₂

/-- Whether some slices end in a right brace that ends a branch of an `if`, blanks and line ends
aside. -/
def EndsBranch (r : Reader) (ks : List Cut) : Prop :=
  ∃ before k gaps r₁, ks = before ++ k :: gaps ∧ Feeds r before r₁ ∧ r₁.InBranch ∧ k.IsBrace ∧
    ∀ g ∈ gaps, g.IsGap

theorem EndsBranch.cons (hr : r.slice k p = .ok r₁) (h : EndsBranch r₁ ks) :
    EndsBranch r (k :: ks) := by
  obtain ⟨before, l, gaps, r₂, rfl, hfeeds, hrest⟩ := h
  exact ⟨k :: before, l, gaps, r₂, rfl, .cons hr hfeeds, hrest⟩

open Cut in
/-- **Reading the same slices, readers stay side by side**, if the slices end where they do in the
first text, no name goes on behind them, and nothing else follows a branch that ends there. -/
theorem Behind.run_slices (h : Behind pre r r') (hpre : pre.getLast? ≠ some (.keyword .func))
    {cs rest rest' : List Char} (hcuts : Cuts cs ks rest)
    (hends : rest'.head? = rest.head? ∨ (∀ k ∈ ks.getLast?, k.Closed) ∧
      ∃ d, rest'.head? = some d ∧ isSpace d = true)
    (hname : ∀ d, rest'.head? = some d → isNameChar d = false)
    (hbranch : r.EndsBranch ks → branchFollows rest' = branchFollows rest) {fuel fuel' : Nat}
    (hfuel' : (chars ks ++ rest').length ≤ fuel') (hrun : Reader.run fuel r p cs = .ok r₁)
    (p' : Position) :
    ∃ n q r₂ n' q' r₂', Reader.run n r₂ q rest = .ok r₁ ∧ rest'.length ≤ n' ∧ Behind pre r₂ r₂' ∧
      Reader.run fuel' r' p' (chars ks ++ rest') = Reader.run n' r₂' q' rest' := by
  induction hcuts generalizing r r' p p' fuel fuel' with
  | nil => exact ⟨fuel, p, r, fuel', p', r', hrun, hfuel', h, rfl⟩
  | @cons c cs rest k ks hk hks ih =>
    obtain ⟨ds, htext, hcs, hk'⟩ := first_congr hk (hks.stops hends)
    have hall : chars (k :: ks) ++ rest' = c :: (ds ++ (chars ks ++ rest')) := by
      rw [chars_cons, htext, List.append_assoc, List.cons_append]
    rw [hall] at hfuel' ⊢
    obtain ⟨fuel', rfl⟩ : ∃ n, fuel' = n + 1 := ⟨fuel' - 1, by simp at hfuel'; omega⟩
    obtain ⟨n, k', r₃, hfirst, hr, hrun⟩ := run_eq_ok hrun
    cases hk.symm.trans hfirst
    -- what a right brace sees is decided here, or behind all slices
    have hsame : k.IsBrace → r.InBranch → branchFollows (chars ks ++ rest')
      = branchFollows k.rest := by
      intro hbrace hin
      by_cases hword : ∃ l ∈ ks, ¬ l.IsGap
      · exact congrArg Structured.isBranchWord (hks.nextWord_congr hword hname)
      · have hgaps : ∀ l ∈ ks, l.IsGap := by simpa using hword
        have hbehind := hbranch ⟨[], k, ks, r, rfl, .nil r, hin, hbrace, hgaps⟩
        rw [Structured.branchFollows_eq, Structured.branchFollows_eq] at hbehind ⊢
        rw [hks.eq_append, hks.nextWord_gaps hgaps, hks.nextWord_gaps hgaps, hbehind]
    obtain ⟨r₃', hr', h₃⟩ : ∃ r₃', r'.slice ⟨k.shape, k.text, chars ks ++ rest'⟩ p' = .ok r₃' ∧
        Behind pre r₃ r₃' := by
      refine h.slice hpre ?_ ?_ hsame hr p' <;> rfl
    have hlength : (chars ks ++ rest').length ≤ fuel' := by
      simp only [List.length_cons, List.length_append] at hfuel' ⊢
      omega
    rw [run_step hk' hr']
    refine ih h₃ (hends.imp_right fun ⟨hclosed, hblank⟩ => ⟨fun l hl => hclosed l ?_, hblank⟩)
      (fun hlast => hbranch (.cons hr hlast)) hlength hrun _
    rw [List.getLast?_cons, Option.mem_def.1 hl]
    rfl

open Cut in
/-- The same where a blank follows the slices in the second text. -/
theorem Behind.run_cuts (h : Behind pre r r') (hpre : pre.getLast? ≠ some (.keyword .func))
    {cs rest rest' : List Char} (hcuts : Cuts cs ks rest) (hclosed : ∀ k ∈ ks.getLast?, k.Closed)
    (hblank : ∃ d, rest'.head? = some d ∧ isSpace d = true)
    (hbranch : r.EndsBranch ks → branchFollows rest' = branchFollows rest) {fuel fuel' : Nat}
    (hfuel' : (chars ks ++ rest').length ≤ fuel') (hrun : Reader.run fuel r p cs = .ok r₁)
    (p' : Position) :
    ∃ n q r₂ n' q' r₂', Reader.run n r₂ q rest = .ok r₁ ∧ rest'.length ≤ n' ∧ Behind pre r₂ r₂' ∧
      Reader.run fuel' r' p' (chars ks ++ rest') = Reader.run n' r₂' q' rest' := by
  refine h.run_slices hpre hcuts (.inr ⟨hclosed, hblank⟩) (fun d hd => ?_) hbranch hfuel' hrun p'
  obtain ⟨e, he, hspace⟩ := hblank
  cases hd.symm.trans he
  exact (not_of_isSpace hspace).1

/-- Reading passes over blanks, and over those that follow them. -/
theorem run_gap {gap : List Char} (hgap : gap.all Cut.isSpace = true) (cs : List Char) {fuel : Nat}
    (r : Reader) (p : Position) (hfuel : (gap ++ cs).length ≤ fuel) :
    ∃ n q, (cs.dropWhile Cut.isSpace).length ≤ n ∧
      run fuel r p (gap ++ cs) = run n r q (cs.dropWhile Cut.isSpace) := by
  have hall : (gap ++ cs.takeWhile Cut.isSpace).all Cut.isSpace = true := by
    rw [List.all_append, hgap, List.all_takeWhile, Bool.and_self]
  have hsplit : gap ++ cs = (gap ++ cs.takeWhile Cut.isSpace) ++ cs.dropWhile Cut.isSpace := by
    rw [List.append_assoc, List.takeWhile_append_dropWhile]
  rw [hsplit] at hfuel ⊢
  exact Structured.run_blank hall (Cut.head_dropWhile cs) r p hfuel

/-- Reading passes over a comment. -/
theorem run_comment {body : List Char} (hbody : Cut.commentLength body 0 = some body.length)
    (cs : List Char) {fuel : Nat} (r : Reader) (p : Position)
    (hfuel : ('/' :: '*' :: (body ++ cs)).length ≤ fuel) :
    ∃ n q, cs.length ≤ n ∧ run fuel r p ('/' :: '*' :: (body ++ cs)) = run n r q cs := by
  obtain ⟨fuel, rfl⟩ : ∃ n, fuel = n + 1 := ⟨fuel - 1, by simp at hfuel; omega⟩
  refine ⟨fuel, _, ?_, run_step (Cut.first_block hbody cs) rfl fuel⟩
  simp only [List.length_cons, List.length_append] at hfuel
  omega

end Reader

namespace Cut

/-- A text without an end of a comment is a comment's. -/
theorem commentLength_of_not_infix {body : List Char} (h : ¬ ['*', '/'] <:+: body) (n : Nat) :
    commentLength (body ++ ['*', '/']) n = some (n + (body ++ ['*', '/']).length) := by
  induction body generalizing n with
  | nil => rfl
  | cons c cs ih =>
    have hcs : ¬ ['*', '/'] <:+: cs := fun hin => h (hin.trans (List.suffix_cons c cs).isInfix)
    rw [List.cons_append, commentLength]
    · rw [ih hcs, List.length_cons]
      exact congrArg some (by omega)
    · rintro es rfl hes
      cases cs with
      | nil => cases hes
      | cons d ds =>
        obtain ⟨rfl, -⟩ := List.cons.inj hes
        exact h (List.prefix_append ['*', '/'] ds).isInfix

end Cut

namespace Lexeme

open Cut

/-- To read a text is to run the reader over it and a line feed. -/
theorem read_eq_ok {text : String} {lexemes : Array Lexeme} : read text = .ok lexemes ↔
    ∃ r, Reader.run (text.toList ++ ['\n']).length {} ⟨1, 1⟩ (text.toList ++ ['\n']) = .ok r ∧
      r.lexemes = lexemes := by
  unfold read
  dsimp only
  cases Reader.run (text.toList ++ ['\n']).length {} ⟨1, 1⟩ (text.toList ++ ['\n']) with
  | error e => exact ⟨nofun, nofun⟩
  | ok r =>
    constructor
    · intro h
      cases h
      exact ⟨r, rfl, rfl⟩
    · rintro ⟨r', hr, rfl⟩
      cases hr
      rfl

/-- Behind the same tokens, a comment with blanks around it changes nothing that follows. -/
theorem run_over_comment {r r₁ : Reader} {p q : Position} {gap gap₁ body gap₂ cs : List Char}
    (hgap : gap.all isSpace = true) (hgap₁ : gap₁.all isSpace = true)
    (hbody : commentLength body 0 = some body.length) (hgap₂ : gap₂.all isSpace = true)
    {fuel fuel' : Nat} (hfuel : (gap ++ cs).length ≤ fuel)
    (hfuel' : (gap₁ ++ '/' :: '*' :: (body ++ (gap₂ ++ cs))).length ≤ fuel')
    (hrun : Reader.run fuel r p (gap ++ cs) = .ok r₁) :
    ∃ r₂, Reader.run fuel' r q (gap₁ ++ '/' :: '*' :: (body ++ (gap₂ ++ cs))) = .ok r₂ ∧
      Reader.Behind [] r₁ r₂ := by
  obtain ⟨n₁, q₁, -, hrun₁⟩ := Reader.run_gap hgap cs r p hfuel
  have hslash : ∀ c, ('/' :: '*' :: (body ++ (gap₂ ++ cs))).head? = some c → isSpace c = false := by
    intro c hc
    cases hc
    rfl
  obtain ⟨n₂, q₂, hn₂, hrun₂⟩ := Structured.run_blank hgap₁ hslash r q hfuel'
  obtain ⟨n₃, q₃, hn₃, hrun₃⟩ := Reader.run_comment hbody (gap₂ ++ cs) r q₂ hn₂
  obtain ⟨n₄, q₄, hn₄, hrun₄⟩ := Reader.run_gap hgap₂ cs r q₃ hn₃
  rw [hrun₁] at hrun
  obtain ⟨r₂, hr₂, hbehind⟩ := (Reader.Behind.refl r).run nofun hn₄ hrun q₄
  exact ⟨r₂, by rw [hrun₂, hrun₃, hrun₄, hr₂], hbehind⟩

/-- **A comment with blanks around it leaves the tokens of a text.** It may stand behind every slice
that is closed, and behind blanks that follow there; and if the slice is a right brace that ends a
branch of an `if`, neither `else` nor `elif` may be the next word. -/
theorem read_comment {a gap b gap₁ body gap₂ : String} {ks : List Cut} {lexemes : Array Lexeme}
    (hread : read (a ++ gap ++ b) = .ok lexemes)
    (hcuts : Cuts ((a ++ gap ++ b).toList ++ ['\n']) ks ((gap ++ b).toList ++ ['\n']))
    (hclosed : ∀ k ∈ ks.getLast?, k.Closed) (hgap : gap.toList.all isSpace = true)
    (hbranch : Reader.EndsBranch {} ks → Reader.branchFollows ((gap ++ b).toList ++ ['\n']) = false)
    (hgap₁ : gap₁.toList.all isSpace = true) (hne : gap₁ ≠ "")
    (hbody : ¬ ['*', '/'] <:+: body.toList) (hgap₂ : gap₂.toList.all isSpace = true) :
    ∃ lexemes', read (a ++ gap ++ (gap₁ ++ "/*" ++ body ++ "*/" ++ gap₂) ++ b) = .ok lexemes' ∧
      lexemes'.toList.map token = lexemes.toList.map token := by
  obtain ⟨r₁, hrun, rfl⟩ := read_eq_ok.1 hread
  have ha : a.toList = chars ks := by
    have h := hcuts.eq_append
    simpa only [String.toList_append, List.append_assoc, List.append_cancel_right_eq] using h
  -- the rest of the text, with the comment
  let rest := (gap ++ gap₁).toList ++ '/' :: '*' :: ((body.toList ++ ['*', '/']) ++
    (gap₂.toList ++ (b.toList ++ ['\n'])))
  have hgaps : (gap ++ gap₁).toList.all isSpace = true := by
    rw [String.toList_append, List.all_append, hgap, hgap₁, Bool.and_self]
  have htext : (a ++ gap ++ (gap₁ ++ "/*" ++ body ++ "*/" ++ gap₂) ++ b).toList ++ ['\n']
      = chars ks ++ rest := by
    have hopen : "/*".toList = ['/', '*'] := by decide
    have hclose : "*/".toList = ['*', '/'] := by decide
    simp only [rest, String.toList_append, ha, hopen, hclose, List.append_assoc, List.cons_append,
      List.nil_append]
  have hblank : ∃ d, rest.head? = some d ∧ isSpace d = true := by
    cases hchars : (gap ++ gap₁).toList with
    | nil =>
      rw [String.toList_append, List.append_eq_nil_iff, String.toList_eq_nil_iff] at hchars
      exact absurd (String.toList_eq_nil_iff.1 hchars.2) hne
    | cons d ds =>
      refine ⟨d, by simp [rest, hchars], List.all_eq_true.1 hgaps d ?_⟩
      rw [hchars]
      exact List.mem_cons_self ..
  have hfollows : Reader.branchFollows rest = false := by
    rw [Structured.branchFollows_eq, Structured.nextWord_blank hgaps]
    rfl
  obtain ⟨n, q, r₂, n', q', r₂', hrun₂, hn', hbehind, hnew⟩ :=
    (Reader.Behind.refl {}).run_cuts nofun
    hcuts hclosed hblank (fun hends => hfollows.trans (hbranch hends).symm)
    (Nat.le_of_eq (congrArg List.length htext.symm)) hrun ⟨1, 1⟩
  rw [String.toList_append, List.append_assoc] at hrun₂
  obtain ⟨r₃, hrun₃, hbehind₃⟩ := hbehind.run nofun (Nat.le_refl _) hrun₂ q
  have hbody' := commentLength_of_not_infix hbody 0
  rw [Nat.zero_add] at hbody'
  obtain ⟨r₄, hrun₄, hbehind₄⟩ :=
    run_over_comment hgap hgaps hbody' hgap₂ (Nat.le_refl _) hn' hrun₃
  refine ⟨r₄.lexemes, read_eq_ok.2 ⟨r₄, ?_, rfl⟩, ?_⟩
  · rw [htext] at hnew ⊢
    exact hnew.trans hrun₄
  · rw [hbehind₄.tokens, hbehind₃.tokens]
    rfl

/-- A comment behind the last branch of an `if`. -/
theorem read_comment_behind_branch :
    ∃ lexemes, read ("if a \x7b b \x7d" ++ " " ++ "c") = .ok lexemes ∧
    ∃ lexemes', read ("if a \x7b b \x7d" ++ " " ++ (" " ++ "/*" ++ " done " ++ "*/" ++ " ") ++ "c")
        = .ok lexemes' ∧ lexemes'.toList.map token = lexemes.toList.map token := by
  have hreads : (read ("if a \x7b b \x7d" ++ " " ++ "c")).toOption.isSome = true := by
    unfold read
    simp only [String.toList_append, String.reduceToList]
    decide +kernel
  obtain ⟨ks, hcuts, hclosed⟩ : ∃ ks, Cuts (("if a \x7b b \x7d" ++ " " ++ "c").toList ++ ['\n']) ks
      ((" " ++ "c").toList ++ ['\n']) ∧ ∀ k ∈ ks.getLast?, k.Closed := by
    simp only [String.toList_append, String.reduceToList]
    refine ⟨_, .cons rfl <| .cons rfl <| .cons rfl <| .cons rfl <| .cons rfl <| .cons rfl <|
      .cons rfl <| .cons rfl <| .cons rfl <| .nil _, fun k hk => ?_⟩
    obtain rfl := Option.some.inj hk
    exact ⟨nofun, by decide⟩
  cases hread : read ("if a \x7b b \x7d" ++ " " ++ "c") with
  | error e =>
    rw [hread] at hreads
    cases hreads
  | ok lexemes =>
    exact ⟨lexemes, rfl, read_comment hread hcuts hclosed (by decide +kernel)
      (fun _ => by decide +kernel)
      (by decide +kernel) (by decide) (by decide +kernel) (by decide +kernel)⟩

/-- **A comment behind a branch of an `if` hides an `elif`**: the reader takes the `if` for closed,
and `elif` stays the keyword that it is. -/
theorem comment_hides_branch :
    (read "if a \x7b b \x7d elif d \x7b e \x7d").toOption.map (·.toList.map kind) = some
      [.keyword .if, .ident, .punct .lcurly, .ident, .punct .rcurly, .keyword .else, .punct .lcurly,
        .keyword .if, .ident, .punct .lcurly, .ident, .punct .rcurly, .punct .rcurly, .newline] ∧
    (read "if a \x7b b \x7d /* c */ elif d \x7b e \x7d").toOption.map (·.toList.map kind) = some
      [.keyword .if, .ident, .punct .lcurly, .ident, .punct .rcurly, .keyword .elif, .ident,
        .punct .lcurly, .ident, .punct .rcurly, .newline] := by
  unfold read
  simp only [String.reduceToList]
  decide +kernel

end Lexeme

end Covenant
