import Covenant.Proofs.Lexeme.Comments
import Covenant.Proofs.Lexeme.Growth

/-!
# Conditions read alone and in their function

The braces of a condition are counted in the lexemes of its text alone, but what is compiled is the
text in the function around it. The two readings agree: in the function, the tokens of the text
stand behind the header as they stand alone, and what follows them declares nothing
(`Lexeme.read_condition`).

They part where the text ends (`Cut.IsOpen`). Blanks at its end run into the blank in front of the
closing brace. A comment at its end goes on to the end of the line and takes the brace with it,
which is why the tokens behind those of the text are not told any closer.
-/

namespace Covenant

namespace Cut

variable {c : Char} {cs : List Char} {k : Cut}

/-! ### The line feed at the end of a text -/

/-- A comment that goes to the end of a text ends in a slash. -/
theorem getLast?_of_commentLength {n : Nat} (h : commentLength cs n = some (n + cs.length)) :
    cs.getLast? = some '/' := by
  fun_induction commentLength cs n with
  | case1 n => cases h
  | case2 cs n =>
    have hlength : n + 2 = n + (cs.length + 2) := Option.some.inj h
    rw [List.length_eq_zero_iff.1 (show cs.length = 0 by omega)]
    rfl
  | case3 c cs n _ ih =>
    have hrest := ih (h.trans (congrArg some (by rw [List.length_cons]; omega)))
    rw [List.getLast?_cons, hrest, Option.getD_some]

/-- A string that does ends in a quotation mark. -/
theorem getLast?_of_stringLength {n : Nat} (h : stringLength cs n = some (n + cs.length)) :
    cs.getLast? = some '"' := by
  fun_induction stringLength cs n with
  | case1 n => cases h
  | case2 n => cases h
  | case3 c cs n ih =>
    have hrest := ih (h.trans (congrArg some (by rw [List.length_cons, List.length_cons]; omega)))
    rw [List.getLast?_cons, List.getLast?_cons, hrest, Option.getD_some, Option.getD_some]
  | case4 cs n =>
    have hlength : n + 1 = n + (cs.length + 1) := Option.some.inj h
    rw [List.length_eq_zero_iff.1 (show cs.length = 0 by omega)]
    rfl
  | case5 c cs n _ _ _ ih =>
    have hrest := ih (h.trans (congrArg some (by rw [List.length_cons]; omega)))
    rw [List.getLast?_cons, hrest, Option.getD_some]

/-- A raw string that does ends in its mark. -/
theorem getLast?_of_rawLength {n : Nat} (h : rawLength cs n = some (n + cs.length)) :
    cs.getLast? = some '\x60' := by
  induction cs generalizing n with
  | nil => cases h
  | cons c cs ih =>
    rw [rawLength] at h
    split at h
    · rename_i hc
      have hlength : n + 1 = n + (cs.length + 1) := Option.some.inj h
      rw [hc, List.length_eq_zero_iff.1 (show cs.length = 0 by omega)]
      rfl
    · have hrest := ih (h.trans (congrArg some (by rw [List.length_cons]; omega)))
      rw [List.getLast?_cons, hrest, Option.getD_some]

/-- Only a line feed ends in a line feed. -/
theorem eq_newline_of_getLast? (h : first c cs = .ok k) (hlast : k.text.getLast? = some '\n') :
    k.text = ['\n'] := by
  have hone : ∀ d, [d].getLast? = some '\n' → [d] = ['\n'] := by
    intro d hd
    rw [List.getLast?_singleton] at hd
    rw [Option.some.inj hd]
  have hmem : '\n' ∈ k.text := List.mem_of_getLast? hlast
  have hwhile : ∀ {p : Char → Bool} {ds : List Char}, p '\n' = false → '\n' ∉ ds.takeWhile p :=
    fun hp hd => by cases hp.symm.trans (List.all_eq_true.1 List.all_takeWhile _ hd)
  have hends : ∀ {ds : List Char} {d : Char}, ds.getLast? = some d → d ≠ '\n' →
      (c :: ds).getLast? ≠ some '\n' := by
    intro ds d hd hne hlast
    rw [List.getLast?_cons, hd, Option.getD_some] at hlast
    exact hne (Option.some.inj hlast)
  revert h
  -- No branch ends a slice of several characters in a line feed.
  fun_cases first c cs <;> intro h
  case case1 hspace =>
    rw [take_takeWhile] at h
    cases h
    have hc := (not_of_isSpace hspace).2.2.2.2.2.2.2
    exact absurd hmem (List.not_mem_cons_of_ne_of_not_mem hc.symm (hwhile rfl))
  case case3 hslash r =>
    subst hslash
    cases (first_line_take r).symm.trans h
    exact absurd hmem (List.not_mem_cons_of_ne_of_not_mem (by decide)
      (List.not_mem_cons_of_ne_of_not_mem (by decide) (hwhile rfl)))
  case case4 r hslash =>
    obtain ⟨ds, es, hds, rfl, rfl⟩ := comment_eq_ok h
    have hstar : ('*' :: ds).getLast? = some '/' := by
      rw [List.getLast?_cons, getLast?_of_commentLength (n := 0) (by rwa [Nat.zero_add]),
        Option.getD_some]
    exact absurd hlast (hends hstar (by decide))
  case case7 =>
    obtain ⟨ds, es, hds, rfl, rfl⟩ := string_eq_ok h
    exact absurd hlast
      (hends (getLast?_of_stringLength (n := 0) (by rwa [Nat.zero_add])) (by decide))
  case case8 =>
    obtain ⟨ds, es, hds, rfl, rfl⟩ := raw_eq_ok h
    exact absurd hlast (hends (getLast?_of_rawLength (n := 0) (by rwa [Nat.zero_add])) (by decide))
  case case9 hdigit =>
    rw [take_takeWhile] at h
    obtain ⟨rfl, -⟩ := guarded_eq_ok h
    refine absurd hmem (List.not_mem_cons_of_ne_of_not_mem ?_ (hwhile rfl))
    rintro rfl
    cases hdigit
  case case10 hletter =>
    rw [take_takeWhile] at h
    obtain ⟨rfl, -⟩ := guarded_eq_ok h
    refine absurd hmem (List.not_mem_cons_of_ne_of_not_mem ?_ (hwhile rfl))
    rintro rfl
    cases hletter
  case case11 =>
    cases h
    cases hlast
  case case12 | case17 => cases h
  case case14 d tail =>
    by_cases hpair : endsPair d = true
    · rw [if_pos hpair] at h
      cases h
      refine absurd hlast (hends (show [d].getLast? = some d from rfl) ?_)
      rintro rfl
      cases hpair
    · rw [if_neg hpair] at h
      cases h
      exact hone _ hlast
  all_goals
    cases h
    exact hone _ hlast

/-- A slice of a line leaves the line feed. -/
theorem rest_of_first (h : first c (cs ++ ['\n']) = .ok k) : ∃ es, k.rest = es ++ ['\n'] := by
  obtain ⟨ds, htext, hcs⟩ := first_eq_ok h
  rcases List.eq_nil_or_concat k.rest with hnil | ⟨es, d, hrest⟩
  · rw [hnil, List.append_nil] at hcs
    have hline := eq_newline_of_getLast? h (by rw [htext, ← hcs, ← List.cons_append,
      List.getLast?_append, List.getLast?_singleton, Option.some_or])
    rw [htext, ← hcs] at hline
    exact absurd (List.cons.inj hline).2
      (List.append_ne_nil_of_right_ne_nil cs (List.cons_ne_nil _ _))
  · rw [List.concat_eq_append] at hrest
    rw [hrest, ← List.append_assoc] at hcs
    obtain ⟨-, hd⟩ := List.append_inj' hcs rfl
    exact ⟨es, by rw [hrest, ← hd]⟩

/-! ### The end of a text -/

/-- Whether a text is one that goes on if a blank follows: blanks, or a comment up to the end of the
line. -/
def IsOpen (cs : List Char) : Prop :=
  cs.all isSpace = true ∨ ∃ body, cs = '/' :: '/' :: body ∧ body.all (· != '\n') = true

/-- What is not closed by itself goes on into what is put behind it. -/
theorem isOpen_of_not_closed (h : first c cs = .ok k) (hk : ¬ k.Closed) : IsOpen k.text := by
  by_cases hblank : k.shape = .blank
  · exact .inl (isSpace_of_blank h hblank)
  · obtain ⟨body, hbody⟩ : ['/', '/'] <+: k.text := not_not.1 fun hno => hk ⟨hblank, hno⟩
    obtain ⟨ds, htext, hcs⟩ := first_eq_ok h
    obtain ⟨rfl, rfl⟩ := List.cons.inj (hbody.trans htext)
    obtain ⟨r, rfl⟩ : ∃ r, cs = '/' :: r := ⟨_, hcs⟩
    cases (first_line_take r).symm.trans h
    exact .inr ⟨_, rfl, List.all_takeWhile⟩

/-- A text that is read is cut into slices that end as they do in front of a blank, up to its
end. -/
theorem exists_cuts {fuel : Nat} {r r₁ : Reader} {p : Position}
    (h : Reader.run fuel r p (cs ++ ['\n']) = .ok r₁) :
    ∃ ks tail, Cuts (cs ++ ['\n']) ks (tail ++ ['\n']) ∧ IsOpen tail ∧
      (tail = [] → ∀ l ∈ ks.getLast?, l.Closed) := by
  induction hn : cs.length using Nat.strongRecOn generalizing fuel r p cs with
  | ind n ih =>
    cases cs with
    | nil => exact ⟨[], [], .nil _, .inl rfl, fun _ _ hl => by cases hl⟩
    | cons c cs =>
      obtain ⟨m, k, r₂, hk, -, hrun⟩ := Reader.run_eq_ok h
      obtain ⟨ds, htext, hcs⟩ := first_eq_ok hk
      obtain ⟨es, hes⟩ := rest_of_first hk
      rw [hes, ← List.append_assoc] at hcs
      obtain rfl := List.append_cancel_right hcs
      rw [hes] at hrun
      obtain ⟨ks, tail, hks, hopen, hclosed⟩ := ih es.length
        (by rw [← hn, List.length_cons, List.length_append]; omega) hrun rfl
      by_cases hlast : tail = [] ∧ ks = [] ∧ ¬ k.Closed
      · -- the last slice would go on if a blank followed
        obtain ⟨rfl, rfl, hk'⟩ := hlast
        obtain rfl : es = [] := List.append_cancel_right hks.eq_append
        refine ⟨[], c :: (ds ++ []), .nil _, ?_, fun hnil => by cases hnil⟩
        rw [List.append_nil, ← htext]
        exact isOpen_of_not_closed hk hk'
      · refine ⟨k :: ks, tail, .cons hk (hes ▸ hks), hopen, fun htail l hl => ?_⟩
        cases ks with
        | nil =>
          cases hl
          exact not_not.1 fun hno => hlast ⟨htail, rfl, hno⟩
        | cons l' ls => exact hclosed htail l (by rwa [List.getLast?_cons_cons] at hl)

namespace IsOpen

variable {tail : List Char}

/-- No name goes on with what a text ends in. -/
theorem head (h : IsOpen tail) {rest : List Char}
    (hrest : ∀ d, rest.head? = some d → isNameChar d = false) :
    ∀ d, (tail ++ rest).head? = some d → isNameChar d = false := by
  intro d hd
  rcases h with hblank | ⟨body, rfl, -⟩
  · cases tail with
    | nil => exact hrest d hd
    | cons c cs =>
      have hc := (not_of_isSpace (List.all_eq_true.1 hblank c (List.mem_cons_self ..))).1
      exact Option.some.inj hd ▸ hc
  · cases hd
    rfl

/-- No branch follows the end of a text if none follows behind it. -/
theorem branchFollows (h : IsOpen tail) {rest : List Char}
    (hrest : Reader.branchFollows rest = false) : Reader.branchFollows (tail ++ rest) = false := by
  rcases h with hblank | ⟨body, rfl, -⟩
  · rwa [Structured.branchFollows_eq, Structured.nextWord_blank hblank]
  · rw [Structured.branchFollows_eq, List.cons_append, Structured.nextWord_of_not_name _ rfl rfl]
    rfl

end IsOpen

end Cut

namespace Reader

open Cut

variable {r r₁ : Reader} {p : Position} {n : Nat} {tail : List Char}

/-- The tokens read so far. -/
def tokens (r : Reader) : List Token := r.lexemes.toList.map Lexeme.token

theorem tokens_push (r : Reader) (t : Token) (p : Position) :
    (r.push t p).tokens = r.tokens ++ [t] := by
  rw [tokens, push, Array.toList_push, List.map_append]
  rfl

/-- A right brace may be followed by the braces that an `if` owes. -/
theorem tokens_closeBrace (r : Reader) (p : Position) (rest : List Char) :
    ∃ m, (r.closeBrace p rest).tokens = r.tokens ++ List.replicate m (.punct .rcurly) := by
  have hsame : ∃ m, r.tokens = r.tokens ++ List.replicate m (.punct .rcurly) :=
    ⟨0, (List.append_nil _).symm⟩
  unfold closeBrace
  split
  · exact hsame
  · rename_i f fs _
    split
    · exact hsame
    · split
      · exact hsame
      · split
        · exact hsame
        · exact ⟨f.owed, congrArg Structured.Draft.tokens
            (Structured.draftOf_pushTimes { r with ifs := fs } (.punct .rcurly) p f.owed)⟩

/-! ### Reading the end of a text -/

/-- Blanks in front of something else are skipped. -/
theorem run_blanks {gap rest : List Char} (hgap : gap.all isSpace = true)
    (hrest : ∀ d, rest.head? = some d → isSpace d = false) (h : run n r p (gap ++ rest) = .ok r₁) :
    ∃ m q, run m r q rest = .ok r₁ := by
  cases gap with
  | nil => exact ⟨n, p, h⟩
  | cons c cs =>
    obtain ⟨hc, hcs⟩ := Bool.and_eq_true_iff.1 hgap
    obtain ⟨m, k, r₂, hk, hr, hrun⟩ := run_eq_ok h
    cases (Structured.first_blank hc hcs hrest).symm.trans hk
    cases hr
    exact ⟨m, _, hrun⟩

theorem run_line {body rest : List Char} (hbody : body.all (· != '\n') = true)
    (h : run n r p ('/' :: '/' :: body ++ '\n' :: rest) = .ok r₁) :
    ∃ m q, run m r q ('\n' :: rest) = .ok r₁ := by
  obtain ⟨m, k, r₂, hk, hr, hrun⟩ := run_eq_ok h
  cases (first_line hbody fun d hd => by cases hd; rfl).symm.trans hk
  cases hr
  exact ⟨m, _, hrun⟩

/-- The line feed at the end is a token. -/
theorem run_newline (h : run n r p ['\n'] = .ok r₁) : r₁.tokens = r.tokens ++ [.newline] := by
  obtain ⟨m, k, r₂, hk, hr, hrun⟩ := run_eq_ok h
  cases hk
  cases hr
  change run m _ _ [] = _ at hrun
  rw [run] at hrun
  cases hrun
  exact tokens_push r .newline p

/-- A closing brace at the end closes all branches. -/
theorem run_rcurly (h : run n r p ['\x7d', '\n'] = .ok r₁) :
    ∃ m, r₁.tokens = r.tokens ++ List.replicate m (.punct .rcurly) ++ [.newline] := by
  obtain ⟨m, k, r₂, hk, hr, hrun⟩ := run_eq_ok h
  cases hk
  cases hr
  obtain ⟨owed, howed⟩ := tokens_closeBrace (r.push (.punct .rcurly) p) p ['\n']
  rw [tokens_push, List.append_assoc] at howed
  refine ⟨owed + 1, ?_⟩
  rw [run_newline hrun, List.replicate_succ]
  exact congrArg (· ++ [Token.newline]) howed

/-- The end of a text that stands alone adds the line feed. -/
theorem run_tail (htail : IsOpen tail) (h : run n r p (tail ++ ['\n']) = .ok r₁) :
    r₁.tokens = r.tokens ++ [.newline] := by
  rcases htail with hblank | ⟨body, rfl, hbody⟩
  · obtain ⟨m, q, hrun⟩ := run_blanks hblank (fun d hd => by cases hd; rfl) h
    exact run_newline hrun
  · obtain ⟨m, q, hrun⟩ := run_line hbody h
    exact run_newline hrun

/-- The end of a text in front of a right brace adds right braces at most. -/
theorem run_tail_close (htail : IsOpen tail)
    (h : run n r p (tail ++ [' ', '\x7d', '\n']) = .ok r₁) :
    ∃ m, r₁.tokens = r.tokens ++ List.replicate m (.punct .rcurly) ++ [.newline] := by
  rcases htail with hblank | ⟨body, rfl, hbody⟩
  · have hgap : (tail ++ [' ']).all isSpace = true := by
      rw [List.all_append, hblank]
      rfl
    rw [← List.singleton_append, ← List.append_assoc] at h
    obtain ⟨m, q, hrun⟩ := run_blanks hgap (fun d hd => by cases hd; rfl) h
    exact run_rcurly hrun
  · have hline : (body ++ [' ', '\x7d']).all (· != '\n') = true := by
      rw [List.all_append, hbody]
      rfl
    have htext : ('/' :: '/' :: body) ++ [' ', '\x7d', '\n']
        = '/' :: '/' :: (body ++ [' ', '\x7d']) ++ '\n' :: [] := by
      rw [List.cons_append, List.cons_append, List.cons_append, List.cons_append, List.append_assoc]
      rfl
    rw [htext] at h
    obtain ⟨m, q, hrun⟩ := run_line hline h
    exact ⟨0, by rw [List.replicate_zero, List.append_nil, run_newline hrun]⟩

end Reader

namespace Lexeme

open Cut

/-- **A condition is read in its function as it is read alone.** The tokens of the text stand behind
the function's header, and no more than right braces and a line end follow them. -/
theorem read_condition {text : String} {lexemes wrapped : Array Lexeme}
    (halone : read text = .ok lexemes)
    (hwrapped : read (Registry.wrapCondition text) = .ok wrapped) :
    ∃ ts m, lexemes.toList.map token = ts ++ [.newline] ∧ wrapped.toList.map token
      = conditionHeader ++ ts ++ List.replicate m (.punct .rcurly) ++ [.newline] := by
  obtain ⟨r₁, hrun, rfl⟩ := read_eq_ok.1 halone
  obtain ⟨fuel, r', p, hfuel, hdraft, hread⟩ := run_wrapCondition text
  have hbehind : Reader.Behind conditionHeader {} r' :=
    ⟨congrArg Structured.Draft.tokens hdraft, congrArg Structured.Draft.ifs hdraft⟩
  obtain ⟨r₁', hrun', rfl⟩ : ∃ r₁', Reader.run fuel r' p
    (' ' :: (text.toList ++ [' ', '\x7d', '\n']))
      = .ok r₁' ∧ r₁'.lexemes = wrapped := by
    rw [hread] at hwrapped
    cases hr : Reader.run fuel r' p (' ' :: (text.toList ++ [' ', '\x7d', '\n'])) with
    | error e =>
      rw [hr] at hwrapped
      cases hwrapped
    | ok r₁' =>
      rw [hr] at hwrapped
      exact ⟨r₁', rfl, Except.ok.inj hwrapped⟩
  -- the blank behind the header may stand in front of the text alone
  obtain ⟨n, q, r₂, hrun₂, hsame⟩ : ∃ n q r₂,
      Reader.run n {} q (' ' :: text.toList ++ ['\n']) = .ok r₂ ∧ Reader.Behind [] r₁ r₂ := by
    obtain ⟨n₁, q₁, -, hskip₁⟩ :=
      Reader.run_gap (show [].all isSpace = true from rfl) (text.toList ++ ['\n']) {} ⟨1, 1⟩
      (Nat.le_refl _)
    obtain ⟨n₂, q₂, hn₂, hskip₂⟩ := Reader.run_gap (show [' '].all isSpace = true from rfl)
      (text.toList ++ ['\n']) {} ⟨1, 1⟩
      (Nat.le_refl _)
    obtain ⟨r₂, hr₂, hsame⟩ := (Reader.Behind.refl {}).run nofun hn₂ (hskip₁.symm.trans hrun) q₂
    exact ⟨_, _, r₂, hskip₂.trans hr₂, hsame⟩
  obtain ⟨ks, tail, hcuts, hopen, hclosed⟩ := exists_cuts hrun₂
  have htext : ' ' :: text.toList = chars ks ++ tail := by
    have h := hcuts.eq_append
    rwa [← List.append_assoc, List.append_cancel_right_eq] at h
  have hall : ' ' :: (text.toList ++ [' ', '\x7d', '\n'])
      = chars ks ++ (tail ++ [' ', '\x7d', '\n']) := by
    rw [← List.cons_append, htext, List.append_assoc]
  have hends : (tail ++ [' ', '\x7d', '\n']).head? = (tail ++ ['\n']).head? ∨
      (∀ k ∈ ks.getLast?, k.Closed) ∧
        ∃ d, (tail ++ [' ', '\x7d', '\n']).head? = some d ∧ isSpace d = true := by
    cases tail with
    | nil => exact .inr ⟨hclosed rfl, ' ', rfl, rfl⟩
    | cons c cs => exact .inl rfl
  have hbranch : Reader.branchFollows (tail ++ [' ', '\x7d', '\n'])
      = Reader.branchFollows (tail ++ ['\n']) := by
    rw [hopen.branchFollows (by decide), hopen.branchFollows (by decide)]
  have hblank : ∀ d, [' ', '\x7d', '\n'].head? = some d → isNameChar d = false := by
    rintro d ⟨⟩
    rfl
  rw [hall] at hfuel hrun'
  obtain ⟨n₃, q₃, r₃, n₃', q₃', r₃', hrest, -, hbehind₃, hfront⟩ := hbehind.run_slices nofun hcuts
    hends (hopen.head hblank) (fun _ => hbranch) hfuel hrun₂ p
  rw [hfront] at hrun'
  obtain ⟨m, hm⟩ := Reader.run_tail_close hopen hrun'
  refine ⟨r₃.tokens, m, ?_, ?_⟩
  · exact hsame.tokens.symm.trans (Reader.run_tail hopen hrest)
  · show r₁'.tokens = _
    rw [hm]
    exact congrArg (· ++ _ ++ _) hbehind₃.tokens

end Lexeme

end Covenant
