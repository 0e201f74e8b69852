import Covenant.Proofs.Lexeme.Comments
import Mathlib.Data.List.Induction

/-!
# Pieces of source text

A source text that can be read, with a line feed behind it, falls into pieces that follow each
other. A piece is either blank or a comment (`Lexeme.Trivia`) and reads as nothing, or it is the
text of one token (`Lexeme.Spelling`) and reads as a group of lexemes (`Lexeme.Group`). The groups
make up all lexemes of the text, and each lexeme has the position of the first character of its
piece (`Lexeme.read_pieces`).

What a group is depends on what stands in front of the piece: the `if`s that are open there, and
whether the last lexeme is `func`. Both can be followed from piece to piece without a reader
(`Lexeme.Grouped`).
-/

namespace Covenant

/-! ### Pieces -/

namespace Lexeme

/-- The texts between tokens: blanks, a comment up to the end of its line, and a comment in
between. -/
inductive Trivia : List Char → Prop
  | blanks {c : Char} {cs : List Char} : (c :: cs).all Cut.isSpace = true → Trivia (c :: cs)
  | line {cs : List Char} : '\n' ∉ cs → Trivia ('/' :: '/' :: cs)
  | block {cs : List Char} : ¬ ['*', '/'] <:+: cs ++ ['*'] →
    Trivia ('/' :: '*' :: (cs ++ ['*', '/']))

/-- Keywords that name the sections of a contract and read as names. -/
def sections : List Keyword := [.action, .conditions]

/-- The texts of a token. -/
inductive Spelling : List Char → Token → Prop
  | newline : Spelling ['\n'] .newline
  | semicolon : Spelling [';'] .newline
  | punct (m : Punct) : Spelling [m.char] (.punct m)
  | oper (o : Operator) : Spelling o.text.toList (.oper o)
  | const {cs : List Char} {k : Constant} : Structured.Literal.Reads cs k → Spelling cs (.const k)
  | extend {c : Char} {cs : List Char} : (c :: cs).all Cut.isNameChar = true →
      Spelling ('$' :: c :: cs) (.extend (String.ofList (c :: cs)))
  | keyword {k : Keyword} : k ∉ [.true, .false, .nil] → k ∉ sections →
      Spelling k.text.toList (.keyword k)
  | section {k : Keyword} : k ∈ sections → Spelling k.text.toList (.ident k.text)
  | type {t : Ty} : t ≠ .any → Spelling t.name.toList (.type t)
  | ident {cs : List Char} : Structured.isName (String.ofList cs) = true →
      Spelling cs (.ident (String.ofList cs))

/-- How many braces a right brace closes on behalf of `elif`s: none, unless it ends the last branch
of the innermost open `if`. -/
def owedAt (ifs : List OpenIf) (rest : List Char) : Nat :=
  match ifs with
  | [] => 0
  | f :: _ => if f.depth = 1 ∧ Reader.branchFollows rest = false then f.owed else 0

/-- The open `if`s behind the text of a token, from those in front of it. -/
def ifsBehind (ifs : List OpenIf) (cs rest : List Char) : List OpenIf :=
  if cs = "if".toList then {} :: ifs
  else
    match ifs with
    | [] => []
    | f :: fs =>
      if cs = "elif".toList then { f with owed := f.owed + 1 } :: fs
      else if cs = ['\x7b'] then { f with depth := f.depth + 1 } :: fs
      else if cs = ['\x7d'] ∧ f.depth = 1 ∧ Reader.branchFollows rest = false then fs
      else if cs = ['\x7d'] then { f with depth := f.depth - 1 } :: fs
      else f :: fs

/-- The tokens a text reads as, with some `if`s open, behind `func` or not, and in front of the
rest. It is one token, but for three kinds of text. -/
inductive Group (ifs : List OpenIf) (afterFunc : Bool) (rest : List Char) :
    List Char → List Token → Prop
  | single {cs : List Char} {t : Token} : Spelling cs t → cs ≠ ['\x7d'] →
      (cs = "elif".toList → ifs = []) → (∀ k ∈ sections, cs = k.text.toList → afterFunc = true) →
      Group ifs afterFunc rest cs [t]
  | elif : ifs ≠ [] →
      Group ifs afterFunc rest "elif".toList [.keyword .else, .punct .lcurly, .keyword .if]
  | section {k : Keyword} : k ∈ sections → afterFunc = false →
      Group ifs afterFunc rest k.text.toList [.keyword .func, .ident k.text]
  | brace : Group ifs afterFunc rest ['\x7d']
    (List.replicate (owedAt ifs rest + 1) (.punct .rcurly))

/-- A piece of source text and the lexemes it reads as. -/
structure Piece where
  text : List Char
  lexemes : List Lexeme

/-- What stands in front of a piece. -/
structure Front where
  text : List Char := []
  ifs : List OpenIf := []
  /-- Whether the last lexeme is `func`. -/
  afterFunc : Bool := false

/-- The position behind a text that starts in the first line and column. -/
def positionBehind (cs : List Char) : Position :=
  ⟨min (1 + cs.count '\n') 65535, 1 + (cs.reverse.takeWhile (· != '\n')).length⟩

/-- Whether the last of some tokens is the keyword `func`. -/
def endsInFunc (ts : List Token) : Bool := ts.getLast?.any fun t => t.kind == .keyword .func

/-- Whether pieces that follow each other read as they should behind what stands in front of
them. -/
inductive Grouped : Front → List Piece → Prop
  | nil (f : Front) : Grouped f []
  | trivia {f : Front} {cs : List Char} {ps : List Piece} : Trivia cs →
      Grouped { f with text := f.text ++ cs } ps → Grouped f (⟨cs, []⟩ :: ps)
  | token {f : Front} {cs : List Char} {ts : List Token} {ps : List Piece} :
      Group f.ifs f.afterFunc (ps.flatMap Piece.text) cs ts →
      Grouped ⟨f.text ++ cs, ifsBehind f.ifs cs (ps.flatMap Piece.text), endsInFunc ts⟩ ps →
      Grouped f (⟨cs, ts.map fun t => ⟨t, positionBehind f.text⟩⟩ :: ps)

end Lexeme

open Lexeme

/-! ### The texts of slices -/

namespace Cut

/-- A comment ends at its first end mark. -/
theorem eq_of_commentLength {cs : List Char} {n : Nat}
    (h : commentLength cs n = some (n + cs.length)) :
    ∃ ds, cs = ds ++ ['*', '/'] ∧ ¬ ['*', '/'] <:+: ds ++ ['*'] := by
  fun_induction commentLength cs n with
  | case1 n => cases h
  | case2 cs n =>
    obtain rfl : cs = [] := by
      simp only [List.length_cons, Option.some.injEq] at h
      exact List.length_eq_zero_iff.1 (by omega)
    exact ⟨[], rfl, by decide⟩
  | case3 c cs n hopen ih =>
    rw [List.length_cons, Nat.add_comm cs.length, ← Nat.add_assoc] at h
    obtain ⟨ds, rfl, hds⟩ := ih h
    refine ⟨c :: ds, rfl, ?_⟩
    rw [List.cons_append, List.infix_cons_iff, not_or]
    refine ⟨fun hprefix => ?_, hds⟩
    -- an end mark right here has been excluded
    obtain ⟨hc, htail⟩ := List.cons_prefix_cons.1 hprefix
    cases ds with
    | nil => exact absurd htail (by decide)
    | cons d ds =>
      obtain ⟨rfl, -⟩ := List.cons_prefix_cons.1 htail
      exact hopen _ hc.symm rfl

/-- What the slices of each shape are made of. -/
inductive Shaped : Shape → List Char → Prop
  | blank {c : Char} {cs : List Char} : (c :: cs).all isSpace = true → Shaped .blank (c :: cs)
  | comment {cs : List Char} : Trivia cs → Shaped .comment cs
  | newline {c : Char} : c = '\n' ∨ c = ';' → Shaped .newline [c]
  | punct (c : Char) : Shaped .punct [c]
  | oper (cs : List Char) : Shaped .oper cs
  | number {c : Char} {cs : List Char} : Number.isDigit c = true → cs.all isNumberChar = true →
      Shaped .number (c :: cs)
  | word {c : Char} {cs : List Char} : (isLetter c || isMark c) = true → cs.all isNameChar = true →
      Shaped .word (c :: cs)
  | tail : Shaped .word ['.', '.', '.']
  | quoted {cs : List Char} : stringLength cs 0 = some cs.length → Shaped .string ('"' :: cs)
  | raw {cs : List Char} : rawLength cs 0 = some cs.length → Shaped .string ('\x60' :: cs)

/-- What is cut off a text has the shape that its first characters say. -/
theorem shaped_first {c : Char} {cs : List Char} {k : Cut} (h : first c cs = .ok k) :
    Shaped k.shape k.text := by
  revert h
  -- One case for each kind of slice, in the order in which the reader tries them.
  fun_cases first c cs with
  | case1 _ hspace =>
    intro h
    rw [take_takeWhile] at h
    cases h
    exact .blank (by rw [List.all_cons, hspace, List.all_takeWhile, Bool.and_self])
  | case2 _ _ hc =>
    intro h
    cases h
    exact .newline hc
  | case3 _ _ hc r =>
    intro h
    subst hc
    cases (first_line_take r).symm.trans h
    -- A line comment is cut before the first newline, so it has none inside.
    have hall := List.all_eq_true.1 (List.all_takeWhile (p := (· != '\n')) (l := r))
    exact .comment (.line fun hmem => by simpa using hall _ hmem)
  | case4 _ _ hc r =>
    intro h
    subst hc
    obtain ⟨ds, es, hds, rfl, rfl⟩ := comment_eq_ok h
    -- A block comment is closed where its first `*/` stands.
    obtain ⟨body, rfl, hbody⟩ := eq_of_commentLength (n := 0) (by rwa [Nat.zero_add])
    exact .comment (.block hbody)
  | case5 | case6 | case14 | case15 =>
    intro h
    cases h
    exact .oper _
  | case7 _ _ _ _ _ hc =>
    intro h
    subst hc
    obtain ⟨ds, es, hds, rfl, rfl⟩ := string_eq_ok h
    exact .quoted hds
  | case8 _ _ _ _ _ _ hc =>
    intro h
    subst hc
    obtain ⟨ds, es, hds, rfl, rfl⟩ := raw_eq_ok h
    exact .raw hds
  | case9 _ _ _ _ _ _ _ hdigit =>
    intro h
    rw [take_takeWhile] at h
    obtain ⟨rfl, -⟩ := guarded_eq_ok h
    exact .number hdigit List.all_takeWhile
  | case10 _ _ _ _ _ _ _ _ hletter =>
    intro h
    rw [take_takeWhile] at h
    obtain ⟨rfl, -⟩ := guarded_eq_ok h
    exact .word hletter List.all_takeWhile
  | case11 _ _ _ _ _ _ _ _ hc =>
    intro h
    subst hc
    cases h
    exact .tail
  | case12 | case17 => exact fun h => by cases h
  | case13 | case16 =>
    intro h
    cases h
    exact .punct _

end Cut

/-! ### Groups of one token -/

namespace Lexeme

/-- The texts that change the open `if`s or read as several lexemes. -/
def marked : List (List Char) :=
  ["if".toList, "elif".toList, ['\x7b'], ['\x7d'], "action".toList, "conditions".toList]

variable {ifs : List OpenIf} {afterFunc : Bool} {rest cs : List Char} {ts : List Token}

/-- Slices that are not marked leave the open branches alone. -/
theorem ifsBehind_of_not_marked (h : cs ∉ marked) : ifsBehind ifs cs rest = ifs := by
  simp only [marked, List.mem_cons, List.not_mem_nil, or_false, not_or] at h
  unfold ifsBehind
  rw [if_neg h.1]
  cases ifs with
  | nil => rfl
  | cons f fs =>
    dsimp only
    rw [if_neg h.2.1, if_neg h.2.2.1, if_neg (not_and_of_not_left _ h.2.2.2.1), if_neg h.2.2.2.1]

theorem ifsBehind_nil (h : cs ≠ "if".toList) : ifsBehind [] cs rest = [] := if_neg h

theorem ifsBehind_elif (f : OpenIf) (fs : List OpenIf) :
    ifsBehind (f :: fs) "elif".toList rest = { f with owed := f.owed + 1 } :: fs := by
  simp [ifsBehind]

theorem ifsBehind_lcurly (f : OpenIf) (fs : List OpenIf) :
    ifsBehind (f :: fs) ['\x7b'] rest = { f with depth := f.depth + 1 } :: fs := by
  simp [ifsBehind]

theorem ifsBehind_rcurly (f : OpenIf) (fs : List OpenIf) :
    ifsBehind (f :: fs) ['\x7d'] rest
      = if f.depth = 1 ∧ Reader.branchFollows rest = false then fs
        else { f with depth := f.depth - 1 } :: fs := by
  simp [ifsBehind]

theorem mem_sections {k : Keyword} : k ∈ sections ↔ k = .action ∨ k = .conditions := by
  simp [sections]

theorem ifsBehind_section {k : Keyword} (hk : k ∈ sections) :
    ifsBehind ifs k.text.toList rest = ifs := by
  unfold ifsBehind
  rcases mem_sections.1 hk with rfl | rfl <;>
    (rw [if_neg (by decide)]; cases ifs <;> simp [Keyword.text])

/-- All other texts of a token read as that token wherever they stand. -/
theorem Group.of_not_marked {t : Token} (hspell : Spelling cs t) (h : cs ∉ marked) :
    Group ifs afterFunc rest cs [t] := by
  have hne : ∀ ds ∈ marked, cs ≠ ds := fun ds hds heq => h (heq ▸ hds)
  refine .single hspell (hne _ (by decide)) (fun helif => absurd helif (hne _ (by decide))) ?_
  intro k hk hcs
  refine absurd hcs (hne _ ?_)
  -- both sections are among the texts
  rcases mem_sections.1 hk with rfl | rfl <;> decide

theorem Group.ne_nil (h : Group ifs afterFunc rest cs ts) : ts ≠ [] := by
  cases h <;> simp

/-- A text whose first character is neither a letter nor a brace. -/
theorem not_marked_of_head {c : Char} (h : Cut.isLetter c = false)
    (hbrace : c ≠ '\x7b' ∧ c ≠ '\x7d') :
    c :: cs ∉ marked := by
  have hletter : ∀ d, Cut.isLetter d = true → c ≠ d := by
    rintro d hd rfl
    cases h.symm.trans hd
  have hif := hletter 'i' rfl
  have helse := hletter 'e' rfl
  have haction := hletter 'a' rfl
  have hconditions := hletter 'c' rfl
  simp [marked, hif, helse, haction, hconditions, hbrace.1, hbrace.2]

end Lexeme

/-! ### What a reader gains -/

namespace Reader

variable {r r' : Reader} {p : Position} {ts : List Token} {ifs : List OpenIf} {rest cs : List Char}

/-- Whether a reader has read some tokens at a position behind what another one has read, and has
the `if`s open. -/
structure Gains (r : Reader) (p : Position) (ts : List Token) (ifs : List OpenIf) (r' : Reader) :
    Prop where
  lexemes : r'.lexemes.toList = r.lexemes.toList ++ ts.map fun t => ⟨t, p⟩
  ifs : r'.ifs = ifs

namespace Gains

theorem refl (r : Reader) (p : Position) : Gains r p [] r.ifs r := ⟨by simp, rfl⟩

theorem push (h : Gains r p ts ifs r') (t : Token) : Gains r p (ts ++ [t]) ifs (r'.push t p) := by
  refine ⟨?_, h.ifs⟩
  rw [Reader.push, Array.toList_push, h.lexemes, List.map_append, List.append_assoc]
  rfl

theorem pushTimes (h : Gains r p ts ifs r') (t : Token) (n : Nat) :
    Gains r p (ts ++ List.replicate n t) ifs (r'.pushTimes t p n) := by
  induction n with
  | zero => rwa [List.replicate_zero, List.append_nil]
  | succ n ih =>
    rw [List.replicate_succ', ← List.append_assoc]
    exact ih.push t

theorem setIfs (h : Gains r p ts ifs r') (ifs' : List OpenIf) :
    Gains r p ts ifs' { r' with ifs := ifs' } :=
  ⟨h.lexemes, rfl⟩

/-- The last lexeme is the last one added. -/
theorem afterFunc (h : Gains r p ts ifs r') (hne : ts ≠ []) : r'.afterFunc = endsInFunc ts := by
  obtain ⟨us, t, rfl⟩ : ∃ us t, ts = us ++ [t] := ⟨_, _, (List.dropLast_concat_getLast hne).symm⟩
  have hback : r'.lexemes.back? = some ⟨t, p⟩ := by
    rw [← Array.getLast?_toList, h.lexemes, List.map_append, ← List.append_assoc]
    exact List.getLast?_concat
  rw [Reader.afterFunc, hback, endsInFunc, List.getLast?_concat]
  rfl

end Gains

theorem gains_push (r : Reader) (t : Token) (p : Position) : Gains r p [t] r.ifs (r.push t p) :=
  (Gains.refl r p).push t

/-- A right brace is followed by the braces that are owed. -/
theorem gains_closeBrace (h : Gains r p ts r.ifs r') (rest : List Char) :
    Gains r p (ts ++ List.replicate (owedAt r.ifs rest) (.punct .rcurly))
      (ifsBehind r.ifs ['\x7d'] rest) (r'.closeBrace p rest) := by
  unfold closeBrace owedAt
  rw [h.ifs]
  cases hifs : r.ifs with
  | nil =>
    rw [hifs] at h
    rw [ifsBehind_nil (by decide), List.replicate_zero, List.append_nil]
    exact h
  | cons f fs =>
    rw [ifsBehind_rcurly]
    dsimp only
    by_cases hbranch : f.depth = 1 ∧ branchFollows rest = false
    · have hfollows : ¬ branchFollows rest = true := by simp [hbranch.2]
      rw [if_pos hbranch, if_pos hbranch, if_neg (by omega), if_neg (by omega), if_neg hfollows]
      exact (h.setIfs fs).pushTimes _ f.owed
    · rw [if_neg hbranch, if_neg hbranch, List.replicate_zero, List.append_nil]
      split
      · -- a brace too many leaves the `if` as it is
        rename_i hdepth
        have hsame : { f with depth := f.depth - 1 } = f := by
          cases f
          simp_all
        rw [hsame, ← hifs]
        exact h
      · split
        · exact h.setIfs _
        · have hdepth : f.depth = 1 := by omega
          have hfollows : branchFollows rest = true := by simpa [hdepth] using hbranch
          rw [if_pos hfollows, hdepth]
          exact h.setIfs _

theorem gains_token (r : Reader) {t : Token} (p : Position) (hspell : Spelling cs t)
    (h : cs ∉ marked) :
    ∃ ts, Group r.ifs r.afterFunc rest cs ts ∧
    Gains r p ts (ifsBehind r.ifs cs rest) (r.push t p) := by
  refine ⟨[t], .of_not_marked hspell h, ?_⟩
  rw [ifsBehind_of_not_marked h]
  exact gains_push r t p

/-- A sign is a group of tokens of its own. -/
theorem gains_punct (r : Reader) (m : Punct) (p : Position) (rest : List Char) :
    ∃ ts, Group r.ifs r.afterFunc rest [m.char] ts ∧
      Gains r p ts (ifsBehind r.ifs [m.char] rest) (r.punct m p rest) := by
  have hpush := gains_push r (.punct m) p
  cases m with
  | lcurly =>
    refine ⟨[.punct .lcurly], .single (.punct .lcurly) (by decide) (fun h => absurd h (by decide))
      (fun k hk h => ?_), ?_⟩
    · cases k <;> exact absurd h (by decide)
    · show Gains r p _ (ifsBehind r.ifs ['\x7b'] rest) (r.push (.punct .lcurly) p).openBrace
      unfold openBrace
      rw [hpush.ifs]
      cases hifs : r.ifs with
      | nil =>
        rw [ifsBehind_nil (by decide)]
        rw [hifs] at hpush
        exact hpush
      | cons f fs =>
        rw [ifsBehind_lcurly]
        exact hpush.setIfs _
  | rcurly =>
    refine ⟨_, .brace, ?_⟩
    rw [Nat.add_comm, ← List.replicate_append_replicate]
    exact gains_closeBrace hpush rest
  | _ => exact gains_token r p (.punct _) (by decide)

/-- The name of a section is preceded by the keyword that it lacks. -/
theorem gains_section (r : Reader) (k : Keyword) (p : Position) (rest : List Char)
    (hk : k ∈ sections) :
    ∃ ts, Group r.ifs r.afterFunc rest k.text.toList ts ∧
      Gains r p ts (ifsBehind r.ifs k.text.toList rest)
        ((if r.afterFunc then r else r.push (.keyword .func) p).push (.ident k.text) p) := by
  rw [ifsBehind_section hk]
  cases hfunc : r.afterFunc with
  | true =>
    refine ⟨[.ident k.text], .single (.section hk) ?_ ?_ fun _ _ _ => rfl, gains_push r _ p⟩
    · rcases mem_sections.1 hk with rfl | rfl <;> decide
    · rcases mem_sections.1 hk with rfl | rfl <;> exact fun h => absurd h (by decide)
  | false => exact ⟨_, .section hk rfl, (gains_push r (.keyword .func) p).push _⟩

/-- So is a keyword, which may open or close branches. -/
theorem gains_keyword (r : Reader) (k : Keyword) (p : Position) (rest : List Char) :
    ∃ ts, Group r.ifs r.afterFunc rest k.text.toList ts ∧
      Gains r p ts (ifsBehind r.ifs k.text.toList rest) (r.keyword k p) := by
  cases k with
  | action => exact gains_section r .action p rest (by decide)
  | conditions => exact gains_section r .conditions p rest (by decide)
  | «if» =>
    refine ⟨[.keyword .if], .single (.keyword (by decide) (by decide)) (by decide)
      (fun h => absurd h (by decide)) (fun k hk h => ?_), ?_⟩
    · rcases mem_sections.1 hk with rfl | rfl <;> exact absurd h (by decide)
    · exact ((Gains.refl r p).setIfs _).push _
  | «elif» =>
    unfold keyword
    dsimp only
    cases hifs : r.ifs with
    | nil =>
      refine ⟨[.keyword .elif], .single (.keyword (by decide) (by decide)) (by decide)
        (fun _ => rfl) (fun k hk h => ?_), ?_⟩
      · rcases mem_sections.1 hk with rfl | rfl <;> exact absurd h (by decide)
      · have hpush := gains_push r (.keyword .elif) p
        rw [hifs] at hpush
        rw [ifsBehind_nil (by decide)]
        exact hpush
    | cons f fs =>
      -- it reads as `else`, a brace that is owed from now on, and `if`
      refine ⟨_, .elif (List.cons_ne_nil f fs), ?_⟩
      rw [show ifsBehind (f :: fs) Keyword.elif.text.toList rest
        = { f with owed := f.owed + 1 } :: fs from
        ifsBehind_elif f fs]
      exact ((((Gains.refl r p).setIfs _).push _).push _).push _
  | «true» => exact gains_token r p (.const (.bool true)) (by decide)
  | «false» => exact gains_token r p (.const (.bool false)) (by decide)
  | nil => exact gains_token r p (.const .nil) (by decide)
  | _ => exact gains_token r p (.keyword (by decide) (by decide)) (by decide)

theorem text_of_ofText? {s : String} {k : Keyword} (h : Keyword.ofText? s = some k) :
    k.text = s := by
  simpa using List.find?_some h

theorem name_of_ofName? {s : String} {t : Ty} (h : Ty.ofName? s = some t) :
    t.name = s ∧ t ≠ .any := by
  have hmem := List.mem_of_find?_eq_some h
  exact ⟨by simpa using List.find?_some h, by simpa using (List.mem_filter.1 hmem).2⟩

/-- So is a word, which is a keyword, a type or a name. -/
theorem gains_word {c : Char} (hc : (Cut.isLetter c || Cut.isMark c) = true)
    (hcs : cs.all Cut.isNameChar = true) (h : r.word (c :: cs) p = .ok r') :
    ∃ ts, Group r.ifs r.afterFunc rest (c :: cs) ts ∧
      Gains r p ts (ifsBehind r.ifs (c :: cs) rest) r' := by
  by_cases hdollar : c = '$'
  · subst hdollar
    cases cs with
    | nil => cases h
    | cons d ds =>
      cases h
      exact gains_token r p (.extend hcs) (not_marked_of_head (by decide) (by decide))
  · rw [Structured.word_eq hdollar] at h
    split at h
    · rename_i k hk
      cases h
      have htext : k.text.toList = c :: cs := by rw [text_of_ofText? hk, String.toList_ofList]
      rw [← htext]
      exact gains_keyword r k p rest
    · rename_i hkeyword
      split at h
      · rename_i t ht
        cases h
        obtain ⟨hname, hany⟩ := name_of_ofName? ht
        have htext : t.name.toList = c :: cs := by rw [hname, String.toList_ofList]
        rw [← htext]
        refine gains_token r p (.type hany) ?_
        cases t <;> decide
      · rename_i htype
        cases h
        have hstart : (Cut.isLetter c || c == '@') = true := by
          simpa [Cut.isMark, hdollar] using hc
        refine gains_token r p (.ident ?_) fun hmem => ?_
        · simp only [Structured.isName, String.toList_ofList, hstart, hcs, hkeyword, htype,
            Option.isNone_none, Bool.and_self]
        · -- the texts that are marked are keywords, or no names at all
          simp only [marked, List.mem_cons, List.not_mem_nil, or_false] at hmem
          rcases hmem with heq | heq | heq | heq | heq | heq
          all_goals first
            | exact absurd (heq ▸ hkeyword) (by decide)
            | (cases heq; exact absurd hstart (by decide))

/-- **What a slice gives a reader**: nothing, if it is blank or a comment, and else the group of its
text. -/
theorem slice_gains {k : Cut} (hk : Cut.Shaped k.shape k.text) (h : r.slice k p = .ok r') :
    Trivia k.text ∧ r' = r ∨ ∃ ts, Group r.ifs r.afterFunc k.rest k.text ts ∧
      Gains r p ts (ifsBehind r.ifs k.text k.rest) r' := by
  obtain ⟨shape, text, rest⟩ := k
  dsimp only at hk ⊢
  cases hk with
  | blank hspace =>
    cases h
    exact .inl ⟨.blanks hspace, rfl⟩
  | comment htrivia =>
    cases h
    exact .inl ⟨htrivia, rfl⟩
  | newline hc =>
    cases h
    rcases hc with rfl | rfl
    · exact .inr (gains_token r p .newline (by decide))
    · exact .inr (gains_token r p .semicolon (by decide))
  | punct c =>
    unfold slice at h
    dsimp only at h
    split at h
    · rename_i m hm
      cases h
      have hchar : m.char = c := by simpa using List.find?_some hm
      rw [← hchar]
      exact .inr (gains_punct r m p rest)
    · cases h
  | oper cs =>
    unfold slice at h
    dsimp only at h
    split at h
    · rename_i heq
      cases h
      rw [heq]
      exact .inr (gains_token r p (.punct .eq) (by decide))
    · split at h
      · rename_i o ho
        cases h
        have htext : o.text.toList = text := by simpa using List.find?_some ho
        rw [← htext]
        refine .inr (gains_token r p (.oper o) ?_)
        cases o <;> decide
      · cases h
  | number hdigit hcs =>
    unfold slice at h
    dsimp only at h
    split at h
    · rename_i k hnumber
      cases h
      refine .inr (gains_token r p (.const (.number hdigit hcs hnumber)) (not_marked_of_head ?_ ?_))
      · simpa using Structured.not_isLetter_of_isDigit hdigit
      · constructor
        · rintro rfl
          exact absurd hdigit (by decide)
        · rintro rfl
          exact absurd hdigit (by decide)
    · cases h
  -- a word can be a keyword, and these read as several lexemes
  | word hc hcs => exact .inr (gains_word hc hcs h)
  | tail =>
    cases h
    exact .inr (gains_keyword r .tail p rest)
  | quoted hlength =>
    cases h
    exact .inr (gains_token r p (.const (.quoted hlength))
      (not_marked_of_head (by decide) (by decide)))
  | raw hlength =>
    cases h
    exact .inr (gains_token r p (.const (.raw hlength))
      (not_marked_of_head (by decide) (by decide)))

end Reader

/-! ### Positions -/

theorem Position.after_append (p : Position) (cs ds : List Char) :
    p.after (cs ++ ds) = (p.after cs).after ds := List.foldl_append

/-- The position behind a text, counted character by character. -/
theorem Position.after_eq (cs : List Char) : Position.after ⟨1, 1⟩ cs = positionBehind cs := by
  induction cs using List.reverseRecOn with
  | nil => rfl
  | append_singleton cs c ih =>
    rw [Position.after_append, ih]
    show Position.next (positionBehind cs) c = positionBehind (cs ++ [c])
    unfold Position.next positionBehind
    by_cases hc : c = '\n'
    · have hline : min (min (1 + cs.count '\n') lastLine + 1) lastLine
          = min (1 + (cs.count '\n' + 1)) lastLine := by
        omega
      subst hc
      simp only [if_true, List.count_append, List.count_singleton_self, List.reverse_append,
        List.reverse_singleton, List.singleton_append]
      exact congrArg (Position.mk · 1) hline
    · simp [hc]
      exact Nat.add_assoc 1 _ 1

/-! ### The pieces of a text -/

/-- **Reading gives the groups of pieces that make up the text.** -/
theorem Reader.run_grouped {fuel : Nat} {r r' : Reader} {f : Front} {cs : List Char}
    (hifs : r.ifs = f.ifs) (hfunc : r.afterFunc = f.afterFunc)
    (hrun : run fuel r (positionBehind f.text) cs = .ok r') :
    ∃ ps : List Piece, ps.flatMap Piece.text = cs ∧
      r'.lexemes.toList = r.lexemes.toList ++ ps.flatMap Piece.lexemes ∧ Grouped f ps := by
  match cs, hrun with
  | [], hrun =>
    rw [run] at hrun
    cases hrun
    exact ⟨[], rfl, by simp, .nil f⟩
  | c :: cs, hrun =>
    obtain ⟨n, k, r₁, hk, hr, hrest⟩ := run_eq_ok hrun
    obtain ⟨ds, htext, hcs⟩ := Cut.first_eq_ok hk
    have hlength : k.rest.length < (c :: cs).length := by
      simp only [hcs, List.length_cons, List.length_append]
      omega
    -- The position where the next piece starts is that behind all text read so far.
    have hposition : (positionBehind f.text).after k.text = positionBehind (f.text ++ k.text) := by
      rw [← Position.after_eq, ← Position.after_append, Position.after_eq]
    rw [hposition] at hrest
    have hwhole : k.text ++ k.rest = c :: cs := by rw [htext, hcs, List.cons_append]
    -- A slice is trivia, which adds no lexeme, or a group of tokens that share its position.
    rcases slice_gains (Cut.shaped_first hk) hr with ⟨htrivia, rfl⟩ | ⟨ts, hgroup, hgains⟩
    · obtain ⟨ps, hps, hlexemes, hgrouped⟩ :=
        run_grouped (f := { f with text := f.text ++ k.text }) hifs hfunc hrest
      refine ⟨⟨k.text, []⟩ :: ps, ?_, hlexemes, .trivia htrivia hgrouped⟩
      rw [List.flatMap_cons, hps, hwhole]
    · obtain ⟨ps, hps, hlexemes, hgrouped⟩ :=
        run_grouped (f := ⟨f.text ++ k.text, ifsBehind r.ifs k.text k.rest, endsInFunc ts⟩)
          hgains.ifs (hgains.afterFunc hgroup.ne_nil) hrest
      rw [hifs, hfunc] at hgroup
      rw [hifs] at hgrouped
      refine ⟨⟨k.text, ts.map fun t => ⟨t, positionBehind f.text⟩⟩ :: ps, ?_, ?_, ?_⟩
      · rw [List.flatMap_cons, hps, hwhole]
      · rw [hlexemes, hgains.lexemes, List.flatMap_cons, List.append_assoc]
      · refine .token ?_ ?_
        · rwa [hps]
        · rwa [hps]
termination_by cs.length

/-! ### What reading leads to -/

/-- Blanks and comments do not end in a line feed. -/
theorem Lexeme.Trivia.not_concat {cs ds : List Char} (h : Trivia cs) : cs ≠ ds ++ ['\n'] := by
  rintro rfl
  generalize hcs : ds ++ ['\n'] = cs at h
  have hmem : '\n' ∈ cs := hcs ▸ List.mem_append_right ds (List.mem_singleton_self _)
  cases h with
  | blanks hall => exact absurd (List.all_eq_true.1 hall _ hmem) (by decide)
  | line hline => simp [hline] at hmem
  | @block es =>
    have hlast := congrArg List.getLast? hcs
    have hslash : '/' :: '*' :: (es ++ ['*', '/']) = ('/' :: '*' :: es ++ ['*']) ++ ['/'] := by simp
    rw [hslash, List.getLast?_concat, List.getLast?_concat] at hlast
    cases hlast

/-- A text that ends in a line feed reads as something. -/
theorem Lexeme.Grouped.lexemes_ne_nil {f : Front} {ps : List Piece}
    (h : Grouped f ps) {cs : List Char} (htext : ps.flatMap Piece.text = cs ++ ['\n']) :
    ps.flatMap Piece.lexemes ≠ [] := by
  induction h generalizing cs with
  | nil => simp at htext
  | token hgroup =>
    rw [List.flatMap_cons]
    exact List.append_ne_nil_of_left_ne_nil (by simpa using hgroup.ne_nil) _
  | @trivia f ds ps htrivia hps ih =>
    rw [List.flatMap_cons] at htext
    rcases List.eq_nil_or_concat (ps.flatMap Piece.text) with hnil | ⟨es, e, hrest⟩
    · rw [hnil, List.append_nil] at htext
      exact absurd htext htrivia.not_concat
    · rw [List.concat_eq_append] at hrest
      rw [hrest, ← List.append_assoc] at htext
      obtain ⟨-, he⟩ := List.append_inj' htext rfl
      rw [he] at hrest
      exact ih hrest

namespace Reader

/-- A word fails only if it is no lexeme. -/
theorem word_fault {r : Reader} {cs : List Char} {p : Position} {f : Fault}
    (h : r.word cs p = .error f) :
    f = .unknownLexeme p := by
  unfold word at h
  split at h
  · cases h
    rfl
  · cases h
  · dsimp only at h
    split at h
    · cases h
    · split at h <;> cases h

/-- A slice fails if it is no lexeme, or if it is a number that is too large. -/
theorem slice_fault {r : Reader} {k : Cut} {p : Position} {f : Fault} (h : r.slice k p = .error f) :
    f = .unknownLexeme p ∨ f = .invalidNumber (String.ofList k.text) := by
  unfold slice at h
  cases hshape : k.shape <;> rw [hshape] at h <;> dsimp only at h
  case blank | comment | newline | string => cases h
  case punct =>
    split at h <;> cases h
    exact .inl rfl
  case oper =>
    split at h
    · cases h
    · split at h <;> cases h
      exact .inl rfl
  case number =>
    split at h <;> cases h
    exact .inr rfl
  case word => exact .inl (word_fault h)

/-- As many steps as there are characters are enough. -/
theorem run_fault {fuel : Nat} {r : Reader} {p : Position} {cs : List Char} {e : Error}
    (hfuel : cs.length ≤ fuel) (h : run fuel r p cs = .error e) : e.fault ≠ .outOfSteps := by
  fun_induction run fuel r p cs with
  | case1 => cases h
  | case2 _ _ cs hne => exact absurd (List.length_eq_zero_iff.1 (Nat.le_zero.1 hfuel)) hne
  | case3 =>
    cases h
    exact nofun
  | case4 _ _ _ _ _ _ _ _ hslice =>
    cases h
    rcases slice_fault hslice with rfl | rfl <;> exact nofun
  | case5 _ _ _ _ _ _ hk _ _ ih =>
    obtain ⟨ds, -, hcs⟩ := Cut.first_eq_ok hk
    refine ih ?_ h
    simp [hcs] at hfuel
    omega

end Reader

namespace Lexeme

/-- Reading never runs out of steps. -/
theorem read_fault {source : String} {e : Error} (h : read source = .error e) :
    e.fault ≠ .outOfSteps := by
  unfold read at h
  dsimp only at h
  cases hrun : Reader.run (source.toList ++ ['\n']).length {} ⟨1, 1⟩ (source.toList ++ ['\n']) with
  | error e' =>
    rw [hrun] at h
    cases h
    exact Reader.run_fault (Nat.le_refl _) hrun
  | ok r =>
    rw [hrun] at h
    cases h

/-- Every text has a lexeme: the line feed behind it. -/
theorem size_pos_of_read {source : String} {lexemes : Array Lexeme}
    (h : read source = .ok lexemes) :
    0 < lexemes.size := by
  obtain ⟨r, hrun, rfl⟩ := read_eq_ok.1 h
  obtain ⟨ps, htext, hlexemes, hps⟩ := Reader.run_grouped (f := {}) rfl rfl hrun
  have hne := hps.lexemes_ne_nil htext
  rw [← Array.length_toList, hlexemes]
  exact List.length_pos_iff.2 (List.append_ne_nil_of_right_ne_nil _ hne)

/-- **Reading loses and invents nothing.** A source text with a line feed behind it falls into
pieces that follow each other, blanks and comments that read as nothing and texts of a token that
read as their group, and these groups are all the lexemes, each with the position where its piece
starts. -/
theorem read_pieces {source : String} {lexemes : Array Lexeme} (h : read source = .ok lexemes) :
    ∃ ps : List Piece, ps.flatMap Piece.text = source.toList ++ ['\n'] ∧
      ps.flatMap Piece.lexemes = lexemes.toList ∧ Grouped {} ps := by
  obtain ⟨r, hrun, rfl⟩ := read_eq_ok.1 h
  obtain ⟨ps, htext, hlexemes, hps⟩ := Reader.run_grouped (f := {}) rfl rfl hrun
  exact ⟨ps, htext, by simpa using hlexemes.symm, hps⟩

/-- A text with a branch, a comment and a section of a contract. -/
theorem read_pieces_branch : ∃ lexemes,
    read "if a \x7b b \x7d elif c \x7b d \x7d // e\naction" = .ok lexemes ∧
    ∃ ps : List Piece,
      ps.flatMap Piece.text = "if a \x7b b \x7d elif c \x7b d \x7d // e\naction".toList ++ ['\n'] ∧
      ps.flatMap Piece.lexemes = lexemes.toList ∧ Grouped {} ps := by
  have hreads : (read "if a \x7b b \x7d elif c \x7b d \x7d // e\naction").toOption.isSome
    = true := by
    unfold read
    simp only [String.reduceToList]
    decide +kernel
  cases hread : read "if a \x7b b \x7d elif c \x7b d \x7d // e\naction" with
  | error e =>
    rw [hread] at hreads
    cases hreads
  | ok lexemes => exact ⟨lexemes, rfl, read_pieces hread⟩

end Lexeme

end Covenant
