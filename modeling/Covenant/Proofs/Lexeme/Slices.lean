import Covenant.Proofs.Structured.Word

/-!
# Slices in front of other texts

Where a slice ends is decided by the slice itself and the one character behind it
(`Cut.first_congr`). A blank there ends every slice but blanks and comments that go on to the end of
the line. So a text that is cut into slices in front of something is cut into the same slices in
front of a blank (`Cuts.congr`), and the word behind a brace in it is the same, too
(`nextWord_congr`).
-/

namespace Covenant

namespace Cut

/-! ### Slices that must close -/

/-- A block comment ends where it is closed, whatever follows. -/
theorem commentLength_append {cs : List Char} {n m : Nat} (h : commentLength cs n = some m)
    (rest : List Char) : commentLength (cs ++ rest) n = some m := by
  fun_induction commentLength cs n with
  | case1 n => cases h
  | case2 cs n => exact h
  | case3 c cs n hopen ih =>
    rw [List.cons_append, commentLength]
    · exact ih h
    · intro es hc hes
      cases cs with
      | nil => cases h
      | cons d ds =>
        rw [List.cons_append, List.cons.injEq] at hes
        exact hopen ds hc (by rw [hes.1])

/-- The length of a comment is found in the comment itself. -/
theorem commentLength_eq_some {cs : List Char} {n m : Nat} (h : commentLength cs n = some m) :
    ∃ ds es, cs = ds ++ es ∧ m = n + ds.length ∧ commentLength ds n = some m := by
  fun_induction commentLength cs n with
  | case1 n => cases h
  | case2 cs n =>
    cases h
    exact ⟨['*', '/'], cs, rfl, rfl, rfl⟩
  | case3 c cs n hopen ih =>
    obtain ⟨ds, es, rfl, rfl, hds⟩ := ih h
    refine ⟨c :: ds, es, rfl, by rw [List.length_cons]; omega, ?_⟩
    rw [commentLength]
    · exact hds
    · intro fs hc hfs
      rw [hfs] at hopen
      exact hopen _ hc rfl

/-- So is the length of a string. -/
theorem stringLength_eq_some {cs : List Char} {n m : Nat} (h : stringLength cs n = some m) :
    ∃ ds es, cs = ds ++ es ∧ m = n + ds.length ∧ stringLength ds n = some m := by
  fun_induction stringLength cs n with
  | case1 n => cases h
  | case2 n => cases h
  | case3 c cs n ih =>
    obtain ⟨ds, es, rfl, rfl, hds⟩ := ih h
    refine ⟨'\\' :: c :: ds, es, rfl, by rw [List.length_cons, List.length_cons]; omega, ?_⟩
    rw [stringLength]
    exact hds
  | case4 cs n =>
    cases h
    exact ⟨['"'], cs, rfl, rfl, rfl⟩
  | case5 c cs n hlast hshield hquote ih =>
    obtain ⟨ds, es, rfl, rfl, hds⟩ := ih h
    refine ⟨c :: ds, es, rfl, by rw [List.length_cons]; omega, ?_⟩
    rw [stringLength]
    · exact hds
    · rintro hc rfl
      cases hds
    · intro d fs hc hfs
      rw [hfs] at hshield
      exact hshield d _ hc rfl
    · exact hquote

/-- So is that of a raw string. -/
theorem rawLength_eq_some {cs : List Char} {n m : Nat} (h : rawLength cs n = some m) :
    ∃ ds es, cs = ds ++ es ∧ m = n + ds.length ∧ rawLength ds n = some m := by
  induction cs generalizing n with
  | nil => cases h
  | cons c cs ih =>
    rw [rawLength] at h
    split at h
    · rename_i hc
      cases h
      exact ⟨[c], cs, rfl, rfl, by rw [rawLength, if_pos hc]⟩
    · rename_i hc
      obtain ⟨ds, es, rfl, rfl, hds⟩ := ih h
      exact ⟨c :: ds, es, rfl, by rw [List.length_cons]; omega, by rw [rawLength, if_neg hc, hds]⟩

/-! ### The character behind a slice -/

/-- Whether a slice ends where it ends if a blank follows: it is neither a blank nor a comment that
goes on to the end of the line. -/
def Closed (k : Cut) : Prop := k.shape ≠ .blank ∧ ¬ ['/', '/'] <+: k.text

/-- Whether a slice ends in front of another text as it does where it stands. -/
def Stops (k : Cut) (rest : List Char) : Prop :=
  rest.head? = k.rest.head? ∨ k.Closed ∧ ∃ d, rest.head? = some d ∧ isSpace d = true

/-- What is no character to go on with where a slice stands is none in front of the other text. -/
theorem Stops.head {k : Cut} {rest : List Char} (h : k.Stops rest) {p : Char → Bool}
    (hspace : ∀ d, isSpace d = true → p d = false) (hk : ∀ d, k.rest.head? = some d → p d = false) :
    ∀ d, rest.head? = some d → p d = false := by
  intro d hd
  rcases h with hsame | ⟨-, e, he, hblank⟩
  · exact hk d (hsame ▸ hd)
  · cases hd.symm.trans he
    exact hspace d hblank

theorem eq_of_isSpace {c : Char} (h : isSpace c = true) : c = ' ' ∨ c = '\t' ∨ c = '\r' := by
  simpa [isSpace, or_assoc] using h

/-- A blank is no character of a name, and none of the others that slices go on with. -/
theorem not_of_isSpace {c : Char} (h : isSpace c = true) :
    isNameChar c = false ∧ isMark c = false ∧ isNumberChar c = false ∧ endsPair c = false ∧
      c ≠ '/' ∧ c ≠ '*' ∧ c ≠ '.' ∧ c ≠ '\n' := by
  rcases eq_of_isSpace h with rfl | rfl | rfl <;> decide

theorem head_dropWhile {p : Char → Bool} (cs : List Char) :
    ∀ d, (cs.dropWhile p).head? = some d → p d = false := by
  intro d hd
  have := List.head?_dropWhile_not p cs
  rw [hd] at this
  simpa using this

theorem take_takeWhile (shape : Shape) (c : Char) (p : Char → Bool) (cs : List Char) :
    take shape c cs (cs.takeWhile p).length = ⟨shape, c :: cs.takeWhile p, cs.dropWhile p⟩ := by
  have h := Structured.take_append shape c (cs.takeWhile p) (cs.dropWhile p)
  rwa [List.takeWhile_append_dropWhile] at h

/-- What is guarded is what it was, with none of the bad characters behind it. -/
theorem guarded_eq_ok {bad : Char → Bool} {k k' : Cut} (h : guarded bad k = .ok k') :
    k' = k ∧ ∀ d, k.rest.head? = some d → bad d = false := by
  unfold guarded at h
  split at h
  · rename_i d ds hrest
    split at h
    · cases h
    · rename_i hbad
      cases h
      refine ⟨rfl, fun e he => ?_⟩
      rw [hrest] at he
      cases he
      exact Bool.eq_false_iff.2 hbad
  · rename_i hrest
    cases h
    exact ⟨rfl, fun d hd => by rw [hrest] at hd; cases hd⟩

theorem closed_eq_ok {shape : Shape} {c : Char} {cs : List Char} {n : Option Nat} {k : Cut}
    (h : closed shape c cs n = .ok k) : ∃ m, n = some m ∧ k = take shape c cs m := by
  unfold closed at h
  split at h
  · cases h
    exact ⟨_, rfl, rfl⟩
  · cases h

/-- A comment ends where its length says. -/
theorem comment_eq_ok {c : Char} {cs : List Char} {k : Cut}
    (h : closed .comment c ('*' :: cs) ((commentLength cs 0).map (· + 1)) = .ok k) :
    ∃ ds es, commentLength ds 0 = some ds.length ∧ cs = ds ++ es ∧
    k = ⟨.comment, c :: '*' :: ds, es⟩ := by
  obtain ⟨m, hm, rfl⟩ := closed_eq_ok h
  obtain ⟨n, hn, rfl⟩ := Option.map_eq_some_iff.1 hm
  obtain ⟨ds, es, rfl, rfl, hds⟩ := commentLength_eq_some hn
  rw [Nat.zero_add] at hds ⊢
  exact ⟨ds, es, hds, rfl, Structured.take_append .comment c ('*' :: ds) es⟩

theorem string_eq_ok {c : Char} {cs : List Char} {k : Cut}
    (h : closed .string c cs (stringLength cs 0) = .ok k) :
    ∃ ds es, stringLength ds 0 = some ds.length ∧ cs = ds ++ es ∧ k = ⟨.string, c :: ds, es⟩ := by
  obtain ⟨m, hm, rfl⟩ := closed_eq_ok h
  obtain ⟨ds, es, rfl, rfl, hds⟩ := stringLength_eq_some hm
  rw [Nat.zero_add] at hds ⊢
  exact ⟨ds, es, hds, rfl, Structured.take_append .string c ds es⟩

theorem raw_eq_ok {c : Char} {cs : List Char} {k : Cut}
    (h : closed .string c cs (rawLength cs 0) = .ok k) :
    ∃ ds es, rawLength ds 0 = some ds.length ∧ cs = ds ++ es ∧ k = ⟨.string, c :: ds, es⟩ := by
  obtain ⟨m, hm, rfl⟩ := closed_eq_ok h
  obtain ⟨ds, es, rfl, rfl, hds⟩ := rawLength_eq_some hm
  rw [Nat.zero_add] at hds ⊢
  exact ⟨ds, es, hds, rfl, Structured.take_append .string c ds es⟩

theorem eq_of_startsPair {c : Char} (h : startsPair c = true) :
    c = '=' ∨ c = '!' ∨ c = '<' ∨ c = '>' ∨ c = '&' ∨ c = '|' := by
  simpa [startsPair, or_assoc] using h

theorem first_of_startsPair {c d : Char} (h : startsPair c = true) (cs : List Char) :
    first c (d :: cs) = .ok (take .oper c (d :: cs) (if endsPair d then 1 else 0)) := by
  rcases eq_of_startsPair h with rfl | rfl | rfl | rfl | rfl | rfl <;> rfl

/-- An operator of one character. -/
theorem first_oper_one {c : Char} (hc : startsPair c = true) {rest : List Char}
    (h : ∀ d, rest.head? = some d → endsPair d = false) :
    first c rest = .ok ⟨.oper, [c], rest⟩ := by
  cases rest with
  | nil => rcases eq_of_startsPair hc with rfl | rfl | rfl | rfl | rfl | rfl <;> rfl
  | cons d ds =>
    rw [first_of_startsPair hc, h d rfl]
    rfl

/-- A slash in front of neither a slash nor a star is an operator. -/
theorem first_slash {rest : List Char}
    (h : ∀ d, rest.head? = some d → (d == '/' || d == '*') = false) :
    first '/' rest = .ok ⟨.oper, ['/'], rest⟩ := by
  cases rest with
  | nil => rfl
  | cons d ds =>
    have hd : d ≠ '/' ∧ d ≠ '*' := by simpa using h d rfl
    unfold first
    simp [isSpace, take, hd.1, hd.2]

/-- A dot that is not followed by another one is a sign. -/
theorem first_dot {rest : List Char} (h : ∀ d, rest.head? = some d → (d == '.') = false) :
    first '.' rest = .ok ⟨.punct, ['.'], rest⟩ := by
  cases rest with
  | nil => rfl
  | cons d ds =>
    have hd : d ≠ '.' := by simpa using h d rfl
    unfold first
    simp [isSpace, isLetter, isMark, Number.isDigit, take, hd]

theorem first_punct {c : Char} (h : (Punct.ofChar? c).isSome = true) (hdot : c ≠ '.')
    (heq : c ≠ '=') (rest : List Char) : first c rest = .ok ⟨.punct, [c], rest⟩ := by
  obtain ⟨m, hm⟩ := Option.isSome_iff_exists.1 h
  have hchar : m.char = c := by simpa using List.find?_some hm
  subst hchar
  cases m <;> first | exact absurd rfl hdot | exact absurd rfl heq | rfl

/-- A comment that is closed is one slice. -/
theorem first_block {cs : List Char} (h : commentLength cs 0 = some cs.length) (rest : List Char) :
    first '/' ('*' :: (cs ++ rest)) = .ok ⟨.comment, '/' :: '*' :: cs, rest⟩ := by
  have hclosed : first '/' ('*' :: (cs ++ rest))
      = closed .comment '/' ('*' :: (cs ++ rest)) ((commentLength (cs ++ rest) 0).map (· + 1)) :=
      rfl
  rw [hclosed, commentLength_append h]
  exact congrArg Except.ok (Structured.take_append .comment '/' ('*' :: cs) rest)

/-- A comment up to the end of the line is one slice. -/
theorem first_line {cs rest : List Char} (hcs : cs.all (· != '\n') = true)
    (h : ∀ d, rest.head? = some d → (d != '\n') = false) :
    first '/' ('/' :: (cs ++ rest)) = .ok ⟨.comment, '/' :: '/' :: cs, rest⟩ := by
  have hline : first '/' ('/' :: (cs ++ rest)) = .ok (take .comment '/' ('/' :: (cs ++ rest))
      (1 + ((cs ++ rest).takeWhile (· != '\n')).length)) := rfl
  rw [hline, Structured.takeWhile_append_of_head hcs h, Nat.add_comm]
  exact congrArg Except.ok (Structured.take_append .comment '/' ('/' :: cs) rest)

theorem first_line_take (r : List Char) : first '/' ('/' :: r)
    = .ok ⟨.comment, '/' :: '/' :: r.takeWhile (· != '\n'), r.dropWhile (· != '\n')⟩ := by
  have hline := first_line (List.all_takeWhile (p := (· != '\n')) (l := r)) (head_dropWhile r)
  rwa [List.takeWhile_append_dropWhile] at hline

/-- **A slice ends where it ends because of what it is and the character behind it.** -/
theorem first_congr {c : Char} {cs rest : List Char} {k : Cut} (h : first c cs = .ok k)
    (hstops : k.Stops rest) :
    ∃ ds, k.text = c :: ds ∧ cs = ds ++ k.rest ∧ first c (ds ++ rest)
      = .ok ⟨k.shape, k.text, rest⟩ := by
  revert h
  -- Each branch takes its characters from the slice alone; where it also looks at the character
  -- behind the slice, `hstops` says what stands there.
  fun_cases first c cs with
  | case1 _ hspace =>
    intro h
    rw [take_takeWhile] at h
    cases h
    refine ⟨_, rfl, List.takeWhile_append_dropWhile.symm,
      Structured.first_blank hspace List.all_takeWhile ?_⟩
    refine hstops.elim (fun hsame d hd => head_dropWhile cs d (hsame ▸ hd)) fun hclosed => ?_
    exact absurd rfl hclosed.1.1
  | case2 _ _ hc =>
    intro h
    cases h
    refine ⟨[], rfl, rfl, ?_⟩
    rcases hc with rfl | rfl <;> rfl
  | case3 _ _ hc r =>
    intro h
    subst hc
    cases (first_line_take r).symm.trans h
    refine ⟨_, rfl, congrArg _ List.takeWhile_append_dropWhile.symm,
      first_line List.all_takeWhile ?_⟩
    refine hstops.elim (fun hsame d hd => head_dropWhile r d (hsame ▸ hd)) fun hclosed => ?_
    exact absurd (List.prefix_append ['/', '/'] _) hclosed.1.2
  | case4 _ _ hc r =>
    intro h
    subst hc
    obtain ⟨ds, es, hds, rfl, rfl⟩ := comment_eq_ok h
    exact ⟨'*' :: ds, rfl, rfl, first_block hds rest⟩
  -- a slash that starts no comment
  | case5 _ _ _ hc hline hblock =>
    intro h
    subst hc
    cases h
    refine ⟨[], rfl, rfl, first_slash (hstops.head (fun d hd => ?_) fun d hd => ?_)⟩
    · have hne := not_of_isSpace hd
      simp [hne.2.2.2.2.1, hne.2.2.2.2.2.1]
    · obtain ⟨ds, rfl⟩ : ∃ ds, cs = d :: ds := List.head?_eq_some_iff.1 hd
      rw [Bool.or_eq_false_iff, beq_eq_false_iff_ne, beq_eq_false_iff_ne]
      exact ⟨fun heq => hline ds (heq ▸ rfl), fun heq => hblock ds (heq ▸ rfl)⟩
  | case6 _ _ _ _ hc =>
    intro h
    cases h
    refine ⟨[], rfl, rfl, ?_⟩
    rcases hc with rfl | rfl | rfl <;> rfl
  | case7 _ _ _ _ _ hc =>
    intro h
    subst hc
    obtain ⟨ds, es, hds, rfl, rfl⟩ := string_eq_ok h
    exact ⟨ds, rfl, rfl, Structured.first_quoted hds rest⟩
  | case8 _ _ _ _ _ _ hc =>
    intro h
    subst hc
    obtain ⟨ds, es, hds, rfl, rfl⟩ := raw_eq_ok h
    exact ⟨ds, rfl, rfl, Structured.first_raw hds rest⟩
  | case9 _ _ _ _ _ _ _ hdigit =>
    intro h
    rw [take_takeWhile] at h
    obtain ⟨rfl, hbad⟩ := guarded_eq_ok h
    refine ⟨_, rfl, List.takeWhile_append_dropWhile.symm, Structured.first_number hdigit
      List.all_takeWhile (hstops.head (fun d hd => ?_) fun d hd => ?_)⟩
    · have hno := not_of_isSpace hd
      simp [hno.1, hno.2.1, hno.2.2.2.2.2.2.1]
    · have hnumber := head_dropWhile cs d hd
      have hmark := hbad d hd
      simp only [isNumberChar, Bool.or_eq_false_iff] at hnumber hmark
      simp only [isNameChar, hmark.1, hmark.2, hnumber.1, hnumber.2, Bool.or_self]
  | case10 _ _ _ _ _ _ _ _ hletter =>
    intro h
    rw [take_takeWhile] at h
    obtain ⟨rfl, hbad⟩ := guarded_eq_ok h
    have hname := hstops.head (fun d hd => (not_of_isSpace hd).1) (head_dropWhile cs)
    have hmark := hstops.head (fun d hd => (not_of_isSpace hd).2.1) hbad
    refine ⟨_, rfl, List.takeWhile_append_dropWhile.symm, ?_⟩
    rw [Structured.first_of_letter hletter,
      Structured.takeWhile_append_of_head List.all_takeWhile hname, Structured.take_append,
      Structured.guarded_of_head hmark]
  | case11 _ _ _ _ _ _ _ _ hc =>
    intro h
    subst hc
    cases h
    exact ⟨['.', '.'], rfl, rfl, rfl⟩
  | case12 => exact fun h => by cases h
  -- a dot that is not followed by another one
  | case13 _ _ _ _ _ _ _ _ _ hc htwo hone =>
    intro h
    subst hc
    cases h
    refine ⟨[], rfl, rfl, first_dot (hstops.head (fun d hd => ?_) fun d hd => ?_)⟩
    · simpa using (not_of_isSpace hd).2.2.2.2.2.2.1
    · obtain ⟨ds, rfl⟩ : ∃ ds, cs = d :: ds := List.head?_eq_some_iff.1 hd
      rw [beq_eq_false_iff_ne]
      exact fun heq => hone ds (heq ▸ rfl)
  -- one of the characters that start an operator of two
  | case14 _ _ _ _ _ _ _ _ _ hpair d tail =>
    intro h
    by_cases hends : endsPair d = true
    · rw [if_pos hends] at h
      cases h
      refine ⟨[d], rfl, rfl, ?_⟩
      rw [List.singleton_append, first_of_startsPair hpair, if_pos hends]
      rfl
    · rw [if_neg hends] at h
      cases h
      refine ⟨[], rfl, rfl,
        first_oper_one hpair (hstops.head (fun e he => (not_of_isSpace he).2.2.2.1)
        fun e he => ?_)⟩
      cases he
      exact Bool.eq_false_iff.2 hends
  | case15 _ _ _ _ _ _ _ _ _ hpair =>
    intro h
    cases h
    exact ⟨[], rfl, rfl, first_oper_one hpair
      (hstops.head (fun d hd => (not_of_isSpace hd).2.2.2.1) fun d hd => by cases hd)⟩
  | case16 _ _ _ _ _ _ _ _ _ hdot hpair hpunct =>
    intro h
    cases h
    refine ⟨[], rfl, rfl, first_punct hpunct hdot ?_ rest⟩
    rintro rfl
    exact hpair rfl
  | case17 => exact fun h => by cases h

/-- A slice stops in front of what it stands in front of. -/
theorem Stops.refl (k : Cut) : k.Stops k.rest := .inl rfl

theorem first_eq_ok {c : Char} {cs : List Char} {k : Cut} (h : first c cs = .ok k) :
    ∃ ds, k.text = c :: ds ∧ cs = ds ++ k.rest := by
  obtain ⟨ds, htext, hcs, -⟩ := first_congr h (.refl k)
  exact ⟨ds, htext, hcs⟩

/-! ### Texts in slices -/

/-- Whether a text is cut into some slices in front of the rest. -/
inductive Cuts : List Char → List Cut → List Char → Prop
  | nil (rest : List Char) : Cuts rest [] rest
  | cons {c : Char} {cs rest : List Char} {k : Cut} {ks : List Cut} : first c cs = .ok k →
      Cuts k.rest ks rest → Cuts (c :: cs) (k :: ks) rest

/-- The characters of some slices. -/
def chars (ks : List Cut) : List Char := ks.flatMap Cut.text

@[simp] theorem chars_nil : chars [] = [] := rfl

@[simp] theorem chars_cons (k : Cut) (ks : List Cut) : chars (k :: ks) = k.text ++ chars ks := rfl

/-- Whether a slice is passed over by looking for the next word. -/
def IsGap (k : Cut) : Prop := k.shape = .blank ∨ k.text = ['\n']

instance (k : Cut) : Decidable k.IsGap := inferInstanceAs (Decidable (_ ∨ _))

namespace Cuts

variable {cs rest rest' : List Char} {ks : List Cut}

theorem eq_append (h : Cuts cs ks rest) : cs = chars ks ++ rest := by
  induction h with
  | nil rest => rfl
  | cons hk _ ih =>
    obtain ⟨ds, htext, hcs⟩ := first_eq_ok hk
    rw [chars_cons, htext, hcs, ih, List.cons_append, List.cons_append, List.append_assoc]

/-- Whatever the slices stand in front of starts with the same character. -/
theorem head_eq (h : Cuts cs ks rest) (hks : ks ≠ []) : (chars ks ++ rest').head? = cs.head? := by
  cases h with
  | nil => exact absurd rfl hks
  | cons hk _ =>
    obtain ⟨ds, htext, -⟩ := first_eq_ok hk
    rw [chars_cons, htext]
    rfl

/-- The slice in front of some others stops there, and the last one stops in front of what starts
with the same character, or of a blank. -/
theorem stops {k : Cut} (h : Cuts k.rest ks rest)
    (hends : rest'.head? = rest.head? ∨ (∀ l ∈ (k :: ks).getLast?, l.Closed) ∧
      ∃ d, rest'.head? = some d ∧ isSpace d = true) : k.Stops (chars ks ++ rest') := by
  by_cases hks : ks = []
  · subst hks
    obtain rfl : k.rest = rest := h.eq_append
    exact hends.imp_right fun ⟨hclosed, hblank⟩ => ⟨hclosed k rfl, hblank⟩
  · exact .inl (h.head_eq hks)

end Cuts

/-! ### The next word -/

/-- What starts with a blank or with a line feed is a gap. -/
theorem isGap_of_blank {c : Char} {cs : List Char} {k : Cut} (h : first c cs = .ok k)
    (hc : (isSpace c || c == '\n') = true) : k.IsGap := by
  rcases Bool.or_eq_true_iff.1 hc with hspace | hnewline
  · unfold first at h
    rw [if_pos hspace] at h
    cases h
    exact .inl rfl
  · obtain rfl := eq_of_beq hnewline
    cases h
    exact .inr rfl

/-- A slice of blanks has no line feed in it. -/
theorem isSpace_of_blank {c : Char} {cs : List Char} {k : Cut} (h : first c cs = .ok k)
    (hblank : k.shape = .blank) : k.text.all isSpace = true := by
  revert h
  fun_cases first c cs <;> intro h
  case case1 hspace =>
    rw [take_takeWhile] at h
    cases h
    rw [List.all_cons, hspace, List.all_takeWhile, Bool.and_self]
  case case4 | case7 | case8 =>
    obtain ⟨m, -, rfl⟩ := closed_eq_ok h
    cases hblank
  case case9 | case10 =>
    obtain ⟨rfl, -⟩ := guarded_eq_ok h
    cases hblank
  case case12 | case17 => cases h
  all_goals
    cases h
    cases hblank

/-- What is passed over is blank. -/
theorem IsGap.blank {c : Char} {cs : List Char} {k : Cut} (hgap : k.IsGap)
    (h : first c cs = .ok k) :
    ∀ d ∈ k.text, (isSpace d || d == '\n') = true := by
  rcases hgap with hshape | htext
  · intro d hd
    rw [List.all_eq_true.1 (isSpace_of_blank h hshape) d hd, Bool.true_or]
  · intro d hd
    rw [htext, List.mem_singleton] at hd
    rw [hd]
    rfl

theorem nextWord_gap {gap : List Char} (h : ∀ d ∈ gap, (isSpace d || d == '\n') = true)
    (cs : List Char) : Reader.nextWord (gap ++ cs) = Reader.nextWord cs := by
  rw [Reader.nextWord, List.dropWhile_append_of_pos h]
  rfl

/-- The character that starts a slice is one of a name where the slice is a word or a number. -/
theorem first_of_isNameChar {c : Char} {cs : List Char} {k : Cut} (h : first c cs = .ok k)
    (hc : isNameChar c = true) :
    guarded isMark (take .word c cs (cs.takeWhile isNameChar).length) = .ok k ∨
      guarded (fun d => isLetter d || isMark d)
      (take .number c cs (cs.takeWhile isNumberChar).length)
        = .ok k := by
  -- A character of a name is none of those that start another kind of slice.
  have hne : ∀ d, isNameChar d = false → c ≠ d := by
    rintro d hd rfl
    cases hc.symm.trans hd
  revert h
  fun_cases first c cs with
  | case1 _ hspace => exact absurd rfl (hne c (not_of_isSpace hspace).1)
  | case2 _ _ hend => exact (hend.elim (hne '\n' (by decide)) (hne ';' (by decide))).elim
  | case3 _ _ hslash => exact absurd hslash (hne '/' (by decide))
  | case4 _ _ hslash => exact absurd hslash (hne '/' (by decide))
  | case5 _ _ _ hslash => exact absurd hslash (hne '/' (by decide))
  | case6 _ _ _ _ harith =>
    rcases harith with rfl | rfl | rfl <;> cases hc
  | case7 _ _ _ _ _ hquote => exact absurd hquote (hne '"' (by decide))
  | case8 _ _ _ _ _ _ hraw => exact absurd hraw (hne '\x60' (by decide))
  | case9 => exact .inr
  | case10 => exact .inl
  | case11 _ _ _ _ _ _ _ _ hdot => exact absurd hdot (hne '.' (by decide))
  | case12 => exact nofun
  | case13 _ _ _ _ _ _ _ _ _ hdot => exact absurd hdot (hne '.' (by decide))
  | case14 _ _ _ _ _ _ _ _ _ hpair =>
    rcases eq_of_startsPair hpair with rfl | rfl | rfl | rfl | rfl | rfl <;> cases hc
  | case15 _ _ _ _ _ _ _ _ _ hpair =>
    rcases eq_of_startsPair hpair with rfl | rfl | rfl | rfl | rfl | rfl <;> cases hc
  | case16 _ _ _ _ _ _ _ _ _ _ _ hpunct =>
    obtain ⟨m, hm⟩ := Option.isSome_iff_exists.1 hpunct
    have hchar : m.char = c := by simpa using List.find?_some hm
    subst hchar
    cases m <;> cases hc
  | case17 => exact nofun

/-- No character of a name follows a slice that starts with one. -/
theorem not_isNameChar_of_first {c : Char} {cs : List Char} {k : Cut} (h : first c cs = .ok k)
    (hc : isNameChar c = true) : ∀ d, k.rest.head? = some d → isNameChar d = false := by
  rcases first_of_isNameChar h hc with h | h <;> rw [take_takeWhile] at h <;>
    obtain ⟨rfl, hbad⟩ := guarded_eq_ok h
  · exact head_dropWhile cs
  · intro d hd
    have hnumber := head_dropWhile cs d hd
    have hmark := hbad d hd
    simp only [isNumberChar, Bool.or_eq_false_iff] at hnumber hmark
    rw [isNameChar, hmark.1, hnumber.1, Bool.or_self]

/-- What is taken while something holds does not go on into a text that stops it. -/
theorem takeWhile_append_of_stop {p : Char → Bool} (cs : List Char) {rest : List Char}
    (h : ∀ d, rest.head? = some d → p d = false) : (cs ++ rest).takeWhile p = cs.takeWhile p := by
  rw [List.takeWhile_append]
  split
  · rename_i hall
    rw [Structured.takeWhile_of_head h, List.append_nil]
    exact (List.takeWhile_prefix p).eq_of_length hall |>.symm
  · rfl

/-- **The next word of a text in slices is the same in front of another rest**, if there is a slice
that is not passed over and the rest does not go on with a name. -/
theorem Cuts.nextWord_congr {cs rest rest' : List Char} {ks : List Cut} (h : Cuts cs ks rest)
    (hword : ∃ k ∈ ks, ¬ k.IsGap) (hrest : ∀ d, rest'.head? = some d → isNameChar d = false) :
    Reader.nextWord (chars ks ++ rest') = Reader.nextWord cs := by
  induction h with
  | nil => exact absurd hword (by simp)
  | @cons c cs rest k ks hk hks ih =>
    obtain ⟨ds, htext, hcs⟩ := first_eq_ok hk
    have hnew : chars (k :: ks) ++ rest' = k.text ++ (chars ks ++ rest') := by
      rw [chars_cons, List.append_assoc]
    have hold : c :: cs = k.text ++ k.rest := by rw [htext, hcs, List.cons_append]
    rw [hnew, hold]
    by_cases hgap : k.IsGap
    · rw [nextWord_gap (hgap.blank hk), nextWord_gap (hgap.blank hk)]
      refine ih ?_
      obtain ⟨l, hl, hno⟩ := hword
      rcases List.mem_cons.1 hl with rfl | hl
      · exact absurd hgap hno
      · exact ⟨l, hl, hno⟩
    · have hskip : (isSpace c || c == '\n') = false :=
        Bool.eq_false_iff.2 fun hc => hgap (isGap_of_blank hk hc)
      rw [htext, List.cons_append, List.cons_append]
      cases hc : isNameChar c with
      | false => rw [Structured.nextWord_of_not_name _ hc hskip,
        Structured.nextWord_of_not_name _ hc hskip]
      | true =>
        -- the word ends with the slice
        have hstop := not_isNameChar_of_first hk hc
        have hstop' : ∀ d, (chars ks ++ rest').head? = some d → isNameChar d = false := by
          intro d hd
          by_cases hnil : ks = []
          · subst hnil
            exact hrest d hd
          · exact hstop d ((hks.head_eq hnil).symm.trans hd)
        have hword : ∀ es, (∀ d, es.head? = some d → isNameChar d = false) →
            Reader.nextWord (c :: (ds ++ es)) = c :: ds.takeWhile isNameChar := by
          intro es hes
          rw [Reader.nextWord, List.dropWhile_cons_of_neg (by rw [hskip]; decide),
            List.takeWhile_cons_of_pos hc, takeWhile_append_of_stop ds hes]
        rw [hword _ hstop', hword _ hstop]

/-- Behind slices that are passed over, the next word is that of the rest. -/
theorem Cuts.nextWord_gaps {cs rest rest' : List Char} {ks : List Cut} (h : Cuts cs ks rest)
    (hgaps : ∀ k ∈ ks, k.IsGap) : Reader.nextWord (chars ks ++ rest') = Reader.nextWord rest' := by
  induction h with
  | nil => rfl
  | cons hk _ ih =>
    obtain ⟨hgap, hgaps⟩ := List.forall_mem_cons.1 hgaps
    rw [chars_cons, List.append_assoc, nextWord_gap (hgap.blank hk), ih hgaps]

end Cut

end Covenant
