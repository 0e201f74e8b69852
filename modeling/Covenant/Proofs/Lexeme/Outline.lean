import Covenant.Proofs.Lexeme.Comments
import Mathlib.Data.List.TakeWhile

/-!
# Outlines of source texts

An `Outline` is a source text with its braces and its `if`s set off; whatever else stands in the
text are slices. `Outline.opened` writes every `elif` of it as an `else` with an `if` in its braces.
Where an outline is that of a text, the opened outline is that of the opened text
(`Outline.IsOf.opened`): only blanks, braces and the keywords themselves get other neighbours.
-/

namespace Covenant

open Structured

/-- A slice of source text, wherever it stands. -/
structure Slice where
  shape : Shape
  text : List Char
deriving DecidableEq, Repr

namespace Slice

/-- A left brace. -/
def lcurly : Slice := ⟨.punct, ['\x7b']⟩

/-- A right brace. -/
def rcurly : Slice := ⟨.punct, ['\x7d']⟩

/-- A line feed. -/
def newline : Slice := ⟨.newline, ['\n']⟩

/-- One blank. -/
def blank : Slice := ⟨.blank, [' ']⟩

/-- A keyword. -/
def keyword (k : Keyword) : Slice := ⟨.word, k.text.toList⟩

/-- The brace or the keyword of an `if` that a slice is. All others read the same wherever they
stand. -/
def word? (s : Slice) : Option Word :=
  match s.shape, s.text with
  | .punct, '\x7b' :: _ => some (.punct .lcurly)
  | .punct, '\x7d' :: _ => some (.punct .rcurly)
  | .word, ['i', 'f'] => some (.keyword .if)
  | .word, ['e', 'l', 'i', 'f'] => some (.keyword .elif)
  | .word, ['e', 'l', 's', 'e'] => some (.keyword .else)
  | _, _ => none

/-- Whether a slice is passed over by looking for the next word. -/
def IsGap (s : Slice) : Prop := s.shape = .blank ∨ s.text = ['\n']

instance (s : Slice) : Decidable s.IsGap := inferInstanceAs (Decidable (_ ∨ _))

/-- Whether a slice in front of some text is the first one cut off. -/
def Before (s : Slice) (rest : List Char) : Prop :=
  ∃ c cs, s.text = c :: cs ∧ Cut.first c (cs ++ rest) = .ok ⟨s.shape, s.text, rest⟩

/-- The characters of some slices. -/
def chars (ss : List Slice) : List Char := ss.flatMap Slice.text

/-- Whether some slices in front of a text are those it is cut into. -/
def Separate : List Slice → List Char → Prop
  | [], _ => True
  | s :: ss, rest => s.Before (chars ss ++ rest) ∧ Separate ss rest

/-- Whether a further branch of an `if` follows behind blanks and line ends. -/
def armAhead : List Slice → Bool
  | [] => false
  | s :: ss => if s.IsGap then armAhead ss else s.shape == .word && isBranchWord s.text

@[simp] theorem chars_nil : chars [] = [] := rfl

@[simp] theorem chars_cons (s : Slice) (ss : List Slice) :
    chars (s :: ss) = s.text ++ chars ss := rfl

@[simp] theorem chars_append (ss us : List Slice) : chars (ss ++ us) = chars ss ++ chars us :=
  List.flatMap_append

/-! ### Neighbours -/

section Before

variable {s : Slice} {rest rest' : List Char}

/-- Where a slice ends depends on the character behind it only. -/
theorem Before.congr (h : s.Before rest) (hhead : rest'.head? = rest.head?) : s.Before rest' := by
  obtain ⟨c, cs, htext, hfirst⟩ := h
  have hstops : (Cut.mk s.shape s.text rest).Stops rest' := .inl hhead
  obtain ⟨ds, hds, -, hfirst'⟩ := Cut.first_congr hfirst hstops
  obtain ⟨-, rfl⟩ := List.cons.inj (htext.symm.trans hds)
  exact ⟨c, cs, htext, hfirst'⟩

/-- What starts with a slice starts with the same character whatever follows. -/
theorem Before.head (h : s.Before rest) (rest rest' : List Char) :
    (s.text ++ rest').head? = (s.text ++ rest).head? := by
  obtain ⟨c, cs, htext, -⟩ := h
  rw [htext]
  rfl

theorem lcurly_before (rest : List Char) : lcurly.Before rest := ⟨_, _, rfl, rfl⟩

theorem rcurly_before (rest : List Char) : rcurly.Before rest := ⟨_, _, rfl, rfl⟩

theorem blank_before (h : ∀ d, rest.head? = some d → Cut.isSpace d = false) : blank.Before rest :=
  ⟨' ', [], rfl, first_blank rfl rfl h⟩

/-- A word of letters ends where no name goes on. -/
theorem word_before_iff {c : Char} {cs : List Char} (hc : Cut.isLetter c = true)
    (hcs : cs.all Cut.isNameChar = true) : (Slice.mk .word (c :: cs)).Before rest ↔
      ∀ d, rest.head? = some d → Cut.isNameChar d = false ∧ Cut.isMark d = false := by
  have hletter : (Cut.isLetter c || Cut.isMark c) = true := by rw [hc, Bool.true_or]
  constructor
  · rintro ⟨c', cs', htext, hfirst⟩
    obtain ⟨rfl, rfl⟩ := List.cons.inj htext
    have hname := Cut.not_isNameChar_of_first hfirst (by rw [Cut.isNameChar, hc, Bool.true_or])
    rw [first_of_letter hletter] at hfirst
    obtain ⟨hk, hmark⟩ := Cut.guarded_eq_ok hfirst
    rw [← hk] at hmark
    exact fun d hd => ⟨hname d hd, hmark d hd⟩
  · intro h
    refine ⟨c, cs, rfl, ?_⟩
    rw [first_of_letter hletter, takeWhile_append_of_head hcs fun d hd => (h d hd).1, take_append,
      guarded_of_head fun d hd => (h d hd).2]

/-- The keywords of an `if` end where no name goes on. -/
theorem keyword_before_iff {k : Keyword} (hk : k = .if ∨ k = .elif ∨ k = .else) :
    (keyword k).Before rest ↔
      ∀ d, rest.head? = some d → Cut.isNameChar d = false ∧ Cut.isMark d = false := by
  rcases hk with rfl | rfl | rfl <;> exact word_before_iff (by decide) (by decide)

end Before

section Separate

variable {ss us : List Slice} {rest rest' : List Char}

theorem separate_append :
    Separate (ss ++ us) rest ↔ Separate ss (chars us ++ rest) ∧ Separate us rest := by
  induction ss with
  | nil => exact (and_iff_right trivial).symm
  | cons s ss ih =>
    rw [List.cons_append, Separate, Separate, ih, chars_append, List.append_assoc, and_assoc]

/-- Slices start with the same character in front of any rest that does. -/
theorem Separate.head (h : Separate ss rest) (hhead : rest'.head? = rest.head?) :
    (chars ss ++ rest').head? = (chars ss ++ rest).head? := by
  cases ss with
  | nil => exact hhead
  | cons s ss =>
    rw [chars_cons, List.append_assoc, List.append_assoc]
    exact h.1.head _ _

theorem Separate.congr (h : Separate ss rest) (hhead : rest'.head? = rest.head?) :
    Separate ss rest' := by
  induction ss with
  | nil => trivial
  | cons s ss ih => exact ⟨h.1.congr (h.2.head hhead), ih h.2⟩

/-- **Looking at the characters behind a brace is looking at the slices behind it.** -/
theorem Separate.branchFollows (h : Separate ss []) :
    Reader.branchFollows (chars ss) = armAhead ss := by
  rw [branchFollows_eq]
  induction ss with
  | nil => rfl
  | cons s ss ih =>
    obtain ⟨⟨c, cs, htext, hfirst⟩, hrest⟩ := h
    rw [List.append_nil] at hfirst
    rw [chars_cons, armAhead]
    split
    · rename_i hgap
      rw [Cut.nextWord_gap (Cut.IsGap.blank (k := ⟨s.shape, s.text, chars ss⟩) hgap hfirst),
        ih hrest]
    · rename_i hgap
      have hskip : (Cut.isSpace c || c == '\n') = false :=
        Bool.eq_false_iff.2 fun hc => hgap (Cut.isGap_of_blank hfirst hc)
      rw [htext, List.cons_append]
      cases hc : Cut.isNameChar c with
      | false =>
        rw [nextWord_of_not_name _ hc hskip]
        have he : c ≠ 'e' := by
          rintro rfl
          cases hc
        simp [isBranchWord, he]
      | true =>
        have hstop := Cut.not_isNameChar_of_first hfirst hc
        have hnext : Reader.nextWord (c :: (cs ++ chars ss)) = c
          :: cs.takeWhile Cut.isNameChar := by
          rw [Reader.nextWord, List.dropWhile_cons_of_neg (by rw [hskip]; decide),
            List.takeWhile_cons_of_pos hc, Cut.takeWhile_append_of_stop cs hstop]
        rw [hnext]
        rcases Cut.first_of_isNameChar hfirst hc with hword | hnumber
        · -- a word is made of the characters of names
          obtain ⟨hk, -⟩ := Cut.guarded_eq_ok hword
          rw [Cut.take_takeWhile, Cut.mk.injEq, htext, List.cons.injEq] at hk
          have hall : ∀ d ∈ cs, Cut.isNameChar d = true := by
            rw [hk.2.1.2]
            exact List.all_eq_true.1 List.all_takeWhile
          rw [hk.1, List.takeWhile_eq_self_iff.2 hall]
          rfl
        · -- a number does not start with a letter
          obtain ⟨hk, -⟩ := Cut.guarded_eq_ok hnumber
          have hshape : s.shape = .number := congrArg Cut.shape hk
          have he : c ≠ 'e' := by
            rintro rfl
            rw [first_of_letter rfl] at hfirst
            obtain ⟨hk', -⟩ := Cut.guarded_eq_ok hfirst
            cases hshape.symm.trans (congrArg Cut.shape hk')
          have hword : (Shape.number == Shape.word) = false := rfl
          rw [hshape, hword]
          simp [isBranchWord, he]

end Separate

end Slice

/-! ### Outlines -/

mutual

/-- A source text with its braces and its `if`s set off. -/
inductive Outline where
  | nil
  | slice (s : Slice) (rest : Outline)
  | block (inner rest : Outline)
  | branch (cond body : Outline) (arms : Arms) (rest : Outline)

/-- The further branches of an `if`: `gap` stands in front of the keyword, `head` behind `else`. -/
inductive Arms where
  | none
  | else (gap head : List Slice) (body : Outline)
  | elif (gap : List Slice) (cond body : Outline) (arms : Arms)

end

open Slice

mutual

/-- The slices of a text. -/
def Outline.slices : Outline → List Slice
  | .nil => []
  | .slice s rest => s :: rest.slices
  | .block inner rest => lcurly :: (inner.slices ++ rcurly :: rest.slices)
  | .branch cond body arms rest => keyword .if ::
      (cond.slices ++ lcurly :: (body.slices ++ rcurly :: (arms.slices ++ rest.slices)))

/-- The slices of further branches. -/
def Arms.slices : Arms → List Slice
  | .none => []
  | .else gap head body =>
      gap ++ keyword .else :: (head ++ lcurly :: (body.slices ++ [rcurly]))
  | .elif gap cond body arms =>
      gap ++ keyword .elif :: (cond.slices ++ lcurly :: (body.slices ++ rcurly :: arms.slices))

end

mutual

/-- The text with every `elif c { b } rest` written as `else { if c { b } rest }`. -/
def Outline.opened : Outline → Outline
  | .nil => .nil
  | .slice s rest => .slice s rest.opened
  | .block inner rest => .block inner.opened rest.opened
  | .branch cond body arms rest => .branch cond body.opened arms.opened rest.opened

/-- Further branches with every `elif` written as an `else` with an `if` in its braces. -/
def Arms.opened : Arms → Arms
  | .none => .none
  | .else gap head body => .else gap head body.opened
  | .elif gap cond body arms => .else gap [blank]
      (.slice blank (.branch cond body.opened arms.opened (.slice blank .nil)))

end

/-- Whether there are neither braces nor `if`s. -/
def Outline.IsBare : Outline → Prop
  | .nil => True
  | .slice _ rest => rest.IsBare
  | .block .. | .branch .. => False

/-- Whether there are no `if`s. -/
def Outline.HasNoIf : Outline → Prop
  | .nil => True
  | .slice _ rest => rest.HasNoIf
  | .block inner rest => inner.HasNoIf ∧ rest.HasNoIf
  | .branch .. => False

/-- Whether there is an `elif` among the branches. -/
def Arms.HasElif : Arms → Prop
  | .none | .else .. => False
  | .elif .. => True

mutual

/-- Whether the parts of an outline are what they stand for: no slice is a brace or belongs to an
`if`, the conditions hold no `if`s, and those of an `if` with an `elif` no braces either. -/
def Outline.Fits : Outline → Prop
  | .nil => True
  | .slice s rest => s.word? = none ∧ rest.Fits
  | .block inner rest => inner.Fits ∧ rest.Fits
  | .branch cond body arms rest => cond.Fits ∧ cond.HasNoIf ∧ (arms.HasElif → cond.IsBare) ∧
      body.Fits ∧ arms.Fits ∧ rest.Fits

/-- The same of further branches. In front of their keywords stand blanks and line ends only. -/
def Arms.Fits : Arms → Prop
  | .none => True
  | .else gap head body => (∀ s ∈ gap, s.IsGap) ∧ (∀ s ∈ head, s.word? = none) ∧ body.Fits
  | .elif gap cond body arms =>
    (∀ s ∈ gap, s.IsGap) ∧ cond.Fits ∧ cond.IsBare ∧ body.Fits ∧ arms.Fits

end

/-- Whether an outline is that of a source text, which has a line feed behind it. -/
def Outline.IsOf (o : Outline) (text : String) : Prop :=
  text.toList = chars o.slices ∧ Separate (o.slices ++ [newline]) []

/-- The source text of an outline. -/
def Outline.text (o : Outline) : String := String.ofList (chars o.slices)

theorem Outline.hasNoIf_of_isBare (o : Outline) (h : o.IsBare) : o.HasNoIf := by
  cases o with
  | nil => trivial
  | slice s rest => exact rest.hasNoIf_of_isBare h
  | block | branch => exact h.elim

/-! ### Opened outlines -/

theorem Arms.not_hasElif_opened (a : Arms) : ¬ a.opened.HasElif := by
  cases a <;> exact id

mutual

/-- The opened outline is cut as it is written, and starts with the same character. -/
theorem Outline.separate_opened (o : Outline) {rest rest' : List Char} (h : Separate o.slices rest)
    (hhead : rest'.head? = rest.head?) : Separate o.opened.slices rest' ∧
      (chars o.opened.slices ++ rest').head? = (chars o.slices ++ rest).head? := by
  cases o with
  | nil => exact ⟨trivial, hhead⟩
  | slice s ss =>
    obtain ⟨hs, hss⟩ := h
    obtain ⟨hss', hsame⟩ := ss.separate_opened hss hhead
    refine ⟨⟨hs.congr hsame, hss'⟩, ?_⟩
    -- What a slice needs of the text behind it is its first
    -- character, which opening does not change.
    rw [Outline.opened, Outline.slices, Outline.slices, chars_cons, chars_cons,
      List.append_assoc, List.append_assoc]
    exact hs.head _ _
  | block inner ss =>
    simp only [Outline.slices, Separate, separate_append] at h
    obtain ⟨-, hinner, -, hss⟩ := h
    refine ⟨?_, rfl⟩
    simp only [Outline.opened, Outline.slices, Separate, separate_append]
    exact ⟨lcurly_before _, And.left (inner.separate_opened hinner rfl), rcurly_before _,
      And.left (ss.separate_opened hss hhead)⟩
  | branch cond body arms ss =>
    simp only [Outline.slices, Separate, separate_append] at h
    obtain ⟨hif, hcond, -, hbody, -, harms, hss⟩ := h
    refine ⟨?_, rfl⟩
    simp only [Outline.opened, Outline.slices, Separate, separate_append]
    -- The blanks that are new stand behind a brace, where anything may follow.
    refine ⟨hif.congr ?_, hcond.congr rfl, lcurly_before _,
      And.left (body.separate_opened hbody rfl), rcurly_before _, arms.separate_opened harms _,
      And.left (ss.separate_opened hss hhead)⟩
    rw [chars_append, chars_append, List.append_assoc, List.append_assoc]
    exact hcond.head rfl

/-- Further branches are cut as they are written, whatever follows. -/
theorem Arms.separate_opened (a : Arms) {rest : List Char} (h : Separate a.slices rest)
    (rest' : List Char) : Separate a.opened.slices rest' := by
  cases a with
  | none => trivial
  | «else» gap head body =>
    simp only [Arms.slices, Separate, separate_append] at h
    obtain ⟨hgap, helse, hhead, -, hbody, -⟩ := h
    simp only [Arms.opened, Arms.slices, Separate, separate_append]
    refine ⟨hgap.congr rfl, helse.congr ?_, hhead.congr rfl, lcurly_before _,
      And.left (body.separate_opened hbody rfl), rcurly_before _, trivial⟩
    rw [chars_append, chars_append, List.append_assoc, List.append_assoc]
    exact hhead.head rfl
  | elif gap cond body arms =>
    simp only [Arms.slices, Separate, separate_append] at h
    obtain ⟨hgap, helif, hcond, -, hbody, -, harms⟩ := h
    rw [keyword_before_iff (.inr (.inl rfl))] at helif
    simp only [Arms.opened, Outline.slices, Arms.slices, Separate, separate_append]
    have hsame : (chars (cond.slices ++ lcurly ::
        (body.opened.slices ++ rcurly :: (arms.opened.slices ++ [blank]))) ++
          (chars [rcurly] ++ rest')).head? =
        (chars (cond.slices ++ lcurly :: (body.slices ++ rcurly :: arms.slices))
          ++ rest).head? := by
      rw [chars_append, chars_append, List.append_assoc, List.append_assoc]
      exact hcond.head rfl
    -- The slices of the branch that replaces an `elif`:
    -- `else`, a brace, `if` and its parts, a brace.
    exact ⟨hgap.congr rfl,
      (keyword_before_iff (.inr (.inr rfl))).2 fun _ hd => by cases hd; exact ⟨rfl, rfl⟩,
      ⟨blank_before fun _ hd => by cases hd; rfl, trivial⟩, lcurly_before _,
      ⟨blank_before fun _ hd => by cases hd; rfl, (keyword_before_iff (.inl rfl)).2 (hsame ▸ helif),
        hcond.congr rfl, lcurly_before _, And.left (body.separate_opened hbody rfl),
        rcurly_before _, arms.separate_opened harms _, blank_before fun _ hd => by cases hd; rfl,
        trivial⟩,
      rcurly_before _, trivial⟩

end

/-- **The opened outline is that of the opened text.** -/
theorem Outline.IsOf.opened {o : Outline} {text : String} (h : o.IsOf text) :
    o.opened.IsOf o.opened.text := by
  obtain ⟨ho, hnewline⟩ := separate_append.1 h.2
  exact ⟨String.toList_ofList, separate_append.2 ⟨(o.separate_opened ho rfl).1, hnewline⟩⟩

end Covenant
