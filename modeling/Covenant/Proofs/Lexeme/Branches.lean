import Covenant.Proofs.Lexeme.Outline
import Covenant.Proofs.Structured.Tokens

/-!
# Further branches of an `if`

The reader knows no grammar: to read `elif` it counts the braces behind an `if`, and behind the last
branch it adds the ones that the `elif`s opened. `Lexeme.read_opened` says that this comes out
right: a text with `elif c { b } rest` reads as the one with `else { if c { b } rest }` in its
place, at any nesting.

It does not where the condition of an `if` with an `elif` holds braces of its own
(`Lexeme.read_map_condition`): the first of them that is closed passes for the end of the branch.

What a text adds is given by recursion on its outline (`Outline.tokens`), the same for the opened
one (`Outline.tokens_opened`). That the reader adds just this is an induction on the outline, in
which the innermost open `if` is the one whose braces stand around the part (`Outline.feed`).
-/

namespace Covenant

open Structured

/-! ### Reading slices -/

/-- A reader that has read some tokens, with no `if` open. -/
def Reader.ofTokens (ts : List Token) :
    Reader := { lexemes := (ts.map fun t => ⟨t, ⟨1, 1⟩⟩).toArray }

/-- The tokens behind a slice, from those in front of it. -/
def Slice.add (s : Slice) (ts : List Token) : Option (List Token) :=
  ((Reader.ofTokens ts).slice ⟨s.shape, s.text, []⟩ ⟨1, 1⟩).toOption.map
    fun r => (draftOf r).tokens

namespace Structured.Draft

/-- What reading one slice adds; `more` tells whether another branch follows. -/
def slice (d : Draft) (s : Slice) (more : Bool) : Option Draft :=
  match s.word? with
  | some w => some (d.feed w (if more then [.keyword .else] else []))
  | none => (s.add d.tokens).map fun ts => ⟨ts, d.ifs⟩

/-- What reading some slices adds. -/
def slices (d : Draft) : List Slice → Option Draft
  | [] => some d
  | s :: ss => (d.slice s (Slice.armAhead ss)).bind fun d => slices d ss

end Structured.Draft

theorem draftOf_ofTokens (ts : List Token) : draftOf (Reader.ofTokens ts) = ⟨ts, []⟩ := by
  rw [draftOf, Reader.ofTokens, List.toList_toArray, List.map_map]
  exact congrArg (Draft.mk · []) (List.map_id ts)

namespace Reader

theorem afterFunc_eq (r : Reader) :
    r.afterFunc = ((draftOf r).tokens.getLast?).any fun t => t.kind == .keyword .func := by
  rw [afterFunc, draftOf, List.getLast?_map, Array.getLast?_toList, Option.any_map]
  rfl

/-- Whether two readers have read the same tokens, and the second one with no `if` open. -/
def Reads (r r₀ : Reader) : Prop := draftOf r₀ = ⟨(draftOf r).tokens, []⟩

section Reads

variable {r r₀ : Reader} {p p₀ : Position}

theorem Reads.push (h : Reads r r₀) (t : Token) : Reads (r.push t p) (r₀.push t p₀) := by
  unfold Reads at h ⊢
  rw [draftOf_push, draftOf_push, h]
  rfl

/-- A keyword that belongs to no `if` is added whichever `if`s are open. -/
theorem Reads.keyword (h : Reads r r₀) {k : Keyword} (hi : k ≠ .if) (he : k ≠ .elif)
    (p p₀ : Position) :
    Reads (r.keyword k p) (r₀.keyword k p₀) ∧ (r.keyword k p).ifs = r.ifs := by
  have hfunc : r₀.afterFunc = r.afterFunc := by rw [afterFunc_eq, afterFunc_eq, h]
  have hname : ∀ t : Token, Reads ((if r.afterFunc then r else r.push (.keyword .func) p).push t p)
        ((if r₀.afterFunc then r₀ else r₀.push (.keyword .func) p₀).push t p₀) ∧
      ((if r.afterFunc then r else r.push (.keyword .func) p).push t p).ifs = r.ifs := by
    intro t
    rw [hfunc]
    split
    · exact ⟨h.push t, rfl⟩
    · exact ⟨(h.push _).push t, rfl⟩
  cases k with
  | «if» => exact absurd rfl hi
  | elif => exact absurd rfl he
  | action | conditions => exact hname _
  | _ => exact ⟨h.push _, rfl⟩

/-- A slice that is no brace and no keyword of an `if` reads the same whichever `if`s are open. -/
theorem Reads.slice (h : Reads r r₀) {s : Slice} (hs : s.word? = none) (rest rest₀ : List Char) :
    (∃ r' r₀', r.slice ⟨s.shape, s.text, rest⟩ p = .ok r' ∧
      r₀.slice ⟨s.shape, s.text, rest₀⟩ p₀ = .ok r₀' ∧ Reads r' r₀' ∧ r'.ifs = r.ifs) ∨
    (∃ f f₀, r.slice ⟨s.shape, s.text, rest⟩ p = .error f ∧
      r₀.slice ⟨s.shape, s.text, rest₀⟩ p₀ = .error f₀) := by
  obtain ⟨shape, text⟩ := s
  have hpush : ∀ t : Token, ∃ r' r₀', (Except.ok (r.push t p) : Except Fault Reader) = .ok r' ∧
      (Except.ok (r₀.push t p₀) : Except Fault Reader) = .ok r₀' ∧ Reads r' r₀' ∧ r'.ifs = r.ifs :=
    fun t => ⟨_, _, rfl, rfl, h.push t, rfl⟩
  unfold Reader.slice
  cases shape with
  | blank | comment => exact .inl ⟨r, r₀, rfl, rfl, h, rfl⟩
  | newline | string => exact .inl (hpush _)
  | punct =>
    dsimp only
    split
    · rename_i m hm
      obtain ⟨c, hc, hm⟩ := Option.bind_eq_some_iff.1 hm
      have hchar : m.char = c := by simpa using List.find?_some hm
      obtain ⟨cs, rfl⟩ : ∃ cs, text = m.char :: cs := List.head?_eq_some_iff.1 (hchar ▸ hc)
      cases m with
      | lcurly | rcurly => cases hs
      | _ => exact .inl (hpush _)
    · exact .inr ⟨_, _, rfl, rfl⟩
  | oper =>
    dsimp only
    split
    · exact .inl (hpush _)
    · split
      · exact .inl (hpush _)
      · exact .inr ⟨_, _, rfl, rfl⟩
  | number =>
    dsimp only
    split
    · exact .inl (hpush _)
    · exact .inr ⟨_, _, rfl, rfl⟩
  | word =>
    dsimp only
    unfold Reader.word
    split
    · exact .inr ⟨_, _, rfl, rfl⟩
    · exact .inl (hpush _)
    · dsimp only
      split
      · -- the keywords of an `if` are the only ones that look at the open `if`s
        rename_i k hk
        have htext : k.text.toList = text := by
          have hspelled : k.text = String.ofList text := by simpa using List.find?_some hk
          rw [hspelled, String.toList_ofList]
        have hif : k ≠ .if := by
          rintro rfl
          cases htext
          cases hs
        have helif : k ≠ .elif := by
          rintro rfl
          cases htext
          cases hs
        exact .inl ⟨_, _, rfl, rfl, h.keyword hif helif p p₀⟩
      · split <;> exact .inl (hpush _)

end Reads

/-- **Reading a slice adds what the slice adds to the tokens and the open `if`s.** -/
theorem draftOf_slice (r : Reader) (s : Slice) (rest : List Char) (p : Position) :
    (r.slice ⟨s.shape, s.text, rest⟩ p).toOption.map draftOf
      = (draftOf r).slice s (branchFollows rest) := by
  unfold Draft.slice
  split
  · rename_i w hw
    unfold Slice.word? at hw
    split at hw <;> cases hw <;> rename_i hshape htext <;> rw [hshape, htext]
    · -- The words that a draft knows: the two braces, then the three keywords.
      show some (draftOf (r.push (.punct .lcurly) p).openBrace) = _
      rw [draftOf_openBrace, draftOf_push]
      rfl
    · show some (draftOf ((r.push (.punct .rcurly) p).closeBrace p rest)) = _
      rw [draftOf_closeBrace, draftOf_push]
      cases branchFollows rest <;> rfl
    · exact congrArg some (draftOf_keyword (k := .if) r p rfl)
    · exact congrArg some (draftOf_keyword (k := .elif) r p rfl)
    · exact congrArg some (draftOf_keyword (k := .else) r p rfl)
  · rename_i hs
    unfold Slice.add
    have hreads₀ : Reads r (Reader.ofTokens (draftOf r).tokens) := draftOf_ofTokens _
    -- Any other slice adds the same tokens whatever was read before, so it is read behind nothing.
    rcases @Reads.slice r _ p ⟨1, 1⟩ hreads₀ s hs rest [] with
      ⟨r', r₀', hr, hr₀, hreads, hifs⟩ | ⟨f, f₀, hr, hr₀⟩
    · rw [hr, hr₀]
      unfold Reads at hreads
      simp only [Except.toOption, Option.map_some, hreads]
      rw [draftOf, hifs]
      rfl
    · rw [hr, hr₀]
      rfl

/-- **Reading a text that is cut into slices adds what the slices add one by one.** -/
theorem draftOf_run {ss : List Slice} (h : Slice.Separate ss []) {fuel : Nat}
    (hfuel : (Slice.chars ss).length ≤ fuel) (r : Reader) (p : Position) :
    (run fuel r p (Slice.chars ss)).toOption.map draftOf = (draftOf r).slices ss := by
  induction ss generalizing fuel r p with
  | nil =>
    rw [Slice.chars_nil, run]
    rfl
  | cons s ss ih =>
    obtain ⟨⟨c, cs, htext, hfirst⟩, hss⟩ := h
    rw [List.append_nil] at hfirst
    rw [Slice.chars_cons, htext, List.cons_append] at hfuel ⊢
    obtain ⟨fuel, rfl⟩ : ∃ n, fuel = n + 1 := ⟨fuel - 1, by simp at hfuel; omega⟩
    have hslice := draftOf_slice r s (Slice.chars ss) p
    rw [hss.branchFollows] at hslice
    rw [Draft.slices, ← hslice, run, hfirst]
    dsimp only
    cases hr : r.slice ⟨s.shape, s.text, Slice.chars ss⟩ p with
    | error f => rfl
    | ok r' => exact ih hss (by simp at hfuel; omega) r' _

end Reader

/-! ### The tokens of outlines -/

namespace Slice

/-- The tokens behind some slices. -/
def addAll : List Slice → List Token → Option (List Token)
  | [], ts => some ts
  | s :: ss, ts => (s.add ts).bind (addAll ss)

theorem add_blank (ts : List Token) : blank.add ts = some ts :=
  congrArg (fun d => some (Draft.tokens d)) (draftOf_ofTokens ts)

theorem add_newline (ts : List Token) : newline.add ts = some (ts ++ [.newline]) := by
  show some (draftOf ((Reader.ofTokens ts).push .newline ⟨1, 1⟩)).tokens = _
  rw [draftOf_push, draftOf_ofTokens]
  rfl

end Slice

mutual

/-- The tokens behind a text, from those in front of it: every `elif` opens an `else` block. -/
def Outline.tokens : Outline → List Token → Option (List Token)
  | .nil, ts => some ts
  | .slice s rest, ts => (s.add ts).bind rest.tokens
  | .block inner rest, ts => do
    let ts ← inner.tokens (ts ++ [.punct .lcurly])
    rest.tokens (ts ++ [.punct .rcurly])
  | .branch cond body arms rest, ts => do
    let ts ← cond.tokens (ts ++ [.keyword .if])
    let ts ← body.tokens (ts ++ [.punct .lcurly])
    let ts ← arms.tokens (ts ++ [.punct .rcurly])
    rest.tokens ts

/-- The tokens behind further branches. -/
def Arms.tokens : Arms → List Token → Option (List Token)
  | .none, ts => some ts
  | .else gap head body, ts => do
    let ts ← Slice.addAll gap ts
    let ts ← Slice.addAll head (ts ++ [.keyword .else])
    let ts ← body.tokens (ts ++ [.punct .lcurly])
    some (ts ++ [.punct .rcurly])
  | .elif gap cond body arms, ts => do
    let ts ← Slice.addAll gap ts
    let ts ← cond.tokens (ts ++ [.keyword .else, .punct .lcurly, .keyword .if])
    let ts ← body.tokens (ts ++ [.punct .lcurly])
    let ts ← arms.tokens (ts ++ [.punct .rcurly])
    some (ts ++ [.punct .rcurly])

end

mutual

/-- **The opened outline has the same tokens.** -/
theorem Outline.tokens_opened (o : Outline) : o.opened.tokens = o.tokens := by
  cases o with
  | nil => rfl
  | slice s rest => 
    funext ts
    simp only [Outline.opened, Outline.tokens, rest.tokens_opened]
  | block inner rest =>
    funext ts
    simp only [Outline.opened, Outline.tokens, inner.tokens_opened, rest.tokens_opened]
  | branch cond body arms rest =>
    funext ts
    simp only [Outline.opened, Outline.tokens, body.tokens_opened, arms.tokens_opened,
      rest.tokens_opened]

/-- The tokens of branches do not change when they are opened. -/
theorem Arms.tokens_opened (a : Arms) : a.opened.tokens = a.tokens := by
  cases a with
  | none => rfl
  | «else» gap head body =>
    funext ts
    simp only [Arms.opened, Arms.tokens, body.tokens_opened]
  | elif gap cond body arms =>
    funext ts
    simp only [Arms.opened, Arms.tokens, Outline.tokens, body.tokens_opened, arms.tokens_opened,
      Slice.addAll, Slice.add_blank, Option.bind_eq_bind, Option.bind_some, Option.bind_fun_some,
      Option.bind_assoc, List.append_assoc, List.cons_append, List.nil_append]

end

/-! ### Feeding outlines -/

namespace Slice

theorem armAhead_gap {gap : List Slice} (h : ∀ s ∈ gap, s.IsGap) (ss : List Slice) :
    armAhead (gap ++ ss) = armAhead ss := by
  induction gap with
  | nil => rfl
  | cons s gap ih =>
    obtain ⟨hs, hgap⟩ := List.forall_mem_cons.1 h
    rw [List.cons_append, armAhead, if_pos hs, ih hgap]

theorem word?_of_isGap {s : Slice} (h : s.IsGap) : s.word? = none := by
  unfold word?
  rcases h with hshape | htext
  · rw [hshape]
  · rw [htext]
    cases s.shape <;> rfl

/-- No slice that reads the same everywhere starts a further branch. -/
theorem armAhead_cons {s : Slice} (hs : s.word? = none) {ss : List Slice}
    (h : armAhead ss = false) : armAhead (s :: ss) = false := by
  rw [armAhead]
  split
  · exact h
  · obtain ⟨shape, text⟩ := s
    cases shape with
    | word =>
      simp only [isBranchWord, BEq.rfl, Bool.true_and, Bool.or_eq_false_iff, beq_eq_false_iff_ne]
      constructor <;> (rintro rfl; cases hs)
    | _ => rfl

end Slice

namespace Structured.Draft

variable (ts : List Token) (fs : List OpenIf) (ss : List Slice)

open Slice

theorem slices_plain {s : Slice} (hs : s.word? = none) :
    slices ⟨ts, fs⟩ (s :: ss) = (s.add ts).bind fun ts => slices ⟨ts, fs⟩ ss := by
  rw [slices, slice, hs]
  exact Option.bind_map ..

/-- Slices without words are added one after the other. -/
theorem slices_all {us : List Slice} (hus : ∀ s ∈ us, s.word? = none) :
    slices ⟨ts, fs⟩ (us ++ ss) = (addAll us ts).bind fun ts => slices ⟨ts, fs⟩ ss := by
  induction us generalizing ts with
  | nil => rfl
  | cons s us ih =>
    obtain ⟨hs, hus⟩ := List.forall_mem_cons.1 hus
    rw [List.cons_append, slices_plain ts fs _ hs, addAll, Option.bind_assoc]
    exact congrArg _ (funext fun ts => ih ts hus)

theorem slices_newline :
    slices ⟨ts, fs⟩ [Slice.newline] = some ⟨ts ++ [.newline], fs⟩ := by
  rw [slices_plain ts fs [] rfl, add_newline]
  rfl

theorem slices_if :
    slices ⟨ts, fs⟩ (Slice.keyword .if :: ss) = slices ⟨ts ++ [.keyword .if], {} :: fs⟩ ss := rfl

theorem slices_else :
    slices ⟨ts, fs⟩ (Slice.keyword .else :: ss) = slices ⟨ts ++ [.keyword .else], fs⟩ ss := rfl

theorem slices_elif (owed : Nat) : slices ⟨ts, ⟨0, owed⟩ :: fs⟩ (Slice.keyword .elif :: ss)
    = slices ⟨ts ++ [.keyword .else, .punct .lcurly, .keyword .if], ⟨0, owed + 1⟩ :: fs⟩ ss := rfl

theorem slices_lcurly :
    slices ⟨ts, fs⟩ (lcurly :: ss) = slices ⟨ts ++ [.punct .lcurly], deeper fs⟩ ss :=
  congrArg (slices · ss) (feed_lcurly ts fs _)

variable {fs} in
theorem slices_rcurly (h : Inside fs) :
    slices ⟨ts, deeper fs⟩ (rcurly :: ss) = slices ⟨ts ++ [.punct .rcurly], fs⟩ ss :=
  congrArg (slices · ss) (feed_rcurly h ts _)

variable {ss}

theorem slices_rcurly_more (h : armAhead ss = true) (owed : Nat) :
    slices ⟨ts, ⟨1, owed⟩ :: fs⟩ (rcurly :: ss)
      = slices ⟨ts ++ [.punct .rcurly], ⟨0, owed⟩ :: fs⟩ ss :=
  congrArg (slices · ss) (feed_rcurly_more (by rw [h]; rfl) ts owed fs)

theorem slices_rcurly_last (h : armAhead ss = false) (owed : Nat) :
    slices ⟨ts, ⟨1, owed⟩ :: fs⟩ (rcurly :: ss)
      = slices ⟨ts ++ .punct .rcurly :: List.replicate owed (.punct .rcurly), fs⟩ ss :=
  congrArg (slices · ss) (feed_rcurly_last (by rw [h]; rfl) ts owed fs)

end Structured.Draft

open Slice Draft

/-- No outline starts with a further branch. -/
theorem Outline.armAhead (o : Outline) (h : o.Fits) {after : List Slice}
    (hafter : Slice.armAhead after = false) : Slice.armAhead (o.slices ++ after) = false := by
  cases o with
  | nil => exact hafter
  | slice s rest => exact armAhead_cons h.1 (rest.armAhead h.2 hafter)
  | block | branch => rfl

/-- What holds neither braces nor `if`s adds its tokens, whichever `if`s are open. -/
theorem Outline.feed_bare (o : Outline) (h : o.Fits) (hbare : o.IsBare) (fs : List OpenIf)
    (after : List Slice) (ts : List Token) : Draft.slices ⟨ts, fs⟩ (o.slices ++ after)
      = (o.tokens ts).bind fun ts => Draft.slices ⟨ts, fs⟩ after := by
  cases o with
  | nil => rfl
  | slice s rest =>
    rw [Outline.slices, List.cons_append, slices_plain ts fs _ h.1, Outline.tokens,
      Option.bind_assoc]
    exact congrArg _ (funext fun ts => rest.feed_bare h.2 hbare fs after ts)
  | block | branch => exact hbare.elim

mutual

/-- An outline adds its tokens and leaves the open `if`s as they were. -/
theorem Outline.feed (o : Outline) (h : o.Fits) {fs : List OpenIf} (hin : Inside fs)
    {after : List Slice} (hafter : Slice.armAhead after = false) (ts : List Token) :
    Draft.slices ⟨ts, fs⟩ (o.slices ++ after)
      = (o.tokens ts).bind fun ts => Draft.slices ⟨ts, fs⟩ after := by
  cases o with
  | nil => rfl
  | slice s rest =>
    rw [Outline.slices, List.cons_append, slices_plain ts fs _ h.1, Outline.tokens,
      Option.bind_assoc]
    exact congrArg _ (funext fun ts => rest.feed h.2 hin hafter ts)
  | block inner rest =>
    -- A pair of braces that belongs to no branch opens and closes one level of the innermost frame.
    simp only [Outline.slices, List.cons_append, List.append_assoc, slices_lcurly,
      inner.feed h.1 (inside_deeper fs) (rfl : Slice.armAhead (rcurly :: _) = false),
      slices_rcurly _ _ hin, rest.feed h.2 hin hafter, Outline.tokens, Option.bind_eq_bind,
      Option.bind_assoc]
  | branch cond body arms rest =>
    obtain ⟨hcond, hnoif, hbare, hbody, harms, hrest⟩ := h
    have hbehind : Slice.armAhead (rest.slices ++ after) = false := rest.armAhead hrest hafter
    simp only [Outline.slices, List.cons_append, List.append_assoc, slices_if, Outline.tokens,
      Option.bind_eq_bind, Option.bind_assoc]
    by_cases hcase : cond.IsBare
    · -- Without a brace in the condition the frame is still open when the arms are read.
      simp only [cond.feed_bare hcond hcase, slices_lcurly, deeper, Nat.zero_add,
        body.feed hbody (show Inside (⟨1, 0⟩ :: fs) from Nat.one_pos)
          (rfl : Slice.armAhead (rcurly :: _) = false),
        arms.feed harms 0 hin hbehind, List.replicate_zero, List.append_nil,
        rest.feed hrest hin hafter]
    · -- A brace in the condition closes the frame; then `Fits`
      -- rules out an `elif`, so no arm looks for it.
      simp only [cond.feed_cond hcond hnoif hcase hin (rfl : Slice.armAhead (lcurly :: _) = false),
        slices_lcurly, body.feed hbody (inside_deeper fs)
          (rfl : Slice.armAhead (rcurly :: _) = false),
        arms.feed_closed harms (fun helif => hcase (hbare helif)) hin,
        rest.feed hrest hin hafter]

/-- The condition of an `if` that holds braces closes the `if`. -/
theorem Outline.feed_cond (o : Outline) (h : o.Fits) (hnoif : o.HasNoIf) (hbare : ¬ o.IsBare)
    {fs : List OpenIf} (hin : Inside fs) {after : List Slice}
    (hafter : Slice.armAhead after = false) (ts : List Token) :
    Draft.slices ⟨ts, {} :: fs⟩ (o.slices ++ after)
      = (o.tokens ts).bind fun ts => Draft.slices ⟨ts, fs⟩ after := by
  cases o with
  | nil => exact absurd trivial hbare
  | slice s rest =>
    rw [Outline.slices, List.cons_append, slices_plain ts _ _ h.1, Outline.tokens,
      Option.bind_assoc]
    exact congrArg _ (funext fun ts => rest.feed_cond h.2 hnoif hbare hin hafter ts)
  | block inner rest =>
    have hbehind : Slice.armAhead (rest.slices ++ after) = false := rest.armAhead h.2 hafter
    simp only [Outline.slices, List.cons_append, List.append_assoc, slices_lcurly, deeper,
      Nat.zero_add, inner.feed h.1 (show Inside (⟨1, 0⟩ :: fs) from Nat.one_pos)
        (rfl : Slice.armAhead (rcurly :: _) = false),
      slices_rcurly_last _ _ hbehind, List.replicate_zero, rest.feed h.2 hin hafter,
      Outline.tokens, Option.bind_eq_bind, Option.bind_assoc]
  | branch => exact hnoif.elim

/-- Further branches add their tokens, and behind the last of them stand the braces that are
owed. -/
theorem Arms.feed (a : Arms) (h : a.Fits) (owed : Nat) {fs : List OpenIf} (hin : Inside fs)
    {after : List Slice} (hafter : Slice.armAhead after = false) (ts : List Token) :
    Draft.slices ⟨ts, ⟨1, owed⟩ :: fs⟩ (rcurly :: (a.slices ++ after))
      = (a.tokens (ts ++ [.punct .rcurly])).bind fun ts =>
          Draft.slices ⟨ts ++ List.replicate owed (.punct .rcurly), fs⟩ after := by
  cases a with
  | none =>
    -- The last brace of the branch closes also the braces owed by every `elif` before it.
    rw [Arms.slices, List.nil_append, slices_rcurly_last _ _ hafter, Arms.tokens, Option.bind_some,
      List.append_assoc, List.singleton_append]
  | «else» gap head body =>
    obtain ⟨hgap, hhead, hbody⟩ := h
    have hmore : Slice.armAhead (gap ++ Slice.keyword .else ::
        (head ++ lcurly :: (body.slices ++ rcurly :: after))) = true := armAhead_gap hgap _
    simp only [Arms.slices, List.append_assoc, List.cons_append, List.nil_append,
      slices_rcurly_more _ _ hmore, slices_all _ _ _ fun s hs => word?_of_isGap (hgap s hs),
      slices_else, slices_all _ _ _ hhead, slices_lcurly, deeper, Nat.zero_add,
      body.feed hbody (show Inside (⟨1, owed⟩ :: fs) from Nat.one_pos)
        (rfl : Slice.armAhead (rcurly :: _) = false),
      slices_rcurly_last _ _ hafter, Arms.tokens, Option.bind_eq_bind, Option.bind_assoc,
      Option.bind_some]
  | elif gap cond body arms =>
    obtain ⟨hgap, hcond, hbare, hbody, harms⟩ := h
    have hmore : Slice.armAhead (gap ++ Slice.keyword .elif ::
        (cond.slices ++ lcurly :: (body.slices ++ rcurly :: (arms.slices ++ after)))) = true :=
      armAhead_gap hgap _
    -- An `elif` opens a block of its own inside an `else`, so one more brace is owed behind it.
    simp only [Arms.slices, List.append_assoc, List.cons_append,
      slices_rcurly_more _ _ hmore, slices_all _ _ _ fun s hs => word?_of_isGap (hgap s hs),
      slices_elif, cond.feed_bare hcond hbare, slices_lcurly, deeper, Nat.zero_add,
      body.feed hbody (show Inside (⟨1, owed + 1⟩ :: fs) from Nat.one_pos)
        (rfl : Slice.armAhead (rcurly :: _) = false),
      arms.feed harms (owed + 1) hin hafter, List.replicate_succ, Arms.tokens, Option.bind_eq_bind,
      Option.bind_assoc, Option.bind_some, List.nil_append]

/-- Where the `if` is closed already, a branch behind `else` is a block like any other. -/
theorem Arms.feed_closed (a : Arms) (h : a.Fits) (hno : ¬ a.HasElif) {fs : List OpenIf}
    (hin : Inside fs) (after : List Slice) (ts : List Token) :
    Draft.slices ⟨ts, deeper fs⟩ (rcurly :: (a.slices ++ after))
      = (a.tokens (ts ++ [.punct .rcurly])).bind fun ts => Draft.slices ⟨ts, fs⟩ after := by
  cases a with
  | none => exact slices_rcurly _ _ hin
  | «else» gap head body =>
    obtain ⟨hgap, hhead, hbody⟩ := h
    simp only [Arms.slices, List.append_assoc, List.cons_append, List.nil_append,
      slices_rcurly _ _ hin, slices_all _ _ _ fun s hs => word?_of_isGap (hgap s hs),
      slices_else, slices_all _ _ _ hhead, slices_lcurly, body.feed hbody (inside_deeper fs)
        (rfl : Slice.armAhead (rcurly :: _) = false),
      Arms.tokens, Option.bind_eq_bind, Option.bind_assoc, Option.bind_some]
  | elif => exact absurd trivial hno

end

mutual

/-- The opened outline fits, too: none of its `if`s has an `elif`. -/
theorem Outline.fits_opened (o : Outline) (h : o.Fits) : o.opened.Fits := by
  cases o with
  | nil => trivial
  | slice s rest => exact ⟨h.1, rest.fits_opened h.2⟩
  | block inner rest => exact ⟨inner.fits_opened h.1, rest.fits_opened h.2⟩
  | branch cond body arms rest =>
    obtain ⟨hcond, hnoif, hbare, hbody, harms, hrest⟩ := h
    exact ⟨hcond, hnoif, fun helif => absurd helif arms.not_hasElif_opened,
      body.fits_opened hbody, arms.fits_opened harms, rest.fits_opened hrest⟩

/-- Branches that fit do so when they are opened. -/
theorem Arms.fits_opened (a : Arms) (h : a.Fits) : a.opened.Fits := by
  cases a with
  | none => trivial
  | «else» gap head body => exact ⟨h.1, h.2.1, body.fits_opened h.2.2⟩
  | elif gap cond body arms =>
    obtain ⟨hgap, hcond, hbare, hbody, harms⟩ := h
    refine ⟨hgap, by simp; rfl, ⟨rfl, hcond, cond.hasNoIf_of_isBare hbare, fun _ => hbare,
      body.fits_opened hbody, arms.fits_opened harms, rfl, trivial⟩⟩

end

namespace Lexeme

/-- The tokens a text reads as, if it can be read. -/
def tokensOf (text : String) : Option (List Token) :=
  (read text).toOption.map fun lexemes => lexemes.toList.map token

/-- A text reads as the tokens of its outline, with a line end behind. -/
theorem tokensOf_eq {o : Outline} {text : String} (ho : o.IsOf text) (hfits : o.Fits) :
    tokensOf text = (o.tokens []).map fun ts => ts ++ [.newline] := by
  have hchars : text.toList ++ ['\n'] = chars (o.slices ++ [newline]) := by
    rw [ho.1, chars_append]
    rfl
  have hrun := Reader.draftOf_run ho.2 (Nat.le_refl _) {} ⟨1, 1⟩
  have hstart : draftOf {} = ⟨[], []⟩ := rfl
  rw [hstart, o.feed hfits (show Inside [] from trivial) rfl] at hrun
  simp only [slices_newline] at hrun
  have hdraft : tokensOf text = ((Reader.run (chars (o.slices ++ [newline])).length {} ⟨1, 1⟩
      (chars (o.slices ++ [newline]))).toOption.map draftOf).map Draft.tokens := by
    rw [tokensOf, read, hchars]
    cases Reader.run (chars (o.slices ++ [newline])).length {} ⟨1, 1⟩
      (chars (o.slices ++ [newline])) <;> rfl
  rw [hdraft, hrun]
  cases o.tokens [] <;> rfl

/-- **Opening `elif`s changes nothing**: a text with `elif c { b } rest` is read, if it can be read,
to the same tokens as the one with `else { if c { b } rest }` in its place. -/
theorem read_opened {o : Outline} {text : String} (ho : o.IsOf text) (hfits : o.Fits) :
    tokensOf o.opened.text = tokensOf text := by
  rw [tokensOf_eq ho hfits, tokensOf_eq ho.opened (o.fits_opened hfits), o.tokens_opened]

/-- Two branches on two lines. -/
def twoBranches : Outline :=
  .branch (.slice blank (.slice ⟨.word, ['a']⟩ .nil)) .nil
    (.elif [newline] (.slice blank (.slice ⟨.word, ['b']⟩ .nil)) .nil .none) .nil

/-- Two branches of which only the first one has its braces. -/
theorem read_opened_twoBranches :
    twoBranches.IsOf "if a\x7b\x7d\nelif b\x7b\x7d" ∧ twoBranches.Fits ∧
      tokensOf twoBranches.opened.text = tokensOf "if a\x7b\x7d\nelif b\x7b\x7d" := by
  have hof : twoBranches.IsOf "if a\x7b\x7d\nelif b\x7b\x7d" :=
    ⟨rfl, ⟨_, _, rfl, rfl⟩, ⟨_, _, rfl, rfl⟩, ⟨_, _, rfl, rfl⟩, ⟨_, _, rfl, rfl⟩,
      ⟨_, _, rfl, rfl⟩, ⟨_, _, rfl, rfl⟩, ⟨_, _, rfl, rfl⟩, ⟨_, _, rfl, rfl⟩, ⟨_, _, rfl, rfl⟩,
      ⟨_, _, rfl, rfl⟩, ⟨_, _, rfl, rfl⟩, ⟨_, _, rfl, rfl⟩, trivial⟩
  have hfits : twoBranches.Fits :=
    ⟨⟨rfl, rfl, trivial⟩, trivial, fun _ => trivial, trivial,
      ⟨by decide, ⟨rfl, rfl, trivial⟩, trivial, trivial, trivial⟩, trivial⟩
  exact ⟨hof, hfits, read_opened hof hfits⟩

/-- An `if` whose condition compares with a map literal, and a further branch. -/
def mapCondition : Outline :=
  .branch (.slice blank (.slice ⟨.word, ['m']⟩ (.slice ⟨.oper, ['=', '=']⟩ (.block .nil .nil))))
    .nil
    (.elif [] (.slice blank (.slice ⟨.word, ['c']⟩ .nil)) .nil .none) .nil

/-- Braces in the condition of an `if` with an `elif` pass for those of its branch. -/
theorem read_map_condition : mapCondition.IsOf "if m==\x7b\x7d\x7b\x7delif c\x7b\x7d" ∧
    (tokensOf mapCondition.opened.text).map (List.map Token.kind)
      ≠ (tokensOf "if m==\x7b\x7d\x7b\x7delif c\x7b\x7d").map (List.map Token.kind) := by
  refine ⟨⟨rfl, ⟨_, _, rfl, rfl⟩, ⟨_, _, rfl, rfl⟩, ⟨_, _, rfl, rfl⟩, ⟨_, _, rfl, rfl⟩,
    ⟨_, _, rfl, rfl⟩, ⟨_, _, rfl, rfl⟩, ⟨_, _, rfl, rfl⟩, ⟨_, _, rfl, rfl⟩, ⟨_, _, rfl, rfl⟩,
    ⟨_, _, rfl, rfl⟩, ⟨_, _, rfl, rfl⟩, ⟨_, _, rfl, rfl⟩, ⟨_, _, rfl, rfl⟩,
    ⟨_, _, rfl, rfl⟩, trivial⟩, ?_⟩
  decide +kernel

end Lexeme

end Covenant
