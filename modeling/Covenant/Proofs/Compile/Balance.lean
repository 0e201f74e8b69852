import Covenant.Proofs.Compile.Growth
import Covenant.Proofs.Lexeme.Growth

/-!
# Expressions balance braces

An expression takes lexemes in which every left brace has its right brace and nothing is declared:
map literals are the only braces in it. What it takes without a look at is the name of a chained
segment, and there a brace cannot stand since no segment has an empty name
(`editInvariant_spelled`).

The main statement is `balanced_entryExpression`.
-/

namespace Covenant

/-! ### Balanced lexemes -/

/-- Whether a token is neither a brace nor a keyword that declares something. -/
def Token.isLevel : Token → Bool
  | .punct .lcurly | .punct .rcurly | .keyword .contract | .keyword .func => false
  | _ => true

namespace Lexeme

/-- Whether every left brace has its right brace among some lexemes, and nothing is declared in
them. -/
inductive Balanced : List Lexeme → Prop
  | nil : Balanced []
  | level {l : Lexeme} : l.token.isLevel = true → Balanced [l]
  | append {xs ys : List Lexeme} : Balanced xs → Balanced ys → Balanced (xs ++ ys)
  | braces {l r : Lexeme} {xs : List Lexeme} : l.token = .punct .lcurly → r.token = .punct .rcurly →
      Balanced xs → Balanced (l :: (xs ++ [r]))

theorem declaredFrom_lcurly {l : Lexeme} (h : l.token = .punct .lcurly) (level : Int)
    (ls : List Lexeme) : declaredFrom level (l :: ls) = declaredFrom (level + 1) ls := by
  rw [declaredFrom, h]

theorem declaredFrom_rcurly {l : Lexeme} (h : l.token = .punct .rcurly) (level : Int)
    (ls : List Lexeme) : declaredFrom level (l :: ls) = declaredFrom (level - 1) ls := by
  rw [declaredFrom, h]

/-- A lexeme that neither opens nor closes anything and declares nothing does not count. -/
theorem declaredFrom_level {l : Lexeme} (h : l.token.isLevel = true) (level : Int)
    (ls : List Lexeme) : declaredFrom level (l :: ls) = declaredFrom level ls := by
  rw [declaredFrom]
  split
  · rw [‹l.token = _›] at h
    cases h
  · rw [‹l.token = _›] at h
    cases h
  · rw [‹l.token = _›] at h
    cases h
  · rw [‹l.token = _›] at h
    cases h
  · rfl

/-- Balanced lexemes declare nothing and leave the level of braces. -/
theorem Balanced.declaredFrom {xs : List Lexeme} (h : Balanced xs)
    (level : Int) (ls : List Lexeme) :
    declaredFrom level (xs ++ ls) = Lexeme.declaredFrom level ls := by
  induction h generalizing level ls with
  | nil => rfl
  | level hl => exact declaredFrom_level hl level ls
  | append _ _ ihx ihy => rw [List.append_assoc, ihx, ihy]
  | braces hl hr _ ih =>
    rw [List.cons_append, List.append_assoc, declaredFrom_lcurly hl, ih, List.singleton_append,
      declaredFrom_rcurly hr, Int.add_sub_cancel]

end Lexeme

namespace Compile

open Covenant.Computation

variable {s : Source} {w : Work} {y : Yard} {i j k : Nat}

namespace Source

/-- The lexemes from a position on. -/
def ahead (s : Source) (i : Nat) : List Lexeme := s.lexemes.toList.drop i

theorem ahead_of_token? {t : Token} (h : s.token? i = some t) :
    ∃ l : Lexeme, l.token = t ∧ s.ahead i = l :: s.ahead (i + 1) := by
  obtain ⟨l, hl, rfl⟩ := Option.map_eq_some_iff.1 h
  rw [← Array.getElem?_toList] at hl
  obtain ⟨hi, hl⟩ := List.getElem?_eq_some_iff.1 hl
  exact ⟨l, rfl, by rw [ahead, List.drop_eq_getElem_cons hi, hl, ahead]⟩

/-- Whether the lexemes between two positions are balanced. -/
def Balanced (s : Source) (i j : Nat) : Prop :=
  ∃ ls, Lexeme.Balanced ls ∧ s.ahead i = ls ++ s.ahead j

namespace Balanced

theorem refl (s : Source) (i : Nat) : s.Balanced i i := ⟨[], .nil, rfl⟩

theorem trans (h : s.Balanced i j) (h' : s.Balanced j k) : s.Balanced i k := by
  obtain ⟨xs, hxs, hi⟩ := h
  obtain ⟨ys, hys, hj⟩ := h'
  exact ⟨xs ++ ys, .append hxs hys, by rw [hi, hj, List.append_assoc]⟩

/-- A lexeme that is no brace and declares nothing. -/
theorem one {t : Token} (h : s.token? i = some t) (ht : t.isLevel = true) :
    s.Balanced i (i + 1) := by
  obtain ⟨l, rfl, hl⟩ := ahead_of_token? h
  exact ⟨[l], .level ht, hl⟩

theorem cons {t : Token} (h : s.token? i = some t) (ht : t.isLevel = true)
    (h' : s.Balanced (i + 1) j) : s.Balanced i j :=
  (one h ht).trans h'

theorem braces (hl : s.token? i = some (.punct .lcurly)) (h : s.Balanced (i + 1) j)
    (hr : s.token? j = some (.punct .rcurly)) : s.Balanced i (j + 1) := by
  obtain ⟨l, hltoken, hl⟩ := ahead_of_token? hl
  obtain ⟨r, hrtoken, hr⟩ := ahead_of_token? hr
  obtain ⟨xs, hxs, h⟩ := h
  refine ⟨_, .braces hltoken hrtoken hxs, ?_⟩
  rw [hl, h, hr, List.cons_append, List.append_assoc, List.singleton_append]

end Balanced

/-- The token of a kind that tells it. -/
theorem token?_of_kind?_punct {p : Punct} (h : s.kind? i = some (.punct p)) :
    s.token? i = some (.punct p) := by
  obtain ⟨l, hl, hkind⟩ := Option.map_eq_some_iff.1 h
  rw [token?, hl, Option.map_some]
  unfold Lexeme.kind at hkind
  revert hkind
  cases l.token with
  | punct q => exact fun hkind => congrArg (some ∘ Token.punct) (Kind.punct.inj hkind)
  | const c => cases c <;> exact nofun
  | _ => exact nofun

/-- A lexeme with a name is an identifier or a `$` name. -/
theorem exists_ident_of_name (h : s.name i ≠ "") :
    ∃ x, s.token? i = some (.ident x) ∨ s.token? i = some (.extend x) := by
  rw [name] at h
  cases hl : s.lexemes[i]? with
  | none =>
    rw [hl] at h
    exact absurd rfl h
  | some l =>
    rw [hl, Option.map_some, Option.getD_some, Lexeme.name] at h
    rw [token?, hl, Option.map_some]
    revert h
    cases l.token with
    | ident x => exact fun _ => ⟨x, .inl rfl⟩
    | extend x => exact fun _ => ⟨x, .inr rfl⟩
    | _ => exact fun h => absurd rfl h

/-- A lexeme with a name is no brace. -/
theorem exists_token?_of_name (h : s.name i ≠ "") :
    ∃ t, s.token? i = some t ∧ t.isLevel = true := by
  obtain ⟨x, hx | hx⟩ := exists_ident_of_name h <;> exact ⟨_, hx, rfl⟩

end Source

/-! ### Names of segments -/

/-- The identifiers of a text have names. -/
theorem spelled_of_read {text : String} {lexemes : Array Lexeme}
    (h : Lexeme.read text = .ok lexemes) (scope : Scope) : (scope.source lexemes).Spelled := by
  intro i hi
  obtain ⟨l, hl, hkind⟩ := Option.map_eq_some_iff.1 hi
  have hspelled := Lexeme.read_spelled h l (Array.mem_toList_iff.2 (Array.mem_of_getElem? hl))
  rw [Source.name, hl, Option.map_some, Option.getD_some, Lexeme.name]
  unfold Lexeme.kind at hkind
  revert hkind hspelled
  cases l.token with
  | ident x => exact fun _ hspelled => hspelled
  | const c => cases c <;> exact nofun
  | _ => exact nofun

/-- Every edit keeps that segments have names. -/
theorem editInvariant_spelled (hs : s.Spelled) : EditInvariant s Block.Spelled where
  empty _ := .of_func?_eq_none rfl
  children _ hb := hb
  mark := Block.Spelled.setWritable
  control _ _ hb := hb
  header hv hb := by
    rcases hv.header with ⟨f, rfl, ⟨-, hsegments, hchain⟩, -⟩ | ⟨c, rfl, -⟩
    · intro g hg
      cases hg
      refine ⟨by rw [hchain]; exact nofun, fun segments hg => ?_⟩
      cases hsegments.symm.trans hg
    · exact .of_func?_eq_none rfl
  name _ hb := hb
  change _ hedit hb := hedit.spelled hs hb

/-! ### Literals -/

theorem eq_ok_of_liftM {α : Type} {r : Except Error α} {a : α} {w' : Work}
    (h : (liftM r : Compiling α) w = .ok a w') : r = .ok a := by
  cases r with
  | error e => cases h
  | ok b =>
    cases h
    rfl

/-- A token of a literal that is no bracket is no brace. -/
theorem isLevel_of_isPlain {t : Token} (h : t.isPlain = true) : t.isLevel = true := by
  unfold Token.isPlain at h
  split at h <;> first | rfl | cases h

/-- Whether a part of a literal is balanced: entries are, up to the right brace. -/
def LiteralPart.Balanced (s : Source) (i j : Nat) : LiteralPart → Prop
  | entries _ => ∃ k, j = k + 1 ∧ s.Balanced i k ∧ s.token? k = some (.punct .rcurly)
  | items _ | item _ => s.Balanced i j

/-- Literals are balanced; a map is read up to its right brace. -/
theorem LiteralPart.Read.balanced {i j : Nat} {p : LiteralPart} (h : p.Read s w i j) :
    p.Balanced s i j := by
  induction h with
  | @skip i j p t ht hplain _ ih =>
    have hlevel := isLevel_of_isPlain hplain
    cases p with
    | entries es =>
      obtain ⟨k, hk, hbalanced, hclose⟩ := ih
      exact ⟨k, hk, .cons ht hlevel hbalanced, hclose⟩
    | items | item => exact Source.Balanced.cons ht hlevel ih
  | @closeMap i ht => exact ⟨i, rfl, .refl s i, ht⟩
  | closeArray ht | const ht | extend ht | var ht | field ht => exact Source.Balanced.one ht rfl
  | entry _ _ ihitem ihrest =>
    obtain ⟨k, hk, hbalanced, hclose⟩ := ihrest
    exact ⟨k, hk, Source.Balanced.trans ihitem hbalanced, hclose⟩
  | element _ _ ihitem ihrest => exact Source.Balanced.trans ihitem ihrest
  | map ht _ ih =>
    obtain ⟨k, rfl, hbalanced, hclose⟩ := ih
    exact Source.Balanced.braces ht hbalanced hclose
  | array ht _ ih => exact Source.Balanced.cons ht rfl ih

/-! ### Expressions -/

/-- A step of an expression that goes on behind the lexeme it takes. -/
theorem leads_one {x : Compiling (Yard × Nat)} (h : Leads w x fun r _ => r.2 = i + 1) {t : Token}
    (ht : s.token? i = some t) (hlevel : t.isLevel = true) :
    Leads w x fun r _ => s.Balanced i r.2 := by
  intro r w' hr
  rw [h r w' hr]
  exact .one ht hlevel

/-- The bracket of an index belongs to an expression as a whole. -/
theorem balanced_closeIndex (ht : s.token? i = some (.punct .rbrack)) :
    Leads w (closeIndex s y i) fun r _ => s.Balanced i r.2 := by
  have hone : s.Balanced i (i + 1) := .one ht rfl
  refine .ite (fun _ => .throw_bind _) fun _ => ?_
  dsimp only
  split
  · exact .throw _
  · split
    · exact .throw _
    · rename_i heq
      exact .ite (fun _ => .pure (hone.trans (.one (Source.token?_of_kind?_punct heq) rfl)))
        fun _ =>
        .pure hone
    · exact .pure hone

/-- A segment of a function has a name. -/
theorem name_ne_of_segments (hspelled : w.arena.Every Block.Spelled) {c : PendingCall}
    {segments : Dict Segment} (hsegments : segmentsOf w c = some segments) {x : String}
    (hx : segments.contains x = true) : x ≠ "" := by
  rintro rfl
  unfold segmentsOf at hsegments
  split at hsegments
  · obtain ⟨f, hf, hsegments⟩ := Option.bind_eq_some_iff.1 hsegments
    rw [Dict.contains_eq, (hspelled _ f hf).segments segments hsegments] at hx
    cases hx
  · cases hsegments

/-- Behind the parenthesis of a call come at most a dot, a segment and the next parenthesis. -/
theorem balanced_closeCall_rest (hspelled : w.arena.Every Block.Spelled) (count : Nat) (i : Nat) :
    Leads w (match y.buffer with
      | .call c :: rest => do
        let count := c.count.getD count
        match segmentsOf (← get) c with
        | none => return (← endCall s count c i { y with buffer := rest }, none)
        | some segments =>
          let y := if endsInSegment y then y else y.emit (.push .nil) (s.line i)
          if chainFollows s i then
            let segment := s.name (i + 2)
            if !segments.contains segment then failAt s (.unknownFunction segment) (i + 2)
            return ({ y with
              buffer := .paren true :: .chain segment
                :: .call { c with count := some count } :: rest
              counts := 0 :: y.counts }, some (i + 3))
          else
            return (← endCall s count c i { y with buffer := rest }, none)
      | _ => failAt s .noPair i : Compiling (Yard × Option Nat))
      fun r _ => ∀ next, r.2 = some next → next = i + 3 ∧ s.Balanced (i + 1) (i + 4) := by
  split
  · refine .get ?_
    split
    · exact .bind (P := fun _ _ => True) (fun _ _ _ => trivial) fun _ _ _ => .pure nofun
    · rename_i segments hsegments
      refine .ite (fun hchain => .ite (fun _ => .throw_bind _) fun hname =>
        .pure fun next hnext => ?_)
        fun _ => .bind (P := fun _ _ => True) (fun _ _ _ => trivial) fun _ _ _ => .pure nofun
      -- a segment follows: the dot, its name and the parenthesis, none of which opens anything
      cases hnext
      rw [chainFollows, Bool.and_eq_true, beq_iff_eq, beq_iff_eq] at hchain
      have hne : s.name (i + 2) ≠ "" :=
        name_ne_of_segments hspelled hsegments (by simpa using hname)
      obtain ⟨t, ht, hlevel⟩ := Source.exists_token?_of_name hne
      exact ⟨rfl, .cons (Source.token?_of_kind?_punct hchain.1) rfl (.cons ht hlevel
        (.one (Source.token?_of_kind?_punct hchain.2) rfl))⟩
  · exact .throw _

/-- The lexemes that a chained segment starts with are no braces. -/
theorem balanced_closeCall (hspelled : w.arena.Every Block.Spelled) (count : Nat) (i : Nat) :
    Leads w (closeCall s count i y) fun r _ => ∀ next, r.2 = some next →
      next = i + 3 ∧ s.Balanced (i + 1) (i + 4) :=
  balanced_closeCall_rest hspelled count i

/-- So a closing parenthesis is followed by nothing that is open. -/
theorem balanced_closeParen (hspelled : w.arena.Every Block.Spelled)
    (ht : s.token? i = some (.punct .rpar)) :
    Leads w (closeParen s y i) fun r _ => s.Balanced i r.2 := by
  have hone : s.Balanced i (i + 1) := .one ht rfl
  refine .ite (fun _ => .throw_bind _) fun _ => ?_
  dsimp only
  split
  · exact .throw _
  · split
    · refine .bind (balanced_closeCall hspelled _ i) fun r _ hr => ?_
      obtain ⟨y', chained⟩ := r
      cases chained with
      | some next =>
        obtain ⟨rfl, hchain⟩ := hr next rfl
        exact .pure (hone.trans hchain)
      | none => exact .pure hone
    · exact .pure hone

/-- A name opens and closes nothing by itself. -/
theorem balanced_nameOperand {t : Token} (ht : s.token? i = some t) (hlevel : t.isLevel = true)
    (name : String) : Leads w (nameOperand s y t name i) fun r _ => s.Balanced i r.2 := by
  have hone : s.Balanced i (i + 1) := .one ht hlevel
  refine .ite (fun hparen => ?_) fun _ => ?_
  · have hopen := hone.trans (.one (Source.token?_of_kind?_punct (beq_iff_eq.1 hparen)) rfl)
    split
    · exact .pure hopen
    · exact .bind (P := fun _ _ => True) (fun _ _ _ => trivial) fun _ _ _ => .pure hopen
  · split
    · exact .pure hone
    · refine .get ?_
      split
      · exact .pure hone
      · exact .pure hone
      · exact .throw_bind _

/-- An expression goes on behind what a step takes. -/
theorem leads_onward {x : Compiling (Yard × Nat)} (h : Leads w x fun r _ => s.Balanced i r.2) :
    Leads w (x >>= fun r => pure (some r)) fun r _ => ∀ p, r = some p → s.Balanced i p.2 :=
  .bind h fun _ _ h => .pure fun _ hp => Option.some.inj hp ▸ h

/-- What one step of an expression takes is balanced. -/
theorem balanced_take (hspelled : w.arena.Every Block.Spelled) (blockFollows : Bool) {t : Token}
    (ht : s.token? i = some t) :
    Leads w (take s blockFollows y i t) fun r _ => ∀ p, r = some p → s.Balanced i p.2 := by
  have hnone : ∀ p : Yard × Nat, none = some p → s.Balanced i p.2 := nofun
  have hone : ∀ (y' : Yard) (p : Yard × Nat), t.isLevel = true → some (y', i + 1) = some p →
      s.Balanced i p.2 := by
    intro y' p hlevel hp
    cases hp
    exact .one ht hlevel
  unfold take
  dsimp only
  split
  · -- a line end
    refine .pure ?_
    split
    · exact fun p => hone y p rfl
    · exact hnone
  · -- a left brace
    refine .ite (fun _ => .pure hnone) fun _ => .get (.bind (P := fun r _ => s.Balanced i r.2)
      (fun r w' hr => ?_) fun _ _ hr => .pure fun p hp => Option.some.inj hp ▸ hr)
    obtain ⟨j, hj, hbalanced, hclose⟩ :=
      (LiteralPart.Read.of_mapLiteral (eq_ok_of_liftM hr)).balanced
    rw [hj]
    exact .braces ht hbalanced hclose
  · -- a right brace
    exact .pure hnone
  · -- a left bracket
    refine .ite (fun _ => .get (.bind (P := fun r _ => s.Balanced i r.2) (fun r w' hr => ?_)
      fun _ _ hr => .pure fun p hp => Option.some.inj hp ▸ hr)) fun _ => .pure fun p => hone _ p rfl
    exact .cons ht rfl (LiteralPart.Read.of_arrayLiteral (eq_ok_of_liftM hr)).balanced
  · -- a right bracket
    exact leads_onward (balanced_closeIndex ht)
  · -- a left parenthesis
    exact .ite (fun _ => .pure fun p => hone _ p rfl) fun _ => .pure hnone
  · -- a right parenthesis
    exact leads_onward (balanced_closeParen hspelled ht)
  · -- a comma
    exact leads_onward (leads_one (.ite (fun _ => .throw_bind _) fun _ => .pure rfl) ht rfl)
  · -- an operator
    refine leads_onward (leads_one ?_ ht rfl)
    unfold operator
    dsimp only
    split
    · exact .ite (fun _ => .throw_bind _) fun _ => .pure rfl
    · exact .ite (fun _ => .throw_bind _) fun _ => .pure rfl
    · exact .throw _
  · -- a constant
    exact .ite (fun _ => .pure fun p => hone _ p rfl) fun _ => .pure hnone
  · -- a name
    exact .ite (fun _ => leads_onward (balanced_nameOperand ht rfl _)) fun _ => .pure hnone
  · -- a name of the host
    exact .ite (fun _ => leads_onward (balanced_nameOperand ht rfl _)) fun _ => .pure hnone
  · -- an argument to spread
    exact .ite (fun _ => .throw_bind _) fun _ => .pure fun p => hone _ p rfl
  · -- no token of an expression
    exact .pure hnone

/-- All that is taken of an expression is balanced. -/
theorem balanced_takeAll (hs : s.Spelled) (hspelled : w.arena.Every Block.Spelled)
    (blockFollows : Bool) (fuel : Nat) (hy : y.Fits s w) (i : Nat) :
    Leads w (takeAll s blockFollows fuel y i) fun r _ => s.Balanced i r.2 := by
  induction fuel generalizing w y i with
  | zero =>
    unfold takeAll
    split
    · exact .pure (.refl s i)
    · exact .throw _
  | succ fuel ih =>
    unfold takeAll
    split
    · exact .pure (.refl s i)
    · rename_i t ht
      refine .bind (P := fun r w' => w'.arena.Every Block.Spelled ∧ Onward s y r w' ∧
        ∀ p, r = some p → s.Balanced i p.2) (fun r w' hr => ?_) fun r w' hr => ?_
      · obtain ⟨hchanges, honward⟩ := (yields_take blockFollows hy i t).leads r w' hr
        exact ⟨(editInvariant_spelled hs).edits hspelled hchanges.edits, honward,
          balanced_take hspelled blockFollows ht r w' hr⟩
      · obtain ⟨hspelled', honward, hbalanced⟩ := hr
        cases r with
        | none => exact .pure (.refl s i)
        | some p =>
          exact fun r w'' hr => (hbalanced p rfl).trans (ih hspelled' honward p.2 r w'' hr)

theorem balanced_expression (hs : s.Spelled) (hspelled : w.arena.Every Block.Spelled)
    (blockFollows : Bool) (start : Nat) :
    Leads w (expression s blockFollows start) fun stop _ => s.Balanced start stop := by
  refine .bind (balanced_takeAll hs hspelled blockFollows _ fits_empty start) fun r _ hr => ?_
  refine .bind (P := fun _ _ => True) (fun _ _ _ => trivial) fun _ _ _ => ?_
  exact .bind (P := fun _ _ => True) (fun _ _ _ => trivial) fun _ _ _ => .pure hr

/-- **The expression of an entry is balanced.** -/
theorem balanced_entryExpression (hs : s.Spelled) (hspelled : w.arena.Every Block.Spelled)
    (f : Grammar.Flags) (i : Nat) : Leads w (entryExpression s f i) fun stop _ =>
      s.Balanced (if f.toFork then i else i + 1) stop := by
  have hrest : ∀ w : Work, w.arena.Every Block.Spelled → Leads w (do
      let before := ((← get).block (← get).top).code.size
      let stop ← expression s f.toBlock (if f.toFork then i else i + 1)
      if f.mustEval && ((← get).block (← get).top).code.size == before then
        failAt s .missingExpression i
      return stop) fun stop _ => s.Balanced (if f.toFork then i else i + 1) stop := by
    intro w hspelled
    refine .get (.get (.bind (balanced_expression hs hspelled _ _) fun _ w hstop => ?_))
    exact .get (.get (.ite (fun _ => .throw_bind _) fun _ => .pure hstop))
  refine .ite (fun _ => .bind (P := fun _ w' => w'.arena.Every Block.Spelled) (fun _ w' hw' => ?_)
    fun _ w' hw' => hrest w' hw') fun _ => hrest w hspelled
  have hlabel : Op.label.Silent := ⟨⟨rfl, rfl, rfl, rfl⟩, rfl⟩
  have hemit := (amends_emit (s := s) (w := w) hlabel rfl _).leads _ w' hw'
  exact (editInvariant_spelled hs).edits hspelled hemit.1.edits

end Compile

end Covenant
