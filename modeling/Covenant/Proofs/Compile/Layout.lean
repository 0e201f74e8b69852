import Covenant.Proofs.Compile.Headers
import Covenant.Proofs.Registry.Scopes

/-!
# Layout of signatures

The functions of a unit belong to the headers in its text, one by one and in order: a function has
what the header declares that starts with its keyword. Between the headers nothing changes a
signature (`Work.Grown`), so this is kept by every entry of the table (`headings_advance`). Names of
a block's variables stand for different ones (`Block.Indexed`).

The main statement is `Session.Reachable.signature_layout`.
-/

namespace Covenant

/-! ### Headers of a text, functions of an arena -/

/-- The parts of a text that start with the keyword of a function, in order. -/
def Token.headers (ts : List Token) : List (List Token) :=
  ts.tails.filter fun us => us.head?.map Token.kind = some (.keyword .func)

/-- The functions among the blocks of an arena from some block on, in order. -/
def Arena.funcs (a : Arena) (start : Nat) : List BlockId :=
  (List.range' start (a.size - start)).filter fun id => (a.block id).func?.isSome

namespace Token

theorem headers_cons (t : Token) (ts : List Token) : headers (t :: ts)
    = if t.kind = .keyword .func then (t :: ts) :: headers ts else headers ts := by
  simp [headers, List.filter_cons]

/-- A level opens no function. -/
theorem kind_ne_of_isLevel {t : Token} (h : t.isLevel = true) : t.kind ≠ .keyword .func := by
  intro hkind
  cases t with
  | keyword k =>
    cases hkind
    cases h
  | const c => cases c <;> cases hkind
  | _ => cases hkind

/-- No header starts in balanced lexemes. -/
theorem headers_balanced {ls : List Lexeme} (h : Lexeme.Balanced ls) (ts : List Token) :
    headers (ls.map Lexeme.token ++ ts) = headers ts := by
  induction h generalizing ts with
  | nil => rfl
  | level hl => exact (headers_cons _ ts).trans (if_neg (kind_ne_of_isLevel hl))
  | append _ _ ihx ihy => rw [List.map_append, List.append_assoc, ihx, ihy]
  | @braces l r xs hl hr _ ih =>
    have hopen : l.token.kind ≠ .keyword .func := by rw [hl]; decide
    have hclose : r.token.kind ≠ .keyword .func := by rw [hr]; decide
    rw [List.map_cons, List.map_append, List.cons_append, headers_cons,
      if_neg hopen, List.append_assoc, ih, List.map_singleton, List.singleton_append,
      headers_cons, if_neg hclose]

end Token

namespace Arena

variable {a a' : Arena} {start n : Nat}

/-- The functions of an arena from some place on. -/
theorem mem_funcs {id : Nat} :
    id ∈ a.funcs start ↔ start ≤ id ∧ id < a.size ∧ (a.block id).func?.isSome = true := by
  rw [funcs, List.mem_filter, List.mem_range'_1]
  constructor
  · rintro ⟨⟨hstart, hlt⟩, hfunc⟩
    exact ⟨hstart, by omega, hfunc⟩
  · rintro ⟨hstart, hlt, hfunc⟩
    exact ⟨⟨hstart, by omega⟩, hfunc⟩

/-- No functions are found behind the last block. -/
theorem funcs_eq (h : a.size ≤ n) :
    a.funcs start = (List.range' start (n - start)).filter fun id => (a.block id).func?.isSome := by
  have hsplit : n - start = a.size - start + (n - max a.size start) := by omega
  have hbehind : (List.range' (start + (a.size - start)) (n - max a.size start)).filter
      (fun id => (a.block id).func?.isSome) = [] := by
    refine List.filter_eq_nil_iff.2 fun id hid => ?_
    have hlast : a.size ≤ id := by
      have := (List.mem_range'_1.1 hid).1
      omega
    rw [block_of_le hlast]
    exact Bool.false_ne_true
  rw [hsplit, ← List.range'_append_1, List.filter_append, hbehind, List.append_nil, funcs]

theorem funcs_congr (h : ∀ id, (a'.block id).func?.isSome = (a.block id).func?.isSome) :
    a'.funcs start = a.funcs start := by
  rw [funcs_eq (Nat.le_max_left a'.size a.size), funcs_eq (Nat.le_max_right a'.size a.size)]
  exact List.filter_congr fun id _ => h id

/-- A block behind all functions that becomes one is the last of them. -/
theorem funcs_concat (hstart : start ≤ n) (hsize : a.size ≤ n + 1) (hsize' : a'.size ≤ n + 1)
    (hsame : ∀ id ≠ n, (a'.block id).func?.isSome = (a.block id).func?.isSome)
    (hold : (a.block n).func? = none) (hnew : (a'.block n).func? ≠ none) :
    a'.funcs start = a.funcs start ++ [n] := by
  have hlast : start + (n - start) = n := Nat.add_sub_cancel' hstart
  rw [funcs_eq hsize, funcs_eq hsize', Nat.succ_sub hstart, List.range'_1_concat,
    hlast, List.filter_append, List.filter_append]
  have hbefore : (List.range' start (n - start)).filter (fun id => (a'.block id).func?.isSome)
      = (List.range' start (n - start)).filter fun id => (a.block id).func?.isSome := by
    refine List.filter_congr fun id hid => hsame id ?_
    have := (List.mem_range'_1.1 hid).2
    omega
  rw [hbefore]
  simp [hold, Option.isSome_iff_ne_none, hnew]

theorem nodup_funcs (a : Arena) (start : Nat) : (a.funcs start).Nodup :=
  (List.nodup_range' (s := start) (n := a.size - start)).filter _

end Arena

namespace Compile

variable {a : Arena} {s : Source} {w w' w₀ : Work} {c : Cursor} {k : Kind}
  {b b' : Block} {i j : Nat}
  {header : List Token}

namespace Source

theorem headers_next (hk : s.kind? i = some k) (hfunc : k ≠ .keyword .func) :
    Token.headers (s.tokensFrom i) = Token.headers (s.tokensFrom (i + 1)) := by
  obtain ⟨l, hl, hahead⟩ := ahead_of_kind? hk
  have hother : l.token.kind ≠ .keyword .func := fun h => hfunc (hl.symm.trans h)
  rw [tokensFrom, hahead, List.map_cons, Token.headers_cons, if_neg hother, tokensFrom]

theorem headers_func (hk : s.kind? i = some (.keyword .func)) :
    Token.headers (s.tokensFrom i) = s.tokensFrom i :: Token.headers (s.tokensFrom (i + 1)) := by
  obtain ⟨l, hl, hahead⟩ := ahead_of_kind? hk
  have hkeyword : l.token.kind = .keyword .func := hl
  rw [tokensFrom, hahead, List.map_cons, Token.headers_cons, if_pos hkeyword, tokensFrom]

theorem headers_balanced (h : s.Balanced i j) :
    Token.headers (s.tokensFrom i) = Token.headers (s.tokensFrom j) := by
  obtain ⟨ls, hls, hahead⟩ := h
  rw [tokensFrom, hahead, List.map_append, Token.headers_balanced hls, tokensFrom]

end Source

/-! ### Functions and their headers -/

/-- Whether a block is a function that has what a header declares. -/
def Headed (header : List Token) (b : Block) : Prop := ∃ f ts g lines, b.func? = some f ∧
  .keyword .func :: .ident f.name :: ts ++ List.replicate lines .newline
  ++ [.punct .lcurly] <+: header ∧
    SignatureTokens ts g ∧ g.Declares f ∧ g.types <+: b.vars.toList

/-- What extends a block with a header has the header. -/
theorem Headed.extends (h : Headed header b) (hext : b.Extends b') : Headed header b' := by
  obtain ⟨f, ts, g, lines, hf, hread, hts, hdeclares, hvars⟩ := h
  have hheading := hext.heading
  rw [hf, Option.map_some] at hheading
  obtain ⟨f', hf', heq⟩ := Option.map_eq_some_iff.1 hheading
  simp only [FuncInfo.heading, Prod.mk.injEq] at heq
  obtain ⟨hname, hparams, hsegments, hvariadic⟩ := heq
  exact ⟨f', ts, g, lines, hf', hname ▸ hread, hts, ⟨hparams ▸ hdeclares.params,
    hvariadic ▸ hdeclares.variadic, hsegments ▸ hdeclares.segments⟩, hvars.trans hext.vars⟩

/-- Behind the brace, a function has what its header declares. -/
theorem Underway.headed {pending : List String} {f : FuncInfo}
    (h : Underway s header .block i pending b f) (hk : s.kind? i = some (.punct .lcurly)) :
    Headed header b := by
  obtain ⟨ts, g, hread, hspell, hagrees⟩ := h
  cases hspell with
  | lines lines hts =>
    have hall := Source.tokens_next hread (Source.token?_of_kind?_punct hk)
    refine ⟨f, _, g, lines, hagrees.func, ?_, hts, hagrees.toDeclares,
      hagrees.vars ▸ List.prefix_rfl⟩
    rw [hall]
    simp

/-- Whether the functions of a unit are those whose headers stand before a position. -/
def Matched (a : Arena) (s : Source) (w : Work) (i : Nat) : Prop := ∃ headers,
  List.Forall₂ (fun id header => Headed header (w.block id)) (w.arena.funcs a.size) headers ∧
    Token.headers (s.tokensFrom 0) = headers ++ Token.headers (s.tokensFrom i)

theorem headed_grown {ids : List BlockId} {headers : List (List Token)}
    (h : List.Forall₂ (fun id header => Headed header (w.block id)) ids headers)
    (hgrown : ∀ id ∈ ids, (w.block id).Extends (w'.block id)) :
    List.Forall₂ (fun id header => Headed header (w'.block id)) ids headers := by
  obtain ⟨hlen, hall⟩ := List.forall₂_iff_zip.1 h
  refine List.forall₂_iff_zip.2 ⟨hlen, fun hin => ?_⟩
  exact (hall hin).extends (hgrown _ (List.of_mem_zip hin).1)

namespace Matched

theorem of_headers (h : Matched a s w i)
    (hheaders : Token.headers (s.tokensFrom i) = Token.headers (s.tokensFrom j)) :
    Matched a s w j := by
  obtain ⟨headers, hheaded, hall⟩ := h
  exact ⟨headers, hheaded, by rw [hall, hheaders]⟩

theorem next (h : Matched a s w i) (hk : s.kind? i = some k) (hfunc : k ≠ .keyword .func) :
    Matched a s w (i + 1) :=
  h.of_headers (Source.headers_next hk hfunc)

theorem balanced (h : Matched a s w i) (hb : s.Balanced i j) : Matched a s w j :=
  h.of_headers (Source.headers_balanced hb)

theorem grown (h : Matched a s w i) (hgrown : w.Grown w') : Matched a s w' i := by
  obtain ⟨headers, hheaded, hall⟩ := h
  have hfuncs : w'.arena.funcs a.size = w.arena.funcs a.size :=
    Arena.funcs_congr fun id => (hgrown id).isSome
  exact ⟨headers, hfuncs ▸ headed_grown hheaded fun id _ => hgrown id, hall⟩

end Matched

/-- Whether the innermost block is a function whose header has been read up to a cursor, and the
other functions are those whose headers stand before. -/
def Heading (a : Arena) (s : Source) (c : Cursor) (w : Work) : Prop := ∃ ids headers header f,
  w.arena.funcs a.size = ids ++ [w.top] ∧
    List.Forall₂ (fun id header => Headed header (w.block id)) ids headers ∧
    Token.headers (s.tokensFrom 0) = headers ++ header :: Token.headers (s.tokensFrom c.position) ∧
    Underway s header c.state c.position w.pending (w.block w.top) f

/-- Whether the functions of a unit under way are those whose headers have been read, the one whose
header is being read with what has been read of it. -/
structure Headings (a : Arena) (s : Source) (c : Cursor) (w : Work) : Prop where
  heading : inHeader c.state = true → (w.block w.top).func? ≠ none → Heading a s c w
  matched : c.state ≠ .func → (inHeader c.state = true → (w.block w.top).func? = none) →
    Matched a s w c.start
  func : c.state = .func → ∃ i, c.position = i + 1 ∧ s.kind? i = some (.keyword .func) ∧
    Matched a s w i
  contract : c.state = .contract → ∃ i, c.position = i + 1 ∧ s.kind? i = some (.keyword .contract)

/-- An entry without an expression that only acts and goes on. -/
theorem leads_goTo {next : Grammar.State} {action : Grammar.Action} {Q : Cursor → Work → Prop}
    (hentry : Grammar.entry c.state k = .go next {} action) (hne : next ≠ .eval)
    (h : Leads w (act s action c.position) fun _ w' => Q ⟨next, c.fork, c.position + 1⟩ w') :
    Leads w (advance s k c) Q := by
  rw [advance_eq hentry rfl, show (next == .eval) = false by simpa using hne]
  refine .bind (P := fun behind w' => w' = w ∧ behind = c.position + 1) (.pure ⟨rfl, rfl⟩)
    fun behind w' hbehind => ?_
  obtain ⟨rfl, rfl⟩ := hbehind
  exact .get (.bind h fun _ _ h => .pure h)

/-- What the table does where no header is read: it opens a block that gets a name, or it declares
no part of a header and goes on outside of headers, apart from the braces behind a control
statement. -/
inductive PlainEntry (st : Grammar.State) (k : Kind) :
    Grammar.State → Grammar.Flags → Grammar.Action → Prop
  | func : k = .keyword .func → PlainEntry st k .func { push := true } .none
  | contract : k = .keyword .contract → PlainEntry st k .contract { push := true } .none
  | stays {next : Grammar.State} {f : Grammar.Flags} {a : Grammar.Action} : f.stay = true →
      inHeader next = false ∧ next ≠ .func ∧ next ≠ .contract → PlainEntry st k next f a
  | control {next : Grammar.State} {f : Grammar.Flags} {a : Grammar.Action} : k ≠ .keyword .func →
      f.stay = false → f.push = true → f.pop = false → a = .if ∨ a = .else ∨ a = .while →
      (∀ atRoot, landing st next f atRoot = .block) → PlainEntry st k next f a
  | other {next : Grammar.State} {f : Grammar.Flags} {a : Grammar.Action} : k ≠ .keyword .func →
      f.stay = false → declaresHeader a = false →
      (∀ atRoot, inHeader (landing st next f atRoot) = false ∧
        landing st next f atRoot ≠ .func ∧ landing st next f atRoot ≠ .contract) →
        PlainEntry st k next f a

/-- The entries of the grammar outside of headers and names. -/
theorem plainEntry_of_entry {st next : Grammar.State} {k : Kind} {f : Grammar.Flags}
    {a : Grammar.Action} (h : Grammar.entry st k = .go next f a) (hst : inHeader st = false)
    (hname : st ≠ .func ∧ st ≠ .contract) : PlainEntry st k next f a := by
  unfold Grammar.entry at h
  cases hrow : Grammar.row st k with
  | some e =>
    rw [hrow] at h
    obtain rfl : e = .go next f a := h
    unfold Grammar.row at hrow
    split at hrow <;> cases hrow
    all_goals
      first
        | exact absurd hst (by decide)
        | exact absurd hname (by decide)
        | exact .func rfl
        | exact .contract rfl
        | exact .stays rfl (by decide)
        | exact .control (by decide) rfl rfl rfl (by decide) (by decide)
        | exact .other (by decide) rfl rfl (by decide)
  | none =>
    rw [hrow] at h
    cases st <;> cases h
    all_goals first | exact absurd hst (by decide) | exact .stays rfl (by decide)

/-- The end of an entry that declares no part of a header. -/
theorem grown_endEntry {f : Grammar.Flags} {action : Grammar.Action}
    (ha : declaresHeader action = false) (next : Grammar.State) (here fork behind : Nat) :
    Leads w (endEntry s f action next here fork behind) fun c' w' =>
      (∃ atRoot, c' = ⟨stateBehind f next atRoot, fork, behind⟩) ∧ w.Grown w' := by
  have hact : ∀ w₁ : Work, w.Grown w₁ → Leads w₁ (do
      let state := stateBehind f next (← get).inner.isEmpty
      act s action here
      return (⟨state, fork, behind⟩ : Cursor)) fun c' w' =>
        (∃ atRoot, c' = ⟨stateBehind f next atRoot, fork, behind⟩) ∧ w.Grown w' := fun w₁ h₁ =>
    .get (.bind (spares_act ha here) fun _ _ h₂ => .pure ⟨⟨_, rfl⟩, h₁.trans h₂⟩)
  have hclose : ∀ w₁ : Work, w.Grown w₁ → Leads w₁ (do
      if f.pop then closeBlock s here
      let state := stateBehind f next (← get).inner.isEmpty
      act s action here
      return (⟨state, fork, behind⟩ : Cursor)) fun c' w' =>
        (∃ atRoot, c' = ⟨stateBehind f next atRoot, fork, behind⟩) ∧ w.Grown w' := fun w₁ h₁ =>
    .ite (fun _ => .bind (spares_closeBlock here) fun _ w₂ h₂ => hact w₂ (h₁.trans h₂))
      fun _ => hact w₁ h₁
  exact .ite (fun _ => .bind (P := fun _ w₁ => w.Grown w₁) (.modify (.openBlock w)) fun _ => hclose)
    fun _ => hclose w (.refl w)

/-- The block that a control statement opens is a plain one. -/
theorem top_endEntry {f : Grammar.Flags} {action : Grammar.Action}
    (ha : action = .if ∨ action = .else ∨ action = .while) (hpush : f.push = true)
    (hpop : f.pop = false) (next : Grammar.State) (here fork behind : Nat) :
    Leads w (endEntry s f action next here fork behind) fun _ w' => w'.top = w.arena.size := by
  refine (tends_endEntry_push hpush hpop ((enters_control (s := s) ha here).imp
    fun _ w' h => ?_)).leads
  rw [Work.top, h.inner]
  rfl

/-- What an entry reads that declares no part of a header starts no header. -/
theorem leads_passage (hs : s.Spelled) (hspelled : w.arena.Every Block.Spelled)
    {next : Grammar.State} {f : Grammar.Flags} {action : Grammar.Action}
    (hk : s.kind? c.position = some k) (hentry : Grammar.entry c.state k = .go next f action)
    (hstay : f.stay = false) (hkind : k ≠ .keyword .func) (ha : declaresHeader action = false)
    (h : Matched a s w c.start) :
    Leads w (advance s k c) fun c' w' => w.Grown w' ∧ Matched a s w' c'.start ∧
      (∃ atRoot, c'.state = landing c.state next f atRoot) ∧
      (action = .if ∨ action = .else ∨ action = .while → f.push = true → f.pop = false →
        (w'.block w'.top).func? = none) := by
  have htracks := tracks_of_entry hentry
  -- the lexeme, unless it is read again
  have hlexeme : Matched a s w (if f.toFork then c.start else c.start + 1) := by
    cases hto : f.toFork with
    | true => exact h
    | false =>
      have hposition : c.start = c.position := if_neg fun hassign => by
        cases hto.symm.trans (htracks.toFork.2 hassign)
      rw [hposition] at h ⊢
      exact h.next hk hkind
  rw [advance_eq hentry hstay, position_of_tracks htracks]
  refine .bind (P := fun behind w' => w.Grown w' ∧ Matched a s w' behind) (fun behind w' hrun => ?_)
    fun behind w₁ hbehind c' w' hrun => ?_
  · cases heval : next == .eval with
    | true =>
      rw [heval] at hrun
      have hgrown := spares_entryExpression f c.start behind w' hrun
      exact ⟨hgrown, (hlexeme.balanced
        (balanced_entryExpression hs hspelled f c.start behind w' hrun)).grown
        hgrown⟩
    | false =>
      have hto : f.toFork = false := by
        refine Bool.eq_false_iff.2 fun hto => ?_
        rcases htracks.rereads hto with hstay' | ⟨heval', -⟩
        · cases hstay.symm.trans hstay'
        · rw [heval'] at heval
          cases heval
      rw [heval] at hrun
      rw [hto] at hlexeme
      cases hrun
      exact ⟨.refl w, hlexeme⟩
  · obtain ⟨⟨atRoot, rfl⟩, hgrown⟩ := grown_endEntry ha _ _ _ _ c' w' hrun
    refine ⟨hbehind.1.trans hgrown, ?_, ⟨atRoot, rfl⟩, fun hcontrol hpush hpop => ?_⟩
    · show Matched a s w' (Cursor.start ⟨landing c.state next f atRoot, _, behind⟩)
      unfold Cursor.start
      by_cases hfork : f.fork = true
      · -- the name that starts an assignment is read again
        rw [if_pos ((htracks.landsFork atRoot).2 hfork), if_pos hfork]
        have hbody := (htracks.forks hfork).1
        rw [Cursor.start, if_neg (by rw [hbody]; decide)] at h
        exact h.grown (hbehind.1.trans hgrown)
      · rw [if_neg fun hlands => hfork ((htracks.landsFork atRoot).1 hlands)]
        exact hbehind.2.grown hgrown
    · have hheading := (hgrown w₁.arena.size).isSome
      rw [Work.block, Work.block, Arena.block_of_le (Nat.le_refl _)] at hheading
      rw [top_endEntry hcontrol hpush hpop _ _ _ _ _ w' hrun]
      exact Option.isNone_iff_eq_none.1 (Option.isSome_eq_false_iff.1 hheading)

namespace Headings

/-- Where no header is read, what has been declared stays, and a block that is opened for a name has
no header yet. -/
theorem leads_plain (hs : s.Spelled) (hspelled : w.arena.Every Block.Spelled)
    (hst : inHeader c.state = false) (hname : c.state ≠ .func ∧ c.state ≠ .contract)
    (hk : s.kind? c.position = some k) (h : Headings a s c w) :
    Leads w (advance s k c) (Headings a s) := by
  have hno : inHeader c.state ≠ true := by
    rw [hst]
    exact Bool.false_ne_true
  have hmatched : Matched a s w c.start := h.matched hname.1 fun hst' => absurd hst' hno
  cases hentry : Grammar.entry c.state k with
  | fail expected =>
    unfold advance
    rw [hentry]
    exact .throw _
  | go next f action =>
    -- Outside of headers an entry stays, opens a block that waits
    -- for its name, or starts and ends other blocks.
    cases plainEntry_of_entry hentry hst hname with
    | stays hstay hnext =>
      unfold advance
      rw [hentry]
      dsimp only
      rw [hstay]
      have htracks := tracks_of_entry hentry
      have hno' : inHeader next ≠ true := by
        rw [hnext.1]
        exact Bool.false_ne_true
      refine .pure ⟨fun hst' => absurd hst' hno', fun _ _ => ?_, fun h => absurd h hnext.2.1,
        fun h => absurd h hnext.2.2⟩
      show Matched a s w (Cursor.start ⟨next, _, entryPosition f c⟩)
      rw [Cursor.start, if_neg (htracks.stays hstay).2.1, position_of_tracks htracks]
      exact hmatched
    | func hkind =>
      rw [advance_eq hentry rfl]
      have hstart : c.start = c.position := position_of_tracks (tracks_of_entry hentry) ▸ rfl
      have hopened := hmatched.grown (.openBlock w)
      exact leads_opened rfl ⟨fun h => absurd h Bool.false_ne_true, fun h => absurd rfl h,
        fun _ => ⟨c.position, rfl, hkind ▸ hk, hstart ▸ hopened⟩, fun h => by cases h⟩
    | contract hkind =>
      rw [advance_eq hentry rfl]
      have hstart : c.start = c.position := position_of_tracks (tracks_of_entry hentry) ▸ rfl
      have hopened := (hstart ▸ hmatched).next hk (by rw [hkind]; decide) |>.grown (.openBlock w)
      exact leads_opened rfl ⟨fun h => absurd h Bool.false_ne_true, fun _ _ => hopened,
        fun h => (by cases h), fun _ => ⟨c.position, rfl, hkind ▸ hk⟩⟩
    | control hkind hstay hpush hpop ha hlands =>
      have hact : declaresHeader action = false := by rcases ha with rfl | rfl | rfl <;> rfl
      intro c' w' hrun
      obtain ⟨-, hmatched', ⟨atRoot, hstate⟩, hplain⟩ :=
        leads_passage hs hspelled hk hentry hstay hkind hact hmatched c' w' hrun
      rw [hlands] at hstate
      refine ⟨fun _ hfunc => absurd (hplain ha hpush hpop) hfunc, fun _ _ => hmatched', fun h => ?_,
        fun h => ?_⟩
      · cases hstate.symm.trans h
      · cases hstate.symm.trans h
    | other hkind hstay hact hlands =>
      intro c' w' hrun
      obtain ⟨-, hmatched', ⟨atRoot, hstate⟩, -⟩ :=
        leads_passage hs hspelled hk hentry hstay hkind hact hmatched c' w' hrun
      obtain ⟨hheader, hfunc, hcontract⟩ := hlands atRoot
      rw [← hstate] at hheader hfunc hcontract
      refine ⟨fun hst' => ?_, fun _ _ => hmatched', fun h => absurd h hfunc,
        fun h => absurd h hcontract⟩
      cases hheader.symm.trans hst'

end Headings

/-- The entry for the name of a new block. -/
theorem name_of_entry {st next : Grammar.State} {f : Grammar.Flags} {action : Grammar.Action}
    (hst : st = .func ∨ st = .contract) (h : Grammar.entry st k = .go next f action) :
    k = .ident ∧ f = {} ∧ action = .nameBlock ∧ (st = .func → next = .funcParams) ∧
      (st = .contract → next = .block) := by
  unfold Grammar.entry at h
  cases hrow : Grammar.row st k with
  | some e =>
    rw [hrow] at h
    obtain rfl : e = .go next f action := h
    unfold Grammar.row at hrow
    split at hrow <;> cases hrow
    all_goals first | exact ⟨rfl, rfl, rfl, by decide, by decide⟩ | exact absurd hst (by decide)
  | none =>
    rw [hrow] at h
    rcases hst with rfl | rfl <;> cases h

/-- What a work is once the block that has just been opened has got its kind. -/
structure Named (w : Work) (info : BlockInfo) (w' : Work) : Prop where
  top : w'.top = w.arena.size
  pending : w'.pending = w.pending
  size : w'.arena.size = w.arena.size + 1
  block : w'.block w.arena.size = { parent := some w.top, info := info }
  others : ∀ id ≠ w.arena.size, (w.openBlock.block id).Extends (w'.block id)

/-- A block that is opened, given its header and bound under a name is named. -/
theorem Named.of_modify (htop : w.top < w.arena.size) (info : BlockInfo)
    (x : String) (v : Binding) :
    Named w info ((w.openBlock.modifyTop fun b => { b with info := info }).modifyBlock
      w.openBlock.parent
      fun b => { b with objects := b.objects.insert x v }) := by
  refine ⟨rfl, rfl, ?_, ?_, fun id hid => ?_⟩
  · rw [Work.size_modifyBlock, Work.modifyTop, Work.size_modifyBlock, Work.size_openBlock]
  · have hlt : w.arena.size < w.openBlock.arena.size := by
      rw [Work.size_openBlock]
      exact Nat.lt_succ_self _
    rw [Work.parent_openBlock, Work.block_modifyBlock_of_ne _ (Nat.ne_of_lt htop), Work.modifyTop,
      Work.top_openBlock, Work.block_modifyBlock_self hlt, Work.block_openBlock_new htop]
  · have hinfo : (w.openBlock.modifyTop fun b => { b with info := info }).block id
      = w.openBlock.block id :=
      Work.block_modifyBlock_of_ne _ (Ne.symm hid) _
    rw [← hinfo]
    exact Work.Grown.modify (.of_eq rfl rfl) id

/-- A block gets the kind that stands before its name. -/
theorem leads_named (htop : w.top < w.arena.size) : Leads w.openBlock (nameBlock s i) fun _ w' =>
    ∃ info, Named w info w' ∧
      (s.kind? (i - 1) = some (.keyword .func) →
        ∃ id, info = .func { name := s.name i, id := id }) ∧
      (0 < i → s.kind? (i - 1) = some (.keyword .contract) → ∃ c, info = .contract c) := by
  refine .get ?_
  dsimp only
  split
  · rename_i hcontract
    refine .ite (fun _ => .throw_bind _) fun _ =>
      .set ⟨_, .of_modify htop _ _ _, fun hfunc => ?_, fun _ _ => ⟨_, rfl⟩⟩
    simp [hfunc] at hcontract
  · rename_i hcontract
    refine .ite (fun _ => .throw_bind _) fun _ =>
      .set ⟨_, .of_modify htop _ _ _, fun _ => ⟨_, rfl⟩, fun hi hkind => ?_⟩
    simp [hi, hkind] at hcontract

/-- The header of a function starts with the keyword before its name. -/
theorem Matched.heading {id fork : Nat} (htop : w.top < w.arena.size)
    (hsize : a.size ≤ w.arena.size) (hkind : s.kind? i = some (.keyword .func))
    (hk : s.kind? (i + 1) = some .ident) (hpending : w.pending = [])
    (hnamed : Named w (.func { name := s.name (i + 1), id := id }) w')
    (h : Matched a s w.openBlock i) :
    Heading a s ⟨.funcParams, fork, i + 2⟩ w' := by
  obtain ⟨headers, hheaded, hall⟩ := h
  have hnew : w.openBlock.arena.block w.arena.size = { parent := some w.top } :=
    Work.block_openBlock_new htop
  have hblock : w'.arena.block w.arena.size = _ := hnamed.block
  -- the new block is the last function of the unit, and the others are what they were
  have hfuncs : w'.arena.funcs a.size = w.openBlock.arena.funcs a.size ++ [w'.top] := by
    rw [hnamed.top]
    refine Arena.funcs_concat hsize (Nat.le_of_eq (Work.size_openBlock w))
      (Nat.le_of_eq hnamed.size)
      (fun id hid => (hnamed.others id hid).isSome) (congrArg Block.func? hnew) ?_
    rw [hblock]
    exact Option.some_ne_none _
  have hothers : ∀ id ∈ w.openBlock.arena.funcs a.size, id ≠ w.arena.size := by
    rintro id hid rfl
    have hfunc := (Arena.mem_funcs.1 hid).2.2
    rw [hnew] at hfunc
    cases hfunc
  have htokens : s.tokensFrom i = [.keyword .func, .ident (s.name (i + 1))]
    ++ s.tokensFrom (i + 2) := by
    have hfrom : s.tokensFrom i = [] ++ s.tokensFrom i := rfl
    exact Source.tokens_next (Source.tokens_next hfrom (Source.token?_of_kind?_keyword hkind))
      (Source.token?_of_kind?_ident hk)
  refine ⟨_, headers, s.tokensFrom i, { name := s.name (i + 1), id := id }, hfuncs,
    headed_grown hheaded fun id hid => hnamed.others id (hothers id hid), ?_,
    [], ⟨[], []⟩, htokens, ?_, ?_⟩
  · rw [hall, Source.headers_func hkind, Source.headers_next hk (by decide)]
  · rw [hnamed.pending, hpending]
    exact .list .base
  · rw [hnamed.top, hnamed.block]
    exact ⟨⟨rfl, rfl, rfl⟩, rfl, rfl, rfl⟩

/-- A contract is no function. -/
theorem Named.grown {k : ContractInfo} (htop : w.top < w.arena.size)
    (h : Named w (.contract k) w') :
    w.openBlock.Grown w' := by
  intro id
  by_cases hid : id = w.arena.size
  · rw [hid, h.block, Work.block_openBlock_new htop]
    exact ⟨rfl, List.prefix_rfl⟩
  · exact h.others id hid

namespace Headings

/-- A block that gets a name has nothing of a header yet. -/
theorem leads_name {w₁ : Work} (hst : c.state = .func ∨ c.state = .contract)
    (hk : s.kind? c.position = some k) (hpending : w₁.pending = []) (htop : w₁.top < w₁.arena.size)
    (hsize : a.size ≤ w₁.arena.size) (h : Headings a s c w₁.openBlock) :
    Leads w₁.openBlock (advance s k c) (Headings a s) := by
  cases hentry : Grammar.entry c.state k with
  | fail expected =>
    unfold advance
    rw [hentry]
    exact .throw _
  | go next f action =>
    obtain ⟨rfl, rfl, rfl, hfunc, hcontract⟩ := name_of_entry hst hentry
    have hnext : next = .funcParams ∨ next = .block := hst.imp hfunc hcontract
    refine leads_goTo hentry (by rcases hnext with rfl | rfl <;> decide) fun u w' hrun => ?_
    obtain ⟨info, hnamed, hisFunc, hisContract⟩ := leads_named htop u w' hrun
    -- hst | a function begins its header here; a contract is passed over, as it has none
    rcases hst with hst | hst
    · obtain ⟨i, hi, hkind, hmatched⟩ := h.func hst
      rw [hi] at hk hisFunc ⊢
      obtain ⟨id, rfl⟩ := hisFunc hkind
      obtain rfl := hfunc hst
      refine ⟨fun _ _ => hmatched.heading htop hsize hkind hk hpending hnamed, fun _ hnone => ?_,
        fun h => (by cases h), fun h => (by cases h)⟩
      have hnone := hnone rfl
      rw [hnamed.top, hnamed.block] at hnone
      cases hnone
    · obtain ⟨i, hi, hkind⟩ := h.contract hst
      have hpos : 0 < c.position := by
        rw [hi]
        exact Nat.succ_pos i
      obtain ⟨q, rfl⟩ := hisContract hpos (by rw [hi]; exact hkind)
      obtain rfl := hcontract hst
      have hmatched := h.matched (by rw [hst]; decide)
        (by rw [hst]; exact fun h => absurd h Bool.false_ne_true)
      rw [Cursor.start, if_neg (by rw [hst]; decide)] at hmatched
      refine ⟨fun _ hisFunc => ?_,
        fun _ _ => (hmatched.next hk (by decide)).grown (hnamed.grown htop),
        fun h => (by cases h), fun h => (by cases h)⟩
      rw [hnamed.top, hnamed.block] at hisFunc
      exact absurd rfl hisFunc

end Headings

/-- The tokens of a header start none, and are read once. -/
theorem HeaderEntry.reads {st next : Grammar.State} {action : Grammar.Action}
    (h : HeaderEntry st k next {} action) : k ≠ .keyword .func ∧ next ≠ .assignEval := by
  cases h <;> decide

theorem Cursor.start_eq (h : c.state ≠ .assignEval) : c.start = c.position := if_neg h

/-- Behind the brace of a function, its header is read. -/
theorem Heading.matched (h : Heading a s c w) (hst : c.state = .block)
    (hk : s.kind? c.position = some (.punct .lcurly)) : Matched a s w (c.position + 1) := by
  obtain ⟨ids, headers, header, f, hfuncs, hheaded, hall, hunderway⟩ := h
  rw [hst] at hunderway
  refine ⟨headers ++ [header], ?_, ?_⟩
  · rw [hfuncs]
    exact List.rel_append hheaded (.cons (hunderway.headed hk) .nil)
  · rw [hall, Source.headers_next hk (by decide), List.append_assoc, List.singleton_append]

/-- **One token of a header** declares the next part of the signature of the innermost block, and
keeps the functions whose headers stand before. -/
theorem Heading.leads_act {next : Grammar.State} {action : Grammar.Action} (fork : Nat)
    (hentry : HeaderEntry c.state k next {} action) (hbody : next ≠ .body)
    (hk : s.kind? c.position = some k) (htop : w.top < w.arena.size) (h : Heading a s c w) :
    Leads w (act s action c.position) fun _ w' => Heading a s ⟨next, fork, c.position + 1⟩ w' := by
  intro u w' hrun
  obtain ⟨ids, headers, header, f, hfuncs, hheaded, hall, hunderway⟩ := h
  have hretouched := retouched_header hentry u w' hrun
  have hfunc : (w.block w.top).func? = some f := hunderway.func
  obtain ⟨f', hunderway'⟩ := leads_underway hentry hbody hk htop hunderway u w' hrun
  have hfunc' : (w'.block w'.top).func? = some f' := hunderway'.func
  have hfuncs' : w'.arena.funcs a.size = w.arena.funcs a.size := by
    refine Arena.funcs_congr fun id => ?_
    by_cases hid : id = w.top
    · rw [hretouched.top] at hfunc'
      rw [hid, show w'.arena.block w.top = w'.block w.top from rfl, hfunc',
        show w.arena.block w.top = w.block w.top from rfl, hfunc]
      rfl
    · exact (hretouched.others id hid).isSome
  have hdistinct := Arena.nodup_funcs w.arena a.size
  rw [hfuncs, List.nodup_append] at hdistinct
  refine ⟨ids, headers, header, f', ?_, headed_grown hheaded fun id hid =>
    hretouched.others id ?_, ?_, hunderway'⟩
  · rw [hfuncs', hfuncs, hretouched.top]
  · exact hdistinct.2.2 id hid w.top (List.mem_singleton.2 rfl)
  · rw [hall, Source.headers_next hk hentry.reads.1]

namespace Headings

/-- A header lies between its name and its brace: it is read further, or the function has got it
all. -/
theorem leads_header (hst : inHeader c.state = true) (hk : s.kind? c.position = some k)
    (htop : w.top < w.arena.size) (h : Headings a s c w) :
    Leads w (advance s k c) (Headings a s) := by
  have hstart : c.start = c.position := Cursor.start_eq fun hassign => by
    rw [hassign] at hst
    cases hst
  have hfunc : c.state ≠ .func := fun hfunc => by
    rw [hfunc] at hst
    cases hst
  cases hentry : Grammar.entry c.state k with
  | fail expected =>
    unfold advance
    rw [hentry]
    exact .throw _
  | go next f action =>
    have hheader := headerEntry_of_entry hentry hst
    obtain ⟨⟨heval, hnextFunc, hnextContract⟩, hnext, rfl | ⟨rfl, rfl, hstay⟩⟩ := hheader.flags
    · refine leads_goTo hentry heval fun u w' hrun => ?_
      have hstart' : Cursor.start ⟨next, c.fork, c.position + 1⟩ = c.position + 1 :=
        Cursor.start_eq hheader.reads.2
      by_cases hnone : (w.block w.top).func? = none
      · -- the innermost block is no function
        have hretouched := retouched_header hheader u w' hrun
        have hgrown := hretouched.plain hnone
        have hmatched := h.matched hfunc fun _ => hnone
        rw [hstart] at hmatched
        refine ⟨fun _ hisFunc => absurd ?_ hisFunc, fun _ _ => ?_, fun h => absurd h hnextFunc,
          fun h => absurd h hnextContract⟩
        · have hsame := (hgrown w.top).isSome
          rw [hnone] at hsame
          rw [hretouched.top]
          exact Option.isNone_iff_eq_none.1 (Option.isSome_eq_false_iff.1 hsame)
        · rw [hstart']
          exact (hmatched.next hk hheader.reads.1).grown hgrown
      · have hheading := h.heading hst hnone
        rcases hnext with ⟨rfl, hblock, rfl, rfl⟩ | hst'
        · -- the brace
          cases hrun
          exact ⟨fun h => absurd h Bool.false_ne_true, fun _ _ => hheading.matched hblock hk,
            nofun, nofun⟩
        · have hbody : next ≠ .body := fun hbody => by
            rw [hbody] at hst'
            cases hst'
          have hheading' := hheading.leads_act c.fork hheader hbody hk htop u w' hrun
          refine ⟨fun _ _ => hheading', fun _ hnone' => ?_, fun h => absurd h hnextFunc,
            fun h => absurd h hnextContract⟩
          obtain ⟨_, _, _, _, -, -, -, hunderway⟩ := hheading'
          cases hunderway.func.symm.trans (hnone' hst')
    · unfold advance
      rw [hentry]
      refine .pure ⟨fun _ hisFunc => ?_, fun _ hnone => ?_, fun h => absurd h hnextFunc,
        fun h => absurd h hnextContract⟩
      · obtain ⟨ids, headers, header, f, hfuncs, hheaded, hall, hunderway⟩ := h.heading hst hisFunc
        exact ⟨ids, headers, header, f, hfuncs, hheaded, hall, hunderway.stays hheader⟩
      · have hmatched := h.matched hfunc fun _ => hnone hstay
        rw [hstart] at hmatched
        refine (Cursor.start_eq (c := ⟨next, _, _⟩) fun hassign => ?_).symm ▸ hmatched
        rw [show next = .assignEval from hassign] at hstay
        cases hstay

end Headings

/-! ### All entries -/

/-- **The functions are those whose headers have been read**, whatever an entry of the table
does. -/
theorem headings_advance (ht : Titled a w₀) (hs : s.Spelled)
    (hspelled : w₀.arena.Every Block.Spelled) (hk : s.kind? c.position = some k)
    (hstands : Stands s w₀ c w) (h : Headings a s c w) :
    Leads w (advance s k c) (Headings a s) := by
  have hopened : ∀ w : Work, Edits s w₀ w → a.size ≤ w.top ∧ w.top < w.arena.size := fun w hedits =>
    (ht.edits hedits).beside.opened w.top (top_mem_opened w)
  by_cases hst : inHeader c.state = true
  · exact h.leads_header hst hk (hopened w hstands.edits).2
  · by_cases hname : c.state = .func ∨ c.state = .contract
    · obtain ⟨w₁, hedits, rfl, hpending⟩ : ∃ w₁, Edits s w₀ w₁ ∧ w = w₁.openBlock ∧
        w₁.pending = [] := by
        unfold Stands at hstands
        rcases hname with hname | hname <;> rw [hname] at hstands
        · obtain ⟨w₁, hedits, hw, -, hpending⟩ := hstands
          exact ⟨w₁, hedits, hw, hpending⟩
        · obtain ⟨w₁, hedits, hw, -, hpending⟩ := hstands
          exact ⟨w₁, hedits, hw, hpending⟩
      obtain ⟨hle, hlt⟩ := hopened w₁ hedits
      exact h.leads_name hname hk hpending hlt (Nat.le_of_lt (Nat.lt_of_le_of_lt hle hlt))
    · exact h.leads_plain hs ((editInvariant_spelled hs).edits hspelled hstands.edits)
        (Bool.eq_false_iff.2 hst) (not_or.1 hname) hk

/-- At the start of a unit no header has been read. -/
theorem Headings.start (s : Source) :
    Headings a s {} { arena := a.push { parent := none }, root := a.size } := by
  have hnone : Arena.funcs (a.push { parent := none }) a.size = [] := by
    refine List.eq_nil_iff_forall_not_mem.2 fun id hid => ?_
    obtain ⟨hle, hlt, hfunc⟩ := Arena.mem_funcs.1 hid
    have hsize : Array.size (a.push { parent := none }) = a.size + 1 := Array.size_push ..
    rw [hsize] at hlt
    have hlast : id = a.size := Nat.le_antisymm (Nat.le_of_lt_succ hlt) hle
    rw [hlast, Arena.block_push, if_pos rfl] at hfunc
    cases hfunc
  refine ⟨fun h => absurd h Bool.false_ne_true, fun _ _ => ⟨[], ?_, rfl⟩, nofun, nofun⟩
  show List.Forall₂ _ (Arena.funcs (a.push { parent := none }) a.size) []
  rw [hnone]
  exact .nil

/-- **Once all is read and closed, the functions of a unit are those of the headers in its
text.** -/
theorem headings_unit (ha : a.Every Block.Spelled) (hs : s.Spelled)
    (hunit : unit s { arena := a.push { parent := none }, root := a.size } = .ok () w)
    (hinner : w.inner = []) :
    List.Forall₂ (fun id header => Headed header (w.block id)) (w.arena.funcs a.size)
      (Token.headers (s.lexemes.toList.map Lexeme.token)) := by
  have hspelled : Arena.Every Block.Spelled (a.push { parent := none }) :=
    ha.push ((editInvariant_spelled hs).empty none)
  obtain ⟨c, hend, hstands, hheadings⟩ := leads_readAll (c := {})
    (I := fun c w => Stands s { arena := a.push { parent := none }, root := a.size } c w ∧
      Headings a s c w)
    (fun hk h c' w' hrun => ⟨(tends_advance hk h.1).leads c' w' hrun,
      headings_advance (.start a) hs hspelled hk h.1 h.2 c' w' hrun⟩) _ ⟨⟨.refl, rfl, rfl⟩,
        .start s⟩ () w
    (leads_unit _ _ () w hunit)
  have hroot := hstands.root hinner
  obtain ⟨headers, hheaded, hall⟩ := hheadings.matched (by rw [hroot]; decide)
    (by rw [hroot]; exact fun h => absurd h Bool.false_ne_true)
  -- Nothing is left to read, so the headers so far are all of the text's.
  have hbehind : s.tokensFrom c.start = [] := by
    rw [Cursor.start_eq (by rw [hroot]; decide), Source.tokensFrom,
      Source.ahead, List.map_eq_nil_iff, List.drop_eq_nil_iff]
    rw [Source.kind?, Option.map_eq_none_iff, Array.getElem?_eq_none_iff] at hend
    rwa [Array.length_toList]
  rw [hbehind] at hall
  have hheaders : Token.headers (s.lexemes.toList.map Lexeme.token) = headers ++ [] := hall
  rw [hheaders, List.append_nil]
  exact hheaded

/-! ### Names of variables -/

/-- Every edit keeps that names of variables stand for different ones. -/
theorem editInvariant_indexed (s : Source) : EditInvariant s Block.Indexed where
  empty p := by
    refine ⟨fun x i hx => ?_, fun x y i hx => ?_⟩
    all_goals
      rw [Dict.get?_empty] at hx
      cases hx
  children _ hb := hb
  mark hb := hb.setWritable
  control _ _ hb := hb
  header _ hb := hb
  name {w x info v b} hv hb := by
    refine hb.insert fun i hi => ?_
    rcases hv.header with ⟨f, -, -, rfl⟩ | ⟨c, -, -, -, rfl, -⟩ <;> cases hi
  change _ hedit hb := hedit.indexed hb

end Compile

theorem Block.Indexed.invariant : BlockInvariant Block.Indexed where
  empty := (Compile.editInvariant_indexed ⟨#[], .empty, 0, false⟩).empty none
  unit ha hunit := Compile.EditInvariant.compile ha hunit fun _ _ => Compile.editInvariant_indexed _
  setId {b} id hb := by
    obtain ⟨_, info, _, _, _, _⟩ := b
    cases info <;> exact hb
  hidden hb := hb.modifyFunc _

/-! ### Layout -/

/-- How a function and its variables are laid out by the signature that a header declares. -/
structure Signature.Layout (g : Signature) (f : FuncInfo) (b : Block) : Prop where
  params : f.params = g.base.map Param.ty
  /-- The types of the function's own parameters are the first variables. -/
  vars : f.params <+: b.vars.toList
  /-- The slots of the segments are those right behind, one after the other. -/
  offsets : (f.segments.getD .empty).toList.flatMap (fun p => p.2.offsets)
    = List.range' f.params.length ((f.segments.getD .empty).toList.flatMap
      fun p => p.2.params).length
  /-- The segments are the declared ones in order, and their slots have the types of their
  parameters. -/
  segments : List.Forall₂ (fun p q => p.1 = q.1 ∧ p.2.params = q.2.map Param.ty ∧
      (p.2.variadic = true ↔ EndsInTail q.2) ∧
      List.Forall₂ (fun slot t => b.vars[slot]? = some t) p.2.offsets p.2.params)
    (f.segments.getD .empty).toList g.segments
  variadic : f.variadic = true ↔ EndsInTail g.base
  /-- In no list is another parameter than the last one declared with `...`, and that one is an
  array. -/
  tails : ∀ ps ∈ g.lists, TailLast ps

namespace Signature

variable {vars : Array Ty}

theorem types_eq (g : Signature) :
    g.types = g.base.map Param.ty ++ g.segments.flatMap fun q => q.2.map Param.ty := by
  simp [types, lists, List.map_flatten, List.flatMap, Function.comp_def]

/-- Consecutive slots behind some types have the types that stand there. -/
theorem getElem?_range' (before ts : List Ty) (h : before ++ ts <+: vars.toList) :
    List.Forall₂ (fun slot t => vars[slot]? = some t) (List.range' before.length ts.length) ts := by
  induction ts generalizing before with
  | nil => exact .nil
  | cons t ts ih =>
    have hrest := ih (before ++ [t]) (by rwa [List.append_assoc])
    rw [List.length_append] at hrest
    refine .cons ?_ hrest
    obtain ⟨behind, hvars⟩ := h
    rw [← Array.getElem?_toList, ← hvars, List.append_assoc,
      List.getElem?_append_right (Nat.le_refl _)]
    simp

/-- The parameters of all segments have the places behind the base, in a row. -/
theorem offsets_placeSegments (slot : Nat) (gs : List (String × List Param)) :
    (placeSegments slot gs).flatMap (fun p => p.2.offsets)
      = List.range' slot ((placeSegments slot gs).flatMap fun p => p.2.params).length := by
  induction gs generalizing slot with
  | nil => rfl
  | cons q gs ih =>
    obtain ⟨x, ps⟩ := q
    rw [placeSegments, List.flatMap_cons, List.flatMap_cons, ih, List.length_append,
      ← List.range'_append_1]
    simp [Segment.place]

/-- Segments are placed where the types of their parameters are. -/
theorem forall₂_placeSegments (gs : List (String × List Param)) (before : List Ty)
    (hvars : before ++ gs.flatMap (fun q => q.2.map Param.ty) <+: vars.toList)
    (htails : ∀ q ∈ gs, TailLast q.2) :
    List.Forall₂ (fun p q => p.1 = q.1 ∧ p.2.params = q.2.map Param.ty ∧
        (p.2.variadic = true ↔ EndsInTail q.2) ∧
        List.Forall₂ (fun slot t => vars[slot]? = some t) p.2.offsets p.2.params)
      (placeSegments before.length gs) gs := by
  induction gs generalizing before with
  | nil => exact .nil
  | cons q gs ih =>
    obtain ⟨x, ps⟩ := q
    rw [List.flatMap_cons, ← List.append_assoc] at hvars
    have hslots := getElem?_range' before (ps.map Param.ty) ((List.prefix_append _ _).trans hvars)
    have hrest := ih (before ++ ps.map Param.ty) hvars fun q hq =>
      htails q (List.mem_cons_of_mem _ hq)
    rw [List.length_map] at hslots
    rw [List.length_append, List.length_map] at hrest
    exact .cons ⟨rfl, rfl, (htails _ List.mem_cons_self).any_iff, hslots⟩ hrest

/-- What a header declares determines the layout, where the types of all parameters are the first
variables. -/
theorem Declares.layout {g : Signature} {f : FuncInfo} {b : Block} (h : g.Declares f)
    (hvars : g.types <+: b.vars.toList) (htails : ∀ ps ∈ g.lists, TailLast ps) : g.Layout f b := by
  rw [types_eq] at hvars
  have hlength : f.params.length = g.base.length := by rw [h.params, List.length_map]
  refine ⟨h.params, ?_, ?_, ?_, ?_, htails⟩
  · rw [h.params]
    exact (List.prefix_append _ _).trans hvars
  · rw [h.segments, hlength, offsets_placeSegments]
  · rw [h.segments]
    have hplaced := forall₂_placeSegments g.segments (g.base.map Param.ty) hvars fun q hq =>
      htails _ (List.mem_cons_of_mem _ (List.mem_map_of_mem hq))
    rwa [List.length_map] at hplaced
  · rw [h.variadic]
    exact (htails _ List.mem_cons_self).any_iff

end Signature

namespace Session

/-- **Layout of signatures**: the functions of a unit that compiles belong to the headers in its
text, one by one and in order, and each is laid out as its header declares. The names of a block's
variables stand for variables that the block has, different names for different ones. -/
theorem Reachable.signature_layout {s : Session} (h : s.Reachable) {state : UInt32} {text : String}
    {root : BlockId} {a' : Arena}
    (hcompile : s.registry.arena.compile (s.registry.scope state) text = .ok (root, a')) :
    (∀ id, (a'.block id).Indexed) ∧ ∃ lexemes, Lexeme.read text = .ok lexemes ∧
      List.Forall₂ (fun id header => ∃ f ts g lines, (a'.block id).func? = some f ∧
          .keyword .func :: .ident f.name :: ts ++ List.replicate lines .newline ++ [.punct .lcurly]
            <+: header ∧
          SignatureTokens ts g ∧ g.Layout f (a'.block id))
        (a'.funcs s.registry.arena.size) (Token.headers (lexemes.toList.map Lexeme.token)) := by
  obtain ⟨-, lexemes, hread, w, rfl, hunit, -, hinner, -⟩ := Arena.compile_edits hcompile
  have hindexed : w.arena.Every Block.Indexed :=
    Block.Indexed.invariant.unit (h.every Block.Indexed.invariant) hcompile
  have hheaded := Compile.headings_unit (h.every Block.Spelled.invariant)
    (Compile.spelled_of_read hread (s.registry.scope state)) hunit hinner
  refine ⟨hindexed, lexemes, hread, hheaded.imp fun id header hid => ?_⟩
  obtain ⟨f, ts, g, lines, hf, hheader, hts, hdeclares, hvars⟩ := hid
  exact ⟨f, ts, g, lines, hf, hheader, hts, hdeclares.layout hvars hts.tailLast⟩

/-- A text that declares a function with a chained segment, of which the last parameter takes what
is left. -/
def chainedHeader : String :=
  "func deliver(from, to string) int.Log(level int, parts ...)\n\x7b return 1 \x7d"

/-- The function with two segments is laid out as its header says. -/
theorem chainedHeader_layout : Session.new.Reachable ∧ ∃ root a' lexemes,
    Session.new.registry.arena.compile (Session.new.registry.scope 1) chainedHeader
      = .ok (root, a') ∧
      (∀ id, (a'.block id).Indexed) ∧ Lexeme.read chainedHeader = .ok lexemes ∧
      List.Forall₂ (fun id header => ∃ f ts g lines, (a'.block id).func? = some f ∧
          .keyword .func :: .ident f.name :: ts ++ List.replicate lines .newline ++ [.punct .lcurly]
            <+: header ∧
          SignatureTokens ts g ∧ g.Layout f (a'.block id))
        (a'.funcs Session.new.registry.arena.size)
          (Token.headers (lexemes.toList.map Lexeme.token)) := by
  have hcompile : (Session.new.registry.arena.compile (Session.new.registry.scope 1)
      chainedHeader).toOption.isSome = true := by
    unfold chainedHeader Arena.compile Arena.compileUnit Lexeme.read
    simp only [String.reduceToList]
    decide +kernel
  cases hunit : Session.new.registry.arena.compile (Session.new.registry.scope 1) chainedHeader with
  | error e =>
    rw [hunit] at hcompile
    cases hcompile
  | ok p =>
    obtain ⟨hnames, lexemes, hread, hall⟩ := Reachable.signature_layout .start hunit
    exact ⟨.start, p.1, p.2, lexemes, rfl, hnames, hread, hall⟩

end Session

/-! ### The functions of a host -/

/-- The layout depends on the signature and the variables only. -/
theorem Signature.Layout.congr {g : Signature} {f f' : FuncInfo} {b b' : Block} (h : g.Layout f b)
    (hparams : f'.params = f.params) (hsegments : f'.segments = f.segments)
    (hvariadic : f'.variadic = f.variadic) (hvars : b'.vars = b.vars) : g.Layout f' b' where
  params := hparams ▸ h.params
  vars := by rw [hparams, hvars]; exact h.vars
  offsets := by rw [hparams, hsegments]; exact h.offsets
  segments := by rw [hsegments, hvars]; exact h.segments
  variadic := hvariadic ▸ h.variadic
  tails := h.tails

/-- Whether a block is laid out by some signature, if it is a function. -/
def Block.LaidOut (b : Block) : Prop := ∀ f, b.func? = some f → ∃ g : Signature, g.Layout f b

theorem Compile.Headed.laidOut {header : List Token} {b : Block} (h : Headed header b) :
    b.LaidOut := by
  intro f hf
  obtain ⟨f', ts, g, lines, hf', -, hts, hdeclares, hvars⟩ := h
  cases hf.symm.trans hf'
  exact ⟨g, hdeclares.layout hvars hts.tailLast⟩

/-- Functions are laid out by signatures, whatever is compiled and changed. -/
theorem Block.laidOut_invariant : BlockInvariant fun b => b.Spelled ∧ b.LaidOut where
  empty := ⟨.of_func?_eq_none rfl, nofun⟩
  unit {a a' scope text root} ha hcompile := by
    have hspelled : a.Every Block.Spelled := fun id => (ha id).1
    have hspelled' := Block.Spelled.invariant.unit hspelled hcompile
    obtain ⟨-, lexemes, hread, w, rfl, hunit, hedits, hinner, -⟩ := Arena.compile_edits hcompile
    have hheaded := Compile.headings_unit hspelled
      (Compile.spelled_of_read hread scope) hunit hinner
    have hkept := ((Compile.Beside.start a).edits hedits).kept
    refine fun id => ⟨hspelled' id, ?_⟩
    -- older blocks are as they were, and newer functions have a header among the lexemes
    rcases Nat.lt_or_ge id a.size with hlt | hge
    · have hsame : w.arena.block id = a.block id := by
        rw [Arena.block, Arena.block, Array.getD_eq_getD_getElem?,
          Array.getD_eq_getD_getElem?, hkept id hlt]
      rw [hsame]
      exact (ha id).2
    · intro f hf
      have hsize : id < w.arena.size := by
        by_contra hle
        rw [Arena.block_of_le (Nat.le_of_not_lt hle)] at hf
        cases hf
      have hid : id ∈ w.arena.funcs a.size := Arena.mem_funcs.2 ⟨hge, hsize, by rw [hf]; rfl⟩
      obtain ⟨i, hi, rfl⟩ := List.getElem_of_mem hid
      have hget := (List.forall₂_iff_get.1 hheaded).2 i hi
        (by rw [← (List.forall₂_iff_get.1 hheaded).1]; exact hi)
      exact Compile.Headed.laidOut hget f hf
  setId {b} id hb := by
    refine ⟨hb.1.setId id, fun f hf => ?_⟩
    obtain ⟨_, info, _, _, _, _⟩ := b
    cases info with
    | func i =>
      cases hf
      obtain ⟨g, hg⟩ := hb.2 i rfl
      exact ⟨g, hg.congr rfl rfl rfl rfl⟩
    | plain | contract => cases hf
  hidden {b} hb := by
    refine ⟨hb.1.modifyFunc fun _ _ hi => ⟨hi.chain, hi.segments⟩, fun f hf => ?_⟩
    obtain ⟨_, info, _, _, _, _⟩ := b
    cases info with
    | func i =>
      cases hf
      obtain ⟨g, hg⟩ := hb.2 i rfl
      exact ⟨g, hg.congr rfl rfl rfl rfl⟩
    | plain | contract => cases hf

/-- **The functions of a host are laid out by signatures.** -/
theorem Session.Reachable.laidOut {s : Session} (h : s.Reachable) (id : BlockId) :
    (s.registry.block id).LaidOut :=
  (h.every Block.laidOut_invariant id).2

end Covenant
