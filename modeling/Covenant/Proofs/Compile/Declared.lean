import Covenant.Proofs.Compile.Balance
import Covenant.Proofs.Compile.Names
import Covenant.Proofs.Registry.Linked

/-!
# The list of declarations

The contracts and functions of a text can be listed by counting braces in its lexemes
(`Lexeme.declared`). For a text that compiles, the list is that of the children of the unit's root
block (`Session.Reachable.declared`).

The compiler opens a block before its left brace, and the braces of a data section open no block. So
the level of braces is the number of open blocks, up to what the state of the reader says
(`Grammar.State.ahead`); the table of the grammar keeps that (`ahead_of_entry`). While a unit is
read, what the lexemes declare is what the unit has by now, followed by what the lexemes ahead
declare (`Tallies`).
-/

namespace Covenant

/-! ### Levels of braces -/

/-- What a lexeme of some kind adds to the level of braces. -/
def Kind.rise : Kind → Int
  | .punct .lcurly => 1
  | .punct .rcurly => -1
  | _ => 0

/-- Whether a kind is that of a keyword that declares something. -/
def Kind.declares : Kind → Bool
  | .keyword .contract | .keyword .func => true
  | _ => false

/-- How far the level of braces is ahead of the number of open blocks. -/
def Grammar.State.ahead : Grammar.State → Int
  | .contract | .func | .funcParams | .funcParam | .funcParamType | .funcTail
  | .funcResult | .funcDot
  | .block => -1
  | .consts | .constsAssign | .constsValue | .fields => 1
  | _ => 0

/-- A lexeme that declares nothing changes the level only. -/
theorem Lexeme.declaredFrom_rise {l : Lexeme} (h : l.kind.declares = false) (level : Int)
    (ls : List Lexeme) : declaredFrom level (l :: ls) = declaredFrom (level + l.kind.rise) ls := by
  have hlevel : level + 0 = level := Int.add_zero level
  obtain ⟨t, p⟩ := l
  cases t with
  | punct m => cases m <;> first | rfl | exact (congrArg (declaredFrom · ls) hlevel).symm
  | keyword k =>
    cases k with
    | contract | func => cases h
    | _ => exact (congrArg (declaredFrom · ls) hlevel).symm
  | const k => cases k <;> exact (congrArg (declaredFrom · ls) hlevel).symm
  | _ => exact (congrArg (declaredFrom · ls) hlevel).symm

/-- A declaration counts where no brace is open. -/
theorem Lexeme.declaredFrom_name {l n : Lexeme} {x : String} (hl : l.kind.declares = true)
    (hn : n.token = .ident x) (level : Int) (ls : List Lexeme) :
    declaredFrom level (l :: n :: ls) = (if level = 0 then [x] else [])
    ++ declaredFrom level ls := by
  have hname : declaredFrom level (n :: ls) = declaredFrom level ls :=
    declaredFrom_level (by rw [hn]; rfl) level ls
  obtain ⟨t, p⟩ := l
  cases t with
  | keyword k =>
    cases k with
    | contract | func =>
      rw [declaredFrom]
      by_cases hlevel : level = 0
      · subst hlevel
        simp [hn, hname]
      · simp [hlevel, hname]
    | _ => cases hl
  | const k => cases k <;> cases hl
  | _ => cases hl

/-! ### What a name declares -/

/-- Whether a block is what a text declares by a name: the function of that name, or the contract
that has the name qualified. -/
def Block.Declared (state : UInt32) (x : String) (b : Block) : Prop :=
  (∃ f, b.info = .func f ∧ f.name = x) ∨
    ∃ c, b.info = .contract c ∧ c.name = Name.qualify state.toNat x

namespace Block.Declared

variable {state : UInt32} {x : String} {b b' : Block} {self : BlockId}

/-- A block that keeps its title stays what is declared by a name. -/
theorem of_title (h : b.Declared state x) (hname : b'.name = b.name)
    (hbinding : b'.binding? self = b.binding? self) : b'.Declared state x := by
  obtain ⟨_, info, _, _, _, _⟩ := b
  obtain ⟨_, info', _, _, _, _⟩ := b'
  rcases h with ⟨f, rfl, rfl⟩ | ⟨c, rfl, hc⟩
  · cases info' <;> cases hbinding
    exact .inl ⟨_, rfl, hname⟩
  · cases info' <;> cases hbinding
    exact .inr ⟨_, rfl, Eq.trans hname hc⟩

end Block.Declared

namespace Compile

open Covenant.Computation

variable {a : Arena} {s : Source} {w w' w₀ : Work} {c : Cursor} {i j : Nat} {level : Int}

/-! ### The table -/

/-- The state behind an entry, once its expression is read. -/
def landing (st next : Grammar.State) (f : Grammar.Flags) (atRoot : Bool) : Grammar.State :=
  stateBehind f (if next == .eval then st else next) atRoot

/-- What an entry of the table does to the level of braces, and where lexemes are read again. -/
structure Tracks (st : Grammar.State) (k : Kind) (next : Grammar.State) (f : Grammar.Flags) :
    Prop where
  /-- The level of braces stays the number of open blocks, as far as the reader's state says. -/
  ahead : ∀ atRoot, (landing st next f atRoot).ahead
    = st.ahead + (if f.stay then 0 else k.rise) - f.push.toNat + f.pop.toNat
  stays : f.stay = true → next ≠ .eval ∧ next ≠ .assignEval ∧ next.ahead = st.ahead
  forks : f.fork = true → st = .body ∧ f.push = false ∧ f.pop = false ∧ k.rise = 0
  landsFork : ∀ atRoot, landing st next f atRoot = .assignEval ↔ f.fork = true
  toFork : f.toFork = true ↔ st = .assignEval
  rereads : f.toFork = true → f.stay = true ∨ next = .eval ∧ k.rise = 0
  declares : k.declares = true → f.stay = true ∨ next = .func ∨ next = .contract
  lands : next ≠ .func → next ≠ .contract → ∀ atRoot,
    landing st next f atRoot ≠ .func ∧ landing st next f atRoot ≠ .contract

/-- The entries of the grammar track where names of blocks stand. -/
theorem tracks_of_entry {st next : Grammar.State} {k : Kind} {f : Grammar.Flags}
    {a : Grammar.Action} (h : Grammar.entry st k = .go next f a) : Tracks st k next f := by
  unfold Grammar.entry at h
  cases hrow : Grammar.row st k with
  | some e =>
    rw [hrow] at h
    obtain rfl : e = .go next f a := h
    unfold Grammar.row at hrow
    split at hrow <;> cases hrow
    all_goals constructor <;> decide
  | none =>
    rw [hrow] at h
    cases st <;> cases h
    all_goals constructor <;> first | decide | simp [landing, stateBehind, Grammar.State.ahead]

/-! ### What the lexemes declare -/

theorem Source.ahead_of_kind? {k : Kind} (h : s.kind? i = some k) :
    ∃ l : Lexeme, l.kind = k ∧ s.ahead i = l :: s.ahead (i + 1) := by
  obtain ⟨l, hl, rfl⟩ := Option.map_eq_some_iff.1 h
  obtain ⟨l', hl', hahead⟩ := ahead_of_token? (show s.token? i = some l.token by
    rw [token?, hl, Option.map_some])
  exact ⟨l', congrArg Token.kind hl', hahead⟩

/-- Names are what stands at lexemes of their kind. -/
theorem Source.token?_of_kind?_ident (h : s.kind? i = some .ident) :
    s.token? i = some (.ident (s.name i)) := by
  obtain ⟨l, hl, hkind⟩ := Option.map_eq_some_iff.1 h
  obtain ⟨t, p⟩ := l
  rw [token?, name, hl]
  cases t with
  | ident x => rfl
  | const k => cases k <;> cases hkind
  | _ => cases hkind

/-- Whether the lexemes declare what a unit has declared, and then what the lexemes from a position
on declare from some level of braces on. -/
def Tallies (s : Source) (w : Work) (level : Int) (i : Nat) : Prop :=
  ∃ names, List.Forall₂ (fun x c => (w.block c).Declared s.state x) names
      (w.block w.root).children.toList ∧
    Lexeme.declaredFrom 0 s.lexemes.toList = names ++ Lexeme.declaredFrom level (s.ahead i)

/-- Blocks that keep their titles stay what is declared by some names. -/
theorem declared_of_title {names : List String} {ids : List BlockId}
    (h : List.Forall₂ (fun x c => (w.block c).Declared s.state x) names ids)
    (htitle : ∀ c ∈ ids,
      (w'.block c).name = (w.block c).name ∧ (w'.block c).binding? c = (w.block c).binding? c) :
    List.Forall₂ (fun x c => (w'.block c).Declared s.state x) names ids := by
  obtain ⟨hlen, hall⟩ := List.forall₂_iff_zip.1 h
  refine List.forall₂_iff_zip.2 ⟨hlen, fun hin => ?_⟩
  obtain ⟨hname, hbinding⟩ := htitle _ (List.of_mem_zip hin).2
  exact (hall hin).of_title hname hbinding

namespace Tallies

theorem balanced (h : Tallies s w level i) (hb : s.Balanced i j) : Tallies s w level j := by
  obtain ⟨names, hnames, hall⟩ := h
  obtain ⟨ls, hls, hahead⟩ := hb
  exact ⟨names, hnames, by rw [hall, hahead, hls.declaredFrom]⟩

/-- One lexeme on. -/
theorem next (h : Tallies s w level i) {k : Kind} (hk : s.kind? i = some k)
    (hdeclares : k.declares = false) : Tallies s w (level + k.rise) (i + 1) := by
  obtain ⟨names, hnames, hall⟩ := h
  obtain ⟨l, rfl, hahead⟩ := Source.ahead_of_kind? hk
  exact ⟨names, hnames, by rw [hall, hahead, Lexeme.declaredFrom_rise hdeclares]⟩

theorem keeps (h : Tallies s w level i) (hkeeps : Keeps w w') : Tallies s w' level i := by
  obtain ⟨names, hnames, hall⟩ := h
  refine ⟨names, ?_, hall⟩
  rw [hkeeps.children]
  exact declared_of_title hnames fun c hc => hkeeps.title c (Array.mem_toList_iff.1 hc)

end Tallies

/-- Where the lexemes are that a cursor has not counted. The ones of an assignment are counted once
the reader is back at the name it starts with. -/
def Cursor.start (c : Cursor) : Nat := if c.state = .assignEval then c.fork else c.position

/-- Whether the lexemes before a cursor declare what the unit has declared. Where the name of a new
block is missing, they are the lexemes before the keyword, and the unit is that from before the
block was opened. -/
def Tallied (s : Source) (w₀ : Work) (c : Cursor) (w : Work) : Prop :=
  match c.state with
  | .func | .contract => ∃ w₁ i, w = w₁.openBlock ∧ Edits s w₀ w₁ ∧ c.position = i + 1 ∧
      (s.kind? i = some (.keyword .func) ∨ s.kind? i = some (.keyword .contract) ∧ w₁.inner = []) ∧
      Tallies s w₁ w₁.inner.length i
  | st => Tallies s w (w.inner.length + st.ahead) c.start

theorem tallied_iff (hfunc : c.state ≠ .func) (hcontract : c.state ≠ .contract) :
    Tallied s w₀ c w ↔ Tallies s w (w.inner.length + c.state.ahead) c.start := by
  unfold Tallied
  split
  · exact absurd ‹_› hfunc
  · exact absurd ‹_› hcontract
  · exact Iff.rfl

/-! ### One entry -/

/-- An expression of an entry starts where the entry does. -/
theorem position_of_tracks {k : Kind} {next : Grammar.State} {f : Grammar.Flags}
    (h : Tracks c.state k next f) : entryPosition f c = c.start := by
  unfold entryPosition Cursor.start
  by_cases hst : c.state = .assignEval
  · have hfork : f.fork = false := by
      refine Bool.eq_false_iff.2 fun hfork => ?_
      cases hst.symm.trans (h.forks hfork).1
    rw [if_pos hst, if_pos (h.toFork.2 hst), hfork]
    rfl
  · rw [if_neg hst, if_neg fun hto => hst (h.toFork.1 hto)]

/-- What an entry does behind its expression, if it declares nothing. -/
theorem leads_endEntry {st next : Grammar.State} {k : Kind} {f : Grammar.Flags}
    {act : Grammar.Action} (hshape : Shape st k next f act) (ht : Titled a w) (hfunc : next ≠ .func)
    (hcontract : next ≠ .contract) (hst : st ≠ .func ∧ st ≠ .contract)
    (hinside : st ≠ .root → w.inner ≠ []) (hwait : notes act = true ∨ settles act = true →
    w.Waiting) {here fork behind : Nat}
    (hsegment : act = .segment → s.kind? here = some .ident) :
    Leads w (endEntry s f act (if next == .eval then st else next) here fork behind) fun c' w' =>
      (∃ atRoot, c' = ⟨landing st next f atRoot, fork, behind⟩) ∧ Keeps w w' ∧
        (w'.inner.length : Int) = w.inner.length + f.push.toNat - f.pop.toNat := by
  -- what neither opens nor closes a block leaves as many open as before
  have hsame : ∀ {w'}, Alters s w w' → Keeps w w' ∧
      (w'.inner.length : Int) = w.inner.length + false.toNat - false.toNat := by
    intro w' h
    refine ⟨ht.keeps h.edits h.size, ?_⟩
    rw [h.inner]
    simp
  have hnone : Tends s w w (Compile.act s .none here) fun _ w' => Alters s w w' :=
    .pure (.refl s w)
  cases hshape with
  | contract | func => exact absurd rfl ‹_›
  | name hno => exact absurd hno (not_or.2 hst)
  | skip | more =>
    exact (tends_endEntry rfl rfl (hnone.imp fun _ _ h => ⟨⟨_, rfl⟩, hsame h⟩)).leads
  | wait hord ha hwaits =>
    exact (tends_endEntry rfl rfl ((tends_notes ha (hwait (.inl ha)) _).imp fun _ _ h =>
      ⟨⟨_, rfl⟩, hsame h.1⟩)).leads
  | settle hord ha =>
    exact (tends_endEntry rfl rfl ((tends_settles ha (hinside hord.1) (hwait (.inr ha)) _).imp
      fun _ _ h => ⟨⟨_, rfl⟩, hsame h.1⟩)).leads
  | other hord _ hpush hpop ha hnotes hsettles =>
    refine (tends_endEntry hpush hpop ((amends_act ha hnotes hsettles (hinside hord.1)
      hsegment).imp fun _ _ h => ⟨⟨_, rfl⟩, ?_⟩)).leads
    rw [hpush, hpop]
    exact hsame h.1.toAlters
  | control hbody hpush hpop _ ha =>
    have hinner := hinside (hbody ▸ by decide)
    refine (tends_endEntry_push hpush hpop ((enters_control ha here).imp fun _ w' h =>
      ⟨⟨_, rfl⟩, ht.keeps_entered h hinner, ?_⟩)).leads
    rw [h.inner, hpush, hpop]
    simp
  | close hbody =>
    have hinner := hinside (hbody ▸ by decide)
    refine .bind (tends_closeBlock here).leads fun _ w' h =>
      .get (.pure ⟨⟨_, rfl⟩, ht.keeps h.1 h.2.2.1, ?_⟩)
    obtain ⟨id, ids, hids⟩ := List.exists_cons_of_ne_nil hinner
    rw [h.2.1, hids]
    simp

/-- A block that has just been opened is named after the identifier. -/
theorem leads_nameBlock {i : Nat} (htop : w.top < w.arena.size) :
    Leads w.openBlock (nameBlock s i) fun _ w' =>
      (w'.block w.arena.size).Declared s.state (s.name i) := by
  have hinfo : ∀ (info : BlockInfo) (f : Block → Block), (((w.openBlock.modifyTop fun b =>
      { b with info := info }).modifyBlock w.openBlock.parent f).block w.arena.size).info
        = info := by
    intro info f
    have hnew : w.arena.size < w.openBlock.arena.size := by
      rw [Work.size_openBlock]
      exact Nat.lt_succ_self _
    rw [Work.parent_openBlock, Work.block_modifyBlock_of_ne _ (Nat.ne_of_lt htop), Work.modifyTop,
      Work.top_openBlock, Work.block_modifyBlock_self hnew]
  refine .get ?_
  dsimp only
  split
  · exact .ite (fun _ => .throw_bind _) fun _ => .set (.inr ⟨_, hinfo _ _, rfl⟩)
  · exact .ite (fun _ => .throw_bind _) fun _ => .set (.inl ⟨_, hinfo _ _, rfl⟩)

/-- An entry that names a block. -/
theorem tallied_name (ht : Titled a w₀) (hst : c.state = .func ∨ c.state = .contract)
    (hk : s.kind? c.position = some .ident) (h : Tallied s w₀ c w) :
    Leads w (nameBlock s c.position) fun _ w' => Tallies s w' (w'.inner.length - 1)
    (c.position + 1) := by
  obtain ⟨w₁, i, rfl, hedits, hi, hkind, names, hnames, hall⟩ : ∃ w₁ i, w = w₁.openBlock ∧
      Edits s w₀ w₁ ∧ c.position = i + 1 ∧ (s.kind? i = some (.keyword .func) ∨
        s.kind? i = some (.keyword .contract) ∧ w₁.inner = []) ∧
        Tallies s w₁ w₁.inner.length i := by
    rcases hst with hst | hst <;> rwa [Tallied, hst] at h
  have ht₁ := ht.edits hedits
  rw [hi] at hk ⊢
  intro u w' hw'
  have hentered := (enters_nameBlock (hkind.symm.imp And.right fun hfunc => by
    rw [Nat.add_sub_cancel, hfunc]; decide)).leads u w' hw'
  have hdeclared := leads_nameBlock
    (ht₁.beside.opened w₁.top (top_mem_opened w₁)).2 u w' hw'
  have hlevel : (w'.inner.length : Int) - 1 = w₁.inner.length := by
    rw [hentered.inner]
    simp
  -- the keyword and the name behind it
  obtain ⟨l, hl, hahead⟩ : ∃ l, l.kind.declares = true ∧ s.ahead i = l :: s.ahead (i + 1) := by
    rcases hkind with hkind | ⟨hkind, -⟩
    all_goals
      obtain ⟨l, hl, hahead⟩ := Source.ahead_of_kind? hkind
      exact ⟨l, by rw [hl]; rfl, hahead⟩
  obtain ⟨n, hn, hahead'⟩ := Source.ahead_of_token? (Source.token?_of_kind?_ident hk)
  rw [hahead, hahead', Lexeme.declaredFrom_name hl hn] at hall
  rw [hlevel]
  by_cases hinner : w₁.inner = []
  · obtain ⟨hchildren, htitle⟩ := ht₁.children_entered hentered hinner
    refine ⟨names ++ [s.name (i + 1)], ?_, ?_⟩
    · rw [hchildren, Array.toList_push]
      exact List.rel_append (declared_of_title hnames fun c hc =>
        htitle c (Array.mem_toList_iff.1 hc))
        (.cons hdeclared .nil)
    · rw [hall, hinner]
      simp
  · have hkeeps := ht₁.keeps_entered hentered hinner
    refine Tallies.keeps ⟨names, hnames, ?_⟩ hkeeps
    rw [hall, if_neg]
    · rfl
    · simpa using hinner

/-- A keyword that opens a block is counted with the name behind it. -/
theorem tallied_opened {st : Grammar.State} (hst : st = .func ∨ st = .contract)
    (hedits : Edits s w₀ w) (hkind : s.kind? c.position = some (.keyword .func) ∨
      s.kind? c.position = some (.keyword .contract) ∧ w.inner = [])
    (hopens : c.state = .root ∨ c.state = .body) (h : Tallied s w₀ c w) (fork : Nat) :
    Tallied s w₀ ⟨st, fork, c.position + 1⟩ w.openBlock := by
  have hcount : Tallies s w w.inner.length c.position := by
    rcases hopens with hopens | hopens
    all_goals
      have hcount := (tallied_iff (by rw [hopens]; decide) (by rw [hopens]; decide)).1 h
      rw [Cursor.start, if_neg (by rw [hopens]; decide), hopens] at hcount
      exact hcount
  rcases hst with rfl | rfl <;> exact ⟨w, c.position, rfl, hedits, rfl, hkind, hcount⟩

/-- An entry that opens a block and does nothing else. -/
theorem leads_opened {next : Grammar.State} {f : Grammar.Flags} {Q : Cursor → Work → Prop}
    (heval : (next == .eval) = false) (h : Q ⟨next, c.fork, c.position + 1⟩ w.openBlock) :
    Leads w ((if next == .eval then entryExpression s f c.position else pure (c.position + 1)) >>=
      fun behind => endEntry s { push := true } .none (if next == .eval then c.state else next)
        c.position c.fork behind) Q := by
  rw [heval]
  refine .bind (P := fun behind w' => w' = w ∧ behind = c.position + 1) (.pure ⟨rfl, rfl⟩)
    fun behind w' hbehind => ?_
  obtain ⟨rfl, rfl⟩ := hbehind
  have hpure : Tends s w' w'.openBlock (act s .none c.position) fun _ w'' =>
      Q ⟨next, c.fork, c.position + 1⟩ w'' := .pure h
  exact (tends_endEntry_push rfl rfl hpure).leads

/-- Where names are noted or settled, no block is being declared. -/
theorem ordinary_of_shape {st next : Grammar.State} {k : Kind} {f : Grammar.Flags}
    {act : Grammar.Action} (h : Shape st k next f act) (hact : notes act = true ∨
    settles act = true) :
    Ordinary st ∧ (next == .eval) = false := by
  cases h with
  | wait hst _ hnext => exact ⟨hst, (ordinary_of_waits hnext).2⟩
  | settle hst _ _ _ hnext => exact ⟨hst, by simpa using hnext⟩
  | other _ _ _ _ _ hnotes hsettles =>
    rw [hnotes, hsettles] at hact
    exact absurd hact (by decide)
  | control _ _ _ _ ha => rcases ha with rfl | rfl | rfl <;> exact absurd hact (by decide)
  | _ => exact absurd hact (by decide)

/-- A segment is read at its name and nowhere else. -/
theorem segment_of_shape {st next : Grammar.State} {k : Kind} {f : Grammar.Flags}
    {act : Grammar.Action} (h : Shape st k next f act) (hact : act = .segment) :
    k = .ident ∧ f = {} := by
  cases h with
  | other _ _ _ _ _ _ _ hsegment => exact hsegment hact
  | control _ _ _ _ ha => rcases ha with rfl | rfl | rfl <;> cases hact
  | wait _ ha | settle _ ha =>
    rw [hact] at ha
    cases ha
  | _ => cases hact

/-- What an entry without a name reads is counted, and so are the blocks that it opens and
closes. -/
theorem tallied_entry {k : Kind} {next : Grammar.State} {f : Grammar.Flags} {act : Grammar.Action}
    (ht : Titled a w₀) (hs : s.Spelled) (hspelled : w₀.arena.Every Block.Spelled)
    (hstands : Stands s w₀ c w) (hk : s.kind? c.position = some k)
    (hentry : Grammar.entry c.state k = .go next f act) (hstay : f.stay = false)
    (hst : c.state ≠ .func ∧ c.state ≠ .contract) (hfunc : next ≠ .func)
    (hcontract : next ≠ .contract) (h : Tallied s w₀ c w) :
    Leads w (advance s k c) (Tallied s w₀) := by
  have hshape := shape_of_entry hentry
  have htracks := tracks_of_entry hentry
  have hcount := (tallied_iff hst.1 hst.2).1 h
  have hno : ∀ {P : Prop}, f.stay = true ∨ P → P :=
    fun hor => hor.resolve_left (by rw [hstay]; decide)
  have hinner : c.state ≠ .root → w.inner ≠ [] :=
    fun hroot => ((stands_iff ⟨hroot, hst⟩).1 hstands).2.inner
  have hposition : f.toFork = false → c.start = c.position := by
    intro hto
    refine if_neg fun hassign => ?_
    cases hto.symm.trans (htracks.toFork.2 hassign)
  -- the lexeme, unless it is read again
  have hlexeme : Tallies s w (w.inner.length + c.state.ahead + k.rise)
      (if f.toFork then c.start else c.start + 1) := by
    cases hto : f.toFork with
    | true =>
      rw [(hno (htracks.rereads hto)).2, Int.add_zero]
      exact hcount
    | false =>
      have hdeclares : k.declares = false := by
        refine Bool.eq_false_iff.2 fun hdeclares => ?_
        exact (hno (htracks.declares hdeclares)).elim hfunc hcontract
      rw [hposition hto] at hcount ⊢
      exact hcount.next hk hdeclares
  rw [advance_eq hentry hstay, position_of_tracks htracks]
  refine .bind (P := fun behind w' => Changes s w w' ∧ ((next == .eval) = false → w' = w) ∧
    Tallies s w (w.inner.length + c.state.ahead + k.rise) behind) (fun behind w' hrun => ?_)
    fun behind w' hbehind c' w'' hrun => ?_
  · have hchanges := (yields_behind f (next == .eval) c.start).leads behind w' hrun
    refine ⟨hchanges.1, fun heval => (hchanges.2 heval).1, ?_⟩
    cases heval : next == .eval with
    | true =>
      rw [heval] at hrun
      have hspelled' := (editInvariant_spelled hs).edits hspelled hstands.edits
      exact hlexeme.balanced (balanced_entryExpression hs hspelled' f c.start behind w' hrun)
    | false =>
      have hto : f.toFork = false := by
        refine Bool.eq_false_iff.2 fun hto => ?_
        rw [(hno (htracks.rereads hto)).1] at heval
        cases heval
      rw [hto] at hlexeme
      rw [(hchanges.2 heval).2]
      exact hlexeme
  · obtain ⟨hchanges, hsame, htally⟩ := hbehind
    have htitled := ht.edits hstands.edits
    have hwaiting : notes act = true ∨ settles act = true → w'.Waiting := by
      intro hact
      obtain ⟨hord, heval⟩ := ordinary_of_shape hshape hact
      rw [hsame heval]
      exact ((stands_iff hord).1 hstands).2.waiting
    have hsegment : act = .segment → s.kind? c.start = some .ident := by
      intro hact
      obtain ⟨rfl, rfl⟩ := segment_of_shape hshape hact
      rw [hposition rfl]
      exact hk
    obtain ⟨⟨atRoot, rfl⟩, hkeeps, hlength⟩ :=
      leads_endEntry hshape (htitled.edits hchanges.edits) hfunc
      hcontract hst (fun hroot => hchanges.inner ▸ hinner hroot) hwaiting hsegment c' w'' hrun
    have hkept : Keeps w w'' := (htitled.keeps hchanges.edits hchanges.size).trans hkeeps
    have hlands := htracks.lands hfunc hcontract atRoot
    refine (tallied_iff hlands.1 hlands.2).2 ?_
    have hlevel : (w''.inner.length : Int) + (landing c.state next f atRoot).ahead
        = w.inner.length + c.state.ahead + k.rise := by
      rw [hlength, htracks.ahead, hstay, hchanges.inner]
      simp only [Bool.false_eq_true, if_false]
      omega
    show Tallies s w'' (w''.inner.length + (landing c.state next f atRoot).ahead) _
    rw [hlevel]
    unfold Cursor.start
    by_cases hfork : f.fork = true
    · -- the name that starts an assignment is read again
      obtain ⟨hbody, -, -, hrise⟩ := htracks.forks hfork
      rw [if_pos ((htracks.landsFork atRoot).2 hfork), if_pos hfork, hrise, Int.add_zero]
      refine Tallies.keeps ?_ hkept
      rwa [Cursor.start, if_neg (by rw [hbody]; decide)] at hcount
    · rw [if_neg fun hlands => hfork ((htracks.landsFork atRoot).1 hlands)]
      exact htally.keeps hkept

/-- **The lexemes that an entry reads declare what the entry declares.** -/
theorem tallied_advance (ht : Titled a w₀) (hs : s.Spelled)
    (hspelled : w₀.arena.Every Block.Spelled) {k : Kind} (hk : s.kind? c.position = some k)
    (hstands : Stands s w₀ c w) (h : Tallied s w₀ c w) :
    Leads w (advance s k c) (Tallied s w₀) := by
  cases hentry : Grammar.entry c.state k with
  | fail expected =>
    unfold advance
    rw [hentry]
    exact .throw _
  | go next f act =>
    have htracks := tracks_of_entry hentry
    cases hstay : f.stay with
    | true =>
      unfold advance
      rw [hentry]
      dsimp only
      rw [hstay]
      cases shape_of_entry hentry with
      | other hst _ _ _ _ _ _ _ hnext =>
        refine .pure ((tallied_iff hnext.2.1 hnext.2.2).2 ?_)
        obtain ⟨-, hassign, hahead⟩ := htracks.stays hstay
        have hcount := (tallied_iff hst.2.1 hst.2.2).1 h
        show Tallies s w (w.inner.length + next.ahead) (Cursor.start ⟨next, _, entryPosition f c⟩)
        rw [hahead, Cursor.start, if_neg hassign, position_of_tracks htracks]
        exact hcount
      | control _ _ _ hno => exact absurd hstay (by rw [hno]; decide)
      | _ => cases hstay
    | false =>
      -- Only the entries of a header declare parameters;
      -- behind the others the count is what it was.
      cases shape_of_entry hentry with
      | contract hst hkind =>
        rw [advance_eq hentry hstay]
        have hroot : w.inner = [] := by
          rw [Stands, hst] at hstands
          exact hstands.2.1
        exact leads_opened rfl (tallied_opened (.inr rfl) hstands.edits (.inr ⟨hkind ▸ hk, hroot⟩)
          (.inl hst) h _)
      | func hst hkind =>
        rw [advance_eq hentry hstay]
        exact leads_opened rfl (tallied_opened (.inl rfl) hstands.edits (.inl (hkind ▸ hk)) hst h _)
      | @name next hst hkind hnext hwait heval =>
        rw [advance_eq hentry hstay, show (next == .eval) = false by simpa using heval]
        refine .bind (P := fun behind w' => w' = w ∧ behind = c.position + 1) (.pure ⟨rfl, rfl⟩)
          fun behind w' hbehind => ?_
        obtain ⟨rfl, rfl⟩ := hbehind
        have hname := tallied_name ht hst (hkind ▸ hk) h
        refine .get (.bind hname fun _ w'' htally => .pure ((tallied_iff hnext.2.1 hnext.2.2).2 ?_))
        have heval' : (next == .eval) = false := by simpa using heval
        have hahead : next.ahead = -1 := by
          have hahead := htracks.ahead false
          rw [landing, heval', hkind] at hahead
          rcases hst with hst | hst <;> rw [hst] at hahead <;> exact hahead
        have hassign : next ≠ .assignEval := by
          have hlands := htracks.landsFork false
          rw [landing, heval'] at hlands
          exact fun heq => absurd (hlands.1 heq) (by decide)
        show Tallies s w'' (w''.inner.length + next.ahead) (Cursor.start ⟨next, _, c.position + 1⟩)
        rw [hahead, Cursor.start, if_neg hassign]
        exact htally
      | skip hst =>
        exact tallied_entry ht hs hspelled hstands hk hentry hstay (by rw [hst]; decide) (by decide)
          (by decide) h
      | control hst _ _ _ _ hnext =>
        exact tallied_entry ht hs hspelled hstands hk hentry hstay (by rw [hst]; decide) hnext.2.1
          hnext.2.2 h
      | close hst =>
        exact tallied_entry ht hs hspelled hstands hk hentry hstay (by rw [hst]; decide) (by decide)
          (by decide) h
      | more hwait =>
        have hst := (ordinary_of_waits hwait).1.2
        exact tallied_entry ht hs hspelled hstands hk hentry hstay hst hst.1 hst.2 h
      | wait hst _ hwait =>
        have hnext := (ordinary_of_waits hwait).1.2
        exact tallied_entry ht hs hspelled hstands hk hentry hstay hst.2 hnext.1 hnext.2 h
      | settle hst _ hnext =>
        exact tallied_entry ht hs hspelled hstands hk hentry hstay hst.2 hnext.2.1 hnext.2.2 h
      | other hst _ _ _ _ _ _ _ hnext =>
        exact tallied_entry ht hs hspelled hstands hk hentry hstay hst.2 hnext.2.1 hnext.2.2 h

/-! ### All entries -/

/-- Reading keeps what every entry of the table keeps. -/
theorem leads_readAll {I : Cursor → Work → Prop}
    (hstep : ∀ {k c w}, s.kind? c.position = some k → I c w →
      Leads w (advance s k c) I) (fuel : Nat)
    (h : I c w) :
    Leads w (readAll s fuel c) fun _ w' => ∃ c', s.kind? c'.position = none ∧ I c' w' := by
  induction fuel generalizing w c with
  | zero =>
    unfold readAll
    split
    · exact .pure ⟨c, ‹_›, h⟩
    · exact .throw _
  | succ fuel ih =>
    unfold readAll
    split
    · exact .pure ⟨c, ‹_›, h⟩
    · exact .bind (hstep ‹_› h) fun _ _ h => ih h

/-- A whole reading keeps the tally. -/
theorem tallied_readAll (ht : Titled a w₀) (hs : s.Spelled)
    (hspelled : w₀.arena.Every Block.Spelled) (fuel : Nat) (hstands : Stands s w₀ c w)
    (h : Tallied s w₀ c w) :
    Leads w (readAll s fuel c) fun _ w' =>
      ∃ c', s.kind? c'.position = none ∧ Stands s w₀ c' w' ∧ Tallied s w₀ c' w' := by
  refine leads_readAll (I := fun c w => Stands s w₀ c w ∧ Tallied s w₀ c w)
    (fun hk h c' w' hrun => ?_) fuel
    ⟨hstands, h⟩
  exact ⟨(tends_advance hk h.1).leads c' w' hrun,
    tallied_advance ht hs hspelled hk h.1 h.2 c' w' hrun⟩

/-- A cursor stands in the unit itself if nothing is open. -/
theorem Stands.root (h : Stands s w₀ c w) (hinner : w.inner = []) : c.state = .root := by
  unfold Stands at h
  split at h
  · assumption
  · obtain ⟨w₁, -, rfl, -⟩ := h
    cases hinner
  · obtain ⟨w₁, -, rfl, -⟩ := h
    cases hinner
  · exact absurd hinner h.2.inner

/-- Once all is read and closed, the lexemes declare what the unit has declared. -/
theorem Tallied.names_declared (h : Tallied s w₀ c w) (hend : s.kind? c.position = none)
    (hroot : c.state = .root) :
    List.Forall₂ (fun x c => (w.block c).Declared s.state x)
    (Lexeme.declaredFrom 0 s.lexemes.toList)
      (w.block w.root).children.toList := by
  obtain ⟨names, hnames, hall⟩ := (tallied_iff (by rw [hroot]; decide) (by rw [hroot]; decide)).1 h
  have hnone : s.ahead c.start = [] := by
    rw [Cursor.start, if_neg (by rw [hroot]; decide), Source.ahead, List.drop_eq_nil_iff]
    rw [Source.kind?, Option.map_eq_none_iff, Array.getElem?_eq_none_iff] at hend
    rwa [Array.length_toList]
  rw [hall, hnone, Lexeme.declaredFrom, List.append_nil]
  exact hnames

end Compile

/-- **The names that the lexemes of a text declare are those of a unit's children**, in order. -/
theorem Arena.compile_declared {a a' : Arena} {scope : Scope} {text : String} {root : BlockId}
    (ha : a.Every Block.Spelled) (h : a.compile scope text = .ok (root, a')) :
    ∃ names, Lexeme.declared text = .ok names ∧
      List.Forall₂ (fun x c => (a'.block c).Declared scope.state x) names
        (a'.block root).children.toList := by
  obtain ⟨rfl, lexemes, hread, w, rfl, hunit, hedits, hinner, -⟩ := compile_edits h
  have hempty : Arena.block (a.push { parent := none }) a.size = { parent := none } := by
    rw [Arena.block_push, if_pos rfl]
  have hstart : Compile.Tallied (scope.source lexemes)
    { arena := a.push { parent := none }, root := a.size }
      {} { arena := a.push { parent := none }, root := a.size } := by
    refine ⟨[], ?_, rfl⟩
    rw [Compile.Work.block, hempty]
    exact .nil
  have hspelled := Compile.editInvariant_spelled (Compile.spelled_of_read hread scope)
  obtain ⟨c, hend, hstands, htallied⟩ := Compile.tallied_readAll (c := {}) (Compile.Titled.start a)
    (Compile.spelled_of_read hread scope) (ha.push (hspelled.empty none)) _ ⟨.refl,
      rfl, rfl⟩ hstart () w
    (Compile.leads_unit _ _ () w hunit)
  refine ⟨_, by rw [Lexeme.declared, hread]; rfl, ?_⟩
  have hdeclared := htallied.names_declared hend (hstands.root hinner)
  rwa [(Compile.Titled.start a).root_eq hedits] at hdeclared

/-- Segments have names, whatever is compiled and changed. -/
theorem Block.Spelled.invariant : BlockInvariant Block.Spelled where
  empty := .of_func?_eq_none rfl
  unit ha hunit := Compile.EditInvariant.compile ha hunit fun _ hread =>
    Compile.editInvariant_spelled (Compile.spelled_of_read hread _)
  setId id hb := hb.setId id
  hidden hb := hb.modifyFunc fun _ _ hi => ⟨hi.chain, hi.segments⟩

namespace Session

/-- **The list of a text's declarations agrees with the compiler**: it has one entry for every child
of the unit's root block, in order. A function is registered under the entry, a contract under the
entry qualified. -/
theorem Reachable.declared {s : Session} (h : s.Reachable) {state : UInt32} {text : String}
    {root : BlockId} {a' : Arena}
    (hcompile : s.registry.arena.compile (s.registry.scope state) text = .ok (root, a')) :
    ∃ names, Lexeme.declared text = .ok names ∧
      List.Forall₂ (fun x c =>
          (∃ f, (a'.block c).info = .func f ∧ f.name = x ∧
            (a'.block root).objects.get? x = some (.func c)) ∨
          ∃ k, (a'.block c).info = .contract k ∧ k.name = Name.qualify state.toNat x ∧
            (a'.block root).objects.get? (Name.qualify state.toNat x) = some (.contract c))
        names (a'.block root).children.toList := by
  obtain ⟨names, hnames, hall⟩ := Arena.compile_declared (h.every Block.Spelled.invariant) hcompile
  have htitled := (Arena.compile_titled hcompile).1
  refine ⟨names, hnames, ?_⟩
  obtain ⟨hlen, hall⟩ := List.forall₂_iff_zip.1 hall
  refine List.forall₂_iff_zip.2 ⟨hlen, fun {x c} hin => ?_⟩
  have hbound := htitled c (Array.mem_toList_iff.1 (List.of_mem_zip hin).2)
  rcases hall hin with ⟨f, hf, rfl⟩ | ⟨k, hk, hname⟩
  · have hget := hbound (.func c) (by rw [Block.binding?, hf])
    exact .inl ⟨f, hf, rfl, by simpa only [Block.name, hf] using hget⟩
  · have hget := hbound (.contract c) (by rw [Block.binding?, hk])
    exact .inr ⟨k, hk, hname, by simpa only [Block.name, hk, hname, Registry.scope] using hget⟩

/-- A text that declares a function and a contract, with more braces inside. -/
def functionAndContract : String :=
  "func half(n int) int \x7b return n / 2 \x7d\n" ++
    "contract Pay \x7b data \x7b Amount int \x7d " ++
    "action \x7b $m = \x7b\"a\": 1\x7d half(8) \x7d \x7d"

/-- The two blocks of the text are declared in its order. -/
theorem functionAndContract_declared : Session.new.Reachable ∧ ∃ root a',
    Session.new.registry.arena.compile (Session.new.registry.scope 1) functionAndContract
        = .ok (root, a') ∧
      List.Forall₂ (fun x c =>
          (∃ f, (a'.block c).info = .func f ∧ f.name = x ∧
            (a'.block root).objects.get? x = some (.func c)) ∨
          ∃ k, (a'.block c).info = .contract k ∧ k.name = Name.qualify 1 x ∧
            (a'.block root).objects.get? (Name.qualify 1 x) = some (.contract c))
        ["half", "Pay"] (a'.block root).children.toList := by
  obtain ⟨hcompile, hdeclared⟩ : (Session.new.registry.arena.compile (Session.new.registry.scope 1)
        functionAndContract).toOption.isSome = true ∧
      (Lexeme.declared functionAndContract).toOption = some ["half", "Pay"] := by
    unfold functionAndContract Arena.compile Arena.compileUnit Lexeme.declared Lexeme.read
    simp only [String.toList_append, String.reduceToList]
    decide +kernel
  cases hunit : Session.new.registry.arena.compile (Session.new.registry.scope 1)
      functionAndContract with
  | error e =>
    rw [hunit] at hcompile
    cases hcompile
  | ok p =>
    obtain ⟨names, hnames, hall⟩ := Reachable.declared .start hunit
    rw [hnames] at hdeclared
    cases hdeclared
    exact ⟨.start, p.1, p.2, rfl, hall⟩

end Session

end Covenant
