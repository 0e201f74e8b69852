import Covenant.Proofs.Compile.Declared
import Covenant.Proofs.Compile.Signatures

/-!
# Headers of functions

The header of a function declares lists of parameters: one of the function itself, and one of each
of its chained segments. `SignatureTokens` says which tokens spell a header and what they declare.
The types of all parameters, list after list, are the first variables of the function; a segment
binds its own stretch of them (`placeSegments`).

The compiler goes through a header one token at a time and adds the parameters to the block in
groups of names that share a type (`Agrees.declareAll`). `Spelling` is how far it has come with a
header. One more token of a header declares one more part of the signature (`leads_underway`).
-/

namespace Covenant

/-! ### Signatures -/

/-- A parameter as it is declared. -/
structure Param where
  name : String
  ty : Ty
  /-- Whether `...` stands in place of the type. -/
  tail : Bool

/-- The parameters that a header declares, of the function itself and of its chained segments. -/
structure Signature where
  base : List Param
  segments : List (String × List Param)

namespace Signature

/-- All lists of parameters. -/
def lists (g : Signature) : List (List Param) := g.base :: g.segments.map Prod.snd

/-- The types of all parameters, list after list. -/
def types (g : Signature) : List Ty := g.lists.flatten.map Param.ty

end Signature

/-- Whether the last parameter of a list is declared with `...`. -/
def EndsInTail (ps : List Param) : Prop := ∃ p, ps.getLast? = some p ∧ p.tail = true

/-- A segment with some parameters that binds consecutive slots. -/
def Segment.place (slot : Nat) (ps : List Param) : Segment where
  params := ps.map Param.ty
  offsets := List.range' slot ps.length
  variadic := ps.any Param.tail

/-- Segments that bind the slots from some slot on, one segment after the other. -/
def placeSegments : Nat → List (String × List Param) → List (String × Segment)
  | _, [] => []
  | slot, (x, ps) :: rest => (x, .place slot ps) :: placeSegments (slot + ps.length) rest

/-- The last segment gets the places behind those of all others. -/
theorem placeSegments_concat (slot : Nat) (gs : List (String × List Param)) (x : String)
    (ps : List Param) : placeSegments slot (gs ++ [(x, ps)])
      = placeSegments slot gs ++ [(x, .place (slot + (gs.flatMap Prod.snd).length) ps)] := by
  induction gs generalizing slot with
  | nil => simp [placeSegments]
  | cons g gs ih =>
    obtain ⟨y, qs⟩ := g
    simp [placeSegments, ih, Nat.add_assoc]

/-! ### The grammar of headers -/

/-- Names that wait for their type, with commas between and behind them. -/
inductive NameTokens : List Token → List String → Prop
  | one (x : String) : NameTokens [.ident x] [x]
  | comma {ts : List Token} {xs : List String} : NameTokens ts xs →
    NameTokens (ts ++ [.punct .comma]) xs
  | more {ts : List Token} {xs : List String} (x : String) : NameTokens ts xs →
      NameTokens (ts ++ [.ident x]) (xs ++ [x])

/-- Groups of parameters that share a type, with commas and line ends between and behind them. -/
inductive ParamTokens : List Token → List Param → Prop
  | nil : ParamTokens [] []
  | newline {ts : List Token} {ps : List Param} : ParamTokens ts ps →
    ParamTokens (ts ++ [.newline]) ps
  | comma {ts : List Token} {ps : List Param} : ParamTokens ts ps →
      ParamTokens (ts ++ [.punct .comma]) ps
  | group {ts us : List Token} {ps : List Param} {xs : List String} (t : Ty) : ParamTokens ts ps →
      NameTokens us xs → ParamTokens (ts ++ us ++ [.type t]) (ps ++ xs.map fun x => ⟨x, t, false⟩)

/-- A list of parameters between parentheses, or nothing. A parameter with `...` in place of its
type takes an array, and ends the list. -/
inductive ListTokens : List Token → List Param → Prop
  | none : ListTokens [] []
  | plain {ts : List Token} {ps : List Param} : ParamTokens ts ps →
      ListTokens (.punct .lpar :: ts ++ [.punct .rpar]) ps
  | tail {ts us : List Token} {ps : List Param} {x : String} (lines : Nat) : ParamTokens ts ps →
      NameTokens us [x] → ListTokens (.punct .lpar :: ts ++ us ++ [.keyword .tail] ++
        List.replicate lines .newline ++ [.punct .rpar]) (ps ++ [⟨x, .array, true⟩])

/-- A header behind the name of the function: a list of parameters, types of results, and
segments. -/
inductive SignatureTokens : List Token → Signature → Prop
  | base {ts : List Token} {ps : List Param} : ListTokens ts ps → SignatureTokens ts ⟨ps, []⟩
  | result {ts : List Token} {g : Signature} (t : Ty) : SignatureTokens ts g →
      SignatureTokens (ts ++ [.type t]) g
  | comma {ts : List Token} {g : Signature} : SignatureTokens ts g →
    SignatureTokens (ts ++ [.punct .comma]) g
  | segment {ts us : List Token} {g : Signature} {ps : List Param}
    (x : String) : SignatureTokens ts g →
      ListTokens us ps →
      SignatureTokens (ts ++ [.punct .dot, .ident x] ++ us) ⟨g.base, g.segments ++ [(x, ps)]⟩

/-- A list of no more than one name is one. -/
theorem NameTokens.eq_singleton {ts : List Token} {xs : List String} (h : NameTokens ts xs)
    (hone : xs.length ≤ 1) : ∃ x, xs = [x] := by
  have hpos : 0 < xs.length := by
    induction h with
    | one x => exact Nat.one_pos
    | comma _ ih => exact ih hone
    | more x _ _ => simp
  exact List.length_eq_one_iff.1 (Nat.le_antisymm hone hpos)

/-- Parameters without `...` are not variadic. -/
theorem ParamTokens.tail_eq_false {ts : List Token} {ps : List Param} (h : ParamTokens ts ps) :
    ∀ p ∈ ps, p.tail = false := by
  induction h with
  | nil => exact fun p hp => absurd hp List.not_mem_nil
  | newline _ ih | comma _ ih => exact ih
  | group t _ _ ih =>
    intro p hp
    rcases List.mem_append.1 hp with hold | hnew
    · exact ih p hold
    · obtain ⟨x, -, rfl⟩ := List.mem_map.1 hnew
      rfl

/-- What is known of the parameters of one list: those before the last one have a type of their own,
and one with `...` takes an array. -/
structure TailLast (ps : List Param) : Prop where
  before : ∀ p ∈ ps.dropLast, p.tail = false
  array : ∀ p ∈ ps, p.tail = true → p.ty = .array

/-- In a list of parameters only the last one is. -/
theorem ListTokens.tailLast {ts : List Token} {ps : List Param} (h : ListTokens ts ps) :
    TailLast ps := by
  cases h with
  | none => exact ⟨nofun, nofun⟩
  | plain hps =>
    refine ⟨fun p hp => hps.tail_eq_false p (List.dropLast_subset _ hp), fun p hp htail => ?_⟩
    rw [hps.tail_eq_false p hp] at htail
    cases htail
  | tail lines hps _ =>
    refine ⟨fun p hp => ?_, fun p hp htail => ?_⟩
    · rw [List.dropLast_concat] at hp
      exact hps.tail_eq_false p hp
    · rcases List.mem_append.1 hp with hold | hlast
      · rw [hps.tail_eq_false p hold] at htail
        cases htail
      · rw [List.mem_singleton.1 hlast]

/-- So it is in each list of a signature. -/
theorem SignatureTokens.tailLast {ts : List Token} {g : Signature} (h : SignatureTokens ts g) :
    ∀ ps ∈ g.lists, TailLast ps := by
  induction h with
  | base hps =>
    intro ps hmem
    rw [Signature.lists, List.map_nil, List.mem_singleton] at hmem
    exact hmem ▸ hps.tailLast
  | result _ _ ih | comma _ ih => exact ih
  | segment x _ hps ih =>
    intro ps hmem
    rw [Signature.lists, List.map_append, ← List.cons_append, List.mem_append] at hmem
    rcases hmem with hold | hnew
    · exact ih ps hold
    · rw [List.map_singleton, List.mem_singleton] at hnew
      exact hnew ▸ hps.tailLast

/-- Among parameters of which only the last one may be declared with `...`, one is exactly if the
last one is. -/
theorem TailLast.any_iff {ps : List Param} (h : TailLast ps) :
    ps.any Param.tail = true ↔ EndsInTail ps := by
  rw [List.any_eq_true]
  constructor
  · rintro ⟨p, hp, htail⟩
    rcases List.eq_nil_or_concat ps with rfl | ⟨qs, q, rfl⟩
    · cases hp
    · have hbefore := h.before p
      rw [List.concat_eq_append] at hp hbefore ⊢
      rw [List.dropLast_concat] at hbefore
      refine ⟨q, List.getLast?_concat .., ?_⟩
      rcases List.mem_append.1 hp with hold | hlast
      · rw [hbefore hold] at htail
        cases htail
      · rwa [← List.mem_singleton.1 hlast]
  · rintro ⟨p, hlast, htail⟩
    exact ⟨p, List.mem_of_getLast? hlast, htail⟩

/-! ### What a block has of a signature -/

/-- Whether a function has the signature that is declared. -/
structure Signature.Declares (g : Signature) (f : FuncInfo) : Prop where
  params : f.params = g.base.map Param.ty
  variadic : f.variadic = g.base.any Param.tail
  segments : (f.segments.getD .empty).toList = placeSegments g.base.length g.segments

namespace Compile

/-- Whether a function whose header is being read has what has been declared of it: its variables
are the parameters, and further ones go to the last segment. -/
structure Agrees (g : Signature) (b : Block) (f : FuncInfo) : Prop extends g.Declares f where
  func : b.func? = some f
  chain : f.chain = g.segments.getLast?.map Prod.fst
  vars : b.vars.toList = g.types

/-- Tokens of a header behind which a list of parameters may follow, and what the header declares
with the list. -/
inductive Awaits : List Token → (List Param → Signature) → Prop
  | base : Awaits [] fun ps => ⟨ps, []⟩
  | segment {ts : List Token} {g : Signature} (x : String) : SignatureTokens ts g →
      Awaits (ts ++ [.punct .dot, .ident x]) fun ps => ⟨g.base, g.segments ++ [(x, ps)]⟩

theorem Awaits.closes {ts us : List Token} {k : List Param → Signature} {ps : List Param}
    (h : Awaits ts k) (hps : ListTokens us ps) : SignatureTokens (ts ++ us) (k ps) := by
  cases h with
  | base => exact .base hps
  | segment x hg => exact .segment x hg hps

/-- Declares one parameter in a block. -/
def declareOne (t : Ty) (variadic : Bool) (b : Block) (x : String) : Block :=
  (b.declare x t).modifyFunc fun f => addParam f t b.vars.size variadic

namespace Agrees

variable {ts : List Token} {k : List Param → Signature} {ps : List Param} {b : Block} {f : FuncInfo}

/-- Where a parameter is added to the last entry of a dictionary, the entry is changed in its
place. -/
theorem toList_insert_last {α : Type} {d : Dict α} {es : List (String × α)} {x : String} {v : α}
    (h : d.toList = es ++ [(x, v)]) (u : α) :
    d.get? x = some v ∧ (d.insert x u).toList = es ++ [(x, u)] := by
  have hget : d.get? x = some v := by
    rw [Dict.get?_eq_some_iff, h]
    exact List.mem_append_right _ List.mem_cons_self
  have hdistinct := d.pairwise_toList
  rw [h, List.pairwise_append] at hdistinct
  refine ⟨hget, ?_⟩
  rw [Dict.toList_insert, Dict.contains_eq, hget, h, List.map_append]
  have hes : es.map (fun p => if p.1 = x then (x, u) else p) = es := by
    refine (List.map_congr_left fun p hp => ?_).trans (List.map_id es)
    exact if_neg (hdistinct.2.2 p hp _ (List.mem_singleton.2 rfl))
  simp [hes]

theorem types_concat (hk : Awaits ts k) (p : Param) :
    (k (ps ++ [p])).types = (k ps).types ++ [p.ty] := by
  cases hk <;> simp [Signature.types, Signature.lists]

/-- A parameter that is added to what has been declared becomes the last one of the list that is
open. -/
theorem addParam (hk : Awaits ts k) (h : Agrees (k ps) b f) (x : String)
    (t : Ty) (variadic : Bool) :
    (k (ps ++ [⟨x, t, variadic⟩])).Declares (addParam f t b.vars.size variadic) ∧
      (Compile.addParam f t b.vars.size variadic).chain
        = (k (ps ++ [⟨x, t, variadic⟩])).segments.getLast?.map Prod.fst := by
  have hsize : b.vars.size = (k ps).types.length := by rw [← h.vars, Array.length_toList]
  cases hk with
  | base =>
    have hchain : f.chain = none := h.chain
    unfold Compile.addParam
    rw [hchain]
    exact ⟨⟨by simp [h.params], by simp [h.variadic], h.segments⟩, rfl⟩
  | @segment ts g c hg =>
    have hchain : f.chain = some c := by simpa using h.chain
    -- the segment that is being read is the last one, and its
    -- parameters have the places behind all others
    have hplaced : (f.segments.getD .empty).toList = placeSegments g.base.length g.segments
        ++ [(c, .place (g.base.length + (g.segments.flatMap Prod.snd).length) ps)] := by
      rw [← placeSegments_concat]
      exact h.segments
    have hslot : b.vars.size = g.base.length + (g.segments.flatMap Prod.snd).length
      + ps.length := by
      rw [hsize]
      simp [Signature.types, Signature.lists, Nat.add_assoc, List.flatMap, Function.comp_def]
    have hadded : Segment.addParam
      (.place (g.base.length + (g.segments.flatMap Prod.snd).length) ps) t
        b.vars.size variadic = .place (g.base.length + (g.segments.flatMap Prod.snd).length)
          (ps ++ [⟨x, t, variadic⟩]) := by
      simp [Segment.addParam, Segment.place, hslot, List.range'_1_concat]
    obtain ⟨hget, hinsert⟩ := toList_insert_last hplaced
      (.place (g.base.length + (g.segments.flatMap Prod.snd).length) (ps ++ [⟨x, t, variadic⟩]))
    unfold Compile.addParam
    rw [hchain]
    dsimp only
    rw [hget, Option.getD_some, hadded]
    refine ⟨⟨h.params, h.variadic, ?_⟩, by simp⟩
    rw [Option.getD_some, hinsert, placeSegments_concat]

/-- **A parameter that is declared becomes the last one of the list that is open**, and a
variable. -/
theorem declareOne (hk : Awaits ts k) (h : Agrees (k ps) b f) (x : String)
    (t : Ty) (variadic : Bool) :
    Agrees (k (ps ++ [⟨x, t, variadic⟩])) (declareOne t variadic b x)
      (Compile.addParam f t b.vars.size variadic) := by
  obtain ⟨hdeclares, hchain⟩ := h.addParam hk x t variadic
  have hfunc := h.func
  have hvars := h.vars
  obtain ⟨parent, info, objects, vars, code, children⟩ := b
  cases info with
  | func i =>
    cases hfunc
    refine ⟨hdeclares, rfl, hchain, ?_⟩
    rw [types_concat hk, ← hvars]
    exact Array.toList_push ..
  | plain | contract => cases hfunc

/-- Parameters that share a type are declared one after the other. -/
theorem declareAll (hk : Awaits ts k) (h : Agrees (k ps) b f) (t : Ty) (variadic : Bool)
    (xs : List String) : ∃ f', f'.name = f.name ∧
      Agrees (k (ps ++ xs.map fun x => ⟨x, t, variadic⟩))
      (xs.foldl (Compile.declareOne t variadic) b) f' := by
  induction xs generalizing ps b f with
  | nil => exact ⟨f, rfl, by rwa [List.map_nil, List.append_nil]⟩
  | cons x xs ih =>
    obtain ⟨f', hname, hagrees⟩ := ih (h.declareOne hk x t variadic)
    refine ⟨f', hname.trans (addParam_name ..), ?_⟩
    rwa [List.append_assoc] at hagrees

/-- A segment with a new name is the last one, and its list of parameters is open. -/
theorem segment {g : Signature} (h : Agrees g b f) {x : String}
    (hx : (f.segments.getD .empty).contains x = false) :
    Agrees ⟨g.base, g.segments ++ [(x, [])]⟩
      (b.modifyFunc fun i => { i with
        segments := some ((f.segments.getD .empty).insert x {}), chain := some x })
      { f with segments := some ((f.segments.getD .empty).insert x {}), chain := some x } := by
  have hfunc := h.func
  have hvars := h.vars
  obtain ⟨parent, info, objects, vars, code, children⟩ := b
  cases info with
  | func i =>
    cases hfunc
    refine ⟨⟨h.params, h.variadic, ?_⟩, rfl, by simp, hvars.trans ?_⟩
    · rw [Option.getD_some, Dict.toList_insert, hx, h.segments, placeSegments_concat]
      rfl
    · simp [Signature.types, Signature.lists]
  | plain | contract => cases hfunc

/-- Types of results are no parameters. -/
theorem result {g : Signature} (h : Agrees g b f) (t : Ty) :
    Agrees g (b.modifyFunc fun i => { i with results := i.results ++ [t] })
      { f with results := f.results ++ [t] } := by
  have hfunc := h.func
  obtain ⟨parent, info, objects, vars, code, children⟩ := b
  cases info with
  | func i =>
    cases hfunc
    exact ⟨⟨h.params, h.variadic, h.segments⟩, rfl, h.chain, h.vars⟩
  | plain | contract => cases hfunc

end Agrees

/-! ### How far a header has been read -/

/-- Whether a state is one in which a header is read, or the way to the brace behind it. -/
def inHeader : Grammar.State → Bool
  | .funcParams | .funcParam | .funcParamType | .funcTail | .funcResult | .funcDot | .block => true
  | _ => false

/-- What the tokens of a header behind the name have declared in a state, and which names wait. -/
inductive Spelling : Grammar.State → List Token → Signature → List String → Prop
  | list {ts : List Token} {k : List Param → Signature} : Awaits ts k →
  Spelling .funcParams ts (k []) []
  | params {ts us : List Token} {k : List Param → Signature} {ps : List Param} : Awaits ts k →
      ParamTokens us ps → Spelling .funcParam (ts ++ (.punct .lpar :: us)) (k ps) []
  | names {ts us vs : List Token} {k : List Param → Signature}
    {ps : List Param} {xs : List String} :
      Awaits ts k → ParamTokens us ps → NameTokens vs xs →
      Spelling .funcParamType (ts ++ (.punct .lpar :: us ++ vs)) (k ps) xs
  | tail {ts us vs : List Token} {k : List Param → Signature} {ps : List Param} {x : String}
      (lines : Nat) : Awaits ts k → ParamTokens us ps → NameTokens vs [x] →
      Spelling .funcTail
      (ts ++ (.punct .lpar :: us ++ vs ++ [.keyword .tail] ++ List.replicate lines .newline))
        (k (ps ++ [⟨x, .array, true⟩])) []
  | results {ts : List Token} {g : Signature} : SignatureTokens ts g → Spelling .funcResult ts g []
  | dot {ts : List Token} {g : Signature} : SignatureTokens ts g →
      Spelling .funcDot (ts ++ [.punct .dot]) g []
  | lines {ts : List Token} {g : Signature} (lines : Nat) : SignatureTokens ts g →
      Spelling .block (ts ++ List.replicate lines .newline) g []

/-- The entries of the table for the states of a header. -/
inductive HeaderEntry : Grammar.State → Kind → Grammar.State → Grammar.Flags → Grammar.Action → Prop
  | opens : HeaderEntry .funcParams (.punct .lpar) .funcParam {} .none
  | noList {k : Kind} : HeaderEntry .funcParams k .funcResult { stay := true } .none
  | newline : HeaderEntry .funcParam .newline .funcParam {} .none
  | comma : HeaderEntry .funcParam (.punct .comma) .funcParam {} .none
  | first : HeaderEntry .funcParam .ident .funcParamType {} .param
  | closes : HeaderEntry .funcParam (.punct .rpar) .funcResult {} .none
  | more : HeaderEntry .funcParamType .ident .funcParamType {} .param
  | moreComma : HeaderEntry .funcParamType (.punct .comma) .funcParamType {} .none
  | type : HeaderEntry .funcParamType .type .funcParam {} .paramType
  | tail : HeaderEntry .funcParamType (.keyword .tail) .funcTail {} .paramTail
  | tailLine : HeaderEntry .funcTail .newline .funcTail {} .none
  | tailCloses : HeaderEntry .funcTail (.punct .rpar) .funcResult {} .none
  | dot : HeaderEntry .funcResult (.punct .dot) .funcDot {} .none
  | result : HeaderEntry .funcResult .type .funcResult {} .result
  | resultComma : HeaderEntry .funcResult (.punct .comma) .funcResult {} .none
  | noDot {k : Kind} : HeaderEntry .funcResult k .block { stay := true } .none
  | segment : HeaderEntry .funcDot .ident .funcParams {} .segment
  | line : HeaderEntry .block .newline .block {} .none
  | brace : HeaderEntry .block (.punct .lcurly) .body {} .none

/-- The entries of the grammar within a header. -/
theorem headerEntry_of_entry {st next : Grammar.State} {k : Kind} {f : Grammar.Flags}
    {a : Grammar.Action} (h : Grammar.entry st k = .go next f a) (hst : inHeader st = true) :
    HeaderEntry st k next f a := by
  unfold Grammar.entry at h
  cases hrow : Grammar.row st k with
  | some e =>
    rw [hrow] at h
    obtain rfl : e = .go next f a := h
    unfold Grammar.row at hrow
    split at hrow <;> cases hrow
    all_goals first | constructor | exact absurd hst (by decide)
  | none =>
    rw [hrow] at h
    cases st <;> cases h
    all_goals first | constructor | exact absurd hst (by decide)

/-- An entry for a state of a header reads the token, or leaves it to the next state. -/
theorem HeaderEntry.flags {st next : Grammar.State} {k : Kind} {f : Grammar.Flags}
    {a : Grammar.Action} (h : HeaderEntry st k next f a) :
    (next ≠ .eval ∧ next ≠ .func ∧ next ≠ .contract) ∧
      (next = .body ∧ st = .block ∧ k = .punct .lcurly ∧ a = .none ∨ inHeader next = true) ∧
      (f = {} ∨ f = { stay := true } ∧ a = .none ∧ inHeader next = true) := by
  cases h <;> simp [inHeader]

/-- A kind tells the token apart from what the token holds. -/
theorem Source.token?_of_kind? {s : Source} {i : Nat} {k : Kind} (h : s.kind? i = some k) :
    ∃ t, s.token? i = some t ∧ t.kind = k := by
  obtain ⟨l, hl, rfl⟩ := Option.map_eq_some_iff.1 h
  exact ⟨l.token, by rw [token?, hl, Option.map_some], rfl⟩

theorem Source.token?_of_kind?_keyword {s : Source} {i : Nat} {k : Keyword}
    (h : s.kind? i = some (.keyword k)) : s.token? i = some (.keyword k) := by
  obtain ⟨t, ht, hkind⟩ := token?_of_kind? h
  cases t with
  | keyword q => exact ht.trans (congrArg (some ∘ Token.keyword) (Kind.keyword.inj hkind))
  | const c => cases c <;> cases hkind
  | _ => cases hkind

theorem Source.token?_of_kind?_newline {s : Source} {i : Nat} (h : s.kind? i = some .newline) :
    s.token? i = some .newline := by
  obtain ⟨t, ht, hkind⟩ := token?_of_kind? h
  cases t with
  | newline => exact ht
  | const c => cases c <;> cases hkind
  | _ => cases hkind

theorem Source.token?_of_kind?_type {s : Source} {i : Nat} (h : s.kind? i = some .type) :
    s.token? i = some (.type (typeAt s i)) := by
  obtain ⟨t, ht, hkind⟩ := token?_of_kind? h
  cases t with
  | type t => rw [typeAt, ht]
  | const c => cases c <;> cases hkind
  | _ => cases hkind

/-- The tokens from a position on. -/
def Source.tokensFrom (s : Source) (i : Nat) : List Token := (s.ahead i).map Lexeme.token

/-- What has been read in front of the tokens from a position on goes on with the next one. -/
theorem Source.tokens_next {s : Source} {i : Nat} {t : Token} {header ts : List Token}
    (h : header = ts ++ s.tokensFrom i) (ht : s.token? i = some t) :
    header = (ts ++ [t]) ++ s.tokensFrom (i + 1) := by
  obtain ⟨l, rfl, hahead⟩ := ahead_of_token? ht
  rw [h, tokensFrom, hahead, List.map_cons, List.append_assoc, List.singleton_append, tokensFrom]

/-! ### Actions of a header -/

section actions

variable {s : Source} {w : Work} {i : Nat} {header : List Token}

theorem leads_param : Leads w (act s .param i) fun _ w' =>
    w' = { w with pending := w.pending ++ [s.name i] } :=
  .get (.ite (fun _ => .throw_bind _) fun _ => .set rfl)

theorem leads_result {t : Ty} (ht : s.token? i = some (.type t)) :
    Leads w (act s .result i) fun _ w' =>
    w' = w.modifyTop fun b => b.modifyFunc fun f => { f with results := f.results ++ [t] } := by
  unfold act result
  dsimp only
  rw [ht]
  exact .modify rfl

/-- A segment that is read is a new one of the function. -/
theorem leads_segment {f : FuncInfo} (hf : (w.block w.top).func? = some f) :
    Leads w (act s .segment i) fun _ w' => (f.segments.getD .empty).contains (s.name i) = false ∧
      w' = w.modifyTop fun b => b.modifyFunc fun g => { g with
        segments := some ((f.segments.getD .empty).insert (s.name i) {}), chain :=
          some (s.name i) } := by
  refine .get ?_
  dsimp only
  rw [hf]
  exact .ite (fun _ => .throw_bind _) fun hnew => .set ⟨by simpa using hnew, rfl⟩

theorem leads_declareParam (t : Ty) (variadic : Bool) (x : String) :
    Leads w (declareParam s t variadic i x) fun _ w' =>
      w' = w.modifyTop fun b => declareOne t variadic b x := by
  refine .get (.bind (P := fun _ w' => w' = w.modifyTop fun b => declareOne t variadic b x)
    (.set (Work.modifyBlock_congr rfl)) fun _ w' hw' => ?_)
  exact .ite (fun _ => .throw _) fun _ => .pure hw'

/-- Parameters are declared as by one function after the other. -/
theorem leads_declareEach (t : Ty) (variadic : Bool) (xs : List String) :
    Leads w (xs.forM (declareParam s t variadic i)) fun _ w' =>
      w' = w.modifyTop fun b => xs.foldl (declareOne t variadic) b := by
  induction xs generalizing w with
  | nil =>
    refine .pure ?_
    show w = { w with arena := w.arena.modify w.top fun b => b }
    rw [Arena.modify_self]
  | cons x xs ih =>
    refine .bind (leads_declareParam t variadic x) fun _ w' hw' u w'' hrun => ?_
    have hrest := ih u w'' hrun
    rw [hrest, hw']
    exact Work.modifyBlock_modifyBlock ..

/-- At most one parameter shares the place of its type with `...`. -/
theorem leads_declareParams (t : Ty) (variadic : Bool) :
    Leads w (declareParams s t variadic i) fun _ w' => (variadic = true → w.pending.length ≤ 1) ∧
      w' = Work.modifyTop { w with pending := [] } fun b =>
      w.pending.foldl (declareOne t variadic) b := by
  refine .get (.bind (P := fun _ w' => w' = { w with pending := [] }) (.set rfl) fun _ w' hw' => ?_)
  subst hw'
  refine .ite (fun _ => .throw_bind _) fun hone u w' hrun => ⟨fun hvariadic => ?_, ?_⟩
  · simpa [hvariadic] using hone
  · exact leads_declareEach t variadic w.pending u w' hrun

/-- Whether a function whose header is being read has what the tokens before a position have
declared, from its keyword on. -/
def Underway (s : Source) (header : List Token) (st : Grammar.State)
    (i : Nat) (pending : List String) (b : Block) (f : FuncInfo) : Prop :=
  ∃ ts g, header = .keyword .func :: .ident f.name :: ts ++ s.tokensFrom i ∧
    Spelling st ts g pending ∧
    Agrees g b f

theorem Underway.func {st : Grammar.State} {pending : List String} {b : Block} {f : FuncInfo}
    (h : Underway s header st i pending b f) : b.func? = some f := by
  obtain ⟨_, _, -, -, hagrees⟩ := h
  exact hagrees.func

/-- Where the innermost block is changed, it is the one that is changed. -/
theorem block_modifyTop (htop : w.top < w.arena.size) (f : Block → Block) :
    (w.modifyTop f).block (w.modifyTop f).top = f (w.block w.top) :=
  Work.block_modifyBlock_self htop f

/-- **One token of a header**: what it declares is what its action adds to the block. -/
theorem leads_underway {st next : Grammar.State} {k : Kind} {a : Grammar.Action} {f : FuncInfo}
    (hentry : HeaderEntry st k next {} a) (hbody : next ≠ .body) (hk : s.kind? i = some k)
    (htop : w.top < w.arena.size) (h : Underway s header st i w.pending (w.block w.top) f) :
    Leads w (act s a i) fun _ w' => ∃ f', Underway s header next (i + 1) w'.pending
    (w'.block w'.top) f' := by
  obtain ⟨ts, g, hread, hspell, hagrees⟩ := h
  -- a token that changes nothing but how far the header has come
  have hpass : ∀ {t : Token} {st' : Grammar.State}, s.token? i = some t →
      Spelling st' (ts ++ [t]) g w.pending → Leads w (act s .none i) fun _ w' =>
        ∃ f', Underway s header st' (i + 1) w'.pending (w'.block w'.top) f' := fun ht hspell' =>
    .pure ⟨f, _, g, Source.tokens_next hread ht, hspell', hagrees⟩
  -- a name that waits
  have hname : s.kind? i = some .ident → Spelling .funcParamType (ts ++ [.ident (s.name i)]) g
      (w.pending ++ [s.name i]) → Leads w (act s .param i) fun _ w' =>
        ∃ f', Underway s header .funcParamType (i + 1) w'.pending (w'.block w'.top) f' := by
    intro hident hspell' u w' hrun
    obtain rfl := leads_param u w' hrun
    exact ⟨f, _, g, Source.tokens_next hread (Source.token?_of_kind?_ident hident),
      hspell', hagrees⟩
  have htop' : ({ w with pending := [] } : Work).top
    < ({ w with pending := [] } : Work).arena.size := htop
  generalize hpending : w.pending = pending at hspell hpass hname
  cases hentry with
  | opens =>
    cases hspell with
    | list hk' => exact hpass (Source.token?_of_kind?_punct hk) (.params hk' .nil)
  | newline =>
    cases hspell with
    | params hk' hps =>
      refine hpass (Source.token?_of_kind?_newline hk) ?_
      simpa using Spelling.params hk' hps.newline
  | comma =>
    cases hspell with
    | params hk' hps =>
      refine hpass (Source.token?_of_kind?_punct hk) ?_
      simpa using Spelling.params hk' hps.comma
  | first =>
    cases hspell with
    | params hk' hps =>
      refine hname hk ?_
      simpa using Spelling.names hk' hps (.one (s.name i))
  | closes =>
    cases hspell with
    | params hk' hps =>
      refine hpass (Source.token?_of_kind?_punct hk) ?_
      simpa using Spelling.results (hk'.closes (.plain hps))
  | more =>
    cases hspell with
    | names hk' hps hxs =>
      refine hname hk ?_
      simpa using Spelling.names hk' hps (.more (s.name i) hxs)
  | moreComma =>
    cases hspell with
    | names hk' hps hxs =>
      refine hpass (Source.token?_of_kind?_punct hk) ?_
      simpa using Spelling.names hk' hps hxs.comma
  | type =>
    cases hspell with
    | names hk' hps hxs =>
      intro u w' hrun
      obtain ⟨-, rfl⟩ := leads_declareParams (typeAt s i) false u w' hrun
      obtain ⟨f', hname', hagrees'⟩ := hagrees.declareAll hk' (typeAt s i) false w.pending
      have hread' := Source.tokens_next hread (Source.token?_of_kind?_type hk)
      rw [← hname'] at hread'
      rw [hpending] at hagrees' ⊢
      refine ⟨f', _, _, hread', ?_, by rw [block_modifyTop htop']; exact hagrees'⟩
      show Spelling _ _ _ []
      simpa using Spelling.params hk' (.group (typeAt s i) hps hxs)
  | tail =>
    cases hspell with
    | names hk' hps hxs =>
      intro u w' hrun
      obtain ⟨hone, rfl⟩ := leads_declareParams .array true u w' hrun
      obtain ⟨f', hname', hagrees'⟩ := hagrees.declareAll hk' .array true w.pending
      obtain ⟨x, rfl⟩ := hxs.eq_singleton (hpending ▸ hone rfl)
      have hread' := Source.tokens_next hread (Source.token?_of_kind?_keyword hk)
      rw [← hname'] at hread'
      rw [hpending] at hagrees' ⊢
      refine ⟨f', _, _, hread', ?_, by rw [block_modifyTop htop']; exact hagrees'⟩
      show Spelling _ _ _ []
      simpa using Spelling.tail 0 hk' hps hxs
  | tailLine =>
    cases hspell with
    | tail lines hk' hps hx =>
      refine hpass (Source.token?_of_kind?_newline hk) ?_
      simpa [List.replicate_succ'] using Spelling.tail (lines + 1) hk' hps hx
  | tailCloses =>
    cases hspell with
    | tail lines hk' hps hx =>
      refine hpass (Source.token?_of_kind?_punct hk) ?_
      simpa using Spelling.results (hk'.closes (.tail lines hps hx))
  | dot =>
    cases hspell with
    | results hg => exact hpass (Source.token?_of_kind?_punct hk) (.dot hg)
  | result =>
    cases hspell with
    | results hg =>
      have ht := Source.token?_of_kind?_type hk
      intro u w' hrun
      obtain rfl := leads_result ht u w' hrun
      refine ⟨{ f with results := f.results ++ [typeAt s i] }, _, g,
        Source.tokens_next hread ht, ?_, by
          rw [block_modifyTop htop]; exact hagrees.result (typeAt s i)⟩
      rw [Work.modifyTop, Work.pending_modifyBlock, hpending]
      exact .results (.result _ hg)
  | resultComma =>
    cases hspell with
    | results hg => exact hpass (Source.token?_of_kind?_punct hk) (.results hg.comma)
  | segment =>
    cases hspell with
    | @dot ts g hg =>
      intro u w' hrun
      obtain ⟨hnew, rfl⟩ := leads_segment hagrees.func u w' hrun
      refine ⟨{ f with
        segments := some ((f.segments.getD .empty).insert (s.name i) {}), chain :=
          some (s.name i) }, _, _,
        Source.tokens_next hread (Source.token?_of_kind?_ident hk), ?_,
        by rw [block_modifyTop htop]; exact hagrees.segment hnew⟩
      rw [Work.modifyTop, Work.pending_modifyBlock, hpending]
      simpa using Spelling.list (.segment (s.name i) hg)
  | line =>
    cases hspell with
    | lines n hg =>
      refine hpass (Source.token?_of_kind?_newline hk) ?_
      simpa [List.replicate_succ'] using Spelling.lines (n + 1) hg
  | brace => exact absurd rfl hbody

/-- A header that leaves the token to the next state goes on without it. -/
theorem Underway.stays {st next : Grammar.State} {k : Kind} {a : Grammar.Action}
    {pending : List String} {b : Block} {f : FuncInfo}
    (hentry : HeaderEntry st k next { stay := true } a) (h : Underway s header st i pending b f) :
    Underway s header next i pending b f := by
  obtain ⟨ts, g, hread, hspell, hagrees⟩ := h
  refine ⟨ts, g, hread, ?_, hagrees⟩
  cases hentry with
  | noList =>
    cases hspell with
    | list hk => simpa using Spelling.results (hk.closes .none)
  | noDot =>
    cases hspell with
    | results hg => simpa using Spelling.lines 0 hg

/-- Whether only the innermost block has changed, and if it is no function, only what no header
declares. -/
structure Retouched (w w' : Work) : Prop where
  top : w'.top = w.top
  others : ∀ id ≠ w.top, (w.block id).Extends (w'.block id)
  plain : (w.block w.top).func? = none → w.Grown w'

namespace Retouched

variable {w' : Work}

theorem of_arena (htop : w'.top = w.top) (harena : w'.arena = w.arena) : Retouched w w' :=
  ⟨htop, fun id _ => Work.Grown.of_arena harena id, fun _ => .of_arena harena⟩

theorem modifyTop {f : Block → Block} (hf : ∀ b : Block, b.func? = none → b.Extends (f b)) :
    Retouched w (w.modifyTop f) := by
  refine ⟨rfl, fun id hid => ?_, fun hnone => .modify (hf _ hnone)⟩
  rw [Work.modifyTop, Work.block_modifyBlock_of_ne _ hid.symm]
  exact .refl _

end Retouched

theorem extends_modifyFunc {b : Block} (h : b.func? = none) (f : FuncInfo → FuncInfo) :
    b.Extends (b.modifyFunc f) := by
  obtain ⟨_, info, _, _, _, _⟩ := b
  cases info with
  | func => cases h
  | plain | contract => exact .refl _

/-- A block with declared parameters extends the block without. -/
theorem extends_declareEach {b : Block} (h : b.func? = none) (t : Ty)
    (variadic : Bool) (xs : List String) :
    b.Extends (xs.foldl (declareOne t variadic) b) := by
  induction xs generalizing b with
  | nil => exact .refl b
  | cons x xs ih =>
    have hfunc : (b.declare x t).func? = none := h
    have hdeclared : b.Extends (declareOne t variadic b x) :=
      (Block.Extends.declare b x t).trans (extends_modifyFunc hfunc _)
    have hnone : (declareOne t variadic b x).func? = none := by
      have hheading := hdeclared.heading
      rw [h] at hheading
      exact Option.map_eq_none_iff.1 hheading
    exact hdeclared.trans (ih hnone)

/-- Parameters change nothing but the innermost block. -/
theorem retouched_declareParams (t : Ty) (variadic : Bool) :
    Leads w (declareParams s t variadic i) fun _ w' => Retouched w w' := by
  intro u w' hrun
  obtain ⟨-, rfl⟩ := leads_declareParams t variadic u w' hrun
  have h : Retouched { w with pending := [] } (Work.modifyTop { w with pending := [] } fun b =>
      w.pending.foldl (declareOne t variadic) b) :=
    .modifyTop fun b hb => extends_declareEach hb t variadic _
  exact ⟨h.top, h.others, h.plain⟩

/-- The actions of a header change the innermost block only. -/
theorem retouched_header {st next : Grammar.State} {k : Kind} {a : Grammar.Action}
    (hentry : HeaderEntry st k next {} a) : Leads w (act s a i) fun _ w' => Retouched w w' := by
  cases hentry with
  | first | more =>
    intro u w' hrun
    obtain rfl := leads_param u w' hrun
    exact .of_arena rfl rfl
  | type => exact retouched_declareParams _ _
  | tail => exact retouched_declareParams _ _
  | result =>
    unfold act result
    dsimp only
    split
    · exact .modify (.modifyTop fun _ hb => extends_modifyFunc hb _)
    · exact .pure (.of_arena rfl rfl)
  | segment =>
    refine .get ?_
    dsimp only
    split
    · exact .pure (.of_arena rfl rfl)
    · exact .ite (fun _ => .throw_bind _) fun _ =>
        .set (.modifyTop fun _ hb => extends_modifyFunc hb _)
  | _ => exact .pure (.of_arena rfl rfl)

end actions

end Compile

end Covenant
