import Covenant.Proofs.Compile.Bounds
import Covenant.Proofs.Structured.Blocks

/-!
# Data sections

A data section is lines between braces: names with commas between them, a type, and possibly a tag,
or nothing at all. `DataSection` says which tokens spell a section and which fields it declares.

The compiler goes through a section token by token and adds a field as soon as it has read a name;
the fields of a line wait for their type and their tag. `LineState` is how far the current line has
come. Following the tokens in this way (`LineState.parse`) accepts what spells a section and nothing
else, and gives its fields (`parse_start_iff`); the compiler does the same to the innermost block,
one token at a time (`advance_next`). The main statement is `readAll_dataSection`.
-/

namespace Covenant

/-- Whether a token can stand between the braces of a data section. -/
def Token.inDataSection : Token → Bool
  | .newline | .punct .comma | .ident _ | .type _ | .const (.str _) => true
  | _ => false

namespace Compile

open Covenant.Computation Structured

/-! ### The grammar of a section -/

/-- The names on a line of a data section. None of them belongs to the node. -/
@[ext]
structure FieldNames where
  first : String
  more : List String
  free : ∀ x ∈ first :: more, Name.isSystem x = false

namespace FieldNames

def single (x : String) (h : Name.isSystem x = false) : FieldNames :=
  ⟨x, [], fun _ hy => List.mem_singleton.1 hy ▸ h⟩

/-- Adds a name behind the others. -/
def add (ns : FieldNames) (x : String) (h : Name.isSystem x = false) : FieldNames :=
  ⟨ns.first, ns.more ++ [x], fun y hy => by
    rw [← List.cons_append, List.mem_append, List.mem_singleton] at hy
    exact hy.elim (ns.free y) fun hx => hx ▸ h⟩

def list (ns : FieldNames) : List String := ns.first :: ns.more

/-- The names with commas between them. -/
def tokens (ns : FieldNames) : List Token :=
  .ident ns.first :: ns.more.flatMap fun x => [.punct .comma, .ident x]

end FieldNames

/-- A line of a data section. -/
structure DataLine where
  names : FieldNames
  ty : Ty
  tag : Option String := none

namespace DataLine

def tokens (l : DataLine) : List Token :=
  l.names.tokens ++ .type l.ty :: (l.tag.map fun t => Token.const (.str t)).toList

/-- The fields that the line declares, one for each name. -/
def fields (l : DataLine) : List Field :=
  l.names.list.map fun x => { name := x, ty := l.ty, typeId := l.ty.id, tags := l.tag.getD "" }

/-- The tokens of a line that may be empty. -/
def tokensOf (l : Option DataLine) : List Token := (l.map tokens).getD []

/-- The fields of a line that may be empty. -/
def fieldsOf (l : Option DataLine) : List Field := (l.map fields).getD []

end DataLine

/-- What tokens between the braces of a data section declare: a section is its last line, or a line
and behind it, on the next one, a section. -/
inductive DataSection : List Token → List Field → Prop
  | last (l : Option DataLine) : DataSection (DataLine.tokensOf l) (DataLine.fieldsOf l)
  | line (l : Option DataLine) {ts : List Token} {fs : List Field} : DataSection ts fs →
      DataSection (DataLine.tokensOf l ++ .newline :: ts) (DataLine.fieldsOf l ++ fs)

/-! ### One token after the other -/

/-- How far the line of a data section has come, with what has been read of it. -/
inductive LineState where
  | start
  | names (ns : FieldNames)
  | comma (ns : FieldNames)
  | line (l : DataLine)

namespace LineState

/-- The step the compiler is at. -/
def step : LineState → FieldStep
  | start => .start
  | names _ => .name
  | comma _ => .comma
  | line l => if l.tag.isNone then .type else .tag

/-- What has been read of the line. -/
def tokens : LineState → List Token
  | start => []
  | names ns => ns.tokens
  | comma ns => ns.tokens ++ [.punct .comma]
  | line l => l.tokens

/-- The fields that the line has added so far. -/
def fields : LineState → List Field
  | start => []
  | names ns | comma ns => ns.list.map fun x => { name := x }
  | line l => l.fields

/-- The fields of the line if it may end here. -/
def complete? : LineState → Option (List Field)
  | start => some []
  | line l => some l.fields
  | _ => none

/-- What a token leads to: fields of lines that have ended, and how far the line has come. -/
def next : LineState → Token → Option (List Field × LineState)
  | start, .ident x => if h : Name.isSystem x = false then some ([], names (.single x h)) else none
  | comma ns, .ident x => if h : Name.isSystem x = false then some ([],
    names (ns.add x h)) else none
  | names ns, .punct .comma => some ([], comma ns)
  | names ns, .type t => some ([], line { names := ns, ty := t })
  | line l, .const (.str t) =>
    if l.tag.isNone then some ([], line { l with tag := some t }) else none
  | p, .newline => p.complete?.map fun fs => (fs, start)
  | _, _ => none

/-- The fields that tokens declare up to the closing brace. -/
def parse (p : LineState) : List Token → Option (List Field)
  | [] => p.complete?
  | t :: ts =>
    match p.next t with
    | none => none
    | some (fs, p') => (p'.parse ts).map (fs ++ ·)

variable {p p' : LineState} {t : Token} {ts : List Token} {fs gs : List Field}

/-- A line that may end here is one. -/
theorem exists_of_complete? (h : p.complete? = some fs) :
    ∃ l, p.tokens = DataLine.tokensOf l ∧ fs = DataLine.fieldsOf l := by
  cases p with
  | start => exact ⟨none, rfl, (Option.some.inj h).symm⟩
  | line l => exact ⟨some l, rfl, (Option.some.inj h).symm⟩
  | names | comma => cases h

/-- A token ends the line, or it is read behind what has been read of the line. -/
theorem next_eq_some (h : p.next t = some (fs, p')) :
    (t = .newline ∧ p' = start ∧ p.complete? = some fs) ∨
      (fs = [] ∧ p'.tokens = p.tokens ++ [t]) := by
  unfold next at h
  split at h
  · split at h <;> cases h
    exact .inr ⟨rfl, rfl⟩
  · split at h <;> cases h
    exact .inr ⟨rfl, by simp [tokens, FieldNames.tokens, FieldNames.add]⟩
  · cases h
    exact .inr ⟨rfl, rfl⟩
  · cases h
    exact .inr ⟨rfl, by simp [tokens, DataLine.tokens]⟩
  · split at h <;> cases h
    rename_i l u hnone
    exact .inr ⟨rfl, by simp [tokens, DataLine.tokens, Option.isNone_iff_eq_none.1 hnone]⟩
  · obtain ⟨gs, hgs, heq⟩ := Option.map_eq_some_iff.1 h
    cases heq
    exact .inl ⟨rfl, rfl, hgs⟩
  · cases h

/-- Tokens that are accepted spell a section, together with what has been read of its first line. -/
theorem dataSection_of_parse (h : p.parse ts = some gs) : DataSection (p.tokens ++ ts) gs := by
  induction ts generalizing p gs with
  | nil =>
    obtain ⟨l, htokens, rfl⟩ := exists_of_complete? h
    rw [List.append_nil, htokens]
    exact .last l
  | cons t ts ih =>
    rw [parse] at h
    split at h
    · cases h
    · rename_i fs p' hnext
      obtain ⟨rest, hrest, rfl⟩ := Option.map_eq_some_iff.1 h
      have hsection := ih hrest
      rcases next_eq_some hnext with ⟨rfl, rfl, hcomplete⟩ | ⟨rfl, htokens⟩
      · obtain ⟨l, hl, rfl⟩ := exists_of_complete? hcomplete
        rw [hl]
        exact .line l hsection
      · rwa [htokens, List.append_assoc] at hsection

/-- Further names are read behind those of the line. -/
theorem parse_more (ns ns' : FieldNames) {more : List String} (hfirst : ns'.first = ns.first)
    (hmore : ns'.more = ns.more ++ more) (ts : List Token) :
    (names ns).parse ((more.flatMap fun x => [.punct .comma, .ident x]) ++ ts)
      = (names ns').parse ts := by
  induction more generalizing ns with
  | nil =>
    obtain rfl : ns' = ns := FieldNames.ext hfirst (hmore.trans (List.append_nil _))
    rfl
  | cons x more ih =>
    have hx : Name.isSystem x = false := ns'.free x (by simp [hmore])
    rw [List.flatMap_cons, List.append_assoc,
      ← ih (ns.add x hx) hfirst (by simp [hmore, FieldNames.add])]
    simp [parse, next, hx]

/-- A line is parsed to its fields, whatever comes behind it. -/
theorem parse_tokensOf (l : Option DataLine) (ts : List Token) :
    ∃ p : LineState, p.complete? = some (DataLine.fieldsOf l) ∧
      start.parse (DataLine.tokensOf l ++ ts) = p.parse ts := by
  cases l with
  | none => exact ⟨start, rfl, rfl⟩
  | some l =>
    refine ⟨line l, rfl, ?_⟩
    obtain ⟨ns, ty, tag⟩ := l
    have hfirst : Name.isSystem ns.first = false := ns.free _ List.mem_cons_self
    calc start.parse (ns.tokens ++ .type ty :: (tag.map fun t => Token.const (.str t)).toList ++ ts)
        = (names (.single ns.first hfirst)).parse
          ((ns.more.flatMap fun x => [.punct .comma, .ident x]) ++
            (.type ty :: (tag.map fun t => Token.const (.str t)).toList ++ ts)) := by
          simp [FieldNames.tokens, parse, next, hfirst]
      _ = (names ns).parse (.type ty :: (tag.map fun t => Token.const (.str t)).toList ++ ts) :=
          parse_more (.single ns.first hfirst) ns rfl rfl _
      _ = (line ⟨ns, ty, tag⟩).parse ts := by
          cases tag <;> simp [parse, next]

/-- **Following the tokens gives the fields of a section, and accepts nothing else.** -/
theorem parse_start_iff : start.parse ts = some fs ↔ DataSection ts fs := by
  refine ⟨dataSection_of_parse, fun h => ?_⟩
  induction h with
  | last l =>
    obtain ⟨p, hp, hparse⟩ := parse_tokensOf l []
    rw [List.append_nil] at hparse
    exact hparse.trans hp
  | @line l ts fs _ ih =>
    obtain ⟨p, hp, hparse⟩ := parse_tokensOf l (.newline :: ts)
    have hnext : p.next .newline = some (DataLine.fieldsOf l, start) := by
      cases p <;> simp [next, hp]
    rw [hparse, parse, hnext]
    show (start.parse ts).map _ = _
    rw [ih]
    rfl

end LineState

/-! ### The compiler in a section -/

section Following

variable {s : Source} {w : Work} {info : ContractInfo} {fs : List Field} {p : LineState} {i : Nat}

/-- The contract with a data section of some fields. -/
def withFields (fs : List Field) (c : ContractInfo) : ContractInfo := { c with data := some fs }

/-- The work when the innermost contract has some fields, and those of a line that has come some
way. -/
def Work.inLine (w : Work) (fs : List Field) (p : LineState) : Work :=
  { w.modifyTop fun b => b.modifyContract (withFields (fs ++ p.fields)) with
    pendingFields := List.range' fs.length p.fields.length
    fieldStep := p.step }

/-- Whether the outcome of an action is what the line makes of the token: the line goes on, or the
work stays as it is. -/
def Follows (w : Work) (fs : List Field) (p : LineState) :
    Option (List Field × LineState) → EStateM.Result Error Work Unit → Prop
  | some (gs, p'), r => r = .ok () (w.inLine (fs ++ gs) p')
  | none, r => ∃ e, r = .error e (w.inLine fs p)

theorem Work.top_lt_of_contract? (h : (w.block w.top).contract? = some info) :
    w.top < w.arena.size := by
  by_contra hout
  rw [Work.block, Arena.block, Array.getD_eq_getD_getElem?,
    Array.getElem?_eq_none (Nat.le_of_not_lt hout)] at h
  cases h

theorem Work.contract?_inLine (h : (w.block w.top).contract? = some info) (fs : List Field)
    (p : LineState) :
    ((w.inLine fs p).block (w.inLine fs p).top).contract?
      = some (withFields (fs ++ p.fields) info) := by
  show ((w.modifyBlock w.top _).block w.top).contract? = _
  rw [Work.block_modifyBlock_self (Work.top_lt_of_contract? h), contract?_modifyContract, h]
  rfl

/-- Changing the fields once more is changing them once. -/
theorem Work.modifyTop_inLine (w : Work) {f : ContractInfo → ContractInfo} (gs : List Field)
    (hf : ∀ c, f (withFields (fs ++ p.fields) c) = withFields gs c) (positions : List Nat)
    (step : FieldStep) :
    { (w.inLine fs p).modifyTop fun b => b.modifyContract f with
      pendingFields := positions, fieldStep := step }
      = { w.modifyTop fun b => b.modifyContract (withFields gs) with
          pendingFields := positions, fieldStep := step } := by
  have hblock : (Block.modifyContract · f) ∘ (Block.modifyContract · (withFields (fs ++ p.fields)))
      = (Block.modifyContract · (withFields gs)) := by
    funext b
    obtain ⟨parent, info, objects, vars, code, children⟩ := b
    cases info with
    | contract info =>
      exact congrArg (fun info => Block.mk parent (.contract info) objects vars code children)
        (hf info)
    | _ => rfl
  have harena := Arena.modify_modify w.arena w.top
    (Block.modifyContract · (withFields (fs ++ p.fields))) (Block.modifyContract · f)
  rw [hblock] at harena
  exact congrArg (fun a : Arena =>
    { w with arena := a, pendingFields := positions, fieldStep := step })
    harena

/-- The fields that wait are the last ones. -/
theorem modifyFields_range' (f : Field → Field) (fs gs : List Field) :
    modifyFields (List.range' fs.length gs.length) f (fs ++ gs) = fs ++ gs.map f := by
  apply List.ext_getElem?
  intro j
  rw [modifyFields, List.getElem?_mapIdx]
  by_cases hj : j < fs.length
  · rw [List.getElem?_append_left hj, List.getElem?_append_left hj]
    simp [hj]
  · rw [List.getElem?_append_right (Nat.le_of_not_lt hj),
      List.getElem?_append_right (Nat.le_of_not_lt hj), List.getElem?_map]
    by_cases hend : j - fs.length < gs.length
    · have hin : fs.length ≤ j ∧ j < fs.length + gs.length := by omega
      simp [hin]
    · rw [List.getElem?_eq_none (Nat.le_of_not_lt hend)]
      rfl

/-- A name is read at the start of a line or behind a comma. -/
theorem field_apply {v : Work} {fields : List Field}
    (hstep : v.fieldStep = .start ∨ v.fieldStep = .comma) (hsys : Name.isSystem (s.name i) = false)
    (hdata : ((v.block v.top).contract?).bind (·.data) = some fields) :
    field s i v = .ok () { v.modifyTop fun b => b.modifyContract fun c =>
      { c with data := some (fields ++ [{ name := s.name i }]) } with
        pendingFields := v.pendingFields ++ [fields.length], fieldStep := .name } := by
  unfold field
  rw [get_bind_apply]
  rcases hstep with h | h <;>
  · rw [h]
    simp only [hsys, Bool.false_eq_true, if_false, hdata]
    rfl

/-- Names are refused where none is expected, and so are those of the system. -/
theorem field_fails {v : Work}
    (h : v.fieldStep = .name ∨ v.fieldStep = .type ∨ v.fieldStep = .tag ∨
      Name.isSystem (s.name i) = true) :
    ∃ e, field s i v = .error e v := by
  unfold field
  rw [get_bind_apply]
  cases hstep : v.fieldStep with
  | start | comma =>
    have hsys : Name.isSystem (s.name i) = true := by simpa [hstep] using h
    dsimp only
    rw [if_pos hsys]
    exact ⟨_, rfl⟩
  | name | type | tag => exact ⟨_, rfl⟩

/-- A name is added behind the fields of the line. -/
theorem follows_field (hinfo : (w.block w.top).contract? = some info)
    {x : String} (hx : s.name i = x) :
    Follows w fs p (p.next (.ident x)) (field s i (w.inLine fs p)) := by
  subst hx
  have hdata : (((w.inLine fs p).block (w.inLine fs p).top).contract?).bind (·.data)
      = some (fs ++ p.fields) := by
    rw [Work.contract?_inLine hinfo]
    rfl
  -- a name that may stand here becomes a field that waits for its type
  have hnew : ∀ ns : FieldNames, p.step = .start ∨ p.step = .comma →
    Name.isSystem (s.name i) = false →
      p.fields ++ [{ name := s.name i }] = (LineState.names ns).fields →
      field s i (w.inLine fs p) = .ok () (w.inLine (fs ++ []) (.names ns)) := by
    intro ns hstep hsys hns
    have hpositions : (w.inLine fs p).pendingFields ++ [(fs ++ p.fields).length]
        = List.range' fs.length (LineState.names ns).fields.length := by
      rw [← hns, List.length_append, List.length_append, List.length_singleton,
        List.range'_1_concat]
      rfl
    rw [field_apply hstep hsys hdata, Work.modifyTop_inLine w (fs ++ (LineState.names ns).fields)
      (fun c => by rw [List.append_assoc, hns]; rfl), hpositions, List.append_nil]
    rfl
  cases p with
  | start =>
    rw [LineState.next]
    split
    · rename_i hsys
      exact hnew (.single _ hsys) (.inl rfl) hsys rfl
    · rename_i hsys
      exact field_fails (.inr (.inr (.inr (by simpa using hsys))))
  | comma ns =>
    rw [LineState.next]
    split
    · rename_i hsys
      exact hnew (ns.add _ hsys) (.inr rfl) hsys
        (by simp [LineState.fields, FieldNames.list, FieldNames.add])
    · rename_i hsys
      exact field_fails (.inr (.inr (.inr (by simpa using hsys))))
  | names ns => exact field_fails (.inl rfl)
  | line l =>
    obtain ⟨ns, ty, _ | tag⟩ := l
    · exact field_fails (.inr (.inl rfl))
    · exact field_fails (.inr (.inr (.inl rfl)))

/-- A comma stands behind a name. -/
theorem follows_fieldComma : Follows w fs p (p.next (.punct .comma))
    (fieldComma s i (w.inLine fs p)) := by
  cases p with
  | names ns =>
    show _ = _
    rw [List.append_nil]
    rfl
  | line l => obtain ⟨ns, ty, _ | tag⟩ := l <;> exact ⟨_, rfl⟩
  | start | comma => exact ⟨_, rfl⟩

/-- Giving the fields of the line something. -/
theorem modifyPending_inLine (p p' : LineState) (f : Field → Field)
    (hf : p.fields.map f = p'.fields) :
    { modifyPending (w.inLine fs p) f with fieldStep := p'.step } = w.inLine (fs ++ []) p' := by
  have hlength : p.fields.length = p'.fields.length := by rw [← hf, List.length_map]
  have hmodify := Work.modifyTop_inLine (p := p) w (fs ++ p'.fields)
    (f := fun c => { c with data := c.data.map (modifyFields (w.inLine fs p).pendingFields f) })
    (fun c => by
      show withFields (modifyFields (List.range' fs.length p.fields.length) f (fs ++ p.fields)) c
        = _
      rw [modifyFields_range', hf])
    (List.range' fs.length p.fields.length) p'.step
  refine hmodify.trans ?_
  rw [hlength, List.append_nil]
  rfl

/-- The type stands behind the names and is that of all fields on the line. -/
theorem follows_fieldType {t : Ty} (ht : typeAt s i = t) :
    Follows w fs p (p.next (.type t)) (fieldType s i (w.inLine fs p)) := by
  subst ht
  cases p with
  | names ns =>
    refine congrArg (EStateM.Result.ok ()) (modifyPending_inLine (.names ns)
      (.line { names := ns, ty := typeAt s i }) _ ?_)
    simp [LineState.fields, DataLine.fields]
  | line l => obtain ⟨ns, ty, _ | tag⟩ := l <;> exact ⟨_, rfl⟩
  | start | comma => exact ⟨_, rfl⟩

/-- The tag stands behind the type and is that of all fields on the line. -/
theorem follows_fieldTag {t : String} (ht : s.token? i = some (.const (.str t))) :
    Follows w fs p (p.next (.const (.str t))) (fieldTag s i (w.inLine fs p)) := by
  cases p with
  | line l =>
    obtain ⟨ns, ty, _ | tag⟩ := l
    · refine Eq.trans ?_ (congrArg (EStateM.Result.ok ()) (modifyPending_inLine
        (.line { names := ns, ty := ty }) (.line { names := ns, ty := ty, tag := some t })
        (fun f => { f with tags := t }) ?_))
      · unfold fieldTag
        rw [get_bind_apply, ht]
        rfl
      · simp [LineState.fields, DataLine.fields]
    · exact ⟨_, rfl⟩
  | start | names | comma => exact ⟨_, rfl⟩

/-- A line that is complete ends with its fields added. -/
theorem fieldLine_of_complete {gs : List Field} (h : p.complete? = some gs) :
    fieldLine s i (w.inLine fs p) = .ok () (w.inLine (fs ++ gs) .start) := by
  have hdone : w.inLine (fs ++ gs) .start
      = { w.modifyTop fun b => b.modifyContract (withFields (fs ++ gs)) with
          pendingFields := [], fieldStep := .start } := by
    rw [Work.inLine, LineState.fields, List.append_nil]
    rfl
  rw [hdone]
  cases p with
  | start =>
    cases h
    rfl
  | line l =>
    cases h
    obtain ⟨ns, ty, _ | tag⟩ := l <;> rfl
  | names | comma => cases h

/-- A line that ends has a type, or it is empty. -/
theorem follows_fieldLine : Follows w fs p (p.next .newline) (fieldLine s i (w.inLine fs p)) := by
  cases hcomplete : p.complete? with
  | none =>
    have hnext : p.next .newline = none := by cases p <;> simp [LineState.next, hcomplete]
    rw [hnext]
    cases p with
    | names | comma => exact ⟨_, rfl⟩
    | start | line => cases hcomplete
  | some gs =>
    have hnext : p.next .newline = some (gs, .start) := by
      cases p <;> simp [LineState.next, hcomplete]
    rw [hnext]
    exact fieldLine_of_complete hcomplete

/-- What the grammar does with a token of a section. -/
def fieldAction : Token → Grammar.Action
  | .newline => .fieldLine
  | .ident _ => .field
  | .type _ => .fieldType
  | .const _ => .fieldTag
  | _ => .fieldComma

/-- **One token of a section**: the compiler does with it what the line does. -/
theorem follows_act (hinfo : (w.block w.top).contract? = some info)
    (fs : List Field) (p : LineState) {t : Token} {ts : List Token} (hts : TokensAt s i (t :: ts))
    (ht : t.inDataSection = true) :
    Follows w fs p (p.next t) (act s (fieldAction t) i (w.inLine fs p)) := by
  cases t with
  | newline => exact follows_fieldLine
  | punct m =>
    cases m with
    | comma => exact follows_fieldComma
    | _ => cases ht
  | ident x => exact follows_field hinfo hts.name
  | type t => exact follows_fieldType (by rw [typeAt, hts.token?])
  | const c =>
    cases c with
    | str u => exact follows_fieldTag hts.token?
    | _ => cases ht
  | oper | extend | keyword => cases ht

/-- In a data section the grammar stays there, with the action of the lexeme. -/
theorem entry_fields {t : Token} (ht : t.inDataSection = true) :
    Grammar.entry .fields t.kind = Grammar.goTo .fields (fieldAction t) := by
  cases t with
  | punct m =>
    cases m with
    | comma => rfl
    | _ => cases ht
  | const c =>
    cases c with
    | str u => rfl
    | _ => cases ht
  | newline | ident | type => rfl
  | oper | extend | keyword => cases ht

/-- An entry whose action fails. -/
theorem advance_goTo_error {st next : Grammar.State} {action : Grammar.Action} {k : Kind}
    {fork : Nat} {w w' : Work} {e : Error} (h : Grammar.entry st k = Grammar.goTo next action)
    (hne : next ≠ .eval) (hact : act s action i w = .error e w') :
    advance s k ⟨st, fork, i⟩ w = .error e w' := by
  have hnext : (next == Grammar.State.eval) = false := by simp [hne]
  simp [advance, h, Grammar.goTo, hnext, bind, EStateM.bind, pure_apply, get_apply, hact]

theorem readAll_succ_error {c : Cursor} {k : Kind} {w w' : Work} {e : Error}
    (hk : s.kind? c.position = some k) (h : advance s k c w = .error e w') (fuel : Nat) :
    readAll s (fuel + 1) c w = .error e w' := by
  rw [readAll, hk]
  exact bind_of_error h

/-- The work behind a data section: its names can be read as environment variables. -/
def Work.closeSection (w : Work) (fs : List Field) : Work :=
  (w.inLine fs .start).modifyTop fun b =>
    { b with objects := (fs.map Field.name).foldl (fun o x => o.insert x (.extVar x)) b.objects }

/-- At the closing brace the section ends with the fields of its last line. -/
theorem fields_of_complete (hinfo : (w.block w.top).contract? = some info) {gs : List Field}
    (h : p.complete? = some gs) :
    fields s i (w.inLine fs p) = .ok () (w.closeSection (fs ++ gs)) := by
  have hfields := Work.contract?_inLine hinfo (fs ++ gs) .start
  refine (bind_of_ok (fieldLine_of_complete h)).trans ?_
  refine congrArg (EStateM.Result.ok ()) (Work.modifyBlock_congr ?_)
  dsimp only
  rw [hfields]
  simp [withFields, LineState.fields]

theorem fields_fails (h : p.complete? = none) :
    ∃ e, fields s i (w.inLine fs p) = .error e (w.inLine fs p) := by
  cases p with
  | names | comma => exact ⟨_, rfl⟩
  | start | line => cases h

/-- **The tokens of a section, up to its closing brace**: the compiler gets behind them with the
fields that they declare, or it fails. -/
theorem readAll_inLine (hinfo : (w.block w.top).contract? = some info)
    (fs : List Field) (p : LineState) {ts rest : List Token}
    (hts : TokensAt s i (ts ++ .punct .rcurly :: rest)) (hall : ∀ t ∈ ts, t.inDataSection = true)
    (fork : Nat) :
    match p.parse ts with
    | some gs => ∀ fuel, readAll s (fuel + (ts.length + 1)) ⟨.fields, fork, i⟩ (w.inLine fs p)
        = readAll s fuel ⟨.body, fork, i + (ts.length + 1)⟩ (w.closeSection (fs ++ gs))
    | none => ∃ e w', ∀ fuel, readAll s (fuel + (ts.length + 1)) ⟨.fields, fork, i⟩ (w.inLine fs p)
        = .error e w' := by
  -- The grammar and the compiler take the same token at each step, and fail at the same one.
  induction ts generalizing p fs i with
  | nil =>
    have hkind : s.kind? i = some (.punct .rcurly) := hts.kind?
    rw [LineState.parse]
    cases hcomplete : p.complete? with
    | some gs =>
      exact readAll_succ hkind (advance_goTo rfl nofun (fields_of_complete hinfo hcomplete))
    | none =>
      obtain ⟨e, he⟩ : ∃ e, fields s i (w.inLine fs p) = .error e (w.inLine fs p) :=
        fields_fails hcomplete
      exact ⟨e, _, readAll_succ_error hkind (advance_goTo_error rfl nofun he)⟩
  | cons t ts ih =>
    have ht := hall t List.mem_cons_self
    have hfollows := follows_act hinfo fs p hts ht
    rw [LineState.parse]
    cases hnext : p.next t with
    | none =>
      rw [hnext] at hfollows
      obtain ⟨e, he⟩ := hfollows
      exact ⟨e, _, fun fuel => readAll_succ_error hts.kind?
        (advance_goTo_error (entry_fields ht) nofun he) _⟩
    | some reached =>
      obtain ⟨gs, p'⟩ := reached
      rw [hnext] at hfollows
      have hstep : ∀ fuel, readAll s (fuel + 1) ⟨.fields, fork, i⟩ (w.inLine fs p)
          = readAll s fuel ⟨.fields, fork, i + 1⟩ (w.inLine (fs ++ gs) p') :=
        readAll_succ hts.kind? (advance_goTo (entry_fields ht) nofun hfollows)
      have hrest := ih (fs ++ gs) p' hts.next fun u hu => hall u (List.mem_cons_of_mem t hu)
      dsimp only
      cases hparse : p'.parse ts with
      | none =>
        rw [hparse] at hrest
        obtain ⟨e, w', hfails⟩ := hrest
        exact ⟨e, w', fun fuel => (hstep _).trans (hfails fuel)⟩
      | some gs' =>
        rw [hparse] at hrest
        intro fuel
        refine (hstep _).trans ((hrest fuel).trans ?_)
        rw [List.append_assoc, Nat.add_assoc, Nat.add_comm 1, List.length_cons]

/-- Opening a section keeps the fields of the sections before it. -/
theorem dataSection_apply (hinfo : (w.block w.top).contract? = some info) :
    dataSection s i w = .ok () (w.inLine (info.data.getD []) .start) := by
  have hcontract : inContract s .dataOutsideContract i w = .ok () w := by
    unfold inContract
    rw [get_bind_apply, hinfo]
    rfl
  refine (bind_of_ok hcontract).trans ?_
  have harena : w.modifyTop (fun b => b.modifyContract fun c =>
    { c with data := some (c.data.getD []) })
      = w.modifyTop fun b => b.modifyContract
      (withFields (info.data.getD [] ++ LineState.start.fields)) := by
    refine Work.modifyBlock_congr ?_
    have hblock : (w.block w.top).info = .contract info := by
      unfold Block.contract? at hinfo
      split at hinfo <;> cases hinfo
      assumption
    unfold Block.modifyContract
    rw [hblock, LineState.fields, List.append_nil]
    rfl
  exact congrArg (fun v : Work => EStateM.Result.ok ()
    { v with pendingFields := [], fieldStep := .start }) harena

end Following

/-- The types of the fields are those that the section names. -/
theorem DataSection.type_mem {ts : List Token} {fs : List Field} (h : DataSection ts fs) {f : Field}
    (hf : f ∈ fs) : Token.type f.ty ∈ ts := by
  have hline : ∀ l, f ∈ DataLine.fieldsOf l → Token.type f.ty ∈ DataLine.tokensOf l := by
    intro l hl
    cases l with
    | none => cases hl
    | some l =>
      obtain ⟨x, -, rfl⟩ := List.mem_map.1 hl
      exact List.mem_append_right _ List.mem_cons_self
  induction h with
  | last l => exact hline l hf
  | line l _ ih =>
    rcases List.mem_append.1 hf with hl | hrest
    · exact List.mem_append_left _ (hline l hl)
    · exact List.mem_append_right _ (List.mem_cons_of_mem _ (ih hrest))

/-- Closing a section changes the innermost block only. -/
theorem Work.closeSection_spec {w : Work} {info : ContractInfo}
    (hinfo : (w.block w.top).contract? = some info) (fs : List Field) :
    ((w.closeSection fs).block w.top).contract? = some (withFields fs info) ∧
      (w.closeSection fs).inner = w.inner ∧
      ∀ id ≠ w.top, (w.closeSection fs).block id = w.block id := by
  refine ⟨?_, rfl, fun id hid => ?_⟩
  · have hlt : w.top < (w.inLine fs .start).arena.size := by
      simpa [Work.inLine, Work.modifyTop] using Work.top_lt_of_contract? hinfo
    have hfields := Work.contract?_inLine hinfo fs .start
    rw [LineState.fields, List.append_nil] at hfields
    rw [← hfields]
    show ((Work.modifyBlock _ w.top _).block w.top).contract? = _
    rw [Work.block_modifyBlock_self hlt]
    rfl
  · exact (Work.block_modifyBlock_of_ne _ hid.symm _).trans
      (Work.block_modifyBlock_of_ne w hid.symm _)

/-- **Data sections are read by their grammar.** Where the tokens between the braces spell lines of
names, a type and possibly a tag, the compiler gets behind the section, and the contract has in
addition one field for each name, with the type and the tag of its line; all of them have a declared
type. Where the tokens spell no such lines, the compiler fails in the section. -/
theorem readAll_dataSection {text : String} {lexemes : Array Lexeme}
    (hread : Lexeme.read text = .ok lexemes) (scope : Scope) {w : Work} {info : ContractInfo}
    (hinfo : (w.block w.top).contract? = some info) {i : Nat} {ts rest : List Token}
    (hts : TokensAt (scope.source lexemes) i
      (.keyword .data :: .punct .lcurly :: (ts ++ .punct .rcurly :: rest)))
    (hall : ∀ t ∈ ts, t.inDataSection = true) (fork : Nat) :
    (∀ fs, DataSection ts fs → (∀ f ∈ fs, f.ty ≠ .any) ∧ ∃ w' : Work,
      (∀ fuel, readAll (scope.source lexemes) (fuel + (ts.length + 3)) ⟨.body, fork, i⟩ w
        = readAll (scope.source lexemes) fuel ⟨.body, fork, i + (ts.length + 3)⟩ w') ∧
      (w'.block w.top).contract? = some { info with data := some (info.data.getD [] ++ fs) } ∧
      w'.inner = w.inner ∧ ∀ id ≠ w.top, w'.block id = w.block id) ∧
    ((¬ ∃ fs, DataSection ts fs) → ∃ e w', ∀ fuel,
      readAll (scope.source lexemes) (fuel + (ts.length + 3)) ⟨.body, fork, i⟩ w
        = .error e w') := by
  have hopen : ∀ fuel, readAll (scope.source lexemes) (fuel + (ts.length + 3)) ⟨.body, fork, i⟩ w
      = readAll (scope.source lexemes) (fuel + (ts.length + 1)) ⟨.fields, fork, i + 1 + 1⟩
          (w.inLine (info.data.getD []) .start) := fun fuel =>
    (readAll_succ hts.kind? (advance_goTo
      (rfl : Grammar.entry .body (.keyword .data) = Grammar.goTo .data .data) nofun
      (dataSection_apply hinfo)) _).trans
        (readAll_succ hts.next.kind? (advance_goTo
          (rfl : Grammar.entry .data (.punct .lcurly) = Grammar.goTo .fields .none) nofun rfl) _)
  -- behind the two tokens that open the section the reader does what the parser of lines does
  have hrun := readAll_inLine hinfo (info.data.getD []) .start hts.next.next hall fork
  constructor
  · intro fs hsection
    rw [LineState.parse_start_iff.2 hsection] at hrun
    refine ⟨fun f hf => ?_, w.closeSection (info.data.getD [] ++ fs), fun fuel => ?_,
      Work.closeSection_spec hinfo _⟩
    · have hmem := List.mem_append_left (.punct .rcurly :: rest) (hsection.type_mem hf)
      rw [← hts.next.next] at hmem
      obtain ⟨l, hl, htype⟩ := List.mem_map.1 hmem
      have hspelled := Lexeme.read_spelled hread l (List.mem_of_mem_drop hl)
      rw [htype] at hspelled
      exact hspelled
    · refine (hopen fuel).trans ((hrun fuel).trans ?_)
      rw [show i + 1 + 1 + (ts.length + 1) = i + (ts.length + 3) by omega]
  · intro hnone
    have hparse : LineState.start.parse ts = none := by
      cases hparse : LineState.start.parse ts with
      | none => rfl
      | some fs => exact absurd ⟨fs, LineState.parse_start_iff.1 hparse⟩ hnone
    rw [hparse] at hrun
    obtain ⟨e, w', hfails⟩ := hrun
    exact ⟨e, w', fun fuel => (hopen fuel).trans (hfails fuel)⟩

/-- A contract whose data section has been read once. -/
def ledger : Work where
  arena := #[Block.mk none (.contract
    { name := "@1Ledger", id := 0, state := 1
      data := some [{ name := "day", ty := .int, typeId := 2 }] })
    .empty #[] #[] #[]]
  root := 0

def secondSection : String := "data \x7b payee, amount money \"optional\" \x7d"

/-- A second section adds its fields to those of the first. -/
theorem secondSection_read : ∃ lexemes, Lexeme.read secondSection = .ok lexemes ∧
    ∀ scope : Scope, ∃ w' : Work,
      (∀ fuel, readAll (scope.source lexemes) (fuel + 8) ⟨.body, 0, 0⟩ ledger
        = readAll (scope.source lexemes) fuel ⟨.body, 0, 8⟩ w') ∧
    ((w'.block ledger.top).contract?).bind (·.data) = some
      [{ name := "day", ty := .int, typeId := 2 },
        { name := "payee", ty := .money, typeId := 6, tags := "optional" },
        { name := "amount", ty := .money, typeId := 6, tags := "optional" }] := by
  have hread : (Lexeme.read secondSection).map (fun lexemes => lexemes.toList.map Lexeme.token)
      = .ok [.keyword .data, .punct .lcurly, .ident "payee", .punct .comma,
        .ident "amount", .type .money,
        .const (.str "optional"), .punct .rcurly, .newline] := by
    cbv
  -- The section has one line: two names of one type with a tag.
  have hsection : DataSection _ _ := .last (some
    { names := { first := "payee", more := ["amount"], free := by decide +kernel }
      ty := .money
      tag := some "optional" })
  cases hlexemes : Lexeme.read secondSection with
  | error e =>
    rw [hlexemes] at hread
    cases hread
  | ok lexemes =>
    rw [hlexemes] at hread
    refine ⟨lexemes, rfl, fun scope => ?_⟩
    have hts : TokensAt (scope.source lexemes) 0 _ := Except.ok.inj hread
    obtain ⟨-, w', hreads, hfields, -⟩ :=
      (readAll_dataSection hlexemes scope (w := ledger) rfl hts (by decide) 0).1 _ hsection
    exact ⟨w', hreads, congrArg (Option.bind · ContractInfo.data) hfields⟩

end Compile

end Covenant
