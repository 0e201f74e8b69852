import Covenant.Proofs.Compile.Phrases

/-!
# Sentences

What an expression is read as. A `Sentence` is what stands between the start and the end of an
expression: values that commas separate, and the containers and keys that assignments write to. It
has the tokens that it is written with, line ends aside, and the instructions that it becomes.

While an expression is under way, what is pending in the buffer is in front of the operand that
comes next, and each entry stands for a phrase that is not complete (`Holds`): an operator for its
left operand, a bracket for the phrases that commas have closed in it, a call for its arguments and
segments so far. An operator that is let out completes its phrase (`Holds.flushOps`), and so does
the bracket that is closed (`Holds.flushUntil`).

Of each call it is known what it calls and that its arguments fit (`Phrase.Fits`). A call of a
function with segments has an operand that collects them. It can be without one only if its own
arguments have no instruction and it stands directly behind what collects a segment
(`Phrase.FitsAt`): then the compiler takes the operand of the other call for its own.
-/

namespace Covenant

/-- The signature of a function, without the mark that it may change the database. -/
def FuncInfo.signature (f : FuncInfo) : FuncInfo := { f with canWrite := false }

namespace Compile

open Covenant.Computation Structured

/-! ### Tokens without line ends -/

/-- Whether a token ends a line. -/
def Token.isNewline : Token → Bool
  | .newline => true
  | _ => false

/-- The tokens from one position up to another, without line ends. -/
def Source.words (s : Source) (i j : Nat) : List Token :=
  (s.tokens i j).filter fun t => !Token.isNewline t

section words

variable {s : Source} {i j k : Nat} {t : Token}

theorem Source.words_self (s : Source) (i : Nat) : s.words i i = [] := by
  rw [words, tokens_self]
  rfl

theorem Source.words_append (hij : i ≤ j) (hjk : j ≤ k) :
    s.words i k = s.words i j ++ s.words j k := by
  rw [words, tokens_append hij hjk, List.filter_append]
  rfl

theorem Source.words_succ (h : s.token? j = some t) (hij : i ≤ j) (ht : Token.isNewline t = false) :
    s.words i (j + 1) = s.words i j ++ [t] := by
  rw [words, tokens_succ h hij, List.filter_append, List.filter_cons, ht]
  rfl

theorem Source.words_newline (h : s.token? j = some .newline) (hij : i ≤ j) :
    s.words i (j + 1) = s.words i j := by
  rw [words, tokens_succ h hij, List.filter_append]
  exact List.append_nil _

theorem Source.name_eq (h : s.token? i = some t) : s.name i = nameOf t := by
  obtain ⟨l, hl, rfl⟩ := Option.map_eq_some_iff.1 h
  rw [name, hl]
  rfl

end words

theorem pushes_append (cs ds : List Constant) : pushes (cs ++ ds) = pushes cs ++ pushes ds :=
  List.map_append

/-! ### Calls that fit -/

/-- What calls refer to where some blocks are open: what names are bound to, and the signatures of
functions. -/
structure Outlook where
  finds : String → Option Binding
  signatures : BlockId → Option FuncInfo

/-- What calls refer to in a work. -/
def Work.outlook (s : Source) (w : Work) : Outlook where
  finds := w.find s
  signatures id := ((w.block id).func?).map FuncInfo.signature

/-- The instruction that a call of something with some number of arguments ends with. -/
def Ending.of (f : Callee) (variadic : Bool) (count : Nat) : Ending :=
  if variadic then .counted f count else .fixed f

/-- What is put behind the arguments of a call of a function: one operand that collects its
segments, if it has segments. It may be missing where the arguments have no instruction. -/
def Collects (f : FuncInfo) (args : List Phrase) (back : List Constant)
    (segments : List (Token × List Phrase)) : Prop :=
  match f.segments with
  | none => back = [] ∧ segments = []
  | some gs => (back = [.nil] ∨ back = [] ∧ opsAll args = []) ∧
      ∀ g ∈ segments, gs.contains (nameOf g.1) = true

theorem collects_iff {f : FuncInfo} {gs : Dict Segment} (hgs : f.segments = some gs)
    {args : List Phrase} {back : List Constant} {segments : List (Token × List Phrase)} :
    Collects f args back segments ↔
      (back = [.nil] ∨ back = [] ∧ opsAll args = []) ∧
      ∀ g ∈ segments, gs.contains (nameOf g.1) = true := by
  simp only [Collects, hgs]

/-- Whether an instruction collects the arguments of a segment. -/
def Op.collects : Op → Bool
  | .funcName _ _ => true
  | _ => false

/-- Whether code ends in what collects a segment. -/
def collectsLast (os : List Op) : Bool := os.getLast?.any Op.collects

/-- What is put behind the arguments of a call of a function that stands behind some code: the
operand that collects its segments is missing only if a segment has just been collected. -/
structure CollectsAt (os : List Op) (f : FuncInfo) (args : List Phrase) (back : List Constant)
    (segments : List (Token × List Phrase)) : Prop where
  collects : Collects f args back segments
  missing : f.segments.isSome = true → back = [] → collectsLast os = true

/-- Whether a call calls what its name is bound to, and has arguments that fit. -/
inductive Phrase.Fits (v : Outlook) : Phrase → Prop
  | func {x : String} {id : BlockId} {f : FuncInfo} {args : List Phrase} {back : List Constant}
      {segments : List (Token × List Phrase)} : v.finds x = some (.func id) →
      v.signatures id = some f →
      f.takes args.length = true → Collects f args back segments →
      Fits v (.call (.ident x) [] args back segments (.of (.func id) f.variadic args.length))
  | ext {x : String} {e : Extension} {front back : List Constant}
    {args : List Phrase} {count : Nat} :
      count = front.length + args.length + back.length → e.takes count = true →
      Fits v (.call (.ident x) front args back [] (.of (.ext e) e.variadic count))
  | named (x : String) (args : List Phrase) :
      Fits v (.call (.extend x) [] args [] [] (.named x args.length))

/-- Whether a call that stands behind some code fits there. -/
inductive Phrase.FitsAt (v : Outlook) (os : List Op) : Phrase → Prop
  | func {x : String} {id : BlockId} {f : FuncInfo} {args : List Phrase} {back : List Constant}
      {segments : List (Token × List Phrase)} : v.finds x = some (.func id) →
      v.signatures id = some f →
      f.takes args.length = true → CollectsAt os f args back segments →
      FitsAt v os (.call (.ident x) [] args back segments (.of (.func id) f.variadic args.length))
  | ext {x : String} {e : Extension} {front back : List Constant}
    {args : List Phrase} {count : Nat} :
      count = front.length + args.length + back.length → e.takes count = true →
      FitsAt v os (.call (.ident x) front args back [] (.of (.ext e) e.variadic count))
  | named (x : String) (args : List Phrase) :
      FitsAt v os (.call (.extend x) [] args [] [] (.named x args.length))

/-- A call that fits where it stands fits. -/
theorem Phrase.FitsAt.fits {v : Outlook} {os : List Op} {u : Phrase} (h : u.FitsAt v os) :
    u.Fits v := by
  cases h with
  | func hx hf htakes hcollects => exact .func hx hf htakes hcollects.collects
  | ext hcount htakes => exact .ext hcount htakes
  | named x args => exact .named x args

/-! ### Sentences -/

/-- What stands in front of the last value of an expression: a value with a comma behind it, or the
container and the key of an assignment. -/
inductive Lead where
  | value (e : Phrase)
  | target (container : Phrase) (keys : List Phrase)

namespace Lead

/-- The code of what stands in front. -/
def ops : Lead → List Op
  | value e => e.ops
  | target a es => a.ops ++ opsAll es

/-- The tokens of what stands in front. -/
def words : Lead → List Token
  | value e => e.words ++ [.punct .comma]
  | target a es => a.words ++ .punct .lbrack :: (wordsAll es ++ [.punct .rbrack, .punct .eq])

/-- The calls in what stands in front. -/
def calls : Lead → List Phrase
  | value e => e.calls
  | target a es => a.calls ++ callsAll es

/-- The calls in what stands in front, each with the code in front of it. -/
def sites (os : List Op) : Lead → List (List Op × Phrase)
  | value e => e.sites os
  | target a es => a.sites os ++ sitesAll (os ++ a.ops) es

/-- Whether an assignment writes there. -/
def isTarget : Lead → Bool
  | value _ => false
  | target _ _ => true

theorem map_snd_sites (os : List Op) (l : Lead) : (l.sites os).map Prod.snd = l.calls := by
  cases l with
  | value e => exact Phrase.map_snd_sites os e
  | target a es =>
    rw [sites, List.map_append, Phrase.map_snd_sites os a, map_snd_sitesAll _ es]
    rfl

/-- What is said to be in front of a call is in front of it. -/
theorem ops_of_mem_sites {os : List Op} {l : Lead} {q : List Op × Phrase} (h : q ∈ l.sites os) :
    q.1 ++ q.2.ops <+: os ++ l.ops := by
  cases l with
  | value e => exact Phrase.ops_of_mem_sites h
  | target a es =>
    rw [ops, ← List.append_assoc]
    rcases List.mem_append.1 h with h | h
    · exact (Phrase.ops_of_mem_sites h).trans (List.prefix_append ..)
    · exact opsAll_of_mem_sites h

end Lead

/-- The calls in what stands in front of the last value, each with the code in front of it. -/
def leadSites (os : List Op) : List Lead → List (List Op × Phrase)
  | [] => []
  | l :: leads => l.sites os ++ leadSites (os ++ l.ops) leads

theorem leadSites_concat (os : List Op) (leads : List Lead) (l : Lead) :
    leadSites os (leads ++ [l]) = leadSites os leads ++ l.sites (os ++ leads.flatMap Lead.ops) := by
  induction leads generalizing os with
  | nil => simp [leadSites]
  | cons l' leads ih => simp [leadSites, ih]

theorem map_snd_leadSites (os : List Op) (leads : List Lead) :
    (leadSites os leads).map Prod.snd = leads.flatMap Lead.calls := by
  induction leads generalizing os with
  | nil => rfl
  | cons l leads ih => rw [leadSites, List.map_append, Lead.map_snd_sites, ih, List.flatMap_cons]

/-- A call in front of the last value is where its site says. -/
theorem ops_of_mem_leadSites {os : List Op} {leads : List Lead} {q : List Op × Phrase}
    (h : q ∈ leadSites os leads) : q.1 ++ q.2.ops <+: os ++ leads.flatMap Lead.ops := by
  induction leads generalizing os with
  | nil => exact absurd h List.not_mem_nil
  | cons l leads ih =>
    rw [List.flatMap_cons, ← List.append_assoc]
    rcases List.mem_append.1 h with h | h
    · exact (Lead.ops_of_mem_sites h).trans (List.prefix_append ..)
    · exact ih h

/-- An expression as it is read: its last value and what stands in front of it. -/
structure Sentence where
  leads : List Lead := []
  last : Option Phrase := none

namespace Sentence

/-- The code of a sentence. An assignment to an element comes last. -/
def ops (p : Sentence) : List Op :=
  p.leads.flatMap Lead.ops ++ p.last.elim [] Phrase.ops ++
    if p.leads.any Lead.isTarget then [.setIndex] else []

/-- The tokens of a sentence. -/
def words (p : Sentence) : List Token := p.leads.flatMap Lead.words ++ p.last.elim [] Phrase.words

/-- The calls in a sentence. -/
def calls (p : Sentence) : List Phrase := p.leads.flatMap Lead.calls ++ p.last.elim [] Phrase.calls

/-- The calls in a sentence, each with the code in front of it. -/
def sites (p : Sentence) : List (List Op × Phrase) :=
  leadSites [] p.leads ++ p.last.elim [] (Phrase.sites (p.leads.flatMap Lead.ops))

theorem map_snd_sites (p : Sentence) : p.sites.map Prod.snd = p.calls := by
  obtain ⟨leads, last⟩ := p
  rw [sites, List.map_append, map_snd_leadSites, calls]
  cases last with
  | none => rfl
  | some e => exact congrArg _ (Phrase.map_snd_sites _ e)

/-- What is said to be in front of a call is in front of it. -/
theorem ops_of_mem_sites {p : Sentence} {q : List Op × Phrase} (h : q ∈ p.sites) :
    q.1 ++ q.2.ops <+: p.ops := by
  obtain ⟨leads, last⟩ := p
  rw [ops]
  rcases List.mem_append.1 h with h | h
  · rw [List.append_assoc]
    exact (ops_of_mem_leadSites h).trans (List.prefix_append ..)
  · cases last with
    | none => exact absurd h List.not_mem_nil
    | some e => exact (Phrase.ops_of_mem_sites h).trans (List.prefix_append ..)

/-- The code of a call in a sentence is a part of the code of the sentence. -/
theorem ops_of_mem_calls {p : Sentence} {u : Phrase} (h : u ∈ p.calls) : u.ops <:+: p.ops := by
  have hlead : ∀ l : Lead, u ∈ l.calls → u.ops <:+: l.ops := by
    rintro (e | ⟨a, es⟩) hl
    · exact Phrase.ops_of_mem_calls hl
    · rcases List.mem_append.1 hl with hl | hl
      · exact (Phrase.ops_of_mem_calls hl).trans (List.prefix_append ..).isInfix
      · exact (opsAll_of_mem_calls hl).trans (List.suffix_append ..).isInfix
  rw [ops]
  rcases List.mem_append.1 h with h | h
  · obtain ⟨l, hl, hu⟩ := List.mem_flatMap.1 h
    obtain ⟨us, vs, hleads⟩ := List.append_of_mem hl
    rw [hleads, List.flatMap_append, List.flatMap_cons, List.append_assoc, List.append_assoc,
      List.append_assoc]
    exact (hlead l hu).trans (List.infix_append' ..)
  · cases hlast : p.last with
    | none =>
      rw [hlast] at h
      exact absurd h List.not_mem_nil
    | some e =>
      rw [hlast] at h
      exact (Phrase.ops_of_mem_calls h).trans (List.infix_append ..)

end Sentence

/-! ### Phrases that are under way -/

/-- The tokens and the code of a phrase that may not be there. -/
def wordsOf (o : Option Phrase) : List Token := o.elim [] Phrase.words

/-- The code of a phrase that may not be there. -/
def opsOfPhrase (o : Option Phrase) : List Op := o.elim [] Phrase.ops

section closing

variable {es : List Phrase} {o : Option Phrase}

/-- Phrases with a comma behind each, and the last one. -/
theorem words_closed (h : o = none → es = []) :
    wordsOpen es ++ wordsOf o = wordsAll (es ++ o.toList) := by
  cases o with
  | none =>
    rw [h rfl]
    rfl
  | some e => exact (wordsAll_concat e es).symm

theorem ops_closed (es : List Phrase) (o : Option Phrase) :
    opsAll es ++ opsOfPhrase o = opsAll (es ++ o.toList) := by
  rw [opsAll_append]
  cases o with
  | none => rfl
  | some e => exact congrArg _ (opsAll_singleton e).symm

/-- A list of phrases with commas ends in a left parenthesis only if it is empty. -/
theorem eq_nil_of_getLast? {ws : List Token} {t : Token} (ht : t ≠ .punct .comma)
    (h : (ws ++ t :: wordsOpen es).getLast? = some t) : es = [] := by
  rcases List.eq_nil_or_concat es with hnil | ⟨es', e, rfl⟩
  · exact hnil
  · rw [List.concat_eq_append, wordsOpen_concat, ← List.append_assoc, ← List.cons_append,
      ← List.append_assoc, List.getLast?_concat] at h
    exact absurd (Option.some.inj h).symm ht

end closing

/-! ### What is in front of an operand -/

/-- Whether all calls in a phrase fit. -/
def Phrase.Sound (v : Outlook) (e : Phrase) : Prop := ∀ u ∈ e.calls, u.Fits v

/-- Whether all calls fit where they stand. -/
def Suits (v : Outlook) (sites : List (List Op × Phrase)) : Prop := ∀ q ∈ sites, q.2.FitsAt v q.1

/-- All calls in a sentence fit if they do where they stand. -/
theorem Suits.fits {v : Outlook} {p : Sentence} (h : Suits v p.sites) :
    ∀ u ∈ p.calls, u.Fits v := by
  intro u hu
  rw [← p.map_snd_sites] at hu
  obtain ⟨q, hq, rfl⟩ := List.mem_map.1 hu
  exact (h q hq).fits

/-- Whether a call that is pending has been opened at its name, with constants in front of its
arguments. -/
inductive Heads (v : Outlook) : Token → List Constant → PendingCall → Prop
  | func {x : String} {id : BlockId} {c : PendingCall} : v.finds x = some (.func id) →
      c.target = .func id → Heads v (.ident x) [] c
  | ext {x : String} {e : Extension} {front : List Constant} {c : PendingCall} : c.target = .ext e →
      c.leading = front.length → Heads v (.ident x) front c
  | named {x : String} {c : PendingCall} : c.target = .extend x → Heads v (.extend x) [] c

/-- What has been read in front of the operand that comes next, given what is pending: its tokens
and its code, and whether an assignment is among it. -/
inductive Holds (v : Outlook) : Bool → List Pending → List Nat → List Token → List Op → Prop
  | top {leads : List Lead} : Suits v (leadSites [] leads) →
      Holds v (leads.any Lead.isTarget) [] [] (leads.flatMap Lead.words) (leads.flatMap Lead.ops)
  | unary {set : Bool} {buffer : List Pending} {counts : List Nat} {ws : List Token} {os : List Op}
      (o : Operator) (op : UnaryOp) : Holds v set buffer counts ws os →
      Holds v set (.op (.unary op) :: buffer) counts (ws ++ [.oper o]) os
  | binary {set : Bool} {buffer : List Pending} {counts : List Nat} {ws : List Token} {os : List Op}
      {a : Phrase} (o : Operator) (op : BinaryOp) : Suits v (a.sites os) →
      Holds v set buffer counts ws os →
      Holds v set (.op (.binary op) :: buffer) counts (ws ++ (a.words ++ [.oper o])) (os ++ a.ops)
  | group {set : Bool} {buffer : List Pending} {counts : List Nat} {ws : List Token} {os : List Op}
      {es : List Phrase} : Suits v (sitesAll os es) → Holds v set buffer counts ws os →
      Holds v set (.paren false :: buffer) counts (ws ++ .punct .lpar :: wordsOpen es)
      (os ++ opsAll es)
  | index {set : Bool} {buffer : List Pending} {counts : List Nat} {ws : List Token} {os : List Op}
      {a : Phrase} {es : List Phrase} : Suits v (a.sites os) → Suits v (sitesAll (os ++ a.ops) es) →
      Holds v set buffer counts ws os →
      Holds v set (.index :: buffer) counts ((ws ++ a.words) ++ .punct .lbrack :: wordsOpen es)
        (os ++ (a.ops ++ opsAll es))
  | call {set : Bool} {buffer : List Pending} {counts : List Nat} {ws : List Token} {os : List Op}
      {head : Token} {front : List Constant} {c : PendingCall}
      {args : List Phrase} : Heads v head front c →
      c.count = none → Suits v (sitesAll (os ++ pushes front) args) →
      Holds v set buffer counts ws os →
      Holds v set (.paren true :: .call c :: buffer) (args.length :: counts)
        ((ws ++ [head]) ++ .punct .lpar :: wordsOpen args) (os ++ (pushes front ++ opsAll args))
  | chain {set : Bool} {buffer : List Pending} {counts : List Nat} {ws : List Token} {os : List Op}
      {x : String} {id : BlockId} {f : FuncInfo} {gs : Dict Segment} {c : PendingCall}
      {args es : List Phrase}
      {back : List Constant} {segments : List (Token × List Phrase)} {name : Token} :
      v.finds x = some (.func id) → v.signatures id = some f → f.segments = some gs →
      CollectsAt os f args back segments → gs.contains (nameOf name) = true → c.target = .func id →
      c.count = some args.length → Suits v (sitesAll os args) →
      Suits v (sitesChained (os ++ (opsAll args ++ pushes back)) segments) →
      Suits v (sitesAll (os ++ (opsAll args ++ pushes back ++ opsChained segments)) es) →
      Holds v set buffer counts ws os →
      Holds v set (.paren true :: .chain (nameOf name) :: .call c :: buffer) (es.length :: counts)
        ((ws ++ .ident x :: .punct .lpar :: (wordsAll args ++ .punct .rpar ::
          (wordsChained segments ++ [.punct .dot, name]))) ++ .punct .lpar :: wordsOpen es)
        (os ++ (opsAll args ++ pushes back ++ opsChained segments ++ opsAll es))

section suiting

variable {v : Outlook} {os : List Op} {e a b : Phrase} {es : List Phrase}
  {sites sites' : List (List Op × Phrase)}

theorem suits_nil : Suits v [] := fun _ hq => absurd hq List.not_mem_nil

theorem suits_sitesAll_nil : Suits v (sitesAll os []) := suits_nil

theorem suits_append (h : Suits v sites) (h' : Suits v sites') : Suits v (sites ++ sites') :=
  fun q hq => (List.mem_append.1 hq).elim (h q) (h' q)

/-- A call suits if it fits and its arguments and segments suit. -/
theorem suits_call {head : Token} {front back : List Constant} {args : List Phrase}
    {segments : List (Token × List Phrase)} {ending : Ending}
    (hu : Phrase.FitsAt v os (.call head front args back segments ending))
    (hargs : Suits v (sitesAll (os ++ pushes front) args))
    (hsegments : Suits v
      (sitesChained (os ++ (pushes front ++ opsAll args ++ pushes back)) segments)) :
    Suits v (Phrase.sites os (.call head front args back segments ending)) := by
  intro q hq
  rcases List.mem_cons.1 hq with rfl | hq
  · exact hu
  · exact suits_append hargs hsegments q hq

theorem suits_concat (hes : Suits v (sitesAll os es)) (he : Suits v (e.sites (os ++ opsAll es))) :
    Suits v (sitesAll os (es ++ [e])) := by
  rw [sitesAll_append]
  exact suits_append hes (suits_append he suits_nil)

end suiting

namespace Holds

/-- Nothing has been read. -/
theorem start {v : Outlook} : Holds v false [] [] [] [] :=
  .top (show Suits v (leadSites [] []) from suits_nil)

variable {v : Outlook} {set : Bool} {buffer rest : List Pending}
  {counts : List Nat} {ws : List Token}
  {os : List Op} {e : Phrase} {code out : Array Instr} {p : Pending} {line : Nat}

theorem congr {set' : Bool} {counts' : List Nat} {ws' : List Token} {os' : List Op}
    (h : Holds v set buffer counts ws os) (hset : set = set') (hcounts : counts = counts')
    (hws : ws = ws') (hos : os = os') : Holds v set' buffer counts' ws' os' := by
  subst hset hcounts hws hos
  exact h

/-- Without anything pending, what has been read is in front of the last value. -/
theorem exists_leads (h : Holds v set [] counts ws os) : counts = [] ∧ ∃ leads : List Lead,
    Suits v (leadSites [] leads) ∧ set = leads.any Lead.isTarget ∧ ws = leads.flatMap Lead.words ∧
    os = leads.flatMap Lead.ops := by
  cases h with
  | top hleads => exact ⟨rfl, _, hleads, rfl, rfl, rfl⟩

/-- What has been read in front of a value in a group. -/
theorem exists_group (h : Holds v set (.paren false :: rest) counts ws os) :
    ∃ ws₀ os₀, ∃ es : List Phrase, Suits v (sitesAll os₀ es) ∧ Holds v set rest counts ws₀ os₀ ∧
      ws = ws₀ ++ .punct .lpar :: wordsOpen es ∧ os = os₀ ++ opsAll es := by
  cases h with
  | group hes h => exact ⟨_, _, _, hes, h, rfl, rfl⟩

/-- What has been read in front of a value in an index. -/
theorem exists_index (h : Holds v set (.index :: rest) counts ws os) :
    ∃ ws₀ os₀, ∃ a : Phrase, ∃ es : List Phrase, Suits v (a.sites os₀) ∧
      Suits v (sitesAll (os₀ ++ a.ops) es) ∧ Holds v set rest counts ws₀ os₀ ∧
      ws = (ws₀ ++ a.words) ++ .punct .lbrack :: wordsOpen es ∧
      os = os₀ ++ (a.ops ++ opsAll es) := by
  cases h with
  | index ha hes h => exact ⟨_, _, _, _, ha, hes, h, rfl, rfl⟩

/-- Operators that are let out complete their phrases. -/
theorem flushOps {pred : Op → Bool} (h : Holds v set buffer counts ws os)
    (he : Suits v (e.sites os)) (hcode : opsOf code = os ++ e.ops)
    (hflush : Yard.flushOps pred line code buffer = (out, rest)) :
    ∃ ws' os', ∃ e' : Phrase, Suits v (e'.sites os') ∧ Holds v set rest counts ws' os' ∧
      ws' ++ e'.words = ws ++ e.words ∧ opsOf out = os' ++ e'.ops := by
  induction h generalizing code e with
  | @unary set buffer counts ws os o op h ih =>
    rw [Yard.flushOps] at hflush
    split at hflush
    · obtain ⟨ws', os', e', he', hh, hws, hos⟩ := ih (e := .unary o op e) he
        (by rw [opsOf_push, hcode, Phrase.ops, List.append_assoc]) hflush
      exact ⟨ws', os', e', he', hh, by rw [hws, Phrase.words, List.append_assoc]; rfl, hos⟩
    · cases hflush
      exact ⟨_, _, e, he, .unary o op h, rfl, hcode⟩
  | @binary set buffer counts ws os a o op ha h ih =>
    rw [Yard.flushOps] at hflush
    split at hflush
    · obtain ⟨ws', os', e', he', hh, hws, hos⟩ := ih (e := .binary o op a e) (suits_append ha he)
        (by rw [opsOf_push, hcode, Phrase.ops]; simp only [List.append_assoc]) hflush
      refine ⟨ws', os', e', he', hh, ?_, hos⟩
      rw [hws, Phrase.words]
      simp only [List.append_assoc, List.singleton_append]
    · cases hflush
      exact ⟨_, _, e, he, .binary o op ha h, rfl, hcode⟩
  | top hleads =>
    -- only operators are pushed out: anything else stops them and waits on
    cases hflush
    exact ⟨_, _, e, he, .top hleads, rfl, hcode⟩
  | group hes h =>
    cases hflush
    exact ⟨_, _, e, he, .group hes h, rfl, hcode⟩
  | index ha hes h =>
    cases hflush
    exact ⟨_, _, e, he, .index ha hes h, rfl, hcode⟩
  | call hhead hcount hargs h =>
    cases hflush
    exact ⟨_, _, e, he, .call hhead hcount hargs h, rfl, hcode⟩
  | chain hx hf hgs hback hname htarget hcount hargs hsegments hes h =>
    cases hflush
    exact ⟨_, _, e, he, .chain hx hf hgs hback hname htarget hcount hargs hsegments hes h,
      rfl, hcode⟩

/-- Down to the innermost bracket operators are let out. -/
theorem flushUntil {stop : Pending → Bool} (hstop : ∀ o, stop (.op o) = false)
    (h : Holds v set buffer counts ws os) (he : Suits v (e.sites os))
    (hcode : opsOf code = os ++ e.ops) (hflush : Yard.flushUntil stop line code buffer
      = some (out, p, rest)) :
    stop p = true ∧ ∃ ws' os', ∃ e' : Phrase, Suits v (e'.sites os') ∧
    Holds v set (p :: rest) counts ws' os' ∧
      ws' ++ e'.words = ws ++ e.words ∧ opsOf out = os' ++ e'.ops := by
  -- an entry that is no operator stops the flush, or there is no bracket to flush down to
  have hbracket : ∀ {q : Pending} {buffer : List Pending} {counts : List Nat} {ws : List Token}
      {os : List Op} {set : Bool} {code : Array Instr} {e : Phrase},
      Holds v set (q :: buffer) counts ws os →
      (∀ o, q ≠ .op o) → Suits v (e.sites os) → opsOf code = os ++ e.ops →
      Yard.flushUntil stop line code (q :: buffer) = some (out, p, rest) →
      stop p = true ∧ ∃ ws' os', ∃ e' : Phrase, Suits v (e'.sites os') ∧
      Holds v set (p :: rest) counts ws' os' ∧
        ws' ++ e'.words = ws ++ e.words ∧ opsOf out = os' ++ e'.ops := by
    intro q buffer counts ws os set code e h hq he hcode hflush
    cases q with
    | op o => exact absurd rfl (hq o)
    | _ =>
      rw [Yard.flushUntil] at hflush
      · split at hflush
        · cases hflush
          exact ⟨‹_›, _, _, e, he, h, rfl, hcode⟩
        · cases hflush
      · exact fun _ h => by cases h
  induction h generalizing code e with
  | @unary set buffer counts ws os o op h ih =>
    rw [Yard.flushUntil, hstop] at hflush
    obtain ⟨hp, ws', os', e', he', hh, hws, hos⟩ := ih (e := .unary o op e) he
      (by rw [opsOf_push, hcode, Phrase.ops, List.append_assoc]) hflush
    exact ⟨hp, ws', os', e', he', hh, by rw [hws, Phrase.words, List.append_assoc]; rfl, hos⟩
  | @binary set buffer counts ws os a o op ha h ih =>
    rw [Yard.flushUntil, hstop] at hflush
    obtain ⟨hp, ws', os', e', he', hh, hws, hos⟩ := ih (e := .binary o op a e) (suits_append ha he)
      (by rw [opsOf_push, hcode, Phrase.ops]; simp only [List.append_assoc]) hflush
    refine ⟨hp, ws', os', e', he', hh, ?_, hos⟩
    rw [hws, Phrase.words]
    simp only [List.append_assoc, List.singleton_append]
  | top hleads => cases hflush
  | group hes h => exact hbracket (.group hes h) (fun _ h => by cases h) he hcode hflush
  | index ha hes h => exact hbracket (.index ha hes h) (fun _ h => by cases h) he hcode hflush
  | call hhead hcount hargs h =>
    exact hbracket (.call hhead hcount hargs h) (fun _ h => by cases h) he hcode hflush
  | chain hx hf hgs hback hname htarget hcount hargs hsegments hes h =>
    exact hbracket (.chain hx hf hgs hback hname htarget hcount hargs hsegments hes h)
      (fun _ h => by cases h)
      he hcode hflush

end Holds

/-! ### Code that ends in a segment -/

mutual

/-- The code of a phrase does not end in an instruction that collects a segment. -/
theorem Phrase.collects_of_getLast? {op : Op} :
    ∀ {e : Phrase}, e.ops.getLast? = some op → Op.collects op = false
  | .atom _ i, h => by
    cases h
    cases i <;> rfl
  | .group _, h => opsAll_collects_of_getLast? h
  | .unary _ _ _, h => by
    rw [Phrase.ops, List.getLast?_concat] at h
    cases h
    rfl
  | .binary _ _ _ _, h => by
    rw [Phrase.ops, List.getLast?_concat] at h
    cases h
    rfl
  | .index _ _, h => by
    rw [Phrase.ops, List.getLast?_concat] at h
    cases h
    rfl
  | .spread _, h => by
    rw [Phrase.ops, List.getLast?_concat] at h
    cases h
    rfl
  | .call _ _ _ _ _ ending, h => by
    rw [Phrase.ops, List.getLast?_concat] at h
    cases h
    -- A call ends with its own instruction, which is no `collects`.
    cases ending <;> rfl

/-- Arguments do not end in what collects a segment: there is a call behind it. -/
theorem opsAll_collects_of_getLast? {op : Op} :
    ∀ {es : List Phrase}, (opsAll es).getLast? = some op → Op.collects op = false
  | [], h => by cases h
  | e :: es, h => by
    rw [opsAll, List.getLast?_append, Option.or_eq_some_iff] at h
    rcases h with h | ⟨-, h⟩
    · exact opsAll_collects_of_getLast? h
    · exact Phrase.collects_of_getLast? h

end

/-- Phrases behind what ends in a segment have no instruction. -/
theorem opsAll_eq_nil_of_collectsLast {os : List Op} {es : List Phrase}
    (h : collectsLast (os ++ opsAll es) = true) : opsAll es = [] := by
  by_contra hne
  obtain ⟨op, hop⟩ := Option.ne_none_iff_exists'.1 fun h => hne (List.getLast?_eq_none_iff.1 h)
  rw [collectsLast, List.getLast?_append_of_ne_nil os hne, hop, Option.any_some,
    opsAll_collects_of_getLast? hop] at h
  cases h

/-- The compiler looks at the last instruction of the output. -/
theorem endsInSegment_eq (y : Yard) : endsInSegment y = collectsLast (opsOf y.code) := by
  rw [endsInSegment, collectsLast, opsOf, List.getLast?_map, Array.getLast?_toList]
  cases y.code.back? with
  | none => rfl
  | some i =>
    obtain ⟨op, line⟩ := i
    cases op <;> rfl

end Compile

end Covenant
