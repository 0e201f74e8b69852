import Covenant.Proofs.Compile.Layout
import Covenant.Proofs.Compile.Passages

/-!
# Calls fit what they call

A call is compiled against the signature that the called function has at that moment. Signatures are
declared in headers, no expression stands in a header, and behind its brace a signature stays what
it is (`Work.Grown`). So every call in a host's code fits the function that it calls, with the
signature that this has now (`Session.Reachable.served`).

The invariant goes along the entries of the table (`served_advance`): no call is one of the function
whose header is being read (`settled`). What an entry makes of the code of a block is said once
(`Continues`): statements and at most one expression are added, which fits the work that the entry
starts with.
-/

namespace Covenant

namespace Compile

open Structured

/-! ### Calls and the signatures they are compiled against -/

/-- The calls in a passage, each with the code of the passage in front of it. -/
def Passage.sites : Passage → List (List Op × Phrase)
  | statement _ => []
  | sentence p => p.sites

/-- What is said to be in front of a call is in front of it. -/
theorem Passage.ops_of_mem_sites {t : Passage} {q : List Op × Phrase} (h : q ∈ t.sites) :
    q.1 ++ q.2.ops <+: t.ops := by
  cases t with
  | statement => exact absurd h List.not_mem_nil
  | sentence p => exact Sentence.ops_of_mem_sites h

/-- Whether functions have the headings in one table of signatures that they have in another one. -/
def Agree (sig sig' : BlockId → Option FuncInfo) : Prop :=
  ∀ id f, sig id = some f → ∃ f', sig' id = some f' ∧ f'.heading = f.heading

section agreeing

variable {sig sig' : BlockId → Option FuncInfo} {finds : String → Option Binding} {os : List Op}
  {f f' : FuncInfo} {args : List Phrase} {back : List Constant}
  {segments : List (Token × List Phrase)}

theorem CollectsAt.congr (h : CollectsAt os f args back segments)
    (hsegments : f'.segments = f.segments) :
    CollectsAt os f' args back segments := by
  obtain ⟨hcollects, hmissing⟩ := h
  refine ⟨?_, hsegments.symm ▸ hmissing⟩
  rw [Collects] at hcollects ⊢
  rwa [hsegments]

/-- A call that fits does so for whatever has the same heading. -/
theorem Phrase.FitsAt.agree {u : Phrase} (h : u.FitsAt ⟨finds, sig⟩ os) (hagree : Agree sig sig') :
    u.FitsAt ⟨finds, sig'⟩ os := by
  cases h with
  | @func x id f args back segments hx hf htakes hcollects =>
    obtain ⟨f', hf', hheading⟩ := hagree id f hf
    simp only [FuncInfo.heading, Prod.mk.injEq] at hheading
    obtain ⟨-, hparams, hsegments, hvariadic⟩ := hheading
    rw [← hvariadic]
    refine .func hx hf' ?_ (hcollects.congr hsegments)
    rwa [FuncInfo.takes, hvariadic, hparams]
  | ext hcount htakes => exact .ext hcount htakes
  | named x args => exact .named x args

theorem Suits.agree {sites : List (List Op × Phrase)} (h : Suits ⟨finds, sig⟩ sites)
    (hagree : Agree sig sig') :
    Suits ⟨finds, sig'⟩ sites := fun q hq => (h q hq).agree hagree

end agreeing

/-- Whether code is that of written passages, and their calls fit the functions that they call. -/
def Served (sig : BlockId → Option FuncInfo) (os : List Op) : Prop :=
  ∃ ts, ReadAs os ts ∧ ∀ t ∈ ts, ∃ finds, Suits ⟨finds, sig⟩ t.sites

theorem Served.agree {sig sig' : BlockId → Option FuncInfo} {os : List Op} (h : Served sig os)
    (hagree : Agree sig sig') : Served sig' os := by
  obtain ⟨ts, hts, hsuits⟩ := h
  refine ⟨ts, hts, fun t ht => ?_⟩
  obtain ⟨finds, hfinds⟩ := hsuits t ht
  exact ⟨finds, hfinds.agree hagree⟩

/-! ### What an entry makes of code -/

/-- What an entry of the table makes of code: it adds instructions of statements and expressions of
some kind, gives an assignment another target, or moves the command that repeats a loop. -/
inductive Continues (P : Sentence → Prop) (os : List Op) : List Op → Prop
  | start : Continues P os os
  | statement {os' : List Op} {op : Op} : Continues P os os' → op.isStatement = true →
    Continues P os (os' ++ [op])
  | targets {os' : List Op} {ts ts' : List Target} : Continues P os (os' ++ [.assignVar ts]) →
      Continues P os (os' ++ [.assignVar ts'])
  | moves {os' : List Op} : Continues P os (os' ++ [.continue]) → Continues P os os'
  | sentence {os' : List Op} {p : Sentence} : Continues P os os' → P p →
    Continues P os (os' ++ p.ops)

section continuing

variable {P : Sentence → Prop} {os os' os'' : List Op}

/-- Code that is continued twice is continued. -/
theorem Continues.trans (h : Continues P os os') (h' : Continues P os' os'') :
    Continues P os os'' := by
  induction h' with
  | start => exact h
  | statement _ hop ih => exact .statement ih hop
  | targets _ ih => exact .targets ih
  | moves _ ih => exact .moves ih
  | sentence _ hp ih => exact .sentence ih hp

/-- Code stays served if the expressions that are added have calls that fit. -/
theorem Served.continues {sig : BlockId → Option FuncInfo} (h : Served sig os)
    (hP : ∀ p, P p → p.Written ∧ ∃ finds, Suits ⟨finds, sig⟩ p.sites)
    (hcontinues : Continues P os os') :
    Served sig os' := by
  -- a statement that is taken away leaves passages that have been there
  have hpop : ∀ {os : List Op} {op : Op}, op.isStatement = true → Served sig (os ++ [op]) →
    Served sig os := by
    rintro os op hop ⟨ts, hts, hsuits⟩
    obtain ⟨ts', hsub, hts'⟩ := hts.exists_of_concat hop
    exact ⟨ts', hts', fun t ht => hsuits t (hsub ht)⟩
  have hpush : ∀ {os : List Op} {op : Op}, op.isStatement = true → Served sig os →
    Served sig (os ++ [op]) := by
    rintro os op hop ⟨ts, hts, hsuits⟩
    refine ⟨_, hts.concat (t := .statement op) hop, fun t ht => ?_⟩
    rcases List.mem_append.1 ht with ht | ht
    · exact hsuits t ht
    · rw [List.mem_singleton.1 ht]
      exact ⟨fun _ => none, suits_nil⟩
  induction hcontinues with
  | start => exact h
  | statement _ hop ih => exact hpush hop ih
  | targets _ ih => exact hpush rfl (hpop rfl ih)
  | moves _ ih => exact hpop rfl ih
  | sentence _ hp ih =>
    obtain ⟨ts, hts, hsuits⟩ := ih
    obtain ⟨hwritten, hfinds⟩ := hP _ hp
    refine ⟨_, hts.concat (t := .sentence _) hwritten, fun t ht => ?_⟩
    rcases List.mem_append.1 ht with ht | ht
    · exact hsuits t ht
    · rw [List.mem_singleton.1 ht]
      exact hfinds

end continuing

variable {P : Sentence → Prop} {s : Source} {w w' w'' w₀ : Work} {i : Nat}

/-- Whether an entry may have made of all blocks what they are in another work. -/
def Work.Continued (P : Sentence → Prop) (w w' : Work) : Prop :=
  ∀ id, Continues P (w.block id).ops (w'.block id).ops

namespace Work.Continued

theorem of_arena (h : w'.arena = w.arena) : w.Continued P w' := by
  intro id
  rw [Work.block, Work.block, h]
  exact .start

theorem refl (w : Work) : w.Continued P w := of_arena rfl

theorem trans (h : w.Continued P w') (h' : w'.Continued P w'') : w.Continued P w'' :=
  fun id => (h id).trans (h' id)

/-- A change of one block continues the code if it does so for this block. -/
theorem modify {f : Block → Block} {id : BlockId}
    (h : Continues P (w.block id).ops (f (w.block id)).ops) :
    w.Continued P (w.modifyBlock id f) := by
  intro j
  show Continues P _ (Arena.block (Array.modify w.arena id f) j).ops
  rw [Arena.block_modify]
  split
  · rename_i hj
    obtain ⟨rfl, -⟩ := hj
    exact h
  · exact .start

/-- A change that has nothing to do with code. -/
theorem of_code {f : Block → Block} (h : ∀ b, (f b).code = b.code) (id : BlockId) :
    w.Continued P (w.modifyBlock id f) := by
  have hops : (f (w.block id)).ops = (w.block id).ops :=
    congrArg (fun code => code.toList.map Instr.op) (h _)
  exact modify (hops ▸ .start)

theorem emit {op : Op} (hop : op.isStatement = true) (id : BlockId) (line : Nat) :
    w.Continued P (w.modifyBlock id (·.emit ⟨op, line⟩)) := by
  refine modify ?_
  rw [Block.ops_emit]
  exact .statement .start hop

/-- A block that is opened has no code yet. -/
theorem openBlock (w : Work) : w.Continued P w.openBlock := by
  intro id
  have hcode : (w.openBlock.block id).ops = (w.block id).ops := by
    show (Arena.block (Array.modify _ _ _) id).ops = _
    rw [Arena.block_modify]
    have hpush : (Arena.block (w.arena.push { parent := some w.top }) id).ops
      = (w.block id).ops := by
      rw [Arena.block_push]
      split
      · rename_i hid
        rw [Work.block, Arena.block_of_le (Nat.le_of_eq hid.symm)]
        rfl
      · rfl
    split
    · exact hpush
    · exact hpush
  rw [hcode]
  exact .start

end Work.Continued

/-- Whether a step of compilation adds nothing but statements and expressions of some kind. -/
abbrev Adds {α : Type} (P : Sentence → Prop) (w : Work) (x : Compiling α) : Prop :=
  Leads w x fun _ w' => w.Continued P w'

/-- A block that is closed may get an instruction that ends it. -/
theorem adds_closeBlock (i : Nat) : Adds P w (closeBlock s i) := by
  refine .get ?_
  split
  · exact .throw _
  · rename_i child rest _
    have hinner : w.Continued P { w with inner := rest } := .of_arena rfl
    dsimp only
    split
    · rename_i repeats hback
      refine .ite (fun hdangling => .set ?_) fun _ => .set hinner
      have hrepeats := op_of_dangling hback hdangling
      have hpop : ({ w with inner := rest } : Work).Continued P
          (({ w with inner := rest } : Work).modifyTop fun b => { b with code := b.code.pop }) := by
        refine .modify ?_
        obtain ⟨code, hcode⟩ := Array.back?_eq_some_iff.1 hback
        rw [Block.ops, Block.ops, hcode, Array.pop_push, Array.toList_push,
          List.map_append, List.map_singleton,
          hrepeats]
        exact .moves .start
      refine hinner.trans (hpop.trans (.modify ?_))
      rw [Block.ops_emit, hrepeats]
      exact .statement .start rfl
    · exact .set hinner

/-- A target is added to an assignment that has been begun, or begins one. -/
theorem adds_addTarget (t : Target) (line : Nat) :
    w.Continued P (w.modifyTop fun b => addTarget b t line) := by
  refine .modify ?_
  unfold addTarget
  split
  · rename_i targets l hback
    obtain ⟨code, hcode⟩ := Array.back?_eq_some_iff.1 hback
    simp only [Block.ops, hcode, Array.pop_push, Array.toList_push,
      List.map_append, List.map_singleton]
    exact .targets .start
  · rw [Block.ops_emit]
    exact .statement .start rfl

theorem code_modifyFunc (f : FuncInfo → FuncInfo) (b : Block) : (b.modifyFunc f).code = b.code := by
  obtain ⟨_, info, _, _, _, _⟩ := b
  cases info <;> rfl

theorem code_modifyContract (f : ContractInfo → ContractInfo) (b : Block) :
    (b.modifyContract f).code = b.code := by
  obtain ⟨_, info, _, _, _, _⟩ := b
  cases info <;> rfl

/-- Variables and parameters are declared without code. -/
theorem code_foldl {f : Block → String → Block} (hf : ∀ b x, (f b x).code = b.code)
    (xs : List String) (b : Block) : (xs.foldl f b).code = b.code := by
  induction xs generalizing b with
  | nil => rfl
  | cons x xs ih => exact (ih _).trans (hf b x)

/-- No action adds an expression. -/
theorem adds_act (a : Grammar.Action) (i : Nat) : Adds P w (act s a i) := by
  have hwait : ∀ (f : Fault), Adds P w (do
      let w ← get
      let name := s.name i
      if taken w name then failAt s f i
      set { w with pending := w.pending ++ [name] } : Compiling Unit) :=
    fun f => .get (.ite (fun _ => .throw_bind _) fun _ => .set (.of_arena rfl))
  have hcontract : ∀ (w : Work) (f : ContractInfo → ContractInfo),
      w.Continued P (w.modifyTop (·.modifyContract f)) :=
      fun w f => .of_code (code_modifyContract f) _
  have hinContract : ∀ (f : Fault) {k : Unit → Compiling Unit}, (∀ w', w' = w → Adds P w' (k ())) →
      Adds P w (inContract s f i >>= k) := fun f k hk =>
    .bind (P := fun _ w' => w' = w) (.get (.ite (fun _ => .throw _) fun _ => .pure rfl))
      fun _ w' hw' => hw' ▸ hk w' hw'
  have hparams : ∀ (t : Ty) (variadic : Bool), Adds P w (declareParams s t variadic i) := by
    intro t variadic u w' hrun
    obtain ⟨-, rfl⟩ := leads_declareParams t variadic u w' hrun
    have hpending : w.Continued P { w with pending := [] } := .of_arena rfl
    exact hpending.trans (.of_code (code_foldl (fun b x => code_modifyFunc _ (b.declare x t)) _) _)
  -- An action emits fixed instructions, or changes what else a
  -- block says; none of them calls anything.
  cases a with
  | none => exact .pure (.refl w)
  | nameBlock =>
    have hnamed : ∀ (info : BlockInfo) (key : String) (v : Binding), w.Continued P
        ((w.modifyTop fun b => { b with info := info }).modifyBlock w.parent fun b =>
          { b with objects := b.objects.insert key v }) := by
      intro info key v
      have hinfo : w.Continued P (w.modifyTop fun b => { b with info := info }) :=
      .of_code (by exact fun _ => rfl) _
      exact hinfo.trans (.of_code (by exact fun _ => rfl) _)
    refine .get ?_
    dsimp only
    split <;> exact .ite (fun _ => .throw_bind _) fun _ => .set (hnamed _ _ _)
  | param | var => exact hwait _
  | paramType | paramTail => exact hparams _ _
  | result =>
    unfold act result
    dsimp only
    split
    · exact .modify (.of_code (code_modifyFunc _) _)
    · exact .pure (.refl w)
  | segment =>
    refine .get ?_
    dsimp only
    split
    · exact .pure (.refl w)
    · exact .ite (fun _ => .throw_bind _) fun _ => .set (.of_code (code_modifyFunc _) _)
  | «if» => exact .modify (.emit rfl _ _)
  | «else» =>
    refine .get ?_
    split
    · exact .modify (.emit rfl _ _)
    · exact .throw _
  | «while» =>
    exact .bind (P := fun _ w' => w.Continued P w') (.modify (.emit rfl _ _)) fun _ w' h =>
      .modify (h.trans (.emit rfl _ _))
  | «return» | «continue» | «break» | raise | assign => exact .modify (.emit rfl _ _)
  | varType =>
    have hdeclare : ∀ (b : Block) (name : String), (b.declare name (typeAt s i)).code = b.code :=
      fun _ _ => rfl
    have hdeclared : w.Continued P (w.modifyTop fun b =>
        w.pending.foldl (fun b name => b.declare name (typeAt s i)) b) :=
          .of_code (code_foldl hdeclare _) _
    exact .modify (hdeclared.trans (.of_arena rfl))
  | assignVar =>
    refine .get (.ite (fun _ => .ite (fun _ => .throw_bind _) fun _ => .set (adds_addTarget _ _))
      fun _ => ?_)
    split
    · exact .set (adds_addTarget _ _)
    · exact .throw_bind _
  | data => exact hinContract _ fun w' hw' => .modify ((hcontract w' _).trans (.of_arena rfl))
  | settings => exact .get (.ite (fun _ => .throw _) fun _ => .pure (.refl w))
  | constName => exact .modify (.of_arena rfl)
  | constValue => exact hinContract _ fun w' hw' => .modify ((hcontract w' _).trans (.of_arena rfl))
  | field =>
    refine .get ?_
    cases w.fieldStep with
    | name | type | tag => exact .throw_bind _
    | start | comma =>
      refine .ite (fun _ => .throw_bind _) fun _ => ?_
      dsimp only
      split
      · exact .pure (.refl w)
      · exact .set ((hcontract w _).trans (.of_arena rfl))
  | fieldType | fieldTag =>
    exact .get (.ite (fun _ => .throw_bind _) fun _ => .set ((hcontract w _).trans (.of_arena rfl)))
  | fieldComma | fieldLine =>
    exact .get (.ite (fun _ => .throw_bind _) fun _ => .set (.of_arena rfl))
  | fields =>
    exact .bind (P := fun _ w' => w.Continued P w')
      (.get (.ite (fun _ => .throw_bind _) fun _ => .set (.of_arena rfl)))
      fun _ w' h => .modify (h.trans (.of_code (by exact fun _ => rfl) _))

/-! ### Expressions and entries -/

/-- Whether a sentence is written, and its calls fit a work. -/
def Spoken (s : Source) (w : Work) (p : Sentence) : Prop := p.Written ∧ Suits (w.outlook s) p.sites

section entries

variable {text : String} {lexemes : Array Lexeme} {scope : Scope} {c : Cursor} {k : Kind}

/-- An expression adds its sentence. -/
theorem adds_expression (hread : Lexeme.read text = .ok lexemes)
    (houtlook : w.outlook (scope.source lexemes) = w₀.outlook (scope.source lexemes))
    (hnamed : (w₀.outlook (scope.source lexemes)).Named) (blockFollows : Bool) (start : Nat) :
    Adds (Spoken (scope.source lexemes) w₀) w
    (expression (scope.source lexemes) blockFollows start) := by
  refine .bind (P := fun r w' => takeAll (scope.source lexemes) blockFollows
    ((scope.source lexemes).lexemes.size - start) {} start w = .ok r w' ∧
    Refers (scope.source lexemes) w w')
    (fun r w' hr => ⟨hr, refers_takeAll blockFollows _ (.refl _ w) start r w' hr⟩) ?_
  rintro ⟨y, stop⟩ w' ⟨htake, hw'⟩
  refine .bind (.lift (Q := fun code w'' => w'' = w' ∧
    finish (scope.source lexemes) y stop = .ok code)
    fun code hcode => ⟨rfl, hcode⟩) ?_
  rintro code w'' ⟨rfl, hfinish⟩
  -- What was read is a sentence, and its instructions are those that are added.
  obtain ⟨hle, p, hwords, hops, hsuits⟩ := sentence_takeAll (houtlook ▸ hnamed) htake hfinish
  have hp : Spoken (scope.source lexemes) w₀ p :=
    ⟨⟨text, lexemes, hread, scope, w, start, stop, hle, hwords, hsuits.fits⟩, houtlook ▸ hsuits⟩
  have hsame : w.Continued (Spoken (scope.source lexemes) w₀) w'' := by
    intro id
    rw [Block.ops, Block.ops, hw'.code id]
    exact .start
  refine .bind (P := fun _ w' => w.Continued (Spoken (scope.source lexemes) w₀) w')
    (.modify (hsame.trans (.modify ?_))) fun _ _ h => .pure h
  rw [Block.ops, Block.ops, Array.toList_append, List.map_append,
    show code.toList.map Instr.op = p.ops from hops]
  exact .sentence .start hp

/-- What an expression in an entry adds is the code of a sentence. -/
theorem adds_entryExpression (hread : Lexeme.read text = .ok lexemes)
    (hnamed : (w.outlook (scope.source lexemes)).Named) (f : Grammar.Flags) (i : Nat) :
    Adds (Spoken (scope.source lexemes) w) w (entryExpression (scope.source lexemes) f i) := by
  have hrest : ∀ w', w'.outlook (scope.source lexemes) = w.outlook (scope.source lexemes) →
      Adds (Spoken (scope.source lexemes) w) w' (do
        let before := ((← get).block (← get).top).code.size
        let stop ← expression (scope.source lexemes) f.toBlock (if f.toFork then i else i + 1)
        if f.mustEval && ((← get).block (← get).top).code.size == before then
          failAt (scope.source lexemes) .missingExpression i
        return stop) := fun w' houtlook =>
    .get (.get (.bind (adds_expression hread houtlook hnamed _ _) fun _ _ h =>
      .get (.get (.ite (fun _ => .throw_bind _) fun _ => .pure h))))
  refine .ite (fun _ => ?_) fun _ => hrest w rfl
  -- a label changes nothing that calls refer to
  have hlabel : ∀ id,
    ((w.modifyTop (·.emit ⟨.label, (scope.source lexemes).line i⟩)).block id).objects
        = (w.block id).objects ∧
      ((w.modifyTop (·.emit ⟨.label, (scope.source lexemes).line i⟩)).block id).func?
        = (w.block id).func? := by
    intro id
    rw [Work.modifyTop, Work.block, Work.modifyBlock, Arena.block_modify]
    split
    · rename_i hid
      obtain ⟨rfl, -⟩ := hid
      exact ⟨rfl, rfl⟩
    · exact ⟨rfl, rfl⟩
  refine .bind (P := fun _ w' => w' = w.modifyTop (·.emit ⟨.label, (scope.source lexemes).line i⟩))
    (.modify rfl)
    fun _ w' hw' => ?_
  subst hw'
  have houtlook : (w.modifyTop (·.emit ⟨.label, (scope.source lexemes).line i⟩)).outlook
    (scope.source lexemes)
      = w.outlook (scope.source lexemes) := Work.outlook_congr rfl (fun id => (hlabel id).1)
    fun id => congrArg (Option.map FuncInfo.signature) (hlabel id).2
  have hemit : w.Continued (Spoken (scope.source lexemes) w)
      (w.modifyTop (·.emit ⟨.label, (scope.source lexemes).line i⟩)) := .emit rfl _ _
  exact fun a w' hrun => hemit.trans (hrest _ houtlook a w' hrun)

/-- What an entry does behind its expression adds no call. -/
theorem adds_endEntry (f : Grammar.Flags) (action : Grammar.Action) (next : Grammar.State)
    (here fork behind : Nat) : Adds P w (endEntry s f action next here fork behind) := by
  have hact : ∀ w₁ : Work, w.Continued P w₁ → Leads w₁ (do
      let state := stateBehind f next (← get).inner.isEmpty
      act s action here
      return (⟨state, fork, behind⟩ : Cursor)) fun _ w' => w.Continued P w' := fun w₁ h₁ =>
    .get (.bind (adds_act action here) fun _ _ h₂ => .pure (h₁.trans h₂))
  have hclose : ∀ w₁ : Work, w.Continued P w₁ → Leads w₁ (do
      if f.pop then closeBlock s here
      let state := stateBehind f next (← get).inner.isEmpty
      act s action here
      return (⟨state, fork, behind⟩ : Cursor)) fun _ w' => w.Continued P w' := fun w₁ h₁ =>
    .ite (fun _ => .bind (adds_closeBlock here) fun _ w₂ h₂ => hact w₂ (h₁.trans h₂))
      fun _ => hact w₁ h₁
  exact .ite (fun _ => .bind (P := fun _ w₁ => w.Continued P w₁) (.modify (.openBlock w))
    fun _ => hclose)
    fun _ => hclose w (.refl w)

/-- **What an entry adds fits the work that it starts with.** -/
theorem adds_advance (hread : Lexeme.read text = .ok lexemes)
    (hnamed : (w.outlook (scope.source lexemes)).Named) :
    Adds (Spoken (scope.source lexemes) w) w (advance (scope.source lexemes) k c) := by
  cases hentry : Grammar.entry c.state k with
  | fail expected =>
    unfold advance
    rw [hentry]
    exact .throw _
  | go next f action =>
    cases hstay : f.stay with
    | true =>
      unfold advance
      rw [hentry]
      dsimp only
      rw [hstay]
      exact .pure (.refl w)
    | false =>
      rw [advance_eq hentry hstay]
      refine .bind (P := fun _ w₁ => w.Continued (Spoken (scope.source lexemes) w) w₁) ?_
        fun behind w₁ h₁ c' w' hrun =>
        h₁.trans (adds_endEntry f action _ _ _ behind c' w' hrun)
      exact .ite (fun _ => adds_entryExpression hread hnamed f _) fun _ => .pure (.refl w)

end entries

/-! ### Signatures that stay -/

/-- The signatures that calls are compiled against at a cursor. A function whose header is being
read is not called. -/
def settled (c : Cursor) (w : Work) (id : BlockId) : Option FuncInfo :=
  if inHeader c.state = true ∧ id = w.top then none else (w.block id).func?

section settling

variable {a : Arena} {c c' : Cursor} {k : Kind} {id : BlockId} {f : FuncInfo}

theorem settled_of_not_inHeader (h : inHeader c.state = false) (w : Work) :
    settled c w = fun id => (w.block id).func? :=
  funext fun _ => if_neg fun hid => Bool.false_ne_true (h.symm.trans hid.1)

/-- The header of a function is settled once the reader has left it. -/
theorem settled_eq_some : settled c w id = some f ↔
    (inHeader c.state = true → id ≠ w.top) ∧ (w.block id).func? = some f := by
  rw [settled]
  split
  · rename_i h
    exact ⟨fun hnone => (by cases hnone), fun hf => absurd h.2 (hf.1 h.1)⟩
  · rename_i h
    exact ⟨fun hf => ⟨fun hst hid => h ⟨hst, hid⟩, hf⟩, fun hf => hf.2⟩

/-- A signature stays if the block keeps it, and it is not that of the header that is read next. -/
theorem agree_settled (h : ∀ id f, settled c w id = some f → (w.block id).Extends (w'.block id) ∧
    (inHeader c'.state = true → id ≠ w'.top)) : Agree (settled c w) (settled c' w') := by
  intro id f hf
  obtain ⟨hext, htop⟩ := h id f hf
  have hheading := hext.heading
  rw [(settled_eq_some.1 hf).2] at hheading
  obtain ⟨f', hf', heq⟩ := Option.map_eq_some_iff.1 hheading
  exact ⟨f', settled_eq_some.2 ⟨htop, hf'⟩, heq⟩

/-- Where all signatures are kept, and no function's header is read next. -/
theorem agree_of_grown (hgrown : w.Grown w')
    (htop : inHeader c'.state = true → (w'.block w'.top).func? = none) :
    Agree (settled c w) (settled c' w') := by
  refine agree_settled fun id f hf => ⟨hgrown id, fun hst hid => ?_⟩
  have hsome := (hgrown id).isSome
  rw [(settled_eq_some.1 hf).2, hid, htop hst] at hsome
  cases hsome

/-- **An entry keeps the signatures that calls are compiled against.** -/
theorem agree_advance (ht : Titled a w₀) (hs : s.Spelled) (hspelled : w₀.arena.Every Block.Spelled)
    (hk : s.kind? c.position = some k) (hstands : Stands s w₀ c w) (h : Headings a s c w) :
    Leads w (advance s k c) fun c' w' => Agree (settled c w) (settled c' w') := by
  cases hentry : Grammar.entry c.state k with
  | fail expected =>
    unfold advance
    rw [hentry]
    exact .throw _
  | go next f action =>
    by_cases hst : inHeader c.state = true
    · -- only the function whose header is read changes
      have hheader := headerEntry_of_entry hentry hst
      obtain ⟨⟨heval, -, -⟩, -, rfl | ⟨rfl, rfl, hstay⟩⟩ := hheader.flags
      · refine leads_goTo hentry heval fun u w' hrun => ?_
        have hretouched := retouched_header hheader u w' hrun
        refine agree_settled fun id f hf => ?_
        have hid := (settled_eq_some.1 hf).1 hst
        exact ⟨hretouched.others id hid, fun _ => hretouched.top ▸ hid⟩
      · unfold advance
        rw [hentry]
        exact .pure (agree_settled fun id f hf => ⟨.refl _, fun _ => (settled_eq_some.1 hf).1 hst⟩)
    · by_cases hname : c.state = .func ∨ c.state = .contract
      · -- the block that gets a name has just been opened
        obtain ⟨w₁, hedits, rfl⟩ : ∃ w₁, Edits s w₀ w₁ ∧ w = w₁.openBlock := by
          unfold Stands at hstands
          rcases hname with hname | hname <;> rw [hname] at hstands
          · obtain ⟨w₁, hedits, hw, -⟩ := hstands
            exact ⟨w₁, hedits, hw⟩
          · obtain ⟨w₁, hedits, hw, -⟩ := hstands
            exact ⟨w₁, hedits, hw⟩
        have htop := ((ht.edits hedits).beside.opened w₁.top (top_mem_opened w₁)).2
        obtain ⟨rfl, rfl, rfl, hfunc, hcontract⟩ := name_of_entry hname hentry
        have heval : next ≠ .eval := by
          rcases hname with hname | hname
          · rw [hfunc hname]
            decide
          · rw [hcontract hname]
            decide
        refine leads_goTo hentry heval fun u w' hrun => ?_
        obtain ⟨info, hnamed, -⟩ := leads_named htop u w' hrun
        refine agree_settled fun id f hf => ?_
        have hid : id ≠ w₁.arena.size := by
          rintro rfl
          have hnew := (settled_eq_some.1 hf).2
          rw [Work.block_openBlock_new htop] at hnew
          cases hnew
        exact ⟨hnamed.others id hid, fun _ => hnamed.top ▸ hid⟩
      · have hspelled' := (editInvariant_spelled hs).edits hspelled hstands.edits
        have hno := Bool.eq_false_iff.2 hst
        obtain ⟨hnotFunc, hnotContract⟩ := not_or.1 hname
        have hmatched : Matched a s w c.start := h.matched hnotFunc fun hst' => absurd hst' hst
        cases plainEntry_of_entry hentry hno ⟨hnotFunc, hnotContract⟩ with
        | stays hstay hnext =>
          unfold advance
          rw [hentry]
          dsimp only
          rw [hstay]
          refine .pure (agree_of_grown (.refl w) fun hst' => ?_)
          rw [show inHeader next = true from hst'] at hnext
          cases hnext.1
        | func hkind | contract hkind =>
          rw [advance_eq hentry rfl]
          exact leads_opened rfl (agree_of_grown (.openBlock w) fun hst' => by cases hst')
        | control hkind hstay hpush hpop ha hlands =>
          have hact : declaresHeader action = false := by rcases ha with rfl | rfl | rfl <;> rfl
          intro c' w' hrun
          obtain ⟨hgrown, -, -, hplain⟩ :=
            leads_passage hs hspelled' hk hentry hstay hkind hact hmatched c' w' hrun
          exact agree_of_grown hgrown fun _ => hplain ha hpush hpop
        | other hkind hstay hact hlands =>
          intro c' w' hrun
          obtain ⟨hgrown, -, ⟨atRoot, hstate⟩, -⟩ :=
            leads_passage hs hspelled' hk hentry hstay hkind hact hmatched c' w' hrun
          refine agree_of_grown hgrown fun hst' => ?_
          rw [hstate, (hlands atRoot).1] at hst'
          cases hst'

end settling

/-! ### Units -/

section units

variable {a : Arena} {text : String} {lexemes : Array Lexeme} {scope : Scope}
  {c : Cursor} {k : Kind}

/-- No expression stands in a header. -/
theorem adds_header (hst : inHeader c.state = true) : Adds P w (advance s k c) := by
  cases hentry : Grammar.entry c.state k with
  | fail expected =>
    unfold advance
    rw [hentry]
    exact .throw _
  | go next f action =>
    obtain ⟨⟨heval, -, -⟩, -, rfl | ⟨rfl, -, -⟩⟩ := (headerEntry_of_entry hentry hst).flags
    · exact leads_goTo hentry heval (adds_act action _)
    · unfold advance
      rw [hentry]
      exact .pure (.refl w)

/-- **Calls fit what they call**, whatever an entry of the table does. -/
theorem served_advance (hread : Lexeme.read text = .ok lexemes) (ht : Titled a w₀)
    (hspelled : w₀.arena.Every Block.Spelled)
    (hk : (scope.source lexemes).kind? c.position = some k)
    (hstands : Stands (scope.source lexemes) w₀ c w)
    (hheadings : Headings a (scope.source lexemes) c w)
    (h : ∀ id, Served (settled c w) (w.block id).ops) :
    Leads w (advance (scope.source lexemes) k c) fun c' w' =>
    ∀ id, Served (settled c' w') (w'.block id).ops := by
  have hs := spelled_of_read hread scope
  intro c' w' hrun id
  refine Served.agree ?_ (agree_advance ht hs hspelled hk hstands hheadings c' w' hrun)
  by_cases hst : inHeader c.state = true
  · exact (h id).continues (P := fun _ => False) nofun (adds_header hst c' w' hrun id)
  · have hnamed := named_outlook (s := scope.source lexemes)
      ((editInvariant_spelled hs).edits hspelled hstands.edits)
    refine (h id).continues (fun p hp => ⟨hp.1, _, hp.2.agree ?_⟩)
      (adds_advance hread hnamed c' w' hrun id)
    rw [settled_of_not_inHeader (Bool.eq_false_iff.2 hst)]
    intro g f hf
    obtain ⟨f', hf', rfl⟩ := Option.map_eq_some_iff.1 hf
    exact ⟨f', hf', rfl⟩

end units

end Compile

/-- Whether the calls in the code of all blocks fit the functions that they call. -/
def Arena.Serves (a : Arena) :
    Prop := ∀ id, Compile.Served (fun g => (a.block g).func?) (a.block id).ops

namespace Arena.Serves

variable {a : Arena}

/-- A new unit serves what the others do. -/
theorem push (h : a.Serves) : Serves (a.push { parent := none }) := by
  have hagree : Compile.Agree (fun g => (a.block g).func?)
      fun g => (Arena.block (a.push { parent := none }) g).func? := by
    intro g f hf
    refine ⟨f, ?_, rfl⟩
    dsimp only
    rw [Arena.block_push, if_neg]
    · exact hf
    · rintro rfl
      change (a.block _).func? = some f at hf
      rw [Arena.block_of_le (Nat.le_refl _)] at hf
      cases hf
  intro id
  rw [Arena.block_push]
  split
  · exact ⟨[], ⟨rfl, nofun⟩, nofun⟩
  · exact (h id).agree hagree

/-- Changes of what is no part of a heading keep that calls fit. -/
theorem modify {id : BlockId} {f : Block → Block} (h : a.Serves) (hops : ∀ b, (f b).ops = b.ops)
    (hheading : ∀ b : Block, (f b).func?.map FuncInfo.heading = b.func?.map FuncInfo.heading) :
    Serves (a.modify id f) := by
  have hagree : Compile.Agree (fun g => (a.block g).func?) fun g =>
    (Arena.block (a.modify id f) g).func? := by
    intro g i hi
    dsimp only
    rw [Arena.block_modify]
    split
    · change (a.block g).func? = some i at hi
      have hsome := hheading (a.block g)
      rw [hi] at hsome
      exact Option.map_eq_some_iff.1 hsome
    · exact ⟨i, hi, rfl⟩
  intro g
  have hsame : (Arena.block (a.modify id f) g).ops = (a.block g).ops := by
    rw [Arena.block_modify]
    split
    · exact hops _
    · rfl
  exact (hsame ▸ h g).agree hagree

/-- A unit that compiles keeps that calls fit. -/
theorem compile {a' : Arena} {scope : Scope} {text : String} {root : BlockId} (h : a.Serves)
    (hspelled : a.Every Block.Spelled) (hcompile : a.compile scope text = .ok (root, a')) :
    a'.Serves := by
  obtain ⟨-, lexemes, hread, w, rfl, hunit, -, hinner, -⟩ := Arena.compile_edits hcompile
  have hs := Compile.spelled_of_read hread scope
  have hspelled' : Arena.Every Block.Spelled (a.push { parent := none }) :=
    hspelled.push ((Compile.editInvariant_spelled hs).empty none)
  have hstart : ∀ id, Compile.Served
    (Compile.settled {} { arena := a.push { parent := none }, root := a.size })
      (Arena.block (a.push { parent := none }) id).ops := by
    rw [Compile.settled_of_not_inHeader rfl]
    exact h.push
  obtain ⟨c, -, hstands, -, hserved⟩ := Compile.leads_readAll (c := {})
    (I := fun c w => Compile.Stands (scope.source lexemes)
      { arena := a.push { parent := none }, root := a.size } c w ∧
      Compile.Headings a (scope.source lexemes) c w ∧
      ∀ id, Compile.Served (Compile.settled c w) (w.block id).ops)
    (fun hk h c' w' hrun => ⟨(Compile.tends_advance hk h.1).leads c' w' hrun,
      Compile.headings_advance (.start a) hs hspelled' hk h.1 h.2.1 c' w' hrun,
      Compile.served_advance hread (.start a) hspelled' hk h.1 h.2.1 h.2.2 c' w' hrun⟩)
    _ ⟨⟨.refl, rfl, rfl⟩, .start _, hstart⟩ () w (Compile.leads_unit _ _ () w hunit)
  have hroot := hstands.root hinner
  rw [Compile.settled_of_not_inHeader (by rw [hroot]; rfl)] at hserved
  exact hserved

end Arena.Serves

namespace Registry

/-- A unit that is entered into the registry is served there. -/
theorem enter_serves {r : Registry} (h : r.arena.Serves) (child : BlockId) :
    (r.enter child).arena.Serves := by
  unfold enter
  split
  · exact h
  · refine h.modify (fun b => Block.ops_setId b _) fun b => ?_
    obtain ⟨_, info, _, _, _, _⟩ := b
    cases info <;> rfl

/-- In a host's registry calls fit the functions that they call. -/
theorem serves_invariant : TableInvariant fun a _ => a.Serves where
  empty id := by
    rw [Arena.block_of_le (Nat.zero_le id)]
    exact ⟨[], ⟨rfl, nofun⟩, nofun⟩
  extend _ h := h
  compile {s r state text} hs h hcompile := by
    obtain ⟨root, arena, hunit, rfl⟩ := compile_eq_ok.1 hcompile
    have harena := h.compile (hs.every Block.Spelled.invariant) hunit
    have hall : ∀ (ids : List BlockId) (r : Registry), r.arena.Serves →
      (ids.foldl enter r).arena.Serves := by
      intro ids
      induction ids with
      | nil => exact fun _ h => h
      | cons id ids ih => exact fun r h => ih _ (enter_serves h id)
    rw [enterUnit, ← Array.foldl_toList]
    exact hall _ _ harena
  condition {s r state text id} hs h hcompile := by
    rcases compileEval_cases hcompile with rfl | ⟨arena, hunit, rfl, rfl⟩
    · exact h
    · refine (h.compile (hs.every Block.Spelled.invariant) hunit).modify
        (Block.ops_modifyFunc _) fun b => ?_
      obtain ⟨_, info, _, _, _, _⟩ := b
      cases info <;> rfl

end Registry

/-- **Calls fit what they call**: the code of a host's blocks is that of written expressions, and
each call in them fits the function that it calls where it stands. -/
theorem Session.Reachable.served {s : Session} (h : s.Reachable) (id : BlockId) :
    Compile.Served (fun g => (s.registry.block g).func?) (s.registry.block id).ops :=
  h.table Registry.serves_invariant id

end Covenant
