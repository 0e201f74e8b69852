import Covenant.Proofs.Compile.Sentences
import Covenant.Proofs.Compile.Yards

/-!
# Every expression is read as a sentence

Every expression that compiles is read as a sentence: its tokens are those of the source between
where it starts and where it stops, line ends aside, its code is what it adds to the innermost
block, and every call in it fits what its name is bound to, where it stands (`sentence_expression`).

The invariant is `Yard.Spells`: what has been read is what is pending (`Holds`) and the operand
behind it, if the last token ends one. Each step of the compiler keeps it.
-/

namespace Covenant.Compile

open Covenant.Computation Structured

/-! ### What calls refer to stays -/

/-- What calls refer to stays where the same blocks are open, with the same names and signatures. -/
theorem Work.outlook_congr {s : Source} {w w' : Work} (hopened : w'.opened = w.opened)
    (hobjects : ∀ id, (w'.block id).objects = (w.block id).objects)
    (hsignatures : ∀ id, ((w'.block id).func?).map FuncInfo.signature
      = ((w.block id).func?).map FuncInfo.signature) : w'.outlook s = w.outlook s := by
  have hkey : ∀ key, w'.findKey s key = w.findKey s key := by
    intro key
    rw [Work.findKey, hopened]
    simp only [hobjects]
    rfl
  have hfinds : w'.find s = w.find s := by
    funext name
    rw [Work.find, hkey, hkey, Work.find]
  rw [Work.outlook, hfinds, Work.outlook]
  exact congrArg _ (funext hsignatures)

/-- Whether calls refer to what they do in another work, and the code there is the same. -/
structure Refers (s : Source) (w₀ w : Work) : Prop where
  steady : Steady w₀.callShapes w₀ w
  outlook : w.outlook s = w₀.outlook s
  code : ∀ id, (w.block id).code = (w₀.block id).code

namespace Refers

variable {s : Source} {w₀ w : Work}

theorem refl (s : Source) (w : Work) : Refers s w w := ⟨⟨rfl, rfl, rfl, rfl⟩, rfl, fun _ => rfl⟩

/-- A mark changes nothing that calls refer to. -/
theorem setWritable (hw : Refers s w₀ w) : Refers s w₀ w.setWritable := by
  refine ⟨hw.steady.setWritable,
    .trans (Work.outlook_congr w.opened_setWritable w.objects_setWritable
    fun id => ?_) hw.outlook, fun id => .trans ?_ (hw.code id)⟩
  all_goals
    rw [Work.block_setWritable]
    split
    · obtain ⟨_, info, _, _, _, _⟩ := w.block id
      cases info <;> rfl
    · rfl

/-- Nor does a noted use. -/
theorem noteUse (hw : Refers s w₀ w) (contract : String) : Refers s w₀ (w.noteUse contract) := by
  refine ⟨hw.steady.noteUse contract,
    .trans (Work.outlook_congr ?_ (fun id => ?_) fun id => ?_) hw.outlook,
    fun id => .trans ?_ (hw.code id)⟩
  · rw [Work.opened, Work.inner_noteUse, Work.root_noteUse, Work.opened]
  · rw [Work.block_noteUse]
    split
    · exact objects_noted contract _
    · rfl
  all_goals
    rw [Work.block_noteUse]
    split
    · obtain ⟨_, info, _, _, _, _⟩ := w.block id
      cases info <;> rfl
    · rfl

end Refers

/-! ### The work that an expression leaves -/

section referring

variable {s : Source} {w₀ w : Work} {y : Yard}

/-- To open a call may note a use. -/
theorem refers_openCall (hw : Refers s w₀ w) (name : String) (i : Nat) :
    Leads w (openCall s name i y) fun _ w' => Refers s w₀ w' := by
  -- contracts that are called by name go through the extension that runs contracts
  have hrunner : ∀ (w : Work) (name : String), Refers s w₀ w → Leads w (do
      let e ← contractRunner s i
      return (y.emit (.push (.str name)) (s.line i),
        ({ target := .ext e, contract := true, line := s.line i } : PendingCall)))
      fun _ w' => Refers s w₀ w' := by
    intro w name hw
    refine .bind (P := fun _ w' => w' = w) ?_ fun e w' hw' => .pure (hw' ▸ hw)
    unfold contractRunner
    split
    · exact .pure rfl
    · exact .throw _
  refine .get ?_
  dsimp only
  split
  · exact .pure hw
  · exact .ite (fun _ => .pure hw) fun _ => .pure hw
  · -- a contract that the compiler knows is noted, and its mark is taken over
    have hnoted : ∀ (contract : String) (b : Bool), Refers s w₀ (if b = true then
        (w.noteUse contract).setWritable else w.noteUse contract) := by
      intro contract b
      cases b with
      | true => exact (hw.noteUse contract).setWritable
      | false => exact hw.noteUse contract
    exact .get (.ite (fun _ => .throw_bind _) fun _ => .bind (P := fun _ w' => Refers s w₀ w')
      (.set (hnoted _ _)) fun _ w' hw' => hrunner w' _ hw')
  · exact .ite (fun _ => hrunner w _ hw) fun _ => .throw _
  · exact .throw _

/-- To end a call may mark the block. -/
theorem refers_endCall (hw : Refers s w₀ w) (count : Nat) (c : PendingCall) (i : Nat) :
    Leads w (endCall s count c i y) fun _ w' => Refers s w₀ w' := by
  have hmarks : ∀ {b : Bool} {y' : Yard}, Leads w (do
      if b then modify Work.setWritable
      return y') fun _ w' => Refers s w₀ w' := fun {_ _} =>
    .ite (fun _ => .bind (P := fun _ w' => Refers s w₀ w') (.modify hw.setWritable)
      fun _ _ hw' => .pure hw')
      fun _ => .pure hw
  unfold endCall
  split
  · refine .get ?_
    split
    · exact .throw _
    · exact .ite (fun _ => .throw_bind _) fun _ =>
        .ite (fun _ => .bind (P := fun _ w' => Refers s w₀ w')
        (.set hw.setWritable) fun _ _ hw' => .pure hw') fun _ => .pure hw
  · unfold endExt
    dsimp only
    exact .ite (fun _ => .throw_bind _) fun _ => hmarks
  · exact .pure hw

theorem refers_closeCall (hw : Refers s w₀ w) (count : Nat) (i : Nat) :
    Leads w (closeCall s count i y) fun _ w' => Refers s w₀ w' := by
  have hend : ∀ (count : Nat) (c : PendingCall) (y : Yard), Leads w (do
      return (← endCall s count c i y, (none : Option Nat))) fun _ w' => Refers s w₀ w' :=
    fun count c y => .bind (refers_endCall hw count c i) fun _ _ hw' => .pure hw'
  unfold closeCall
  dsimp only
  split
  · refine .get ?_
    split
    · exact hend _ _ _
    · exact .ite (fun _ => .ite (fun _ => .throw_bind _) fun _ => .pure hw) fun _ => hend _ _ _
  · exact .throw _

/-- An expression goes on behind what a step takes. -/
theorem refers_onward {x : Compiling (Yard × Nat)} (hx : Leads w x fun _ w' => Refers s w₀ w') :
    Leads w (x >>= fun r => pure (some r)) fun _ w' => Refers s w₀ w' :=
  .bind hx fun _ _ hw' => .pure hw'

/-- One lexeme of an expression changes nothing that calls refer to. -/
theorem refers_take (blockFollows : Bool) (hw : Refers s w₀ w) (i : Nat) (t : Token) :
    Leads w (take s blockFollows y i t) fun _ w' => Refers s w₀ w' := by
  have hname : ∀ name, Leads w (nameOperand s y t name i) fun _ w' => Refers s w₀ w' := by
    intro name
    refine .ite (fun _ => ?_) fun _ => ?_
    · split
      · exact .pure hw
      · exact .bind (refers_openCall hw name i) fun _ _ hw' => .pure hw'
    · split
      · exact .pure hw
      · refine .get ?_
        split
        · exact .pure hw
        · exact .pure hw
        · exact .throw_bind _
  have hlift : ∀ {α : Type} {r : Except Error α} {f : α → Yard × Nat}, Leads w (do
      let a ← liftM r
      return some (f a)) fun _ w' => Refers s w₀ w' :=
    .bind (P := fun _ w' => w' = w) (.lift fun _ _ => rfl) fun _ _ hw' => .pure (hw' ▸ hw)
  -- Only names refer to functions: those in front of a
  -- parenthesis, and those that it closes the call of.
  unfold take
  dsimp only
  split
  · -- a line end
    exact .pure hw
  · -- a left brace
    exact .ite (fun _ => .pure hw) fun _ => .get hlift
  · -- a right brace
    exact .pure hw
  · -- a left bracket
    exact .ite (fun _ => .get hlift) fun _ => .pure hw
  · -- a right bracket
    refine refers_onward (.ite (fun _ => .throw_bind _) fun _ => ?_)
    dsimp only
    split
    · exact .throw _
    · split
      · exact .throw _
      · exact .ite (fun _ => .pure hw) fun _ => .pure hw
      · exact .pure hw
  · -- a left parenthesis
    exact .ite (fun _ => .pure hw) fun _ => .pure hw
  · -- a right parenthesis
    refine refers_onward (.ite (fun _ => .throw_bind _) fun _ => ?_)
    dsimp only
    split
    · exact .throw _
    · split
      · refine .bind (refers_closeCall hw _ i) fun r w' hw' => ?_
        obtain ⟨y', _ | next⟩ := r
        · exact .pure hw'
        · exact .pure hw'
      · exact .pure hw
  · -- a comma
    exact refers_onward (.ite (fun _ => .throw_bind _) fun _ => .pure hw)
  · -- an operator
    refine refers_onward ?_
    unfold operator
    dsimp only
    split
    · exact .ite (fun _ => .throw_bind _) fun _ => .pure hw
    · exact .ite (fun _ => .throw_bind _) fun _ => .pure hw
    · exact .throw _
  · -- a constant
    exact .ite (fun _ => .pure hw) fun _ => .pure hw
  · -- a name
    exact .ite (fun _ => refers_onward (hname _)) fun _ => .pure hw
  · -- a name of the host
    exact .ite (fun _ => refers_onward (hname _)) fun _ => .pure hw
  · -- an argument to spread
    exact .ite (fun _ => .throw_bind _) fun _ => .pure hw
  · -- no token of an expression
    exact .pure hw

/-- Nor does a whole expression. -/
theorem refers_takeAll (blockFollows : Bool) (fuel : Nat) (hw : Refers s w₀ w) (i : Nat) :
    Leads w (takeAll s blockFollows fuel y i) fun _ w' => Refers s w₀ w' := by
  induction fuel generalizing w y i with
  | zero =>
    unfold takeAll
    split
    · exact .pure hw
    · exact .throw _
  | succ fuel ih =>
    unfold takeAll
    split
    · exact .pure hw
    · refine .bind (refers_take blockFollows hw i _) fun r w' hw' => ?_
      cases r with
      | none => exact .pure hw'
      | some p => exact ih hw' p.2

end referring

/-! ### Expressions under way -/

/-- Whether what has been read of an expression is what is pending and an operand behind it. -/
structure Yard.Spells (v : Outlook) (s : Source) (start i : Nat) (y : Yard) (o : Option Phrase) :
    Prop where
  le : start ≤ i
  expect : y.expectOperand = o.isNone
  holds : ∃ ws os, Holds v y.setIndex y.buffer y.counts ws os ∧
    (∀ e, o = some e → Suits v (e.sites os)) ∧
    s.words start i = ws ++ wordsOf o ∧ opsOf y.code = os ++ opsOfPhrase o
  /-- Directly behind a left parenthesis nothing has been read inside of it. -/
  fresh : y.prev = some (.punct .lpar) → o = none ∧
    (s.words start i).getLast? = some (.punct .lpar) ∧
    ∃ b rest, y.buffer = .paren b :: rest
  /-- Between an operator and its last operand the operator is the last token. -/
  waits : o = none → ∀ op rest, y.buffer = .op op :: rest → y.prev.any Kind.hangs = true

/-- What a step leaves of an expression under way. -/
def Reaches (v : Outlook) (s : Source) (start : Nat) (r : Yard × Nat) : Prop :=
  ∃ o, r.1.Spells v s start r.2 o

section

variable {v : Outlook} {s : Source} {w : Work} {y : Yard} {start i j : Nat}
  {o : Option Phrase} {t : Token}
  {ws : List Token} {os : List Op}

namespace Yard.Spells

theorem eq_none (hy : y.Spells v s start i o) (hexpect : y.expectOperand = true) : o = none :=
  Option.isNone_iff_eq_none.1 (hy.expect.symm.trans hexpect)

theorem exists_phrase (hy : y.Spells v s start i o) (hexpect : y.expectOperand = false) :
    ∃ e, o = some e := by
  cases o with
  | none => cases hy.expect.symm.trans hexpect
  | some e => exact ⟨e, rfl⟩

/-- A line end inside of brackets. -/
theorem newline (hy : y.Spells v s start i o) (htok : s.token? i = some .newline) :
    y.Spells v s start (i + 1) o where
  le := Nat.le_succ_of_le hy.le
  expect := hy.expect
  holds := by
    rw [Source.words_newline htok hy.le]
    exact hy.holds
  fresh := by
    rw [Source.words_newline htok hy.le]
    exact hy.fresh
  waits := hy.waits

/-- An operand that is let out at once. -/
theorem operand (hy : y.Spells v s start i none) (item : Item) (line : Nat) {k : Kind}
    (hk : k ≠ .punct .lpar) (hij : i ≤ j) :
    ((y.emit item.op line).operand k).Spells v s start j (some (.atom (s.words i j) item)) where
  le := Nat.le_trans hy.le hij
  expect := rfl
  holds := by
    obtain ⟨ws, os, hholds, -, hws, hos⟩ := hy.holds
    refine ⟨ws, os, hholds, fun e he => ?_, ?_, ?_⟩
    · cases he
      exact suits_nil
    · rw [Source.words_append hy.le hij, hws]
      exact congrArg (· ++ s.words i j) (List.append_nil ws)
    · show opsOf (y.code.push _) = _
      rw [opsOf_push, hos]
      exact congrArg (· ++ [item.op]) (List.append_nil os)
  fresh hprev := absurd (Option.some.inj hprev) hk
  waits := nofun

/-- A mark behind an operand. -/
theorem tail {e : Phrase} (hy : y.Spells v s start i (some e))
    (htok : s.token? i = some (.keyword .tail)) :
    Spells v s start (i + 1) { y.emit .unwrapArr (s.line i) with prev := some (.keyword .tail) }
      (some (.spread e)) where
  le := Nat.le_succ_of_le hy.le
  expect := hy.expect
  holds := by
    obtain ⟨ws, os, hholds, he, hws, hos⟩ := hy.holds
    refine ⟨ws, os, hholds, fun e' he' => ?_, ?_, ?_⟩
    · cases he'
      exact he e rfl
    · rw [Source.words_succ htok hy.le rfl, hws]
      exact List.append_assoc ..
    · show opsOf (y.code.push _) = _
      rw [opsOf_push, hos]
      exact List.append_assoc ..
  fresh hprev := by cases hprev
  waits := nofun

/-- An operand becomes the container of an index. -/
theorem lbrack {e : Phrase} (hy : y.Spells v s start i (some e))
    (htok : s.token? i = some (.punct .lbrack)) :
    Spells v s start (i + 1) { y with
      buffer := .index :: y.buffer, expectOperand := true, prev :=
        some (.punct .lbrack) } none where
  le := Nat.le_succ_of_le hy.le
  expect := rfl
  holds := by
    obtain ⟨ws, os, hholds, he, hws, hos⟩ := hy.holds
    refine ⟨_, _, .index (he e rfl) suits_sitesAll_nil hholds, nofun, ?_, ?_⟩
    · rw [Source.words_succ htok hy.le rfl, hws]
      exact (List.append_nil _).symm
    · rw [hos]
      simp [opsAll, opsOfPhrase]
  fresh hprev := by cases hprev
  waits _ := nofun

/-- A parenthesis opens a group. -/
theorem group (hy : y.Spells v s start i none) (htok : s.token? i = some (.punct .lpar)) :
    Spells v s start (i + 1)
    { y with buffer := .paren false :: y.buffer, prev := some (.punct .lpar) }
      none where
  le := Nat.le_succ_of_le hy.le
  expect := hy.expect
  holds := by
    obtain ⟨ws, os, hholds, -, hws, hos⟩ := hy.holds
    refine ⟨_, _, .group suits_sitesAll_nil hholds, nofun, ?_, ?_⟩
    · rw [Source.words_succ htok hy.le rfl, hws]
      simp [wordsOf, wordsOpen]
    · rw [hos]
      simp [opsAll, opsOfPhrase]
  fresh _ := ⟨rfl, by rw [Source.words_succ htok hy.le rfl, List.getLast?_concat], _, _, rfl⟩
  waits _ := nofun

/-- A sign waits for its operand. -/
theorem unary (hy : y.Spells v s start i none) (op : UnaryOp) {o : Operator}
    (htok : s.token? i = some (.oper o)) :
    Spells v s start (i + 1) { y with
      buffer := .op (.unary op) :: y.buffer, prev := some (.oper o) } none where
  le := Nat.le_succ_of_le hy.le
  expect := hy.expect
  holds := by
    obtain ⟨ws, os, hholds, -, hws, hos⟩ := hy.holds
    refine ⟨_, _, .unary o op hholds, nofun, ?_, hos⟩
    rw [Source.words_succ htok hy.le rfl, hws]
    simp [wordsOf]
  fresh hprev := by cases hprev
  waits _ _ _ _ := rfl

/-- An operator with two operands waits for the second. -/
theorem binary {e : Phrase} (hy : y.Spells v s start i (some e)) (op : BinaryOp) {o : Operator}
    (htok : s.token? i = some (.oper o)) {pred : Op → Bool} {code : Array Instr}
    {buffer : List Pending} (hflush : Yard.flushOps pred (s.line i) y.code y.buffer
      = (code, buffer)) :
    Spells v s start (i + 1) { y with
      code := code, buffer := .op (.binary op) :: buffer, expectOperand := true
      prev := some (.oper o) } none where
  le := Nat.le_succ_of_le hy.le
  expect := rfl
  holds := by
    obtain ⟨ws, os, hholds, he, hws, hos⟩ := hy.holds
    obtain ⟨ws', os', e', he', hholds', hws', hos'⟩ := hholds.flushOps (he e rfl) hos hflush
    refine ⟨_, _, .binary o op he' hholds', nofun, ?_, ?_⟩
    · rw [Source.words_succ htok hy.le rfl, hws]
      show ws ++ e.words ++ _ = _
      rw [← hws']
      simp [wordsOf]
    · rw [hos']
      exact (List.append_nil _).symm
  fresh hprev := by cases hprev
  waits _ _ _ _ := rfl

end Yard.Spells

/-! ### Commas and brackets -/

/-- A comma ends an element or an argument, and the next one begins. -/
theorem reaches_comma (hy : y.Spells v s start i o) (htok : s.token? i = some (.punct .comma)) :
    Leads w (comma s y i) fun r _ => Reaches v s start r := by
  refine .ite (fun _ => .throw_bind _) fun hexpect => ?_
  rw [Bool.not_eq_true] at hexpect
  obtain ⟨e, rfl⟩ := hy.exists_phrase hexpect
  obtain ⟨⟨code, buffer⟩, hflush⟩ : ∃ r, Yard.flushOps (fun _ => true)
    (s.line i) y.code y.buffer = r :=
    ⟨_, rfl⟩
  rw [hflush]
  obtain ⟨ws, os, hholds, he, hws, hos⟩ := hy.holds
  obtain ⟨ws', os', e', he', hholds', hws', hos'⟩ := hholds.flushOps (he e rfl) hos hflush
  obtain ⟨-, htop⟩ := flushOps_all hflush
  have hwords : s.words start (i + 1) = ws' ++ (e'.words ++ [.punct .comma]) := by
    rw [Source.words_succ htok hy.le rfl, hws, ← List.append_assoc, hws']
    rfl
  -- the phrase is complete; it joins those that commas have closed
  have hcomma : ∀ {counts : List Nat}, Holds v y.setIndex buffer counts
      (s.words start (i + 1)) (opsOf code) →
      Yard.Spells v s start (i + 1) { y with
        code := code, buffer := buffer, counts := counts, expectOperand := true
        prev := some (.punct .comma) } none := fun hholds =>
    ⟨Nat.le_succ_of_le hy.le, rfl, ⟨_, _, hholds, nofun, (List.append_nil _).symm,
      (List.append_nil _).symm⟩, fun hprev => (by cases hprev), fun _ _ _ _ => rfl⟩
  refine .pure ⟨none, ?_⟩
  dsimp only
  generalize y.counts = counts at hholds' ⊢
  rw [hwords, hos'] at hcomma
  generalize y.setIndex = set at hholds' hcomma ⊢
  cases hholds' with
  | unary => exact absurd rfl (htop _ _)
  | binary => exact absurd rfl (htop _ _)
  | @top leads hleads =>
    have hvalues : Suits v (leadSites [] (leads ++ [.value e'])) := by
      rw [leadSites_concat]
      exact suits_append hleads he'
    refine hcomma (.congr (.top hvalues) ?_ rfl ?_ ?_)
    · simp [Lead.isTarget]
    · simp [Lead.words]
    · simp [Lead.ops]
  | group hes h =>
    refine hcomma (.congr (.group (suits_concat hes he') h) rfl rfl ?_ ?_)
    · simp [wordsOpen_concat]
    · simp [opsAll_append, opsAll_singleton]
  | index ha hes h =>
    rw [← List.append_assoc] at he'
    refine hcomma (.congr (.index ha (suits_concat hes he') h) rfl rfl ?_ ?_)
    · simp [wordsOpen_concat]
    · simp [opsAll_append, opsAll_singleton]
  | call hhead hcount hargs h =>
    rw [← List.append_assoc] at he'
    refine hcomma (.congr (.call hhead hcount (suits_concat hargs he') h) rfl
      (congrArg (· :: _) List.length_append) ?_ ?_)
    · simp [wordsOpen_concat]
    · simp [opsAll_append, opsAll_singleton]
  | chain hx hf hgs hback hname htarget hcount hargs hsegments hes h =>
    rw [← List.append_assoc] at he'
    refine hcomma (.congr (.chain hx hf hgs hback hname htarget hcount hargs hsegments
      (suits_concat hes he') h)
      rfl (congrArg (· :: _) List.length_append) ?_ ?_)
    · simp [wordsOpen_concat]
    · simp [opsAll_append, opsAll_singleton]

/-- A bracket ends an index, or the target of an assignment. -/
theorem reaches_closeIndex (hy : y.Spells v s start i o)
    (htok : s.token? i = some (.punct .rbrack)) :
    Leads w (closeIndex s y i) fun r _ => Reaches v s start r := by
  refine .ite (fun _ => .throw_bind _) fun hexpect => ?_
  rw [Bool.not_eq_true] at hexpect
  obtain ⟨e, rfl⟩ := hy.exists_phrase hexpect
  dsimp only
  split
  · exact .throw _
  rename_i code p buffer hflush
  obtain ⟨ws, os, hholds, he, hws, hos⟩ := hy.holds
  obtain ⟨hstop, ws', os', e', he', hholds', hws', hos'⟩ :=
    hholds.flushUntil (fun _ => rfl) (he e rfl) hos hflush
  obtain rfl : p = .index := by cases p <;> first | rfl | cases hstop
  have hwords : s.words start (i + 1) = ws' ++ e'.words ++ [.punct .rbrack] := by
    rw [Source.words_succ htok hy.le rfl, hws, hws']
    rfl
  -- what is pending ends in the bracket: its container and the keys in front of the last one
  obtain ⟨ws₀, os₀, a, es, ha, hes, h, rfl, rfl⟩ := hholds'.exists_index
  rw [← List.append_assoc] at he'
  have hkeys : Suits v (sitesAll (os₀ ++ a.ops) (es ++ [e'])) := suits_concat hes he'
  have hindex : Reaches v s start
    ({ Yard.emit { y with code := code, buffer := buffer } .index (s.line i) with
      prev := some (.punct .rbrack) }, i + 1) := by
    refine ⟨some (.index a (es ++ [e'])), Nat.le_succ_of_le hy.le, hexpect,
      ⟨ws₀, os₀, h, fun e he => ?_, ?_, ?_⟩, fun hprev => (by cases hprev),
      fun hnone => (by cases hnone)⟩
    · cases he
      exact suits_append ha hkeys
    · rw [hwords]
      simp [wordsOf, Phrase.words, wordsAll_concat]
    · show opsOf (code.push _) = _
      rw [opsOf_push, hos']
      simp [opsOfPhrase, Phrase.ops, opsAll_append, opsAll_singleton]
  split
  · exact .throw _
  · -- an equals sign behind it makes the index the target of
    -- an assignment, if nothing else is pending
    rename_i heq
    refine .ite (fun hnil => .pure ?_) fun _ => .pure hindex
    obtain rfl : buffer = [] := List.isEmpty_iff.1 hnil
    obtain ⟨hcounts, leads, hleads, hset, rfl, rfl⟩ := h.exists_leads
    have htargets : Suits v (leadSites [] (leads ++ [.target a (es ++ [e'])])) := by
      rw [leadSites_concat]
      exact suits_append hleads (suits_append ha hkeys)
    refine ⟨none, Nat.le_add_right_of_le hy.le, rfl,
      ⟨_, _, .congr (.top htargets) ?_ hcounts.symm rfl rfl, fun _ he => (by cases he), ?_, ?_⟩,
      fun hprev => (by cases hprev), fun _ _ _ hbuffer => (by cases hbuffer)⟩
    · simp [Lead.isTarget]
    · rw [Source.words_succ (Source.token?_of_kind?_punct heq) (Nat.le_succ_of_le hy.le) rfl,
        hwords]
      simp [wordsOf, Lead.words, wordsAll_concat]
    · show opsOf code = _
      rw [hos']
      simp [opsOfPhrase, Lead.ops, opsAll_append, opsAll_singleton]
  · exact .pure hindex

/-! ### Calls -/

/-- Whether a call of some function has an operand that collects its segments, as far as it needs
one. -/
def Backed (v : Outlook) (os : List Op) (c : PendingCall) (args : List Phrase)
    (back : List Constant) (segments : List (Token × List Phrase)) : Prop :=
  match c.target with
  | .func id => ∀ f, v.signatures id = some f → CollectsAt os f args back segments
  | _ => back = [] ∧ segments = []

/-- Whether a call has been ended that fits, with what is put behind its arguments. -/
def Finishes (v : Outlook) (os : List Op) (head : Token) (front : List Constant)
    (args : List Phrase) (back : List Constant) (segments : List (Token × List Phrase))
    (y y' : Yard) : Prop :=
  ∃ back' ending code, y' = { y with code := code } ∧
    (Phrase.call head front args (back ++ back') segments ending).FitsAt v os ∧
    opsOf code = opsOf y.code ++ (pushes back' ++ ending.counting ++ [ending.op]) ∧
    (back' = [] ∨ segments = [])

/-- The instructions of a call count its arguments if it is variadic. -/
theorem opsOf_emitCall (y : Yard) (f : Callee) (variadic : Bool) (count line callLine : Nat) :
    ∃ code, emitCall y f variadic count line callLine = { y with code := code } ∧
      opsOf code = opsOf y.code
        ++ ((Ending.of f variadic count).counting ++ [(Ending.of f variadic count).op]) := by
  cases variadic with
  | true =>
    refine ⟨_, rfl, ?_⟩
    show opsOf ((y.code.push _).push _) = _
    rw [opsOf_push, opsOf_push, List.append_assoc]
    rfl
  | false =>
    refine ⟨_, rfl, ?_⟩
    rw [opsOf_push]
    rfl

variable {head : Token} {front back : List Constant} {c : PendingCall} {args : List Phrase}
  {segments : List (Token × List Phrase)}

/-- The signature of a function that is called. -/
theorem signature_of_func? (hv : w.outlook s = v) {id : BlockId} {f : FuncInfo}
    (hf : (w.block id).func? = some f) : v.signatures id = some f.signature := by
  rw [← hv]
  exact congrArg (Option.map FuncInfo.signature) hf

/-- A call of a function is ended with what collects its segments, if it has any and none is
collected yet. -/
theorem finishes_endFunc (hv : w.outlook s = v) {x : String} {id : BlockId}
    (hx : v.finds x = some (.func id))
    (hback : ∀ f, v.signatures id = some f → CollectsAt os f args back segments) (c : PendingCall) :
    Leads w (endFunc s id args.length c i y) fun y' _ =>
      Finishes v os (.ident x) [] args back segments y y' := by
  refine .get ?_
  split
  · exact .throw _
  rename_i f hf
  have hsignature := signature_of_func? hv hf
  refine .ite (fun _ => .throw_bind _) fun htakes => ?_
  rw [Bool.not_eq_true', Bool.not_eq_false] at htakes
  have hends : Finishes v os (.ident x) [] args back segments y
      (emitCall y (.func id) f.variadic args.length (s.line i) c.line) := by
    obtain ⟨code, hy', hcode⟩ :=
      opsOf_emitCall y (.func id) f.variadic args.length (s.line i) c.line
    refine ⟨[], _, code, hy', ?_, hcode, .inl rfl⟩
    rw [List.append_nil]
    exact .func (f := f.signature) hx hsignature htakes (hback _ hsignature)
  exact .ite (fun _ => .bind (P := fun _ _ => True) (.set trivial) fun _ _ _ => .pure hends)
    fun _ => .pure hends

/-- A call of an extension is ended if its arguments are as many as it takes. -/
theorem finishes_endExt (v : Outlook) (os : List Op) (x : String) (e : Extension)
    (hfront : c.leading = front.length) (args : List Phrase) :
    Leads w (endExt s e args.length c i y) fun y' _ =>
    Finishes v os (.ident x) front args [] [] y y' := by
  -- behind the name of a contract there is at least an empty list of names
  have hrest : ∀ (y' : Yard) (back' : List Constant) (count : Nat),
      (∃ code, y' = { y with code := code } ∧ opsOf code = opsOf y.code ++ pushes back') →
      count = front.length + args.length + back'.length → Leads w (do
        if !e.takes count then failAt s (.wrongParams e.name e.params.length) i
        if e.canWrite then modify Work.setWritable
        return emitCall y' (.ext e) e.variadic count (s.line i) c.line)
        fun y' _ => Finishes v os (.ident x) front args [] [] y y' := by
    rintro _ back' count ⟨code', rfl, hcode'⟩ hcount
    refine .ite (fun _ => .throw_bind _) fun htakes => ?_
    rw [Bool.not_eq_true', Bool.not_eq_false] at htakes
    have hends : Finishes v os (.ident x) front args [] [] y
        (emitCall { y with code := code' } (.ext e) e.variadic count (s.line i) c.line) := by
      obtain ⟨code, hy', hcode⟩ := opsOf_emitCall { y with code := code' } (.ext e) e.variadic count
        (s.line i) c.line
      refine ⟨back', _, code, hy', .ext hcount htakes, ?_, .inr rfl⟩
      rw [hcode, hcode']
      simp only [List.append_assoc]
    exact .ite (fun _ => .bind (P := fun _ _ => True) (.modify trivial) fun _ _ _ => .pure hends)
      fun _ =>
      .pure hends
  have hleading : c.leading = (if c.contract then 1 else 0) + if c.stateArg then 1 else 0 := rfl
  have hself : ∃ code, y = { y with code := code } ∧ opsOf code = opsOf y.code ++ pushes [] :=
    ⟨y.code, rfl, (List.append_nil _).symm⟩
  by_cases hcontract : c.contract = true
  · rw [hcontract, if_pos rfl] at hleading
    by_cases hzero : args.length = 0
    · simp only [endExt, hcontract, hzero, if_true]
      refine hrest _ [.str ""] _ ⟨_, rfl, opsOf_push ..⟩ ?_
      rw [hzero, ← hfront, hleading, List.length_singleton]
      split <;> omega
    · simp only [endExt, hcontract, hzero, if_true, if_false]
      refine hrest _ [] _ hself ?_
      rw [← hfront, hleading, List.length_nil]
      split <;> omega
  · rw [if_neg hcontract] at hleading
    rw [Bool.not_eq_true] at hcontract
    simp only [endExt, hcontract, Bool.false_eq_true, if_false]
    refine hrest _ [] _ hself ?_
    rw [← hfront, hleading, List.length_nil]
    split <;> omega

/-- A call is ended as its target asks. -/
theorem finishes_endCall (hv : w.outlook s = v) (hhead : Heads v head front c)
    (hback : Backed v os c args back segments) :
    Leads w (endCall s args.length c i y) fun y' _ =>
      Finishes v os head front args back segments y y' := by
  unfold endCall
  unfold Backed at hback
  cases hhead with
  | func hx htarget =>
    rw [htarget] at hback ⊢
    exact finishes_endFunc hv hx hback c
  | ext htarget hfront =>
    rw [htarget] at hback ⊢
    obtain ⟨rfl, rfl⟩ := hback
    exact finishes_endExt _ _ _ _ hfront args
  | @named x _ htarget =>
    rw [htarget] at hback ⊢
    obtain ⟨rfl, rfl⟩ := hback
    refine .pure ⟨[], .named x args.length, _, rfl, .named x args, ?_, .inl rfl⟩
    show opsOf ((y.code.push _).push _) = _
    rw [opsOf_push, opsOf_push, List.append_assoc]
    rfl

/-- The segments of what is called are those of its signature. -/
theorem segmentsOf_eq_signature (hv : w.outlook s = v) (c : PendingCall) : segmentsOf w c =
    match c.target with
    | .func id => (v.signatures id).bind FuncInfo.segments
    | _ => none := by
  rw [← hv, segmentsOf]
  cases c.target with
  | func id =>
    show ((w.block id).func?).bind _
      = (((w.block id).func?).map FuncInfo.signature).bind FuncInfo.segments
    rw [Option.bind_map]
    rfl
  | _ => rfl

/-- Whether segments have names. -/
def Outlook.Named (v : Outlook) : Prop :=
  ∀ id f gs, v.signatures id = some f → f.segments = some gs → gs.get? "" = none

theorem named_outlook (hspelled : w.arena.Every Block.Spelled) : (w.outlook s).Named := by
  intro id f segments hf hsegments
  obtain ⟨g, hg, rfl⟩ := Option.map_eq_some_iff.1 hf
  exact (hspelled id g hg).segments segments hsegments

/-- What has been put behind the arguments of a call when a list of arguments has been closed:
nothing yet, or what collects its segments, and the last thing was to collect one. -/
def Partly (v : Outlook) (os : List Op) (c : PendingCall) (y : Yard) (args : List Phrase)
    (back : List Constant) (segments : List (Token × List Phrase)) : Prop :=
  back = [] ∧ segments = [] ∨ ∃ id f, c.target = .func id ∧ v.signatures id = some f ∧
    f.segments.isSome = true ∧ CollectsAt os f args back segments ∧ endsInSegment y = true

/-- What stays of a call whose argument list has been closed: a phrase, or the call while the
arguments of a segment are read. -/
def Shut (v : Outlook) (s : Source) (start i : Nat) (ws : List Token) (os : List Op) (y : Yard)
    (rest : List Pending) (r : Yard × Option Nat) : Prop :=
  match r.2 with
  | none =>
    ∃ u : Phrase, ∃ code, Suits v (u.sites os) ∧ r.1 = { y with code := code, buffer := rest } ∧
      s.words start (i + 1) = ws ++ u.words ∧ opsOf code = os ++ u.ops
  | some next => next = i + 3 ∧ (s.words start (i + 4)).getLast? = some (.punct .lpar) ∧
      ∃ code buffer, r.1 = { y with
        code := code, buffer := .paren true :: buffer, counts := 0 :: y.counts } ∧
      Holds v y.setIndex (.paren true :: buffer) (0 :: y.counts)
        (s.words start (i + 4)) (opsOf code)

/-- A name of a segment has a token. -/
theorem Source.exists_segment {gs : Dict Segment} (hnamed : gs.get? "" = none)
    (h : gs.contains (s.name i) = true) : ∃ t, s.token? i = some t ∧ nameOf t = s.name i ∧
      Token.isNewline t = false := by
  have hne : s.name i ≠ "" := by
    intro hempty
    rw [hempty, Dict.contains_eq, hnamed] at h
    cases h
  obtain ⟨x, hx | hx⟩ := Source.exists_ident_of_name hne
  · exact ⟨_, hx, (Source.name_eq hx).symm, rfl⟩
  · exact ⟨_, hx, (Source.name_eq hx).symm, rfl⟩

/-- The call is complete. -/
theorem shut_endCall (hv : w.outlook s = v) (hhead : Heads v head front c)
    (hargs : Suits v (sitesAll (os ++ pushes front) args))
    (hsegments : Suits v
    (sitesChained (os ++ (pushes front ++ opsAll args ++ pushes back)) segments)) (hback :
    Backed v os c args back segments) {rest : List Pending}
    (hwords : s.words start (i + 1) = ws ++ head :: .punct .lpar ::
      (wordsAll args ++ .punct .rpar :: wordsChained segments))
    (hcode : opsOf y.code = os ++ (pushes front ++ opsAll args ++ pushes back
      ++ opsChained segments)) :
    Leads w (do return (← endCall s args.length c i { y with buffer := rest }, none))
      fun r _ => Shut v s start i ws os y rest r := by
  refine .bind (finishes_endCall hv hhead hback) ?_
  rintro _ w' ⟨back', ending, code, rfl, hfits, hops, hor⟩
  refine .pure ⟨_, code, suits_call hfits hargs ?_, rfl, hwords, ?_⟩
  · rcases hor with rfl | rfl
    · rwa [List.append_nil]
    · exact suits_nil
  · rw [hops, hcode, Phrase.ops, pushes_append]
    rcases hor with rfl | rfl
    · simp [pushes]
    · simp [opsChained]

/-- Nothing collects the segments of a call that has none. -/
theorem Partly.backed (hv : w.outlook s = v) (h : Partly v os c y args back segments)
    (hnone : segmentsOf w c = none) : Backed v os c args back segments := by
  have hsegmentsOf := segmentsOf_eq_signature hv c
  rw [hnone] at hsegmentsOf
  have hno : ∀ {id f}, c.target = .func id → v.signatures id = some f → f.segments = none := by
    intro id f htarget hf
    simp only [htarget, hf, Option.bind_some] at hsegmentsOf
    exact hsegmentsOf.symm
  rcases h with ⟨rfl, rfl⟩ | ⟨id, f, htarget, hf, hsome, -⟩
  · unfold Backed
    split
    · rename_i id htarget
      intro f hf
      have hsegments := hno htarget hf
      refine ⟨?_, fun hsome => by rw [hsegments] at hsome; cases hsome⟩
      rw [Collects, hsegments]
      exact ⟨rfl, rfl⟩
    · exact ⟨rfl, rfl⟩
  · rw [hno htarget hf] at hsome
    cases hsome

/-- A call with segments has what collects them when its own arguments are closed, unless these have
no instruction. -/
theorem Partly.collects (hv : w.outlook s = v) (h : Partly v os c y args back segments)
    (hhead : Heads v head front c) {gs : Dict Segment} (hsome : segmentsOf w c = some gs)
    (hcode : opsOf y.code = os ++ (pushes front ++ opsAll args ++ pushes back
      ++ opsChained segments))
    (line : Nat) : ∃ x id f, head = .ident x ∧ front = [] ∧ v.finds x = some (.func id) ∧
      c.target = .func id ∧ v.signatures id = some f ∧ f.segments = some gs ∧
      ∃ back' code, (∀ buffer, (if endsInSegment { y with buffer := buffer }
        then { y with buffer := buffer }
          else ({ y with buffer := buffer } : Yard).emit (.push .nil) line)
            = { y with code := code, buffer := buffer }) ∧
        CollectsAt os f args back' segments ∧ (segments = [] ∨ back' = back) ∧
        opsOf code = os ++ (opsAll args ++ pushes back' ++ opsChained segments) := by
  have hsegmentsOf := segmentsOf_eq_signature hv c
  rw [hsome] at hsegmentsOf
  cases hhead with
  | ext htarget => simp [htarget] at hsegmentsOf
  | named htarget => simp [htarget] at hsegmentsOf
  | @func x id _ hx htarget =>
    simp only [htarget] at hsegmentsOf
    obtain ⟨f, hf, hgs⟩ := Option.bind_eq_some_iff.1 hsegmentsOf.symm
    refine ⟨x, id, f, rfl, rfl, hx, htarget, hf, hgs, ?_⟩
    rcases h with ⟨rfl, rfl⟩ | ⟨id', f', htarget', hf', -, hcollects, hends⟩
    · have hcode : opsOf y.code = os ++ opsAll args := by simpa [pushes, opsChained] using hcode
      by_cases hends : endsInSegment y = true
      · -- nothing is behind what collects a segment of another call
        have hlast : collectsLast (os ++ opsAll args) = true := by
          rw [← hcode, ← endsInSegment_eq, hends]
        have hnil := opsAll_eq_nil_of_collectsLast hlast
        rw [hnil, List.append_nil] at hlast
        refine ⟨[], y.code, fun _ => if_pos hends,
          ⟨(collects_iff hgs).2 ⟨.inr ⟨rfl, hnil⟩, nofun⟩, fun _ _ => hlast⟩, .inl rfl, ?_⟩
        rw [hcode]
        simp [pushes, opsChained]
      · refine ⟨[.nil], y.code.push ⟨.push .nil, line⟩, fun _ => if_neg hends,
          ⟨(collects_iff hgs).2 ⟨.inl rfl, nofun⟩, nofun⟩, .inl rfl, ?_⟩
        rw [opsOf_push, hcode]
        simp [pushes, opsChained]
    · cases htarget.symm.trans htarget'
      cases hf.symm.trans hf'
      exact ⟨back, y.code, fun _ => if_pos hends, hcollects, .inr rfl, hcode⟩

/-- The list of arguments of a call, or of its last segment, has been closed. -/
theorem shut_arguments (hv : w.outlook s = v) (hnamed : v.Named) (hle : start ≤ i + 1)
    (hhead : Heads v head front c) {count : Nat} (hcount : c.count.getD count = args.length)
    (hargs : Suits v (sitesAll (os ++ pushes front) args))
    (hsegments : Suits v
    (sitesChained (os ++ (pushes front ++ opsAll args ++ pushes back)) segments)) (hpartly :
    Partly v os c y args back segments) {rest : List Pending}
    (hholds : Holds v y.setIndex rest y.counts ws os)
    (hwords : s.words start (i + 1) = ws ++ head :: .punct .lpar ::
      (wordsAll args ++ .punct .rpar :: wordsChained segments))
    (hcode : opsOf y.code = os ++ (pushes front ++ opsAll args ++ pushes back
      ++ opsChained segments)) :
    Leads w (closeCall s count i { y with buffer := .call c :: rest })
      fun r _ => Shut v s start i ws os y rest r := by
  refine .get ?_
  split
  · -- the function has no segments, so the call ends here
    rename_i hnone
    dsimp only
    rw [hcount]
    exact shut_endCall hv hhead hargs hsegments (hpartly.backed hv hnone) hwords hcode
  · rename_i gs hsome
    obtain ⟨x, id, f, rfl, rfl, hx, htarget, hf, hgs, back', code, hy', hcollects, hor, hops⟩ :=
      hpartly.collects hv hhead hsome hcode (s.line i)
    have hsegments' : Suits v
      (sitesChained (os ++ (pushes [] ++ opsAll args ++ pushes back')) segments) := by
      rcases hor with rfl | rfl
      · exact suits_nil
      · exact hsegments
    have hargs' : Suits v (sitesAll os args) := by simpa [pushes] using hargs
    dsimp only
    rw [hy', hcount]
    -- a segment that is chained to the call goes on with it; otherwise the call ends here, too
    refine .ite (fun hchain => .ite (fun _ => .throw_bind _) fun hname => .pure ⟨rfl, ?_⟩)
      fun _ => ?_
    · rw [chainFollows, Bool.and_eq_true, beq_iff_eq, beq_iff_eq] at hchain
      rw [Bool.not_eq_true', Bool.not_eq_false] at hname
      obtain ⟨t, ht, hnameOf, hline⟩ := Source.exists_segment (hnamed id f gs hf hgs) hname
      have hnext : s.words start (i + 4) = ws ++ .ident x :: .punct .lpar ::
          (wordsAll args ++ .punct .rpar :: (wordsChained segments ++ [.punct .dot, t]))
          ++ [.punct .lpar] := by
        rw [Source.words_succ (Source.token?_of_kind?_punct hchain.2) (by omega) rfl,
          Source.words_succ ht (by omega) hline,
          Source.words_succ (Source.token?_of_kind?_punct hchain.1) (by omega) rfl, hwords]
        simp
      refine ⟨by rw [hnext, List.getLast?_concat], code, _, by rw [← hnameOf], ?_⟩
      have hc : ({ c with count := some args.length } : PendingCall).count = some args.length := rfl
      exact .congr (.chain hx hf hgs hcollects (hnameOf ▸ hname) htarget hc hargs' hsegments'
        suits_sitesAll_nil hholds) rfl rfl hnext.symm (by rw [hops]; simp [opsAll])
    · have hback : Backed v os c args back' segments := by
        unfold Backed
        rw [htarget]
        intro f' hf'
        cases hf.symm.trans hf'
        exact hcollects
      exact @shut_endCall _ _ _ { y with code := code } _ _ _ _ _ _ _ _ _ _ hv
        hhead hargs hsegments' hback _
        hwords hops

/-- A right parenthesis finds the operand in front of it, if it has one. -/
theorem Yard.Spells.flushParen (hy : y.Spells v s start i o)
    (hguard : ¬ (y.prev == some (.punct .comma)
      || (y.expectOperand && y.prev != some (.punct .lpar))) = true)
    {code : Array Instr} {p : Pending} {rest : List Pending}
    (hflush : Yard.flushUntil isParen (s.line i) y.code y.buffer = some (code, p, rest)) :
    ∃ ws os, ∃ o' : Option Phrase, isParen p = true ∧ (∀ e, o' = some e → Suits v (e.sites os)) ∧
      Holds v y.setIndex (p :: rest) y.counts ws os ∧ s.words start i = ws ++ wordsOf o' ∧
      opsOf code = os ++ opsOfPhrase o' ∧ (y.prev != some (.punct .lpar)) = o'.isSome ∧
      (o' = none → ws.getLast? = some (.punct .lpar)) := by
  obtain ⟨ws, os, hholds, ho, hws, hos⟩ := hy.holds
  by_cases hprev : y.prev = some (.punct .lpar)
  · -- directly behind the left parenthesis it is on top
    obtain ⟨rfl, hlast, b, rest', hbuffer⟩ := hy.fresh hprev
    rw [hbuffer] at hflush hholds
    cases hflush
    rw [hws] at hlast
    exact ⟨ws, os, none, rfl, nofun, hholds, hws, hos, by rw [hprev]; rfl,
      fun _ => (List.append_nil ws) ▸ hlast⟩
  · have hne : (y.prev != some (.punct .lpar)) = true := bne_iff_ne.2 hprev
    have hexpect : y.expectOperand = false := by
      rw [hne, Bool.and_true, Bool.or_eq_true, not_or, Bool.not_eq_true, Bool.not_eq_true] at hguard
      exact hguard.2
    obtain ⟨e, rfl⟩ := hy.exists_phrase hexpect
    obtain ⟨hstop, ws', os', e', he', hholds', hws', hos'⟩ :=
      hholds.flushUntil (fun _ => rfl) (ho e rfl) hos hflush
    exact ⟨ws', os', some e', hstop, fun _ h => (Option.some.inj h) ▸ he', hholds',
      hws.trans hws'.symm, hos', hne, nofun⟩

/-- Behind an argument list the expression goes on. -/
theorem reaches_of_shut {y₀ : Yard} {rest : List Pending} {r : Yard × Option Nat} (hle : start ≤ i)
    (hholds : Holds v y₀.setIndex rest y₀.counts ws os) (hexpect : y₀.expectOperand = false)
    (hshut : Shut v s start i ws os y₀ rest r) :
    Reaches v s start (match r.2 with
      | some next => ({ r.1 with prev := some (.punct .lpar), expectOperand := true }, next + 1)
      | none => ({ r.1 with prev := some (.punct .rpar) }, i + 1)) := by
  obtain ⟨y', chained⟩ := r
  cases chained with
  | none =>
    obtain ⟨u, code, hu, rfl, hwords, hops⟩ := hshut
    exact ⟨some u, Nat.le_succ_of_le hle, hexpect,
      ⟨ws, os, hholds, fun _ h => (Option.some.inj h) ▸ hu, hwords, hops⟩,
      fun hprev => (by cases hprev), nofun⟩
  | some next =>
    obtain ⟨rfl, hlast, code, buffer, rfl, hchain⟩ := hshut
    exact ⟨none, Nat.le_add_right_of_le (k := 4) hle, rfl,
      ⟨_, _, hchain, nofun, (List.append_nil _).symm, (List.append_nil _).symm⟩,
      fun _ => ⟨rfl, hlast, _, _, rfl⟩, fun _ => nofun⟩

/-- What is left to do when a call has been closed. -/
theorem reaches_behindCall (y₀ : Yard) (hle : start ≤ i) {rest : List Pending}
    {c : PendingCall} {count : Nat} (hholds : Holds v y₀.setIndex rest y₀.counts ws os)
    (hexpect : y₀.expectOperand = false)
    (hshut : Leads w (closeCall s count i { y₀ with buffer := .call c :: rest })
      (fun r _ => Shut v s start i ws os y₀ rest r)) :
    Leads w (do
      let (y, chained) ← closeCall s count i { y₀ with buffer := .call c :: rest }
      match chained with
      | some next =>
        return ({ y with prev := some (.punct .lpar), expectOperand := true }, next + 1)
      | none => return ({ y with prev := some (.punct .rpar) }, i + 1)) fun r _ =>
        Reaches v s start r := by
  refine .bind hshut fun r w' hr => ?_
  have hreaches := reaches_of_shut hle hholds hexpect hr
  obtain ⟨y', _ | next⟩ := r
  · exact .pure hreaches
  · exact .pure hreaches

/-- A right parenthesis. -/
theorem reaches_closeParen (hy : y.Spells v s start i o)
    (htok : s.token? i = some (.punct .rpar)) (hv : w.outlook s = v) (hnamed : v.Named) :
    Leads w (closeParen s y i) fun r _ => Reaches v s start r := by
  refine .ite (fun _ => .throw_bind _) fun hguard => ?_
  dsimp only
  split
  · exact .throw _
  rename_i code p rest hflush
  obtain ⟨ws, os, o', hparen, ho', hholds, hwords, hops, hprev, hlast⟩ :=
    hy.flushParen hguard hflush
  have hnext : s.words start (i + 1) = ws ++ wordsOf o' ++ [.punct .rpar] := by
    rw [Source.words_succ htok hy.le rfl, hwords]
  -- the last phrase joins those that commas have closed
  have hsuits : ∀ {es : List Phrase} {os₀ : List Op}, os = os₀ ++ opsAll es →
    Suits v (sitesAll os₀ es) →
      Suits v (sitesAll os₀ (es ++ o'.toList)) := by
    rintro es os₀ rfl hes
    cases o' with
    | none => rwa [Option.toList_none, List.append_nil]
    | some e => exact suits_concat hes (ho' e rfl)
  obtain ⟨b, rfl⟩ : ∃ b, p = .paren b := by cases p <;> first | exact ⟨_, rfl⟩ | cases hparen
  cases b with
  | false =>
    obtain ⟨ws₀, os₀, es, hes, h, rfl, rfl⟩ := hholds.exists_group
    have hnil : o' = none → es = [] := fun hnone =>
      eq_nil_of_getLast? (t := .punct .lpar) (fun h => by cases h) (hlast hnone)
    refine .pure ⟨some (.group (es ++ o'.toList)), Nat.le_succ_of_le hy.le, rfl,
      ⟨ws₀, os₀, h, fun e he => ?_, ?_, ?_⟩, fun hprev => (by cases hprev),
      fun hnone => (by cases hnone)⟩
    · cases he
      exact hsuits rfl hes
    · rw [hnext]
      simp [wordsOf, Phrase.words, ← words_closed hnil]
    · rw [hops, List.append_assoc, ops_closed]
      rfl
  | true =>
    generalize hcounts : y.counts = counts at hholds ⊢
    generalize hset : y.setIndex = set at hholds ⊢
    -- the commas are one fewer than the arguments, unless there is none
    have hcount : ∀ {es : List Phrase}, (o' = none → es = []) →
        (if (y.prev != some (.punct .lpar)) = true then es.length + 1 else es.length)
          = (es ++ o'.toList).length := by
      intro es _
      rw [hprev, List.length_append]
      cases o' <;> rfl
    cases hholds with
    | @call _ rest counts ws₀ os₀ head front c args hhead hc hargs h =>
      have hnil : o' = none → args = [] := fun hnone =>
        eq_nil_of_getLast? (t := .punct .lpar) (fun h => by cases h) (hlast hnone)
      rw [List.head?_cons, Option.getD_some, List.tail_cons, hcount hnil]
      refine reaches_behindCall
        { y with code := code, counts := counts, setIndex := set, expectOperand := false } hy.le
        h rfl (@shut_arguments _ _ _ _ _ _ _ _ _ _ [] _ _ [] hv hnamed
          (Nat.le_succ_of_le hy.le) hhead _ ?_
          (hsuits (List.append_assoc ..).symm hargs) suits_nil (.inl ⟨rfl, rfl⟩) _ h ?_ ?_)
      · rw [hc, Option.getD_none]
      · rw [hnext, ← words_closed hnil]
        simp [wordsChained]
      · show opsOf code = _
        rw [hops, ← ops_closed]
        simp [pushes, opsChained]
    | @chain _ rest counts ws₀ os₀ x id f gs c args es back segments name hx hf hgs
      hcollects hname htarget hc hargs
        hsegments hes h =>
      have hnil : o' = none → es = [] := fun hnone =>
        eq_nil_of_getLast? (t := .punct .lpar) (fun h => by cases h) (hlast hnone)
      rw [List.head?_cons, Option.getD_some, List.tail_cons, hcount hnil]
      refine reaches_behindCall (({ y with
          code := code, counts := counts, setIndex := set, expectOperand := false } : Yard).emit
        (.funcName (nameOf name) (es ++ o'.toList).length) (s.line i)) hy.le
        h rfl (@shut_arguments _ _ _ _ _ _ _ _ _ _ back _ args
          (segments ++ [(name, es ++ o'.toList)]) hv hnamed
          (Nat.le_succ_of_le hy.le) (.func hx htarget) _ ?_ ?_ ?_ (.inr ?_) _ h ?_ ?_)
      · rw [hc, Option.getD_some]
      · simpa [pushes] using hargs
      · rw [sitesChained_concat]
        refine suits_append hsegments ?_
        show Suits v (sitesAll (os₀ ++ (opsAll args ++ pushes back) ++ opsChained segments) _)
        rw [List.append_assoc os₀]
        exact hsuits (List.append_assoc ..).symm hes
      · obtain ⟨hback, hnames⟩ := (collects_iff hgs).1 hcollects.collects
        refine ⟨id, f, htarget, hf, by rw [hgs]; rfl, ⟨(collects_iff hgs).2 ⟨hback, fun g hg => ?_⟩,
          hcollects.missing⟩, endsInSegment_emit _ _ _ _ y.buffer⟩
        rcases List.mem_append.1 hg with hg | hg
        · exact hnames g hg
        · rw [List.mem_singleton.1 hg]
          exact hname
      · rw [hnext, wordsChained_concat, ← words_closed hnil]
        simp
      · show opsOf (code.push _) = _
        rw [opsOf_push, hops, opsChained_concat, ← ops_closed]
        simp [pushes, collecting]

/-! ### Operators and names -/

/-- An operator pushes out those that bind stronger, and waits. -/
theorem reaches_operator (hy : y.Spells v s start i o) {sign : Operator}
    (htok : s.token? i = some (.oper sign)) :
    Leads w (operator s y sign i) fun r _ => Reaches v s start r := by
  unfold operator
  dsimp only
  split
  · rename_i op _
    refine .ite (fun _ => .throw_bind _) fun hexpect => .pure ⟨none, ?_⟩
    rw [Bool.not_eq_true', Bool.not_eq_false] at hexpect
    obtain rfl := hy.eq_none hexpect
    exact hy.unary op htok
  · rename_i op _
    refine .ite (fun _ => .throw_bind _) fun hexpect => .pure ⟨none, ?_⟩
    obtain ⟨e, rfl⟩ := hy.exists_phrase (Bool.eq_false_iff.2 hexpect)
    exact hy.binary op htok rfl
  · exact .throw _

/-- Whether a call has been opened at its name, with what it puts on the stack in front of its
arguments. -/
def Opens (v : Outlook) (head : Token) (y : Yard) (r : Yard × PendingCall) : Prop :=
  ∃ front code, Heads v head front r.2 ∧ r.2.count = none ∧ r.1 = { y with code := code } ∧
    opsOf code = opsOf y.code ++ pushes front

/-- A call is opened with what its target needs in front of the arguments. -/
theorem opens_openCall (hv : w.outlook s = v) (x : String) (i : Nat) :
    Leads w (openCall s x i y) fun r _ => Opens v (.ident x) y r := by
  -- functions and extensions have nothing in front of their arguments, unless the extension runs
  -- contracts; then the name goes in front
  have hplain : ∀ c : PendingCall, Heads v (.ident x) [] c → c.count = none →
    Opens v (.ident x) y (y, c) :=
    fun c hhead hcount => ⟨[], y.code, hhead, hcount, rfl, (List.append_nil _).symm⟩
  have hpush : ∀ (k : Constant) (c : PendingCall), Heads v (.ident x) [k] c → c.count = none →
      Opens v (.ident x) y (y.emit (.push k) (s.line i), c) :=
    fun k c hhead hcount => ⟨[k], _, hhead, hcount, rfl, opsOf_push ..⟩
  have hrunner : ∀ (w : Work) (name : String), Leads w (do
      let e ← contractRunner s i
      return (y.emit (.push (.str name)) (s.line i),
        { target := .ext e, contract := true, line := s.line i })) fun r _ =>
        Opens v (.ident x) y r :=
    fun w name => .bind (P := fun _ _ => True) (fun _ _ _ => trivial) fun e _ _ =>
      .pure (hpush _ _ (.ext rfl rfl) rfl)
  refine .get ?_
  dsimp only
  split
  · rename_i id hfind
    refine .pure (hplain _ (.func ?_ rfl) rfl)
    rw [← hv]
    exact hfind
  · exact .ite (fun _ => .pure (hpush _ _ (.ext rfl rfl) rfl)) fun _ =>
      .pure (hplain _ (.ext rfl rfl) rfl)
  · exact .get (.ite (fun _ => .throw_bind _) fun _ => .bind (P := fun _ _ => True) (.set trivial)
      fun _ w' _ => hrunner w' _)
  · exact .ite (fun _ => hrunner w _) fun _ => .throw _
  · exact .throw _

/-- A name is a variable, or opens a call if a parenthesis follows. -/
theorem reaches_nameOperand (hy : y.Spells v s start i none) (htok : s.token? i = some t)
    {name : String} (hname : t = .ident name ∨ t = .extend name) (hv : w.outlook s = v) :
    Leads w (nameOperand s y t name i) fun r _ => Reaches v s start r := by
  have hplain : Token.isNewline t = false ∧ t.kind ≠ .punct .lpar := by
    rcases hname with rfl | rfl <;> exact ⟨rfl, nofun⟩
  have hoperand : ∀ item : Item, Reaches v s start ((y.emit item.op (s.line i)).operand t.kind,
    i + 1) :=
    fun item => ⟨_, hy.operand item (s.line i) hplain.2 (Nat.le_succ i)⟩
  refine .ite (fun hparen => ?_) fun _ => ?_
  · -- a parenthesis follows: the name is the head of a call
    have hopens : ∀ r : Yard × PendingCall, Opens v t y r → Reaches v s start ({ r.1 with
        buffer := .paren true :: .call r.2 :: r.1.buffer, counts := 0 :: r.1.counts
        prev := some (.punct .lpar) }, i + 2) := by
      rintro ⟨_, c⟩ ⟨front, code, hhead, hcount, rfl, hcode⟩
      obtain ⟨ws, os, hholds, -, hws, hos⟩ := hy.holds
      have hwords : s.words start (i + 2) = ws ++ [t] ++ [.punct .lpar] := by
        rw [Source.words_succ (Source.token?_of_kind?_punct (beq_iff_eq.1 hparen))
          (Nat.le_succ_of_le hy.le) rfl, Source.words_succ htok hy.le hplain.1, hws]
        simp [wordsOf]
      refine ⟨none, Nat.le_add_right_of_le (k := 2) hy.le, hy.expect,
        ⟨_, _, .call hhead hcount suits_sitesAll_nil hholds, nofun, ?_, ?_⟩,
        fun _ => ⟨rfl, ?_, _, _, rfl⟩, fun _ => nofun⟩
      · rw [hwords]
        simp [wordsOf, wordsOpen]
      · show opsOf code = _
        rw [hcode, hos]
        simp [opsOfPhrase, opsAll]
      · rw [hwords, List.getLast?_concat]
    split
    · rename_i name' hname'
      exact .pure (hopens (y, { target := .extend _, line := s.line i })
        ⟨[], y.code, .named rfl, rfl, rfl, (List.append_nil _).symm⟩)
    · rename_i hnot
      obtain rfl := hname.resolve_right fun h => hnot _ h
      exact .bind (opens_openCall hv name i) fun r _ hopened => .pure (hopens r hopened)
  · split
    · exact .pure (hoperand (.extend _))
    · refine .get ?_
      split
      · exact .pure (hoperand (.var _))
      · exact .pure (hoperand (.extend _))
      · exact .throw_bind _

/-! ### Whole expressions -/

/-- An expression goes on behind what a step takes. -/
theorem reaches_onward {x : Compiling (Yard × Nat)}
    (hx : Leads w x fun r _ => Reaches v s start r) :
    Leads w (x >>= fun r => pure (some r)) fun r _ => ∀ p, r = some p → Reaches v s start p :=
  .bind hx fun _ _ h => .pure fun _ hp => Option.some.inj hp ▸ h

/-- What one step of an expression leaves. -/
theorem reaches_take (hy : y.Spells v s start i o) (htok : s.token? i = some t)
    (blockFollows : Bool) (hv : w.outlook s = v) (hnamed : v.Named) :
    Leads w (take s blockFollows y i t) fun r _ => ∀ p, r = some p → Reaches v s start p := by
  have hends : ∀ p : Yard × Nat, none = some p → Reaches v s start p := nofun
  have hgoes : ∀ {y' : Yard} {j : Nat} {o' : Option Phrase}, y'.Spells v s start j o' →
      ∀ p, some (y', j) = some p → Reaches v s start p :=
    fun hy' p hp => Option.some.inj hp ▸ ⟨_, hy'⟩
  -- One case for each token: the yard takes it, or the expression ends in front of it.
  unfold take
  dsimp only
  split
  · -- a line end
    refine .pure ?_
    split
    · exact hgoes (hy.newline htok)
    · exact hends
  · -- a left brace
    refine .ite (fun _ => .pure hends) fun hopen => .get ?_
    have hexpect : y.expectOperand = true := by
      cases h : y.expectOperand with
      | true => rfl
      | false => rw [h] at hopen; exact absurd rfl hopen
    obtain rfl := hy.eq_none hexpect
    refine .bind (.lift (Q := fun r w' => w' = w ∧ s.Enclosed i r.2)
      fun r hr => ⟨rfl, Source.enclosed_map htok hr⟩) fun r w' ⟨hw', henclosed⟩ => .pure ?_
    subst hw'
    exact hgoes (hy.operand (.map r.1) (s.line i) nofun (Nat.le_of_lt henclosed.1))
  · -- a right brace
    exact .pure hends
  · -- a left bracket
    refine .ite (fun hexpect => .get ?_) fun hexpect => ?_
    · obtain rfl := hy.eq_none hexpect
      refine .bind (.lift (Q := fun r w' => w' = w ∧ s.Enclosed i r.2)
        fun r hr => ⟨rfl, Source.enclosed_array htok hr⟩) fun r w' ⟨hw', henclosed⟩ => .pure ?_
      subst hw'
      exact hgoes (hy.operand (.array r.1) (s.line i) nofun (Nat.le_of_lt henclosed.1))
    · obtain ⟨e, rfl⟩ := hy.exists_phrase (Bool.eq_false_iff.2 hexpect)
      exact .pure (hgoes (hy.lbrack htok))
  · -- a right bracket
    exact reaches_onward (reaches_closeIndex hy htok)
  · -- a left parenthesis
    refine .ite (fun hexpect => ?_) fun _ => .pure hends
    obtain rfl := hy.eq_none hexpect
    exact .pure (hgoes (hy.group htok))
  · -- a right parenthesis
    exact reaches_onward (reaches_closeParen hy htok hv hnamed)
  · -- a comma
    exact reaches_onward (reaches_comma hy htok)
  · -- an operator
    exact reaches_onward (reaches_operator hy htok)
  · -- a constant
    rename_i c
    have hkind : (Token.const c).kind ≠ .punct .lpar := by cases c <;> nofun
    refine .ite (fun hexpect => ?_) fun _ => .pure hends
    obtain rfl := hy.eq_none hexpect
    exact .pure (hgoes (hy.operand (.const c) (s.line i) hkind (Nat.le_succ i)))
  · -- a name
    refine .ite (fun hexpect => ?_) fun _ => .pure hends
    obtain rfl := hy.eq_none hexpect
    exact reaches_onward (reaches_nameOperand hy htok (.inl rfl) hv)
  · -- a name of the host
    refine .ite (fun hexpect => ?_) fun _ => .pure hends
    obtain rfl := hy.eq_none hexpect
    exact reaches_onward (reaches_nameOperand hy htok (.inr rfl) hv)
  · -- an argument to spread
    refine .ite (fun _ => .throw_bind _) fun hexpect => ?_
    obtain ⟨e, rfl⟩ := hy.exists_phrase (Bool.eq_false_iff.2 hexpect)
    exact .pure (hgoes (hy.tail htok))
  · -- no token of an expression
    exact .pure hends

/-- What is taken of an expression spells what its lexemes say. -/
theorem reaches_takeAll (hy : y.Spells v s start i o) (blockFollows : Bool) (fuel : Nat)
    (hv : w.outlook s = v) (hnamed : v.Named) :
    Leads w (takeAll s blockFollows fuel y i) fun r _ => Reaches v s start r := by
  induction fuel generalizing y i o w with
  | zero =>
    unfold takeAll
    split
    · exact .pure ⟨o, hy⟩
    · exact .throw _
  | succ fuel ih =>
    unfold takeAll
    split
    · exact .pure ⟨o, hy⟩
    · rename_i t htok
      refine .bind (P := fun r w' => w'.outlook s = v ∧ ∀ p, r = some p → Reaches v s start p)
        (fun r w' hr => ?_) fun r w' ⟨hv', hreaches⟩ => ?_
      · exact ⟨(refers_take blockFollows (.refl s w) i t r w' hr).outlook.trans hv,
          reaches_take hy htok blockFollows hv hnamed r w' hr⟩
      cases r with
      | none => exact .pure ⟨o, hy⟩
      | some p =>
        obtain ⟨o', hy'⟩ := hreaches p rfl
        exact ih hy' hv'

/-- An expression that can end is a sentence. -/
theorem sentence_finish (hy : y.Spells v s start i o) {code : Array Instr}
    (hfinish : finish s y i = .ok code) :
    ∃ p : Sentence, s.words start i = p.words ∧ opsOf code = p.ops ∧ Suits v p.sites := by
  obtain ⟨⟨out, rest⟩, hflush⟩ : ∃ r, Yard.flushOps (fun _ => true) (s.line i) y.code y.buffer
    = r := ⟨_, rfl⟩
  obtain ⟨hhanging, rfl, rfl⟩ := finish_eq_ok hflush hfinish
  -- the last value is complete when all operators are let out
  obtain ⟨o', ws, os, hholds, ho', hwords, hops⟩ : ∃ o' : Option Phrase, ∃ ws os,
      Holds v y.setIndex [] y.counts ws os ∧ (∀ e, o' = some e → Suits v (e.sites os)) ∧
        s.words start i = ws ++ wordsOf o' ∧ opsOf out = os ++ opsOfPhrase o' := by
    obtain ⟨ws, os, hholds, ho, hws, hos⟩ := hy.holds
    cases o with
    | none =>
      cases hbuffer : y.buffer with
      | nil =>
        rw [hbuffer] at hflush hholds
        cases hflush
        exact ⟨none, ws, os, hholds, nofun, hws, hos⟩
      | cons p rest =>
        cases p with
        | op op => cases hhanging.symm.trans (hy.waits rfl op rest hbuffer)
        | _ =>
          rw [hbuffer] at hflush
          cases hflush
    | some e =>
      obtain ⟨ws', os', e', he', hholds', hws', hos'⟩ := hholds.flushOps (ho e rfl) hos hflush
      exact ⟨some e', ws', os', hholds', fun _ h => (Option.some.inj h) ▸ he',
        hws.trans hws'.symm, hos'⟩
  obtain ⟨-, leads, hleads, hset, rfl, rfl⟩ := hholds.exists_leads
  refine ⟨⟨leads, o'⟩, hwords, ?_, suits_append hleads ?_⟩
  · rw [Sentence.ops, ← hset]
    split
    · rw [opsOf_push, hops]
      rfl
    · rw [hops]
      exact (List.append_nil _).symm
  · cases o' with
    | none => exact suits_nil
    | some e => exact ho' e rfl

/-- What is taken of an expression that can end is a sentence. -/
theorem sentence_takeAll (hnamed : (w.outlook s).Named) {blockFollows : Bool}
    {fuel stop : Nat} {w' : Work} (htake : takeAll s blockFollows fuel {} start w
      = .ok (y, stop) w') {code : Array Instr}
    (hfinish : finish s y stop = .ok code) :
    start ≤ stop ∧ ∃ p : Sentence, s.words start stop = p.words ∧
      opsOf code = p.ops ∧ Suits (w.outlook s) p.sites := by
  have hy : Yard.Spells (w.outlook s) s start start {} none :=
    ⟨Nat.le_refl start, rfl, ⟨_, _, .start, nofun, Source.words_self s start, rfl⟩, nofun,
      fun _ => nofun⟩
  obtain ⟨o, hy'⟩ := reaches_takeAll hy blockFollows fuel rfl hnamed (y, stop) w' htake
  exact ⟨hy'.le, sentence_finish hy' hfinish⟩

/-- **An expression that compiles is read as a sentence.** Its tokens are those of the source
between where it starts and where it stops, its code is what is added to the innermost block, and
every call in it fits. -/
theorem sentence_expression (blockFollows : Bool) {start : Nat} (htop : w.top < w.arena.size)
    (hspelled : w.arena.Every Block.Spelled) :
    Leads w (expression s blockFollows start) fun stop w' => start ≤ stop ∧ ∃ p : Sentence, ∃ code,
      s.words start stop = p.words ∧ Suits (w.outlook s) p.sites ∧
      (w'.block w.top).code = (w.block w.top).code ++ code ∧ opsOf code = p.ops := by
  refine .bind (P := fun r w' => takeAll s blockFollows (s.lexemes.size - start) {} start w
    = .ok r w' ∧
    Refers s w w') (fun r w' hr => ⟨hr, refers_takeAll blockFollows _ (.refl s w) start r w' hr⟩) ?_
  rintro ⟨y, stop⟩ w' ⟨htake, hw'⟩
  refine .bind (.lift (Q := fun code w'' => w'' = w' ∧ finish s y stop = .ok code) fun code hcode =>
    ⟨rfl, hcode⟩) ?_
  rintro code _ ⟨rfl, hfinish⟩
  obtain ⟨hle, p, hwords, hops, hfits⟩ := sentence_takeAll (named_outlook hspelled) htake hfinish
  refine .bind (P := fun _ w'' => (w''.block w.top).code = (w.block w.top).code ++ code)
    (.modify ?_)
    fun _ w'' hcode => .pure ⟨hle, p, code, hwords, hfits, hcode, hops⟩
  rw [Work.modifyTop, hw'.steady.top, Work.block_modifyBlock_self (hw'.steady.size ▸ htop)]
  exact congrArg (· ++ code) hw'.steady.code

end

end Covenant.Compile
