import Covenant.Proofs.Compile.Growth

/-!
# What leaves signatures as they are

The signature of a function is declared in its header. Whatever is compiled apart from headers keeps
the signature of every function, and adds variables only behind those that a block has
(`Work.Grown`). This is shown for expressions (`spares_entryExpression`), for the end of a block
(`spares_closeBlock`) and for all actions that declare no part of a header (`spares_act`).
-/

namespace Covenant

/-- What the header of a function declares. -/
def FuncInfo.heading (f : FuncInfo) : String × List Ty × Option (Dict Segment) × Bool :=
  (f.name, f.params, f.segments, f.variadic)

/-- Whether a block has the signature of another one, and its variables with others behind them. -/
structure Block.Extends (b b' : Block) : Prop where
  heading : b'.func?.map FuncInfo.heading = b.func?.map FuncInfo.heading
  vars : b.vars.toList <+: b'.vars.toList

namespace Block.Extends

variable {b b' b'' : Block}

theorem of_eq (hinfo : b'.info = b.info) (hvars : b'.vars = b.vars) : b.Extends b' :=
  ⟨by rw [Block.func?, hinfo, Block.func?], hvars ▸ List.prefix_rfl⟩

theorem refl (b : Block) : b.Extends b := of_eq rfl rfl

theorem trans (h : b.Extends b') (h' : b'.Extends b'') : b.Extends b'' :=
  ⟨h'.heading.trans h.heading, h.vars.trans h'.vars⟩

theorem isSome (h : b.Extends b') : b'.func?.isSome = b.func?.isSome := by
  rw [← Option.isSome_map, h.heading, Option.isSome_map]

theorem modifyFunc (b : Block) {f : FuncInfo → FuncInfo} (hf : ∀ i, (f i).heading = i.heading) :
    b.Extends (b.modifyFunc f) := by
  obtain ⟨parent, info, objects, vars, code, children⟩ := b
  cases info with
  | func i => exact ⟨congrArg some (hf i), List.prefix_rfl⟩
  | plain | contract => exact .refl _

theorem modifyContract (b : Block) (f : ContractInfo → ContractInfo) :
    b.Extends (b.modifyContract f) := by
  obtain ⟨parent, info, objects, vars, code, children⟩ := b
  cases info <;> exact ⟨rfl, List.prefix_rfl⟩

theorem setWritable (b : Block) : b.Extends b.setWritable := by
  obtain ⟨parent, info, objects, vars, code, children⟩ := b
  cases info <;> exact ⟨rfl, List.prefix_rfl⟩

theorem declare (b : Block) (x : String) (t : Ty) : b.Extends (b.declare x t) :=
  ⟨rfl, by rw [Block.declare, Array.toList_push]; exact List.prefix_append ..⟩

theorem declareAll (b : Block) (xs : List String) (t : Ty) :
    b.Extends (xs.foldl (fun b x => b.declare x t) b) := by
  induction xs generalizing b with
  | nil => exact .refl b
  | cons x xs ih => exact (declare b x t).trans (ih _)

theorem addTarget (b : Block) (t : Target) (line : Nat) :
    b.Extends (Compile.addTarget b t line) := by
  unfold Compile.addTarget
  split <;> exact of_eq rfl rfl

end Block.Extends

namespace Compile

variable {s : Source} {w w' w'' : Work} {y : Yard} {i : Nat}

/-- Whether all blocks keep their signatures and their variables. -/
def Work.Grown (w w' : Work) : Prop := ∀ id, (w.block id).Extends (w'.block id)

namespace Work.Grown

theorem of_arena (h : w'.arena = w.arena) : w.Grown w' := by
  intro id
  rw [Work.block, Work.block, h]
  exact .refl _

theorem refl (w : Work) : w.Grown w := of_arena rfl

theorem trans (h : w.Grown w') (h' : w'.Grown w'') : w.Grown w'' := fun id => (h id).trans (h' id)

/-- A change of a block that extends it lets the work grow. -/
theorem modify {f : Block → Block} {id : BlockId} (h : (w.block id).Extends (f (w.block id))) :
    w.Grown (w.modifyBlock id f) := by
  intro j
  show Block.Extends _ (Arena.block (Array.modify w.arena id f) j)
  rw [Arena.block_modify]
  split
  · rename_i hj
    obtain ⟨rfl, -⟩ := hj
    exact h
  · exact .refl _

theorem setWritable (w : Work) : w.Grown w.setWritable := by
  intro id
  rw [Work.block_setWritable]
  split
  · exact .setWritable _
  · exact .refl _

theorem noteUse (w : Work) (contract : String) : w.Grown (w.noteUse contract) := by
  intro id
  rw [Work.block_noteUse]
  split
  · exact .modifyContract _ _
  · exact .refl _

/-- A block that has just been opened has no signature. -/
theorem openBlock (w : Work) : w.Grown w.openBlock := by
  have hpush : ∀ id, (w.block id).Extends
    (Arena.block (w.arena.push { parent := some w.top }) id) := by
    intro id
    rw [Arena.block_push]
    split
    · rename_i hid
      rw [Work.block, Arena.block_of_le (Nat.le_of_eq hid.symm)]
      exact .of_eq rfl rfl
    · exact .refl _
  intro id
  refine (hpush id).trans ?_
  show Block.Extends _ (Arena.block (Array.modify _ _ _) id)
  rw [Arena.block_modify]
  split
  · exact .of_eq rfl rfl
  · exact .refl _

end Work.Grown

/-- Whether a step of compilation declares no part of a header. -/
abbrev Spares {α : Type} (w : Work) (x : Compiling α) : Prop := Leads w x fun _ w' => w.Grown w'

namespace Spares

variable {α β : Type} {x : Compiling α} {k : α → Compiling β}

theorem pure (a : α) : Spares w (pure a) := Leads.pure (.refl w)

theorem throw (e : Error) : Spares w (throw e : Compiling α) := Leads.throw e

theorem fail (f : Fault) (i : Nat) : Spares w (failAt s f i : Compiling α) := throw _

theorem throw_bind (e : Error) : Spares w ((MonadExcept.throw e : Compiling α) >>= k) :=
  Leads.throw_bind e

theorem get {k : Work → Compiling β} (h : Spares w (k w)) : Spares w (MonadState.get >>= k) :=
  Leads.get h

theorem bind (hx : Spares w x) (hk : ∀ a w', w.Grown w' → Spares w' (k a)) : Spares w (x >>= k) :=
  Leads.bind hx fun a w' h b w'' hrun => h.trans (hk a w' h b w'' hrun)

theorem modify {f : Work → Work} (h : w.Grown (f w)) : Spares w (modify f : Compiling PUnit) :=
  Leads.modify h

theorem set (h : w.Grown w') : Spares w (set w' : Compiling PUnit) := Leads.set h

theorem lift (r : Except Error α) : Spares w (liftM r : Compiling α) :=
  Leads.lift fun _ _ => .refl w

theorem ite {c : Prop} [Decidable c] {y : Compiling α} (hx : Spares w x) (hy : Spares w y) :
    Spares w (if c then x else y) :=
  Leads.ite (fun _ => hx) fun _ => hy

end Spares

/-! ### Expressions -/

theorem spares_contractRunner (i : Nat) : Spares w (contractRunner s i) := by
  unfold contractRunner
  split
  · exact .pure _
  · exact .fail _ i

/-- To open a call of a contract spares all headers. -/
theorem spares_openContract (id : BlockId) (i : Nat) (y : Yard) :
    Spares w (openContract s id i y) := by
  refine .get ?_
  dsimp only
  split <;> refine .ite (.throw_bind _) (.bind (.set ?_) fun _ w' _ =>
    .bind (spares_contractRunner i) fun _ w'' _ => .pure _)
  · split
    · exact (Work.Grown.noteUse w _).trans (.setWritable _)
    · exact .noteUse w _
  · exact .noteUse w _

theorem spares_openCall (name : String) (i : Nat) (y : Yard) : Spares w (openCall s name i y) := by
  refine .get ?_
  dsimp only
  split
  · exact .pure _
  · exact .ite (.pure _) (.pure _)
  · exact spares_openContract _ i y
  · exact .ite (.bind (spares_contractRunner i) fun _ _ _ => .pure _) (.fail _ i)
  · exact .fail _ i

theorem spares_endFunc (id : BlockId) (count : Nat) (c : PendingCall) (i : Nat) (y : Yard) :
    Spares w (endFunc s id count c i y) := by
  refine .get ?_
  split
  · exact .fail _ i
  · exact .ite (.throw_bind _) (.ite (.bind (.set (.setWritable w)) fun _ _ _ => .pure _) (.pure _))

theorem spares_endExt (e : Extension) (count : Nat) (c : PendingCall) (i : Nat) (y : Yard) :
    Spares w (endExt s e count c i y) := by
  unfold endExt
  dsimp only
  exact .ite (.throw_bind _)
    (.ite (.bind (.modify (.setWritable w)) fun _ _ _ => .pure _) (.pure _))

theorem spares_endCall (count : Nat) (c : PendingCall) (i : Nat) (y : Yard) :
    Spares w (endCall s count c i y) := by
  unfold endCall
  split
  · exact spares_endFunc _ count c i y
  · exact spares_endExt _ count c i y
  · exact .pure _

theorem spares_closeCall (count : Nat) (i : Nat) (y : Yard) : Spares w (closeCall s count i y) := by
  unfold closeCall
  dsimp only
  split
  · refine .get ?_
    split
    · exact .bind (spares_endCall _ _ i _) fun _ _ _ => .pure _
    · refine .ite (.ite (.throw_bind _) (.pure _)) ?_
      exact .bind (spares_endCall _ _ i _) fun _ _ _ => .pure _
  · exact .fail _ i

theorem spares_closeIndex (y : Yard) (i : Nat) : Spares w (closeIndex s y i) := by
  refine .ite (.throw_bind _) ?_
  dsimp only
  split
  · exact .fail _ i
  · split
    · exact .fail _ (i + 1)
    · exact .ite (.pure _) (.pure _)
    · exact .pure _

theorem spares_closeParen (y : Yard) (i : Nat) : Spares w (closeParen s y i) := by
  refine .ite (.throw_bind _) ?_
  dsimp only
  split
  · exact .fail _ i
  · split
    · refine .bind (spares_closeCall _ i _) fun r _ _ => ?_
      obtain ⟨y', chained⟩ := r
      cases chained <;> exact .pure _
    · exact .pure _

theorem spares_operator (y : Yard) (o : Operator) (i : Nat) : Spares w (operator s y o i) := by
  unfold operator
  dsimp only
  split
  · exact .ite (.throw_bind _) (.pure _)
  · exact .ite (.throw_bind _) (.pure _)
  · exact .fail _ i

theorem spares_nameOperand (y : Yard) (t : Token) (name : String) (i : Nat) :
    Spares w (nameOperand s y t name i) := by
  refine .ite ?_ ?_
  · split
    · exact .pure _
    · exact .bind (spares_openCall name i y) fun _ _ _ => .pure _
  · split
    · exact .pure _
    · refine .get ?_
      split
      · exact .pure _
      · exact .pure _
      · exact .throw_bind _

/-- So does one lexeme of an expression. -/
theorem spares_take (blockFollows : Bool) (y : Yard) (i : Nat) (t : Token) :
    Spares w (take s blockFollows y i t) := by
  have hsome : ∀ {x : Compiling (Yard × Nat)}, Spares w x →
    Spares w (x >>= fun r => pure (some r)) :=
    fun hx => .bind hx fun _ _ _ => .pure _
  unfold take
  dsimp only
  split
  · -- a line end
    exact .pure _
  · -- a left brace
    exact .ite (.pure _) (.get (.bind (.lift _) fun _ _ _ => .pure _))
  · -- a right brace
    exact .pure _
  · -- a left bracket
    exact .ite (.get (.bind (.lift _) fun _ _ _ => .pure _)) (.pure _)
  · -- a right bracket
    exact hsome (spares_closeIndex y i)
  · -- a left parenthesis
    exact .ite (.pure _) (.pure _)
  · -- a right parenthesis
    exact hsome (spares_closeParen y i)
  · -- a comma
    exact hsome (.ite (.throw_bind _) (.pure _))
  · -- an operator
    exact hsome (spares_operator y _ i)
  · -- a constant
    exact .ite (.pure _) (.pure _)
  · -- a name
    exact .ite (hsome (spares_nameOperand y _ _ i)) (.pure _)
  · -- a name of the host
    exact .ite (hsome (spares_nameOperand y _ _ i)) (.pure _)
  · -- an argument to spread
    exact .ite (.throw_bind _) (.pure _)
  · -- no token of an expression
    exact .pure _

/-- So does a whole expression. -/
theorem spares_takeAll (blockFollows : Bool) (fuel : Nat) (y : Yard) (i : Nat) :
    Spares w (takeAll s blockFollows fuel y i) := by
  induction fuel generalizing w y i with
  | zero =>
    unfold takeAll
    split
    · exact .pure _
    · exact .throw _
  | succ fuel ih =>
    unfold takeAll
    split
    · exact .pure _
    · refine .bind (spares_take blockFollows y i _) fun r w' _ => ?_
      cases r with
      | none => exact .pure _
      | some p => exact ih p.1 p.2

theorem spares_expression (blockFollows : Bool) (start : Nat) :
    Spares w (expression s blockFollows start) :=
  .bind (spares_takeAll blockFollows _ _ start) fun _ _ _ => .bind (.lift _) fun _ _ _ =>
    .bind (.modify (.modify (.of_eq rfl rfl))) fun _ _ _ => .pure _

theorem spares_emit (op : Op) (line : Nat) : Spares w (emit op line) :=
  .modify (.modify (.of_eq rfl rfl))

/-- So does the expression of an entry. -/
theorem spares_entryExpression (f : Grammar.Flags) (i : Nat) :
    Spares w (entryExpression s f i) := by
  have hrest : ∀ w, Spares w (do
      let before := ((← get).block (← get).top).code.size
      let stop ← expression s f.toBlock (if f.toFork then i else i + 1)
      if f.mustEval && ((← get).block (← get).top).code.size == before then
        failAt s .missingExpression i
      return stop) := fun w =>
    .get (.get (.bind (spares_expression _ _) fun _ _ _ =>
      .get (.get (.ite (.throw_bind _) (.pure _)))))
  exact .ite (.bind (spares_emit _ _) fun _ w' _ => hrest w') (hrest w)

/-! ### Blocks and actions -/

/-- So does closing a block. -/
theorem spares_closeBlock (i : Nat) : Spares w (closeBlock s i) := by
  refine .get ?_
  split
  · exact .throw _
  · rename_i child rest _
    have hinner : w.Grown { w with inner := rest } := .of_arena rfl
    dsimp only
    split
    · have hpop : ({ w with inner := rest } : Work).Grown
          (({ w with inner := rest } : Work).modifyTop fun b => { b with code := b.code.pop }) :=
        .modify (.of_eq rfl rfl)
      exact .ite (.set (hinner.trans (hpop.trans (.modify (.of_eq rfl rfl))))) (.set hinner)
    · exact .set hinner

theorem spares_inContract (f : Fault) (i : Nat) : Spares w (inContract s f i) :=
  .get (.ite (.fail f i) (.pure _))

theorem spares_wrapTop (op : BlockId → Op) (i : Nat) : Spares w (wrapTop op s i) :=
  .modify (.modify (.of_eq rfl rfl))

/-- Whether an action declares a part of a header. -/
def declaresHeader : Grammar.Action → Bool
  | .nameBlock | .paramType | .paramTail | .segment => true
  | _ => false

/-- Every action that declares no part of a header keeps the signatures. -/
theorem spares_act {a : Grammar.Action} (ha : declaresHeader a = false) (i : Nat) :
    Spares w (act s a i) := by
  have hwait : ∀ (f : Fault), Spares w (do
      let w ← get
      let name := s.name i
      if taken w name then failAt s f i
      set { w with pending := w.pending ++ [name] } : Compiling Unit) :=
    fun f => .get (.ite (.throw_bind _) (.set (.of_arena rfl)))
  have hcontract : ∀ (w : Work) (f : ContractInfo → ContractInfo), w.Grown
    (w.modifyTop (·.modifyContract f)) :=
    fun w f => .modify (.modifyContract _ f)
  -- The actions that are left change code, variables, targets
  -- or fields, which no signature mentions.
  cases a with
  | nameBlock | paramType | paramTail | segment => cases ha
  | none => exact .pure _
  | param | var => exact hwait _
  | result =>
    unfold act result
    dsimp only
    split
    · exact .modify (.modify (.modifyFunc _ fun _ => rfl))
    · exact .pure _
  | «if» => exact spares_wrapTop _ i
  | «else» =>
    refine .get ?_
    split
    · exact spares_wrapTop _ i
    · exact .fail _ i
  | «while» => exact .bind (spares_wrapTop _ i) fun _ _ _ => .modify (.modify (.of_eq rfl rfl))
  | «return» | «continue» | «break» | raise | assign => exact spares_emit _ _
  | varType =>
    have hdeclared : w.Grown (w.modifyTop fun b =>
        w.pending.foldl (fun b name => b.declare name (typeAt s i)) b) :=
          .modify (.declareAll _ _ _)
    exact .modify (hdeclared.trans (.of_arena rfl))
  | assignVar =>
    refine .get (.ite (.ite (.throw_bind _) ?_) ?_)
    · exact .set (.modify (.addTarget _ _ _))
    · split
      · exact .set (.modify (.addTarget _ _ _))
      · exact .throw_bind _
  | data =>
    exact .bind (spares_inContract _ i) fun _ w' _ =>
      .modify ((hcontract w' _).trans (.of_arena rfl))
  | settings => exact spares_inContract _ i
  | constName => exact .modify (.of_arena rfl)
  | constValue =>
    exact .bind (spares_inContract _ i) fun _ w' _ =>
      .modify ((hcontract w' _).trans (.of_arena rfl))
  | field =>
    refine .get ?_
    cases w.fieldStep with
    | name | type | tag => exact .throw_bind _
    | start | comma =>
      refine .ite (.throw_bind _) ?_
      dsimp only
      split
      · exact .pure _
      · exact .set ((hcontract w _).trans (.of_arena rfl))
  | fieldType | fieldTag =>
    exact .get (.ite (.throw_bind _) (.set ((hcontract w _).trans (.of_arena rfl))))
  | fieldComma | fieldLine => exact .get (.ite (.throw_bind _) (.set (.of_arena rfl)))
  | fields =>
    exact .bind (.get (.ite (.throw_bind _) (.set (.of_arena rfl)))) fun _ w' _ =>
      .modify (.modify (.of_eq rfl rfl))

end Compile

end Covenant
