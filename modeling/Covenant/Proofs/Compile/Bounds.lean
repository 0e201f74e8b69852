import Covenant.Proofs.Compile.Positions
import Covenant.Proofs.Lexeme.Pieces
import Covenant.Proofs.Registry.Closure

/-!
# Compiling a text ends, and stays in bounds

Whatever a text is, compiling it gives the number of a unit or an error
(`Arena.compileUnit_outcome`). The cursor may read a lexeme again and go back to one that it
remembers. What falls with every entry of the table is four times the number of lexemes ahead plus a
rank of the state (`Compile.remaining`).

On the way (`Compile.Visits`) all is in bounds: the lexemes that are read, the blocks that are open
and those that are referred to, and the data fields that wait for their type. The block of the unit
stays open (`Session.Reachable.compile_bounded`).
-/

namespace Covenant

namespace Compile

open Covenant.Computation

variable {s : Source} {w : Work} {i : Nat}

/-! ### Actions -/

/-- The number of data fields of the innermost block. -/
def Work.fieldCount (w : Work) : Nat := ((((w.block w.top).contract?).bind (·.data)).getD []).length

/-- Whether the data fields that wait for their type are fields of the innermost block. -/
def Work.FieldsWithin (w : Work) : Prop := ∀ j ∈ w.pendingFields, j < w.fieldCount

theorem Work.FieldsWithin.of_nil (h : w.pendingFields = []) : w.FieldsWithin := by
  intro j hj
  rw [h] at hj
  exact absurd hj List.not_mem_nil

theorem unexpected_fault (s : Source) (e : Expected) (i : Nat) :
    (s.unexpected e i).fault ≠ .outOfSteps := by
  unfold Source.unexpected
  split <;> exact nofun

/-- Going on behind a field's fault is no matter. -/
theorem ends_failField {α : Type} {f : Position → Fault} {k : Unit → Compiling α}
    {Q : α → Work → Prop} (h : ∀ p, f p ≠ .outOfSteps) : Ends w (failField s f i >>= k) Q :=
  .throw_bind (h _)

theorem contract?_modifyContract (b : Block) (f : ContractInfo → ContractInfo) :
    (b.modifyContract f).contract? = b.contract?.map f := by
  obtain ⟨_, info, _, _, _, _⟩ := b
  cases info <;> rfl

/-- Actions on the line of a data section. -/
def onFields : Grammar.Action → Bool
  | .field | .fieldComma | .fieldType | .fieldTag => true
  | _ => false

/-- Actions that leave no data fields waiting. -/
def dropsFields : Grammar.Action → Bool
  | .data | .fieldLine | .fields => true
  | _ => false

theorem proceeds_wrapTop (op : BlockId → Op) : Proceeds w (wrapTop op s i) fun _ => True :=
  .modify rfl trivial

theorem proceeds_emit (op : Op) (line : Nat) : Proceeds w (emit op line) fun _ => True :=
  .modify rfl trivial

theorem proceeds_nameBlock : Proceeds w (nameBlock s i) fun _ => True := by
  refine .get ?_
  dsimp only
  refine .ite (fun _ => .throw_bind nofun) fun _ => ?_
  split <;> exact .set rfl trivial

theorem proceeds_param : Proceeds w (param s i) fun _ => True :=
  .get (.ite (fun _ => .throw_bind nofun) fun _ => .set rfl trivial)

theorem proceeds_declareParam (t : Ty) (variadic : Bool) (name : String) :
    Proceeds w (declareParam s t variadic i name) fun _ => True := by
  refine .get (.bind (P := fun _ => True) (.set rfl trivial) fun _ _ _ => ?_)
  exact .ite (fun _ => .failAt nofun) fun _ => .pure trivial

theorem proceeds_declareEach (t : Ty) (variadic : Bool) (names : List String) :
    Proceeds w (names.forM (declareParam s t variadic i)) fun _ => True := by
  induction names generalizing w with
  | nil => exact .pure trivial
  | cons name names ih => exact .bind (proceeds_declareParam t variadic name) fun _ _ _ => ih

theorem proceeds_declareParams (t : Ty) (variadic : Bool) :
    Proceeds w (declareParams s t variadic i) fun _ => True := by
  refine .get (.bind (P := fun _ => True) (.set rfl trivial) fun _ _ _ => ?_)
  exact .ite (fun _ => .throw_bind nofun) fun _ => proceeds_declareEach t variadic _

theorem proceeds_result : Proceeds w (result s i) fun _ => True := by
  unfold result
  split
  · exact .modify rfl trivial
  · exact .pure trivial

theorem proceeds_segment : Proceeds w (segment s i) fun _ => True := by
  refine .get ?_
  split
  · exact .pure trivial
  · exact .ite (fun _ => .throw_bind nofun) fun _ => .set rfl trivial

theorem proceeds_var : Proceeds w (var s i) fun _ => True :=
  .get (.ite (fun _ => .throw_bind nofun) fun _ => .set rfl trivial)

theorem proceeds_elseBranch : Proceeds w (elseBranch s i) fun _ => True := by
  refine .get ?_
  split
  · exact proceeds_wrapTop _
  · exact .failAt nofun

theorem proceeds_whileLoop : Proceeds w (whileLoop s i) fun _ => True :=
  .bind (proceeds_wrapTop _) fun _ _ _ => .modify rfl trivial

theorem proceeds_assignVar : Proceeds w (assignVar s i) fun _ => True := by
  refine .get ?_
  dsimp only
  refine .ite (fun _ => .ite (fun _ => .throw_bind nofun) fun _ => .set rfl trivial) fun _ => ?_
  split
  · exact .set rfl trivial
  · exact .throw_bind nofun

theorem proceeds_inContract {f : Fault} (h : f ≠ .outOfSteps) :
    Proceeds w (inContract s f i) fun _ => True :=
  .get (.ite (fun _ => .failAt h) fun _ => .pure trivial)

theorem proceeds_constValue : Proceeds w (constValue s i) fun _ => True :=
  .bind (proceeds_inContract nofun) fun _ _ _ => .modify rfl trivial

/-- Other actions leave the data fields that wait. -/
theorem proceeds_act {a : Grammar.Action} (honFields : onFields a = false)
    (hdrops : dropsFields a = false) : Proceeds w (act s a i) fun _ => True := by
  cases a with
  | none => exact .pure trivial
  | nameBlock => exact proceeds_nameBlock
  | param => exact proceeds_param
  | paramType | paramTail => exact proceeds_declareParams _ _
  | result => exact proceeds_result
  | segment => exact proceeds_segment
  | «if» => exact proceeds_wrapTop _
  | «else» => exact proceeds_elseBranch
  | «while» => exact proceeds_whileLoop
  | «return» | «continue» | «break» | raise | assign => exact proceeds_emit _ _
  | var => exact proceeds_var
  | varType => exact .modify rfl trivial
  | assignVar => exact proceeds_assignVar
  | settings => exact proceeds_inContract nofun
  | constName => exact .modify rfl trivial
  | constValue => exact proceeds_constValue
  | field | fieldComma | fieldType | fieldTag => cases honFields
  | data | fieldLine | fields => cases hdrops

theorem ends_fieldLine : Ends w (fieldLine s i) fun _ w' => w'.pendingFields = [] :=
  .get (.ite (fun _ => ends_failField fun _ h => by cases h) fun _ => .set rfl)

/-- Where a line or a section begins or ends, no data fields wait. -/
theorem ends_act_drops {a : Grammar.Action} (h : dropsFields a = true) :
    Ends w (act s a i) fun _ w' => w'.pendingFields = [] := by
  cases a with
  | data => exact .bind (proceeds_inContract nofun) fun _ _ _ => .modify rfl
  | fieldLine => exact ends_fieldLine
  | fields => exact .bind ends_fieldLine fun _ _ h => .modify h
  | _ => cases h

/-- A new field is the last one. -/
theorem ends_field (htop : w.top < w.arena.size) (h : w.FieldsWithin) :
    Ends w (field s i) fun _ w' => w'.FieldsWithin := by
  refine .get ?_
  cases w.fieldStep with
  | name | type | tag => exact ends_failField fun _ h => by cases h
  | start | comma =>
    refine .ite (fun _ => .throw_bind nofun) fun _ => ?_
    dsimp only
    split
    · exact .pure h
    · rename_i fields hfields
      obtain ⟨c, hc, hdata⟩ := Option.bind_eq_some_iff.1 hfields
      -- The new field is the last one of the list, so its index is the old count.
      have hcount : w.fieldCount = fields.length := by
        rw [Work.fieldCount, hfields, Option.getD_some]
      refine .set fun j hj => ?_
      have hnew : Work.fieldCount { w.modifyTop fun b => b.modifyContract fun c =>
          { c with data := some (fields ++ [{ name := s.name i }]) } with
            pendingFields := w.pendingFields ++ [fields.length], fieldStep := .name }
          = fields.length + 1 := by
        show ((((w.modifyTop _).block w.top).contract?.bind (·.data)).getD []).length = _
        rw [Work.modifyTop, Work.block_modifyBlock_self htop, contract?_modifyContract, hc]
        simp
      refine Nat.lt_of_lt_of_eq ?_ hnew.symm
      rcases List.mem_append.1 hj with hold | hlast
      · exact Nat.lt_succ_of_lt (hcount ▸ h j hold)
      · rw [List.mem_singleton.1 hlast]
        exact Nat.lt_succ_self _

/-- Changing fields leaves their number. -/
theorem fieldsWithin_modifyPending (htop : w.top < w.arena.size) (h : w.FieldsWithin)
    (f : Field → Field) : (modifyPending w f).FieldsWithin := by
  have hcount : (modifyPending w f).fieldCount = w.fieldCount := by
    show ((((w.modifyTop _).block w.top).contract?.bind (·.data)).getD []).length = _
    rw [Work.modifyTop, Work.block_modifyBlock_self htop, contract?_modifyContract, Work.fieldCount]
    cases (w.block w.top).contract? with
    | none => rfl
    | some c => cases hdata : c.data <;> simp [hdata, modifyFields]
  intro j hj
  rw [hcount]
  exact h j hj

/-- Actions on a line of the data section leave fields waiting that are there. -/
theorem ends_act_onFields {a : Grammar.Action} (ha : onFields a = true)
    (htop : w.top < w.arena.size) (h : w.FieldsWithin) :
    Ends w (act s a i) fun _ w' => w'.FieldsWithin := by
  cases a with
  | field => exact ends_field htop h
  | fieldComma => exact .get (.ite (fun _ => ends_failField fun _ h => by cases h) fun _ => .set h)
  | fieldType | fieldTag =>
    exact .get (.ite (fun _ => ends_failField fun _ h => by cases h) fun _ => .set
      (fieldsWithin_modifyPending htop h _))
  | _ => cases ha

/-! ### The cursor -/

/-- A rank of the states: one that reads the same lexeme again, in another state, falls. -/
def rank : Grammar.State → Nat
  | .assignEval => 5
  | .var => 3
  | .root | .body | .funcParams => 2
  | .funcResult => 1
  | _ => 0

/-- What falls with every entry of the table. -/
def remaining (s : Source) (c : Cursor) : Nat := 4 * (s.lexemes.size - c.position) + rank c.state

/-- Whether a cursor is within the lexemes. The name to return to stands right before it. -/
structure Cursor.Within (s : Source) (c : Cursor) : Prop where
  position : c.position ≤ s.lexemes.size
  fork : c.fork ≤ c.position
  behindName : c.state = .assignEval → c.position = c.fork + 1 ∧
    (s.kind? c.fork = some .ident ∨ s.kind? c.fork = some .extend)

/-- What an entry of the table can be, by what it does to the cursor and to the data fields. -/
inductive Turn (st : Grammar.State) (k : Kind) :
    Grammar.State → Grammar.Flags → Grammar.Action → Prop
  /-- Reads the lexeme again. -/
  | again {next : Grammar.State} : rank next < rank st → next ≠ .assignEval → next ≠ .fields →
      st ≠ .fields → Turn st k next { stay := true } .none
  /-- Goes back to the name and reads the targets of an assignment. -/
  | targets : st = .assignEval → Turn st k .assign { toFork := true, stay := true } .none
  /-- Goes back to the name and reads an expression. -/
  | call : st = .assignEval → Turn st k .eval { toFork := true, toBody := true } .none
  | name : st = .body → k = .ident ∨ k = .extend → Turn st k .assignEval { fork := true } .none
  | field {a : Grammar.Action} : st = .fields → onFields a = true → Turn st k .fields {} a
  | line : st = .fields → Turn st k .fields {} .fieldLine
  | fields : st = .fields → Turn st k .body {} .fields
  | onward {next : Grammar.State} {f : Grammar.Flags} {a : Grammar.Action} : st ≠ .fields →
      onFields a = false → f.stay = false → f.toFork = false → f.fork = false →
      (∀ atRoot, rank (stateBehind f (if next == .eval then st else next) atRoot) ≤ 3) →
      Turn st k next f a

/-- The rows of the grammar are turns. -/
theorem turn_of_row {st next : Grammar.State} {k : Kind} {f : Grammar.Flags} {a : Grammar.Action}
    (h : Grammar.row st k = some (.go next f a)) : Turn st k next f a := by
  unfold Grammar.row at h
  split at h <;> cases h
  all_goals
    first
      | exact .onward (by decide) rfl rfl rfl rfl (by decide)
      | exact .again (by decide) (by decide) (by decide) (by decide)
      | exact .call rfl
      | exact .name rfl (.inl rfl)
      | exact .name rfl (.inr rfl)
      | exact .line rfl
      | exact .field rfl rfl
      | exact .fields rfl

/-- So are all entries, those for the rest of the lexemes among them. -/
theorem turn_of_entry {st next : Grammar.State} {k : Kind} {f : Grammar.Flags} {a : Grammar.Action}
    (h : Grammar.entry st k = .go next f a) : Turn st k next f a := by
  unfold Grammar.entry at h
  cases hrow : Grammar.row st k with
  | some e =>
    rw [hrow] at h
    obtain rfl : e = .go next f a := h
    exact turn_of_row hrow
  | none =>
    rw [hrow] at h
    cases st <;> cases h
    all_goals
      first
        | exact .again (by decide) (by decide) (by decide) (by decide)
        | exact .targets rfl

/-! ### Entries of the table -/

/-- An expression that stands in an entry ends behind its start and within the source. -/
theorem proceeds_entryExpression {f : Grammar.Flags} (hi : i < s.lexemes.size)
    (hname : f.toFork = true → s.kind? i = some .ident ∨ s.kind? i = some .extend) :
    Proceeds w (entryExpression s f i) fun stop => i < stop ∧ stop ≤ s.lexemes.size := by
  have hstop : ∀ w, Proceeds w (expression s f.toBlock (if f.toFork then i else i + 1))
      fun stop => i < stop ∧ stop ≤ s.lexemes.size := by
    intro w
    cases hfork : f.toFork with
    | true => exact proceeds_expression_name _ (hname hfork)
    | false => exact proceeds_expression _ hi
  have hrest : ∀ w, Proceeds w (do
      let before := ((← get).block (← get).top).code.size
      let stop ← expression s f.toBlock (if f.toFork then i else i + 1)
      if f.mustEval && ((← get).block (← get).top).code.size == before then
        failAt s .missingExpression i
      return stop) fun stop => i < stop ∧ stop ≤ s.lexemes.size := by
    intro w
    refine .get (.get (.bind (hstop w) fun stop w hs => ?_))
    exact .get (.get (.ite (fun _ => .throw_bind nofun) fun _ => .pure hs))
  exact .ite (fun _ => .bind (proceeds_emit _ _) fun _ w _ => hrest w) fun _ => hrest w

/-- What lies behind the expression of an entry, or behind its lexeme. -/
theorem proceeds_behind {f : Grammar.Flags} (eval : Bool) (hi : i < s.lexemes.size)
    (hname : f.toFork = true → s.kind? i = some .ident ∨ s.kind? i = some .extend) :
    Proceeds w (if eval then entryExpression s f i else pure (i + 1))
      fun behind => i < behind ∧ behind ≤ s.lexemes.size := by
  cases eval with
  | true => exact proceeds_entryExpression hi hname
  | false => exact .pure ⟨Nat.lt_succ_self i, hi⟩

/-- To close a block takes no lexeme. -/
theorem proceeds_closeBlock : Proceeds w (closeBlock s i) fun _ => True := by
  refine .get ?_
  split
  · exact unexpected_fault s _ i
  · dsimp only
    split
    · exact .ite (fun _ => .set rfl trivial) fun _ => .set rfl trivial
    · exact .set rfl trivial

section entries

variable {f : Grammar.Flags} {a : Grammar.Action} {next : Grammar.State} {here fork behind : Nat}

/-- What an entry comes to is what its action does, behind the block that it opens or closes. -/
theorem ends_endEntry {P : Work → Prop} (hact : ∀ w', w'.pendingFields = w.pendingFields →
      Ends w' (act s a here) fun _ w'' => P w'') :
    Ends w (endEntry s f a next here fork behind) fun c w' =>
      (∃ atRoot, c = ⟨stateBehind f next atRoot, fork, behind⟩) ∧ P w' := by
  have hrest : ∀ w' : Work, w'.pendingFields = w.pendingFields → Ends w' (do
      let state := stateBehind f next (← get).inner.isEmpty
      act s a here
      return { state := state, fork := fork, position := behind } : Compiling Cursor) fun c w' =>
        (∃ atRoot, c = ⟨stateBehind f next atRoot, fork, behind⟩) ∧ P w' := by
    intro w' hw'
    refine .get (.bind (hact w' hw') fun _ _ h => ?_)
    exact .pure ⟨⟨_, rfl⟩, h⟩
  have hpop : ∀ w' : Work, w'.pendingFields = w.pendingFields → Ends w' (do
      if f.pop then closeBlock s here
      let state := stateBehind f next (← get).inner.isEmpty
      act s a here
      return { state := state, fork := fork, position := behind } : Compiling Cursor) fun c w' =>
        (∃ atRoot, c = ⟨stateBehind f next atRoot, fork, behind⟩) ∧ P w' := by
    intro w' hw'
    refine .ite (fun _ => ?_) fun _ => hrest w' hw'
    exact .bind proceeds_closeBlock fun _ w'' h => hrest w'' (h.1.trans hw')
  exact .ite (fun _ => .bind (P := fun _ w' => w'.pendingFields = w.pendingFields) (.modify rfl)
    fun _ w' h => hpop w' h) fun _ => hpop w rfl

/-- An entry that asks for no expression and opens and closes no block goes on behind its lexeme. -/
theorem ends_plainEntry (st : Grammar.State) (hpush : f.push = false) (hpop : f.pop = false)
    (hstate : ∀ atRoot, stateBehind f next atRoot = st) {P : Work → Prop}
    (hact : Ends w (act s a here) fun _ w' => P w') :
    Ends w ((pure (here + 1) : Compiling Nat) >>= endEntry s f a next here fork) fun c w' =>
      c = ⟨st, fork, here + 1⟩ ∧ P w' := by
  show Ends w (endEntry s f a next here fork (here + 1)) _
  unfold endEntry
  rw [hpush, hpop]
  refine .get (.bind hact fun _ _ h => .pure ⟨?_, h⟩)
  rw [hstate]

end entries

/-- Whether data fields wait for their type in the data section only, and all of them are there. -/
structure Fielded (st : Grammar.State) (w : Work) : Prop where
  within : w.FieldsWithin
  none : st ≠ .fields → w.pendingFields = []

theorem Fielded.of_nil (h : w.pendingFields = []) (st : Grammar.State) : Fielded st w :=
  ⟨.of_nil h, fun _ => h⟩

/-- Behind a lexeme less remains, unless the state is the one behind a name. -/
theorem remaining_lt {c c' : Cursor} (hmore : c.position < c'.position)
    (hle : c'.position ≤ s.lexemes.size) (hrank : rank c'.state ≤ 3) :
    remaining s c' < remaining s c := by
  unfold remaining
  omega

/-- **An entry of the table leads on.** The cursor stays within the lexemes, and less remains. -/
theorem ends_advance {k : Kind} {c : Cursor} (hk : s.kind? c.position = some k) (hc : c.Within s)
    (htop : w.top < w.arena.size) (hfields : Fielded c.state w) :
    Ends w (advance s k c) fun c' w' =>
      c'.Within s ∧ remaining s c' < remaining s c ∧ Fielded c'.state w' := by
  have hlt := Source.lt_of_kind? hk
  cases hentry : Grammar.entry c.state k with
  | fail expected =>
    unfold advance
    rw [hentry]
    exact .throw (unexpected_fault s expected c.position)
  | go next f a =>
    have hturn := turn_of_entry hentry
    cases hstay : f.stay with
    | true =>
      unfold advance
      rw [hentry]
      dsimp only
      rw [hstay]
      -- An entry that stays must lower the rank of the state, or
      -- go back to where an assignment started.
      cases hturn with
      | again hrank hassign hnext hst =>
        exact .pure ⟨⟨hc.position, hc.fork, fun h => absurd h hassign⟩, Nat.add_lt_add_left hrank _,
          .of_nil (hfields.none hst) _⟩
      | targets hst =>
        obtain ⟨hposition, -⟩ := hc.behindName hst
        refine .pure ⟨⟨?_, Nat.le_refl _, nofun⟩, ?_, .of_nil (hfields.none (hst ▸ nofun)) _⟩
        · show c.fork ≤ s.lexemes.size
          omega
        · show 4 * (s.lexemes.size - c.fork) + 0 < 4 * (s.lexemes.size - c.position) + rank c.state
          rw [hst]
          show _ < _ + 5
          omega
      | onward _ _ hno => cases hno.symm.trans hstay
      | _ => cases hstay
    | false =>
      rw [advance_eq hentry hstay]
      cases hturn with
      | again | targets => cases hstay
      | call hst =>
        -- the call of a statement is read again from its name on, so the fork is what moves
        obtain ⟨hposition, hname⟩ := hc.behindName hst
        have hfork : c.fork < s.lexemes.size := by omega
        refine .bind (proceeds_behind _ hfork fun _ => hname) fun behind w' hbehind => ?_
        obtain ⟨hw', hmore, hle⟩ := hbehind
        have hmore : c.fork < behind := hmore
        have hnone : w'.pendingFields = [] := by rw [hw', hfields.none (hst ▸ nofun)]
        refine .imp (ends_endEntry (P := fun w'' => w''.pendingFields = []) fun w'' hw'' =>
          .pure (hw''.trans hnone)) fun c' w'' h => ?_
        obtain ⟨⟨atRoot, rfl⟩, hnone'⟩ := h
        refine ⟨⟨hle, Nat.le_of_lt hmore, nofun⟩, ?_, .of_nil hnone' _⟩
        show 4 * (s.lexemes.size - behind) + 2 < 4 * (s.lexemes.size - c.position) + rank c.state
        rw [hst]
        show _ < _ + 5
        omega
      | name hst hname =>
        refine .imp (ends_plainEntry .assignEval (P := fun w'' => w'' = w) rfl rfl
          (fun _ => rfl) (.pure rfl)) fun c' w'' h => ?_
        obtain ⟨rfl, rfl⟩ := h
        refine ⟨⟨hlt, Nat.le_succ _, fun _ => ⟨rfl, ?_⟩⟩, ?_,
          .of_nil (hfields.none (hst ▸ nofun)) _⟩
        · show s.kind? c.position = _ ∨ s.kind? c.position = _
          rw [hk]
          exact hname.imp (congrArg some) (congrArg some)
        · show 4 * (s.lexemes.size - (c.position + 1)) + 5 < 4 * (s.lexemes.size - c.position)
            + rank c.state
          rw [hst]
          show _ < _ + 2
          omega
      | field hst ha =>
        refine .imp (ends_plainEntry .fields rfl rfl (fun _ => rfl)
          (ends_act_onFields ha htop hfields.within)) fun c' w'' h => ?_
        obtain ⟨rfl, hwithin⟩ := h
        exact ⟨⟨hlt, Nat.le_succ_of_le hc.fork, nofun⟩,
          remaining_lt (Nat.lt_succ_self _) hlt (show 0 ≤ 3 by decide),
          hwithin, fun h => absurd rfl h⟩
      | line hst =>
        refine .imp (ends_plainEntry .fields rfl rfl (fun _ => rfl) (ends_act_drops rfl))
          fun c' w'' h => ?_
        obtain ⟨rfl, hnone⟩ := h
        exact ⟨⟨hlt, Nat.le_succ_of_le hc.fork, nofun⟩,
          remaining_lt (Nat.lt_succ_self _) hlt (show 0 ≤ 3 by decide), .of_nil hnone _⟩
      | fields hst =>
        refine .imp (ends_plainEntry .body rfl rfl (fun _ => rfl) (ends_act_drops rfl))
          fun c' w'' h => ?_
        obtain ⟨rfl, hnone⟩ := h
        exact ⟨⟨hlt, Nat.le_succ_of_le hc.fork, nofun⟩,
          remaining_lt (Nat.lt_succ_self _) hlt (show 2 ≤ 3 by decide), .of_nil hnone _⟩
      | onward hst ha _ htoFork hfork hrank =>
        have hhere : entryPosition f c = c.position := by rw [entryPosition, htoFork]; rfl
        rw [hhere, hfork]
        refine .bind (proceeds_behind _ hlt fun h => by cases htoFork.symm.trans h)
          fun behind w' hbehind => ?_
        obtain ⟨hw', hmore, hle⟩ := hbehind
        have hnone : w'.pendingFields = [] := by rw [hw', hfields.none hst]
        refine .imp (ends_endEntry (P := fun w'' => w''.pendingFields = []) fun w'' hw'' => ?_)
          fun c' w'' h => ?_
        · cases hdrops : dropsFields a with
          | true => exact ends_act_drops hdrops
          | false =>
            exact Ends.imp (proceeds_act ha hdrops) fun _ _ h => h.1.trans (hw''.trans hnone)
        · obtain ⟨⟨atRoot, rfl⟩, hnone'⟩ := h
          have hlow := hrank atRoot
          refine ⟨⟨hle, ?_, fun h => ?_⟩, ?_, .of_nil hnone' _⟩
          · exact Nat.le_trans hc.fork (Nat.le_of_lt hmore)
          · rw [show stateBehind f _ atRoot = .assignEval from h] at hlow
            exact absurd hlow (by decide)
          · exact remaining_lt hmore hle hlow

/-! ### Runs of the cursor -/

theorem stands_top {a : Arena} {c : Cursor}
    (h : Stands s { arena := a.push { parent := none }, root := a.size } c w) :
    w.top < w.arena.size :=
  (((Beside.start a).edits h.edits).opened w.top (top_mem_opened w)).2

/-- Leading a cursor through the lexemes ends, with as many steps as what remains. -/
theorem ends_readAll {a : Arena} {fuel : Nat} {c : Cursor} (hc : c.Within s)
    (hstands : Stands s { arena := a.push { parent := none }, root := a.size } c w)
    (hfields : Fielded c.state w) (hfuel : remaining s c ≤ fuel) :
    Ends w (readAll s fuel c) fun _ _ => True := by
  induction fuel generalizing w c with
  | zero =>
    unfold readAll
    split
    · exact .pure trivial
    · have hlt := Source.lt_of_kind? ‹_›
      unfold remaining at hfuel
      omega
  | succ fuel ih =>
    unfold readAll
    split
    · exact .pure trivial
    · rename_i k hk
      have hadvance := ends_advance hk hc (stands_top hstands) hfields
      have htends := (tends_advance hk hstands).leads
      cases hresult : advance s k c w with
      | error e w' =>
        rw [Ends, bind_of_error hresult]
        exact hadvance.fails hresult
      | ok c' w' =>
        -- Every step leaves less to read, so the fuel suffices.
        obtain ⟨hc', hless, hfields'⟩ := hadvance.leads c' w' hresult
        rw [Ends, bind_of_ok hresult]
        exact ih hc' (htends c' w' hresult) hfields' (by omega)

theorem Cursor.within_start (s : Source) : Cursor.Within s {} :=
  ⟨Nat.zero_le _, Nat.le_refl _, nofun⟩

theorem stands_start (s : Source) (a : Arena) :
    Stands s { arena := a.push { parent := none }, root := a.size } {}
      { arena := a.push { parent := none }, root := a.size } :=
  ⟨.refl, rfl, rfl⟩

/-- **Compiling a unit ends.** -/
theorem ends_unit (s : Source) (a : Arena) :
    Ends { arena := a.push { parent := none }, root := a.size } (unit s) fun _ _ => True := by
  refine .bind (ends_readAll (Cursor.within_start s) (stands_start s a) (.of_nil rfl _) ?_)
    fun _ w _ => .get ?_
  · show 4 * (s.lexemes.size - 0) + 2 ≤ 4 * (s.lexemes.size + 1)
    omega
  · exact .ite (fun _ => .throw_bind (unexpected_fault s _ _)) fun _ =>
      .ite (fun _ => .throw nofun) fun _ => .pure trivial

end Compile

theorem Error.fault_withSource (e : Error) (source : String) :
    (e.withSource source).fault = e.fault := by
  unfold withSource
  split
  · rfl
  · split
    · rfl
    · split <;> rfl

/-- **Compiling a text gives the number of the unit or an error**, and the error is no lack of
steps. -/
theorem Arena.compileUnit_outcome (a : Arena) (scope : Scope) (text : String) :
    (a.compileUnit scope text).1 = .ok a.size ∨
      ∃ e, (a.compileUnit scope text).1 = .error e ∧ e.fault ≠ .outOfSteps := by
  rcases compileUnit_cases a scope text with
    ⟨e, hread, heq⟩ | ⟨lexemes, -, ⟨w, -, heq⟩ | ⟨e, w, hunit, heq⟩⟩ <;> rw [heq]
  · refine .inr ⟨_, rfl, ?_⟩
    rw [Error.fault_withSource]
    exact Lexeme.read_fault hread
  · exact .inl rfl
  · refine .inr ⟨_, rfl, ?_⟩
    rw [Error.fault_withSource]
    exact (Compile.ends_unit _ a).fails hunit

/-! ### Bounds -/

namespace Compile

/-- Where the compiler stands: at an entry of the table, or inside an expression. -/
inductive Place where
  | entry (c : Cursor)
  | operand (y : Yard) (i : Nat)

/-- The places that the compiler comes to, with the work that it has there. -/
inductive Visits (s : Source) (w₀ : Work) : Place → Work → Prop
  | start : Visits s w₀ (.entry {}) w₀
  | advance {c c' : Cursor} {w w' : Work} {k : Kind} : Visits s w₀ (.entry c) w →
      s.kind? c.position = some k → Compile.advance s k c w = .ok c' w' → Visits s w₀ (.entry c') w'
  /-- Starts the expression that an entry asks for. -/
  | expression {c : Cursor} {w w' : Work} {k : Kind} {f : Grammar.Flags} {a : Grammar.Action} :
      Visits s w₀ (.entry c) w → s.kind? c.position = some k →
      Grammar.entry c.state k = .go .eval f a →
      (if f.label then emit .label (s.line (entryPosition f c)) else pure ()) w = .ok () w' →
      Visits s w₀ (.operand {} (if f.toFork then entryPosition f c else entryPosition f c + 1)) w'
  | take {y y' : Yard} {i n : Nat} {w w' : Work} {t : Token} {blockFollows : Bool} :
      Visits s w₀ (.operand y i) w → s.token? i = some t →
      Compile.take s blockFollows y i t w = .ok (some (y', n)) w' → Visits s w₀ (.operand y' n) w'

/-- Whether a place is within the lexemes, and the functions that its pending calls are for are
there. A cursor returns to no lexeme behind it. -/
def Place.Within (s : Source) (w : Work) : Place → Prop
  | .entry c => c.position ≤ s.lexemes.size ∧ c.fork ≤ c.position
  | .operand y i => i ≤ s.lexemes.size ∧
      ∀ c g, Pending.call c ∈ y.buffer → c.target = .func g → g < w.arena.size

/-- Whether the blocks that are open and those that are referred to are there, the unit's block is
open below all others, and the data fields that wait for their type are fields of the innermost
block. -/
structure Work.Within (root : BlockId) (w : Work) : Prop where
  unit : w.opened.getLast? = some root
  opened : ∀ id ∈ w.opened, id < w.arena.size
  blocks : ∀ b id, (w.block b).Refers id → id < w.arena.size
  fields : ∀ j ∈ w.pendingFields, j < w.fieldCount

/-- What is known of the places that the compiler comes to. -/
def Known (s : Source) (w₀ : Work) (w : Work) : Place → Prop
  | .entry c => c.Within s ∧ Stands s w₀ c w ∧ Fielded c.state w
  | .operand y i => i ≤ s.lexemes.size ∧ y.Fits s w ∧ Edits s w₀ w ∧ w.pendingFields = []

/-- No expression is asked for in a data section. -/
theorem not_fields_of_eval {st : Grammar.State} {k : Kind} {f : Grammar.Flags} {a : Grammar.Action}
    (h : Grammar.entry st k = .go .eval f a) : st ≠ .fields := by
  cases turn_of_entry h with
  | again _ _ _ hst => exact hst
  | call hst => exact hst ▸ nofun
  | onward hst => exact hst

/-- An entry is about a lexeme that has been read. -/
theorem entryPosition_le {c : Cursor} (hc : c.Within s) (f : Grammar.Flags) :
    entryPosition f c ≤ c.position := by
  unfold entryPosition
  split
  · split
    · exact Nat.le_refl _
    · exact hc.fork
  · exact Nat.le_refl _

/-- The places that are visited lie in the source, and what has been read of it is a unit so far. -/
theorem Visits.known {a : Arena} {place : Place}
    (h : Visits s { arena := a.push { parent := none }, root := a.size } place w) :
    Known s { arena := a.push { parent := none }, root := a.size } w place := by
  -- Each place is reached from one that is known, by an entry, its expression or a step of that.
  induction h with
  | start => exact ⟨Cursor.within_start s, stands_start s a, .of_nil rfl _⟩
  | advance _ hk hadvance ih =>
    obtain ⟨hc, hstands, hfields⟩ := ih
    obtain ⟨hc', -, hfields'⟩ :=
      (ends_advance hk hc (stands_top hstands) hfields).leads _ _ hadvance
    exact ⟨hc', (tends_advance hk hstands).leads _ _ hadvance, hfields'⟩
  | @expression c w w' k f a _ hk hentry hlabel ih =>
    obtain ⟨hc, hstands, hfields⟩ := ih
    have hnone := hfields.none (not_fields_of_eval hentry)
    have hlt := Source.lt_of_kind? hk
    have hhere := entryPosition_le hc f
    refine ⟨?_, fits_empty, ?_, ?_⟩
    · show (if f.toFork then entryPosition f c else entryPosition f c + 1) ≤ s.lexemes.size
      split <;> omega
    · cases hf : f.label with
      | true =>
        rw [hf] at hlabel
        have hemit : Amends s w (emit .label (s.line (entryPosition f c))) :=
          amends_emit ⟨⟨rfl, rfl, rfl, rfl⟩, rfl⟩ rfl _
        exact hstands.edits.trans (hemit.leads _ _ hlabel).1.edits
      | false =>
        rw [hf] at hlabel
        cases hlabel
        exact hstands.edits
    · cases hf : f.label with
      | true =>
        rw [hf] at hlabel
        exact ((proceeds_emit _ _ : Proceeds w _ _).leads _ _ hlabel).1.trans hnone
      | false =>
        rw [hf] at hlabel
        cases hlabel
        exact hnone
  | @take y y' i n w w' t blockFollows _ ht htake ih =>
    obtain ⟨hi, hfits, hedits, hnone⟩ := ih
    obtain ⟨hfields, hmore⟩ := Ends.leads (proceeds_take blockFollows ht) _ _ htake
    obtain ⟨hchanges, hfits'⟩ := (yields_take blockFollows hfits i t).leads _ _ htake
    exact ⟨(hmore _ rfl).2, hfits', hedits.trans hchanges.edits, hfields.trans hnone⟩

/-- Edits keep the root. -/
theorem edits_root {w' : Work} (h : Edits s w w') : w'.root = w.root := by
  induction h with
  | refl => rfl
  | tail _ hedit ih =>
    refine Eq.trans ?_ ih
    cases hedit with
    | note _ hroot => exact hroot
    | marks => exact Work.root_setWritable _
    | block | opens | control | declares | closes => rfl

/-- What the compiler works on is in bounds. -/
theorem Known.work {a : Arena} (hclosed : a.Closed)
    (hglobals : s.globals.All (Binding.Below a.size)) {place : Place}
    (h : Known s { arena := a.push { parent := none }, root := a.size } w place) :
    w.Within a.size := by
  obtain ⟨hedits, hfields⟩ : Edits s { arena := a.push { parent := none }, root := a.size } w ∧
      w.FieldsWithin := by
    cases place with
    | entry c => exact ⟨h.2.1.edits, h.2.2.within⟩
    | operand y i => exact ⟨h.2.2.1, .of_nil h.2.2.2⟩
  have hstart : Arena.Closed (a.push { parent := none }) := by
    rw [Arena.Closed, Array.size_push]
    exact Arena.Every.push (fun id => (hclosed id).mono (Nat.le_succ _)) (.empty _)
  refine ⟨?_, fun id hid => (((Beside.start a).edits hedits).opened id hid).2, ?_, hfields⟩
  · rw [Work.opened, List.getLast?_concat, edits_root hedits]
  · exact edits_closed (.start a) hstart hglobals hedits

/-- Where the compiler stands is in bounds. -/
theorem Known.place {a : Arena} (hclosed : a.Closed)
    (hglobals : s.globals.All (Binding.Below a.size)) {place : Place}
    (h : Known s { arena := a.push { parent := none }, root := a.size } w place) :
    place.Within s w := by
  cases place with
  | entry c => exact ⟨h.1.position, h.1.fork⟩
  | operand y i =>
    have hwork := Known.work hclosed hglobals h
    obtain ⟨hi, hfits, hedits, -⟩ := h
    refine ⟨hi, fun c g hc hg => ?_⟩
    rcases hfits.calls c g hc hg with ⟨id, -, x, hx⟩ | ⟨x, hx⟩
    · exact hwork.blocks id g (.name hx rfl)
    · exact Nat.lt_of_lt_of_le (hglobals x _ hx g rfl) ((Beside.start a).edits hedits).kept.le

end Compile

/-- Compiling a text stays in bounds, where the arena and the names that it starts from are. -/
theorem Arena.visits_within {a : Arena} (ha : a.Closed) {scope : Scope}
    (hglobals : scope.globals.All (Binding.Below a.size)) {lexemes : Array Lexeme}
    {place : Compile.Place} {w : Compile.Work} (h : Compile.Visits (scope.source lexemes)
      { arena := a.push { parent := none }, root := a.size } place w) :
    place.Within (scope.source lexemes) w ∧ w.Within a.size :=
  ⟨h.known.place ha hglobals, h.known.work ha hglobals⟩

/-- **Compiling any text ends, and stays in bounds.** What a host gets is the number of the unit's
block or an error, and the error is no lack of steps. A text that reads has a lexeme, and at all
places that the compiler comes to, the lexemes it reads, the blocks and the data fields it refers to
are there, and the unit's block is open. -/
theorem Session.Reachable.compile_bounded {s : Session} (h : s.Reachable) (state : UInt32)
    (text : String) :
    let a := s.registry.arena
    let scope := s.registry.scope state
    ((a.compileUnit scope text).1 = .ok a.size ∨
      ∃ e, (a.compileUnit scope text).1 = .error e ∧ e.fault ≠ .outOfSteps) ∧
    ∀ lexemes, Lexeme.read text = .ok lexemes → 0 < lexemes.size ∧
      ∀ place w, Compile.Visits (scope.source lexemes)
          { arena := a.push { parent := none }, root := a.size } place w →
        place.Within (scope.source lexemes) w ∧ w.Within a.size := by
  refine ⟨Arena.compileUnit_outcome _ _ text, fun lexemes hread =>
    ⟨Lexeme.size_pos_of_read hread, ?_⟩⟩
  intro place w hvisits
  have hglobals : (s.registry.scope state).globals.All (Binding.Below s.registry.arena.size) :=
    h.linked.now
  exact Arena.visits_within h.held.now hglobals hvisits

/-- A text that breaks off in a literal, behind a unit that a host has compiled. -/
theorem Session.Reachable.compile_bounded_unclosed :
    let s := Session.new.performAll [.compile 1 "func f int \x7b return 1 \x7d"]
    let a := s.registry.arena
    let scope := s.registry.scope 1
    let text := "contract X \x7b data \x7b a, b int \x7d action \x7b f(\x7b\"k\": [1,"
    s.Reachable ∧ ((a.compileUnit scope text).1 = .ok a.size ∨
      ∃ e, (a.compileUnit scope text).1 = .error e ∧ e.fault ≠ .outOfSteps) ∧
    ∀ lexemes, Lexeme.read text = .ok lexemes → 0 < lexemes.size ∧
      ∀ place w, Compile.Visits (scope.source lexemes)
          { arena := a.push { parent := none }, root := a.size } place w →
        place.Within (scope.source lexemes) w ∧ w.Within a.size := by
  intro s
  have hreachable : s.Reachable := Reachable.start.performAll _
  exact ⟨hreachable, hreachable.compile_bounded 1 _⟩

end Covenant
