import Covenant.Proofs.Compile.Marks

/-!
# Calls of contracts

A call of a contract is turned into one of `ExecContract` with the contract's name. Nothing of the
code that this leaves tells whether the contract was marked as writing when the call was read.
`Arena.uses` says it: it goes through the compilation of a text and notes every call of a contract
that it comes to.

The main statement is `Arena.uses_noted`: where a contract that was marked is called, everything
around the call is marked in the end.
-/

namespace Covenant

/-- A call of a contract. -/
structure Use where
  /-- The block that calls. -/
  block : BlockId
  contract : String
  /-- Whether the contract was marked as writing when the call was read. -/
  writes : Bool
deriving DecidableEq, Repr

/-- Whether a call of a writing contract has left its mark. -/
def Use.Noted (u : Use) (a : Arena) : Prop :=
  u.block < a.size ∧ (u.writes = true → ∀ f, a.Within u.block f → (a.block f).standing.Marked)

namespace Compile

/-! ### Going through a compilation -/

/-- The call of a contract that a name with a parenthesis stands for. -/
def Work.use? (s : Source) (w : Work) (name : String) : Option Use :=
  match w.find s name with
  | some (.contract id) => ((w.block id).contract?).map fun c => ⟨w.top, c.name, c.canWrite⟩
  | _ => none

/-- The call of a contract that starts with a lexeme of an expression. -/
def takeUse? (s : Source) (w : Work) (y : Yard) (i : Nat) : Token → Option Use
  | .ident name =>
    if y.expectOperand && s.kind? (i + 1) == some (.punct .lpar) then w.use? s name else none
  | _ => none

/-- The calls of contracts in an expression. -/
def takeAllUses (s : Source) (blockFollows : Bool) : Nat → Yard → Nat → Work → List Use
  | 0, _, _, _ => []
  | fuel + 1, y, i, w =>
    match s.token? i with
    | none => []
    | some t => (takeUse? s w y i t).toList ++
      match take s blockFollows y i t w with
      | .ok (some (y, next)) w => takeAllUses s blockFollows fuel y next w
      | _ => []

/-- The calls of contracts in the expression of an entry. -/
def entryUses (s : Source) (f : Grammar.Flags) (i : Nat) (w : Work) : List Use :=
  let start := if f.toFork then i else i + 1
  takeAllUses s f.toBlock (s.lexemes.size - start) {} start
    (if f.label then w.modifyTop (·.emit ⟨.label, s.line i⟩) else w)

/-- The calls of contracts that the table's entry for a lexeme reads. -/
def advanceUses (s : Source) (k : Kind) (c : Cursor) (w : Work) : List Use :=
  match Grammar.entry c.state k with
  | .fail _ => []
  | .go next f _ => if next == .eval && !f.stay then entryUses s f (entryPosition f c) w else []

/-- The calls of contracts in a unit. -/
def readAllUses (s : Source) : Nat → Cursor → Work → List Use
  | 0, _, _ => []
  | fuel + 1, c, w =>
    match s.kind? c.position with
    | none => []
    | some k => advanceUses s k c w ++
      match advance s k c w with
      | .ok c w => readAllUses s fuel c w
      | .error _ _ => []

end Compile

/-- The calls of contracts that compiling a text comes to. -/
def Arena.uses (a : Arena) (scope : Scope) (text : String) : List Use :=
  match Lexeme.read text with
  | .error _ => []
  | .ok lexemes => Compile.readAllUses (scope.source lexemes) (4 * (lexemes.size + 1)) {}
      { arena := a.push { parent := none }, root := a.size }

namespace Compile

variable {a : Arena} {s : Source} {w w' : Work} {y : Yard} {u : Use} {c : Cursor}

/-! ### Marks that are left -/

/-- A mark that was left stays. -/
theorem noted_of_kept (h : u.Noted w.arena) (holder : ∀ id p, (w.block id).parent = some p → p < id)
    (hkept : Kept w w') : u.Noted w'.arena := by
  refine ⟨Nat.lt_of_lt_of_le h.1 hkept.size, fun hwrite f hf => ?_⟩
  rw [Arena.Within.of_agree holder hkept.parent h.1] at hf
  exact hkept.marked f (Nat.lt_of_le_of_lt (hf.le holder) h.1) (h.2 hwrite f hf)

theorem Sound.noted (h : Sound a w) (hu : u.Noted w.arena) (hedits : Edits s w w') :
    u.Noted w'.arena :=
  noted_of_kept hu h.marks.older (.edits h.beside hedits)

/-- Calling a contract that is marked leaves all open blocks marked. -/
theorem leads_openContract {id : BlockId} {i : Nat} {info : ContractInfo}
    (hinfo : (w.block id).contract? = some info) : Leads w (openContract s id i y) fun _ w' =>
      w'.top = w.top ∧ (info.canWrite = true → w'.Marked) := by
  refine .get ?_
  dsimp only
  rw [hinfo]
  dsimp only
  refine .ite (fun _ => .throw_bind _) fun _ => .bind (P := fun _ w' => w'.top = w.top ∧
    (info.canWrite = true → w'.Marked)) (.set ?_) fun _ w₁ hw₁ => ?_
  · split
    · exact ⟨by simp, fun _ => marked_setWritable _⟩
    · exact ⟨by simp, fun h => absurd h ‹_›⟩
  · refine .bind (P := fun _ w₂ => w₂ = w₁) ?_ fun _ w₂ hw₂ => .pure (hw₂ ▸ hw₁)
    exact fun e w₂ he => ((yields_contractRunner i).leads e w₂ he).2

/-- A call of a contract that is taken into an expression is noted at once. -/
theorem leads_take {blockFollows : Bool} {i : Nat} {t : Token} (hu : takeUse? s w y i t = some u) :
    Leads w (take s blockFollows y i t) fun _ w' =>
      u.block = w'.top ∧ (u.writes = true → w'.Marked) := by
  unfold takeUse? at hu
  split at hu
  · rename_i name
    split at hu
    · rename_i hcall
      obtain ⟨hoperand, hparen⟩ := Bool.and_eq_true_iff.1 hcall
      unfold Work.use? at hu
      split at hu
      · rename_i id hfind
        obtain ⟨info, hinfo, rfl⟩ := Option.map_eq_some_iff.1 hu
        -- The one token that uses a binding is the name of a contract in front of a parenthesis.
        have hopen : Leads w (openCall s name i y) fun _ w' =>
            w.top = w'.top ∧ (info.canWrite = true → w'.Marked) := by
          refine .get ?_
          dsimp only
          rw [hfind]
          exact fun r w' hr => (leads_openContract hinfo r w' hr).imp_left Eq.symm
        refine .ite (fun _ => .bind (P := fun _ w' => w.top = w'.top ∧
          (info.canWrite = true → w'.Marked)) ?_ fun _ _ h => .pure h)
          fun hno => absurd hoperand hno
        exact .ite (fun _ => .bind hopen fun _ _ h => .pure h) fun hno => absurd hparen hno
      · cases hu
    · cases hu
  · cases hu

/-- The calls of contracts in an expression are noted at its end. -/
theorem leads_takeAll (hglobals : a.Globals s.globals) (blockFollows : Bool) (fuel : Nat)
    (h : Sound a w) (hy : y.Fits s w) (i : Nat) :
    Leads w (takeAll s blockFollows fuel y i) fun _ w' =>
      ∀ u ∈ takeAllUses s blockFollows fuel y i w, u.Noted w'.arena := by
  induction fuel generalizing w y i with
  | zero => exact fun r w' hr u hu => absurd hu List.not_mem_nil
  | succ fuel ih =>
    unfold takeAll takeAllUses
    cases s.token? i with
    | none => exact .pure fun u hu => absurd hu List.not_mem_nil
    | some t =>
      refine .bind (P := fun r w₁ => take s blockFollows y i t w = .ok r w₁) (fun _ _ h => h)
        fun r w₁ htake => ?_
      obtain ⟨⟨⟨hedits, -⟩, -⟩, honward⟩ := (yields_take blockFollows hy i t).leads r w₁ htake
      have h₁ : Sound a w₁ := h.edits hglobals hedits
      -- what has just been read is noted, and stays so
      have hhere : ∀ u ∈ (takeUse? s w y i t).toList, u.Noted w₁.arena := by
        intro u hu
        obtain ⟨hblock, hmarked⟩ := leads_take (Option.mem_toList.1 hu) r w₁ htake
        refine ⟨hblock ▸ h₁.lt_size (top_mem_opened w₁), fun hwrite f hf => ?_⟩
        rw [hblock] at hf
        exact hmarked hwrite f (h₁.mem_opened_iff.2 hf)
      cases r with
      | none =>
        refine .pure fun u hu => ?_
        dsimp only at hu
        rw [htake, List.append_nil] at hu
        exact hhere u hu
      | some r =>
        intro r' w' hr u hu
        dsimp only at hu
        rw [htake] at hu
        rcases List.mem_append.1 hu with hu | hu
        · exact h₁.noted (hhere u hu)
            ((yields_takeAll blockFollows fuel honward r.2).leads r' w' hr).1.edits
        · exact ih h₁ honward r.2 r' w' hr u hu

/-- The uses in an expression are noted where it is compiled. -/
theorem leads_expression (hglobals : a.Globals s.globals) (blockFollows : Bool) (start : Nat)
    (h : Sound a w) : Leads w (expression s blockFollows start) fun _ w' =>
      ∀ u ∈ takeAllUses s blockFollows (s.lexemes.size - start) {} start w, u.Noted w'.arena := by
  refine .bind (P := fun r w₁ => takeAll s blockFollows _ {} start w = .ok r w₁) (fun _ _ h => h) ?_
  rintro ⟨y, next⟩ w₁ htake
  obtain ⟨⟨⟨hedits, -⟩, -⟩, hfits⟩ :=
    (yields_takeAll blockFollows _ fits_empty start).leads _ w₁ htake
  have hnoted := leads_takeAll hglobals blockFollows _ h fits_empty start _ w₁ htake
  intro stop w' hstop u hu
  exact (h.edits hglobals hedits).noted (hnoted u hu)
    ((amends_addCode htake hfits).leads stop w' hstop).1.edits

/-- So are those in the expression of an entry. -/
theorem leads_entryExpression (hglobals : a.Globals s.globals) (f : Grammar.Flags) (i : Nat)
    (h : Sound a w) : Leads w (entryExpression s f i) fun _ w' =>
      ∀ u ∈ entryUses s f i w, u.Noted w'.arena := by
  have hrest : ∀ w, Sound a w → Leads w (do
      let before := ((← get).block (← get).top).code.size
      let stop ← expression s f.toBlock (if f.toFork then i else i + 1)
      if f.mustEval && ((← get).block (← get).top).code.size == before then
        failAt s .missingExpression i
      return stop) fun _ w' => ∀ u ∈ takeAllUses s f.toBlock
        (s.lexemes.size - if f.toFork then i else i + 1) {} (if f.toFork then i else i + 1) w,
        u.Noted w'.arena := by
    intro w h
    refine .get (.get (.bind (leads_expression hglobals _ _ h) fun _ w₁ hw₁ => ?_))
    exact .get (.get (.ite (fun _ => .throw_bind _) fun _ => .pure hw₁))
  unfold entryUses
  refine .ite (fun hlabel => ?_) fun hlabel => ?_
  · rw [if_pos hlabel]
    refine .bind (P := fun _ w' => w' = w.modifyTop (·.emit ⟨.label, s.line i⟩)) (.modify rfl)
      fun _ w' hw' => ?_
    subst hw'
    exact hrest _ (h.edits hglobals (Changes.top (.emit ⟨⟨rfl, rfl, rfl, rfl⟩, rfl⟩ rfl _)).edits)
  · rw [if_neg hlabel]
    exact hrest w h

/-- The calls of contracts that an entry reads are noted at a work from which edits lead to where
the cursor stands then. -/
theorem leads_advance_uses (hglobals : a.Globals s.globals) {k : Kind}
    (hk : s.kind? c.position = some k) (h : Sound a w) {w₀ : Work} (hc : Stands s w₀ c w) :
    Leads w (advance s k c) fun c' w' => ∀ u ∈ advanceUses s k c w,
      ∃ w₁, Sound a w₁ ∧ u.Noted w₁.arena ∧ Stands s w₁ c' w' := by
  unfold advanceUses
  cases hentry : Grammar.entry c.state k with
  | fail => exact fun _ _ _ u hu => absurd hu List.not_mem_nil
  | go next f action =>
    dsimp only
    split
    · rename_i heval
      obtain ⟨hnext, hstay⟩ := Bool.and_eq_true_iff.1 heval
      rw [Bool.not_eq_true'] at hstay
      rw [advance_eq hentry hstay, if_pos hnext]
      refine .bind (P := fun behind w₁ => entryExpression s f (entryPosition f c) w = .ok behind w₁)
        (fun _ _ h => h) fun behind w₁ hbehind c' w' hc' u hu => ?_
      have hw₁ := ((amends_entryExpression f _).leads behind w₁ hbehind).1
      refine ⟨w₁, h.edits hglobals hw₁.edits,
        leads_entryExpression hglobals f _ h behind w₁ hbehind u hu, ?_⟩
      rw [if_pos hnext] at hc'
      rw [beq_iff_eq] at hnext
      -- an entry with an expression is a control statement or opens and closes nothing
      cases shape_of_entry hentry with
      | skip _ | contract _ _ | func _ _ | close _ => cases hnext
      | name _ _ _ _ hne | settle _ _ _ _ hne => exact absurd hnext hne
      | more hwait | wait _ _ hwait => cases hwait.symm.trans (congrArg waits hnext)
      | control hst hpush hpop _ ha =>
        have hpending := hw₁.pending.trans (hc.pending (.inr hst))
        exact (tends_endEntry_control .refl hpending hpush hpop ha
          (hst ▸ by decide)).leads c' w' hc'
      | other hst hwait hpush hpop ha hnotes hsettles hsegment =>
        obtain ⟨-, hinside⟩ := (stands_iff hst).1 hc
        refine (tends_endEntry_other .refl ?_ ?_ hpush hpop ha hnotes hsettles (fun hname => ?_)
          hst).leads c' w' hc'
        · rw [hw₁.inner]
          exact hinside.inner
        · rw [hw₁.pending, hinside.pending hwait]
        · obtain ⟨rfl, rfl⟩ := hsegment hname
          exact hk
    · exact fun _ _ _ u hu => absurd hu List.not_mem_nil

/-- The calls of contracts in a unit are noted at its end. -/
theorem leads_readAll_uses (hglobals : a.Globals s.globals) {w₀ : Work}
    (h : Sound a w₀) (fuel : Nat) (hc : Stands s w₀ c w) : Leads w (readAll s fuel c) fun _ w' =>
      ∀ u ∈ readAllUses s fuel c w, u.Noted w'.arena := by
  induction fuel generalizing w c with
  | zero => exact fun r w' hr u hu => absurd hu List.not_mem_nil
  | succ fuel ih =>
    unfold readAll readAllUses
    cases hk : s.kind? c.position with
    | none => exact .pure fun u hu => absurd hu List.not_mem_nil
    | some k =>
      refine .bind (P := fun c' w₁ => advance s k c w = .ok c' w₁) (fun _ _ h => h)
        fun c' w₁ hadvance r w' hr u hu => ?_
      dsimp only at hu
      rw [hadvance] at hu
      rcases List.mem_append.1 hu with hu | hu
      · obtain ⟨w₂, h₂, hnoted, hstands⟩ :=
          leads_advance_uses hglobals hk (h.edits hglobals hc.edits) hc c' w₁ hadvance u hu
        exact h₂.noted hnoted ((tends_readAll fuel hstands).leads r w' hr)
      · exact ih ((tends_advance hk hc).leads c' w₁ hadvance) r w' hr u hu

theorem leads_unit_uses (hglobals : a.Globals s.globals) (h : Sound a w) (hinner : w.inner = [])
    (hpending : w.pending = []) :
    Leads w (unit s) fun _ w' =>
      ∀ u ∈ readAllUses s (4 * (s.lexemes.size + 1)) {} w, u.Noted w'.arena := by
  refine .bind (leads_readAll_uses hglobals h _ ⟨.refl, hinner, hpending⟩) fun _ w' hw' => .get ?_
  exact .ite (fun _ => .throw_bind _) fun _ => .ite (fun _ => .throw _) fun _ => .pure hw'

end Compile

/-- **A unit keeps the marks of an arena reliable, and its calls of contracts leave theirs.** -/
theorem Arena.compile_sound {a a' : Arena} (ha : a.Marks) {scope : Scope}
    (hglobals : a.Globals scope.globals) {text : String} {root : BlockId}
    (h : a.compile scope text = .ok (root, a')) : ∃ w : Compile.Work, w.arena = a' ∧
      w.root = root ∧ Compile.Sound a w ∧ (∀ u ∈ a.uses scope text, u.Noted a') ∧
      ∀ c ∈ (a'.block root).children, Compile.conditionsWrite a' c = false := by
  obtain ⟨rfl, lexemes, hread, w, rfl, hunit, hedits, hinner, hconditions⟩ := compile_edits h
  have hsound := (Compile.Sound.start ha).edits (s := scope.source lexemes) hglobals hedits
  have hroot := hsound.root
  refine ⟨w, rfl, hroot, hsound, fun u hu => ?_, hroot ▸ hconditions⟩
  unfold Arena.uses at hu
  rw [hread] at hu
  exact Compile.leads_unit_uses hglobals (.start ha) rfl rfl () w hunit u hu

end Covenant
