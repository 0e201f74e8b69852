import Covenant.Proofs.Compile.Edits
import Covenant.Proofs.Compile.Parts

/-!
# Compiling a unit edits the arena

Expressions are compiled apart from the arena and added to the innermost open block as a whole. What
they do to the arena before is to note uses of contracts and to mark open blocks as writing. Their
code holds no assignment targets, and all its calls are admitted by then (`Fits`).

A block that is opened for a function or a contract gets its name with the next lexeme. In between
the cursor tells that the name is missing (`Stands`), so that both are one edit.

The main statement is `tends_unit`.
-/

namespace Covenant.Compile

open Covenant.Computation

variable {s : Source} {w : Work} {y : Yard} {code : Array Instr} {buffer : List Pending}

/-! ### Expressions under way -/

/-- Whether the output of an expression and what is pending fit the open blocks: the output may be
added to the innermost one, operators name nothing, and pending calls are of functions that can be
found. -/
structure Fits (s : Source) (w : Work) (code : Array Instr) (buffer : List Pending) : Prop where
  code : ∀ i ∈ code, i.op.targets = [] ∧ Admits s w w.top i.op
  ops : ∀ o, Pending.op o ∈ buffer → o.Silent
  calls : ∀ c g, Pending.call c ∈ buffer → c.target = .func g → w.Finds s g

/-- Whether an expression under way fits the open blocks. -/
abbrev Yard.Fits (s : Source) (w : Work) (y : Yard) : Prop := Compile.Fits s w y.code y.buffer

namespace Fits

theorem push_code (h : Fits s w code buffer) {op : Op} (hop : op.targets = [])
    (hadmits : Admits s w w.top op) (line : Nat) : Fits s w (code.push ⟨op, line⟩) buffer := by
  refine { h with code := fun i hi => ?_ }
  rcases Array.mem_push.1 hi with hold | rfl
  · exact h.code i hold
  · exact ⟨hop, hadmits⟩

theorem push_silent (h : Fits s w code buffer) {op : Op} (hop : op.Silent) (line : Nat) :
    Fits s w (code.push ⟨op, line⟩) buffer :=
  h.push_code hop.targets (.silent hop) line

/-- What only reads variables that can be found may be added. -/
theorem push_inert (h : Fits s w code buffer) {op : Op} (hop : op.Inert)
    (hvars : ∀ v ∈ op.vars, ∃ x, w.findVar x = some (.var v)) (line : Nat) :
    Fits s w (code.push ⟨op, line⟩) buffer :=
  h.push_code hop.targets (.inert hop fun v hv => ⟨rfl, hvars v hv⟩) line

/-- An operator that waits refers to nothing. -/
theorem push_op (h : Fits s w code buffer) {op : Op} (hop : op.Silent) :
    Fits s w code (.op op :: buffer) := by
  refine { h with ops := fun o ho => ?_, calls := fun c g hc => h.calls c g ?_ }
  · rcases List.mem_cons.1 ho with heq | hold
    · cases heq
      exact hop
    · exact h.ops o hold
  · exact (List.mem_cons.1 hc).resolve_left fun heq => by cases heq

/-- A call that waits refers to what is found. -/
theorem push_call (h : Fits s w code buffer) {c : PendingCall}
    (hc : ∀ g, c.target = .func g → w.Finds s g) : Fits s w code (.call c :: buffer) := by
  refine { h with ops := fun o ho => h.ops o ?_, calls := fun c' g hc' hg => ?_ }
  · exact (List.mem_cons.1 ho).resolve_left fun heq => by cases heq
  · rcases List.mem_cons.1 hc' with heq | hold
    · cases heq
      exact hc g hg
    · exact h.calls c' g hold hg

/-- Brackets and segments may be pending anywhere. -/
theorem push_bracket (h : Fits s w code buffer) {p : Pending} (hop : ∀ o, p ≠ .op o)
    (hcall : ∀ c, p ≠ .call c) : Fits s w code (p :: buffer) := by
  refine { h with ops := fun o ho => h.ops o ?_, calls := fun c g hc => h.calls c g ?_ }
  · exact (List.mem_cons.1 ho).resolve_left fun heq => hop o heq.symm
  · exact (List.mem_cons.1 hc).resolve_left fun heq => hcall c heq.symm

theorem tail {p : Pending} (h : Fits s w code (p :: buffer)) : Fits s w code buffer :=
  { h with
    ops := fun o ho => h.ops o (List.mem_cons_of_mem _ ho)
    calls := fun c g hc => h.calls c g (List.mem_cons_of_mem _ hc) }

/-- Letting operators out keeps an expression fitting. -/
theorem flushOps (h : Fits s w code buffer) (out : Op → Bool) (line : Nat) :
    Fits s w (Yard.flushOps out line code buffer).1 (Yard.flushOps out line code buffer).2 := by
  fun_induction Yard.flushOps out line code buffer with
  | case1 code o rest _ ih =>
    exact ih (h.tail.push_silent (h.ops o (List.mem_cons_self ..)) line)
  | case2 => exact h
  | case3 => exact h

/-- What waits can be pushed out. -/
theorem flushUntil (h : Fits s w code buffer) {stop : Pending → Bool} {line : Nat}
    {r : Array Instr × Pending × List Pending}
    (hr : Yard.flushUntil stop line code buffer = some r) : Fits s w r.1 r.2.2 := by
  fun_induction Yard.flushUntil stop line code buffer with
  | case1 => cases hr
  | case2 code p rest _ =>
    cases hr
    exact h.tail
  | case3 code rest _ _ ih =>
    exact ih (h.tail.push_silent (h.ops _ (List.mem_cons_self ..)) line) hr
  | case4 => cases hr

/-- The same variables can be found when the same blocks are open with the same names. -/
theorem findVar_congr {w' : Work} (hopened : w'.opened = w.opened)
    (hobjects : ∀ id, (w'.block id).objects = (w.block id).objects) (x : String) :
    w'.findVar x = w.findVar x := by
  have hall : ∀ ids, w'.findVarIn x ids = w.findVarIn x ids := by
    intro ids
    induction ids with
    | nil => rfl
    | cons id ids ih => rw [Work.findVarIn, Work.findVarIn, hobjects, ih]
  rw [Work.findVar, hopened, hall, Work.findVar]

/-- What fits still does when the same blocks are open with the same names and more marks. -/
theorem mono (h : Fits s w code buffer) {w' : Work} (hopened : w'.opened = w.opened)
    (hobjects : ∀ id, (w'.block id).objects = (w.block id).objects)
    (hmarked : w.Marked → w'.Marked)
    (hwrites : ∀ g, (w'.block g).canWrite = true → (w.block g).canWrite = true ∨ w'.Marked) :
    Fits s w' code buffer := by
  have hfinds : ∀ g, w.Finds s g → w'.Finds s g := by
    rintro g (⟨id, hid, x, hx⟩ | hglobal)
    · exact .inl ⟨id, hopened ▸ hid, x, (hobjects id).symm ▸ hx⟩
    · exact .inr hglobal
  refine ⟨fun i hi => ⟨(h.code i hi).1, ?_⟩, h.ops, fun c g hc hg => hfinds g (h.calls c g hc hg)⟩
  obtain ⟨hvars, hext, hcall, hbody⟩ := (h.code i hi).2
  refine ⟨fun v hv => ⟨rfl, ?_⟩, fun e he hwrite => hmarked (hext e he hwrite),
    fun g hg => ?_, hbody⟩
  · obtain ⟨-, x, hx⟩ := hvars v hv
    exact ⟨x, (findVar_congr hopened hobjects x).trans hx⟩
  obtain ⟨-, hfind, hmark⟩ := hcall g hg
  exact ⟨rfl, hfinds g hfind, fun hwrite => (hwrites g hwrite).elim (fun hold =>
    hmarked (hmark hold)) id⟩

end Fits

/-! ### Marks and uses -/

theorem marked_setWritable (w : Work) : w.setWritable.Marked := by
  intro id hid
  rw [Work.opened_setWritable] at hid
  rw [Work.block_setWritable, if_pos hid, Block.standing_setWritable]
  exact Standing.marked_mark _

theorem Work.objects_setWritable (w : Work) (id : BlockId) :
    (w.setWritable.block id).objects = (w.block id).objects := by
  rw [Work.block_setWritable]
  split
  · rw [Block.setWritable_eq]
  · rfl

theorem Work.finds_setWritable {g : BlockId} (h : w.Finds s g) : w.setWritable.Finds s g := by
  rcases h with ⟨id, hid, x, hx⟩ | hglobal
  · exact .inl ⟨id, (w.opened_setWritable).symm ▸ hid, x, (w.objects_setWritable id).symm ▸ hx⟩
  · exact .inr hglobal

theorem Fits.setWritable (h : Fits s w code buffer) : Fits s w.setWritable code buffer :=
  h.mono w.opened_setWritable w.objects_setWritable (fun _ => marked_setWritable w) fun _ _ =>
    .inr (marked_setWritable w)

/-- What noting the use of a contract does to a block. -/
def noted (contract : String) (b : Block) : Block :=
  b.modifyContract fun c =>
    if c.used.contains contract then c else { c with used := c.used ++ [contract] }

theorem noted_noted (contract : String) (b : Block) :
    noted contract (noted contract b) = noted contract b := by
  obtain ⟨_, info, _, _, _, _⟩ := b
  cases info with
  | plain | func => rfl
  | contract c =>
    by_cases h : contract ∈ c.used <;> simp [noted, Block.modifyContract, h]

theorem standing_noted (contract : String) (b : Block) :
    (noted contract b).standing = b.standing := by
  refine Block.standing_modifyContract (fun c => ?_) b
  split <;> rfl

theorem objects_noted (contract : String) (b : Block) :
    (noted contract b).objects = b.objects := by
  obtain ⟨_, info, _, _, _, _⟩ := b
  cases info <;> rfl

@[simp] theorem Work.inner_noteUse (w : Work) (contract : String) :
    (w.noteUse contract).inner = w.inner :=
  (Work.foldl_modifyBlock (noted_noted contract) rfl w.opened w).1

@[simp] theorem Work.root_noteUse (w : Work) (contract : String) :
    (w.noteUse contract).root = w.root :=
  (Work.foldl_modifyBlock (noted_noted contract) rfl w.opened w).2.1

@[simp] theorem Work.top_noteUse (w : Work) (contract : String) :
    (w.noteUse contract).top = w.top := by
  rw [Work.top, Work.inner_noteUse, Work.root_noteUse, Work.top]

@[simp] theorem Work.size_noteUse (w : Work) (contract : String) :
    (w.noteUse contract).arena.size = w.arena.size :=
  (Work.foldl_modifyBlock (noted_noted contract) rfl w.opened w).2.2.1

@[simp] theorem Work.pending_noteUse (w : Work) (contract : String) :
    (w.noteUse contract).pending = w.pending :=
  Work.pending_foldl_modifyBlock (noted contract) w.opened w

/-- A noted use is a change. -/
theorem changes_noteUse (w : Work) (contract : String) : Changes s w (w.noteUse contract) := by
  have hall : ∀ (ids : List BlockId) (w : Work), (∀ id ∈ ids, id ∈ w.opened) →
      Edits s w (ids.foldl (fun w id => w.modifyBlock id (noted contract)) w) := by
    intro ids
    induction ids with
    | nil => exact fun _ _ => .refl
    | cons id ids ih =>
      intro w hids
      refine .head (.block (hids id (List.mem_cons_self ..)) (.modifyContract (fun c => ?_)
        (fun c => ?_) fun c _ x hx => .inl ?_)) (ih _ fun id' hid' =>
          hids id' (List.mem_cons_of_mem _ hid'))
      · split <;> rfl
      · split <;> rfl
      · split at hx <;> exact hx
  exact ⟨⟨hall w.opened w fun _ h => h, w.inner_noteUse contract, w.size_noteUse contract⟩,
    w.pending_noteUse contract⟩

theorem Work.block_noteUse (w : Work) (contract : String) (id : BlockId) :
    (w.noteUse contract).block id
      = if id ∈ w.opened then noted contract (w.block id) else w.block id :=
  (Work.foldl_modifyBlock (noted_noted contract) rfl w.opened w).2.2.2 id

theorem Work.standing_noteUse (w : Work) (contract : String) (id : BlockId) :
    ((w.noteUse contract).block id).standing = (w.block id).standing := by
  rw [Work.block_noteUse]
  split
  · exact standing_noted contract _
  · rfl

/-- Code fits behind it, too. -/
theorem Fits.noteUse (h : Fits s w code buffer) (contract : String) :
    Fits s (w.noteUse contract) code buffer := by
  have hopened : (w.noteUse contract).opened = w.opened := by
    rw [Work.opened, Work.inner_noteUse, Work.root_noteUse, Work.opened]
  refine h.mono hopened (fun id => ?_) (fun hmarked id hid => ?_) fun g hg => .inl ?_
  · rw [Work.block_noteUse]
    split
    · exact objects_noted contract _
    · rfl
  · rw [Work.standing_noteUse]
    exact hmarked id (hopened ▸ hid)
  · rwa [Block.canWrite_eq, ← Work.standing_noteUse w contract, ← Block.canWrite_eq]

/-! ### Variables and literals -/

/-- The variables that a part of a literal names. -/
def LiteralPart.vars : LiteralPart → List VarRef
  | entries es => Item.varsOfEntries es
  | items is => Item.varsOfAll is
  | item x => x.vars

/-- What a literal names are variables that can be found. -/
theorem LiteralPart.Read.vars {i j : Nat} {p : LiteralPart} (h : p.Read s w i j) :
    ∀ v ∈ p.vars, ∃ x, w.findVar x = some (.var v) := by
  induction h with
  | skip _ _ _ ih => exact ih
  | closeMap | closeArray | const | extend | field => exact fun v hv => absurd hv List.not_mem_nil
  | entry _ _ ihitem ihrest | element _ _ ihitem ihrest =>
    exact fun v hv => (List.mem_append.1 hv).elim (ihitem v) (ihrest v)
  | var _ hfind =>
    intro v hv
    rw [List.mem_singleton.1 hv]
    exact ⟨_, hfind⟩
  | map _ _ ih | array _ _ ih => exact ih

/-! ### Calls -/

/-- A function that a name stands for can be found. -/
theorem finds_of_find {name : String} {g : BlockId} (h : w.find s name = some (.func g)) :
    w.Finds s g := by
  have hkey : ∀ key, w.findKey s key = some (.func g) → w.Finds s g := by
    intro key hkey
    unfold Work.findKey at hkey
    split at hkey
    · rename_i b hfound
      obtain ⟨id, hid, hx⟩ := List.exists_of_findSome?_eq_some hfound
      exact .inl ⟨id, hid, key, hkey ▸ hx⟩
    · exact .inr ⟨key, hkey⟩
  unfold Work.find at h
  split at h
  · rename_i hfound
    exact hkey name (h ▸ hfound)
  · exact hkey _ h

/-- Looking for the extension that runs contracts leaves the work as it is. -/
theorem yields_contractRunner (i : Nat) :
    Yields s w (contractRunner s i) fun _ w' => w' = w := by
  unfold contractRunner
  split
  · exact .pure rfl
  · exact .failAt _ i

/-- An expression that fits, with a call that is to be pending. -/
def FitsCall (s : Source) (r : Yard × PendingCall) (w : Work) : Prop :=
  r.1.Fits s w ∧ ∀ g, r.2.target = .func g → w.Finds s g

/-- The call of a contract is one of an extension behind its name. -/
theorem yields_contractCall (name : String) (i : Nat) (hy : y.Fits s w) :
    Yields s w (contractRunner s i >>= fun e => pure (y.emit (.push (.str name)) (s.line i),
      ({ target := .ext e, contract := true, line := s.line i } : PendingCall))) (FitsCall s) := by
  refine .bind (yields_contractRunner i) fun e w' _ hw' => .pure ⟨?_, fun g hg => by cases hg⟩
  rw [hw']
  exact hy.push_silent ⟨⟨rfl, rfl, rfl, rfl⟩, rfl⟩ _

/-- A call of a contract that is opened refers to the contract that is found. -/
theorem yields_openContract (id : BlockId) (i : Nat) (hy : y.Fits s w) :
    Yields s w (openContract s id i y) (FitsCall s) := by
  have hnote : ∀ name, Changes s w (w.noteUse name) := changes_noteUse w
  have hcall : ∀ (w' : Work) (name : String), Changes s w w' → y.Fits s w' →
      Yields s w (set w' >>= fun _ => contractRunner s i >>= fun e =>
        pure (y.emit (.push (.str name)) (s.line i),
          ({ target := .ext e, contract := true, line := s.line i } : PendingCall))) (FitsCall s) :=
    fun w' name hchanges hy' => .bind (P := fun _ w' => y.Fits s w') (.set hchanges hy')
      fun _ _ _ h => yields_contractCall name i h
  refine .get ?_
  dsimp only
  split <;> refine .ite (fun _ => .throw_bind _) fun _ => ?_
  · split
    · exact hcall _ _ ((hnote _).trans (.marks s _)) (hy.noteUse _).setWritable
    · exact hcall _ _ (hnote _) (hy.noteUse _)
  · exact hcall _ _ (hnote _) (hy.noteUse _)

/-- So does any call to what is found. -/
theorem yields_openCall (name : String) (i : Nat) (hy : y.Fits s w) :
    Yields s w (openCall s name i y) (FitsCall s) := by
  refine .get ?_
  dsimp only
  split
  · rename_i id hfind
    refine .pure ⟨hy, fun g hg => ?_⟩
    cases hg
    exact finds_of_find hfind
  · exact .ite (fun _ => .pure ⟨hy.push_silent ⟨⟨rfl, rfl, rfl, rfl⟩, rfl⟩ _,
      fun g hg => by cases hg⟩)
      fun _ => .pure ⟨hy, fun g hg => by cases hg⟩
  · exact yields_openContract _ i hy
  · exact .ite (fun _ => yields_contractCall _ i hy) fun _ => .failAt _ i
  · exact .failAt _ i

/-- The instruction of a call fits if it is admitted. -/
theorem fits_emitCall (hy : y.Fits s w) {f : Callee} (hcall : Admits s w w.top (.call f))
    (hvariadic : Admits s w w.top (.callVariadic f)) (variadic : Bool) (count line callLine : Nat) :
    (emitCall y f variadic count line callLine).Fits s w := by
  unfold emitCall
  split
  · exact (hy.push_silent ⟨⟨rfl, rfl, rfl, rfl⟩, rfl⟩ line).push_code rfl hvariadic callLine
  · exact hy.push_code rfl hcall callLine

/-- A call of a function that is found is admitted, if the mark of the function is on the block. -/
theorem admits_func {g : BlockId} (hfind : w.Finds s g)
    (hmark : (w.block g).canWrite = true → w.Marked) :
    Admits s w w.top (.call (.func g)) ∧ Admits s w w.top (.callVariadic (.func g)) := by
  have hcalls : ∀ g', some g = some g' →
      w.top = w.top ∧ w.Finds s g' ∧ ((w.block g').canWrite = true → w.Marked) := by
    intro g' hg'
    cases hg'
    exact ⟨rfl, hfind, hmark⟩
  exact ⟨⟨nofun, fun e he => (by cases he), hcalls, rfl⟩,
    ⟨nofun, fun e he => (by cases he), hcalls, rfl⟩⟩

/-- So is one of an extension. -/
theorem admits_ext {e : Extension} (hmark : e.canWrite = true → w.Marked) :
    Admits s w w.top (.call (.ext e)) ∧ Admits s w w.top (.callVariadic (.ext e)) := by
  have hwrites : ∀ e', some e = some e' → e'.canWrite = true → w.Marked := by
    intro e' he'
    cases he'
    exact hmark
  exact ⟨⟨nofun, hwrites, fun g hg => (by cases hg), rfl⟩,
    ⟨nofun, hwrites, fun g hg => (by cases hg), rfl⟩⟩

/-- A call of a function that is ended marks the block if the function writes. -/
theorem yields_endFunc {id : BlockId} (hid : w.Finds s id) (count : Nat) (c : PendingCall) (i : Nat)
    (hy : y.Fits s w) : Yields s w (endFunc s id count c i y) fun y w => y.Fits s w := by
  refine .get ?_
  split
  · exact .failAt _ i
  · rename_i f hf
    have hwrites : (w.block id).canWrite = f.canWrite := by
      rw [Block.canWrite_eq, Block.standing_of_func? hf]
      rfl
    refine .ite (fun _ => .throw_bind _) fun _ => .ite (fun _ => ?_) fun hno => ?_
    · refine .bind (P := fun _ w' => w' = w.setWritable) (.set (.marks s w) rfl)
        fun _ w' _ hw' => .pure ?_
      subst hw'
      obtain ⟨hcall, hvariadic⟩ :=
        admits_func (Work.finds_setWritable hid) fun _ => marked_setWritable w
      exact fits_emitCall hy.setWritable hcall hvariadic ..
    · obtain ⟨hcall, hvariadic⟩ := admits_func hid fun hwrite => absurd (hwrites ▸ hwrite) hno
      exact .pure (fits_emitCall hy hcall hvariadic ..)

/-- So does one of an extension. -/
theorem yields_endExt (e : Extension) (count : Nat) (c : PendingCall) (i : Nat)
    (hy : y.Fits s w) : Yields s w (endExt s e count c i y) fun y w => y.Fits s w := by
  have hrest : ∀ (y : Yard) (count : Nat), y.Fits s w → Yields s w (do
      if !e.takes count then failAt s (.wrongParams e.name e.params.length) i
      if e.canWrite then modify Work.setWritable
      return emitCall y (.ext e) e.variadic count (s.line i) c.line) fun y w => y.Fits s w := by
    intro y count hy
    refine .ite (fun _ => .throw_bind _) fun _ => .ite (fun _ => ?_) fun hno => ?_
    · refine .bind (P := fun _ w' => w' = w.setWritable) (.modify (.marks s w) rfl)
        fun _ w' _ hw' => .pure ?_
      subst hw'
      obtain ⟨hcall, hvariadic⟩ := admits_ext fun _ => marked_setWritable w
      exact fits_emitCall hy.setWritable hcall hvariadic ..
    · obtain ⟨hcall, hvariadic⟩ := admits_ext fun hwrite => absurd hwrite hno
      exact .pure (fits_emitCall hy hcall hvariadic ..)
  by_cases hcontract : c.contract = true
  · by_cases hcount : count = 0
    · simp only [endExt, hcontract, hcount, if_true]
      exact hrest _ _ (hy.push_silent ⟨⟨rfl, rfl, rfl, rfl⟩, rfl⟩ _)
    · simp only [endExt, hcontract, hcount, if_true, if_false]
      exact hrest _ _ hy
  · simp only [endExt, hcontract]
    exact hrest _ _ hy

/-- A call that is ended fits. -/
theorem yields_endCall (count : Nat) {c : PendingCall} (hc : ∀ g, c.target = .func g → w.Finds s g)
    (i : Nat) (hy : y.Fits s w) : Yields s w (endCall s count c i y) fun y w => y.Fits s w := by
  unfold endCall
  split
  · exact yields_endFunc (hc _ ‹_›) count c i hy
  · exact yields_endExt _ count c i hy
  · exact .pure ((hy.push_silent ⟨⟨rfl, rfl, rfl, rfl⟩, rfl⟩ _).push_silent
      ⟨⟨rfl, rfl, rfl, rfl⟩, rfl⟩ _)

/-- What a pending call does when its argument list is closed. -/
theorem yields_closeCall_rest (count : Nat) (i : Nat) (hy : y.Fits s w) :
    Yields s w (match y.buffer with
      | .call c :: rest => do
        let count := c.count.getD count
        match segmentsOf (← get) c with
        | none => return (← endCall s count c i { y with buffer := rest }, none)
        | some segments =>
          let y := if endsInSegment y then y else y.emit (.push .nil) (s.line i)
          if chainFollows s i then
            let segment := s.name (i + 2)
            if !segments.contains segment then failAt s (.unknownFunction segment) (i + 2)
            return ({ y with
              buffer := .paren true :: .chain segment
                :: .call { c with count := some count } :: rest
              counts := 0 :: y.counts }, some (i + 3))
          else
            return (← endCall s count c i { y with buffer := rest }, none)
      | _ => failAt s .noPair i : Compiling (Yard × Option Nat)) fun r w => r.1.Fits s w := by
  split
  · rename_i c rest hbuffer
    unfold Yard.Fits at hy
    rw [hbuffer] at hy
    have hc : ∀ g, c.target = .func g → w.Finds s g :=
      fun g hg => hy.calls c g (List.mem_cons_self ..) hg
    refine .get ?_
    split
    · exact .bind (yields_endCall _ hc i hy.tail) fun _ _ _ h => .pure h
    · -- the operand for segments refers to nothing
      have hnil : Fits s w (if endsInSegment y then y else y.emit (.push .nil) (s.line i)).code
          rest := by
        split
        · exact hy.tail
        · exact hy.tail.push_silent ⟨⟨rfl, rfl, rfl, rfl⟩, rfl⟩ _
      refine .ite (fun _ => .ite (fun _ => .throw_bind _) fun _ => .pure ?_) fun _ => ?_
      · refine ((hnil.push_call ?_).push_bracket ?_ ?_).push_bracket ?_ ?_
        · exact hc
        all_goals exact fun _ h => (by cases h)
      · exact .bind (yields_endCall _ hc i hnil) fun _ _ _ h => .pure h
  · exact .failAt _ i

/-- So does what follows it. -/
theorem yields_closeCall (count : Nat) (i : Nat) (hy : y.Fits s w) :
    Yields s w (closeCall s count i y) fun r w => r.1.Fits s w := by
  refine yields_closeCall_rest count i ?_
  split
  · rename_i segment rest hbuffer
    unfold Yard.Fits at hy
    rw [hbuffer] at hy
    exact hy.tail.push_silent ⟨⟨rfl, rfl, rfl, rfl⟩, rfl⟩ _
  · exact hy

/-! ### Expressions -/

/-- So does an index. -/
theorem yields_closeIndex (hy : y.Fits s w) (i : Nat) :
    Yields s w (closeIndex s y i) fun r w => r.1.Fits s w := by
  refine .ite (fun _ => .throw_bind _) fun _ => ?_
  dsimp only
  split
  · exact .failAt _ i
  · rename_i code p buffer hflush
    have hclosed : Fits s w code buffer := hy.flushUntil hflush
    have hindex := hclosed.push_silent (show Op.index.Silent from ⟨⟨rfl, rfl, rfl, rfl⟩, rfl⟩)
      (s.line i)
    split
    · exact .failAt _ (i + 1)
    · exact .ite (fun _ => .pure hclosed) fun _ => .pure hindex
    · exact .pure hindex

/-- So does what stands in parentheses. -/
theorem yields_closeParen (hy : y.Fits s w) (i : Nat) :
    Yields s w (closeParen s y i) fun r w => r.1.Fits s w := by
  refine .ite (fun _ => .throw_bind _) fun _ => ?_
  dsimp only
  split
  · exact .failAt _ i
  · rename_i code p buffer hflush
    have hclosed : Fits s w code buffer := hy.flushUntil hflush
    split
    · refine .bind (yields_closeCall _ i hclosed) fun r _ _ hr => ?_
      obtain ⟨y', chained⟩ := r
      cases chained with
      | some next => exact .pure hr
      | none => exact .pure hr
    · exact .pure hclosed

theorem yields_comma (hy : y.Fits s w) (i : Nat) :
    Yields s w (comma s y i) fun r w => r.1.Fits s w :=
  .ite (fun _ => .throw_bind _) fun _ => .pure (hy.flushOps _ _)

/-- So does an operator with what it has pushed out. -/
theorem yields_operator (hy : y.Fits s w) (o : Operator) (i : Nat) :
    Yields s w (operator s y o i) fun r w => r.1.Fits s w := by
  unfold operator
  dsimp only
  split
  · exact .ite (fun _ => .throw_bind _) fun _ => .pure (hy.push_op ⟨⟨rfl, rfl, rfl, rfl⟩, rfl⟩)
  · exact .ite (fun _ => .throw_bind _) fun _ =>
      .pure ((hy.flushOps _ _).push_op ⟨⟨rfl, rfl, rfl, rfl⟩, rfl⟩)
  · exact .failAt _ i

theorem FitsCall.opened {r : Yard × PendingCall} (h : FitsCall s r w) :
    Fits s w r.1.code (.paren true :: .call r.2 :: r.1.buffer) :=
  (h.1.push_call h.2).push_bracket (fun _ h => (by cases h)) fun _ h => (by cases h)

/-- A variable that is found fits, and so does a call. -/
theorem yields_nameOperand (hy : y.Fits s w) (t : Token) (name : String) (i : Nat) :
    Yields s w (nameOperand s y t name i) fun r w => r.1.Fits s w := by
  refine .ite (fun _ => ?_) fun _ => ?_
  · split
    · exact .pure (FitsCall.opened (r := (y, { target := .extend _, line := s.line i }))
        ⟨hy, fun g hg => (by cases hg)⟩)
    · exact .bind (yields_openCall name i hy) fun r _ _ hr => .pure hr.opened
  · have hop : ∀ op : Op, op.Silent → Yard.Fits s w ((y.emit op (s.line i)).operand t.kind) :=
      fun op hop => hy.push_silent hop (s.line i)
    split
    · exact .pure (hop _ ⟨⟨rfl, rfl, rfl, rfl⟩, rfl⟩)
    · refine .get ?_
      split
      · rename_i hfind
        refine .pure (hy.push_inert ⟨rfl, rfl, rfl, rfl⟩ (fun u hu => ⟨name, ?_⟩) (s.line i))
        rw [List.mem_singleton.1 hu]
        exact hfind
      · exact .pure (hop _ ⟨⟨rfl, rfl, rfl, rfl⟩, rfl⟩)
      · exact .throw_bind _

/-- What an expression goes on with, or ends with, fits. -/
def Onward (s : Source) (y : Yard) (r : Option (Yard × Nat)) (w : Work) : Prop :=
  match r with
  | none => y.Fits s w
  | some p => p.1.Fits s w

theorem yields_onward {x : Compiling (Yard × Nat)} (hx : Yields s w x fun r w => r.1.Fits s w) :
    Yields s w (x >>= fun r => pure (some r)) (Onward s y) :=
  .bind hx fun _ _ _ h => .pure h

/-- One lexeme of an expression goes on with what fits. -/
theorem yields_take (blockFollows : Bool) (hy : y.Fits s w) (i : Nat) (t : Token) :
    Yields s w (take s blockFollows y i t) (Onward s y) := by
  have hop : ∀ (op : Op) (k : Kind), op.Silent →
      Onward s y (some ((y.emit op (s.line i)).operand k, i + 1)) w :=
    fun op k hop => hy.push_silent hop (s.line i)
  have hbracket : ∀ p : Pending, (∀ o, p ≠ .op o) → (∀ c, p ≠ .call c) →
      Fits s w y.code (p :: y.buffer) := fun _ => hy.push_bracket
  unfold take
  dsimp only
  split
  · -- a line end
    refine .pure ?_
    split <;> exact hy
  · -- a left brace
    refine .ite (fun _ => .pure hy) fun _ => .get (.bind (P := fun r w' => w' = w ∧
      ∀ v ∈ (LiteralPart.entries r.1).vars, ∃ x, w.findVar x = some (.var v))
      (.lift fun r hr => ⟨rfl, (LiteralPart.Read.of_mapLiteral hr).vars⟩) fun r w' _ hr => ?_)
    obtain ⟨rfl, hvars⟩ := hr
    exact .pure (hy.push_inert (show (Op.mapInit r.1).Inert from ⟨rfl, rfl, rfl, rfl⟩) hvars
      (s.line i))
  · -- a right brace
    exact .pure hy
  · -- a left bracket
    refine .ite (fun _ => .get (.bind (P := fun r w' => w' = w ∧
      ∀ v ∈ (LiteralPart.items r.1).vars, ∃ x, w.findVar x = some (.var v))
      (.lift fun r hr => ⟨rfl, (LiteralPart.Read.of_arrayLiteral hr).vars⟩) fun r w' _ hr => ?_))
      fun _ => .pure (hbracket .index (by simp) (by simp))
    obtain ⟨rfl, hvars⟩ := hr
    exact .pure (hy.push_inert (show (Op.arrayInit r.1).Inert from ⟨rfl, rfl, rfl, rfl⟩) hvars
      (s.line i))
  · -- a right bracket
    exact yields_onward (yields_closeIndex hy i)
  · -- a left parenthesis
    exact .ite (fun _ => .pure (hbracket (.paren false) (by simp) (by simp))) fun _ => .pure hy
  · -- a right parenthesis
    exact yields_onward (yields_closeParen hy i)
  · -- a comma
    exact yields_onward (yields_comma hy i)
  · -- an operator
    exact yields_onward (yields_operator hy _ i)
  · -- a constant
    exact .ite (fun _ => .pure (hop _ _ ⟨⟨rfl, rfl, rfl, rfl⟩, rfl⟩)) fun _ => .pure hy
  · -- a name
    exact .ite (fun _ => yields_onward (yields_nameOperand hy _ _ i)) fun _ => .pure hy
  · -- a name of the host
    exact .ite (fun _ => yields_onward (yields_nameOperand hy _ _ i)) fun _ => .pure hy
  · -- an argument to spread
    refine .ite (fun _ => .throw_bind _) fun _ => .pure ?_
    exact hy.push_silent ⟨⟨rfl, rfl, rfl, rfl⟩, rfl⟩ _
  · -- no token of an expression
    exact .pure hy

/-- So does a whole expression. -/
theorem yields_takeAll (blockFollows : Bool) (fuel : Nat) (hy : y.Fits s w) (i : Nat) :
    Yields s w (takeAll s blockFollows fuel y i) fun r w => r.1.Fits s w := by
  induction fuel generalizing w y i with
  | zero =>
    unfold takeAll
    split
    · exact .pure hy
    · exact .throw _
  | succ fuel ih =>
    unfold takeAll
    split
    · exact .pure hy
    · refine .bind (yields_take blockFollows hy i _) fun r _ _ hr => ?_
      cases r with
      | none => exact .pure hr
      | some p => exact ih hr p.2

/-- What is left at its end fits. -/
theorem fits_finish (hy : y.Fits s w) {i : Nat} {code : Array Instr}
    (h : finish s y i = .ok code) : Fits s w code [] := by
  have hcode := hy.flushOps (fun _ => true) (s.line i)
  unfold finish at h
  dsimp only at h
  split_ifs at h with _ hempty hset
  · cases h
    rw [List.isEmpty_iff.1 hempty] at hcode
    exact hcode.push_silent ⟨⟨rfl, rfl, rfl, rfl⟩, rfl⟩ _
  · cases h
    rw [List.isEmpty_iff.1 hempty] at hcode
    exact hcode

theorem fits_empty : Yard.Fits s w {} := ⟨by simp, by simp, by simp⟩

/-- The code of an expression that fits may be added to the innermost block. -/
theorem amends_addCode {blockFollows : Bool} {fuel start stop : Nat} {w₀ : Work}
    (htake : takeAll s blockFollows fuel {} start w₀ = .ok (y, stop) w) (hy : y.Fits s w) :
    Amends s w (do
    let code ← finish s y stop
    modify fun w => w.modifyTop fun b => { b with code := b.code ++ code }
    return stop) := by
  refine .bind (P := fun code w' => w' = w ∧ finish s y stop = .ok code ∧ Fits s w' code [])
    (.lift fun code hcode => ⟨rfl, hcode, fits_finish hy hcode⟩) fun code w' _ h => ?_
  obtain ⟨rfl, hfinish, hcode⟩ := h
  refine .bind (P := fun _ _ => True) (.modify (.top (.code_of (fun i hi => ?_) ?_)) trivial)
    fun _ _ _ _ => .pure trivial
  · exact (Array.mem_append.1 hi).imp_right (hcode.code i)
  · rw [Block.ops, Block.ops, Array.toList_append, List.map_append]
    exact .expression htake hfinish

theorem amends_expression (blockFollows : Bool) (start : Nat) :
    Amends s w (expression s blockFollows start) := by
  refine .bind (P := fun r w' => takeAll s blockFollows (s.lexemes.size - start) {} start w
    = .ok r w' ∧
    r.1.Fits s w') ((yields_takeAll blockFollows _ fits_empty start).and_eq.imp fun r w' h => ?_)
    fun _ _ _ hr => amends_addCode hr.1 hr.2
  exact ⟨h.2.1, h.1, h.2.2⟩

/-! ### The driver -/

/-- The expression of an entry adds code that is admitted. -/
theorem amends_entryExpression (f : Grammar.Flags) (i : Nat) :
    Amends s w (entryExpression s f i) := by
  have hrest : ∀ w, Amends s w (do
      let before := ((← get).block (← get).top).code.size
      let stop ← expression s f.toBlock (if f.toFork then i else i + 1)
      if f.mustEval && ((← get).block (← get).top).code.size == before then
        failAt s .missingExpression i
      return stop) := by
    intro w
    refine .get (.get (.bind (amends_expression _ _) fun _ w _ _ => ?_))
    exact .get (.get (.ite (fun _ => .throw_bind _) fun _ => .pure trivial))
  refine .ite (fun _ => .bind (amends_emit ⟨⟨rfl, rfl, rfl, rfl⟩, rfl⟩ rfl _)
    fun _ w _ _ => hrest w) fun _ =>
    hrest w

/-- The instruction that a dangling loop is repeated with. -/
theorem op_of_dangling {code : Array Instr} {body : BlockId} {i : Instr}
    (hback : code.back? = some i) (h : dangling code body = true) : i.op = .continue := by
  unfold dangling at h
  rw [hback] at h
  split at h
  · rename_i hop _
    exact Option.some.inj hop
  · cases h

theorem grows_pop {b : Block} {i : Instr} (hi : i.op = .continue) (hback : b.code.back? = some i) :
    Grows s w b.ops (Block.ops { b with code := b.code.pop }) := by
  obtain ⟨code, hcode⟩ := Array.back?_eq_some_iff.1 hback
  rw [Block.ops, Block.ops, hcode, Array.pop_push, Array.toList_push, List.map_append,
    List.map_singleton, hi]
  exact .moves

/-- Moving the instruction that repeats a loop into its body is an edit of two open blocks. -/
theorem edits_moveRepeat {child : BlockId} {rest : List BlockId} (hinner : w.inner = child :: rest)
    {repeats : Instr} (hrepeats : repeats.op = .continue)
    (hback : (w.block ({ w with inner := rest } : Work).top).code.back? = some repeats) :
    Edits s w ((({ w with inner := rest } : Work).modifyTop fun b =>
      { b with code := b.code.pop }).modifyBlock child (·.emit repeats)) := by
  have hparent : ({ w with inner := rest } : Work).top ∈ w.opened := by
    have := top_mem_opened { w with inner := rest }
    rw [Work.opened, hinner]
    exact List.mem_cons_of_mem _ this
  have hchild : child ∈ w.opened := by
    rw [Work.opened, hinner]
    exact List.mem_cons_self ..
  have hpop : Edit s w (w.modifyBlock ({ w with inner := rest } : Work).top fun b =>
      { b with code := b.code.pop }) :=
    .block hparent (.code_of (fun i hi => .inl (mem_of_mem_pop hi)) (grows_pop hrepeats hback))
  have hemit : ∀ w' : Work, child ∈ w'.opened → Edit s w' (w'.modifyBlock child (·.emit repeats)) :=
    fun w' h => .block h (.emit (hrepeats ▸ ⟨⟨rfl, rfl, rfl, rfl⟩, rfl⟩)
      (hrepeats ▸ rfl) repeats.line)
  have hclose := Edit.closes (s := s) ((w.modifyBlock ({ w with inner := rest } : Work).top fun b =>
    { b with code := b.code.pop }).modifyBlock child (·.emit repeats))
  rw [Work.inner_modifyBlock, Work.inner_modifyBlock, hinner] at hclose
  exact ((Relation.ReflTransGen.single hpop).tail (hemit _ hchild)).tail hclose

/-- A block is closed with edits of it and of what it is for. -/
theorem tends_closeBlock (i : Nat) : Tends s w w (closeBlock s i) fun _ w' =>
    Edits s w w' ∧ w'.inner = w.inner.tail ∧ w'.arena.size = w.arena.size ∧
      w'.pending = w.pending := by
  refine .get ?_
  split
  · exact .throw _ .refl
  · rename_i child rest hinner
    have hclose : Edits s w { w with inner := rest } := by
      have h := Edit.closes (s := s) w
      rw [hinner] at h
      exact .single h
    dsimp only
    split
    · rename_i repeats hback
      rw [hinner]
      refine .ite (fun hdangling =>
        .set ⟨edits_moveRepeat hinner (op_of_dangling hback hdangling) hback,
        rfl, ?_, rfl⟩) fun _ => .set ⟨hclose, rfl, rfl, rfl⟩
      rw [Work.size_modifyBlock, Work.modifyTop, Work.size_modifyBlock]
    · rw [hinner]
      exact .set ⟨hclose, rfl, rfl, rfl⟩

/-! ### The cursor -/

/-- Whether a state tells nothing about the open blocks. -/
def Ordinary (st : Grammar.State) : Prop := st ≠ .root ∧ st ≠ .func ∧ st ≠ .contract

instance (st : Grammar.State) : Decidable (Ordinary st) :=
  inferInstanceAs (Decidable (st ≠ .root ∧ st ≠ .func ∧ st ≠ .contract))

/-- Whether names wait for their type in a state. -/
def waits : Grammar.State → Bool
  | .varType | .funcParamType => true
  | _ => false

/-- What an entry of the table can be. -/
inductive Shape (st : Grammar.State) (k : Kind) :
    Grammar.State → Grammar.Flags → Grammar.Action → Prop
  | skip : st = .root → Shape st k .root {} .none
  | contract : st = .root → k = .keyword .contract → Shape st k .contract { push := true } .none
  | func : (st = .root ∨ st = .body) → k = .keyword .func → Shape st k .func { push := true } .none
  | name {next : Grammar.State} : (st = .func ∨ st = .contract) → k = .ident → Ordinary next →
      waits next = false → next ≠ .eval → Shape st k next {} .nameBlock
  | control {next : Grammar.State} {f : Grammar.Flags} {a : Grammar.Action} : st = .body →
      f.push = true → f.pop = false → f.stay = false → (a = .if ∨ a = .else ∨ a = .while) →
      Ordinary next → waits next = false → Shape st k next f a
  | close : st = .body → Shape st k .body { pop := true } .none
  /-- Goes on while names wait for their type. -/
  | more : waits st = true → Shape st k st {} .none
  /-- Notes a name that waits for its type. -/
  | wait {next : Grammar.State} {a : Grammar.Action} : Ordinary st → notes a = true →
      waits next = true → Shape st k next {} a
  /-- Gives the waiting names their type. -/
  | settle {next : Grammar.State} {a : Grammar.Action} : Ordinary st → settles a = true →
      Ordinary next → waits next = false → next ≠ .eval → Shape st k next {} a
  | other {next : Grammar.State} {f : Grammar.Flags} {a : Grammar.Action} : Ordinary st →
      waits st = false → f.push = false → f.pop = false → ofOpened a = false → notes a = false →
      settles a = false → (a = .segment → k = .ident ∧ f = {}) →
      Ordinary next → waits next = false →
      Shape st k next f a

/-- The rows of the grammar have a shape. -/
theorem shape_of_row {st next : Grammar.State} {k : Kind} {f : Grammar.Flags} {a : Grammar.Action}
    (h : Grammar.row st k = some (.go next f a)) : Shape st k next f a := by
  unfold Grammar.row at h
  split at h <;> cases h
  all_goals
    first
      | exact .skip rfl
      | exact .contract rfl rfl
      | exact .func (by decide) rfl
      | exact .name (by decide) rfl (by decide) rfl (by decide)
      | exact .control rfl rfl rfl rfl (by decide) (by decide) rfl
      | exact .close rfl
      | exact .more rfl
      | exact .wait (by decide) rfl rfl
      | exact .settle (by decide) rfl (by decide) rfl (by decide)
      | exact .other (by decide) rfl rfl rfl rfl rfl rfl (by decide) (by decide) rfl

/-- So do all entries. -/
theorem shape_of_entry {st next : Grammar.State} {k : Kind} {f : Grammar.Flags} {a : Grammar.Action}
    (h : Grammar.entry st k = .go next f a) : Shape st k next f a := by
  unfold Grammar.entry at h
  cases hrow : Grammar.row st k with
  | some e =>
    rw [hrow] at h
    obtain rfl : e = .go next f a := h
    exact shape_of_row hrow
  | none =>
    rw [hrow] at h
    cases st <;> cases h
    all_goals exact .other (by decide) rfl rfl rfl rfl rfl rfl nofun (by decide) rfl

/-- States in which names wait are inside a block, and expect no expression. -/
theorem ordinary_of_waits {st : Grammar.State} (h : waits st = true) :
    Ordinary st ∧ (st == .eval) = false := by
  cases st <;> first | exact ⟨by decide, rfl⟩ | cases h

/-- What is known of the work where a cursor stands inside a block: names wait for their type only
in the states that are for it. -/
structure Inside (st : Grammar.State) (w : Work) : Prop where
  inner : w.inner ≠ []
  waiting : w.Waiting
  pending : waits st = false → w.pending = []

theorem Inside.of_pending (hinner : w.inner ≠ []) (hpending : w.pending = []) (st : Grammar.State) :
    Inside st w :=
  ⟨hinner, .of_nil hpending, fun _ => hpending⟩

/-- Where a cursor stands behind some edits: in the unit itself, inside a block, or where the name
of a new block is missing. Then the edits lead to the work from before the block was opened. -/
def Stands (s : Source) (w₀ : Work) (c : Cursor) (w : Work) : Prop :=
  match c.state with
  | .root => Edits s w₀ w ∧ w.inner = [] ∧ w.pending = []
  | .func => ∃ w₁, Edits s w₀ w₁ ∧ w = w₁.openBlock ∧
      s.kind? (c.position - 1) ≠ some (.keyword .contract) ∧ w₁.pending = []
  | .contract => ∃ w₁, Edits s w₀ w₁ ∧ w = w₁.openBlock ∧ w₁.inner = [] ∧ w₁.pending = []
  | st => Edits s w₀ w ∧ Inside st w

/-- Where no block is being declared, only edits matter. -/
theorem stands_iff {w₀ : Work} {c : Cursor} (h : Ordinary c.state) :
    Stands s w₀ c w ↔ Edits s w₀ w ∧ Inside c.state w := by
  obtain ⟨hroot, hfunc, hcontract⟩ := h
  unfold Stands
  split
  · exact absurd ‹_› hroot
  · exact absurd ‹_› hfunc
  · exact absurd ‹_› hcontract
  · exact Iff.rfl

/-- Wherever the cursor stands, edits have led there. -/
theorem Stands.edits {w₀ : Work} {c : Cursor} (h : Stands s w₀ c w) : Edits s w₀ w := by
  unfold Stands at h
  split at h
  · exact h.1
  · obtain ⟨w₁, hw₁, rfl, -⟩ := h
    exact hw₁.tail (.opens w₁)
  · obtain ⟨w₁, hw₁, rfl, -⟩ := h
    exact hw₁.tail (.opens w₁)
  · exact h.1

/-- Where statements or declarations are read, no names wait. -/
theorem Stands.pending {w₀ : Work} {c : Cursor} (h : Stands s w₀ c w)
    (hst : c.state = .root ∨ c.state = .body) : w.pending = [] := by
  unfold Stands at h
  rcases hst with hst | hst <;> rw [hst] at h
  · exact h.2.2
  · exact h.2.pending rfl

/-- No block is being declared behind an ordinary entry. -/
theorem ordinary_stateBehind {f : Grammar.Flags} {next : Grammar.State} (hpop : f.pop = false)
    (h : Ordinary next) (atRoot : Bool) : Ordinary (stateBehind f next atRoot) := by
  unfold stateBehind
  split
  · decide
  · split
    · decide
    · rw [hpop]
      exact h

/-- What an entry does behind its expression: it opens or closes a block and carries out its
action. -/
def endEntry (s : Source) (f : Grammar.Flags) (a : Grammar.Action) (next : Grammar.State)
    (here fork behind : Nat) : Compiling Cursor := do
  if f.push then modify Work.openBlock
  if f.pop then closeBlock s here
  let state := stateBehind f next (← get).inner.isEmpty
  act s a here
  return { state := state, fork := fork, position := behind }

/-- The lexeme that an entry is about. -/
def entryPosition (f : Grammar.Flags) (c : Cursor) : Nat :=
  if f.toFork then (if f.fork then c.position else c.fork) else c.position

/-- A step of the reader that does not stay is the expression of the entry and what the entry
does. -/
theorem advance_eq {c : Cursor} {k : Kind} {next : Grammar.State} {f : Grammar.Flags}
    {a : Grammar.Action} (hentry : Grammar.entry c.state k = .go next f a)
    (hstay : f.stay = false) :
    advance s k c
      = (if next == .eval then entryExpression s f (entryPosition f c)
          else pure (entryPosition f c + 1) : Compiling Nat) >>= fun behind =>
        endEntry s f a (if next == .eval then c.state else next) (entryPosition f c)
          (if f.fork then c.position else c.fork) behind := by
  unfold advance
  rw [hentry]
  dsimp only
  rw [hstay]
  cases next == .eval <;> rfl

theorem ordinary_ite {st next : Grammar.State} (hst : Ordinary st) (hnext : Ordinary next)
    (eval : Bool) : Ordinary (if eval then st else next) := by
  cases eval
  · exact hnext
  · exact hst

section entries

variable {f : Grammar.Flags} {a : Grammar.Action} {next : Grammar.State} {here fork behind : Nat}
  {w₀ : Work} {Q : Cursor → Work → Prop}

theorem tends_endEntry (hpush : f.push = false) (hpop : f.pop = false)
    (h : Tends s w₀ w (act s a here) fun _ w' =>
      Q ⟨stateBehind f next w.inner.isEmpty, fork, behind⟩ w') :
    Tends s w₀ w (endEntry s f a next here fork behind) Q := by
  unfold endEntry
  rw [hpush, hpop]
  exact .get (.bind h fun _ _ h => .pure h)

/-- An entry that opens a block acts within it. -/
theorem tends_endEntry_push (hpush : f.push = true) (hpop : f.pop = false)
    (h : Tends s w₀ w.openBlock (act s a here) fun _ w' =>
      Q ⟨stateBehind f next false, fork, behind⟩ w') :
    Tends s w₀ w (endEntry s f a next here fork behind) Q := by
  unfold endEntry
  rw [hpush, hpop]
  refine .bind (P := fun _ w' => w' = w.openBlock) (.modify rfl) fun _ w' hw' => ?_
  subst hw'
  exact .get (.bind h fun _ _ h => .pure h)

/-- The end of a control statement's entry leads on from wherever edits have led to. -/
theorem tends_endEntry_control (hw : Edits s w₀ w) (hpending : w.pending = [])
    (hpush : f.push = true) (hpop : f.pop = false) (ha : a = .if ∨ a = .else ∨ a = .while)
    (hnext : Ordinary next) :
    Tends s w₀ w (endEntry s f a next here fork behind) (Stands s w₀) := by
  refine tends_endEntry_push hpush hpop (((enters_control ha here).behind hw).imp fun _ w' h => ?_)
  refine (stands_iff (ordinary_stateBehind hpop hnext _)).2 ⟨hw.trans h.edits, .of_pending ?_ ?_ _⟩
  · rw [h.inner]
    exact List.cons_ne_nil _ _
  · rw [h.pending, hpending]

/-- The remaining entries open and close nothing. -/
theorem tends_endEntry_other (hw : Edits s w₀ w) (hinner : w.inner ≠ []) (hpending : w.pending = [])
    (hpush : f.push = false) (hpop : f.pop = false) (ha : ofOpened a = false)
    (hnotes : notes a = false) (hsettles : settles a = false) (hsegment : a = .segment →
    s.kind? here = some .ident)
    (hnext : Ordinary next) :
    Tends s w₀ w (endEntry s f a next here fork behind) (Stands s w₀) := by
  refine tends_endEntry hpush hpop
    (((amends_act ha hnotes hsettles hinner hsegment).behind hw).imp fun _ w' h => ?_)
  refine (stands_iff (ordinary_stateBehind hpop hnext _)).2 ⟨hw.trans h.1.edits,
    .of_pending ?_ ?_ _⟩
  · rw [h.1.inner]
    exact hinner
  · rw [h.1.pending, hpending]

end entries

/-- What lies behind the expression of an entry, if it has one. -/
theorem yields_behind (f : Grammar.Flags) (eval : Bool) (i : Nat) :
    Yields s w (if eval then entryExpression s f i else pure (i + 1))
      fun behind w' => eval = false → w' = w ∧ behind = i + 1 := by
  cases eval with
  | true => exact (amends_entryExpression f i).imp fun _ _ h => ⟨h.1, fun he => by cases he⟩
  | false => exact .pure fun _ => ⟨rfl, rfl⟩

/-- **An entry of the table is a sequence of edits.** -/
theorem tends_advance {w₀ : Work} {k : Kind} {c : Cursor} (hk : s.kind? c.position = some k)
    (h : Stands s w₀ c w) : Tends s w₀ w (advance s k c) (Stands s w₀) := by
  cases hentry : Grammar.entry c.state k with
  | fail expected =>
    unfold advance
    rw [hentry]
    exact .throw _ h.edits
  | go next f a =>
    have hshape := shape_of_entry hentry
    have hedits := h.edits
    cases hstay : f.stay with
    | true =>
      -- An entry that stays leaves the machine; only ordinary states have such entries.
      unfold advance
      rw [hentry]
      dsimp only
      rw [hstay]
      cases hshape with
      | other hst hwait _ _ _ _ _ _ hnext =>
        obtain ⟨-, hinside⟩ := (stands_iff hst).1 h
        exact .pure ((stands_iff hnext).2 ⟨hedits,
          .of_pending hinside.inner (hinside.pending hwait) _⟩)
      | control _ _ _ hno => exact absurd hstay (by rw [hno]; decide)
      | _ => cases hstay
    | false =>
      rw [advance_eq hentry hstay]
      -- The expression in front of the action leaves the unit
      -- as it is, unless the entry evaluates one.
      refine .bind ((yields_behind f _ _).behind hedits) fun behind w' hbehind => ?_
      obtain ⟨hw', hbehind⟩ := hbehind
      have hedits' := hedits.trans hw'.edits
      cases hshape with
      | skip hst =>
        obtain ⟨rfl, rfl⟩ := hbehind rfl
        refine tends_endEntry rfl rfl (.pure ?_)
        rw [Stands, hst] at h
        exact h
      | contract hst hkind =>
        obtain ⟨rfl, rfl⟩ := hbehind rfl
        rw [Stands, hst] at h
        exact tends_endEntry_push rfl rfl (.pure ⟨_, hedits, rfl, h.2⟩)
      | func hst hkind =>
        obtain ⟨rfl, rfl⟩ := hbehind rfl
        refine tends_endEntry_push rfl rfl (.pure ⟨_, hedits, rfl, ?_, h.pending hst⟩)
        change s.kind? c.position ≠ _
        rw [hk, hkind]
        decide
      | name hst hkind hnext hwait heval =>
        -- the block was opened with its keyword, and its name enters it
        have heval' : (next == .eval) = false := by simpa using heval
        obtain ⟨rfl, rfl⟩ := hbehind heval'
        obtain ⟨w₁, hw₁, rfl, hcontract, hpending⟩ : ∃ w₁, Edits s w₀ w₁ ∧ w' = w₁.openBlock ∧
            (w₁.inner = [] ∨ s.kind? (c.position - 1) ≠ some (.keyword .contract)) ∧
            w₁.pending = [] := by
          unfold Stands at h
          rcases hst with hst | hst <;> rw [hst] at h
          · obtain ⟨w₁, hw₁, hw, hkind, hpending⟩ := h
            exact ⟨w₁, hw₁, hw, .inr hkind, hpending⟩
          · obtain ⟨w₁, hw₁, hw, hinner, hpending⟩ := h
            exact ⟨w₁, hw₁, hw, .inl hinner, hpending⟩
        rw [heval']
        refine tends_endEntry rfl rfl (((enters_nameBlock hcontract).behind hw₁).imp
          fun _ w'' h => (stands_iff hnext).2 ⟨hw₁.trans h.edits, .of_pending ?_ ?_ _⟩)
        · rw [h.inner]
          exact List.cons_ne_nil _ _
        · rw [h.pending, hpending]
      | control hst hpush hpop hstay ha hnext =>
        refine tends_endEntry_control hedits' ?_ hpush hpop ha
          (ordinary_ite (hst ▸ by decide) hnext _)
        rw [hw'.pending, h.pending (.inr hst)]
      | close hst =>
        refine .bind ((tends_closeBlock _).behind hedits') fun _ w'' hw'' => .get (.pure ?_)
        obtain ⟨hclose, -, -, hpending⟩ := hw''
        rw [hw'.pending, h.pending (.inr hst)] at hpending
        have hclosed := hedits'.trans hclose
        change Stands s w₀ ⟨if w''.inner.isEmpty then .root else .body, _, _⟩ w''
        -- the state behind a closed block depends on whether it was the last one
        cases hinner : w''.inner.isEmpty with
        | true => exact ⟨hclosed, List.isEmpty_iff.1 hinner, hpending⟩
        | false =>
          exact ⟨hclosed, .of_pending (fun hnil => by rw [hnil] at hinner; cases hinner) hpending _⟩
      | more hwait =>
        obtain ⟨hst, heval⟩ := ordinary_of_waits hwait
        obtain ⟨rfl, rfl⟩ := hbehind heval
        obtain ⟨-, hinside⟩ := (stands_iff hst).1 h
        rw [heval]
        refine tends_endEntry rfl rfl (.pure ?_)
        exact (stands_iff (c := ⟨c.state, c.fork, c.position + 1⟩) hst).2 ⟨hedits, hinside⟩
      | wait hst ha hwait =>
        obtain ⟨hnext, heval⟩ := ordinary_of_waits hwait
        obtain ⟨rfl, rfl⟩ := hbehind heval
        obtain ⟨-, hinside⟩ := (stands_iff hst).1 h
        rw [heval]
        refine tends_endEntry rfl rfl (((tends_notes ha hinside.waiting _).behind hedits).imp
          fun _ w'' h => (stands_iff hnext).2 ⟨hedits.trans h.1.edits, ?_, h.2, fun hno => ?_⟩)
        · rw [h.1.inner]
          exact hinside.inner
        · cases hwait.symm.trans hno
      | settle hst ha hnext hwait heval =>
        have heval' : (next == .eval) = false := by simpa using heval
        obtain ⟨rfl, rfl⟩ := hbehind heval'
        obtain ⟨-, hinside⟩ := (stands_iff hst).1 h
        rw [heval']
        refine tends_endEntry rfl rfl
          (((tends_settles ha hinside.inner hinside.waiting _).behind hedits).imp fun _ w'' h =>
            (stands_iff hnext).2 ⟨hedits.trans h.1.edits, .of_pending ?_ h.2 _⟩)
        rw [h.1.inner]
        exact hinside.inner
      | other hst hwait hpush hpop ha hnotes hsettles hsegment hnext =>
        obtain ⟨-, hinside⟩ := (stands_iff hst).1 h
        refine tends_endEntry_other hedits' ?_ ?_ hpush hpop ha hnotes hsettles (fun hname => ?_)
          (ordinary_ite hst hnext _)
        · rw [hw'.inner]
          exact hinside.inner
        · rw [hw'.pending, hinside.pending hwait]
        · obtain ⟨rfl, rfl⟩ := hsegment hname
          exact hk

/-- A whole reading is made of edits. -/
theorem tends_readAll {w₀ : Work} (fuel : Nat) {c : Cursor} (h : Stands s w₀ c w) :
    Tends s w₀ w (readAll s fuel c) fun _ w' => Edits s w₀ w' := by
  induction fuel generalizing w c with
  | zero =>
    unfold readAll
    split
    · exact .pure h.edits
    · exact .throw _ h.edits
  | succ fuel ih =>
    unfold readAll
    split
    · exact .pure h.edits
    · exact .bind (tends_advance ‹_› h) fun _ _ h' => ih h'

/-- **Compiling a unit is a sequence of edits**, whether it succeeds or not. If it does, nothing is
open in the end, and the `conditions` of no contract are marked. -/
theorem tends_unit {w : Work} (hinner : w.inner = []) (hpending : w.pending = []) :
    Tends s w w (unit s) fun _ w' => Edits s w w' ∧ w'.inner = [] ∧
      ∀ c ∈ (w'.block w'.root).children, conditionsWrite w'.arena c = false := by
  refine .bind (tends_readAll _ ⟨.refl, hinner, hpending⟩) fun _ w' hw' => .get ?_
  refine .ite (fun _ => .throw_bind _ hw') fun hopen => .ite (fun _ => .throw _ hw')
    fun hconditions => .pure ⟨hw', by simpa using hopen, fun c hc => ?_⟩
  rw [Array.any_eq_true'] at hconditions
  simpa using fun hwrite => hconditions ⟨c, hc, hwrite⟩

end Covenant.Compile
