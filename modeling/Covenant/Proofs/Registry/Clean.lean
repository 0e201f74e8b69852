import Covenant.Proofs.Registry.Operations

/-!
# Compiled code leaves system variables alone

The compiler refuses assignments to system variables and data fields that are called like one. So
no block of a registry assigns to a system variable, whether by name or through a field, and no
contract has such a field (`Session.Reachable.clean`). What a program asks for with names that it
puts together while it runs is not covered by this.
-/

namespace Covenant

/-! ### Clean blocks -/

/-- Whether a target is not a system variable. -/
def Target.IsFree : Target → Prop
  | .var _ => True
  | .extend name => Name.isSystem name = false

/-- Whether neither the assignments nor the fields of a block are to system variables. -/
structure Block.Clean (b : Block) : Prop where
  targets : ∀ t ∈ b.targets, t.IsFree
  extVars : ∀ x name, b.objects.get? x = some (.extVar name) → Name.isSystem name = false
  fields : ∀ x ∈ b.fieldNames, Name.isSystem x = false

/-- Whether all blocks are clean. -/
def Arena.Clean (a : Arena) : Prop := ∀ id, (a.block id).Clean

theorem Block.clean_empty (parent : Option BlockId) : Block.Clean { parent := parent } := by
  refine ⟨fun t ht => ?_, fun x name h => ?_, fun x hx => ?_⟩
  · obtain ⟨i, hi, -⟩ := Block.mem_targets.1 ht
    exact absurd hi (Array.not_mem_empty i)
  · rw [Dict.get?_empty] at h
    cases h
  · exact absurd hx List.not_mem_nil

/-! ### Compiling -/

namespace Compile

variable {s : Source} {w w' : Work} {id : BlockId}

/-- A variable that is found is not a system variable. -/
theorem findVarIn_free (h : w.arena.Clean) {name : String} {ids : List BlockId} {t : Target}
    (hfind : w.findVarIn name ids = some t) : t.IsFree := by
  induction ids with
  | nil => cases hfind
  | cons id ids ih =>
    unfold Work.findVarIn at hfind
    split at hfind
    · cases hfind
      trivial
    · rename_i hkey
      cases hfind
      exact (h id).extVars name _ hkey
    · cases hfind
    · exact ih hfind

theorem assignable_free (h : w.arena.Clean) {t : Target} (ht : Assignable w t) : t.IsFree := by
  rcases ht with ⟨name, rfl, hname⟩ | ⟨name, hfind⟩
  · exact hname
  · exact findVarIn_free h hfind

/-- An edit of a block brings in no assignment to a system variable. -/
theorem blockEdit_clean (h : w.arena.Clean) {b b' : Block} (hb : b.Clean)
    (hedit : BlockEdit s w id b b') : b'.Clean := by
  refine ⟨fun t ht => ?_, fun x name hx => ?_, fun x hx => ?_⟩
  · rcases hedit.targets t ht with hold | hnew
    · exact hb.targets t hold
    · exact assignable_free h hnew.2
  · rcases hedit.objects x _ hx with hold | hbound
    · exact hb.extVars x name hold
    · exact hb.fields name hbound
  · rcases hedit.fields x hx with hold | hnew
    · exact hb.fields x hold
    · exact hnew

/-- Nor does a mark. -/
theorem setWritable_clean {b : Block} (h : b.Clean) : b.setWritable.Clean := by
  refine ⟨?_, ?_, fun x hx => h.fields x ?_⟩
  · rw [Block.setWritable_eq]
    exact h.targets
  · rw [Block.setWritable_eq]
    exact h.extVars
  · obtain ⟨_, info, _, _, _, _⟩ := b
    cases info <;> exact hx

/-- Nor does an instruction without targets. -/
theorem emit_clean {b : Block} (h : b.Clean) {op : Op} (hop : op.targets = []) (line : Nat) :
    (b.emit ⟨op, line⟩).Clean := by
  refine ⟨fun t ht => ?_, h.extVars, h.fields⟩
  obtain ⟨i, hi, hit⟩ := Block.mem_targets.1 ht
  rcases Array.mem_push.1 hi with hold | rfl
  · exact h.targets t (Block.mem_targets.2 ⟨i, hold, hit⟩)
  · rw [hop] at hit
    exact absurd hit List.not_mem_nil

/-- A header that is declared has no fields. -/
theorem info_clean {b : Block} (h : b.Clean) {x : String} {info : BlockInfo} {v : Binding}
    (hv : Declares w x info v) : Block.Clean { b with info := info } := by
  refine ⟨h.targets, h.extVars, fun x hx => absurd hx ?_⟩
  rcases hv.header with ⟨f, rfl, -⟩ | ⟨c, rfl, -, hdata, -⟩
  · exact List.not_mem_nil
  · rw [Block.fieldNames, Block.contract?]
    simp only [Option.bind_some, hdata]
    exact List.not_mem_nil

/-- Nor does a name that a block is bound to. -/
theorem bind_clean {b : Block} (h : b.Clean) {x : String} {info : BlockInfo} {v : Binding}
    (hv : Declares w x info v) : Block.Clean { b with objects := b.objects.insert x v } := by
  refine ⟨h.targets, fun y name hy => ?_, h.fields⟩
  rw [Dict.get?_insert] at hy
  split at hy
  · rw [Option.some.injEq] at hy
    rcases hv.header with ⟨f, -, -, rfl⟩ | ⟨c, -, -, -, rfl, -⟩ <;> cases hy
  · exact h.extVars y name hy

/-- Every edit keeps an arena clean. -/
theorem editInvariant_clean (s : Source) : EditInvariant s Block.Clean where
  empty := Block.clean_empty
  children _ hb := ⟨hb.targets, hb.extVars, hb.fields⟩
  mark := setWritable_clean
  control _ hop hb := emit_clean hb (Op.of_body? hop).2.1 _
  header hv hb := info_clean hb hv
  name hv hb := bind_clean hb hv
  change h hedit hb := blockEdit_clean h hb hedit

end Compile

theorem Arena.Clean.compile {a a' : Arena} (h : a.Clean) {scope : Scope} {text : String}
    {root : BlockId} (hcompile : a.compile scope text = .ok (root, a')) : a'.Clean :=
  Compile.EditInvariant.compile h hcompile fun _ _ => Compile.editInvariant_clean _

/-! ### Registries -/

/-- Changing a signature does not change what a block assigns to. -/
theorem Block.Clean.modifyFunc {b : Block} (h : b.Clean) (f : FuncInfo → FuncInfo) :
    (b.modifyFunc f).Clean := by
  rw [Block.modifyFunc]
  split
  · exact ⟨h.targets, h.extVars, fun x hx => absurd hx List.not_mem_nil⟩
  · exact h

/-- Nor does a number that a unit is given. -/
theorem Block.Clean.setId {b : Block} (h : b.Clean) (id : Nat) : (b.setId id).Clean := by
  have h' := h.modifyFunc fun i => { i with id := id }
  rw [Block.setId, Block.modifyContract]
  split
  · rename_i info hinfo
    refine ⟨h'.targets, h'.extVars, fun x hx => h'.fields x ?_⟩
    rw [Block.fieldNames, Block.contract?, hinfo]
    exact hx
  · exact h'

/-- **No block of a host's registry assigns to system variables.** -/
theorem Session.Reachable.clean {s : Session} (h : s.Reachable) : s.registry.arena.Clean :=
  h.every ⟨Block.clean_empty none, fun ha hunit => Arena.Clean.compile ha hunit,
    fun id hb => hb.setId id, fun hb => hb.modifyFunc _⟩

end Covenant
