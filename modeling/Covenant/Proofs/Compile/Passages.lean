import Covenant.Proofs.Compile.Balance
import Covenant.Proofs.Compile.Readings
import Covenant.Proofs.Registry.Operations

/-!
# The code of blocks as it is read

The code of a block is that of its statements and expressions, one behind the other. A `Passage` is
an instruction that a statement adds by itself, or an expression. Every block of a host can be read
so (`Session.Reachable.legible`): the expressions are sentences that are written in one of the texts
which have been compiled, and the calls in them fit what their names were bound to.
-/

namespace Covenant

namespace Compile

/-! ### Passages -/

mutual

/-- The code of a phrase has no instructions of statements. -/
theorem Phrase.not_isStatement {op : Op} : ∀ {e : Phrase}, op ∈ e.ops → op.isStatement = false
  | .atom _ i, h => by
    rw [List.mem_singleton.1 h]
    cases i <;> rfl
  | .group _, h => not_isStatement_all h
  | .unary _ _ e, h => by
    rcases List.mem_append.1 h with h | h
    · exact Phrase.not_isStatement (e := e) h
    · rw [List.mem_singleton.1 h]
      rfl
  | .binary _ _ a b, h => by
    rcases List.mem_append.1 h with h | h
    · exact (List.mem_append.1 h).elim Phrase.not_isStatement Phrase.not_isStatement
    · rw [List.mem_singleton.1 h]
      rfl
  | .index a es, h => by
    rcases List.mem_append.1 h with h | h
    · exact (List.mem_append.1 h).elim Phrase.not_isStatement not_isStatement_all
    · rw [List.mem_singleton.1 h]
      rfl
  | .spread e, h => by
    rcases List.mem_append.1 h with h | h
    · exact Phrase.not_isStatement (e := e) h
    · rw [List.mem_singleton.1 h]
      rfl
  | .call _ front args back segments ending, h => by
    -- a call is made of constants, arguments, segments, the count and the call itself
    have hpushes : ∀ {cs : List Constant}, op ∈ pushes cs → op.isStatement = false := by
      intro cs hop
      obtain ⟨c, -, rfl⟩ := List.mem_map.1 hop
      rfl
    rw [Phrase.ops] at h
    simp only [List.mem_append, List.mem_singleton] at h
    rcases h with ((((h | h) | h) | h) | h) | rfl
    · exact hpushes h
    · exact not_isStatement_all h
    · exact hpushes h
    · exact not_isStatement_chained h
    · cases ending with
      | fixed => exact absurd h List.not_mem_nil
      | counted | named =>
        rw [List.mem_singleton.1 h]
        rfl
    · cases ending <;> rfl

theorem not_isStatement_all {op : Op} :
    ∀ {es : List Phrase}, op ∈ opsAll es → op.isStatement = false
  | [], h => absurd h List.not_mem_nil
  | e :: _, h => (List.mem_append.1 h).elim (Phrase.not_isStatement (e := e)) not_isStatement_all

/-- There are no instructions of statements among the arguments of segments. -/
theorem not_isStatement_chained {op : Op} : ∀ {segments : List (Token × List Phrase)},
    op ∈ opsChained segments → op.isStatement = false
  | [], h => absurd h List.not_mem_nil
  | (name, args) :: rest, h => by
    rcases List.mem_append.1 h with h | h
    · rcases List.mem_append.1 h with h | h
      · exact not_isStatement_all h
      · rw [List.mem_singleton.1 h]
        rfl
    · exact not_isStatement_chained h

end

/-- The code of a sentence has no instructions of statements. -/
theorem Sentence.not_isStatement {p : Sentence} {op : Op} (h : op ∈ p.ops) :
    op.isStatement = false := by
  rw [Sentence.ops] at h
  rcases List.mem_append.1 h with h | h
  · rcases List.mem_append.1 h with h | h
    · obtain ⟨l, -, hl⟩ := List.mem_flatMap.1 h
      cases l with
      | value e => exact Phrase.not_isStatement hl
      | target a es => exact (List.mem_append.1 hl).elim Phrase.not_isStatement not_isStatement_all
    · cases hlast : p.last with
      | none =>
        rw [hlast] at h
        exact absurd h List.not_mem_nil
      | some e =>
        rw [hlast] at h
        exact Phrase.not_isStatement h
  · split at h
    · rw [List.mem_singleton.1 h]
      rfl
    · exact absurd h List.not_mem_nil

/-- Whether a sentence is written in a text, and its calls fit what their names are bound to
there. -/
def Sentence.Written (p : Sentence) : Prop :=
  ∃ text lexemes, Lexeme.read text = .ok lexemes ∧ ∃ (scope : Scope) (w : Work) (i j : Nat), i ≤ j ∧
    (scope.source lexemes).words i j = p.words ∧
    ∀ u ∈ p.calls, u.Fits (w.outlook (scope.source lexemes))

/-- A part of the code of a block: an instruction that a statement adds by itself, or an
expression. -/
inductive Passage where
  | statement (op : Op)
  | sentence (p : Sentence)

namespace Passage

/-- The code of a passage. -/
def ops : Passage → List Op
  | statement op => [op]
  | sentence p => p.ops

/-- Whether a passage is what it says. -/
def Sound : Passage → Prop
  | statement op => op.isStatement = true
  | sentence p => p.Written

end Passage

/-- Whether code is made up of some passages. -/
structure MadeOf (os : List Op) (ts : List Passage) : Prop where
  ops : ts.flatMap Passage.ops = os
  statements : ∀ op, .statement op ∈ ts → op.isStatement = true

/-- Whether code is that of some passages, which are written. -/
structure ReadAs (os : List Op) (ts : List Passage) : Prop where
  ops : ts.flatMap Passage.ops = os
  sound : ∀ t ∈ ts, t.Sound

namespace ReadAs

variable {os : List Op} {ts : List Passage} {op : Op}

theorem concat {t : Passage} (h : ReadAs os ts) (ht : t.Sound) :
    ReadAs (os ++ t.ops) (ts ++ [t]) := by
  refine ⟨by rw [List.flatMap_append, h.ops, List.flatMap_singleton], fun t' ht' => ?_⟩
  rcases List.mem_append.1 ht' with ht' | ht'
  · exact h.sound t' ht'
  · exact List.mem_singleton.1 ht' ▸ ht

/-- The last instruction of a statement is taken away. Expressions without code may stand behind
it. -/
theorem exists_of_concat (h : ReadAs (os ++ [op]) ts) (hop : op.isStatement = true) :
    ∃ ts', ts' ⊆ ts ∧ ReadAs os ts' := by
  obtain ⟨hops, hsound⟩ := h
  induction ts using List.reverseRecOn with
  | nil => exact absurd hops.symm (List.append_ne_nil_of_right_ne_nil _ (List.cons_ne_nil _ _))
  | append_singleton ts t ih =>
    rw [List.flatMap_append, List.flatMap_singleton] at hops
    have hsound' : ∀ t ∈ ts, t.Sound := fun t ht => hsound t (List.mem_append_left _ ht)
    cases t with
    | statement op' => exact ⟨ts, List.subset_append_left ..,
      List.append_inj_left' hops rfl, hsound'⟩
    | sentence p =>
      rcases List.eq_nil_or_concat p.ops with hnil | ⟨xs, x, hx⟩
      · rw [Passage.ops, hnil, List.append_nil] at hops
        obtain ⟨ts', hsub, hts'⟩ := ih hops hsound'
        exact ⟨ts', fun t ht => List.mem_append_left _ (hsub ht), hts'⟩
      · -- the code of an expression does not end so
        rw [List.concat_eq_append] at hx
        rw [Passage.ops, hx, ← List.append_assoc] at hops
        obtain rfl := List.singleton_inj.1 (List.append_inj' hops rfl).2
        have hmem : x ∈ p.ops := hx ▸ List.mem_append_right _ (List.mem_singleton_self x)
        cases hop.symm.trans (Sentence.not_isStatement hmem)

end ReadAs

/-! ### What every block keeps -/

/-- Whether the code of a block can be read. -/
def Legible (b : Block) : Prop := ∃ ts, ReadAs b.ops ts

theorem legible_concat {b : Block} {os : List Op} {op : Op} (h : ∃ ts, ReadAs os ts)
    (hop : op.isStatement = true) (hb : b.ops = os ++ [op]) : Legible b := by
  obtain ⟨ts, hts⟩ := h
  exact ⟨_, hb ▸ hts.concat (t := .statement op) hop⟩

/-- What a change makes of the code of a block can be read. -/
theorem exists_readAs_of_grows {text : String} {lexemes : Array Lexeme}
    (hread : Lexeme.read text = .ok lexemes) {scope : Scope} {w : Work}
    (hspelled : w.arena.Every Block.Spelled) {os os' : List Op}
    (h : Grows (scope.source lexemes) w os os') (hos : ∃ ts, ReadAs os ts) :
    ∃ ts, ReadAs os' ts := by
  obtain ⟨ts, hts⟩ := hos
  cases h with
  | @statement _ op hop => exact ⟨_, hts.concat (t := .statement op) hop⟩
  | @targets os _ targets =>
    obtain ⟨ts', -, hts'⟩ := hts.exists_of_concat rfl
    exact ⟨_, hts'.concat (t := .statement (.assignVar targets)) rfl⟩
  | moves =>
    obtain ⟨ts', -, hts'⟩ := hts.exists_of_concat rfl
    exact ⟨ts', hts'⟩
  | @expression _ w₀ blockFollows fuel start stop y code htake hfinish =>
    have hnamed : (w₀.outlook (scope.source lexemes)).Named := by
      rw [← (refers_takeAll blockFollows fuel (.refl _ w₀) start _ w htake).outlook]
      exact named_outlook hspelled
    obtain ⟨hle, p, hwords, hops, hsuits⟩ := sentence_takeAll hnamed htake hfinish
    have hp : (Passage.sentence p).Sound :=
      ⟨text, lexemes, hread, scope, w₀, start, stop, hle, hwords, hsuits.fits⟩
    rw [show code.toList.map Instr.op = p.ops from hops]
    exact ⟨_, hts.concat hp⟩

/-- Code that has grown can be read as passages if the code before could. -/
theorem exists_readAs_of_edit {text : String} {lexemes : Array Lexeme}
    (hread : Lexeme.read text = .ok lexemes) {scope : Scope} {w : Work}
    (hspelled : w.arena.Every Block.Spelled) {os os' : List Op}
    (h : Relation.ReflTransGen (Grows (scope.source lexemes) w) os os') (hos : ∃ ts, ReadAs os ts) :
    ∃ ts, ReadAs os' ts := by
  induction h with
  | refl => exact hos
  | tail _ hgrow ih => exact exists_readAs_of_grows hread hspelled hgrow ih

/-- Every edit of a unit keeps that the code of blocks can be read. -/
theorem editInvariant_legible {text : String} {lexemes : Array Lexeme}
    (hread : Lexeme.read text = .ok lexemes) (scope : Scope) :
    EditInvariant (scope.source lexemes) fun b => b.Spelled ∧ Legible b := by
  have hspelled := editInvariant_spelled (spelled_of_read hread scope)
  refine ⟨fun p => ⟨hspelled.empty p, [], rfl, nofun⟩, fun children hb =>
    ⟨hspelled.children children hb.1, hb.2⟩, fun hb => ⟨hspelled.mark hb.1, ?_⟩, fun line hop hb =>
    ⟨hspelled.control line hop hb.1, ?_⟩, fun hv hb => ⟨hspelled.header hv hb.1, hb.2⟩,
    fun hv hb => ⟨hspelled.name hv hb.1, hb.2⟩, fun hall hedit hb =>
    ⟨hspelled.change (fun id => (hall id).1) hedit hb.1, ?_⟩⟩
  · rw [Block.setWritable_eq]
    exact hb.2
  · exact legible_concat hb.2 (Op.isStatement_of_body? hop) (Block.ops_emit _ _)
  · exact exists_readAs_of_edit hread (fun id => (hall id).1) hedit.grows hb.2

end Compile

theorem Block.ops_modifyFunc (f : FuncInfo → FuncInfo) (b : Block) :
    (b.modifyFunc f).ops = b.ops := by
  obtain ⟨_, info, _, _, _, _⟩ := b
  cases info <;> rfl

theorem Block.ops_setId (b : Block) (id : Nat) : (b.setId id).ops = b.ops := by
  obtain ⟨_, info, _, _, _, _⟩ := b
  cases info <;> rfl

/-- The code of blocks can be read, whatever is compiled and changed. -/
theorem Block.legible_invariant : BlockInvariant fun b => b.Spelled ∧ Compile.Legible b where
  empty := ⟨.of_func?_eq_none rfl, [], rfl, nofun⟩
  unit ha hunit := Compile.EditInvariant.compile ha hunit fun _ hread =>
    Compile.editInvariant_legible hread _
  setId id hb := ⟨hb.1.setId id, by rw [Compile.Legible, Block.ops_setId]; exact hb.2⟩
  hidden hb := ⟨hb.1.modifyFunc fun _ _ hi => ⟨hi.chain, hi.segments⟩, by
    rw [Compile.Legible, Block.ops_modifyFunc]
    exact hb.2⟩

/-- **The code of a host's blocks can be read.** -/
theorem Session.Reachable.legible {s : Session} (h : s.Reachable) (id : BlockId) :
    ∃ ts, Compile.ReadAs (s.registry.block id).ops ts :=
  (h.every Block.legible_invariant id).2

end Covenant
