import Covenant.Proofs.Registry.Operations

/-!
# Rollback is exact

A savepoint remembers the table of global names and the size of the arena, and no more. This is
enough to return to the registry as it was: whatever a host does in between, in whatever order and
with whatever success, the blocks below the mark stay as they are, and the compiled conditions that
are kept are those whose block is below the mark (`Registry.Since`).

The main statement is `Session.rollback_exact`: a rollback restores names, stable numbers, blocks,
compiled conditions and outer savepoints. It asks that a host can come to the session, for a session
with a compiled condition that points behind its arena could not be restored.
-/

namespace Covenant

/-! ### Nested operations -/

namespace Operation

/-- How many savepoints are open behind an operation. It closes no savepoint when none is open. -/
def depthAfter : Operation → Nat → Option Nat
  | savepoint, d => some (d + 1)
  | rollback, 0 | release, 0 => none
  | rollback, d + 1 | release, d + 1 => some d
  | _, d => some d

/-- How many savepoints are open behind some operations. -/
def depthAfterAll : List Operation → Nat → Option Nat
  | [], d => some d
  | op :: ops, d => (op.depthAfter d).bind (depthAfterAll ops)

/-- Whether operations close every savepoint that they open and no other. -/
def Nested (ops : List Operation) : Prop := depthAfterAll ops 0 = some 0

end Operation

namespace Registry

variable {r r₀ r' : Registry}

/-! ### Registries of a host -/

/-- Whether compiled conditions and savepoints point into the arena, later savepoints further. -/
structure Sound (r : Registry) : Prop where
  evals : ∀ e ∈ r.evals, e.2 < r.arena.size
  marks : ∀ p ∈ r.savepoints, p.blocks ≤ r.arena.size
  ordered : r.savepoints.Pairwise fun p q => q.blocks ≤ p.blocks

theorem new_sound (limits : Limits) (extensions : List Extension) :
    (Registry.new limits extensions).Sound := by
  have hall : ∀ r : Registry, r.Sound → (extensions.foldl extend r).Sound := by
    induction extensions with
    | nil => exact fun _ h => h
    | cons e es ih => exact fun r h => ih _ ⟨h.evals, h.marks, h.ordered⟩
  exact hall _ ⟨by simp, by simp, .nil⟩

namespace Sound

/-- A registry that has grown is sound. -/
theorem grew (h : r.Sound) (hgrew : r.Grew r') : r'.Sound := by
  obtain ⟨new, hevals, hnew⟩ := hgrew.evals
  refine ⟨?_, ?_, hgrew.savepoints ▸ h.ordered⟩
  · intro e he
    rcases List.mem_append.1 (hevals ▸ he) with hin | hold
    · exact (hnew e hin).2
    · exact Nat.lt_of_lt_of_le (h.evals e hold) hgrew.arena.le
  · intro p hp
    exact Nat.le_trans (h.marks p (hgrew.savepoints ▸ hp)) hgrew.arena.le

theorem savepoint (h : r.Sound) : r.savepoint.Sound :=
  ⟨h.evals, List.forall_mem_cons.2 ⟨Nat.le_refl _, h.marks⟩, .cons h.marks h.ordered⟩

/-- So is one that is rolled back. -/
theorem rollback (h : r.Sound) (hback : r.rollback? = some r') : r'.Sound := by
  unfold rollback? at hback
  split at hback
  · cases hback
  · rename_i p rest hpoints
    cases hback
    have hordered := h.ordered
    rw [hpoints, List.pairwise_cons] at hordered
    have hsize : (r.arena.take p.blocks).size = p.blocks := by
      have := h.marks p (hpoints ▸ List.mem_cons_self ..)
      simp only [Array.take_eq_extract, Array.size_extract]
      omega
    refine ⟨fun e he => ?_, fun q hq => ?_, hordered.2⟩
    · rw [hsize]
      simpa using (List.mem_filter.1 he).2
    · rw [hsize]
      exact hordered.1 q hq

/-- So is one that has given up a savepoint. -/
theorem release (h : r.Sound) (hrelease : r.release? = some r') : r'.Sound := by
  unfold release? at hrelease
  split at hrelease
  · cases hrelease
  · rename_i p rest hpoints
    cases hrelease
    have hordered := h.ordered
    rw [hpoints, List.pairwise_cons] at hordered
    exact ⟨h.evals, fun q hq => h.marks q (hpoints ▸ List.mem_cons_of_mem _ hq), hordered.2⟩

end Sound

/-! ### Behind a savepoint -/

/-- Whether a registry has come from another one through a savepoint that is still open, with some
more savepoints open on top of it. -/
structure Since (r₀ r : Registry) (depth : Nat) : Prop where
  arena : r₀.arena.Precedes r.arena
  evals : r.evals.filter (fun e => e.2 < r₀.arena.size) = r₀.evals
  savepoints : ∃ inner, inner.length = depth ∧
    r.savepoints = inner ++ r₀.savepoint.savepoints ∧ ∀ p ∈ inner, r₀.arena.size ≤ p.blocks

namespace Since

variable {d : Nat}

theorem opened (h : r.Sound) : r.Since r.savepoint 0 := by
  refine ⟨.refl _, ?_, [], rfl, rfl, by simp⟩
  exact List.filter_eq_self.2 fun e he => decide_eq_true (h.evals e he)

/-- What was there at a savepoint is there when the registry has grown. -/
theorem grew (h : r₀.Since r d) (hgrew : r.Grew r') : r₀.Since r' d := by
  obtain ⟨new, hevals, hnew⟩ := hgrew.evals
  refine ⟨h.arena.trans hgrew.arena, ?_, hgrew.savepoints ▸ h.savepoints⟩
  have hdrop : new.filter (fun e => decide (e.2 < r₀.arena.size)) = [] := by
    refine List.filter_eq_nil_iff.2 fun e he hlt => ?_
    exact Nat.not_lt.2 (Nat.le_trans h.arena.le (hnew e he).1) (of_decide_eq_true hlt)
  rw [hevals, List.filter_append, hdrop, List.nil_append]
  exact h.evals

theorem savepoint (h : r₀.Since r d) : r₀.Since r.savepoint (d + 1) := by
  obtain ⟨inner, hlength, hpoints, hinner⟩ := h.savepoints
  refine ⟨h.arena, h.evals, ⟨r.objects, r.children, r.arena.size⟩ :: inner, ?_, ?_, ?_⟩
  · rw [List.length_cons, hlength]
  · rw [List.cons_append, ← hpoints]
    rfl
  · exact List.forall_mem_cons.2 ⟨h.arena.le, hinner⟩

/-- Returning to a savepoint on top keeps what is below the mark. -/
theorem rollback (h : r₀.Since r (d + 1)) : r₀.Since (r.rollback?.getD r) d := by
  obtain ⟨inner, hlength, hpoints, hinner⟩ := h.savepoints
  obtain ⟨p, inner, rfl⟩ := List.exists_cons_of_length_eq_add_one hlength
  obtain ⟨hp, hinner⟩ := List.forall_mem_cons.1 hinner
  rw [rollback?, hpoints]
  refine ⟨h.arena.take hp, ?_, inner, Nat.succ.inj hlength, rfl, hinner⟩
  refine Eq.trans ?_ h.evals
  change (r.evals.filter _).filter _ = _
  rw [List.filter_filter]
  refine List.filter_congr fun e _ => ?_
  have hlt : e.2 < r₀.arena.size → e.2 < p.blocks := fun he => Nat.lt_of_lt_of_le he hp
  simpa using hlt

theorem release (h : r₀.Since r (d + 1)) : r₀.Since (r.release?.getD r) d := by
  obtain ⟨inner, hlength, hpoints, hinner⟩ := h.savepoints
  obtain ⟨p, inner, rfl⟩ := List.exists_cons_of_length_eq_add_one hlength
  rw [release?, hpoints]
  exact ⟨h.arena, h.evals, inner, Nat.succ.inj hlength, rfl, (List.forall_mem_cons.1 hinner).2⟩

/-- Returning to the savepoint itself gives the registry back. -/
theorem exact (h : r₀.Since r 0) : ∃ r', r.rollback? = some r' ∧
    r'.objects = r₀.objects ∧ r'.children = r₀.children ∧ r'.arena = r₀.arena ∧
      r'.evals = r₀.evals ∧ r'.savepoints = r₀.savepoints := by
  obtain ⟨inner, hlength, hpoints, -⟩ := h.savepoints
  obtain rfl := List.eq_nil_of_length_eq_zero hlength
  rw [rollback?, hpoints]
  exact ⟨_, rfl, rfl, rfl, h.arena.take_size, h.evals, rfl⟩

end Since

end Registry

namespace Session

variable {s : Session}

/-- Every registry of a host is sound. -/
theorem Reachable.sound (h : s.Reachable) : s.registry.Sound := by
  induction h with
  | new limits extensions => exact Registry.new_sound limits extensions
  | @perform s op _ ih =>
    cases op with
    | savepoint => exact ih.savepoint
    | rollback =>
      show (s.registry.rollback?.getD s.registry).Sound
      cases h : s.registry.rollback? with
      | none => exact ih
      | some r => exact ih.rollback h
    | release =>
      show (s.registry.release?.getD s.registry).Sound
      cases h : s.registry.release? with
      | none => exact ih
      | some r => exact ih.release h
    | _ => exact ih.grew (s.perform_grew (by simp) (by simp) (by simp))

/-- What one operation keeps of an open savepoint. -/
theorem since_perform {r₀ : Registry} {d d' : Nat} (h : r₀.Since s.registry d) {op : Operation}
    (hop : op.depthAfter d = some d') : r₀.Since (s.perform op).registry d' := by
  cases op with
  | savepoint =>
    cases hop
    exact h.savepoint
  | rollback =>
    cases d with
    | zero => cases hop
    | succ d =>
      cases hop
      exact h.rollback
  | release =>
    cases d with
    | zero => cases hop
    | succ d =>
      cases hop
      exact h.release
  | _ =>
    cases hop
    exact h.grew (s.perform_grew (by simp) (by simp) (by simp))

/-- So it is behind operations, as long as they do not go back below the savepoint. -/
theorem since_performAll {r₀ : Registry} {d d' : Nat} (h : r₀.Since s.registry d)
    {ops : List Operation} (hops : Operation.depthAfterAll ops d = some d') :
    r₀.Since (s.performAll ops).registry d' := by
  induction ops generalizing s d with
  | nil =>
    cases hops
    exact h
  | cons op ops ih =>
    obtain ⟨d₁, hop, hrest⟩ := Option.bind_eq_some_iff.1 hops
    exact ih (since_perform h hop) hrest

/-- **Rollback is exact.** Whatever a host does between a savepoint and the rollback that closes it,
successful or not, the rollback restores names, stable numbers, blocks, compiled conditions and
outer savepoints. -/
theorem rollback_exact (hs : s.Reachable) {ops : List Operation} (hops : Operation.Nested ops) :
    ∃ r, ((s.perform .savepoint).performAll ops).registry.rollback? = some r ∧
      r.objects = s.registry.objects ∧ r.children = s.registry.children ∧
      r.arena = s.registry.arena ∧ r.evals = s.registry.evals ∧
      r.savepoints = s.registry.savepoints :=
  (since_performAll (s := s.perform .savepoint) (Registry.Since.opened hs.sound) hops).exact

/-- A rollback behind a unit that was kept and a condition that was dropped before it. -/
theorem rollback_exact_kept_and_dropped : Session.new.Reachable ∧
    Operation.Nested [.savepoint, .compile 1 "func f \x7b\x7d", .release, .savepoint,
      .evalIf 1 "1 < 2", .rollback, .compile 1 "func f(", .run 0 []] ∧
    ∃ r, ((Session.new.perform .savepoint).performAll
        [.savepoint, .compile 1 "func f \x7b\x7d", .release, .savepoint, .evalIf 1 "1 < 2",
          .rollback, .compile 1 "func f(", .run 0 []]).registry.rollback? = some r ∧
      r.objects = Session.new.registry.objects ∧ r.children = Session.new.registry.children ∧
      r.arena = Session.new.registry.arena ∧ r.evals = Session.new.registry.evals ∧
      r.savepoints = Session.new.registry.savepoints :=
  have hnew : Session.new.Reachable := .new {} Library.standard .empty .empty
  ⟨hnew, rfl, rollback_exact hnew rfl⟩

end Session

end Covenant
