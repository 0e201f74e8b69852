import Covenant.Proofs.Heap.Apart
import Covenant.Proofs.Machine.Operands

/-!
# Evaluating above some operands

While the code of an expression runs, what lies on the operand stack belongs to the expressions
around it. A stretch of a run stays above these operands (`Exec.Aloft`) if no instruction takes them
and the blocks that were active remain so. Then the operands, the blocks and their bases are the
same behind it, and cells that only those operands lead to are as they were (`Exec.Aloft.spares`):
whatever runs in between does not come to them.

What host functions do is a parameter, and they are taken to leave alone what they are not given
(`Extension.Discreet`).
-/

namespace Covenant

open Covenant.Computation

open Exec

variable {c : Context} {K : Ref → Prop} {h₀ : Heap} {n : Nat} {m m' m₀ : Machine}

/-! ### Cells that only some operands lead to -/

/-- Whether a host function leaves cells as they are that it is not given, and answers with values
that do not lead there. -/
def Extension.Discreet (e : Extension) : Prop := ∀ K h₀, e.Keeps (Value.Apart K h₀)

/-- Some cells stay, and no values lead to them but for the operands below a height. -/
def Watch.apart (c : Context) (K : Ref → Prop) (h₀ : Heap) (n : Nat) : Watch where
  context := c
  values := Value.Apart K h₀
  floor := n
  write m p value _ := p.container.Apart K h₀ m.heap ∧ value.Apart K h₀ m.heap

/-- What lies apart from some cells stays apart from them, if host functions are discreet. -/
theorem Watch.apart_holds (hhosts : ∀ e, c.registry.Offers e → e.Discreet) (K : Ref → Prop)
    (h₀ : Heap) (n : Nat) :
    (Watch.apart c K h₀ n).Holds where
  lasting := Value.Apart.lasting K h₀
  keeps e he := hhosts e he K h₀
  panics _ _ _ := trivial
  contracts _ _ _ _ := trivial
  writes _ _ _ _ _ hwrite _ hv := hwrite.1.store hwrite.2 hv

/-- What an instruction writes, and where, does not lead to such cells if it is among the operands
above. -/
theorem Op.Writes.apart (hm : m.Has (Value.Apart K h₀) n) {op : Op}
    (hop : n ≤ m.stack.size - m.takes c op) {h : Heap} {p : Place} {value : Value} {mem : Int}
    (hwrites : op.Writes c m h p value mem) :
    p.container.Apart K h₀ h ∧ value.Apart K h₀ h := by
  cases hwrites with
  | @index s container key value p hstack hplace =>
    obtain ⟨rfl, -⟩ := Heap.place_eq_ok hplace
    have hsize := congrArg List.length hstack
    rw [Array.length_toList, List.length_append] at hsize
    have habove : ∀ v ∈ [p.container, key, value], v.Apart K h₀ m.heap := by
      refine hm.of_append hstack ?_
      change n ≤ m.stack.size - 3 at hop
      rw [hsize] at hop
      exact hop
    exact ⟨habove _ (by simp), habove _ (by simp)⟩
  | @segment s args r name hstack =>
    have hsize := congrArg List.length hstack
    rw [Array.length_toList, List.length_append, List.length_cons] at hsize
    have habove : ∀ v ∈ .map r :: args, v.Apart K h₀ m.heap := by
      refine hm.of_append hstack ?_
      change n ≤ m.stack.size - (args.length + 1) at hop
      omega
    obtain ⟨hmap, hargs⟩ := List.forall_mem_cons.1 habove
    exact ⟨hmap.grow (.push _ _), (Value.Apart.lasting K h₀).array hm.nil hargs⟩

/-! ### References of a run -/

theorem Machine.Has.imp {P Q : Heap → Value → Prop} {n : Nat} (hm : m.Has P n)
    (himp : ∀ v, P m.heap v → Q m.heap v) : m.Has Q n :=
  ⟨himp _ hm.nil, fun v hv => himp v (hm.stack v hv), fun f hf v hv => himp v (hm.frames f hf v hv),
    hm.env.imp himp⟩

/-- A machine whose references are to cells that are there is ready for its next step. -/
theorem Machine.Has.steady_of_bounded (hm : m.Has Value.Bounded) :
    m.Steady (Watch.apart c (fun _ => False) .empty 0) where
  has := hm.imp fun _ => Value.Apart.iff_bounded.2
  room := Nat.zero_le _
  base _ _ _ _ _ := Nat.zero_le _
  operands _ _ := Nat.zero_le _
  writes op h p value mem hop hwrites m₁ hheap _ _ := by
    subst hheap
    exact hwrites.apart (hm.imp fun _ => Value.Apart.iff_bounded.2) (Nat.zero_le _)
  assigns _ _ _ _ _ _ := trivial
  holders _ _ := trivial
  starts _ _ _ _ _ := trivial
  sections _ _ _ _ _ _ _ := trivial
  ends _ := trivial

/-- The references of a run are to cells that are there. -/
theorem Transition.bounded {r : EStateM.Result Stop Machine Unit}
    (hhosts : ∀ e, c.registry.Offers e → e.Discreet) (hm₀ : m₀.Has Value.Bounded)
    (hl : ∀ v ∈ l.values, v.Bounded m₀.heap) (h : Transition c l m₀ m q r) :
    (left r).Has Value.Bounded := by
  have hwatch := Watch.apart_holds (c := c) hhosts (fun _ => False) .empty 0
  induction h with
  | start =>
    have hready : m₀.Ready (Watch.apart c (fun _ => False) .empty 0) 0 :=
      ⟨hm₀.imp fun _ => Value.Apart.iff_bounded.2, Nat.zero_le _⟩
    have hstart := l.start_tame hwatch hready (fun v hv => Value.Apart.iff_bounded.2 (hl v hv))
      fun _ _ _ _ => trivial
    exact (hstart.1.has hready.has).imp fun _ => Value.Apart.iff_bounded.1
  | step htrans _ ih =>
    obtain ⟨m₁, hlead, hfollows, -⟩ := step_tame hwatch ih.steady_of_bounded
    exact (hfollows.has (hlead.has ih.steady_of_bounded.has)).imp fun _ => Value.Apart.iff_bounded.1

/-! ### Stretches of a run -/

namespace Exec

/-- Whether a machine is reached by steps that leave some number of frames active and take no
operands below a height. -/
inductive Aloft (c : Context) (depth n : Nat) (m₀ : Machine) : Machine → Prop
  | start : Aloft c depth n m₀ m₀
  | step {m m' : Machine} : Aloft c depth n m₀ m →
      (∀ op, nextOp? c m = some op → n ≤ m.stack.size - m.takes c op) → Exec.step c m = .ok () m' →
      depth ≤ m'.frames.length → Aloft c depth n m₀ m'

/-- A stretch of a run with another one behind it that stays above at least as many operands. -/
theorem Aloft.trans {depth n k : Nat} (h : Aloft c depth n m₀ m)
    (h' : Aloft c depth k m m') (hle : n ≤ k) :
    Aloft c depth n m₀ m' := by
  induction h' with
  | start => exact h
  | step _ hop hstep hlength ih =>
    exact .step ih (fun op hnext => hle.trans (hop op hnext)) hstep hlength

/-- The frames behind a step that ends the innermost block are those around it. -/
theorem outline_of_leaving {a : Activation} {rest : List Frame} {status : Status}
    (hframes : m.frames = .block a :: rest) (hleaving : leaving? c m = some status)
    (hstep : Exec.step c m = .ok () m') : m'.outline = rest.map Frame.bare := by
  -- The innermost block is left by a status that waits, at
  -- the end of its code, or by an instruction.
  have hleave : ∀ {m₁ : Machine}, leave c status m₁ = .ok () m' → m₁.frames = .block a :: rest →
      m'.outline = rest.map Frame.bare := by
    intro m₁ h hm₁
    have houtline := outline_leave c status hm₁
    rwa [h] at houtline
  rw [leaving?, hframes] at hleaving
  cases hending : m.ending with
  | some status' =>
    simp only [hending] at hleaving
    cases hleaving
    exact hleave (step_of_ending hframes hending ▸ hstep) hframes
  | none =>
    simp only [hending] at hleaving
    cases hcode : (c.block a.block).code[a.pc]? with
    | none =>
      simp only [hcode] at hleaving
      cases hleaving
      exact hleave (step_of_end hframes hending hcode ▸ hstep) hframes
    | some i =>
      simp only [hcode] at hleaving
      have hop : nextOp? c m = some i.op := by
        rw [nextOp?, hframes, hending]
        exact congrArg (Option.map Instr.op) hcode
      rw [(step_of_nextOp? hop).1] at hstep
      obtain ⟨_, m₁, htick, hperform⟩ := bind_eq_ok hstep
      obtain rfl := machine_of_tick htick
      cases hi : i.op <;> rw [hi] at hleaving hperform <;> cases hleaving <;>
        exact hleave hperform hframes

/-- What such steps keep of the machine that they start from. -/
structure Spares (P : Heap → Value → Prop) (n : Nat) (m₀ m : Machine) : Prop where
  has : m.Has P n
  /-- The blocks that were active are, and the others lie above the operands. -/
  spots : ∃ inner, m.spots = inner ++ m₀.spots ∧ ∀ id base role, some (id, base, role) ∈ inner →
    n ≤ base
  stack : m.stack.toList.take n = m₀.stack.toList.take n
  room : n ≤ m.stack.size

namespace Spares

theorem start {P : Heap → Value → Prop} (hm : m.Has P n) (hroom : n ≤ m.stack.size) :
    Spares P n m m :=
  ⟨hm, ⟨[], rfl, nofun⟩, rfl, hroom⟩

/-- A frame that ends is not one of those that were active. -/
theorem tail {P : Heap → Value → Prop} (h : Spares P n m₀ m) {f : Frame} {rest : List Frame}
    (hframes : m.frames = f :: rest) (hlength : m₀.frames.length ≤ rest.length) :
    ∃ inner, rest.map Frame.spot = inner ++ m₀.spots ∧
      (∀ id base role, some (id, base, role) ∈ inner → n ≤ base) ∧
      ∀ id base role, f.spot = some (id, base, role) → n ≤ base := by
  obtain ⟨inner, hspots, hinner⟩ := h.spots
  rw [Machine.spots, hframes, List.map_cons] at hspots
  cases inner with
  | nil =>
    have hsize := congrArg List.length hspots
    rw [List.length_cons, List.length_map, List.nil_append, m₀.length_spots] at hsize
    omega
  | cons spot inner =>
    obtain ⟨hf, hrest⟩ := List.cons.inj hspots
    refine ⟨inner, hrest, fun id base role hmem => hinner id base role
      (List.mem_cons_of_mem _ hmem), fun id base role hspot => hinner id base role ?_⟩
    rw [← hspot, hf]
    exact List.mem_cons_self ..

/-- A machine is ready for a step that takes no operands from below and ends none of the blocks. -/
theorem steady (h : Spares (Value.Apart K h₀) n m₀ m)
    (hop : ∀ op, nextOp? c m = some op → n ≤ m.stack.size - m.takes c op)
    (hstep : Exec.step c m = .ok () m') (hlength : m₀.frames.length ≤ m'.frames.length) :
    m.Steady (Watch.apart c K h₀ n) where
  has := h.has
  room := h.room
  base a rest status hframes hleaving := by
    have houtline := congrArg List.length (outline_of_leaving hframes hleaving hstep)
    rw [Machine.outline, List.length_map, List.length_map] at houtline
    obtain ⟨-, -, -, hbase⟩ := h.tail hframes (houtline ▸ hlength)
    exact hbase a.block a.base a.role rfl
  operands := hop
  writes op h' p value mem hnext hwrites m₁ hheap _ _ := by
    subst hheap
    exact hwrites.apart h.has (hop op hnext)
  assigns _ _ _ _ _ _ := trivial
  holders _ _ := trivial
  starts _ _ _ _ _ := trivial
  sections _ _ _ _ _ _ _ := trivial
  ends _ := trivial

/-- **A step keeps it**, if it takes no operands from below and ends none of the blocks. -/
theorem step (hhosts : ∀ e, c.registry.Offers e → e.Discreet) (h : Spares (Value.Apart K h₀) n m₀ m)
    (hop : ∀ op, nextOp? c m = some op → n ≤ m.stack.size - m.takes c op)
    (hstep : Exec.step c m = .ok () m') (hlength : m₀.frames.length ≤ m'.frames.length) :
    Spares (Value.Apart K h₀) n m₀ m' := by
  obtain ⟨m₁, hlead, htame⟩ :=
    step_tame (Watch.apart_holds hhosts K h₀ n) (h.steady hop hstep hlength)
  rw [show (Watch.apart c K h₀ n).context = c from rfl, hstep] at hlead htame
  obtain ⟨hfollows, hroom, -⟩ := htame
  obtain ⟨⟨new, hnew, hfloor⟩, hstack⟩ := hfollows.above
  -- Frames are added above those that were there, or the innermost one is taken off.
  have hkeeps : ∀ inner, m₁.spots = inner ++ m₀.spots →
      (∀ id base role, some (id, base, role) ∈ inner → n ≤ base) → m₁.stack = m.stack →
      Spares (Value.Apart K h₀) n m₀ m' := by
    intro inner hspots hinner hm₁
    refine ⟨hfollows.has (hlead.has h.has), ⟨new ++ inner, ?_, fun id base role hmem => ?_⟩,
      (hstack.trans (hm₁ ▸ rfl)).trans h.stack, hroom⟩
    · exact hnew.trans (by rw [hspots, List.append_assoc])
    · exact (List.mem_append.1 hmem).elim (hfloor id base role) (hinner id base role)
  have hends : ∀ {f : Frame} {rest : List Frame}, m.frames = f :: rest → m₁.frames = rest →
      m'.outline = rest.map Frame.bare → m₁.stack = m.stack →
      Spares (Value.Apart K h₀) n m₀ m' := by
    intro f rest hframes hm₁ houtline hstack
    have hsize := congrArg List.length houtline
    rw [Machine.outline, List.length_map, List.length_map] at hsize
    obtain ⟨inner, hspots, hinner, -⟩ := h.tail hframes (hsize ▸ hlength)
    exact hkeeps inner (by rw [Machine.spots, hm₁, hspots]) hinner hstack
  cases hlead with
  | stay =>
    obtain ⟨inner, hspots, hinner⟩ := h.spots
    exact hkeeps inner hspots hinner rfl
  | drop a rest status cost ticks hframes hleaving hr =>
    exact hends hframes rfl (outline_of_leaving hframes hleaving hstep) rfl
  | finish k rest hframes hsections hr =>
    have houtline := still_behindContract k ((m.env.get? "result").getD .nil) (finished k rest m)
    rw [← hr] at houtline
    exact hends hframes rfl houtline rfl

end Spares

/-- **What such a stretch of a run keeps**: the operands below the height, the blocks that were
active, and cells that only those operands lead to. -/
theorem Aloft.spares (hhosts : ∀ e, c.registry.Offers e → e.Discreet)
    (hm₀ : m₀.Has (Value.Apart K h₀) n) (hroom : n ≤ m₀.stack.size)
    (h : Aloft c m₀.frames.length n m₀ m) :
    Spares (Value.Apart K h₀) n m₀ m := by
  induction h with
  | start => exact .start hm₀ hroom
  | step _ hop hstep hlength ih => exact ih.step hhosts hop hstep hlength

end Exec

end Covenant
