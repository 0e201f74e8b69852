import Covenant.Proofs.Machine.ContractCalls
import Covenant.Proofs.Machine.Twins
import Covenant.Proofs.Registry.Writes

/-!
# What conditions write when they run

The marks that the compiler sets cover the calls that it binds. A call `$name(...)` finds its
extension when it runs, and a contract that is called by its name is found then, too; neither is
looked at when `conditions` are checked. So `conditions` can write
(`Launch.conditions_write_by_name`), but only in these two ways: an instruction that calls a writing
extension while they run is a call by name, or runs in a contract that is marked as writing
(`Session.conditions_write_by_name_or_in_marked_contract`).

The invariant is about the frames that a section has put on top of those below it: each of them runs
safe code or lies in a marked contract (`Registry.Guarded`).
-/

namespace Covenant

open Exec

namespace Registry

variable {r : Registry} {fs : List Frame} {k : ContractCall}

/-- Whether a name stands for a contract that is marked as writing. -/
def MarkedContract (r : Registry) (name : String) : Prop :=
  ∃ id info, r.qualified? name = some id ∧ (r.block id).contract? = some info ∧ info.canWrite = true

/-- Whether all code that a frame may run itself is safe. -/
def SafeFrame (r : Registry) : Frame → Prop
  | .block a => r.arena.Safe a.block
  | .contract k => ∀ s ∈ k.sections, r.arena.Safe s

/-- Whether one of some frames is a contract that is marked as writing. -/
def InMarked (r : Registry) (fs : List Frame) : Prop :=
  ∃ k, .contract k ∈ fs ∧ r.MarkedContract k.name

/-- Whether each of some frames runs safe code or lies in a contract that is marked as writing. -/
def Guarded (r : Registry) : List Frame → Prop
  | [] => True
  | f :: fs => (r.SafeFrame f ∨ r.InMarked (f :: fs)) ∧ Guarded r fs

theorem InMarked.cons (h : r.InMarked fs) (f : Frame) : r.InMarked (f :: fs) := by
  obtain ⟨k, hk, hmarked⟩ := h
  exact ⟨k, List.mem_cons_of_mem _ hk, hmarked⟩

theorem inMarked_block {a : Activation} : r.InMarked (.block a :: fs) ↔ r.InMarked fs := by
  refine ⟨fun ⟨k, hk, hmarked⟩ => ?_, fun h => h.cons _⟩
  rcases List.mem_cons.1 hk with heq | hk
  · cases heq
  · exact ⟨k, hk, hmarked⟩

/-- Which sections are still to run does not matter. -/
theorem InMarked.sections (h : r.InMarked (.contract k :: fs)) (ss : List BlockId) :
    r.InMarked (.contract { k with sections := ss } :: fs) := by
  obtain ⟨k', hk', hmarked⟩ := h
  rcases List.mem_cons.1 hk' with heq | hk'
  · cases heq
    exact ⟨_, List.mem_cons_self .., hmarked⟩
  · exact ⟨k', List.mem_cons_of_mem _ hk', hmarked⟩

/-- The sections of a contract are safe, or the contract is marked. -/
theorem Known.sections_safe (h : r.Known) {id : BlockId} (hname : r.qualified? k.name = some id)
    (hcontract : (r.block id).contract?.isSome) (hsections : k.sections = sectionsOf (r.block id)) :
    r.SafeFrame (.contract k) ∨ r.MarkedContract k.name := by
  obtain ⟨info, hinfo⟩ := Option.isSome_iff_exists.1 hcontract
  by_cases hwrite : info.canWrite = true
  · exact .inr ⟨id, info, hname, hinfo, hwrite⟩
  · refine .inl fun s hs => ?_
    rw [hsections, sectionsOf, List.mem_filterMap] at hs
    obtain ⟨x, -, hx⟩ := hs
    split at hx
    · rename_i f hf
      cases hx
      obtain ⟨hfunc, hout, hwrites⟩ :=
        h.now.sections id _ (Block.standing_of_contract? hinfo) x s hf
      exact hout.safe hfunc (by simpa using fun hs => hwrite (hwrites hs))
    · cases hx

end Registry

/-! ### Steps -/

section

variable {c : Context} {m m' : Machine}

/-- An instruction of a guarded block leaves guarded frames. -/
theorem Shift.guarded (hknown : c.registry.Known) {a : Activation}
    {above fs : List Frame} {i : Instr} (hi : i ∈ (c.block a.block).code)
    (h : c.registry.Guarded (.block a :: above)) {rest : List Frame}
    (hshift : Shift c i.op a (above ++ rest) fs) :
    ∃ above', fs = above' ++ rest ∧ c.registry.Guarded above' := by
  obtain ⟨ha, habove⟩ := h
  cases hshift with
  | stay => exact ⟨.block a :: above, rfl, ha, habove⟩
  | aim ts => exact ⟨.block { a with targets := ts } :: above, rfl, ha.imp_right fun hin =>
      (Registry.inMarked_block.1 hin).cons _, habove⟩
  | enter b hop =>
    refine ⟨.block b :: .block a :: above, rfl, ?_, ha, habove⟩
    exact ha.imp (fun hsafe => hsafe.starts (hknown.now.marks.code _ i hi) hop)
      fun hin => hin.cons _
  | leave => exact ⟨above, rfl, habove⟩
  | call k id hsections _ hname hcontract =>
    refine ⟨.contract k :: .block a :: above, rfl, ?_, ha, habove⟩
    exact (hknown.sections_safe hname hcontract hsections).imp_right fun hmarked =>
      ⟨k, List.mem_cons_self .., hmarked⟩

/-- **A step keeps the frames of a section guarded** until the section ends. -/
theorem Turn.guarded (hknown : c.registry.Known) {above rest : List Frame}
    (hm : m.outline = above ++ rest) (habove : above ≠ []) (h : c.registry.Guarded above)
    (hturn : Turn c m m') : ∃ above', m'.outline = above' ++ rest ∧ c.registry.Guarded above' := by
  obtain ⟨f, above, rfl⟩ := List.exists_cons_of_ne_nil habove
  rw [Machine.outline] at hm
  cases hturn with
  | instruction a fs i hframes _ hcode hshift =>
    rw [hframes] at hm
    obtain ⟨rfl, htail⟩ := List.cons.inj hm
    rw [htail] at hshift
    exact hshift.guarded hknown (a := a.bare) (Array.mem_of_getElem? hcode) h
  | leave a fs hframes _ houtline =>
    rw [hframes] at hm
    exact ⟨above, houtline.trans (List.cons.inj hm).2, h.2⟩
  | «section» k fs s ss b hframes hsections hblock _ houtline =>
    rw [hframes] at hm
    obtain ⟨rfl, htail⟩ := List.cons.inj hm
    refine ⟨.block b :: .contract { k with sections := ss } :: above, ?_, ?_⟩
    · rw [houtline, htail]
      rfl
    · -- hin | The contract call is safe by all its sections, or
      -- already inside of a block that is guarded.
      rcases h.1 with hsafe | hin
      · have hall : ∀ s' ∈ s :: ss, c.registry.arena.Safe s' := hsections ▸ hsafe
        obtain ⟨hs, hss⟩ := List.forall_mem_cons.1 hall
        exact ⟨.inl (show c.registry.arena.Safe b.block from hblock ▸ hs), .inl hss, h.2⟩
      · have hin' := hin.sections ss
        exact ⟨.inr (hin'.cons _), .inr hin', h.2⟩
  | finish k fs hframes _ houtline =>
    rw [hframes] at hm
    exact ⟨above, houtline.trans (List.cons.inj hm).2, h.2⟩

/-- The frames of a section are guarded as long as it runs. -/
theorem During.guarded (hknown : c.registry.Known) {m₀ : Machine} {above rest : List Frame}
    (hm₀ : m₀.outline = above ++ rest) (habove : c.registry.Guarded above)
    (h : During c rest.length m₀ m) :
    ∃ above', m.outline = above' ++ rest ∧ c.registry.Guarded above' := by
  induction h with
  | start => exact ⟨above, hm₀, habove⟩
  | @step m m' _ hactive hstep ih =>
    obtain ⟨above', hm, hguarded⟩ := ih
    have hlength : m.frames.length = above'.length + rest.length := by
      rw [← List.length_append, ← hm, Machine.outline, List.length_map]
    have hne : above' ≠ [] := by
      rintro rfl
      rw [List.length_nil] at hlength
      omega
    have hframes : m.frames ≠ [] := List.ne_nil_of_length_pos (by omega)
    exact (step_turn hstep hframes).guarded hknown hm hne hguarded

end

/-- **A writing extension is called by its name, or in a marked contract, while conditions run.** -/
theorem Session.conditions_write_by_name_or_in_marked_contract {s : Session} (hs : s.Reachable)
    {id f : BlockId} {info : ContractInfo} (hc : (s.registry.block id).contract? = some info)
    (hf : (s.registry.block id).objects.get? "conditions" = some (.func f))
    {allowance : Option Nat} {clock : Nat → Nat} {m₀ m : Machine}
    {a : Activation} {rest : List Frame} (hm₀ : m₀.frames = .block a :: rest) (ha : a.block = f)
    (h : During (s.context allowance clock) rest.length m₀ m)
    (hactive : rest.length < m.frames.length) {op : Op} (hop : nextOp? (s.context allowance clock) m
      = some op) {e : Extension}
    (he : (s.context allowance clock).callee? op = some e) (hwrite : e.canWrite = true) :
    (∃ name, op = .callExtend name) ∨ ∃ above k, m.outline = above ++ rest.map Frame.bare ∧
      .contract k ∈ above ∧ s.registry.MarkedContract k.name := by
  have hknown := hs.known
  have hsafe : s.registry.arena.Safe a.block :=
    ha ▸ hknown.now.safe_conditions (Block.standing_of_contract? hc) hf
  have hbegin : m₀.outline = [.block a.bare] ++ rest.map Frame.bare := by
    rw [Machine.outline, hm₀]
    rfl
  obtain ⟨above, hm, hguarded⟩ := During.guarded (c := s.context allowance clock) hknown hbegin
    ⟨.inl hsafe, trivial⟩ (by rwa [List.length_map])
  -- the instruction is one of the innermost block, which the section has put there
  unfold nextOp? at hop
  split at hop
  · rename_i b fs hframes hending
    obtain ⟨i, hcode, rfl⟩ := Option.map_eq_some_iff.1 hop
    cases above with
    | nil =>
      have hlength := congrArg List.length hm
      rw [Machine.outline, List.length_map, List.nil_append, List.length_map] at hlength
      omega
    | cons g above =>
      have hhead : Frame.block b.bare = g := by
        rw [Machine.outline, hframes] at hm
        exact (List.cons.inj hm).1
      subst hhead
      rcases hguarded.1 with hblock | ⟨k, hk, hmarked⟩
      · refine .inl ?_
        have hplaced := hknown.now.marks.code b.block i (Array.mem_of_getElem? hcode)
        cases hname : i.op with
        | callExtend name => exact ⟨name, rfl⟩
        | _ =>
          have hext : i.op.extension? = some e := by
            rw [hname] at he ⊢
            exact he
          rw [Arena.Safe.extension hblock hplaced hext] at hwrite
          cases hwrite
      · exact .inr ⟨_, k, hm, hk, hmarked⟩
  · cases hop

/-! ### Two conditions that write -/

/-- A machine in which a section has just been started. -/
def sectionMachine (id : BlockId) : Machine :=
  { heap := .empty, env := .empty, cost := 10000
    frames := [.block { block := id, slots := #[], base := 0, role := .section }] }

/-- Whether the instruction behind some steps is a call of an extension that passes a test. -/
def Exec.callsBehind (c : Context) (n : Nat) (m₀ : Machine) (p : Op → Extension → Bool) : Bool :=
  (stepsWithin c 0 n m₀).any fun m =>
    !m.frames.isEmpty && (nextOp? c m).any fun op => (c.callee? op).any (p op)

/-- A run that passes the check makes such a call. -/
theorem Exec.callsBehind_sound {c : Context} {n : Nat} {m₀ : Machine} {p : Op → Extension → Bool}
    (h : callsBehind c n m₀ p = true) : ∃ m op e, During c 0 m₀ m ∧ 0 < m.frames.length ∧
      nextOp? c m = some op ∧ c.callee? op = some e ∧ p op e = true := by
  obtain ⟨m, hm, h⟩ := (Option.any_eq_true _ _).1 h
  rw [Bool.and_eq_true] at h
  obtain ⟨op, hop, h'⟩ := (Option.any_eq_true _ _).1 h.2
  obtain ⟨e, he, hp⟩ := (Option.any_eq_true _ _).1 h'
  refine ⟨m, op, e, During.start.of_stepsWithin hm, ?_, hop, he, hp⟩
  exact List.length_pos_iff.2 (by simpa using h.1)

/-- Whether a contract has `conditions` in a block. -/
def Session.hasConditions (s : Session) (id f : BlockId) : Bool :=
  (s.registry.block id).contract?.isSome &&
    ((s.registry.block id).objects.get? "conditions").any fun v => match v with
      | .func g => g == f
      | _ => false

/-- The check finds the contract and its conditions. -/
theorem Session.hasConditions_sound {s : Session} {id f : BlockId}
    (h : s.hasConditions id f = true) :
    (∃ info, (s.registry.block id).contract? = some info) ∧
      (s.registry.block id).objects.get? "conditions" = some (.func f) := by
  rw [hasConditions, Bool.and_eq_true] at h
  refine ⟨Option.isSome_iff_exists.1 h.1, ?_⟩
  obtain ⟨v, hv, hf⟩ := (Option.any_eq_true _ _).1 h.2
  cases v with
  | func g =>
    rw [beq_iff_eq] at hf
    rw [hv, hf]
  | contract | ext | var | extVar => cases hf

/-- Whether an instruction calls an extension by its name. -/
def Op.isByName : Op → Bool
  | .callExtend _ => true
  | _ => false

namespace Launch

/-- A contract that writes, and one that calls it by its name in its conditions. -/
def callsWriter : Session := Session.writingHost.perform (.compile 1
  ("contract W \x7b action \x7b DBInsert() \x7d \x7d\n" ++
    "contract X \x7b conditions \x7b ExecContract(\"@1W\", \"\") \x7d action \x7b \x7d \x7d"))

/-- Conditions that call a contract by its name come to a write, and it is one in a marked
contract. -/
theorem callsWriter_writes_in_marked_contract :
    ∃ m op e, During (callsWriter.context none fun _ => 0) 0 (sectionMachine 4) m ∧
      nextOp? (callsWriter.context none fun _ => 0) m = some op ∧
      (callsWriter.context none fun _ => 0).callee? op = some e ∧ e.canWrite = true ∧
      ∃ above k, m.outline = above ++ [] ∧ .contract k ∈ above ∧
        callsWriter.registry.MarkedContract k.name := by
  have hreachable : callsWriter.Reachable := .perform _ (.new {} _ .empty .empty)
  obtain ⟨hhas, hcalls⟩ : callsWriter.hasConditions 3 4 = true ∧
      callsBehind (callsWriter.context none fun _ => 0) 5 (sectionMachine 4)
        (fun op e => e.canWrite && !op.isByName) = true := by
    simp only [callsWriter, Session.perform_compile, String.toList_append, String.reduceToList]
    decide +kernel
  obtain ⟨⟨info, hinfo⟩, hconditions⟩ := Session.hasConditions_sound hhas
  obtain ⟨m, op, e, hduring, hactive, hop, he, hp⟩ := callsBehind_sound hcalls
  rw [Bool.and_eq_true] at hp
  refine ⟨m, op, e, hduring, hop, he, hp.1, ?_⟩
  have hwrites := Session.conditions_write_by_name_or_in_marked_contract
    hreachable hinfo hconditions
    (show (sectionMachine 4).frames = _ from rfl) rfl hduring hactive hop he hp.1
  refine hwrites.resolve_left ?_
  rintro ⟨name, rfl⟩
  exact absurd hp.2 Bool.false_ne_true

/-- A contract that calls a writing extension by its name in its conditions. -/
def writesByName : Session := Session.writingHost.perform (.compile 1
  "contract X \x7b conditions \x7b $result = $DBWrite(5) \x7d action \x7b \x7d \x7d")

/-- **Conditions can write**: the unit is accepted, the conditions come to a call of a writing
extension, and what the extension answers is the contract's result. -/
theorem conditions_write_by_name :
    writesByName.Reachable ∧ (∃ info, (writesByName.registry.block 1).contract? = some info) ∧
      (writesByName.registry.block 1).objects.get? "conditions" = some (.func 2) ∧
      (∃ m op e, During (writesByName.context none fun _ => 0) 0 (sectionMachine 2) m ∧
        0 < m.frames.length ∧ nextOp? (writesByName.context none fun _ => 0) m = some op ∧
        (writesByName.context none fun _ => 0).callee? op = some e ∧ e.canWrite = true) ∧
      ∃ v, (Run.contract writesByName.registry 1 "X" .empty .empty .empty).result = .ok v ∧
        v.text .empty = "5" := by
  obtain ⟨hhas, hcalls, hresult⟩ : writesByName.hasConditions 1 2 = true ∧
      callsBehind (writesByName.context none fun _ => 0) 3 (sectionMachine 2)
        (fun _ e => e.canWrite) = true ∧
      ((Run.contract writesByName.registry 1 "X" .empty .empty .empty).result.toOption.any
        fun v => v.text .empty == "5") = true := by
    simp only [writesByName, Session.perform_compile, String.reduceToList]
    decide +kernel
  have hconditions := Session.hasConditions_sound hhas
  refine ⟨.perform _ (.new {} _ .empty .empty), hconditions.1, hconditions.2,
    callsBehind_sound hcalls, ?_⟩
  obtain ⟨v, hv, htext⟩ := (Option.any_eq_true _ _).1 hresult
  refine ⟨v, ?_, by simpa using htext⟩
  -- The test says that the contract ends with `5`, the value of its write.
  cases hrun : (Run.contract writesByName.registry 1 "X" .empty .empty .empty).result with
  | error e =>
    rw [hrun] at hv
    cases hv
  | ok w =>
    rw [hrun] at hv
    cases hv
    rfl

end Launch

end Covenant
