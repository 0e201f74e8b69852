import Covenant.Proofs.Compile.Callees
import Covenant.Proofs.Machine.Acyclic
import Covenant.Proofs.Machine.Collecting
import Covenant.Proofs.Machine.Evaluation

/-!
# Chained calls

A call `f(a).S(b).T(c)` evaluates the arguments of `f`, puts down an operand for those of its
segments, collects the arguments of one segment after the other in it, and calls. The arguments can
be anything that pushes one value each (`Evaluates`), other chained calls among it. `Collected` says
how far a call has come, and `Gathers` what is known then: the operands that were there are
untouched, and what is held for the segments is in new cells that nothing else leads to, so that
evaluating further arguments does not change it (`Evaluates.keeps`). A step lemma for each
instruction of the call (`gathers_opened`, `Gathers.collect`) gives what a whole call has gathered
(`Collected.gathers`), and from this the call starts the function (`routes_of_faces`).

The operand is put down for every call of a function with segments but for those that stand directly
behind a segment and have no instruction for their own arguments. So all other calls in a host's
code are routed (`Session.Reachable.routes`), and one of those takes the operand of the call around
it (`segment_in_segment_takes_operand`).
-/

namespace Covenant

open Covenant.Computation Compile Exec

variable {c : Context} {l : Launch} {m₀ m m₁ m' : Machine} {q : Option Request}

namespace Exec

/-! ### Arguments -/

/-- Whether a machine is some instructions further on than another one, with as many frames
around. -/
structure Past (m : Machine) (n : Nat) (m' : Machine) : Prop where
  ending : m'.ending = none
  frames : ∃ a a' rest rest', m.frames = .block a :: rest ∧ m'.frames = .block a' :: rest' ∧
    a'.block = a.block ∧ a'.pc = a.pc + n ∧ rest'.length = rest.length

namespace Past

theorem depth {n : Nat} (h : Past m n m') : m'.frames.length = m.frames.length := by
  obtain ⟨-, a, a', rest, rest', hm, hm', -, -, hlength⟩ := h
  rw [hm, hm', List.length_cons, List.length_cons, hlength]

/-- Behind some of the instructions that come next, the others come next. -/
theorem faces {us vs : List Op} (h : Past m us.length m') (hm : m.Faces c (us ++ vs)) :
    m'.Faces c vs := by
  obtain ⟨hending, a, a', rest, rest', hm₁, hm', hblock, hpc, -⟩ := h
  obtain ⟨b, fs, hm₂, -, post, hpost⟩ := hm
  cases hm₁.symm.trans hm₂
  refine ⟨a', rest', hm', hending, post, ?_⟩
  have hdrop := congrArg (List.drop us.length) hpost
  rw [hblock, hpc]
  rwa [List.append_assoc, List.drop_left, List.drop_drop] at hdrop

end Past

/-- Whether the code of an expression is run so that it pushes one value: no operands are taken that
were there, no frames are left that were active, and the machine is behind the code. -/
structure Pushes (c : Context) (os : List Op) (m : Machine) (v : Value) (m' : Machine) : Prop where
  aloft : Aloft c m.frames.length m.stack.size m m'
  past : Past m os.length m'
  stack : m'.stack = m.stack.push v

/-- Whether the code of some arguments is run so that each pushes one value. -/
inductive Evaluates (c : Context) : List Phrase → Machine → List Value → Machine → Prop
  | nil (m : Machine) : Evaluates c [] m [] m
  | cons {e : Phrase} {es : List Phrase} {m m₁ m' : Machine} {v : Value} {vs : List Value} :
      Pushes c e.ops m v m₁ → Evaluates c es m₁ vs m' → Evaluates c (e :: es) m (v :: vs) m'

namespace Evaluates

variable {es : List Phrase} {vs : List Value} {K : Ref → Prop}

theorem length (h : Evaluates c es m vs m') : vs.length = es.length := by
  induction h with
  | nil => rfl
  | cons _ _ ih => exact congrArg (· + 1) ih

theorem stack (h : Evaluates c es m vs m') : m'.stack = m.stack ++ vs.toArray := by
  induction h with
  | nil => simp
  | cons hpushes _ ih => simp [ih, hpushes.stack]

theorem depth (h : Evaluates c es m vs m') : m'.frames.length = m.frames.length := by
  induction h with
  | nil => rfl
  | cons hpushes _ ih => exact ih.trans hpushes.past.depth

theorem aloft (h : Evaluates c es m vs m') : Aloft c m.frames.length m.stack.size m m' := by
  induction h with
  | nil => exact .start
  | cons hpushes _ ih =>
    rw [hpushes.past.depth] at ih
    exact hpushes.aloft.trans ih (by simp [hpushes.stack])

theorem faces (h : Evaluates c es m vs m') {rest : List Op} (hm : m.Faces c (opsAll es ++ rest)) :
    m'.Faces c rest := by
  induction h with
  | nil => exact hm
  | cons hpushes _ ih =>
    rw [opsAll, List.append_assoc] at hm
    exact ih (hpushes.past.faces hm)

/-- **Arguments do not come to cells that only operands below them lead to.** -/
theorem keeps (hhosts : ∀ e, c.registry.Offers e → e.Discreet) (h : Evaluates c es m vs m')
    (hm : m.Has (Value.Apart K m.heap) m.stack.size) :
    (∀ r, K r → m'.heap.cells[r]? = m.heap.cells[r]?) ∧ m.heap.cells.size ≤ m'.heap.cells.size ∧
      m'.Has (Value.Apart K m'.heap) m.stack.size ∧ m'.spots = m.spots := by
  -- Whatever runs meanwhile, calls included, stays above the frames and operands that were there.
  have hspares := h.aloft.spares hhosts hm (Nat.le_refl _)
  obtain ⟨inner, hspots, -⟩ := hspares.spots
  have hnil := hspares.has.nil
  have hagain : ∀ v : Value, v.Apart K m.heap m'.heap → v.Apart K m'.heap m'.heap :=
    fun v hv => .start (fun r hr => (hv.kept r hr).1) hv.avoids
  refine ⟨fun r hr => (hnil.kept r hr).2, hnil.size, hspares.has.imp hagain, ?_⟩
  -- As many frames are active as before, so those inside of the ones that were there have ended.
  have hlength := congrArg List.length hspots
  rw [List.length_append, m'.length_spots, m.length_spots, h.depth] at hlength
  rw [hspots, List.length_eq_zero_iff.1 (by omega : inner.length = 0), List.nil_append]

end Evaluates

/-! ### Collecting -/

/-- Whether a call has come to where the arguments of the function itself and those of some segments
have been evaluated and collected. -/
inductive Collected (c : Context) (args : List Phrase) (m₀ : Machine) (vs : List Value) :
    List (Token × List Phrase) → List (String × List Value) → Machine → Prop
  | opened {m m' : Machine} : Evaluates c args m₀ vs m → step c m = .ok () m' →
    Collected c args m₀ vs [] [] m'
  | segment {done : List (Token × List Phrase)} {named : List (String × List Value)}
    {m m₁ m' : Machine}
      {name : Token} {es : List Phrase} {ws : List Value} : Collected c args m₀ vs done named m →
      Evaluates c es m ws m₁ → step c m₁ = .ok () m' →
      Collected c args m₀ vs (done ++ [(name, es)]) (named ++ [(nameOf name, ws)]) m'

/-- What is known of a machine when a call has collected some arguments: above the operands that
were there are the arguments of the function and the operand that holds those of segments, and
nothing else leads to the cells that they are held in, which are new. -/
structure Gathers (m₀ : Machine) (vs : List Value) (named : List (String × List Value))
    (operand : Value) (K : Ref → Prop) (m : Machine) : Prop where
  stack : m.stack = (m₀.stack ++ vs.toArray).push operand
  held : Holding K m.heap operand named
  has : m.Has (Value.Apart K m.heap) m.stack.size
  fresh : ∀ r, K r → m₀.heap.cells.size ≤ r
  size : m₀.heap.cells.size ≤ m.heap.cells.size
  spots : m.spots = m₀.spots

/-- Whether there is a list of values for each of some segments, one value for each argument. -/
def Fills (done : List (Token × List Phrase)) (named : List (String × List Value)) : Prop :=
  List.Forall₂ (fun p q => q.1 = nameOf p.1 ∧ q.2.length = p.2.length) done named

theorem Fills.names {done : List (Token × List Phrase)} {named : List (String × List Value)}
    (h : Fills done named) :
    named.map Prod.fst = done.map fun p => nameOf p.1 := by
  induction h with
  | nil => rfl
  | cons hpq _ ih => rw [List.map_cons, List.map_cons, ih, hpq.1]

/-- A segment that is not called twice has not been collected before. -/
theorem Fills.not_mem {done rest : List (Token × List Phrase)} {named : List (String × List Value)}
    {name : Token} {es : List Phrase} (h : Fills done named)
    (hnodup : ((done ++ (name, es) :: rest).map fun p => nameOf p.1).Nodup) :
    nameOf name ∉ named.map Prod.fst := by
  intro hmem
  rw [h.names] at hmem
  rw [List.map_append, List.nodup_append] at hnodup
  obtain ⟨-, -, hdisjoint⟩ := hnodup
  exact hdisjoint _ hmem _ (List.mem_cons_self ..) rfl

/-- Each list of values is that of a segment. -/
theorem Fills.exists_of_mem {done : List (Token × List Phrase)} {named : List (String × List Value)}
    (h : Fills done named) {q : String × List Value} (hq : q ∈ named) :
    ∃ p ∈ done, q.1 = nameOf p.1 ∧ q.2.length = p.2.length := by
  obtain ⟨i, hi, rfl⟩ := List.getElem_of_mem hq
  obtain ⟨hlength, hall⟩ := List.forall₂_iff_get.1 h
  exact ⟨_, List.getElem_mem (hlength ▸ hi), hall i (hlength ▸ hi) hi⟩

section gathering

variable {args es : List Phrase} {vs ws : List Value} {named : List (String × List Value)}
  {operand : Value}
  {K : Ref → Prop} {name : Token} {tail : List Op}

theorem has_of_bounded (hm₀ : m₀.Has Value.Bounded) :
    m₀.Has (Value.Apart (fun _ => False) m₀.heap) m₀.stack.size := by
  have hall : m₀.Has (Value.Apart (fun _ => False) m₀.heap) :=
    hm₀.imp fun v hv => .start (fun _ h => h.elim) hv
  exact { hall with stack := fun v hv => hall.stack v (List.drop_subset _ _ hv) }

/-- The operand for segments is put down. -/
theorem gathers_opened (hhosts : ∀ e, c.registry.Offers e → e.Discreet) (hm₀ : m₀.Has Value.Bounded)
    (hargs : Evaluates c args m₀ vs m) :
    Gathers m₀ vs [] .nil (fun _ => False) (m.behind 1 m.heap (m.stack.push .nil)) := by
  obtain ⟨-, hsize, hhas, hspots⟩ := hargs.keeps hhosts (has_of_bounded hm₀)
  exact {
    stack := by rw [← hargs.stack]; rfl
    held := .none
    has := hhas.behind (fun _ hv => hv) 1
    fresh := nofun
    size := hsize
    spots := (m.spots_behind ..).trans hspots }

/-- The arguments of another segment are collected. -/
theorem Gathers.collect (hhosts : ∀ e, c.registry.Offers e → e.Discreet)
    (h : Gathers m₀ vs named operand K m) (hname : nameOf name ∉ named.map Prod.fst)
    (hes : Evaluates c es m ws m₁) :
    let collected := m₁.heap.collect operand (nameOf name) ws
    Gathers m₀ vs (named ++ [(nameOf name, ws)]) collected.1 (Heap.added K m₁.heap collected.2)
        (m₁.behind 1 collected.2 ((m₀.stack ++ vs.toArray).push collected.1)) ∧
      perform c (collecting name es) (ticked m₁)
        = .ok () (m₁.behind 1 collected.2 ((m₀.stack ++ vs.toArray).push collected.1)) ∧
      ∀ r < m₁.heap.cells.size,
        collected.2.cells[r]? = m₁.heap.cells[r]? ∨ operand = .map r ∧ m₀.heap.cells.size ≤ r := by
  intro collected
  obtain ⟨hkept, hsize, hhas, hspots⟩ := hes.keeps hhosts h.has
  have hheld := h.held.congr hkept
  have hK : ∀ r, K r → r < m₁.heap.cells.size := fun r hr => (hhas.nil.kept r hr).1
  obtain ⟨hholding, hgrown, hcells⟩ := Heap.holding_collect hheld hK hname ws
  have hstack : m₁.stack = (m₀.stack ++ vs.toArray).push operand ++ ws.toArray := by
    rw [hes.stack, h.stack]
  -- Three parts: what holds behind the collection, that the
  -- instruction does it, and which cells differ.
  refine ⟨?_, ?_, fun r hr => ?_⟩
  · refine {
      stack := rfl, held := hholding, has := ?_, fresh := fun r hr => ?_, size := ?_, spots := ?_ }
    · refine hhas.behind (fun v hv => .start (fun r hr => ?_) (hv.avoids.added fun r hr hnot =>
        hcells r hr fun hmap => hnot (hheld.of_map hmap))) 1
      exact hr.elim (fun hr => Nat.lt_of_lt_of_le (hK r hr) hgrown) And.right
    · exact hr.elim (h.fresh r) fun hr => (h.size.trans hsize).trans hr.1
    · exact (h.size.trans hsize).trans hgrown
    · exact (m₁.spots_behind ..).trans (hspots.trans h.spots)
  · rw [collecting, ← hes.length]
    exact perform_collect c (nameOf name) hheld.shape hstack
  · -- The map is written only when it is the operand already; it is younger than the call.
    by_cases hmap : operand = .map r
    · exact .inr ⟨hmap, h.fresh r (hheld.of_map hmap)⟩
    · exact .inl (hcells r hr hmap)

/-- **What a call has gathered**, however it has come to where some of its segments have been
collected: their arguments are held where the operand says, and what is left of its code comes
next. -/
theorem Collected.gathers (hhosts : ∀ e, c.registry.Offers e → e.Discreet)
    (hm₀ : m₀.Has Value.Bounded) {segments done : List (Token × List Phrase)}
    (hnodup : (segments.map fun p => nameOf p.1).Nodup)
    (hfaces : m₀.Faces c (opsAll args ++ .push .nil :: (opsChained segments ++ tail)))
    (h : Collected c args m₀ vs done named m) : ∀ rest, segments = done ++ rest →
      (∃ operand K, Gathers m₀ vs named operand K m) ∧ m.Faces c (opsChained rest ++ tail) ∧
        Fills done named := by
  -- Over the segments collected so far; the code that is left is what carries it to the next one.
  induction h with
  | @opened m m' hargs hstep =>
    rintro _ rfl
    have hpush : m.Faces c (.push .nil :: (opsChained segments ++ tail)) := hargs.faces hfaces
    obtain rfl := eq_of_perform hpush (perform_push c .nil m) hstep
    exact ⟨⟨_, _, gathers_opened hhosts hm₀ hargs⟩, hpush.tail _ _, .nil⟩
  | @segment done named m m₁ m' name es ws hcollected hes hstep ih =>
    rintro rest rfl
    obtain ⟨⟨operand, K, hgathers⟩, hm, hfills⟩ := ih ((name, es) :: rest) (List.append_assoc ..)
    have hm₁ : m₁.Faces c (collecting name es :: (opsChained rest ++ tail)) := by
      refine hes.faces ?_
      rw [opsChained, List.append_assoc, List.append_assoc] at hm
      exact hm
    have hnames : ((done ++ (name, es) :: rest).map fun p => nameOf p.1).Nodup := by
      rwa [List.append_assoc] at hnodup
    obtain ⟨hgathers', hperform, -⟩ := hgathers.collect hhosts (hfills.not_mem hnames) hes
    obtain rfl := eq_of_perform hm₁ hperform hstep
    exact ⟨⟨_, _, hgathers'⟩, hm₁.tail _ _, List.rel_append hfills (.cons ⟨rfl, hes.length⟩ .nil)⟩

theorem Collected.length {done : List (Token × List Phrase)}
    (h : Collected c args m₀ vs done named m) :
    vs.length = args.length := by
  induction h with
  | opened hargs _ => exact hargs.length
  | segment _ _ _ ih => exact ih

end gathering

/-! ### Routing -/

open Compile in
/-- The number of instructions at the end of a call, which tell the function the number of its
arguments if it collects what is left of them, and call. -/
def lastSteps (id : BlockId) (f : FuncInfo) (count : Nat) : Nat :=
  (Ending.of (.func id) f.variadic count).counting.length + 1

/-- What a call of a function with segments does from a machine in front of it, if each of its
arguments pushes one value. -/
structure Routes (c : Context) (id : BlockId) (f : FuncInfo) (gs : Dict Segment)
    (args : List Phrase) (segments : List (Token × List Phrase)) (m₀ : Machine) : Prop where
  /-- Behind the arguments of the function the operand for those of segments is put down. -/
  opens {vs : List Value} {m : Machine} : Evaluates c args m₀ vs m → Onward c 1 m fun m' =>
    m'.stack = (m₀.stack ++ vs.toArray).push .nil ∧ m'.heap = m.heap
  /-- Behind the arguments of a segment these are taken, and no cell is changed but the map that
  holds the arguments of other segments, which was not there before the call. -/
  collects {vs ws : List Value} {done : List (Token × List Phrase)}
    {named : List (String × List Value)} {m m₁ : Machine} {name : Token} {es : List Phrase} :
    Collected c args m₀ vs done named m →
    done ++ [(name, es)] <+: segments → Evaluates c es m ws m₁ → Onward c 1 m₁ fun m' =>
      ∃ operand operand', m.stack = (m₀.stack ++ vs.toArray).push operand ∧
        m'.stack = (m₀.stack ++ vs.toArray).push operand' ∧ ∀ r < m₁.heap.cells.size,
          m'.heap.cells[r]? = m₁.heap.cells[r]? ∨ operand = .map r ∧ m₀.heap.cells.size ≤ r
  /-- A call that takes place starts the function with the values of its arguments and of those of
  its segments. -/
  starts {vs : List Value} {named : List (String × List Value)} {m m' : Machine} :
    Collected c args m₀ vs segments named m → steps c (lastSteps id f args.length) m = .ok () m' →
    Fills segments named ∧ m.spots = m₀.spots ∧ m.Starts c id f gs m₀.stack vs named m'
  /-- Only a limit stops a call whose arguments the parameters accept. -/
  proceeds {vs : List Value} {named : List (String × List Value)} {m : Machine} :
    Collected c args m₀ vs segments named m → Accepts f.variadic f.params (m.passed f.variadic vs) →
    (∀ p ∈ named, ∃ t, gs.get? p.1 = some t ∧ Accepts t.variadic t.params p.2) →
    Onward c (lastSteps id f args.length) m fun _ => True

section starting

variable {id : BlockId} {f : FuncInfo} {g : Signature} {gs : Dict Segment}
  {head : Token} {args : List Phrase}
  {segments : List (Token × List Phrase)} {vs : List Value} {named : List (String × List Value)}
  {operand : Value}
  {K : Ref → Prop}

theorem Fills.takes (h : Fills segments named)
    (hsegments : ∀ p ∈ segments, ∃ t, gs.get? (nameOf p.1) = some t ∧ t.takes p.2.length = true) :
    ∀ q ∈ named, ∃ t, gs.get? q.1 = some t ∧ t.takes q.2.length = true := by
  intro q hq
  obtain ⟨p, hp, hname, hlength⟩ := h.exists_of_mem hq
  rw [hname, hlength]
  exact hsegments p hp

/-- From where everything has been gathered, the call starts the function with it. -/
theorem Gathers.starts (hm : Gathers m₀ vs named operand K m) (hf : (c.block id).func? = some f)
    (hgs : f.segments = some gs) (hlayout : g.Layout f (c.block id))
    (hnamed : ∀ q ∈ named, ∃ t, gs.get? q.1 = some t ∧ t.takes q.2.length = true)
    (hfixed : f.variadic = false → vs.length = f.params.length) {n : Nat}
    (hcall : callFunc c id (counted f.variadic vs.length) (ticked (m.behind n m.heap m.stack))
      = .ok () m') :
    m.Starts c id f gs m₀.stack vs named m' := by
  obtain ⟨hstack, hheap, henv, slots, rest, hframes, hspots, hrouted⟩ :=
    callFunc_eq_ok (m := ticked (m.behind n m.heap m.stack)) hf hgs hm.stack hm.held
      hlayout hnamed hfixed hcall
  exact ⟨hstack, hheap, henv, slots, rest, hframes, hspots.trans (m.spots_behind n m.heap m.stack),
    hrouted⟩

/-- **Arguments go where they belong**: a call that puts down the operand for its segments routes
them. -/
theorem routes_of_faces (hhosts : ∀ e, c.registry.Offers e → e.Discreet)
    (hm₀ : m₀.Has Value.Bounded) (hf : (c.block id).func? = some f) (hgs : f.segments = some gs)
    (hlayout : g.Layout f (c.block id)) (htakes : f.takes args.length = true) (hcount : f.variadic
      = true → args.length < 2 ^ 64)
    (hnodup : (segments.map fun p => nameOf p.1).Nodup)
    (hsegments : ∀ p ∈ segments, ∃ t, gs.get? (nameOf p.1) = some t ∧ t.takes p.2.length = true)
    (hfaces : m₀.Faces c
      (Phrase.ops (.call head [] args [.nil] segments (.of (.func id) f.variadic args.length)))) :
    Routes c id f gs args segments m₀ := by
  have hcode : m₀.Faces c (opsAll args ++ .push .nil :: (opsChained segments ++
      ((Ending.of (.func id) f.variadic args.length).counting ++
        [(Ending.of (.func id) f.variadic args.length).op]))) := by
    simpa only [Phrase.ops, pushes, List.map_nil, List.map_cons, List.nil_append, List.append_assoc,
      List.singleton_append, List.cons_append] using hfaces
  have hfixed : f.variadic = false → args.length = f.params.length := fun hv => by
    rw [FuncInfo.takes, hv] at htakes
    exact beq_iff_eq.1 htakes
  have hgathers : ∀ {vs done named m} rest, Collected c args m₀ vs done named m →
    segments = done ++ rest → _ :=
    fun rest h => h.gathers hhosts hm₀ hnodup hcode rest
  -- Behind the last segment nothing but the call is left of the code.
  have hlast : ∀ {vs named m}, Collected c args m₀ vs segments named m → ∃ operand K,
      Gathers m₀ vs named operand K m ∧ Fills segments named ∧
        (steps c (lastSteps id f args.length) m = callFunc c id (counted f.variadic vs.length)
            (ticked (m.behind (lastSteps id f args.length - 1) m.heap m.stack)) ∨
          StopsLimited c (steps c (lastSteps id f args.length)) m) := by
    intro vs named m h
    obtain ⟨⟨operand, K, hm⟩, hfaces, hfills⟩ := hgathers [] h (List.append_nil _).symm
    rw [h.length]
    exact ⟨operand, K, hm, hfills, steps_calls hcount hfaces⟩
  refine ⟨fun {vs m} hargs => ?opens,
    fun {vs ws done named m m₁ name es} h hprefix hes => ?collects, fun {vs named m m'} h hsteps =>
    ?starts, fun {vs named m} h hvs hnamed => ?proceeds⟩
  case opens =>
    refine onward_of_perform (hargs.faces hcode) (perform_push c .nil m) ⟨?_, rfl⟩
    rw [← hargs.stack]
    rfl
  case collects =>
    obtain ⟨rest, hrest⟩ := hprefix
    have hsplit : segments = done ++ (name, es) :: rest := by rw [← hrest, List.append_assoc]; rfl
    obtain ⟨⟨operand, K, hm⟩, hfaces, hfills⟩ := hgathers _ h hsplit
    obtain ⟨-, hperform, hcells⟩ := hm.collect hhosts (hfills.not_mem (hsplit ▸ hnodup)) hes
    rw [opsChained, List.append_assoc, List.append_assoc] at hfaces
    exact onward_of_perform (hes.faces hfaces) hperform ⟨operand, _, hm.stack, rfl, hcells⟩
  case starts =>
    obtain ⟨operand, K, hm, hfills, hcall | ⟨f', m'', -, hfail⟩⟩ := hlast h
    · exact ⟨hfills, hm.spots, hm.starts hf hgs hlayout (hfills.takes hsegments) (by rwa [h.length])
        (hcall.symm.trans hsteps)⟩
    · cases hfail.symm.trans hsteps
  case proceeds =>
    obtain ⟨operand, K, hm, hfills, hcall | hstop⟩ := hlast h
    · rw [Onward, StopsLimited, hcall]
      refine (callFunc_of_accepts
        (m := ticked (m.behind (lastSteps id f args.length - 1) m.heap m.stack)) hf hgs
        hm.stack hm.held hlayout hvs (by rwa [h.length]) hnamed).imp_left fun hm' => ?_
      obtain ⟨m', hm'⟩ := hm'
      exact ⟨m', hm', trivial⟩
    · exact .inr hstop

end starting

end Exec

/-! ### Calls in a host's code -/

namespace Compile.Ending

/-- What a call calls, if that is known to the compiler. -/
def callee? : Ending → Option Callee
  | fixed f => some f
  | counted f _ => some f
  | named _ _ => none

end Compile.Ending

/-- Whether a call stands at a position of the code of some passages, behind some code of its own
expression. -/
def Compile.CallAt (ts : List Passage) (pos : Nat) (front : List Op) (u : Phrase) : Prop :=
  ∃ us t vs, ts = us ++ t :: vs ∧ (front, u) ∈ t.sites ∧
    pos = (us.flatMap Passage.ops ++ front).length

/-- Whether the innermost block is at a position of some block's code, and is not about to end. -/
def Machine.At (m : Machine) (id : BlockId) (pos : Nat) : Prop :=
  m.ending = none ∧ ∃ a rest, m.frames = .block a :: rest ∧ a.block = id ∧ a.pc = pos

/-- The instructions of a call come next where it stands. -/
theorem Machine.At.faces {id : BlockId} {ts : List Passage} {pos : Nat}
    {front : List Op} {u : Phrase} (hat : m.At id pos) (hcall : CallAt ts pos front u)
    (hts : ts.flatMap Passage.ops = (c.block id).ops) :
    m.Faces c u.ops := by
  obtain ⟨hending, a, rest, hframes, rfl, rfl⟩ := hat
  obtain ⟨us, t, vs, rfl, hsite, hpos⟩ := hcall
  refine ⟨a, rest, hframes, hending, ?_⟩
  obtain ⟨post, hpost⟩ := Passage.ops_of_mem_sites hsite
  rw [List.flatMap_append, List.flatMap_cons, ← hpost, List.append_assoc, List.append_assoc,
    ← List.append_assoc] at hts
  rw [show Structured.opsOf (c.block a.block).code = (c.block a.block).ops from rfl,
    ← hts, hpos, List.drop_left]
  exact List.prefix_append ..

/-- The instructions of a call in a host's code come next where it stands. -/
theorem Machine.At.faces_session {s : Session} {id : BlockId} {ts : List Passage}
    {pos : Nat} {front : List Op} {u : Phrase} (hat : m.At id pos) (hcall : CallAt ts pos front u)
    (hts : MadeOf (s.registry.block id).ops ts) (allowance : Option Nat) (clock : Nat → Nat) :
    m.Faces (s.context allowance clock) u.ops :=
  hat.faces hcall hts.ops

/-- A machine with nothing but an environment has references to cells that are there. -/
theorem Machine.has_bounded {heap : Heap} {env : Dict Value} {cost : Int}
    (henv : ∀ v ∈ env.values, v.Bounded heap) :
    Machine.Has Value.Bounded { heap := heap, env := env, cost := cost } where
  nil := .of_ref?_eq_none rfl
  stack _ hv := absurd hv List.not_mem_nil
  frames _ hf := absurd hf List.not_mem_nil
  env := Dict.all_iff_forall_values.2 henv

/-- The functions of a session. -/
def Session.functions (s : Session) (id : BlockId) : Option FuncInfo := (s.registry.block id).func?

/-- A call of a function with segments has an operand for them, if it does not stand directly behind
a segment without any instruction for its arguments. -/
theorem Compile.Phrase.FitsAt.puts_down {v : Outlook} {front : List Op} {head : Token}
    {start back : List Constant} {args : List Phrase} {segments : List (Token × List Phrase)}
    {ending : Ending} {g : BlockId} {f : FuncInfo} {gs : Dict Segment}
    (h : Phrase.FitsAt v front (.call head start args back segments ending))
    (hcallee : ending.callee? = some (.func g)) (hf : v.signatures g = some f)
    (hgs : f.segments = some gs) (hkeeps : ¬ (opsAll args = [] ∧ collectsLast front = true)) :
    start = [] ∧ back = [.nil] ∧ ending = .of (.func g) f.variadic args.length ∧
    f.takes args.length = true := by
  cases h with
  | @func x g' f' args back segments _ hf' htakes hcollects =>
    have hg : g' = g := by
      unfold Ending.of at hcallee
      split at hcallee <;> exact Callee.func.inj (Option.some.inj hcallee)
    subst hg
    cases hf.symm.trans hf'
    obtain ⟨rfl | ⟨rfl, hnone⟩, -⟩ := (collects_iff hgs).1 hcollects.collects
    · exact ⟨rfl, rfl, rfl, htakes⟩
    · exact absurd ⟨hnone, hcollects.missing (by rw [hgs]; rfl) rfl⟩ hkeeps
  | @ext x e front' back args count =>
    unfold Ending.of at hcallee
    split at hcallee <;> cases hcallee
  | named => cases hcallee

/-- A call of a function with segments in the code of a block: how the code is read, where the call
stands in it, what it is made of, and the function. The compiler has checked the calls that are read
(`suits`); the arguments of the call fit, and it calls each segment at most once. -/
structure Session.ChainedCall (s : Session) (id : BlockId) where
  passages : List Passage
  pos : Nat
  front : List Op
  head : Token
  start : List Constant
  args : List Phrase
  back : List Constant
  segments : List (Token × List Phrase)
  ending : Ending
  callee : BlockId
  info : FuncInfo
  signatures : Dict Segment
  made : MadeOf (s.registry.block id).ops passages
  suits : ∀ t ∈ passages, ∃ finds, Suits ⟨finds, s.functions⟩ t.sites
  stands : CallAt passages pos front (.call head start args back segments ending)
  calls : ending.callee? = some (.func callee)
  function : s.functions callee = some info
  segmented : info.segments = some signatures
  /-- It does not stand directly behind a segment, or its own arguments have instructions. -/
  apart : ¬ (opsAll args = [] ∧ collectsLast front = true)
  countable : info.variadic = true → args.length < 2 ^ 64
  once : (segments.map fun p => nameOf p.1).Nodup
  fits : ∀ p ∈ segments, ∃ t, signatures.get? (nameOf p.1) = some t ∧ t.takes p.2.length = true

/-- What a run of a host relies on: its functions are discreet, and the values that it gives to the
run refer to nothing but cells that are there. -/
structure Session.Execution.Sound {s : Session} (x : s.Execution) : Prop where
  hosts : ∀ e, s.registry.Offers e → e.Discreet
  env : ∀ v ∈ x.env.values, v.Bounded x.heap
  params : ∀ v ∈ x.launch.values, v.Bounded x.heap

/-- References of a run are to cells that are there. -/
theorem Session.Execution.Sound.bounded {s : Session} {x : s.Execution} (hx : x.Sound) :
    x.machine.Has Value.Bounded :=
  x.transition.bounded hx.hosts (Machine.has_bounded hx.env) hx.params

/-- What the compiler has checked of the call itself. -/
theorem Session.ChainedCall.fitsAt {s : Session} {id : BlockId} (u : s.ChainedCall id) : ∃ finds,
    Phrase.FitsAt ⟨finds, s.functions⟩ u.front
      (.call u.head u.start u.args u.back u.segments u.ending) := by
  obtain ⟨us, t, vs, hpassages, hsite, -⟩ := u.stands
  have hmem : t ∈ u.passages := by
    rw [hpassages]
    exact List.mem_append_right _ (List.mem_cons_self ..)
  obtain ⟨finds, hfinds⟩ := u.suits t hmem
  exact ⟨finds, hfinds _ hsite⟩

/-- **Chained calls route their arguments.** The code of a host's blocks can be read as expressions
whose calls fit the functions that they call. However it is read so: a call of a function with
segments, each of which it calls at most once and with arguments that fit, binds in every run the
values of its own arguments to the parameters of the function, those of the segments to theirs, and
leaves alone what is below, unless the call stands directly behind a segment and its own arguments
have no instruction. -/
theorem Session.Reachable.routes {s : Session} (hs : s.Reachable) (id : BlockId) :
    Served s.functions (s.registry.block id).ops ∧
      ∀ (u : s.ChainedCall id) (x : s.Execution), x.Sound → x.machine.At id u.pos →
        Routes x.context u.callee u.info u.signatures u.args u.segments x.machine := by
  refine ⟨hs.served id, fun u x hx hat => ?_⟩
  obtain ⟨finds, hfits⟩ := u.fitsAt
  obtain ⟨hstart, hback, hending, htakes⟩ := hfits.puts_down u.calls u.function u.segmented u.apart
  obtain ⟨signature, hlayout⟩ := hs.laidOut u.callee u.info u.function
  -- the call is the one that `routes_of_faces` is about: `nil`
  -- behind its own arguments, nothing in front
  have hcall := u.stands
  rw [hstart, hback, hending] at hcall
  exact routes_of_faces hx.hosts hx.bounded u.function u.segmented hlayout
    htakes u.countable u.once u.fits
    (hat.faces_session hcall u.made x.allowance x.clock)

/-! ### Runs -/

section runs

open Launch

/-- A phrase that is a number. -/
def Compile.number (n : Int64) : Phrase := .atom [] (.const (.int n))

/-- Whether the innermost block is at a position of some block's code, and is not about to end. -/
def Machine.isAt (m : Machine) (id : BlockId) (pos : Nat) : Bool :=
  match m.frames, m.ending with
  | .block a :: _, none => a.block == id && a.pc == pos
  | _, _ => false

theorem Machine.at_of_isAt {id : BlockId} {pos : Nat} (h : m.isAt id pos = true) : m.At id pos := by
  unfold isAt at h
  split at h
  · rename_i a rest hframes hending
    rw [Bool.and_eq_true] at h
    exact ⟨hending, a, rest, hframes, beq_iff_eq.1 h.1, beq_iff_eq.1 h.2⟩
  · cases h

namespace Exec

/-- Whether some steps can be made, and lead to a machine that passes a test. -/
def leadsTo (c : Context) (n : Nat) (p : Machine → Bool) (m : Machine) : Bool :=
  match steps c n m with
  | .ok _ m' => p m'
  | .error _ _ => false

theorem steps_of_leadsTo {n : Nat} {p : Machine → Bool} (h : leadsTo c n p m = true) :
    ∃ m', steps c n m = .ok () m' ∧ p m' = true := by
  unfold leadsTo at h
  split at h
  · exact ⟨_, ‹_›, h⟩
  · cases h

theorem steps_succ {n : Nat} (h : steps c (n + 1) m = .ok () m') :
    ∃ m₁, step c m = .ok () m₁ ∧ steps c n m₁ = .ok () m' := by
  obtain ⟨_, m₁, hstep, hsteps⟩ := bind_eq_ok h
  exact ⟨m₁, hstep, hsteps⟩

/-- A number is pushed. -/
theorem evaluates_number {k : Int64} {ops : List Op} (hfaces : m.Faces c (.push (.int k) :: ops))
    (hstep : step c m = .ok () m') : Evaluates c [number k] m [.int k] m' ∧ m'.Faces c ops := by
  obtain rfl := eq_of_perform hfaces (perform_push c (.int k) m) hstep
  refine ⟨.cons ⟨.step .start (fun op hop => ?_) hstep (Nat.le_of_eq ?_), ?_, rfl⟩ (.nil _),
    hfaces.tail _ _⟩
  · obtain ⟨a, rest, hframes, hending, post, hpost⟩ := hfaces
    obtain ⟨a', rest', i, hframes', -, hcode, rfl⟩ := nextOp?_eq_some hop
    cases hframes.symm.trans hframes'
    have hhead := congrArg List.head? hpost
    rw [List.head?_drop, Structured.opsOf, List.getElem?_map, Array.getElem?_toList, hcode] at hhead
    rw [← Option.some.inj hhead]
    exact Nat.le_refl _
  · rw [← Machine.length_spots, ← Machine.length_spots, Machine.spots_behind]
  · obtain ⟨a, rest, hframes, hending, -⟩ := hfaces
    exact ⟨hending, a, { a with pc := a.pc + 1 }, rest, rest, hframes,
      by rw [Machine.behind, hframes]; rfl, rfl, rfl, rfl⟩

end Exec

open Exec

/-- A session that calls a function with a segment. -/
def segmentCalled : Session := callingSession
  ("func g(a int).S(b int) int \x7b return a \x7d\nfunc main int \x7b return g(1).S(2) \x7d")

/-- How the code of its call is read. -/
def segmentRead : List Passage :=
  [.sentence {
    last := some (.call (.ident "g") [] [number 1] [.nil] [(.ident "S", [number 2])]
    (.fixed (.func 1))) }, .statement .return]

/-- Whether a function has a fixed number of parameters, and segments that take some numbers of
arguments. -/
def FuncInfo.hasSegments (f : FuncInfo) (count : Nat) (segments : List (String × Nat)) : Bool :=
  !f.variadic && f.takes count &&
    f.segments.any fun gs => segments.all fun p => (gs.get? p.1).any fun t => t.takes p.2

/-- What the check says of the header of a function. -/
theorem FuncInfo.of_hasSegments {f : FuncInfo} {count : Nat} {segments : List (String × Nat)}
    (h : f.hasSegments count segments = true) : f.variadic = false ∧ f.takes count = true ∧
      ∃ gs, f.segments = some gs ∧ ∀ p ∈ segments, ∃ t, gs.get? p.1 = some t ∧
      t.takes p.2 = true := by
  simp only [hasSegments, Bool.and_eq_true, Bool.not_eq_true', Option.any_eq_true,
    List.all_eq_true] at h
  obtain ⟨⟨hvariadic, htakes⟩, gs, hgs, hsegments⟩ := h
  exact ⟨hvariadic, htakes, gs, hgs, hsegments⟩

/-- A call of such a function fits. -/
theorem Compile.fitsAt_of_hasSegments {v : Outlook} {os : List Op} {x : String}
    {g : BlockId} {f : FuncInfo} {args : List Phrase} {back : List Constant}
    {segments : List (Token × List Phrase)} (hx : v.finds x = some (.func g))
    (hf : v.signatures g = some f) (h : f.hasSegments args.length (segments.map fun p =>
    (nameOf p.1, p.2.length)) = true) (hback : back = [.nil] ∨ (back = [] ∧ opsAll args = []) ∧
    collectsLast os = true) :
    Phrase.FitsAt v os (.call (.ident x) [] args back segments (.fixed (.func g))) := by
  obtain ⟨hvariadic, htakes, gs, hgs, hsegments⟩ := FuncInfo.of_hasSegments h
  have hfits : Phrase.FitsAt v os (.call (.ident x) [] args back segments
    (.of (.func g) f.variadic args.length)) :=
    .func hx hf htakes ⟨?_, fun _ hnil => ?_⟩
  · rwa [hvariadic] at hfits
  · refine (collects_iff hgs).2 ⟨hback.imp_right And.left, fun p hp => ?_⟩
    obtain ⟨t, ht, -⟩ := hsegments _ (List.mem_map_of_mem hp)
    exact Dict.contains_iff.2 (Option.isSome_of_eq_some ht)
  · rcases hback with rfl | ⟨-, hlast⟩
    · cases hnil
    · exact hlast

/-- What is checked of a run: it comes to a position, and goes on from there with another test. -/
def reaches (s : Session) (l : Launch) (n : Nat) (id : BlockId) (pos k : Nat)
    (p : Machine → Machine → Bool) : Bool :=
  (l.machineAfter (s.context none fun _ => 0) n emptyMachine).any fun m =>
    m.isAt id pos && leadsTo (s.context none fun _ => 0) k (p m) m

/-- A run that passes the check comes to the position, and goes on from there as the check says. -/
theorem exists_of_reaches {s : Session} {l : Launch} {n : Nat} {id : BlockId} {pos k : Nat}
    {p : Machine → Machine → Bool} (h : reaches s l n id pos k p = true) : ∃ m q m₀ m',
      Transition (s.context none fun _ => 0) l emptyMachine m q (.ok () m₀) ∧ m₀.At id pos ∧
        steps (s.context none fun _ => 0) k m₀ = .ok () m' ∧ p m₀ m' = true := by
  obtain ⟨m, q, m₀, htrans, hchecks⟩ := machineAfter_sound h
  rw [Bool.and_eq_true] at hchecks
  obtain ⟨m', hm', hp⟩ := steps_of_leadsTo hchecks.2
  exact ⟨m, q, m₀, m', htrans, Machine.at_of_isAt hchecks.1, hm', hp⟩

/-- What is checked of how the code of a block is read. -/
def readCheck (s : Session) (id : BlockId) (ts : List Passage) : Bool :=
  ts.all Passage.isWellFormed && Op.sameAll (ts.flatMap Passage.ops) (s.registry.block id).ops

theorem madeOf_of_readCheck {s : Session} {id : BlockId} {ts : List Passage}
    (h : readCheck s id ts = true) :
    MadeOf (s.registry.block id).ops ts := by
  rw [readCheck, Bool.and_eq_true] at h
  exact ⟨Op.eq_of_sameAll h.2, fun op hop => List.all_eq_true.1 h.1 _ hop⟩

/-- The calls in the code fit, if the function has the segment. -/
theorem segmentRead_suits {functions : BlockId → Option FuncInfo} {f : FuncInfo}
    (hf : functions 1 = some f) (h : f.hasSegments 1 [("S", 1)] = true) :
    ∀ t ∈ segmentRead, ∃ finds, Suits ⟨finds, functions⟩ t.sites := by
  refine List.forall_mem_cons.2 ⟨⟨fun _ => some (.func 1), ?_⟩,
    List.forall_mem_singleton.2 ⟨fun _ => none, suits_nil⟩⟩
  exact List.forall_mem_singleton.2
    (fitsAt_of_hasSegments (v := ⟨fun _ => some (.func 1), functions⟩) rfl hf h (.inl rfl))

/-- The first four steps collect the two numbers. -/
theorem collected_of_steps
    (hfaces : m₀.Faces c [.push (.int 1), .push .nil, .push (.int 2),
      .funcName "S" 1, .call (.func 1)])
    (hsteps : steps c 5 m₀ = .ok () m') :
    ∃ m₁, Collected c [number 1] m₀ [.int 1] [(.ident "S", [number 2])]
      [("S", [.int 2])] m₁ ∧ steps c 1 m₁ = .ok () m' := by
  obtain ⟨m₁, hone, hsteps⟩ := steps_succ hsteps
  obtain ⟨m₂, hnil, hsteps⟩ := steps_succ hsteps
  obtain ⟨m₃, htwo, hsteps⟩ := steps_succ hsteps
  obtain ⟨m₄, hcollect, hsteps⟩ := steps_succ hsteps
  obtain ⟨hargs, hfaces₁⟩ := evaluates_number hfaces hone
  have hopened : Collected c [number 1] m₀ [.int 1] [] [] m₂ := .opened hargs hnil
  have hfaces₂ : m₂.Faces c [.push (.int 2), .funcName "S" 1, .call (.func 1)] := by
    obtain rfl := eq_of_perform hfaces₁ (perform_push c .nil m₁) hnil
    exact hfaces₁.tail _ _
  have hgathered : Collected c [number 1] m₀ [.int 1] [(.ident "S", [number 2])]
    [("S", [.int 2])] m₄ :=
    .segment hopened (evaluates_number hfaces₂ htwo).1 hcollect
  exact ⟨m₄, hgathered, hsteps⟩

/-- The call `g(1).S(2)` starts `g` with the one number for its parameter, and with the other for
that of `S`. -/
theorem segmentCalled_routed : ∃ m q m₀ m₁ m' f gs,
    Transition (segmentCalled.context none fun _ => 0) (func 2 []) emptyMachine m q (.ok () m₀) ∧
      m₀.At 2 0 ∧ Collected (segmentCalled.context none fun _ => 0) [number 1] m₀ [.int 1]
        [(.ident "S", [number 2])] [("S", [.int 2])] m₁ ∧
      m₁.Starts (segmentCalled.context none fun _ => 0) 1 f gs m₀.stack [.int 1]
        [("S", [.int 2])] m' := by
  obtain ⟨hread, hhosts, hfunction, hrun⟩ : readCheck segmentCalled 2 segmentRead = true ∧
      segmentCalled.registry.offersContractsOnly = true ∧
      (segmentCalled.functions 1).any (fun f => f.hasSegments 1 [("S", 1)]) = true ∧
      reaches segmentCalled (func 2 []) 0 2 0 5 (fun _ _ => true) = true := by
    simp only [segmentCalled, callingSession, Session.perform_compile, String.reduceToList]
    decide +kernel
  obtain ⟨m, q, m₀, m', htrans, hat, hsteps, -⟩ := exists_of_reaches hrun
  obtain ⟨f, hf, hsegments⟩ := (Option.any_eq_true _ _).1 hfunction
  obtain ⟨hvariadic, -, gs, hgs, hall⟩ := FuncInfo.of_hasSegments hsegments
  have hts := madeOf_of_readCheck hread
  have hcall : CallAt segmentRead 0 [] (.call (.ident "g") [] [number 1] [.nil]
    [(.ident "S", [number 2])]
      (.fixed (.func 1))) := ⟨[], _, _, rfl, List.mem_singleton_self _, rfl⟩
  have hreachable : segmentCalled.Reachable := reachable_callingSession _
  have hdiscreet : ∀ e, segmentCalled.registry.Offers e → e.Discreet :=
    fun e he K h₀ => keeps_of_offersContractsOnly hhosts _ e he
  have hnone : ∀ v ∈ ([] : List Value), v.Bounded .empty := fun v hv => absurd hv List.not_mem_nil
  -- The call `g(1).S(2)` and a run of its function, as the theorem takes them.
  let u : segmentCalled.ChainedCall 2 := {
    passages := segmentRead, pos := 0, front := [], head := .ident "g"
    start := [], args := [number 1], back := [.nil], segments := [(.ident "S", [number 2])]
    ending := .fixed (.func 1), callee := 1, info := f, signatures := gs
    made := hts
    suits := segmentRead_suits hf hsegments
    stands := hcall
    calls := rfl
    function := hf
    segmented := hgs
    apart := fun h => by cases h.1
    countable := fun h => by cases hvariadic.symm.trans h
    once := List.nodup_singleton _
    fits := List.forall_mem_singleton.2 (hall _ (List.mem_singleton_self _)) }
  let x : segmentCalled.Execution := {
    allowance := none, clock := fun _ => 0, launch := func 2 []
    env := .empty, heap := .empty, cost := 10000
    before := m, request := q, machine := m₀, transition := htrans }
  have hroutes := (hreachable.routes 2).2 u x ⟨hdiscreet, hnone, hnone⟩ hat
  have hfaces := hat.faces_session hcall hts none fun _ => 0
  obtain ⟨m₁, hcollected, hlast⟩ := collected_of_steps hfaces hsteps
  have hone : lastSteps 1 f [number 1].length = 1 := by
    rw [lastSteps, hvariadic]
    rfl
  rw [← hone] at hlast
  obtain ⟨-, -, hstarts⟩ := hroutes.starts hcollected hlast
  exact ⟨m, q, m₀, m₁, m', f, gs, htrans, hat, hcollected, hstarts⟩

/-- A session that calls a function with a segment among the arguments of a segment, with no
arguments of its own. -/
def segmentInSegment : Session := callingSession
  ("func f().W(n int) int \x7b return 40 + n \x7d\n" ++
    "func g(a int).S(b int).T(c int) int \x7b return a * 100 + b * 10 + c \x7d\n" ++
    "func main int \x7b return g(1).S(2).T(f().W(1)) \x7d")

/-- How the code of its calls is read: nothing is put down for the segments of the inner one. -/
def nestedRead : List Passage :=
  [.sentence {
    last := some (.call (.ident "g") [] [number 1] [.nil] [(.ident "S", [number 2]),
      (.ident "T", [.call (.ident "f") [] [] [] [(.ident "W", [number 1])] (.fixed (.func 1))])]
      (.fixed (.func 2))) },
    .statement .return]

/-- The two calls fit the functions, if these have the segments. -/
theorem nestedRead_suits {functions : BlockId → Option FuncInfo} {f g : FuncInfo}
    (hf : functions 1 = some f) (hg : functions 2 = some g)
    (hfs : f.hasSegments 0 [("W", 1)] = true) (hgs : g.hasSegments 1 [("S", 1), ("T", 1)] = true) :
    ∀ t ∈ nestedRead, ∃ finds, Suits ⟨finds, functions⟩ t.sites := by
  refine List.forall_mem_cons.2 ⟨⟨fun x => some (.func (if x = "f" then 1 else 2)), ?_⟩,
    List.forall_mem_singleton.2 ⟨fun _ => none, suits_nil⟩⟩
  refine List.forall_mem_cons.2 ⟨?_, List.forall_mem_singleton.2 ?_⟩
  · exact fitsAt_of_hasSegments (v := ⟨_, functions⟩) rfl hg hgs (.inl rfl)
  · exact fitsAt_of_hasSegments (v := ⟨_, functions⟩) rfl hf hfs (.inr ⟨⟨rfl, rfl⟩, rfl⟩)

/-- **A chained call directly behind a segment takes the operand of another call**, if it has no
arguments of its own: in front of `f().W(1)` within `g(1).S(2).T(f().W(1))`, the argument of `W` is
evaluated and pushes its value, and the call that follows takes the operand for the segments of `g`,
which is missed in the end. -/
theorem segment_in_segment_takes_operand :
    MadeOf (segmentInSegment.registry.block 3).ops nestedRead ∧
      (∀ t ∈ nestedRead, ∃ finds, Suits ⟨finds, segmentInSegment.functions⟩ t.sites) ∧
      (∃ front, CallAt nestedRead 4 front
        (.call (.ident "f") [] [] [] [(.ident "W", [number 1])] (.fixed (.func 1)))) ∧
      (∃ f gs t, segmentInSegment.functions 1 = some f ∧ f.segments = some gs ∧
        gs.get? "W" = some t ∧
        t.takes 1 = true) ∧
      (∃ m q m₀ m₁ m', Transition (segmentInSegment.context none fun _ => 0)
        (func 3 []) emptyMachine m q (.ok () m₀) ∧
        m₀.At 3 4 ∧ Evaluates (segmentInSegment.context none fun _ => 0) [number 1] m₀ [.int 1] m₁ ∧
        steps (segmentInSegment.context none fun _ => 0) 2 m₁ = .ok () m' ∧
        m'.stack.size < m₀.stack.size) ∧
      ∃ e, ((func 3 []).run segmentInSegment.registry .empty .empty fun _ => 0).result = .error e ∧
        e.fault = .stackEmpty := by
  obtain ⟨hread, hfunctions, hrun, hresult⟩ : readCheck segmentInSegment 3 nestedRead = true ∧
      ((segmentInSegment.functions 1).any (fun f => f.hasSegments 0 [("W", 1)]) = true ∧
        (segmentInSegment.functions 2).any (fun f => f.hasSegments 1 [("S", 1), ("T", 1)]) = true) ∧
      reaches segmentInSegment (func 3 []) 4 3 4 3 (fun m m' => m'.stack.size < m.stack.size)
        = true ∧
      ((func 3 []).run segmentInSegment.registry .empty .empty fun _ => 0).failsWith .stackEmpty
        = true := by
    simp only [segmentInSegment, callingSession, Session.perform_compile, String.toList_append,
      String.reduceToList]
    decide +kernel
  obtain ⟨f, hf, hfs⟩ := (Option.any_eq_true _ _).1 hfunctions.1
  obtain ⟨g, hg, hgs⟩ := (Option.any_eq_true _ _).1 hfunctions.2
  obtain ⟨-, -, segments, hsegments, hall⟩ := FuncInfo.of_hasSegments hfs
  obtain ⟨t, ht, htakes⟩ := hall _ (List.mem_singleton_self _)
  have hts := madeOf_of_readCheck hread
  -- The operands that lie below the call of `f`: those of `g` and of its segment `S`.
  have hcall : CallAt nestedRead 4 [.push (.int 1), .push .nil, .push (.int 2), .funcName "S" 1]
      (.call (.ident "f") [] [] [] [(.ident "W", [number 1])] (.fixed (.func 1))) :=
    ⟨[], _, _, rfl, List.mem_cons_of_mem _ (List.mem_singleton_self _), rfl⟩
  obtain ⟨m, q, m₀, m', htrans, hat, hsteps, hless⟩ := exists_of_reaches hrun
  obtain ⟨m₁, hone, hsteps⟩ := steps_succ hsteps
  exact ⟨hts, nestedRead_suits hf hg hfs hgs, ⟨_, hcall⟩,
    ⟨f, segments, t, hf, hsegments, ht, htakes⟩, ⟨m, q, m₀, m₁, m', htrans, hat,
      (evaluates_number (hat.faces_session hcall hts none fun _ => 0) hone).1, hsteps,
      of_decide_eq_true hless⟩, Outcome.error_of_failsWith hresult⟩

end runs

end Covenant
