import Covenant.Proofs.Compile.Passages

/-!
# Where `...` is written

`...` becomes an instruction of its own, which asks that the call that comes next spreads its last
argument. Which call that is, is not said. It is the one in whose list the `...` is written if this
comes behind the last argument, and no other call stands between them: nothing may be written behind
an operand with `...` but the end of the list and segments without calls. Then `...` is placed
(`Phrase.placed`).

Where all `...` of some code are placed, every call finds that its last argument is to be spread if
and only if it is written with `...` (`MadeOf.finds`), and nothing is to be spread where a statement
begins or ends.
-/

namespace Covenant

namespace Op

/-- Whether an instruction calls. -/
def isCall : Op → Bool
  | .call _ | .callVariadic _ | .callExtend _ => true
  | _ => false

/-- Whether the next call is to spread its last argument behind an instruction, given whether it is
in front of it. -/
def spreadBehind (b : Bool) : Op → Bool
  | .unwrapArr => true
  | .call _ | .callVariadic _ | .callExtend _ => false
  | _ => b

theorem spreadBehind_of_isCall {op : Op} (h : op.isCall = true) (b : Bool) :
    op.spreadBehind b = false := by
  cases op <;> first | rfl | cases h

theorem spreadBehind_of_isStatement {op : Op} (h : op.isStatement = true) (b : Bool) :
    op.spreadBehind b = b := by
  cases op <;> first | rfl | cases h

theorem isCall_of_isStatement {op : Op} (h : op.isStatement = true) : op.isCall = false := by
  cases op <;> first | rfl | cases h

end Op

namespace Compile

/-- Whether the next call is to spread its last argument behind some instructions. -/
def spreadBehind (b : Bool) (os : List Op) : Bool := os.foldl Op.spreadBehind b

theorem spreadBehind_append (b : Bool) (os os' : List Op) :
    spreadBehind b (os ++ os') = spreadBehind (spreadBehind b os) os' := List.foldl_append

theorem spreadBehind_concat (b : Bool) (os : List Op) (op : Op) :
    spreadBehind b (os ++ [op]) = op.spreadBehind (spreadBehind b os) := List.foldl_concat ..

theorem spreadBehind_pushes (b : Bool) (cs : List Constant) : spreadBehind b (pushes cs) = b := by
  induction cs with
  | nil => rfl
  | cons c cs ih => exact ih

theorem spreadBehind_counting (b : Bool) (e : Ending) : spreadBehind b e.counting = b := by
  cases e <;> rfl

/-! ### Phrases with `...` -/

/-- Whether a phrase ends in `...`. -/
def Phrase.tails : Phrase → Bool
  | .spread _ => true
  | .unary _ _ e => e.tails
  | .binary _ _ _ b => b.tails
  | _ => false

/-- Whether the last of some phrases ends in `...`. -/
def lastTails (es : List Phrase) : Bool := es.getLast?.any Phrase.tails

/-- The arguments of a call, without those of its segments. -/
def Phrase.arguments : Phrase → List Phrase
  | .call _ _ args _ _ _ => args
  | _ => []

/-- Whether the last argument of a call is written with `...`. -/
def Phrase.spreads (u : Phrase) : Bool := lastTails u.arguments

mutual

/-- Whether each `...` in a phrase is behind the last argument of a call, with no call in the
segments that follow it, or at the end of the phrase. -/
def Phrase.placed : Phrase → Bool
  | .atom _ _ => true
  | .group es => placedAll es && !es.any Phrase.tails
  | .unary _ _ e => e.placed
  | .binary _ _ a b => a.placed && !a.tails && b.placed
  | .index a es => a.placed && !a.tails && (placedAll es && !es.any Phrase.tails)
  | .spread e => e.placed
  | .call _ _ args _ segments _ =>
    placedAll args && !args.dropLast.any Phrase.tails && placedChained segments &&
      (!lastTails args || (callsChained segments).isEmpty)

/-- Whether each `...` in some phrases is placed. -/
def placedAll : List Phrase → Bool
  | [] => true
  | e :: es => e.placed && placedAll es

/-- Whether each `...` in the arguments of some segments is placed. -/
def placedChained : List (Token × List Phrase) → Bool
  | [] => true
  | (_, args) :: rest => placedAll args && !args.any Phrase.tails && placedChained rest

end

theorem lastTails_of_none {es : List Phrase} (h : es.any Phrase.tails = false) :
    lastTails es = false := by
  cases hlast : es.getLast? with
  | none => rw [lastTails, hlast, Option.any_none]
  | some e =>
    rw [lastTails, hlast, Option.any_some]
    exact List.any_eq_false.1 h e (List.mem_of_getLast? hlast) |> Bool.eq_false_iff.2

theorem dropLast_of_none {es : List Phrase} (h : es.any Phrase.tails = false) :
    es.dropLast.any Phrase.tails = false :=
  List.any_eq_false.2 fun e he => List.any_eq_false.1 h e ((List.dropLast_sublist es).subset he)

/-- Only the last argument of a call is written with `...`. -/
theorem Phrase.tails_of_placed {u : Phrase} (h : u.placed = true) :
    u.arguments.dropLast.any Phrase.tails = false := by
  cases u with
  | call head front args back segments ending =>
    simp only [placed, Bool.and_eq_true, Bool.not_eq_true'] at h
    exact h.1.1.2
  | _ => rfl

theorem isEmpty_append_calls (us vs : List Phrase) :
    (us ++ vs).isEmpty = (us.isEmpty && vs.isEmpty) := by
  cases us <;> rfl

/-! ### What is to be spread behind a phrase -/

mutual

/-- Behind a phrase the next call is to spread if the phrase ends in `...`, or was to before and no
call has come up. -/
theorem Phrase.spreadBehind_ops (b : Bool) : ∀ {e : Phrase}, e.placed = true →
    spreadBehind b e.ops = (e.tails || (b && e.calls.isEmpty))
  | .atom _ i, _ => by
    cases i <;> cases b <;> rfl
  | .group es, h => by
    rw [Phrase.placed, Bool.and_eq_true, Bool.not_eq_true'] at h
    rw [Phrase.ops, spreadBehind_opsAll b h.1 (dropLast_of_none h.2), lastTails_of_none h.2]
    rfl
  | .unary _ op e, h => by
    rw [Phrase.ops, spreadBehind_concat, Phrase.spreadBehind_ops (e := e) b h]
    rfl
  | .binary _ op a b', h => by
    rw [Phrase.placed, Bool.and_eq_true, Bool.and_eq_true, Bool.not_eq_true'] at h
    rw [Phrase.ops, spreadBehind_concat, spreadBehind_append, Phrase.spreadBehind_ops b h.1.1,
      Phrase.spreadBehind_ops _ h.2, h.1.2, Bool.false_or, Phrase.calls,
      isEmpty_append_calls, Bool.and_assoc]
    rfl
  | .index a es, h => by
    rw [Phrase.placed, Bool.and_eq_true, Bool.and_eq_true, Bool.and_eq_true, Bool.not_eq_true',
      Bool.not_eq_true'] at h
    rw [Phrase.ops, spreadBehind_concat, spreadBehind_append, Phrase.spreadBehind_ops b h.1.1,
      spreadBehind_opsAll _ h.2.1 (dropLast_of_none h.2.2), lastTails_of_none h.2.2,
      h.1.2, Bool.false_or, Bool.false_or, Phrase.calls, isEmpty_append_calls, Bool.and_assoc]
    rfl
  | .spread e, _ => by
    rw [Phrase.ops, spreadBehind_concat]
    rfl
  | .call _ _ args _ segments ending, _ => by
    -- A call takes the flag down, whatever its arguments were.
    rw [Phrase.ops, spreadBehind_concat, Op.spreadBehind_of_isCall (by cases ending <;> rfl),
      Phrase.calls]
    simp [Phrase.tails]

/-- Behind arguments the next call is to spread if the last of them ends in `...`. -/
theorem spreadBehind_opsAll (b : Bool) : ∀ {es : List Phrase}, placedAll es = true →
    es.dropLast.any Phrase.tails = false →
      spreadBehind b (opsAll es) = (lastTails es || (b && (callsAll es).isEmpty))
  | [], _, _ => by cases b <;> rfl
  | [e], h, _ => by
    rw [placedAll, placedAll, Bool.and_true] at h
    rw [opsAll_singleton, Phrase.spreadBehind_ops b h, callsAll, callsAll, List.append_nil]
    rfl
  | e :: e' :: es, h, hlast => by
    rw [placedAll, Bool.and_eq_true] at h
    rw [List.dropLast_cons_cons, List.any_cons, Bool.or_eq_false_iff] at hlast
    rw [opsAll, spreadBehind_append, Phrase.spreadBehind_ops b h.1, hlast.1, Bool.false_or,
      spreadBehind_opsAll _ h.2 hlast.2, lastTails, lastTails, List.getLast?_cons_cons,
      show callsAll (e :: e' :: es) = e.calls ++ callsAll (e' :: es) from rfl, isEmpty_append_calls,
      Bool.and_assoc]

end

/-- In segments nothing ends in `...`. -/
theorem spreadBehind_opsChained (b : Bool) {segments : List (Token × List Phrase)}
    (h : placedChained segments = true) :
    spreadBehind b (opsChained segments) = (b && (callsChained segments).isEmpty) := by
  induction segments generalizing b with
  | nil => cases b <;> rfl
  | cons g segments ih =>
    rw [placedChained, Bool.and_eq_true, Bool.and_eq_true, Bool.not_eq_true'] at h
    obtain ⟨⟨hargs, hnone⟩, hrest⟩ := h
    rw [opsChained, spreadBehind_append, spreadBehind_concat,
      spreadBehind_opsAll b hargs (dropLast_of_none hnone), lastTails_of_none hnone, Bool.false_or]
    show spreadBehind _ _ = (b && (callsAll g.2 ++ callsChained segments).isEmpty)
    rw [isEmpty_append_calls, ← Bool.and_assoc]
    exact ih _ hrest

/-! ### Calls in code -/

/-- Whether the calls in some code are those of some phrases, in which each `...` is placed, and
each is to spread its last argument if and only if this is written with `...`. -/
def Finds (us : List Phrase) (os : List Op) : Prop :=
  ∀ xs op ys, os = xs ++ op :: ys → op.isCall = true →
    ∃ u ∈ us, u.placed = true ∧ (∃ pre, xs ++ [op] = pre ++ u.ops) ∧
    spreadBehind false xs = u.spreads

namespace Finds

variable {us vs : List Phrase} {os os' : List Op}

theorem of_none (h : ∀ op ∈ os, op.isCall = false) : Finds us os := by
  rintro xs op ys rfl hop
  cases hop.symm.trans (h op (List.mem_append_right _ (List.mem_cons_self ..)))

theorem nil : Finds us [] := of_none fun _ hop => absurd hop List.not_mem_nil

/-- Two stretches of code, if there is nothing to be spread between them. -/
theorem append (h : Finds us os) (h' : Finds vs os')
    (hnone : spreadBehind false os = false ∨ vs = []) :
    Finds (us ++ vs) (os ++ os') := by
  intro xs op ys heq hop
  have hright : ∀ zs, xs = os ++ zs → os' = zs ++ op :: ys →
      ∃ u ∈ us ++ vs, u.placed = true ∧ (∃ pre, xs ++ [op] = pre ++ u.ops) ∧
        spreadBehind false xs = u.spreads := by
    rintro zs rfl hos'
    obtain ⟨u, hu, hplaced, ⟨pre, hpre⟩, hspreads⟩ := h' zs op ys hos' hop
    refine ⟨u, List.mem_append_right _ hu, hplaced, ⟨os ++ pre, ?_⟩, ?_⟩
    · rw [List.append_assoc, hpre, List.append_assoc]
    · rw [spreadBehind_append, hnone.resolve_right (List.ne_nil_of_mem hu)]
      exact hspreads
  rcases List.append_eq_append_iff.1 heq with ⟨zs, hxs, hos'⟩ | ⟨zs, hos, hys⟩
  · exact hright zs hxs hos'
  · cases zs with
    | nil => exact hright [] (by rw [hos, List.append_nil, List.append_nil]) hys.symm
    | cons o zs =>
      obtain ⟨rfl, rfl⟩ := List.cons.inj hys
      obtain ⟨u, hu, hu'⟩ := h xs op zs hos hop
      exact ⟨u, List.mem_append_left _ hu, hu'⟩

theorem concat {op : Op} (h : Finds us os) (hop : op.isCall = false) : Finds us (os ++ [op]) := by
  have hone : Finds [] [op] := of_none fun op' hop' => by rw [List.mem_singleton.1 hop', hop]
  have happend := h.append hone (.inr rfl)
  rwa [List.append_nil] at happend

/-- The instruction of a call itself comes last. -/
theorem concat_call {u : Phrase} {op : Op} (h : Finds us os) (hplaced : u.placed = true)
    (hops : u.ops = os ++ [op]) (hspreads : spreadBehind false os = u.spreads) :
    Finds (u :: us) u.ops := by
  intro xs op' ys heq hop
  rcases List.eq_nil_or_concat ys with rfl | ⟨ys, y, rfl⟩
  · rw [hops] at heq
    obtain ⟨rfl, hlast⟩ := List.append_inj' heq rfl
    exact ⟨u, List.mem_cons_self .., hplaced, ⟨[], by rw [hops, hlast, List.nil_append]⟩, hspreads⟩
  · rw [List.concat_eq_append, ← List.cons_append, ← List.append_assoc, hops] at heq
    obtain ⟨v, hv, hv'⟩ := h xs op' ys (List.append_inj' heq rfl).1 hop
    exact ⟨v, List.mem_cons_of_mem _ hv, hv'⟩

end Finds

theorem isCall_pushes {cs : List Constant} : ∀ op ∈ pushes cs, op.isCall = false := by
  intro op hop
  obtain ⟨c, -, rfl⟩ := List.mem_map.1 hop
  rfl

theorem isCall_counting {e : Ending} : ∀ op ∈ e.counting, op.isCall = false := by
  intro op hop
  cases e with
  | fixed => exact absurd hop List.not_mem_nil
  | counted | named =>
    rw [List.mem_singleton.1 hop]
    rfl

mutual

/-- The calls in the code of a phrase are those of the phrase. -/
theorem Phrase.finds : ∀ {e : Phrase}, e.placed = true → Finds e.calls e.ops
  | .atom _ i, _ => .of_none fun op hop => by
    rw [List.mem_singleton.1 hop]
    cases i <;> rfl
  | .group es, h => by
    rw [Phrase.placed, Bool.and_eq_true, Bool.not_eq_true'] at h
    exact finds_opsAll h.1 (dropLast_of_none h.2)
  | .unary _ _ e, h => (Phrase.finds (e := e) h).concat rfl
  | .binary _ _ a b, h => by
    rw [Phrase.placed, Bool.and_eq_true, Bool.and_eq_true, Bool.not_eq_true'] at h
    refine .concat (.append (Phrase.finds h.1.1) (Phrase.finds h.2) (.inl ?_)) rfl
    rw [Phrase.spreadBehind_ops _ h.1.1, h.1.2]
    rfl
  | .index a es, h => by
    rw [Phrase.placed, Bool.and_eq_true, Bool.and_eq_true, Bool.and_eq_true, Bool.not_eq_true',
      Bool.not_eq_true'] at h
    refine .concat (.append (Phrase.finds h.1.1) (finds_opsAll h.2.1 (dropLast_of_none h.2.2))
      (.inl ?_)) rfl
    rw [Phrase.spreadBehind_ops _ h.1.1, h.1.2]
    rfl
  | .spread e, h => (Phrase.finds (e := e) h).concat rfl
  | .call head front args back segments ending, h => by
    have hplaced := h
    rw [Phrase.placed, Bool.and_eq_true, Bool.and_eq_true, Bool.and_eq_true, Bool.not_eq_true',
      Bool.or_eq_true, Bool.not_eq_true', List.isEmpty_iff] at h
    obtain ⟨⟨⟨hargs, hdrop⟩, hsegments⟩, hnone⟩ := h
    have hfront : Finds [] (pushes front) := .of_none isCall_pushes
    have hback : Finds [] (pushes back) := .of_none isCall_pushes
    have hcounting : Finds [] ending.counting := .of_none isCall_counting
    -- the mark behind the arguments is that of the last one, and pushes and counts leave it
    have hflag : spreadBehind false (pushes front ++ opsAll args ++ pushes back)
      = lastTails args := by
      rw [spreadBehind_append, spreadBehind_append, spreadBehind_pushes, spreadBehind_pushes,
        spreadBehind_opsAll _ hargs hdrop, Bool.false_and, Bool.or_false]
    have hbase : Finds (callsAll args) (pushes front ++ opsAll args ++ pushes back) := by
      have happend := (hfront.append (finds_opsAll hargs hdrop)
        (.inl (spreadBehind_pushes ..))).append hback
        (.inr rfl)
      rwa [List.append_nil, List.nil_append] at happend
    have hchain := hbase.append (finds_opsChained hsegments) (hflag ▸ hnone)
    have hall := hchain.append hcounting (.inr rfl)
    rw [List.append_nil] at hall
    refine hall.concat_call hplaced rfl ?_
    rw [spreadBehind_append, spreadBehind_append, hflag, spreadBehind_opsChained _ hsegments,
      spreadBehind_counting, Phrase.spreads, Phrase.arguments]
    rcases hnone with hnone | hnone
    · rw [hnone, Bool.false_and]
    · rw [hnone, List.isEmpty_nil, Bool.and_true]

/-- The calls among some arguments. -/
theorem finds_opsAll : ∀ {es : List Phrase}, placedAll es = true →
    es.dropLast.any Phrase.tails = false →
    Finds (callsAll es) (opsAll es)
  | [], _, _ => .nil
  | [e], h, _ => by
    rw [placedAll, placedAll, Bool.and_true] at h
    rw [opsAll_singleton, callsAll, callsAll, List.append_nil]
    exact Phrase.finds h
  | e :: e' :: es, h, hlast => by
    rw [placedAll, Bool.and_eq_true] at h
    rw [List.dropLast_cons_cons, List.any_cons, Bool.or_eq_false_iff] at hlast
    refine .append (Phrase.finds h.1) (finds_opsAll h.2 hlast.2) (.inl ?_)
    rw [Phrase.spreadBehind_ops _ h.1, hlast.1]
    rfl

/-- The calls among the arguments of segments. -/
theorem finds_opsChained :
    ∀ {segments : List (Token × List Phrase)}, placedChained segments = true →
    Finds (callsChained segments) (opsChained segments)
  | [], _ => .nil
  | (name, args) :: rest, h => by
    rw [placedChained, Bool.and_eq_true, Bool.and_eq_true, Bool.not_eq_true'] at h
    obtain ⟨⟨hargs, hnone⟩, hrest⟩ := h
    have hcollect : Finds (callsAll args) (opsAll args ++ [collecting name args]) :=
      (finds_opsAll hargs (dropLast_of_none hnone)).concat rfl
    refine hcollect.append (finds_opsChained hrest) (.inl ?_)
    rw [spreadBehind_concat, spreadBehind_opsAll _ hargs (dropLast_of_none hnone),
      lastTails_of_none hnone]
    rfl

end

/-! ### Expressions -/

/-- Whether each `...` in what stands in front of the last value of an expression is placed, and
none is at the end of a value. -/
def Lead.placed : Lead → Bool
  | value e => e.placed && !e.tails
  | target a es => (Phrase.index a es).placed

/-- Whether each `...` in an expression is placed: it is behind the last argument of a call, with no
call in the segments that follow it. -/
def Sentence.placed (p : Sentence) : Bool :=
  p.leads.all Lead.placed && p.last.all fun e => e.placed && !e.tails

/-- A value of an expression does not end in `...`, so nothing is to be spread behind it. -/
theorem finds_value {e : Phrase} (h : (e.placed && !e.tails) = true) :
    Finds e.calls e.ops ∧ spreadBehind false e.ops = false := by
  rw [Bool.and_eq_true, Bool.not_eq_true'] at h
  refine ⟨Phrase.finds h.1, ?_⟩
  rw [Phrase.spreadBehind_ops _ h.1, h.2]
  rfl

/-- The calls in front of the last value of an expression. -/
theorem Lead.finds {l : Lead} (h : l.placed = true) :
    Finds l.calls l.ops ∧ spreadBehind false l.ops = false := by
  cases l with
  | value e => exact finds_value h
  | target a es =>
    rw [Lead.placed, Phrase.placed, Bool.and_eq_true] at h
    obtain ⟨hcontainer, hflag⟩ := finds_value h.1
    obtain ⟨hes, hnone⟩ := Bool.and_eq_true_iff.1 h.2
    rw [Bool.not_eq_true'] at hnone
    refine ⟨hcontainer.append (finds_opsAll hes (dropLast_of_none hnone)) (.inl hflag), ?_⟩
    rw [Lead.ops, spreadBehind_append, hflag, spreadBehind_opsAll _ hes (dropLast_of_none hnone),
      lastTails_of_none hnone]
    rfl

/-- The calls in all that is in front of the last value. -/
theorem finds_leads {leads : List Lead} (h : leads.all Lead.placed = true) :
    Finds (leads.flatMap Lead.calls) (leads.flatMap Lead.ops) ∧
      spreadBehind false (leads.flatMap Lead.ops) = false := by
  induction leads with
  | nil => exact ⟨.of_none nofun, rfl⟩
  | cons l leads ih =>
    rw [List.all_cons, Bool.and_eq_true] at h
    obtain ⟨hlead, hflag⟩ := Lead.finds h.1
    obtain ⟨hleads, hflags⟩ := ih h.2
    rw [List.flatMap_cons, List.flatMap_cons]
    exact ⟨hlead.append hleads (.inl hflag), by rw [spreadBehind_append, hflag, hflags]⟩

/-- The calls in the code of an expression are those of the expression, and nothing is to be spread
behind it. -/
theorem Sentence.finds {p : Sentence} (h : p.placed = true) :
    Finds p.calls p.ops ∧ spreadBehind false p.ops = false := by
  rw [Sentence.placed, Bool.and_eq_true] at h
  obtain ⟨hleads, hflag⟩ := finds_leads h.1
  have hvalues : Finds p.calls (p.leads.flatMap Lead.ops ++ p.last.elim [] Phrase.ops) ∧
      spreadBehind false (p.leads.flatMap Lead.ops ++ p.last.elim [] Phrase.ops) = false := by
    cases hlast : p.last with
    | none =>
      rw [Sentence.calls, hlast]
      exact ⟨hleads.append .nil (.inl hflag), by rw [spreadBehind_append, hflag]; rfl⟩
    | some e =>
      rw [hlast, Option.all_some] at h
      obtain ⟨he, hflag'⟩ := finds_value h.2
      rw [Sentence.calls, hlast]
      exact ⟨hleads.append he (.inl hflag), by rw [spreadBehind_append, hflag]; exact hflag'⟩
  rw [Sentence.ops]
  split
  · exact ⟨hvalues.1.concat rfl, by rw [spreadBehind_concat, hvalues.2]; rfl⟩
  · rw [List.append_nil]
    exact hvalues

/-! ### Blocks -/

namespace Passage

/-- Whether each `...` in a passage is placed. -/
def placed : Passage → Bool
  | statement _ => true
  | sentence p => p.placed

/-- The calls in a passage. -/
def calls : Passage → List Phrase
  | statement _ => []
  | sentence p => p.calls

/-- The calls in a passage. -/
theorem finds {t : Passage} (ht : ∀ op, t = .statement op → op.isStatement = true)
    (h : t.placed = true) :
    Finds t.calls t.ops ∧ spreadBehind false t.ops = false := by
  cases t with
  | statement op =>
    have hop := ht op rfl
    refine ⟨.of_none fun op' hop' => ?_, Op.spreadBehind_of_isStatement hop false⟩
    rw [List.mem_singleton.1 hop', Op.isCall_of_isStatement hop]
  | sentence p => exact Sentence.finds h

/-- The instructions of statements in a passage come first. -/
theorem eq_nil_of_isStatement {t : Passage} {xs ys : List Op} {op : Op} (h : t.ops = xs ++ op :: ys)
    (hop : op.isStatement = true) : xs = [] := by
  cases t with
  | statement op' =>
    cases xs with
    | nil => rfl
    | cons x xs =>
      have hlength := congrArg List.length h
      rw [ops, List.length_singleton, List.length_append, List.length_cons,
        List.length_cons] at hlength
      omega
  | sentence p =>
    have hops : p.ops = xs ++ op :: ys := h
    have hmem : op ∈ p.ops := by
      rw [hops]
      exact List.mem_append_right _ (List.mem_cons_self ..)
    cases hop.symm.trans (Sentence.not_isStatement hmem)

end Passage

namespace MadeOf

variable {os : List Op} {ts : List Passage} {op : Op}

/-- The calls in code that is made up of passages, if each `...` is placed. Nothing is to be spread
in front of a statement and at the end. -/
theorem finds (h : MadeOf os ts) (hplaced : ∀ t ∈ ts, t.placed = true) :
    Finds (ts.flatMap Passage.calls) os ∧ spreadBehind false os = false ∧
      ∀ xs op ys, os = xs ++ op :: ys → op.isStatement = true → spreadBehind false xs = false := by
  obtain ⟨rfl, hstatements⟩ := h
  induction ts with
  | nil => exact ⟨.of_none nofun, rfl, fun xs op ys h => absurd h (by simp)⟩
  | cons t ts ih =>
    obtain ⟨hplaced, hplaceds⟩ := List.forall_mem_cons.1 hplaced
    obtain ⟨hone, hflag⟩ :=
      Passage.finds (fun op hop => hstatements op (hop ▸ List.mem_cons_self ..)) hplaced
    obtain ⟨hrest, hflags, hfronts⟩ :=
      ih hplaceds fun op hop => hstatements op (List.mem_cons_of_mem _ hop)
    rw [List.flatMap_cons, List.flatMap_cons]
    refine ⟨hone.append hrest (.inl hflag), by rw [spreadBehind_append, hflag, hflags], ?_⟩
    intro xs op ys heq hop
    rcases List.append_eq_append_iff.1 heq with ⟨zs, rfl, hzs⟩ | ⟨zs, hzs, hys⟩
    · rw [spreadBehind_append, hflag]
      exact hfronts zs op ys hzs hop
    · cases zs with
      | nil => rw [← List.append_nil xs, ← hzs, hflag]
      | cons o zs =>
        obtain ⟨rfl, -⟩ := List.cons.inj hys
        rw [Passage.eq_nil_of_isStatement hzs hop]
        rfl

end MadeOf

end Compile

end Covenant
