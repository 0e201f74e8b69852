import Covenant.Proofs.Compile.Heights
import Covenant.Proofs.Compile.Terms

/-!
# Phrases

What the compiler reads an expression as. A `Phrase` is an operand with the operators, brackets and
calls around it; it has the tokens that it is written with, line ends aside, and the instructions
that it becomes. Every expression that compiles is one, so a phrase is no better than the checks of
the compiler: a group may be empty or hold several operands.

A call has its argument lists: that of the function itself and one for each segment that is chained
to it. `Phrase.calls` are all calls in a phrase, and the code of each is a part of the code of the
phrase (`Phrase.ops_of_mem_calls`). `Phrase.sites` says where the calls stand: each comes with the
code that is in front of it (`Phrase.ops_of_mem_sites`).
-/

namespace Covenant.Compile

open Structured

/-! ### Phrases and their code -/

/-- The instruction that a call ends with, and the number of arguments if it counts them. -/
inductive Ending where
  | fixed (f : Callee)
  | counted (f : Callee) (count : Nat)
  /-- A call of a `$` name, looked up when the call runs. -/
  | named (name : String) (count : Nat)

namespace Ending

/-- The instruction that calls. -/
def op : Ending → Op
  | fixed f => .call f
  | counted f _ => .callVariadic f
  | named x _ => .callExtend x

/-- The number that is pushed in front of the call. -/
def count? : Ending → Option Nat
  | fixed _ => none
  | counted _ n => some n
  | named _ n => some n

/-- The instruction in front of the call, if it counts its arguments. -/
def counting (e : Ending) : List Op := (e.count?.map fun n => Op.push (.int (.ofNat n))).toList

end Ending

/-- What is read as one operand. -/
inductive Phrase where
  /-- A constant, a name or a literal. -/
  | atom (words : List Token) (i : Item)
  | group (es : List Phrase)
  | unary (o : Operator) (op : UnaryOp) (e : Phrase)
  | binary (o : Operator) (op : BinaryOp) (a b : Phrase)
  | index (a : Phrase) (es : List Phrase)
  /-- An operand with `...` behind it. -/
  | spread (e : Phrase)
  /-- A call: its name, what is put in front of the arguments, the arguments, what is put behind
  them, and the segments that are chained to it with theirs. -/
  | call (head : Token) (front : List Constant) (args : List Phrase) (back : List Constant)
      (segments : List (Token × List Phrase)) (ending : Ending)

/-- The name that a token carries, or the empty name. -/
def nameOf (t : Token) : String := t.name?.getD ""

/-- The instruction that collects the arguments of a segment. -/
def collecting (name : Token) (args : List Phrase) : Op := .funcName (nameOf name) args.length

/-- Instructions that push constants. -/
def pushes (cs : List Constant) : List Op := cs.map .push

mutual

/-- The code of a phrase. -/
def Phrase.ops : Phrase → List Op
  | .atom _ i => [i.op]
  | .group es => opsAll es
  | .unary _ op e => e.ops ++ [.unary op]
  | .binary _ op a b => a.ops ++ b.ops ++ [.binary op]
  | .index a es => a.ops ++ opsAll es ++ [.index]
  | .spread e => e.ops ++ [.unwrapArr]
  | .call _ front args back segments ending =>
    pushes front ++ opsAll args ++ pushes back ++ opsChained segments
      ++ ending.counting ++ [ending.op]

/-- The code of phrases, one behind the other. -/
def opsAll : List Phrase → List Op
  | [] => []
  | e :: es => e.ops ++ opsAll es

/-- The code of segments: that of their arguments, and the instruction that collects them. -/
def opsChained : List (Token × List Phrase) → List Op
  | [] => []
  | (name, args) :: rest => opsAll args ++ [collecting name args] ++ opsChained rest

end

mutual

/-- The tokens of a phrase, without line ends. -/
def Phrase.words : Phrase → List Token
  | .atom ws _ => ws
  | .group es => .punct .lpar :: (wordsAll es ++ [.punct .rpar])
  | .unary o _ e => .oper o :: e.words
  | .binary o _ a b => a.words ++ .oper o :: b.words
  | .index a es => a.words ++ .punct .lbrack :: (wordsAll es ++ [.punct .rbrack])
  | .spread e => e.words ++ [.keyword .tail]
  | .call head _ args _ segments _ =>
    head :: .punct .lpar :: (wordsAll args ++ .punct .rpar :: wordsChained segments)

/-- The tokens of phrases, with commas between them. -/
def wordsAll : List Phrase → List Token
  | [] => []
  | e :: es => e.words ++ wordsBehind es

/-- The tokens of phrases, with a comma in front of each. -/
def wordsBehind : List Phrase → List Token
  | [] => []
  | e :: es => .punct .comma :: (e.words ++ wordsBehind es)

/-- The tokens of segments, each behind a dot. -/
def wordsChained : List (Token × List Phrase) → List Token
  | [] => []
  | (name, args) :: rest =>
    .punct .dot :: name :: .punct .lpar :: (wordsAll args ++ .punct .rpar :: wordsChained rest)

end

mutual

/-- The calls in a phrase. -/
def Phrase.calls : Phrase → List Phrase
  | .atom _ _ => []
  | .group es => callsAll es
  | .unary _ _ e => e.calls
  | .binary _ _ a b => a.calls ++ b.calls
  | .index a es => a.calls ++ callsAll es
  | .spread e => e.calls
  | .call head front args back segments ending =>
    .call head front args back segments ending :: (callsAll args ++ callsChained segments)

/-- The calls in phrases. -/
def callsAll : List Phrase → List Phrase
  | [] => []
  | e :: es => e.calls ++ callsAll es

/-- The calls in the arguments of segments. -/
def callsChained : List (Token × List Phrase) → List Phrase
  | [] => []
  | (_, args) :: rest => callsAll args ++ callsChained rest

end

/-! ### Lists of phrases -/

section lists

variable (e : Phrase) (es es' : List Phrase)

theorem opsAll_append : opsAll (es ++ es') = opsAll es ++ opsAll es' := by
  induction es with
  | nil => rfl
  | cons e es ih => rw [List.cons_append, opsAll, opsAll, ih, List.append_assoc]

theorem opsAll_singleton : opsAll [e] = e.ops := List.append_nil _

/-- The code of the last segment comes last. -/
theorem opsChained_concat (segments : List (Token × List Phrase)) (name : Token)
    (args : List Phrase) :
    opsChained (segments ++ [(name, args)])
      = opsChained segments ++ (opsAll args ++ [collecting name args]) := by
  induction segments with
  | nil => exact List.append_nil _
  | cons g segments ih =>
    rw [List.cons_append, opsChained, opsChained, ih]
    simp only [List.append_assoc]

/-- So do its words. -/
theorem wordsChained_concat (segments : List (Token × List Phrase)) (name : Token)
    (args : List Phrase) :
    wordsChained (segments ++ [(name, args)])
      = wordsChained segments ++ .punct .dot :: name :: .punct .lpar
      :: (wordsAll args ++ [.punct .rpar]) := by
  induction segments with
  | nil => rfl
  | cons g segments ih =>
    rw [List.cons_append, wordsChained, wordsChained, ih]
    simp only [List.cons_append, List.append_assoc]

/-- The tokens of phrases, with a comma behind each. -/
def wordsOpen (es : List Phrase) : List Token := es.flatMap fun e => e.words ++ [.punct .comma]

theorem wordsOpen_concat :
    wordsOpen (es ++ [e]) = wordsOpen es ++ (e.words ++ [.punct .comma]) := by
  rw [wordsOpen, List.flatMap_append, List.flatMap_singleton]
  rfl

theorem wordsOpen_cons : wordsOpen (e :: es) = e.words ++ .punct .comma :: wordsOpen es := by
  rw [wordsOpen, List.flatMap_cons, List.append_assoc]
  rfl

/-- The last phrase of a list has no comma behind it. -/
theorem wordsAll_concat : wordsAll (es ++ [e]) = wordsOpen es ++ e.words := by
  have hbehind : ∀ es : List Phrase,
      wordsBehind (es ++ [e]) = .punct .comma :: (wordsOpen es ++ e.words) := by
    intro es
    induction es with
    | nil => exact congrArg _ (List.append_nil _)
    | cons a es ih => rw [List.cons_append, wordsBehind, ih, wordsOpen_cons,
      List.append_assoc, List.cons_append]
  cases es with
  | nil => exact List.append_nil _
  | cons a es => rw [List.cons_append, wordsAll, hbehind, wordsOpen_cons,
    List.append_assoc, List.cons_append]

end lists

/-! ### Calls in a phrase -/

mutual

/-- The code of a call in a phrase is a part of the code of the phrase. -/
theorem Phrase.ops_of_mem_calls {u : Phrase} : ∀ {e : Phrase}, u ∈ e.calls → u.ops <:+: e.ops
  | .atom _ _, h => absurd h List.not_mem_nil
  | .group _, h => opsAll_of_mem_calls h
  | .unary _ op e, h => by
    rw [Phrase.ops]
    exact (Phrase.ops_of_mem_calls (e := e) h).trans (List.prefix_append ..).isInfix
  | .binary _ op a b, h => by
    rw [Phrase.ops]
    rcases List.mem_append.1 h with h | h
    · rw [List.append_assoc]
      exact (Phrase.ops_of_mem_calls h).trans (List.prefix_append ..).isInfix
    · exact (Phrase.ops_of_mem_calls h).trans (List.infix_append ..)
  | .index a es, h => by
    rw [Phrase.ops]
    rcases List.mem_append.1 h with h | h
    · rw [List.append_assoc]
      exact (Phrase.ops_of_mem_calls h).trans (List.prefix_append ..).isInfix
    · exact (opsAll_of_mem_calls h).trans (List.infix_append ..)
  | .spread e, h => by
    rw [Phrase.ops]
    exact (Phrase.ops_of_mem_calls (e := e) h).trans (List.prefix_append ..).isInfix
  | .call head front args back segments ending, h => by
    rcases List.mem_cons.1 h with rfl | h
    · -- the call itself
      exact List.infix_rfl
    · -- a call within it, among its arguments or in a segment
      rw [Phrase.ops]
      simp only [List.append_assoc]
      rcases List.mem_append.1 h with h | h
      · exact (opsAll_of_mem_calls h).trans (List.infix_append' ..)
      · rw [← List.append_assoc (pushes front), ← List.append_assoc (pushes front ++ _)]
        exact (opsChained_of_mem_calls h).trans (List.infix_append' ..)

/-- The code of a call among some phrases is part of theirs. -/
theorem opsAll_of_mem_calls {u : Phrase} :
    ∀ {es : List Phrase}, u ∈ callsAll es → u.ops <:+: opsAll es
  | [], h => absurd h List.not_mem_nil
  | e :: es, h => by
    rw [opsAll]
    rcases List.mem_append.1 h with h | h
    · exact (Phrase.ops_of_mem_calls h).trans (List.prefix_append ..).isInfix
    · exact (opsAll_of_mem_calls h).trans (List.suffix_append ..).isInfix

/-- So it is for a call among the arguments of segments. -/
theorem opsChained_of_mem_calls {u : Phrase} : ∀ {segments : List (Token × List Phrase)},
    u ∈ callsChained segments → u.ops <:+: opsChained segments
  | [], h => absurd h List.not_mem_nil
  | (name, args) :: rest, h => by
    rw [opsChained]
    rcases List.mem_append.1 h with h | h
    · rw [List.append_assoc]
      exact (opsAll_of_mem_calls h).trans (List.prefix_append ..).isInfix
    · exact (opsChained_of_mem_calls h).trans (List.suffix_append ..).isInfix

end

/-! ### Where calls stand -/

mutual

/-- The calls in a phrase, each with the code in front of it, given the code in front of the
phrase. -/
def Phrase.sites (os : List Op) : Phrase → List (List Op × Phrase)
  | .atom _ _ => []
  | .group es => sitesAll os es
  | .unary _ _ e => e.sites os
  | .binary _ _ a b => a.sites os ++ b.sites (os ++ a.ops)
  | .index a es => a.sites os ++ sitesAll (os ++ a.ops) es
  | .spread e => e.sites os
  | .call head front args back segments ending =>
    (os, .call head front args back segments ending) :: (sitesAll (os ++ pushes front) args
      ++ sitesChained (os ++ (pushes front ++ opsAll args ++ pushes back)) segments)

/-- The calls in phrases, each with the code in front of it. -/
def sitesAll (os : List Op) : List Phrase → List (List Op × Phrase)
  | [] => []
  | e :: es => e.sites os ++ sitesAll (os ++ e.ops) es

/-- The calls in the arguments of segments, each with the code in front of it. -/
def sitesChained (os : List Op) : List (Token × List Phrase) → List (List Op × Phrase)
  | [] => []
  | (name, args) :: rest =>
    sitesAll os args ++ sitesChained (os ++ (opsAll args ++ [collecting name args])) rest

end

theorem sitesAll_append (os : List Op) (es es' : List Phrase) :
    sitesAll os (es ++ es') = sitesAll os es ++ sitesAll (os ++ opsAll es) es' := by
  induction es generalizing os with
  | nil => rw [opsAll, List.append_nil]; rfl
  | cons e es ih => rw [List.cons_append, sitesAll, sitesAll, ih, opsAll,
    List.append_assoc, List.append_assoc]

/-- The calls of the last segment stand behind the code of the others. -/
theorem sitesChained_concat (os : List Op) (segments : List (Token × List Phrase)) (name : Token)
    (args : List Phrase) : sitesChained os (segments ++ [(name, args)])
      = sitesChained os segments ++ sitesAll (os ++ opsChained segments) args := by
  induction segments generalizing os with
  | nil => simp [sitesChained, opsChained]
  | cons g segments ih =>
    rw [List.cons_append, sitesChained, sitesChained, ih, opsChained]
    simp only [List.append_assoc]

mutual

/-- Each call stands somewhere. -/
theorem Phrase.map_snd_sites (os : List Op) : ∀ e : Phrase, (e.sites os).map Prod.snd = e.calls
  | .atom _ _ => rfl
  | .group es => map_snd_sitesAll os es
  | .unary _ _ e => Phrase.map_snd_sites os e
  | .binary _ _ a b => by
    rw [Phrase.sites, List.map_append, Phrase.map_snd_sites os a,
      Phrase.map_snd_sites _ b, Phrase.calls]
  | .index a es => by
    rw [Phrase.sites, List.map_append, Phrase.map_snd_sites os a,
      map_snd_sitesAll _ es, Phrase.calls]
  | .spread e => Phrase.map_snd_sites os e
  | .call _ _ args _ segments _ => by
    rw [Phrase.sites, List.map_cons, List.map_append, map_snd_sitesAll _ args,
      map_snd_sitesChained _ segments, Phrase.calls]

theorem map_snd_sitesAll (os : List Op) :
    ∀ es : List Phrase, (sitesAll os es).map Prod.snd = callsAll es
  | [] => rfl
  | e :: es => by
    rw [sitesAll, List.map_append, Phrase.map_snd_sites os e, map_snd_sitesAll _ es, callsAll]

theorem map_snd_sitesChained (os : List Op) :
    ∀ segments : List (Token × List Phrase), (sitesChained os segments).map Prod.snd
      = callsChained segments
  | [] => rfl
  | (name, args) :: rest => by
    rw [sitesChained, List.map_append, map_snd_sitesAll os args,
      map_snd_sitesChained _ rest, callsChained]

end

mutual

/-- **What is said to be in front of a call is in front of it.** -/
theorem Phrase.ops_of_mem_sites {q : List Op × Phrase} :
    ∀ {e : Phrase} {os : List Op}, q ∈ e.sites os → q.1 ++ q.2.ops <+: os ++ e.ops
  | .atom _ _, _, h => absurd h List.not_mem_nil
  | .group _, _, h => opsAll_of_mem_sites h
  | .unary _ _ e, os, h => by
    rw [Phrase.ops, ← List.append_assoc]
    exact (Phrase.ops_of_mem_sites (e := e) h).trans (List.prefix_append ..)
  | .binary _ _ a b, os, h => by
    rw [Phrase.ops, ← List.append_assoc, ← List.append_assoc]
    rcases List.mem_append.1 h with h | h
    · rw [List.append_assoc (os ++ a.ops)]
      exact (Phrase.ops_of_mem_sites h).trans (List.prefix_append ..)
    · exact (Phrase.ops_of_mem_sites h).trans (List.prefix_append ..)
  | .index a es, os, h => by
    rw [Phrase.ops, ← List.append_assoc, ← List.append_assoc]
    rcases List.mem_append.1 h with h | h
    · rw [List.append_assoc (os ++ a.ops)]
      exact (Phrase.ops_of_mem_sites h).trans (List.prefix_append ..)
    · exact (opsAll_of_mem_sites h).trans (List.prefix_append ..)
  | .spread e, os, h => by
    rw [Phrase.ops, ← List.append_assoc]
    exact (Phrase.ops_of_mem_sites (e := e) h).trans (List.prefix_append ..)
  | .call head front args back segments ending, os, h => by
    rcases List.mem_cons.1 h with rfl | h
    · -- the call itself
      exact List.prefix_rfl
    · rw [Phrase.ops]
      rcases List.mem_append.1 h with h | h
      · refine (opsAll_of_mem_sites h).trans ⟨pushes back ++ opsChained segments ++ ending.counting
          ++ [ending.op], ?_⟩
        simp only [List.append_assoc]
      · refine (opsChained_of_mem_sites h).trans ⟨ending.counting ++ [ending.op], ?_⟩
        simp only [List.append_assoc]

/-- A call is where its site says. -/
theorem opsAll_of_mem_sites {q : List Op × Phrase} :
    ∀ {es : List Phrase} {os : List Op}, q ∈ sitesAll os es → q.1 ++ q.2.ops <+: os ++ opsAll es
  | [], _, h => absurd h List.not_mem_nil
  | e :: es, os, h => by
    rw [opsAll, ← List.append_assoc]
    rcases List.mem_append.1 h with h | h
    · exact (Phrase.ops_of_mem_sites h).trans (List.prefix_append ..)
    · exact opsAll_of_mem_sites h

/-- So is one in a segment. -/
theorem opsChained_of_mem_sites {q : List Op × Phrase} : ∀ {segments : List (Token × List Phrase)}
    {os : List Op}, q ∈ sitesChained os segments → q.1 ++ q.2.ops <+: os ++ opsChained segments
  | [], _, h => absurd h List.not_mem_nil
  | (name, args) :: rest, os, h => by
    rw [opsChained]
    rcases List.mem_append.1 h with h | h
    · refine (opsAll_of_mem_sites h).trans ⟨[collecting name args] ++ opsChained rest, ?_⟩
      simp only [List.append_assoc]
    · rw [← List.append_assoc]
      exact opsChained_of_mem_sites h

end

end Covenant.Compile
