import Covenant.Arithmetic
import Covenant.Machine.Call
import Covenant.Proofs.Structured.Syntax

/-!
# What structured programs mean

A big-step semantics on trees. The state is the heap and one scope for every open block, innermost
first. Entering a block makes a scope whose variables have the default values of their types; a
declaration brings the next of them into view. Evaluation goes from left to right. Every evaluation
of an array or map literal makes a new array or map, behind those of its elements. Both operands of
every operator are evaluated, also of `&&` and `||`. An assignment evaluates all its expressions
before the first of its variables changes, and brings each value to the declared type of its
variable where that is `money`, or `float` for an integer.

A statement ends normally, by leaving a loop or an iteration, or by returning a value; `while`
catches the first two and a function the last. A loop is given a number of iterations, and `none`
says that some loop needs more than that; otherwise the answer is the end of the run or its fault.
-/

namespace Covenant.Structured

/-- A variable in view. -/
structure Variable where
  name : String
  ty : Ty
  value : Value

/-- The variables of an open block. -/
structure Scope where
  /-- The variables declared so far, in order. -/
  vars : List Variable
  /-- Values of the variables still to be declared, in order. -/
  fresh : List Value

/-- The state of a run. -/
structure State where
  /-- Scopes of the open blocks, innermost first. -/
  scopes : List Scope
  heap : Heap

/-- How a statement ends. -/
inductive Ending where
  | normal
  | break
  | continue
  | return (value : Value)

/-- What a statement leads to. -/
abbrev Result := Except Fault (Ending × State)

/-! ### Variables -/

/-- The variable of a name in a scope. -/
def Scope.find? (s : Scope) (x : String) : Option Variable := s.vars.find? (·.name == x)

/-- Gives the variable of a name another value. -/
def setVar (x : String) (v : Value) : List Variable → List Variable
  | [] => []
  | w :: ws => if w.name == x then { w with value := v } :: ws else w :: setVar x v ws

/-- Gives the variable of a name another value in a scope. -/
def Scope.set (s : Scope) (x : String) (v : Value) : Scope := { s with vars := setVar x v s.vars }

/-- Declares names: the fresh values become variables. -/
def Scope.declare (s : Scope) (names : List String) (ty : Ty) : Scope where
  vars := s.vars ++ (names.zip s.fresh).map fun p => ⟨p.1, ty, p.2⟩
  fresh := s.fresh.drop names.length

/-- The variable of a name in the innermost scope that knows the name. -/
def findIn (x : String) : List Scope → Option Variable
  | [] => none
  | s :: ss =>
    match s.find? x with
    | some w => some w
    | none => findIn x ss

/-- Gives the variable of a name another value in the innermost scope that knows the name. -/
def setIn (x : String) (v : Value) : List Scope → List Scope
  | [] => []
  | s :: ss =>
    match s.find? x with
    | some _ => s.set x v :: ss
    | none => s :: setIn x v ss

/-- Brings a value to a declared type. -/
def convert (ty : Ty) (v : Value) : Except Fault Value :=
  match ty, v with
  | .money, v => v.toMoney.map .money
  | .float, .int n => .ok (.float (Number.Binary64.ofInt n.toInt))
  | _, v => .ok v

namespace State

/-- Opens a block whose variables have some types. -/
def enter (σ : State) (types : List Ty) : State :=
  let (values, heap) := σ.heap.defaults types
  ⟨⟨[], values⟩ :: σ.scopes, heap⟩

/-- Closes the innermost block. -/
def leave (σ : State) : State := { σ with scopes := σ.scopes.tail }

/-- Declares names in the innermost block. -/
def declare (σ : State) (names : List String) (ty : Ty) : State :=
  match σ.scopes with
  | [] => σ
  | s :: ss => { σ with scopes := s.declare names ty :: ss }

/-- Declares groups of names, one after the other. -/
def declareGroups (σ : State) (groups : List (List String × Ty)) : State :=
  groups.foldl (fun σ g => σ.declare g.1 g.2) σ

/-- Assigns to a variable. -/
def assign (σ : State) (x : String) (v : Value) : Except Fault State :=
  match findIn x σ.scopes with
  | none => .error (.unknownIdent x)
  | some w => (convert w.ty v).map fun v => { σ with scopes := setIn x v σ.scopes }

/-- Assigns values to variables, in order. -/
def assignAll : List (String × Value) → State → Except Fault State
  | [], σ => .ok σ
  | (x, v) :: rest, σ =>
    match σ.assign x v with
    | .error f => .error f
    | .ok τ => assignAll rest τ

end State

/-! ### Expressions -/

mutual

/-- The value of an operand, and the heap it lives in. -/
def Operand.eval (scopes : List Scope) : Operand → Heap → Except Fault (Value × Heap)
  | .literal l, h => .ok (l.value.toValue, h)
  | .var x, h =>
    match findIn x scopes with
    | some w => .ok (w.value, h)
    | none => .error (.unknownIdent x)
  | .array os, h => (os.eval scopes h).map fun r => r.2.newArray r.1.toArray
  | .map es, h => (es.eval scopes h).map fun r => r.2.newMap (.ofList r.1)

/-- The values of elements. -/
def Operands.eval (scopes : List Scope) : Operands → Heap → Except Fault (List Value × Heap)
  | .nil, h => .ok ([], h)
  | .cons o rest, h =>
    match o.eval scopes h with
    | .error f => .error f
    | .ok (v, h) => (rest.eval scopes h).map fun r => (v :: r.1, r.2)

/-- The bindings of entries. -/
def Entries.eval (scopes : List Scope) :
    Entries → Heap → Except Fault (List (String × Value) × Heap)
  | .nil, h => .ok ([], h)
  | .cons k o rest, h =>
    match o.eval scopes h with
    | .error f => .error f
    | .ok (v, h) => (rest.eval scopes h).map fun r => ((k.text, v) :: r.1, r.2)

end

/-- The value of an expression, and the heap it lives in. -/
def Expr.eval (scopes : List Scope) : Expr → Heap → Except Fault (Value × Heap)
  | .operand o, h => o.eval scopes h
  | .unary op e, h =>
    match e.eval scopes h with
    | .error f => .error f
    | .ok (v, h) => (Arithmetic.unary h op v).map fun x => (x, h)
  | .binary op a b, h =>
    match a.eval scopes h with
    | .error f => .error f
    | .ok (v, h) =>
      match b.eval scopes h with
      | .error f => .error f
      | .ok (w, h) => (Arithmetic.binary h op v w).map fun x => (x, h)
  | .paren e, h => e.eval scopes h

/-- The values of expressions. -/
def evalAll (scopes : List Scope) : List Expr → Heap → Except Fault (List Value × Heap)
  | [], h => .ok ([], h)
  | e :: es, h =>
    match e.eval scopes h with
    | .error f => .error f
    | .ok (v, h) => (evalAll scopes es h).map fun r => (v :: r.1, r.2)

/-- Whether a condition holds, and the state behind it. -/
def Expr.holds (e : Expr) (σ : State) : Except Fault (Bool × State) :=
  (e.eval σ.scopes σ.heap).map fun r => (r.1.truthy r.2, { σ with heap := r.2 })

/-! ### Statements -/

/-- Runs something in a new block. -/
def inBlock (types : List Ty) (run : State → Option Result) (σ : State) : Option Result :=
  match run (σ.enter types) with
  | some (.ok (e, τ)) => some (.ok (e, τ.leave))
  | r => r

/-- Repeats a body while a condition holds, for at most some iterations. -/
def repeatWhile (cond : State → Except Fault (Bool × State)) (body : State → Option Result) :
    Nat → State → Option Result
  | 0, _ => none
  | n + 1, σ =>
    match cond σ with
    | .error f => some (.error f)
    | .ok (false, σ) => some (.ok (.normal, σ))
    | .ok (true, σ) =>
      match body σ with
      | none => none
      | some (.error f) => some (.error f)
      | some (.ok (.normal, τ)) => repeatWhile cond body n τ
      | some (.ok (.continue, τ)) => repeatWhile cond body n τ
      | some (.ok (.break, τ)) => some (.ok (.normal, τ))
      | some (.ok (.return v, τ)) => some (.ok (.return v, τ))

mutual

/-- Runs a statement with at most `limit` iterations of each loop. -/
def Stmt.exec (limit : Nat) : Stmt → State → Option Result
  | .declare groups, σ => some (.ok (.normal, σ.declareGroups groups))
  | .assign xs es, σ =>
    match evalAll σ.scopes es σ.heap with
    | .error f => some (.error f)
    | .ok (vs, h) =>
      some ((State.assignAll (xs.zip vs) { σ with heap := h }).map fun τ => (.normal, τ))
  | .return e, σ =>
    some ((e.eval σ.scopes σ.heap).map fun r => (.return r.1, { σ with heap := r.2 }))
  | .break, σ => some (.ok (.break, σ))
  | .continue, σ => some (.ok (.continue, σ))
  | .if c b rest, σ =>
    match c.holds σ with
    | .error f => some (.error f)
    | .ok (true, σ) => inBlock b.types (b.exec limit) σ
    | .ok (false, σ) => rest.exec limit σ
  | .while c b, σ => repeatWhile c.holds (inBlock b.types (b.exec limit)) limit σ

/-- Runs the first branch whose condition holds. -/
def Branches.exec (limit : Nat) : Branches → State → Option Result
  | .none, σ => some (.ok (.normal, σ))
  | .else b, σ => inBlock b.types (b.exec limit) σ
  | .elif c b rest, σ =>
    match c.holds σ with
    | .error f => some (.error f)
    | .ok (true, σ) => inBlock b.types (b.exec limit) σ
    | .ok (false, σ) => rest.exec limit σ

/-- Runs statements in order, up to the first that does not end normally. -/
def Body.exec (limit : Nat) : Body → State → Option Result
  | .nil, σ => some (.ok (.normal, σ))
  | .cons s rest, σ =>
    match s.exec limit σ with
    | some (.ok (.normal, τ)) => rest.exec limit τ
    | r => r

end

/-! ### Functions -/

/-- The state in which a function starts with checked arguments. -/
def Func.start (f : Func) (args : List Value) (h : Heap) : State :=
  let (values, heap) := h.defaults f.body.types
  ⟨[⟨(f.params.zip args).map fun p => ⟨p.1.1, p.1.2, p.2⟩, values⟩], heap⟩

/-- The results of a function whose body has been run, and the heap they live in. -/
def answered : Option Result → Option (Except Fault (List Value × Heap))
  | none => none
  | some (.error e) => some (.error e)
  | some (.ok (.return v, σ)) => some (.ok ([v], σ.heap))
  | some (.ok (_, σ)) => some (.ok ([], σ.heap))

/-- Runs a function: its result if it returns one, and the heap the result lives in. -/
def Func.run (f : Func) (limit : Nat) (args : List Value) (h : Heap) :
    Option (Except Fault (List Value × Heap)) :=
  if args.length ≠ f.params.length then some (.error (.wrongParams f.name f.params.length))
  else
    match checkParams 1 (f.params.map Prod.snd) args with
    | .error e => some (.error e)
    | .ok args => answered (f.body.exec limit (f.start args h))

end Covenant.Structured
