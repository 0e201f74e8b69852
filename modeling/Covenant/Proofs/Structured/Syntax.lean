import Covenant.Opcode
import Covenant.Proofs.Structured.Word

/-!
# Structured programs

The trees of the structured part of the language: a function with typed parameters and one result,
whose body declares variables at any level, assigns to them, branches with `if`, `elif` and `else`,
loops with `while`, leaves a loop or an iteration with `break` and `continue`, and returns. One
`var` may declare variables of several types, and one assignment may give several variables their
values. The operands of expressions are constants, variables, and array and map literals whose
elements are operands again.

Trees keep parentheses. `Expr.isGrouped` says that a tree is the one the priorities of its operators
give, so that every text has one tree. `isScoped` says that variables are declared before they are
used and once in each block, that every target of an assignment has its value, that conditions have
no braces, and that `break` and `continue` stand inside a loop. `Written` gives the words of a tree:
one statement a line, any number of empty lines, and any number of line ends before `else` and
`elif`.
-/

namespace Covenant.Structured

/-! ### Trees -/

/-- The key of an entry of a map literal: a name, or a literal that reads as a string. -/
inductive Key where
  | name (name : String)
  | quoted (l : Literal) (s : String) (reads : l.value = .str s)

mutual

/-- An operand of an expression, or an element of an array or map literal. -/
inductive Operand where
  | literal (l : Literal)
  | var (name : String)
  | array (items : Operands)
  | map (entries : Entries)

/-- The elements of an array literal. -/
inductive Operands where
  | nil
  | cons (o : Operand) (rest : Operands)

/-- The entries of a map literal. -/
inductive Entries where
  | nil
  | cons (key : Key) (o : Operand) (rest : Entries)

end

/-- An expression. -/
inductive Expr where
  | operand (o : Operand)
  | unary (op : UnaryOp) (e : Expr)
  | binary (op : BinaryOp) (a b : Expr)
  | paren (e : Expr)

mutual

/-- A statement. -/
inductive Stmt where
  | declare (groups : List (List String × Ty))
  | assign (targets : List String) (es : List Expr)
  | return (e : Expr)
  | break
  | continue
  | if (cond : Expr) (body : Body) (rest : Branches)
  | while (cond : Expr) (body : Body)

/-- What follows the body of an `if`. -/
inductive Branches where
  | none
  | else (body : Body)
  | elif (cond : Expr) (body : Body) (rest : Branches)

/-- The statements between two braces. -/
inductive Body where
  | nil
  | cons (s : Stmt) (rest : Body)

end

/-- A function with one result. -/
structure Func where
  name : String
  params : List (String × Ty)
  result : Ty
  body : Body

/-! ### Grouping -/

/-- The sign an operator with two operands is written with. -/
def binarySign : BinaryOp → Operator
  | .add => .add
  | .sub => .sub
  | .mul => .mul
  | .div => .div
  | .and => .and
  | .or => .or
  | .equal => .eqEq
  | .notEq => .notEq
  | .less => .less
  | .notLess => .grEq
  | .great => .great
  | .notGreat => .lessEq

/-- The sign an operator with one operand is written with. -/
def unarySign : UnaryOp → Operator
  | .not => .not
  | .sign => .sub

/-- The word a key is written with. -/
def Key.word : Key → Word
  | name x => .name x
  | quoted l _ _ => .literal l

/-- The string that a key stands for. -/
def Key.text : Key → String
  | name x => x
  | quoted _ s _ => s

/-- The comma in front of every element but the first. -/
def commaWords (behind : Bool) : List Word := if behind then [.punct .comma] else []

mutual

/-- The words of an operand. -/
def Operand.words : Operand → List Word
  | .literal l => [.literal l]
  | .var x => [.name x]
  | .array os => .punct .lbrack :: (os.words false ++ [.punct .rbrack])
  | .map es => .punct .lcurly :: (es.words false ++ [.punct .rcurly])

/-- The words of elements, the first of which may stand behind others. -/
def Operands.words (behind : Bool) : Operands → List Word
  | .nil => []
  | .cons o rest => commaWords behind ++ (o.words ++ rest.words true)

/-- The words of entries, the first of which may stand behind others. -/
def Entries.words (behind : Bool) : Entries → List Word
  | .nil => []
  | .cons k o rest =>
    commaWords behind ++ k.word :: .punct .colon :: (o.words ++ rest.words true)

end

mutual

/-- Whether an operand is written without braces. -/
def Operand.isBraceless : Operand → Bool
  | .literal _ => true
  | .var _ => true
  | .array os => os.isBraceless
  | .map _ => false

/-- Whether elements are written without braces. -/
def Operands.isBraceless : Operands → Bool
  | .nil => true
  | .cons o rest => o.isBraceless && rest.isBraceless

end

mutual

/-- Whether every variable of an operand is visible; `scopes` are the names declared so far in the
open blocks, innermost first. -/
def Operand.isScoped (scopes : List (List String)) : Operand → Bool
  | .literal _ => true
  | .var x => scopes.any (·.contains x)
  | .array os => os.isScoped scopes
  | .map es => es.isScoped scopes

/-- Whether every variable of some elements is visible. -/
def Operands.isScoped (scopes : List (List String)) : Operands → Bool
  | .nil => true
  | .cons o rest => o.isScoped scopes && rest.isScoped scopes

/-- Whether every variable of some entries is visible. -/
def Entries.isScoped (scopes : List (List String)) : Entries → Bool
  | .nil => true
  | .cons _ o rest => o.isScoped scopes && rest.isScoped scopes

end

namespace Expr

/-- How strongly the outermost operator binds, if it has two operands. -/
def priority? : Expr → Option Nat
  | binary op _ _ => some op.priority
  | _ => Option.none

/-- Whether the tree is the one that priorities give: an operator's left operand binds at least as
strongly and its right operand more strongly, and a sign stands before an operand without operators
of two operands. -/
def isGrouped : Expr → Bool
  | operand _ => true
  | unary _ e => e.priority?.isNone && e.isGrouped
  | binary op a b =>
    (a.priority?.all (op.priority ≤ ·)) && (b.priority?.all (op.priority < ·)) && a.isGrouped
      && b.isGrouped
  | paren e => e.isGrouped

/-- The words of an expression. -/
def words : Expr → List Word
  | operand o => o.words
  | unary op e => .oper (unarySign op) :: e.words
  | binary op a b => a.words ++ .oper (binarySign op) :: b.words
  | paren e => .punct .lpar :: (e.words ++ [.punct .rpar])

/-- Whether an expression is written without braces. -/
def isBraceless : Expr → Bool
  | operand o => o.isBraceless
  | unary _ e => e.isBraceless
  | binary _ a b => a.isBraceless && b.isBraceless
  | paren e => e.isBraceless

/-- Whether every variable of an expression is visible. -/
def isScoped (scopes : List (List String)) : Expr → Bool
  | operand o => o.isScoped scopes
  | unary _ e => e.isScoped scopes
  | binary _ a b => a.isScoped scopes && b.isScoped scopes
  | paren e => e.isScoped scopes

/-- Whether an expression is the tree that priorities give, of visible variables. -/
def isWellFormed (scopes : List (List String)) (e : Expr) : Bool := e.isGrouped && e.isScoped scopes

/-- Whether an expression may be a condition: a brace behind a condition opens a block. -/
def isCondition (scopes : List (List String)) (e : Expr) : Bool :=
  e.isBraceless && e.isWellFormed scopes

end Expr

/-! ### Scoping -/

/-- Adds names to the innermost block. -/
def declareIn (names : List String) : List (List String) → List (List String)
  | [] => [names]
  | scope :: scopes => (scope ++ names) :: scopes

/-- The names of some groups of variables. -/
def groupNames (groups : List (List String × Ty)) : List String := groups.flatMap Prod.fst

/-- The types of the variables of some groups, in order. -/
def groupTypes (groups : List (List String × Ty)) : List Ty :=
  groups.flatMap fun g => g.1.map fun _ => g.2

/-- The names a statement declares in the block it stands in. -/
def Stmt.names : Stmt → List String
  | .declare groups => groupNames groups
  | _ => []

/-- The types of the variables a statement declares in the block it stands in. -/
def Stmt.types : Stmt → List Ty
  | .declare groups => groupTypes groups
  | _ => []

/-- The types of the variables a block declares, in order. -/
def Body.types : Body → List Ty
  | .nil => []
  | .cons s rest => s.types ++ rest.types

mutual

/-- Whether a statement is grouped and scoped; `inLoop` tells whether it stands inside a loop. -/
def Stmt.isScoped (scopes : List (List String)) (inLoop : Bool) : Stmt → Bool
  | .declare groups =>
    !groups.isEmpty && (groups.all fun g => !g.1.isEmpty) && decide (groupNames groups).Nodup
      && (groupNames groups).all fun x => !(scopes.headD []).contains x
  | .assign xs es =>
    !xs.isEmpty && decide (xs.length = es.length) && (xs.all fun x => scopes.any (·.contains x))
      && es.all (·.isWellFormed scopes)
  | .return e => e.isWellFormed scopes
  | .break => inLoop
  | .continue => inLoop
  | .if c b rest =>
    c.isCondition scopes && b.isScoped ([] :: scopes) inLoop && rest.isScoped scopes inLoop
  | .while c b => c.isCondition scopes && b.isScoped ([] :: scopes) true

/-- Whether further branches are grouped and scoped. -/
def Branches.isScoped (scopes : List (List String)) (inLoop : Bool) : Branches → Bool
  | .none => true
  | .else b => b.isScoped ([] :: scopes) inLoop
  | .elif c b rest =>
    c.isCondition scopes && b.isScoped ([] :: scopes) inLoop && rest.isScoped scopes inLoop

/-- Whether a block is grouped and scoped. -/
def Body.isScoped (scopes : List (List String)) (inLoop : Bool) : Body → Bool
  | .nil => true
  | .cons s rest =>
    s.isScoped scopes inLoop && rest.isScoped (declareIn s.names scopes) inLoop

end

/-- Whether a function is grouped and scoped; parameters belong to the block of the function. -/
def Func.isScoped (f : Func) : Bool :=
  decide (f.params.map Prod.fst).Nodup && f.body.isScoped [f.params.map Prod.fst] false

/-! ### Words -/

/-- Some line ends. -/
def newlines (n : Nat) : List Word := List.replicate n .newline

/-- Names with commas between them. -/
def nameWords : List String → List Word
  | [] => []
  | [x] => [.name x]
  | x :: xs => .name x :: .punct .comma :: nameWords xs

/-- Groups of names, each with its type behind it. -/
def groupWords : List (List String × Ty) → List Word
  | [] => []
  | (names, ty) :: groups => nameWords names ++ .type ty :: groupWords groups

/-- Expressions with commas between them. -/
def exprWords : List Expr → List Word
  | [] => []
  | [e] => e.words
  | e :: es => e.words ++ .punct .comma :: exprWords es

/-- Parameters with commas between them. -/
def paramWords : List (String × Ty) → List Word
  | [] => []
  | [(x, t)] => [.name x, .type t]
  | (x, t) :: ps => .name x :: .type t :: .punct .comma :: paramWords ps

mutual

/-- The words a statement can be written with. -/
def Stmt.Written : Stmt → List Word → Prop
  | .declare groups, ws => ws = .keyword .var :: groupWords groups
  | .assign xs es, ws => ws = nameWords xs ++ .punct .eq :: exprWords es
  | .return e, ws => ws = .keyword .return :: e.words
  | .break, ws => ws = [.keyword .break]
  | .continue, ws => ws = [.keyword .continue]
  | .if c b rest, ws => ∃ bs rs, b.Written bs ∧ rest.Written rs ∧
      ws = .keyword .if :: (c.words ++ .punct .lcurly :: (bs ++ .punct .rcurly :: rs))
  | .while c b, ws => ∃ bs, b.Written bs ∧
      ws = .keyword .while :: (c.words ++ .punct .lcurly :: (bs ++ [.punct .rcurly]))

/-- The words further branches can be written with. -/
def Branches.Written : Branches → List Word → Prop
  | .none, ws => ws = []
  | .else b, ws => ∃ n bs, b.Written bs ∧
      ws = newlines n ++ .keyword .else :: .punct .lcurly :: (bs ++ [.punct .rcurly])
  | .elif c b rest, ws => ∃ n bs rs, b.Written bs ∧ rest.Written rs ∧
      ws = newlines n ++
        .keyword .elif :: (c.words ++ .punct .lcurly :: (bs ++ .punct .rcurly :: rs))

/-- The words a block can be written with: a line end stands between two statements. -/
def Body.Written : Body → List Word → Prop
  | .nil, ws => ∃ n, ws = newlines n
  | .cons s rest, ws => ∃ n m us vs, s.Written us ∧ rest.Written vs ∧ (rest = .nil ∨ 0 < m) ∧
      ws = newlines n ++ (us ++ (newlines m ++ vs))

end

/-- The words a function can be written with. -/
def Func.Written (f : Func) (ws : List Word) : Prop :=
  ∃ n m bs, f.body.Written bs ∧
    ws = newlines n ++ .keyword .func :: .name f.name :: .punct .lpar ::
      (paramWords f.params ++ .punct .rpar :: .type f.result :: .punct .lcurly ::
        (bs ++ .punct .rcurly :: newlines m))

/-- Whether a text is a spelling of a function. -/
def Func.WrittenAs (f : Func) (text : String) : Prop :=
  ∃ ws, f.Written ws ∧ Spells ws text.toList

end Covenant.Structured
