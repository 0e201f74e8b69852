import Covenant.Lexeme.Basic

/-!
# The grammar table

Declarations and statements are read by a state machine over lexemes. For every state and kind of
lexeme the table gives the next state, what to do with blocks and with the reading position, and the
action to carry out; or it says what was expected instead. A kind that a state does not mention
takes the state's default row.

Expressions are not part of the table: an entry that leads to `State.eval` asks for one expression,
after which reading goes on in the state given by the entry's flags.
-/

namespace Covenant.Grammar

/-- States of the reader. -/
inductive State where
  | root | body | block | contract | func | funcParams | funcParam | funcParamType | funcTail
  | funcResult | funcDot | var | varType | assignEval | assign | data | settings | consts
  | constsAssign | constsValue | fields | eval
deriving DecidableEq, Repr, Inhabited

/-- What an entry asks for besides the change of state. -/
inductive Action where
  | none | nameBlock | param | paramType | paramTail | result | segment | if | else | while
  | return | continue | break | raise | var | varType | assignVar | assign | data | settings
  | constName | constValue | field | fieldType | fieldTag | fieldComma | fieldLine | fields
deriving DecidableEq, Repr, Inhabited

/-- How an entry moves through blocks and lexemes. -/
structure Flags where
  /-- Go on with the braces of a block. -/
  toBlock : Bool := false
  /-- Go on in the body of the current block. -/
  toBody : Bool := false
  /-- Remember this lexeme. -/
  fork : Bool := false
  /-- Go back to the remembered lexeme. -/
  toFork : Bool := false
  /-- Put a loop label in front of the expression. -/
  label : Bool := false
  /-- The expression may not be empty. -/
  mustEval : Bool := false
  /-- Read the same lexeme again in the next state. -/
  stay : Bool := false
  /-- Open a block. -/
  push : Bool := false
  /-- Close the current block. -/
  pop : Bool := false
deriving DecidableEq, Repr

/-- The flags as a bit set. -/
def Flags.word (f : Flags) : Nat :=
  [f.toBlock, f.toBody, f.fork, f.toFork, f.label, f.mustEval, f.stay, f.push, f.pop].foldr
    (fun b n => 2 * n + b.toNat) 0

/-- A row of the table. -/
inductive Entry where
  | go (next : State) (flags : Flags) (action : Action)
  | fail (expected : Expected)
deriving DecidableEq, Repr

/-- An entry that only changes the state. -/
def goTo (next : State) (action : Action) : Entry := .go next {} action

/-- The entry of a state for a kind of lexeme, if the state mentions the kind. -/
def row : State → Kind → Option Entry
  | .root, .newline => some (goTo .root .none)
  | .root, .keyword .contract => some (.go .contract { push := true } .none)
  | .root, .keyword .func => some (.go .func { push := true } .none)
  | .body, .newline => some (goTo .body .none)
  | .body, .keyword .func => some (.go .func { push := true } .none)
  | .body, .keyword .return => some (goTo .eval .return)
  | .body, .keyword .continue => some (goTo .body .continue)
  | .body, .keyword .break => some (goTo .body .break)
  | .body, .keyword .if =>
    some (.go .eval { push := true, toBlock := true, mustEval := true } .if)
  | .body, .keyword .while =>
    some (.go .eval { push := true, toBlock := true, label := true, mustEval := true } .while)
  | .body, .keyword .else => some (.go .block { push := true } .else)
  | .body, .keyword .var => some (goTo .var .none)
  | .body, .keyword .data => some (goTo .data .data)
  | .body, .keyword .settings => some (goTo .settings .settings)
  | .body, .keyword .error => some (goTo .eval .raise)
  | .body, .keyword .warning => some (goTo .eval .raise)
  | .body, .keyword .info => some (goTo .eval .raise)
  | .body, .ident => some (.go .assignEval { fork := true } .none)
  | .body, .extend => some (.go .assignEval { fork := true } .none)
  | .body, .punct .rcurly => some (.go .body { pop := true } .none)
  | .block, .newline => some (goTo .block .none)
  | .block, .punct .lcurly => some (goTo .body .none)
  | .contract, .ident => some (goTo .block .nameBlock)
  | .func, .ident => some (goTo .funcParams .nameBlock)
  | .funcParams, .punct .lpar => some (goTo .funcParam .none)
  | .funcParam, .newline => some (goTo .funcParam .none)
  | .funcParam, .ident => some (goTo .funcParamType .param)
  | .funcParam, .punct .comma => some (goTo .funcParam .none)
  | .funcParam, .punct .rpar => some (goTo .funcResult .none)
  | .funcParamType, .ident => some (goTo .funcParamType .param)
  | .funcParamType, .type => some (goTo .funcParam .paramType)
  | .funcParamType, .keyword .tail => some (goTo .funcTail .paramTail)
  | .funcParamType, .punct .comma => some (goTo .funcParamType .none)
  | .funcTail, .newline => some (goTo .funcTail .none)
  | .funcTail, .punct .rpar => some (goTo .funcResult .none)
  | .funcResult, .punct .dot => some (goTo .funcDot .none)
  | .funcResult, .type => some (goTo .funcResult .result)
  | .funcResult, .punct .comma => some (goTo .funcResult .none)
  | .funcDot, .ident => some (goTo .funcParams .segment)
  | .var, .newline => some (goTo .body .none)
  | .var, .ident => some (goTo .varType .var)
  | .var, .punct .rcurly => some (.go .body { stay := true } .none)
  | .varType, .ident => some (goTo .varType .var)
  | .varType, .type => some (goTo .var .varType)
  | .varType, .punct .comma => some (goTo .varType .none)
  | .assignEval, .punct .lpar => some (.go .eval { toFork := true, toBody := true } .none)
  | .assignEval, .punct .lbrack => some (.go .eval { toFork := true, toBody := true } .none)
  | .assign, .punct .comma => some (goTo .assign .none)
  | .assign, .ident => some (goTo .assign .assignVar)
  | .assign, .extend => some (goTo .assign .assignVar)
  | .assign, .punct .eq => some (.go .eval { toBody := true, mustEval := true } .assign)
  | .data, .punct .lcurly => some (goTo .fields .none)
  | .settings, .punct .lcurly => some (goTo .consts .none)
  | .consts, .newline => some (goTo .consts .none)
  | .consts, .punct .comma => some (goTo .consts .none)
  | .consts, .ident => some (goTo .constsAssign .constName)
  | .consts, .punct .rcurly => some (goTo .body .none)
  | .constsAssign, .punct .eq => some (goTo .constsValue .none)
  | .constsValue, .string => some (goTo .consts .constValue)
  | .constsValue, .number => some (goTo .consts .constValue)
  | .fields, .newline => some (goTo .fields .fieldLine)
  | .fields, .punct .comma => some (goTo .fields .fieldComma)
  | .fields, .ident => some (goTo .fields .field)
  | .fields, .type => some (goTo .fields .fieldType)
  | .fields, .string => some (goTo .fields .fieldTag)
  | .fields, .punct .rcurly => some (goTo .body .fields)
  | _, _ => none

/-- The entry of a state for every kind it does not mention. -/
def otherwise : State → Entry
  | .root => .fail .command
  | .body => .fail .rightCurly
  | .block => .fail .leftCurly
  | .contract => .fail .name
  | .func => .fail .name
  | .funcParams => .go .funcResult { stay := true } .none
  | .funcParam => .fail .params
  | .funcParamType => .fail .type
  | .funcTail => .fail .params
  | .funcResult => .go .block { stay := true } .none
  | .funcDot => .fail .name
  | .var => .fail .vars
  | .varType => .fail .type
  | .assignEval => .go .assign { toFork := true, stay := true } .none
  | .assign => .fail .assign
  | .data => .fail .leftCurly
  | .settings => .fail .leftCurly
  | .consts => .fail .rightCurly
  | .constsAssign => .fail .assign
  | .constsValue => .fail .stringOrNumber
  | .fields => .fail .rightCurly
  | .eval => .fail .command

/-- The table: what to do in a state with a lexeme of a kind. -/
def entry (s : State) (k : Kind) : Entry := (row s k).getD (otherwise s)

/-- The table by the number of a kind; numbers of no kind take the default row. -/
def entryOfWord (s : State) (n : Nat) : Entry :=
  match Kind.ofWord? n with
  | some k => entry s k
  | none => otherwise s

end Covenant.Grammar
