import Covenant.Number.Digits
import Covenant.Text.Blank

/-!
# Errors

Reading, compiling and running report one type of error: a cause, the place in the source where it
was noticed if there is one, and, for a failed run, the functions it passed on its way out. Causes
are data; their wording is `Fault.message`, and the wording of a whole error is `Error.text`.
-/

namespace Covenant

/-- A place in a source text; lines and columns count from one. -/
structure Position where
  line : Nat
  column : Nat
deriving DecidableEq, Repr, Inhabited

/-- What the grammar expected instead of the lexeme it met. -/
inductive Expected where
  | command | name | leftCurly | rightCurly | params | vars | type | assign | stringOrNumber
deriving DecidableEq, Repr, Inhabited

namespace Expected

/-- The number of a grammar error. -/
def code (e : Expected) : Nat := e.ctorIdx + 1

/-- The wording of a grammar error. -/
def message : Expected → String
  | command => "unknown command"
  | name => "must be the name"
  | leftCurly => "must be '\x7b'"
  | rightCurly => "must be '\x7d'"
  | params => "wrong parameters"
  | vars => "wrong variables"
  | type => "must be type"
  | assign => "must be '='"
  | stringOrNumber => "must be number or string"

end Expected

/-- Why a source is refused or a run fails. -/
inductive Fault where
  -- lexemes
  | unknownLexeme (at_ : Position)
  | invalidNumber (text : String)
  -- grammar
  | grammar (expected : Expected) (lexeme : String) (at_ : Position)
  | missingExpression
  | noPair
  | endOfExpression
  | unexpectedOperator
  | unknownOperator (text : String)
  | multiIndex
  | mustTail
  | unclosedArray
  | unclosedMap
  | expectedKey
  | expectedColon
  | expectedComma
  | expectedValue
  -- declarations
  | redeclared (kind name parent : String)
  | duplicateParam (name : String)
  | duplicateVar (name : String)
  | variadicTwice
  | dataType (at_ : Position)
  | dataName (at_ : Position)
  | dataTag (at_ : Position)
  | dataOutsideContract
  | settingsOutsideContract
  | dataSysVar (name : String)
  | sysVarAssign (name : String)
  | unknownIdent (name : String)
  | unknownVariable (name : String)
  | unknownFunction (name : String)
  | unknownContract (name : String)
  | wrongParams (name : String) (want : Nat)
  | recursion
  | conditionsWrite
  | elseWithoutIf
  -- runs
  | stackEmpty
  | wrongResults (name : String) (want : Nat)
  | unsupportedType
  | divisionByZero
  | invalidInt (text : String)
  | paramType (position : Nat)
  | indexOutOfRange
  | maxArrayIndex
  | maxMapCount
  | selfAssignment
  | mapIndex (type : String)
  | arrayIndex (type : String)
  | notIndexable (type : String)
  | unknownExtend (name : String)
  | extendType (name was now : String)
  | costLimit
  | memoryLimit
  | callDepth
  | timeLimit
  | contractLoop (name : String)
  | contractParams (name : String)
  | undefinedParam (name : String)
  | runtimePanic
  | extension (message : String)
  | contract (payload : String)
  -- neither the reader nor a run can use up the steps it is given
  | outOfSteps
deriving DecidableEq, Repr, Inhabited

namespace Fault

/-- Line and column as they stand in messages. -/
def place (p : Position) : String :=
  "[Ln:" ++ Number.natText p.line ++ " Col:" ++ Number.natText p.column ++ "]"

/-- The wording of a cause. -/
def message : Fault → String
  | unknownLexeme p => "unknown lexeme " ++ place p
  | invalidNumber t => "invalid number '" ++ t ++ "'"
  | grammar e lexeme p => e.message ++ " " ++ lexeme ++ " " ++ place p
  | missingExpression => "there is not eval expression"
  | noPair => "there is not pair"
  | endOfExpression => "unexpected end of the expression"
  | unexpectedOperator => "unexpected operator; expecting operand"
  | unknownOperator t => "unknown operator " ++ t
  | multiIndex => "multi-index is not supported"
  | mustTail => "must be the name of the tail"
  | unclosedArray => "unclosed array initialization"
  | unclosedMap => "unclosed map initialization"
  | expectedKey => "unexpected lexem; expecting string key"
  | expectedColon => "unexpected lexem; expecting colon"
  | expectedComma => "unexpected lexem; expecting comma"
  | expectedValue => "unexpected lexem; expecting string, int value or variable"
  | redeclared kind name parent =>
    kind ++ " '" ++ name ++ "' redeclared in this contract '" ++ parent ++ "'"
  | duplicateParam name => "parameter '" ++ name ++ "' has already been declared"
  | duplicateVar name => "variable '" ++ name ++ "' has already been declared"
  | variadicTwice => "... parameter must be one"
  | dataType p => "expecting type of the data field " ++ place p
  | dataName p => "expecting name of the data field " ++ place p
  | dataTag p => "unexpected tag " ++ place p
  | dataOutsideContract => "data can only be in contract"
  | settingsOutsideContract => "settings can only be in contract"
  | dataSysVar name => "'" ++ name ++ "' is a system variable and cannot be a data field"
  | sysVarAssign name => "system variable $" ++ name ++ " cannot be changed"
  | unknownIdent name => "unknown identifier " ++ name
  | unknownVariable name => "unknown variable " ++ name
  | unknownFunction name => "unknown function " ++ name
  | unknownContract name => "unknown contract " ++ name
  | wrongParams name want =>
    "function " ++ name ++ " must have " ++ Number.natText want ++ " parameters"
  | recursion => "The contract can't call itself recursively"
  | conditionsWrite =>
    "'conditions' cannot call contracts or functions which can modify the blockchain database."
  | elseWithoutIf => "else without if"
  | stackEmpty => "stack is empty"
  | wrongResults name want =>
    "function " ++ name ++ " must return " ++ Number.natText want ++ " values"
  | unsupportedType => "unsupported type"
  | divisionByZero => "divided by zero"
  | invalidInt t => t ++ " is not a valid integer"
  | paramType position => "parameter " ++ Number.natText position ++ " has wrong type"
  | indexOutOfRange => "index out of range"
  | maxArrayIndex => "The index is out of range"
  | maxMapCount => "The maximum length of map"
  | selfAssignment => "self assignment"
  | mapIndex type => "map index must be string, not " ++ type
  | arrayIndex type => "array index must be int, not " ++ type
  | notIndexable type => "type " ++ type ++ " does not support indexing"
  | unknownExtend name => "unknown extend identifier $" ++ name
  | extendType name was now =>
    "$" ++ name ++ " (type " ++ was ++ ") cannot be assigned to the value of type " ++ now
  | costLimit => "cost limit overflow"
  | memoryLimit => "memory limit exceeded"
  | callDepth => "max call depth"
  | timeLimit => "time limit exceeded"
  | contractLoop name => "there is loop in " ++ name ++ " contract"
  | contractParams name =>
    "contract " ++ name ++ " must have the same number of names and values"
  | undefinedParam name => name ++ " is undefined"
  | runtimePanic => "runtime panic error"
  | extension t => t
  | contract t => t
  | outOfSteps => "out of steps"

/-- Whether the cause is a payload raised by a contract itself. -/
def isStructured : Fault → Bool
  | contract _ => true
  | _ => false

end Fault

/-- A function that an error passed on its way out, with the line then running in it. -/
structure TraceEntry where
  name : String
  line : Nat
deriving DecidableEq, Repr

/-- A cause with its surroundings. The trace goes from the innermost function outwards. -/
structure Error where
  fault : Fault
  position : Option Position := none
  trace : List TraceEntry := []
  sourceLine : Option String := none
deriving DecidableEq, Repr

namespace Error

/-- An error known by its cause only. -/
def of (fault : Fault) : Error := { fault }

/-- Records a function the error passed through. Neighbouring entries of one function collapse into
the innermost, and payloads raised by contracts stay bare. -/
def passing (e : Error) (name : String) (line : Nat) : Error :=
  if e.fault.isStructured then e
  else if (e.trace.getLast?).any (·.name == name) then e
  else { e with trace := e.trace ++ [⟨name, line⟩] }

/-- Attaches the line of the source that the position points to. -/
def withSource (e : Error) (source : String) : Error :=
  match e.position with
  | none => e
  | some p =>
    if p.line = 0 then e
    else
      match (Text.lines source)[p.line - 1]? with
      | none => e
      | some l => { e with sourceLine := some l }

/-- The wording of an error: its cause, the functions passed, and the source line with a caret. -/
def text (e : Error) : String :=
  let head := e.trace.foldl
    (fun s t => s ++ " [" ++ t.name ++ " " ++ Number.natText t.line ++ "]") e.fault.message
  match e.position, e.sourceLine with
  | some p, some l =>
    head ++ "\n  | " ++ l ++ "\n  | " ++ String.ofList (List.replicate (p.column - 1) ' ') ++ "^"
  | _, _ => head

end Error

end Covenant
