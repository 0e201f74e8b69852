import Covenant.Error
import Covenant.Number.Shortest
import Covenant.Text.Quoted
import Covenant.Value

/-!
# Lexemes

The words of the language: punctuation, operators, keywords, type names, identifiers, `$` names,
constants and line ends. A lexeme is a token with the position of its first character. The `kind` of
a token is what the grammar looks at; its `word` is the number under which listings show it.
-/

namespace Covenant

/-- Punctuation. -/
inductive Punct where
  | lpar | rpar | comma | dot | colon | eq | lcurly | rcurly | lbrack | rbrack
deriving DecidableEq, Repr

namespace Punct

/-- The character of a punctuation mark. -/
def char : Punct → Char
  | lpar => '('
  | rpar => ')'
  | comma => ','
  | dot => '.'
  | colon => ':'
  | eq => '='
  | lcurly => '\x7b'
  | rcurly => '\x7d'
  | lbrack => '['
  | rbrack => ']'

/-- All punctuation marks. -/
def all : List Punct := [lpar, rpar, comma, dot, colon, eq, lcurly, rcurly, lbrack, rbrack]

/-- The punctuation mark of a character. -/
def ofChar? (c : Char) : Option Punct := all.find? fun p => p.char == c

end Punct

/-- Operators as they are written. -/
inductive Operator where
  | not | mul | add | sub | div | less | great | notEq | and | lessEq | eqEq | grEq | or
deriving DecidableEq, Repr

namespace Operator

/-- The characters of an operator. -/
def text : Operator → String
  | not => "!"
  | mul => "*"
  | add => "+"
  | sub => "-"
  | div => "/"
  | less => "<"
  | great => ">"
  | notEq => "!="
  | and => "&&"
  | lessEq => "<="
  | eqEq => "=="
  | grEq => ">="
  | or => "||"

/-- All operators. -/
def all : List Operator :=
  [not, mul, add, sub, div, less, great, notEq, and, lessEq, eqEq, grEq, or]

/-- The number of an operator: its characters as digits in base 256. -/
def code (o : Operator) : Nat := o.text.toList.foldl (fun n c => 256 * n + c.toNat) 0

/-- The operator written by some characters. -/
def ofChars? (cs : List Char) : Option Operator := all.find? fun o => o.text.toList == cs

end Operator

/-- Keywords; the numbers follow the order. -/
inductive Keyword where
  | contract | func | return | if | elif | else | while | true | false | var | data | settings
  | break | continue | warning | info | nil | action | conditions | tail | error
deriving DecidableEq, Repr

namespace Keyword

/-- The spelling of a keyword. -/
def text : Keyword → String
  | contract => "contract"
  | func => "func"
  | .return => "return"
  | .if => "if"
  | elif => "elif"
  | .else => "else"
  | .while => "while"
  | .true => "true"
  | .false => "false"
  | var => "var"
  | data => "data"
  | settings => "settings"
  | .break => "break"
  | .continue => "continue"
  | warning => "warning"
  | info => "info"
  | nil => "nil"
  | action => "action"
  | conditions => "conditions"
  | tail => "..."
  | error => "error"

/-- All keywords in order. -/
def all : List Keyword :=
  [contract, func, .return, .if, elif, .else, .while, .true, .false, var, data, settings, .break,
    .continue, warning, info, nil, action, conditions, tail, error]

/-- The number of a keyword. -/
def id (k : Keyword) : Nat := k.ctorIdx + 1

/-- The keyword with a spelling. -/
def ofText? (s : String) : Option Keyword := all.find? fun k => k.text == s

end Keyword

/-- What the grammar distinguishes. -/
inductive Kind where
  | punct (p : Punct)
  | oper (o : Operator)
  | number
  | ident
  | newline
  | string
  | keyword (k : Keyword)
  | type
  | extend
deriving DecidableEq, Repr

namespace Kind

/-- The number of a kind: a category in the low byte and what tells its members apart above it. -/
def word : Kind → Nat
  | punct p => 1 + 256 * p.char.toNat
  | oper o => 2 + 256 * o.code
  | number => 3
  | ident => 4
  | newline => 5
  | string => 6
  | keyword k => 8 + 256 * k.id
  | type => 9
  | extend => 10

/-- All kinds. -/
def all : List Kind :=
  [number, ident, newline, string, type, extend] ++ Punct.all.map punct ++ Operator.all.map oper
    ++ Keyword.all.map keyword

/-- The kind with a number. -/
def ofWord? (n : Nat) : Option Kind := all.find? fun k => k.word == n

/-- Whether the kind is an operator. -/
def isOper : Kind → Bool
  | oper _ => true
  | _ => false

end Kind

/-- A word of the language with its content. Numbers, truth values and `nil` share a kind; strings
have their own. -/
inductive Token where
  | punct (p : Punct)
  | oper (o : Operator)
  | const (c : Constant)
  | ident (name : String)
  | extend (name : String)
  | newline
  | keyword (k : Keyword)
  | type (t : Ty)
deriving Inhabited

namespace Token

/-- The kind of a token. -/
def kind : Token → Kind
  | punct p => .punct p
  | oper o => .oper o
  | const (.str _) => .string
  | const _ => .number
  | ident _ => .ident
  | extend _ => .extend
  | newline => .newline
  | keyword k => .keyword k
  | type _ => .type

/-- The token as messages name it. -/
def text : Token → String
  | punct p => String.singleton p.char
  | oper o => o.text
  | const .nil => "nil"
  | const (.bool b) => if b then "true" else "false"
  | const (.int n) => Number.intText n.toInt
  | const (.float x) => Number.Shortest.text x
  | const (.str s) => Text.literal s
  | ident name => name
  | extend name => "$" ++ name
  | newline => "newline"
  | keyword k => k.text
  | type t => t.name

/-- The name an identifier or `$` name carries. -/
def name? : Token → Option String
  | ident name => some name
  | extend name => some name
  | _ => none

end Token

/-- A token with the position of its first character. -/
structure Lexeme where
  token : Token
  position : Position
deriving Inhabited

namespace Lexeme

/-- The kind of a lexeme. -/
def kind (l : Lexeme) : Kind := l.token.kind

/-- The line of a lexeme. -/
def line (l : Lexeme) : Nat := l.position.line

/-- The name a lexeme carries, or the empty name. -/
def name (l : Lexeme) : String := l.token.name?.getD ""

end Lexeme

end Covenant
