import Covenant.Lexeme.Basic

/-!
# Slices of source text

Reading starts by cutting the source into slices: blanks, comments, and the texts of tokens. `cut`
takes the longest slice at the front of a text. It fails where no token can go on, and then tells
how many characters behind the start of the slice the failure lies. Every text ends in a line feed,
so a slice never has to ask whether it stands at the end.
-/

namespace Covenant

/-- What a slice of source text is. -/
inductive Shape where
  | blank | comment | newline | punct | oper | number | word | string
deriving DecidableEq, Repr

/-- The first slice of a text and what follows it. -/
structure Cut where
  shape : Shape
  text : List Char
  rest : List Char

namespace Cut

/-- Blanks that separate tokens. -/
def isSpace (c : Char) : Bool := c == ' ' || c == '\t' || c == '\r'

/-- Letters of names. -/
def isLetter (c : Char) : Bool := ('a' ≤ c ∧ c ≤ 'z') || ('A' ≤ c ∧ c ≤ 'Z') || c == '_'

/-- The marks that can start a name. -/
def isMark (c : Char) : Bool := c == '$' || c == '@'

/-- Characters of a name after the first. -/
def isNameChar (c : Char) : Bool := isLetter c || Number.isDigit c

/-- Characters of a number. -/
def isNumberChar (c : Char) : Bool := Number.isDigit c || c == '.'

/-- Characters that start an operator of up to two characters. -/
def startsPair (c : Char) : Bool :=
  c == '=' || c == '!' || c == '<' || c == '>' || c == '&' || c == '|'

/-- Characters that can be the second of an operator. -/
def endsPair (c : Char) : Bool := c == '=' || c == '&' || c == '|'

/-- Length of a block comment's text up to and with its end. -/
def commentLength : List Char → Nat → Option Nat
  | [], _ => none
  | '*' :: '/' :: _, n => some (n + 2)
  | _ :: cs, n => commentLength cs (n + 1)

/-- Length of a string's text up to and with its closing quote; a backslash shields the character
behind it. -/
def stringLength : List Char → Nat → Option Nat
  | [], _ => none
  | ['\\'], _ => none
  | '\\' :: _ :: cs, n => stringLength cs (n + 2)
  | '"' :: _, n => some (n + 1)
  | _ :: cs, n => stringLength cs (n + 1)

/-- Length of a raw string's text up to and with its closing back quote. -/
def rawLength : List Char → Nat → Option Nat
  | [], _ => none
  | c :: cs, n => if c = '\x60' then some (n + 1) else rawLength cs (n + 1)

/-- The slice of a first character and the next `n`. -/
def take (shape : Shape) (c : Char) (cs : List Char) (n : Nat) : Cut :=
  ⟨shape, c :: cs.take n, cs.drop n⟩

/-- A slice that must close; it fails at its start if it does not. -/
def closed (shape : Shape) (c : Char) (cs : List Char) (n : Option Nat) : Except Nat Cut :=
  match n with
  | some n => .ok (take shape c cs n)
  | none => .error 0

/-- A slice that may not run into a letter or mark for which `bad` holds. -/
def guarded (bad : Char → Bool) (k : Cut) : Except Nat Cut :=
  match k.rest with
  | d :: _ => if bad d then .error k.text.length else .ok k
  | [] => .ok k

/-- The slice that starts with the character `c`, followed by the text `cs`. -/
def first (c : Char) (cs : List Char) : Except Nat Cut :=
  if isSpace c then
    .ok (take .blank c cs (cs.takeWhile isSpace).length)
  else if c = '\n' ∨ c = ';' then
    .ok (take .newline c cs 0)
  else if c = '/' then
    match cs with
    | '/' :: r => .ok (take .comment c cs (1 + (r.takeWhile (· != '\n')).length))
    | '*' :: r => closed .comment c cs ((commentLength r 0).map (· + 1))
    | _ => .ok (take .oper c cs 0)
  else if c = '*' ∨ c = '+' ∨ c = '-' then
    .ok (take .oper c cs 0)
  else if c = '"' then
    closed .string c cs (stringLength cs 0)
  else if c = '\x60' then
    closed .string c cs (rawLength cs 0)
  else if Number.isDigit c then
    guarded (fun d => isLetter d || isMark d) (take .number c cs (cs.takeWhile isNumberChar).length)
  else if isLetter c || isMark c then
    guarded isMark (take .word c cs (cs.takeWhile isNameChar).length)
  else if c = '.' then
    match cs with
    | '.' :: '.' :: _ => .ok (take .word c cs 2)
    | '.' :: _ => .error 2
    | _ => .ok (take .punct c cs 0)
  else if startsPair c then
    match cs with
    | d :: _ => .ok (take .oper c cs (if endsPair d then 1 else 0))
    | [] => .ok (take .oper c cs 0)
  else if (Punct.ofChar? c).isSome then
    .ok (take .punct c cs 0)
  else
    .error 0

end Cut

namespace Position

/-- Lines are counted up to this number only. -/
def lastLine : Nat := 65535

/-- The position behind one character. -/
def next (p : Position) (c : Char) : Position :=
  if c = '\n' then ⟨min (p.line + 1) lastLine, 1⟩ else ⟨p.line, p.column + 1⟩

/-- The position behind some characters. -/
def after (p : Position) (cs : List Char) : Position := cs.foldl next p

end Position

end Covenant
