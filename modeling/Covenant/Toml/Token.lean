import Covenant.Number.Digits

/-!
# Tokens of TOML documents

A document is cut into blanks, line ends, comments, punctuation, bare words and strings. Bare words
are keys, numbers, dates and truth values alike; which of them a word is depends on where it stands.
Functions of this module answer with nothing where a document is malformed.
-/

namespace Covenant.Toml

/-- A piece of a document. -/
inductive Token where
  /-- Blanks; the flag is set for one plain space. -/
  | blank (single : Bool)
  | newline
  | comment
  | equals
  | period
  | comma
  | colon
  | plus
  | lbrace
  | rbrace
  | lbracket
  | rbracket
  | word (s : List Char)
  /-- A string; the flag is set for one in triple quotes. -/
  | string (s : List Char) (multiline : Bool)
deriving DecidableEq, Repr

/-- Characters of bare words. -/
def isWordChar (c : Char) : Bool :=
  c.isAlpha || Number.isDigit c || c == '-' || c == '_'

/-- Characters that comments may hold. -/
def isCommentChar (c : Char) : Bool := c == '\t' || 0x20 ≤ c.toNat

/-- Characters that strings may hold as they are. -/
def isStringChar (c : Char) : Bool := c == '\t' || (0x20 ≤ c.toNat && c.toNat != 0x7f)

/-- Line ends with a carriage return become plain ones. -/
def foldReturns : List Char → List Char
  | '\r' :: '\n' :: cs => '\n' :: foldReturns cs
  | c :: cs => c :: foldReturns cs
  | [] => []

/-! ### Strings -/

/-- The value of a hexadecimal digit. -/
def hexValue? (c : Char) : Option Nat :=
  if '0' ≤ c ∧ c ≤ '9' then some (c.toNat - '0'.toNat)
  else if 'a' ≤ c ∧ c ≤ 'f' then some (c.toNat - 'a'.toNat + 10)
  else if 'A' ≤ c ∧ c ≤ 'F' then some (c.toNat - 'A'.toNat + 10)
  else none

/-- A number of that many hexadecimal digits, and the rest. -/
def hexNumber? : Nat → Nat → List Char → Option (Nat × List Char)
  | 0, n, cs => some (n, cs)
  | _ + 1, _, [] => none
  | count + 1, n, c :: cs => do hexNumber? count (16 * n + (← hexValue? c)) cs

/-- The character of a numbered escape, and the rest. -/
def numbered? (count : Nat) (cs : List Char) : Option (List Char × List Char) := do
  let (n, rest) ← hexNumber? count 0 cs
  if n < 0x110000 ∧ ¬ (0xD800 ≤ n ∧ n < 0xE000) then some ([Char.ofNat n], rest) else none

/-- Whether a character is a blank or a line end. -/
def isGap (c : Char) : Bool := c == ' ' || c == '\t' || c == '\n'

/-- What a backslash before some text stands for, and the rest. In triple quotes a backslash at the
end of a line swallows the white space up to the next text. -/
def escape? (multiline : Bool) : List Char → Option (List Char × List Char)
  | '"' :: cs => some (['"'], cs)
  | '\\' :: cs => some (['\\'], cs)
  | 'b' :: cs => some (['\x08'], cs)
  | 'f' :: cs => some (['\x0c'], cs)
  | 'n' :: cs => some (['\n'], cs)
  | 'r' :: cs => some (['\r'], cs)
  | 't' :: cs => some (['\t'], cs)
  | 'u' :: cs => numbered? 4 cs
  | 'U' :: cs => numbered? 8 cs
  | cs =>
    if multiline && cs.head?.any isGap then
      match cs.dropWhile fun c => c == ' ' || c == '\t' with
      | [] => some ([], [])
      | '\n' :: rest => some ([], rest.dropWhile isGap)
      | _ => none
    else none

/-- The text up to the closing quotes of a triple quoted string; up to two more quotes belong to
it. -/
def closeTriple (quote : Char) (cs : List Char) : List Char × List Char :=
  match cs with
  | a :: b :: rest =>
    if a = quote then (if b = quote then ([quote, quote], rest) else ([quote], b :: rest))
    else ([], cs)
  | [a] => if a = quote then ([quote], []) else ([], cs)
  | [] => ([], [])

/-- Reads a string behind its opening quotes. Every step takes a character, so their number is fuel
enough. -/
def stringBody? (quote : Char) (escapes multiline : Bool) :
    Nat → List Char → List Char → Option (List Char × List Char)
  | 0, _, _ => none
  | _ + 1, _, [] => none
  | fuel + 1, out, c :: cs =>
    if c = '\n' then
      if multiline then stringBody? quote escapes multiline fuel (out ++ ['\n']) cs else none
    else if c = quote then
      if !multiline then some (out, cs)
      else
        match cs with
        | a :: b :: rest =>
          if a = quote ∧ b = quote then
            let (more, rest) := closeTriple quote rest
            some (out ++ more, rest)
          else if a = quote then
            stringBody? quote escapes multiline fuel (out ++ [quote, quote]) (b :: rest)
          else
            stringBody? quote escapes multiline fuel (out ++ [quote]) cs
        | _ => none
    else if c = '\\' ∧ escapes then
      match escape? multiline cs with
      | some (t, rest) => stringBody? quote escapes multiline fuel (out ++ t) rest
      | none => none
    else if isStringChar c then
      stringBody? quote escapes multiline fuel (out ++ [c]) cs
    else none

/-- Reads a string behind its first quote. A line end right behind triple quotes does not count. -/
def string? (quote : Char) (cs : List Char) : Option (Token × List Char) :=
  let escapes := quote == '"'
  let body (multiline : Bool) (cs : List Char) : Option (Token × List Char) :=
    (stringBody? quote escapes multiline (cs.length + 1) [] cs).map fun (s, rest) =>
      (.string s multiline, rest)
  match cs with
  | a :: b :: rest =>
    if a = quote ∧ b = quote then
      match rest with
      | '\n' :: rest => body true rest
      | _ => body true rest
    else if a = quote then some (.string [] false, b :: rest)
    else body false cs
  | [a] => if a = quote then some (.string [] false, []) else none
  | [] => none

/-! ### Tokens -/

/-- The first token of a text and the rest. -/
def token? : List Char → Option (Token × List Char)
  | [] => none
  | c :: cs =>
    match c with
    | '\n' => some (.newline, cs)
    | '=' => some (.equals, cs)
    | '.' => some (.period, cs)
    | ',' => some (.comma, cs)
    | ':' => some (.colon, cs)
    | '+' => some (.plus, cs)
    | '\x7b' => some (.lbrace, cs)
    | '\x7d' => some (.rbrace, cs)
    | '[' => some (.lbracket, cs)
    | ']' => some (.rbracket, cs)
    | '#' => some (.comment, cs.dropWhile isCommentChar)
    | '"' => string? '"' cs
    | '\x27' => string? '\x27' cs
    | _ =>
      if c = ' ' ∨ c = '\t' then
        let rest := cs.dropWhile fun c => c == ' ' || c == '\t'
        some (.blank (c == ' ' && rest.length == cs.length), rest)
      else if isWordChar c then
        some (.word (c :: cs.takeWhile isWordChar), cs.dropWhile isWordChar)
      else none

/-- Cuts a text into tokens. -/
def cut? : Nat → List Char → Option (List Token)
  | _, [] => some []
  | 0, _ => none
  | fuel + 1, cs => do
    let (t, rest) ← token? cs
    let ts ← cut? fuel rest
    return t :: ts

/-- The tokens of a document. A byte order mark at its start does not count. -/
def tokens? (document : String) : Option (List Token) :=
  let cs := match document.toList with
    | '\ufeff' :: cs => cs
    | cs => cs
  let cs := foldReturns cs
  cut? (cs.length + 1) cs

end Covenant.Toml
