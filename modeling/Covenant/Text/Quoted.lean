import Covenant.Text.Hidden

/-!
# Quoted text

Two written forms of a text between double quotes. `literal` is the form used in listings and in
messages that name a string lexeme: a backslash before quotes and backslashes, short escapes for
tab, line feed, carriage return and the null character, and `\\u` with the code point in braces for
every character without a glyph. `json` is the form used in structured error payloads.
-/

namespace Covenant.Text

/-- Hexadecimal digits of a number, in lower case. -/
def hex (n : Nat) : List Char := Nat.toDigits 16 n

/-- One character of a literal. -/
def literalChar (c : Char) : List Char :=
  match c with
  | '\x00' => ['\\', '0']
  | '\t' => ['\\', 't']
  | '\r' => ['\\', 'r']
  | '\n' => ['\\', 'n']
  | '\\' => ['\\', '\\']
  | '"' => ['\\', '"']
  | _ => if isHidden c then '\\' :: 'u' :: '\x7b' :: hex c.toNat ++ ['\x7d'] else [c]

/-- A text between quotes with everything that has no glyph escaped. -/
def literal (s : String) : String :=
  String.ofList ('"' :: s.toList.flatMap literalChar ++ ['"'])

/-- One character of a JSON string. -/
def jsonChar (c : Char) : List Char :=
  match c with
  | '"' => ['\\', '"']
  | '\\' => ['\\', '\\']
  | '\x08' => ['\\', 'b']
  | '\x0c' => ['\\', 'f']
  | '\n' => ['\\', 'n']
  | '\r' => ['\\', 'r']
  | '\t' => ['\\', 't']
  | _ =>
    if c.toNat < 0x20 then
      let ds := hex c.toNat
      ['\\', 'u'] ++ List.replicate (4 - ds.length) '0' ++ ds
    else
      [c]

/-- A text as a JSON string. -/
def json (s : String) : String :=
  String.ofList ('"' :: s.toList.flatMap jsonChar ++ ['"'])

end Covenant.Text
