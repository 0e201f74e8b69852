/-!
# Blank space

The characters with the Unicode property `White_Space`, and the text operations that look at them:
`trim` drops blanks at both ends, `lines` cuts a text at its line feeds, `fields` cuts a comma
separated list into trimmed, nonempty names.
-/

namespace Covenant.Text

/-- Characters with the Unicode property `White_Space`. -/
def isBlank (c : Char) : Bool :=
  let n := c.toNat
  (9 ≤ n && n ≤ 13) || n == 0x20 || n == 0x85 || n == 0xa0 || n == 0x1680
    || (0x2000 ≤ n && n ≤ 0x200a) || n == 0x2028 || n == 0x2029 || n == 0x202f || n == 0x205f
    || n == 0x3000

/-- Drops blanks at both ends of a list of characters. -/
def trimChars (cs : List Char) : List Char :=
  ((cs.dropWhile isBlank).reverse.dropWhile isBlank).reverse

/-- Drops blanks at both ends of a text. -/
def trim (s : String) : String := String.ofList (trimChars s.toList)

/-- Drops one carriage return at the end of a line. -/
def dropReturn (cs : List Char) : List Char :=
  match cs.reverse with
  | '\r' :: rest => rest.reverse
  | _ => cs

/-- Lines from the parts between line feeds. The last part has no line feed behind it: it keeps a
carriage return at its end, and it is no line if it is empty. -/
def linesOfParts : List (List Char) → List (List Char)
  | [] => []
  | [part] => if part.isEmpty then [] else [part]
  | part :: parts => dropReturn part :: linesOfParts parts

/-- The lines of a text, without their line feeds and the carriage returns before them. A line feed
at the very end opens no further line. -/
def lines (s : String) : List String :=
  (linesOfParts (s.toList.splitOn '\n')).map String.ofList

/-- The trimmed, nonempty names of a comma separated list. -/
def fields (s : String) : List String :=
  ((s.toList.splitOn ',').map trimChars).filterMap fun cs =>
    if cs.isEmpty then none else some (String.ofList cs)

/-- Whether `needle` occurs in a list of characters. -/
def occursIn (needle : List Char) : List Char → Bool
  | [] => needle.isEmpty
  | c :: cs => needle.isPrefixOf (c :: cs) || occursIn needle cs

end Covenant.Text
