import Covenant.Arithmetic

/-!
# Formats

A format is a text with verbs. A verb is a percent sign, an optional precision such as `.2`, and a
letter: `%d` writes an integer, `%f` a double, `%s` and `%v` any value. Two percent signs stand for
one, and a percent sign before anything else stands for itself.
-/

namespace Covenant.Format

/-- A part of a format. -/
inductive Piece where
  | char (c : Char)
  | integer
  | double (places : Nat)
  | value
deriving DecidableEq, Repr

/-- Where the reader of a format stands. -/
inductive Mode where
  | text
  /-- Behind a percent sign. -/
  | verb
  /-- Behind the point of a precision and some digits. -/
  | precision (digits : List Char)

/-- Digits after the point if the format does not say. -/
def usualPlaces : Nat := 6

/-- What a verb letter stands for. -/
def ofLetter (places : Option Nat) : Char → List Piece
  | '%' => [.char '%']
  | 'd' => [.integer]
  | 'f' => [.double (places.getD usualPlaces)]
  | 's' => [.value]
  | 'v' => [.value]
  | c => [.char '%', .char c]

/-- Reads a format. -/
def read : Mode → List Char → List Piece
  | .text, [] => []
  | .text, c :: cs => if c = '%' then read .verb cs else .char c :: read .text cs
  | .verb, [] => [.char '%']
  | .verb, c :: cs =>
    if c = '.' then read (.precision []) cs else ofLetter none c ++ read .text cs
  | .precision _, [] => [.char '%']
  | .precision ds, c :: cs =>
    if Number.isDigit c then read (.precision (ds ++ [c])) cs
    else ofLetter (Number.readNatBelow? (Number.pow2 64) ds) c ++ read .text cs

/-- Writes the pieces of a format, each verb with the next argument; missing arguments are `nil`. -/
def write (h : Heap) : List Piece → List Value → String → Except Fault String
  | [], _, out => .ok out
  | .char c :: ps, args, out => write h ps args (out.push c)
  | .integer :: ps, args, out => do
    let n ← (args.head?.getD .nil).toInt h
    write h ps args.tail (out ++ Number.intText n.toInt)
  | .double places :: ps, args, out =>
    write h ps args.tail (out ++ Number.Shortest.fixed places (args.head?.getD .nil).toFloat)
  | .value :: ps, args, out => write h ps args.tail (out ++ (args.head?.getD .nil).text h)

/-- A format with its verbs filled in. -/
def apply (h : Heap) (format : String) (args : List Value) : Except Fault String :=
  write h (read .text format.toList) args ""

end Covenant.Format
