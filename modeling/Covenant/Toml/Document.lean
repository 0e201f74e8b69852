import Covenant.Number.Reading
import Covenant.Toml.Token

/-!
# TOML documents

A document is a list of tables, each with a header and pairs of keys and values. Whole numbers are
kept; of every other kind of value only the form is checked. Keys with dots build tables on the way:
these can be built further, while tables written as values cannot.

Headers follow one rule: a table is opened once, and a list of tables is not opened as a table or
the other way round. A new element of a list of tables forgets the tables that were opened inside
the element before.
-/

namespace Covenant.Toml

/-- A value of a document. -/
inductive Datum where
  | integer (n : Int)
  /-- A text, fraction, truth value, moment, array or table in braces. -/
  | other
  /-- A table built by keys with dots. -/
  | dotted (entries : List (List Char × Datum))

/-- Keys with their values. -/
abbrev Entries := List (List Char × Datum)

/-- A table of a document. -/
structure Table where
  header : List (List Char)
  /-- Whether the table is an element of a list of tables. -/
  element : Bool
  entries : Entries

/-! ### Numbers -/

/-- How far a number has been read. -/
structure NumberScan where
  first : Bool := true
  firstZero : Bool := false
  underscore : Bool := false

/-- Splits digits with single underscores between them off a text. -/
def scanDigits? (isDigit : Char → Bool) (leadingZeros : Bool) :
    NumberScan → List Char → List Char → Option (List Char × List Char)
  | s, out, cs =>
    match cs with
    | [] => if s.first || s.underscore then none else some (out, [])
    | c :: rest =>
      if c = '0' ∧ s.first then
        scanDigits? isDigit leadingZeros { s with first := false, firstZero := true }
          (out ++ [c]) rest
      else if isDigit c then
        if !s.first && s.firstZero && !leadingZeros then none
        else
          scanDigits? isDigit leadingZeros { s with first := false, underscore := false }
            (out ++ [c]) rest
      else if c = '_' ∧ s.first then none
      else if c = '_' ∧ !s.underscore then
        scanDigits? isDigit leadingZeros { s with underscore := true } out rest
      else if s.first || s.underscore then none
      else some (out, cs)

/-- Splits a decimal number, with a sign if one is allowed, off a word. -/
def scanDecimal? (sign leadingZeros : Bool) : List Char → Option (List Char × List Char)
  | '-' :: cs =>
    if sign then
      (scanDigits? Number.isDigit leadingZeros {} [] cs).map fun (ds, rest) => ('-' :: ds, rest)
    else none
  | cs => scanDigits? Number.isDigit leadingZeros {} [] cs

/-- A whole number that fits in 64 signed bits. -/
def fits (n : Int) : Option Datum :=
  if -(Number.pow2 63 : Int) ≤ n ∧ n < (Number.pow2 63 : Int) then some (.integer n) else none

/-- A whole number to a base that is a power of two. -/
def based? (base : Nat) (word : List Char) : Option Datum := do
  let isDigit (c : Char) : Bool := (hexValue? c).any (· < base)
  let (ds, rest) ← scanDigits? isDigit true {} [] word
  if !rest.isEmpty then none
  fits (ds.foldl (fun n c => base * n + (hexValue? c).getD 0) 0)

/-- A whole number in decimal digits. -/
def decimal? (word : List Char) : Option Datum := do
  let (ds, rest) ← scanDecimal? true false word
  if !rest.isEmpty then none
  match ds with
  | '-' :: ds => fits (-(Number.value ds : Int))
  | ds => fits (Number.value ds)

/-- Whether a decimal is in the range of doubles. -/
def isFinite (text : List Char) : Bool :=
  match (Number.readFloat? (String.ofList text)).map Number.Binary64.parts with
  | some (.finite _ _ _) => true
  | _ => false

/-- The exponent behind the letter, which may need the next tokens for its sign. -/
def exponent? (suffix : List Char) (ts : List Token) : Option (List Char × List Token) := do
  match suffix with
  | [] =>
    let ts := match ts with
      | .plus :: ts => ts
      | ts => ts
    match ts with
    | .word w :: ts =>
      let (ds, rest) ← scanDecimal? false true w
      if rest.isEmpty then some (ds, ts) else none
    | _ => none
  | _ =>
    let (ds, rest) ← scanDecimal? true true suffix
    if rest.isEmpty then some (ds, ts) else none

/-- A number with a fraction or an exponent. -/
def fraction? (word : List Char) (after : Option (List Char)) (ts : List Token) :
    Option (Datum × List Token) := do
  let (whole, suffix) ← scanDecimal? true false word
  let (places, suffix) ← match after with
    | none => some ([], suffix)
    | some after =>
      if suffix.isEmpty then
        (scanDecimal? false true after).map fun (ds, rest) => ('.' :: ds, rest)
      else none
  match suffix with
  | [] => if isFinite (whole ++ places) then some (.other, ts) else none
  | c :: suffix =>
    if c = 'e' ∨ c = 'E' then
      let (ds, ts) ← exponent? suffix ts
      if isFinite (whole ++ places ++ 'e' :: ds) then some (.other, ts) else none
    else none

/-- Words that stand for doubles. -/
def specialWords : List (List Char) :=
  ["inf".toList, "-inf".toList, "nan".toList, "-nan".toList]

/-- A number that starts with a word. -/
def number? (word : List Char) (ts : List Token) : Option (Datum × List Token) :=
  match word with
  | '0' :: 'x' :: ds => (based? 16 ds).map (·, ts)
  | '0' :: 'o' :: ds => (based? 8 ds).map (·, ts)
  | '0' :: 'b' :: ds => (based? 2 ds).map (·, ts)
  | _ =>
    if word.contains 'e' || word.contains 'E' then fraction? word none ts
    else
      match ts with
      | .period :: .word after :: ts => fraction? word (some after) ts
      | .period :: _ => none
      | _ =>
        if specialWords.contains word then some (.other, ts)
        else (decimal? word).map (·, ts)

/-! ### Dates and times -/

/-- Skips a token if it is there. -/
def skip (t : Token) : List Token → List Token
  | u :: ts => if u = t then ts else u :: ts
  | [] => []

/-- Skips an optional mark with a word behind it. -/
def skipMarked? (t : Token) : List Token → Option (List Token)
  | u :: ts =>
    if u = t then
      match ts with
      | .word _ :: ts => some ts
      | _ => none
    else some (u :: ts)
  | [] => some []

/-- The time of day behind the colon after its hour. -/
def timeOfDay? : List Token → Option (List Token)
  | .word _ :: .colon :: .word _ :: ts => do
    skipMarked? .colon (← skipMarked? .plus (← skipMarked? .period ts))
  | _ => none

/-- The rest of a moment that starts with a word. -/
def moment? (colonSeen : Bool) (ts : List Token) : Option (List Token) :=
  let ts := match ts with
    | .blank true :: .word _ :: ts => ts
    | ts => ts
  match colonSeen, ts with
  | true, ts => timeOfDay? ts
  | false, .colon :: ts => timeOfDay? ts
  | false, ts => some ts

/-- Whether a letter stands right before a minus. -/
def hasBeforeMinus (letter : Char) : List Char → Bool
  | a :: b :: cs => (a == letter && b == '-') || hasBeforeMinus letter (b :: cs)
  | _ => false

/-- Whether a word looks like a date: a minus inside it that belongs to no exponent, or a letter
that divides date and time. -/
def looksLikeDate (w : List Char) : Bool :=
  w.contains 'T' || w.contains 't' ||
    (w.tail.contains '-' && !hasBeforeMinus 'e' w && !hasBeforeMinus 'E' w)

/-- A number or a moment. -/
def numberOrMoment? (word : List Char) (ts : List Token) : Option (Datum × List Token) :=
  if looksLikeDate word then (moment? false ts).map (.other, ·)
  else
    match ts with
    | .colon :: ts => (moment? true ts).map (.other, ·)
    | ts => number? word ts

/-- A value that is one word. -/
def wordValue? (word : List Char) (ts : List Token) : Option (Datum × List Token) :=
  if word = "true".toList ∨ word = "false".toList then some (.other, ts)
  else if word = "inf".toList ∨ word = "nan".toList then numberOrMoment? word ts
  else
    match word with
    | '-' :: _ => numberOrMoment? word ts
    | c :: _ => if Number.isDigit c then numberOrMoment? word ts else none
    | [] => none

/-! ### Keys and values -/

/-- Skips blanks. -/
def skipBlank : List Token → List Token
  | .blank _ :: ts => ts
  | ts => ts

/-- Skips blanks, line ends and comments. A comment reaches to the end of its line. -/
def skipGap : List Token → Option (List Token)
  | .blank _ :: ts => skipGap ts
  | .newline :: ts => skipGap ts
  | .comment :: .newline :: ts => skipGap ts
  | [.comment] => some []
  | .comment :: _ => none
  | ts => some ts

/-- The end of a line, with an optional comment before it. -/
def lineEnd? (ts : List Token) : Option (List Token) :=
  let ts := match skipBlank ts with
    | .comment :: ts => ts
    | ts => ts
  match ts with
  | [] => some []
  | .newline :: ts => some ts
  | _ => none

/-- A part of a key. -/
def keyPart? : List Token → Option (List Char × List Token)
  | .word w :: ts => some (w, ts)
  | .string s false :: ts => some (s, ts)
  | _ => none

/-- The further parts of a key. -/
def keyRest? : Nat → List Token → Option (List (List Char) × List Token)
  | fuel + 1, .period :: ts => do
    let (k, ts) ← keyPart? (skipBlank ts)
    let (ks, ts) ← keyRest? fuel (skipBlank ts)
    return (k :: ks, ts)
  | _, ts => some ([], ts)

/-- A key, with dots or without. -/
def key? (ts : List Token) : Option (List (List Char) × List Token) := do
  let (k, ts) ← keyPart? ts
  let (ks, ts) ← keyRest? ts.length (skipBlank ts)
  return (k :: ks, ts)

/-- Gives the first entry under a key another value. -/
def replaceFirst (k : List Char) (v : Datum) : Entries → Entries
  | [] => []
  | e :: es => if e.1 = k then (k, v) :: es else e :: replaceFirst k v es

/-- Adds a value under a key. A key with dots goes into the table built under its first part. -/
def add? : List (List Char) → Datum → Entries → Option Entries
  | [], _, entries => some entries
  | [k], v, entries => some (entries ++ [(k, v)])
  | k :: ks, v, entries =>
    match entries.lookup k with
    | some (.dotted inner) => do
      return replaceFirst k (.dotted (← add? ks v inner)) entries
    | some _ => none
    | none => do return entries ++ [(k, .dotted (← add? ks v []))]

mutual

/-- A value. Every step takes a token, so their number is fuel enough. -/
def value? : Nat → List Token → Option (Datum × List Token)
  | fuel + 1, t :: ts =>
    match t with
    | .string _ _ => some (.other, ts)
    | .word w => wordValue? w ts
    | .plus =>
      match ts with
      | .word w :: ts => number? w ts
      | _ => none
    | .lbracket => array? fuel ts
    | .lbrace =>
      match skipBlank ts with
      | .rbrace :: ts => some (.other, ts)
      | ts => braces? fuel ts []
    | _ => none
  | _, _ => none

/-- The elements of an array behind its bracket or a comma. -/
def array? : Nat → List Token → Option (Datum × List Token)
  | fuel + 1, ts => do
    match ← skipGap ts with
    | .rbracket :: ts => some (.other, ts)
    | ts =>
      let (_, ts) ← value? fuel ts
      match ← skipGap ts with
      | .comma :: ts => array? fuel ts
      | .rbracket :: ts => some (.other, ts)
      | _ => none
  | 0, _ => none

/-- The pairs of a table in braces. -/
def braces? : Nat → List Token → Entries → Option (Datum × List Token)
  | fuel + 1, ts, entries => do
    let (k, ts) ← key? ts
    match skipBlank ts with
    | .equals :: ts =>
      let (v, ts) ← value? fuel (skipBlank ts)
      let entries ← add? k v entries
      match skipBlank ts with
      | .rbrace :: ts => some (.other, ts)
      | .comma :: ts => braces? fuel (skipBlank ts) entries
      | _ => none
    | _ => none
  | 0, _, _ => none

end

/-! ### Lines and tables -/

/-- A table header behind its first bracket. -/
def header? (ts : List Token) : Option (List (List Char) × Bool × List Token) := do
  let (element, ts) := match ts with
    | .lbracket :: ts => (true, ts)
    | ts => (false, ts)
  let (k, ts) ← key? (skipBlank ts)
  match element, ts with
  | true, .rbracket :: .rbracket :: ts => return (k, true, ← lineEnd? ts)
  | false, .rbracket :: ts => return (k, false, ← lineEnd? ts)
  | _, _ => none

/-- A line with a key and a value. -/
def pair? (ts : List Token) : Option (List (List Char) × Datum × List Token) := do
  let (k, ts) ← key? ts
  match skipBlank ts with
  | .equals :: ts =>
    let ts := skipBlank ts
    let (v, ts) ← value? (ts.length + 1) ts
    return (k, v, ← lineEnd? ts)
  | _ => none

/-- Reads the lines of a document into the table under way and the tables before it, latest
first. -/
def lines? : Nat → List Token → Table → List Table → Option (List Table)
  | 0, _, _, _ => none
  | fuel + 1, ts, table, done => do
    match ← skipGap ts with
    | [] => return (table :: done).reverse
    | .lbracket :: ts =>
      let (header, element, ts) ← header? ts
      lines? fuel ts { header, element, entries := [] } (table :: done)
    | ts =>
      let (k, v, ts) ← pair? ts
      lines? fuel ts { table with entries := ← add? k v table.entries } done

/-- Whether one header is the start of another. -/
def starts (h k : List (List Char)) : Bool := h.isPrefixOf k

/-- Whether a table may be opened where some are open already; answers with those open behind it. -/
def openTable? (seen : List (List (List Char) × Bool)) (t : Table) :
    Option (List (List (List Char) × Bool)) :=
  if t.element then
    match seen.lookup t.header with
    | some true => some ((t.header, true) :: seen.filter fun s => !starts t.header s.1)
    | some false => none
    | none =>
      if seen.any fun s => starts t.header s.1 then none else some ((t.header, true) :: seen)
  else
    match seen.lookup t.header with
    | some _ => none
    | none => some ((t.header, false) :: seen)

/-- Whether the headers of some tables agree with each other. -/
def headersAgree (tables : List Table) : Bool :=
  (tables.foldl (fun seen t => seen.bind (openTable? · t)) (some [])).isSome

/-- The tables of a document; the first is the one without a header. -/
def document? (text : String) : Option (List Table) := do
  let ts ← tokens? text
  let tables ← lines? (ts.length + 1) ts ⟨[], false, []⟩ []
  if headersAgree tables.tail then some tables else none

end Covenant.Toml
