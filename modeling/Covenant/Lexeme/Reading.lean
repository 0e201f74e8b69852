import Covenant.Lexeme.Slice
import Covenant.Number.Reading

/-!
# Reading lexemes

`Lexeme.read` turns a source text into lexemes, slice by slice. A slice reads as one lexeme, with
three exceptions that spare the grammar some work: `elif` inside an open `if` reads as `else`, a
left brace and `if`; `action` and `conditions` read as if `func` stood before them; and a right
brace that ends the last branch of an `if` also closes the braces that its `elif`s opened.
-/

namespace Covenant

/-- An `if` whose last branch is still open. -/
structure OpenIf where
  /-- Braces open inside the current branch. -/
  depth : Nat := 0
  /-- Braces opened on behalf of `elif`. -/
  owed : Nat := 0
deriving DecidableEq, Repr

/-- Lexemes read so far and the open `if`s, innermost first. -/
structure Reader where
  lexemes : Array Lexeme := #[]
  ifs : List OpenIf := []

namespace Reader

/-- Adds a lexeme. -/
def push (r : Reader) (t : Token) (p : Position) : Reader :=
  { r with lexemes := r.lexemes.push ⟨t, p⟩ }

/-- Adds the same lexeme several times. -/
def pushTimes (r : Reader) (t : Token) (p : Position) (n : Nat) : Reader :=
  n.repeat (fun r => r.push t p) r

/-- The next word of a text behind blanks and line ends. -/
def nextWord (cs : List Char) : List Char :=
  (cs.dropWhile fun c => Cut.isSpace c || c == '\n').takeWhile Cut.isNameChar

/-- Whether the text goes on with another branch of the `if` that was just closed. -/
def branchFollows (rest : List Char) : Bool :=
  let w := nextWord rest
  w == "else".toList || w == "elif".toList

/-- Counts a left brace. -/
def openBrace (r : Reader) : Reader :=
  match r.ifs with
  | [] => r
  | f :: fs => { r with ifs := { f with depth := f.depth + 1 } :: fs }

/-- Counts a right brace. The one that ends the last branch of an `if` is followed by the braces the
`if` owes. -/
def closeBrace (r : Reader) (p : Position) (rest : List Char) : Reader :=
  match r.ifs with
  | [] => r
  | f :: fs =>
    if f.depth = 0 then r
    else if 1 < f.depth then { r with ifs := { f with depth := f.depth - 1 } :: fs }
    else if branchFollows rest then { r with ifs := { f with depth := 0 } :: fs }
    else { r with ifs := fs }.pushTimes (.punct .rcurly) p f.owed

/-- Adds a punctuation mark. -/
def punct (r : Reader) (m : Punct) (p : Position) (rest : List Char) : Reader :=
  let r := r.push (.punct m) p
  match m with
  | .lcurly => r.openBrace
  | .rcurly => r.closeBrace p rest
  | _ => r

/-- Whether the last lexeme is the keyword `func`. -/
def afterFunc (r : Reader) : Bool :=
  (r.lexemes.back?).any fun l => l.kind == .keyword .func

/-- Adds a keyword. -/
def keyword (r : Reader) (k : Keyword) (p : Position) : Reader :=
  match k with
  | .true => r.push (.const (.bool true)) p
  | .false => r.push (.const (.bool false)) p
  | .nil => r.push (.const .nil) p
  | .action | .conditions =>
    let r := if r.afterFunc then r else r.push (.keyword .func) p
    r.push (.ident k.text) p
  | .if => { r with ifs := {} :: r.ifs }.push (.keyword .if) p
  | .elif =>
    match r.ifs with
    | [] => r.push (.keyword .elif) p
    | f :: fs =>
      (({ r with ifs := { f with owed := f.owed + 1 } :: fs }.push (.keyword .else) p).push
        (.punct .lcurly) p).push (.keyword .if) p
  | k => r.push (.keyword k) p

/-- Adds a name, which may turn out to be a keyword or a type. -/
def word (r : Reader) (cs : List Char) (p : Position) : Except Fault Reader :=
  match cs with
  | ['$'] => .error (.unknownLexeme p)
  | '$' :: name => .ok (r.push (.extend (String.ofList name)) p)
  | _ =>
    let name := String.ofList cs
    match Keyword.ofText? name with
    | some k => .ok (r.keyword k p)
    | none =>
      match Ty.ofName? name with
      | some t => .ok (r.push (.type t) p)
      | none => .ok (r.push (.ident name) p)

/-- The constant a number reads as: a double if it has a point. -/
def numberConstant? (cs : List Char) : Option Constant :=
  let s := String.ofList cs
  if cs.contains '.' then (Number.readFloat? s).map .float else (Number.readInt64? s).map .int

/-- Resolves the escapes of a string; a backslash before any other character stays. -/
def unescape : List Char → List Char
  | '\\' :: 'n' :: cs => '\n' :: unescape cs
  | '\\' :: 't' :: cs => '\t' :: unescape cs
  | '\\' :: 'r' :: cs => '\r' :: unescape cs
  | '\\' :: '"' :: cs => '"' :: unescape cs
  | '\\' :: '\\' :: cs => '\\' :: unescape cs
  | '\\' :: c :: cs => '\\' :: c :: unescape cs
  | c :: cs => c :: unescape cs
  | [] => []

/-- The value of a string slice. Only strings in double quotes have escapes. -/
def stringValue (cs : List Char) : String :=
  match cs with
  | [] => ""
  | q :: body =>
    let inner := body.dropLast
    String.ofList (if q = '"' then unescape inner else inner)

/-- Adds what a slice reads as. -/
def slice (r : Reader) (k : Cut) (p : Position) : Except Fault Reader :=
  match k.shape with
  | .blank => .ok r
  | .comment => .ok r
  | .newline => .ok (r.push .newline p)
  | .punct =>
    match k.text.head?.bind Punct.ofChar? with
    | some m => .ok (r.punct m p k.rest)
    | none => .error (.unknownLexeme p)
  | .oper =>
    if k.text = ['='] then
      .ok (r.push (.punct .eq) p)
    else
      match Operator.ofChars? k.text with
      | some o => .ok (r.push (.oper o) p)
      | none => .error (.unknownLexeme p)
  | .number =>
    match numberConstant? k.text with
    | some c => .ok (r.push (.const c) p)
    | none => .error (.invalidNumber (String.ofList k.text))
  | .word => r.word k.text p
  | .string => .ok (r.push (.const (.str (stringValue k.text))) p)

/-- Reads a text that starts at a position. Every slice takes a character at least, so the length of
the text is fuel enough. -/
def run : Nat → Reader → Position → List Char → Except Error Reader
  | _, r, _, [] => .ok r
  | 0, _, _, _ => .error (.of .outOfSteps)
  | fuel + 1, r, p, c :: cs =>
    match Cut.first c cs with
    | .error n =>
      let q := p.after ((c :: cs).take n)
      .error { fault := .unknownLexeme q, position := some q }
    | .ok k =>
      match r.slice k p with
      | .error f => .error { fault := f, position := some p }
      | .ok r => run fuel r (p.after k.text) k.rest

end Reader

namespace Lexeme

/-- The lexemes of a source text. -/
def read (source : String) : Except Error (Array Lexeme) :=
  let cs := source.toList ++ ['\n']
  (Reader.run cs.length {} ⟨1, 1⟩ cs).map Reader.lexemes

/-- Names of the contracts and functions that are declared outside all braces, by looking at the
lexemes alone. -/
def declaredFrom : Int → List Lexeme → List String
  | _, [] => []
  | level, l :: ls =>
    match l.token with
    | .punct .lcurly => declaredFrom (level + 1) ls
    | .punct .rcurly => declaredFrom (level - 1) ls
    | .keyword .contract | .keyword .func =>
      match level == 0, ls.head?.map Lexeme.token with
      | true, some (.ident name) => name :: declaredFrom level ls
      | _, _ => declaredFrom level ls
    | _ => declaredFrom level ls

/-- Names of the contracts and functions declared at the top of a source text. -/
def declared (source : String) : Except Error (List String) :=
  (read source).map fun ls => declaredFrom 0 ls.toList

end Lexeme

end Covenant
