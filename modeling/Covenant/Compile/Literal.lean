import Covenant.Compile.Work

/-!
# Array and map literals

Literals have a grammar of their own: items separated by commas, one comma allowed at the end, line
ends anywhere between the brackets. An item is a constant, a variable, a `$` name or another
literal. Each function answers with what it read and the position behind it. A call consumes a
lexeme, or hands the one it looks at to a function that does, so twice the number of lexemes is fuel
enough.
-/

namespace Covenant.Compile

mutual

/-- Reads the entries of a map up to its right brace. `key` is the key whose value comes next, and
`comma` tells whether a comma must come before the next key. -/
def mapFrom (s : Source) (w : Work) : Nat → Nat → Option String → Bool →
    Except Error (List (String × Item) × Nat)
  | 0, _, _, _ => .error (.of .outOfSteps)
  | fuel + 1, i, key, comma =>
    match s.token? i with
    | none => .error (s.errorAt .unclosedMap (i - 1))
    | some .newline => mapFrom s w fuel (i + 1) key comma
    | some t =>
      match key with
      | some name =>
        match t with
        | .punct .colon => do
          let (item, next) ← itemFrom s w fuel (i + 1)
          let (entries, stop) ← mapFrom s w fuel next none true
          return ((name, item) :: entries, stop)
        | _ => .error (s.errorAt .expectedColon i)
      | none =>
        match t, comma with
        | .punct .rcurly, _ => .ok ([], i + 1)
        | .punct .comma, true => mapFrom s w fuel (i + 1) none false
        | _, true => .error (s.errorAt .expectedComma i)
        | .const (.str name), false => mapFrom s w fuel (i + 1) (some name) false
        | .ident name, false => mapFrom s w fuel (i + 1) (some name) false
        | _, false => .error (s.errorAt .expectedKey i)

/-- Reads the items of an array up to its right bracket. `comma` tells whether a comma must come
before the next item. -/
def arrayFrom (s : Source) (w : Work) : Nat → Nat → Bool → Except Error (List Item × Nat)
  | 0, _, _ => .error (.of .outOfSteps)
  | fuel + 1, i, comma =>
    match s.token? i with
    | none => .error (s.errorAt .unclosedArray (i - 1))
    | some .newline => arrayFrom s w fuel (i + 1) comma
    | some t =>
      match t, comma with
      | .punct .rbrack, _ => .ok ([], i + 1)
      | .punct .comma, true => arrayFrom s w fuel (i + 1) false
      | _, true => .error (s.errorAt .expectedComma i)
      | _, false => do
        let (item, next) ← itemFrom s w fuel i
        let (items, stop) ← arrayFrom s w fuel next true
        return (item :: items, stop)

/-- Reads one item. -/
def itemFrom (s : Source) (w : Work) : Nat → Nat → Except Error (Item × Nat)
  | 0, _ => .error (.of .outOfSteps)
  | fuel + 1, i =>
    match s.token? i with
    | none => .error (s.errorAt .expectedValue (i - 1))
    | some .newline => itemFrom s w fuel (i + 1)
    | some (.const c) => .ok (.const c, i + 1)
    | some (.extend name) => .ok (.extend name, i + 1)
    | some (.ident name) =>
      match w.findVar name with
      | some (.var v) => .ok (.var v, i + 1)
      | some (.extend key) => .ok (.extend key, i + 1)
      | none => .error (s.errorAt (.unknownIdent name) i)
    | some (.punct .lcurly) => do
      let (entries, stop) ← mapFrom s w fuel (i + 1) none false
      return (.map entries, stop)
    | some (.punct .lbrack) => do
      let (items, stop) ← arrayFrom s w fuel (i + 1) false
      return (.array items, stop)
    | some _ => .error (s.errorAt .expectedValue i)

end

/-- Steps that suffice to read any literal of a source. -/
def literalFuel (s : Source) : Nat := 2 * s.lexemes.size + 2

/-- Reads the map literal whose left brace stands at a position. -/
def mapLiteral (s : Source) (w : Work) (i : Nat) : Except Error (List (String × Item) × Nat) :=
  mapFrom s w (literalFuel s) (i + 1) none false

/-- Reads the array literal whose left bracket stands at a position. -/
def arrayLiteral (s : Source) (w : Work) (i : Nat) : Except Error (List Item × Nat) :=
  arrayFrom s w (literalFuel s) (i + 1) false

end Covenant.Compile
