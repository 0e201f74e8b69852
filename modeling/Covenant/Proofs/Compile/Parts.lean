import Covenant.Compile.Literal
import Covenant.Proofs.Computation

/-!
# What reading a literal takes

Literals are read by three functions that call each other: one reads the entries of a map, one the
items of an array, and one a single item. Each answers with what it has read and the position behind
it. `LiteralPart.Read` says what has been taken in between, one token after the other. What holds of
all literals is proved by induction on this, so that the three functions are opened once
(`LiteralPart.Read.of_eq_ok`).
-/

namespace Covenant

/-- Whether a token can stand in a literal and is no bracket. -/
def Token.isPlain : Token → Bool
  | .newline | .const _ | .ident _ | .extend _ | .punct .comma | .punct .colon => true
  | _ => false

namespace Compile

open Covenant.Computation

/-- What is read of a literal at a time. -/
inductive LiteralPart
  | entries (es : List (String × Item))
  | items (is : List Item)
  | item (x : Item)

namespace LiteralPart

/-- How a part of a literal is read from one position to another. -/
inductive Read (s : Source) (w : Work) : Nat → LiteralPart → Nat → Prop
  /-- A line feed, a comma, a key or a colon stands in front of what is read. -/
  | skip {i j : Nat} {p : LiteralPart} {t : Token} : s.token? i = some t → t.isPlain = true →
      Read s w (i + 1) p j → Read s w i p j
  | closeMap {i : Nat} : s.token? i = some (.punct .rcurly) → Read s w i (.entries []) (i + 1)
  | closeArray {i : Nat} : s.token? i = some (.punct .rbrack) → Read s w i (.items []) (i + 1)
  | entry {i j k : Nat} {name : String} {x : Item} {es : List (String × Item)} : Read s w i
    (.item x) j →
      Read s w j (.entries es) k → Read s w i (.entries ((name, x) :: es)) k
  | element {i j k : Nat} {x : Item} {is : List Item} : Read s w i (.item x) j →
      Read s w j (.items is) k → Read s w i (.items (x :: is)) k
  | const {i : Nat} {c : Constant} : s.token? i = some (.const c) →
    Read s w i (.item (.const c)) (i + 1)
  | extend {i : Nat} {name : String} : s.token? i = some (.extend name) →
      Read s w i (.item (.extend name)) (i + 1)
  | var {i : Nat} {x : String} {v : VarRef} : s.token? i = some (.ident x) →
      w.findVar x = some (.var v) → Read s w i (.item (.var v)) (i + 1)
  | field {i : Nat} {x key : String} : s.token? i = some (.ident x) →
      w.findVar x = some (.extend key) → Read s w i (.item (.extend key)) (i + 1)
  | map {i j : Nat} {es : List (String × Item)} : s.token? i = some (.punct .lcurly) →
      Read s w (i + 1) (.entries es) j → Read s w i (.item (.map es)) j
  | array {i j : Nat} {is : List Item} : s.token? i = some (.punct .lbrack) →
      Read s w (i + 1) (.items is) j → Read s w i (.item (.array is)) j

namespace Read

variable {s : Source} {w : Work} {i : Nat}

/-- **What the readers of literals answer with is what they have read.** -/
theorem of_eq_ok (s : Source) (w : Work) (fuel : Nat) :
    (∀ i key comma r, mapFrom s w fuel i key comma = .ok r → Read s w i (.entries r.1) r.2) ∧
    (∀ i comma r, arrayFrom s w fuel i comma = .ok r → Read s w i (.items r.1) r.2) ∧
    ∀ i r, itemFrom s w fuel i = .ok r → Read s w i (.item r.1) r.2 := by
  -- on the fuel, for the three readers at once; the cases are those of their definitions
  induction fuel with
  | zero => exact ⟨fun _ _ _ _ h => (by cases h), fun _ _ _ h => (by cases h),
    fun _ _ h => (by cases h)⟩
  | succ fuel ih =>
    obtain ⟨ihmap, iharray, ihitem⟩ := ih
    refine ⟨fun i key comma r h => ?map, fun i comma r h => ?array, fun i r h => ?item⟩
    case map =>
      unfold mapFrom at h
      split at h
      · cases h
      · exact .skip ‹_› rfl (ihmap _ _ _ r h)
      · split at h
        · split at h
          · obtain ⟨⟨x, next⟩, hitem, h⟩ := except_bind_eq_ok h
            obtain ⟨⟨es, stop⟩, hentries, h⟩ := except_bind_eq_ok h
            cases h
            exact .skip ‹_› rfl (.entry (ihitem _ _ hitem) (ihmap _ _ _ _ hentries))
          · cases h
        · split at h
          · cases h
            exact .closeMap ‹_›
          · exact .skip ‹_› rfl (ihmap _ _ _ r h)
          · cases h
          · exact .skip ‹_› rfl (ihmap _ _ _ r h)
          · exact .skip ‹_› rfl (ihmap _ _ _ r h)
          · cases h
    case array =>
      unfold arrayFrom at h
      split at h
      · cases h
      · exact .skip ‹_› rfl (iharray _ _ r h)
      · split at h
        · cases h
          exact .closeArray ‹_›
        · exact .skip ‹_› rfl (iharray _ _ r h)
        · cases h
        · obtain ⟨⟨x, next⟩, hitem, h⟩ := except_bind_eq_ok h
          obtain ⟨⟨is, stop⟩, hitems, h⟩ := except_bind_eq_ok h
          cases h
          exact .element (ihitem _ _ hitem) (iharray _ _ _ hitems)
    case item =>
      unfold itemFrom at h
      split at h
      · cases h
      · exact .skip ‹_› rfl (ihitem _ r h)
      · cases h
        exact .const ‹_›
      · cases h
        exact .extend ‹_›
      · split at h
        · cases h
          exact .var ‹_› ‹_›
        · cases h
          exact .field ‹_› ‹_›
        · cases h
      · obtain ⟨⟨es, stop⟩, hentries, h⟩ := except_bind_eq_ok h
        cases h
        exact .map ‹_› (ihmap _ _ _ _ hentries)
      · obtain ⟨⟨is, stop⟩, hitems, h⟩ := except_bind_eq_ok h
        cases h
        exact .array ‹_› (iharray _ _ _ hitems)
      · cases h

theorem of_mapLiteral {r : List (String × Item) × Nat} (h : mapLiteral s w i = .ok r) :
    Read s w (i + 1) (.entries r.1) r.2 :=
  (of_eq_ok s w _).1 _ _ _ r h

theorem of_arrayLiteral {r : List Item × Nat} (h : arrayLiteral s w i = .ok r) :
    Read s w (i + 1) (.items r.1) r.2 :=
  (of_eq_ok s w _).2.1 _ _ r h

end Read

end LiteralPart

end Compile

end Covenant
