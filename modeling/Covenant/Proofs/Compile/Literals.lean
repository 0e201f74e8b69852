import Covenant.Proofs.Structured.Postfix

/-!
# Reading array and map literals

The tokens a literal can be written with: items and entries with commas between them, one comma more
where there is something, and line ends anywhere between the brackets (`Item.Written`). Whatever
follows, reading takes just these tokens and gives the literal (`Item.Written.read_map`,
`Item.Written.read_array`). Every token takes two steps at most, so the fuel of the reader suffices.
-/

namespace Covenant

open Compile Structured

/-! ### Written literals -/

/-- The tokens that name the key of an entry. -/
inductive Compile.NamesKey : Token → String → Prop
  | string (k : String) : NamesKey (.const (.str k)) k
  | ident (k : String) : NamesKey (.ident k) k

mutual

/-- The tokens an item can be written with where some blocks are open. -/
inductive Item.Written (w : Work) : Item → List Token → Prop
  | const (c : Constant) : Item.Written w (.const c) [.const c]
  | extend (name : String) : Item.Written w (.extend name) [.extend name]
  | var {x : String} {v : VarRef} : w.findVar x = some (.var v) → Item.Written w (.var v) [.ident x]
  | field {x key : String} : w.findVar x = some (.extend key) →
      Item.Written w (.extend key) [.ident x]
  | map {es : List (String × Item)} {ts : List Token} : EntriesWritten w false es ts →
      Item.Written w (.map es) (.punct .lcurly :: ts)
  | array {is : List Item} {ts : List Token} : ItemsWritten w false is ts →
      Item.Written w (.array is) (.punct .lbrack :: ts)

/-- The tokens of entries up to the right brace; `comma` tells whether a comma comes before the next
key. -/
inductive EntriesWritten (w : Work) : Bool → List (String × Item) → List Token → Prop
  | close (comma : Bool) : EntriesWritten w comma [] [.punct .rcurly]
  | newline {comma : Bool} {es : List (String × Item)} {ts : List Token} :
      EntriesWritten w comma es ts → EntriesWritten w comma es (.newline :: ts)
  | comma {es : List (String × Item)} {ts : List Token} : EntriesWritten w false es ts →
      EntriesWritten w true es (.punct .comma :: ts)
  | entry {t : Token} {k : String} {i : Item} {es : List (String × Item)} {us ts : List Token}
      (n m : Nat) : NamesKey t k → Item.Written w i us → EntriesWritten w true es ts →
      EntriesWritten w false ((k, i) :: es)
        (t :: (lineEnds n ++ .punct .colon :: (lineEnds m ++ (us ++ ts))))

/-- The tokens of items up to the right bracket; `comma` tells whether a comma comes before the next
one. -/
inductive ItemsWritten (w : Work) : Bool → List Item → List Token → Prop
  | close (comma : Bool) : ItemsWritten w comma [] [.punct .rbrack]
  | newline {comma : Bool} {is : List Item} {ts : List Token} : ItemsWritten w comma is ts →
      ItemsWritten w comma is (.newline :: ts)
  | comma {is : List Item} {ts : List Token} : ItemsWritten w false is ts →
      ItemsWritten w true is (.punct .comma :: ts)
  | item {i : Item} {is : List Item} {us ts : List Token} : Item.Written w i us →
      ItemsWritten w true is ts → ItemsWritten w false (i :: is) (us ++ ts)

end

/-! ### Reading -/

section Reading

variable {s : Source} {w : Work}

@[simp] theorem length_lineEnds (n : Nat) : (lineEnds n).length = n := List.length_replicate

/-- Line ends between a key and its colon are passed over. -/
theorem mapFrom_lineEnds {i n fuel : Nat} {k : Option String} {comma : Bool} {ts : List Token}
    (h : TokensAt s i (lineEnds n ++ ts)) :
    mapFrom s w (fuel + n) i k comma = mapFrom s w fuel (i + n) k comma := by
  induction n generalizing i with
  | zero => rfl
  | succ n ih =>
    have h' : TokensAt s i (.newline :: (lineEnds n ++ ts)) := h
    rw [← Nat.add_assoc, mapFrom, h'.token?]
    dsimp only
    rw [ih h'.next]
    congr 1
    omega

/-- Line ends before the value of an entry are passed over. -/
theorem itemFrom_lineEnds {i n fuel : Nat} {ts : List Token}
    (h : TokensAt s i (lineEnds n ++ ts)) :
    itemFrom s w (fuel + n) i = itemFrom s w fuel (i + n) := by
  induction n generalizing i with
  | zero => rfl
  | succ n ih =>
    have h' : TokensAt s i (.newline :: (lineEnds n ++ ts)) := h
    rw [← Nat.add_assoc, itemFrom, h'.token?]
    dsimp only
    rw [ih h'.next]
    congr 1
    omega

/-- An item starts with no line end and no right bracket. -/
theorem Item.Written.starts {it : Item} {us : List Token} (h : it.Written w us) :
    ∃ t rest, us = t :: rest ∧ t ≠ .newline ∧ t ≠ .punct .rbrack := by
  cases h <;> exact ⟨_, _, rfl, by simp, by simp⟩

/-- What is no line end and no right bracket starts an item where no comma is expected. -/
theorem arrayFrom_item {i fuel : Nat} {t : Token} (ht : s.token? i = some t)
    (hnewline : t ≠ .newline) (hrbrack : t ≠ .punct .rbrack) : arrayFrom s w (fuel + 1) i false = do
      let (item, next) ← itemFrom s w fuel i
      let (items, stop) ← arrayFrom s w fuel next true
      return (item :: items, stop) := by
  rw [arrayFrom, ht]
  cases t with
  | newline => exact absurd rfl hnewline
  | punct p => cases p <;> first | exact absurd rfl hrbrack | rfl
  | _ => rfl

/-- A key is read where one is expected. -/
theorem mapFrom_key {t : Token} {k : String} (h : NamesKey t k) {i fuel : Nat}
    (ht : s.token? i = some t) :
    mapFrom s w (fuel + 1) i none false = mapFrom s w fuel (i + 1) (some k) false := by
  cases h <;> (rw [mapFrom, ht])

/-- Behind a key, a colon, line ends and a value are read as an entry. -/
theorem mapFrom_entry {i m fuel : Nat} {k : String} {us ts : List Token} {it : Item} {j : Nat}
    (h : TokensAt s i (.punct .colon :: (lineEnds m ++ us ++ ts)))
    (hitem : Compile.itemFrom s w fuel (i + 1 + m) = .ok (it, j)) :
    mapFrom s w (fuel + m + 1) i (some k) false = do
      let (es, stop) ← mapFrom s w (fuel + m) j none true
      return ((k, it) :: es, stop) := by
  have hnext : TokensAt s (i + 1) (lineEnds m ++ (us ++ ts)) := by
    rw [← List.append_assoc]
    exact h.next
  rw [mapFrom, h.token?]
  dsimp only
  rw [itemFrom_lineEnds hnext, hitem]
  rfl

mutual

/-- An item is read as it is written. -/
theorem Item.Written.itemFrom {it : Item} {us : List Token} (h : it.Written w us) {i fuel : Nat}
    {rest : List Token} (hts : TokensAt s i (us ++ rest)) (hfuel : 2 * us.length ≤ fuel) :
    Compile.itemFrom s w fuel i = .ok (it, i + us.length) := by
  obtain ⟨t, rest', rfl, -⟩ := h.starts
  obtain ⟨fuel, rfl⟩ : ∃ n, fuel = n + 1 := ⟨fuel - 1, by simp at hfuel; omega⟩
  cases h with
  | const c | extend name => rw [Compile.itemFrom, hts.token?]; rfl
  | var hv | field hv =>
    rw [Compile.itemFrom, hts.token?]
    dsimp only
    rw [hv]
    rfl
  | map h =>
    rw [Compile.itemFrom, hts.token?]
    dsimp only
    rw [h.mapFrom hts.next (by simp at hfuel; omega), Nat.add_right_comm]
    rfl
  | array h =>
    rw [Compile.itemFrom, hts.token?]
    dsimp only
    rw [h.arrayFrom hts.next (by simp at hfuel; omega), Nat.add_right_comm]
    rfl
termination_by fuel
decreasing_by all_goals omega

/-- Entries are read as they are written. -/
theorem EntriesWritten.mapFrom {comma : Bool} {es : List (String × Item)} {ts : List Token}
    (h : EntriesWritten w comma es ts) {i fuel : Nat} {rest : List Token}
    (hts : TokensAt s i (ts ++ rest)) (hfuel : 2 * ts.length ≤ fuel) :
    Compile.mapFrom s w fuel i none comma = .ok (es, i + ts.length) := by
  cases h with
  | close comma =>
    obtain ⟨fuel, rfl⟩ : ∃ n, fuel = n + 1 := ⟨fuel - 1, by simp at hfuel; omega⟩
    rw [Compile.mapFrom, hts.token?]
    rfl
  | newline h =>
    obtain ⟨fuel, rfl⟩ : ∃ n, fuel = n + 1 := ⟨fuel - 1, by simp at hfuel; omega⟩
    rw [Compile.mapFrom, hts.token?]
    dsimp only
    rw [h.mapFrom hts.next (by simp at hfuel; omega), Nat.add_right_comm]
    rfl
  | comma h =>
    obtain ⟨fuel, rfl⟩ : ∃ n, fuel = n + 1 := ⟨fuel - 1, by simp at hfuel; omega⟩
    rw [Compile.mapFrom, hts.token?]
    dsimp only
    rw [h.mapFrom hts.next (by simp at hfuel; omega), Nat.add_right_comm]
    rfl
  | @entry t k it es us ts n m hkey hitem h =>
    -- one step of the reader for the key, one for each line feed,
    -- one for the colon and one for the member
    simp only [List.length_cons, List.length_append, length_lineEnds] at hfuel
    obtain ⟨fuel, rfl⟩ : ∃ f, fuel = f + m + 1 + n + 1 := ⟨fuel - m - n - 2, by omega⟩
    have hkeys : TokensAt s i
        (t :: (lineEnds n ++ .punct .colon :: (lineEnds m ++ us ++ (ts ++ rest)))) := by
      simpa using hts
    have hcolon := hkeys.next.skip
    have hvalue : TokensAt s (i + 1 + n + 1 + m) (us ++ (ts ++ rest)) := by
      have h := hcolon.next
      rw [List.append_assoc, length_lineEnds] at h
      simpa using h.skip
    rw [length_lineEnds] at hcolon
    rw [mapFrom_key hkey hkeys.token?, mapFrom_lineEnds hkeys.next,
      mapFrom_entry hcolon (hitem.itemFrom hvalue (by omega)), h.mapFrom hvalue.skip (by omega)]
    simp only [List.length_cons, List.length_append, length_lineEnds]
    rw [show i + 1 + n + 1 + m + us.length + ts.length
      = i + (n + (m + (us.length + ts.length) + 1) + 1) by omega]
    rfl
termination_by fuel
decreasing_by all_goals omega

/-- Items are read as they are written. -/
theorem ItemsWritten.arrayFrom {comma : Bool} {is : List Item} {ts : List Token}
    (h : ItemsWritten w comma is ts) {i fuel : Nat} {rest : List Token}
    (hts : TokensAt s i (ts ++ rest)) (hfuel : 2 * ts.length ≤ fuel) :
    Compile.arrayFrom s w fuel i comma = .ok (is, i + ts.length) := by
  cases h with
  | close comma =>
    obtain ⟨fuel, rfl⟩ : ∃ n, fuel = n + 1 := ⟨fuel - 1, by simp at hfuel; omega⟩
    rw [Compile.arrayFrom, hts.token?]
    rfl
  | newline h =>
    obtain ⟨fuel, rfl⟩ : ∃ n, fuel = n + 1 := ⟨fuel - 1, by simp at hfuel; omega⟩
    rw [Compile.arrayFrom, hts.token?]
    dsimp only
    rw [h.arrayFrom hts.next (by simp at hfuel; omega), Nat.add_right_comm]
    rfl
  | comma h =>
    obtain ⟨fuel, rfl⟩ : ∃ n, fuel = n + 1 := ⟨fuel - 1, by simp at hfuel; omega⟩
    rw [Compile.arrayFrom, hts.token?]
    dsimp only
    rw [h.arrayFrom hts.next (by simp at hfuel; omega), Nat.add_right_comm]
    rfl
  | @item it is us ts hitem h =>
    -- an item starts with neither a line feed nor the closing
    -- bracket, so the reader tries to read one
    obtain ⟨t, us', hus, hnewline, hrbrack⟩ := hitem.starts
    have hpos : 1 ≤ us.length := by rw [hus]; simp
    simp only [List.length_append] at hfuel
    obtain ⟨fuel, rfl⟩ : ∃ n, fuel = n + 1 := ⟨fuel - 1, by omega⟩
    rw [List.append_assoc] at hts
    have hfirst : TokensAt s i (t :: (us' ++ (ts ++ rest))) := by
      rw [← List.cons_append, ← hus]
      exact hts
    have hlen : 1 ≤ ts.length := by cases h <;> simp
    have hitems := h.arrayFrom hts.skip (show 2 * ts.length ≤ fuel by omega)
    rw [arrayFrom_item hfirst.token? hnewline hrbrack, hitem.itemFrom hts (by omega)]
    simp only [bind, Except.bind, hitems, List.length_append, Nat.add_assoc]
    rfl
termination_by fuel
decreasing_by all_goals omega

end

/-- **A map literal is read as it is written, whatever follows.** -/
theorem Item.Written.read_map {es : List (String × Item)} {us : List Token}
    (h : (Item.map es).Written w us) {i : Nat} {rest : List Token}
    (hts : TokensAt s i (us ++ rest)) : mapLiteral s w i = .ok (es, i + us.length) := by
  cases h with
  | @map _ ts h =>
    have hlen := hts.length
    rw [mapLiteral, h.mapFrom hts.next (by simp [literalFuel] at hlen ⊢; omega),
      Nat.add_right_comm]
    rfl

/-- **An array literal is read as it is written, whatever follows.** -/
theorem Item.Written.read_array {is : List Item} {us : List Token}
    (h : (Item.array is).Written w us) {i : Nat} {rest : List Token}
    (hts : TokensAt s i (us ++ rest)) : arrayLiteral s w i = .ok (is, i + us.length) := by
  cases h with
  | @array _ ts h =>
    have hlen := hts.length
    rw [arrayLiteral, h.arrayFrom hts.next (by simp [literalFuel] at hlen ⊢; omega),
      Nat.add_right_comm]
    rfl

/-- **Literals are read as they are written.** Whatever tokens follow, the tokens of a map or array
with line ends and last commas anywhere between its brackets give the literal, its items in order
and repeated keys kept, and the position behind its last bracket. -/
theorem literal_read {i : Nat} {us rest : List Token} (hts : TokensAt s i (us ++ rest)) :
    (∀ es, (Item.map es).Written w us → mapLiteral s w i = .ok (es, i + us.length)) ∧
      ∀ is, (Item.array is).Written w us → arrayLiteral s w i = .ok (is, i + us.length) := by
  constructor
  · intro es h
    exact h.read_map hts
  · intro is h
    exact h.read_array hts

end Reading

/-- A unit with the variable `x`. -/
def workWithVariable : Work where
  arena := #[{ parent := none, objects := Dict.empty.insert "x" (.var 0), vars := #[.int] }]
  root := 0

/-- The tokens of `[{"k": $f, k: 2,}, x, [],]` with line ends, and a bracket that does not belong to
it. -/
def nestedLiteral : Source where
  lexemes := ([.punct .lbrack, .newline, .punct .lcurly, .const (.str "k"), .newline, .punct .colon,
    .newline, .extend "f", .punct .comma, .ident "k", .punct .colon, .const (.int 2), .punct .comma,
    .punct .rcurly, .punct .comma, .ident "x", .punct .comma, .punct .lbrack, .punct .rbrack,
    .punct .comma, .newline, .punct .rbrack, .punct .rbrack].map fun t => ⟨t, ⟨1, 1⟩⟩).toArray
  globals := .empty
  state := 1
  lateCalls := false

/-- An array with a map, a variable and an empty array is read to its last bracket. -/
theorem nestedLiteral_read :
    arrayLiteral nestedLiteral workWithVariable 0 = .ok
      ([.map [("k", .extend "f"), ("k", .const (.int 2))], .var ⟨0, 0⟩, .array []], 22) := by
  have hx : workWithVariable.findVar "x" = some (.var ⟨0, 0⟩) := rfl
  have hentries : (Item.map [("k", .extend "f"), ("k", .const (.int 2))]).Written workWithVariable
      [.punct .lcurly, .const (.str "k"), .newline, .punct .colon, .newline,
        .extend "f", .punct .comma,
        .ident "k", .punct .colon, .const (.int 2), .punct .comma, .punct .rcurly] :=
    .map (.entry 1 1 (.string "k") (.extend "f")
      (.comma (.entry 0 0 (.ident "k") (.const _) (.comma (.close false)))))
  have hitems := Item.Written.array (.newline (.item hentries (.comma (.item (.var hx)
    (.comma (.item (.array (.close false)) (.comma (.newline (.close false)))))))))
  have hread : TokensAt nestedLiteral 0 (_ ++ [.punct .rbrack]) → _ := fun hts =>
    (literal_read hts).2 _ hitems
  exact hread rfl

end Covenant
