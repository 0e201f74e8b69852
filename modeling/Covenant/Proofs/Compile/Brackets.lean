import Covenant.Proofs.Compile.Parts

/-!
# Tokens outside of brackets

How many brackets are open behind some tokens, and how often a punctuation mark stands among them
where none is. A literal leaves as many brackets open as there were, and what stands in it stands
inside (`Source.enclosed_map`, `Source.enclosed_array`).
-/

namespace Covenant.Compile

open Covenant.Computation

/-! ### Counting -/

/-- The brackets that are open behind a token. -/
def openBehind (d : Nat) (t : Token) : Nat :=
  match t with
  | .punct .lpar | .punct .lbrack | .punct .lcurly => d + 1
  | .punct .rpar | .punct .rbrack | .punct .rcurly => d - 1
  | _ => d

/-- A token of a literal that is no bracket opens and closes none. -/
theorem openBehind_of_isPlain {t : Token} (h : t.isPlain = true) (d : Nat) :
    openBehind d t = d := by
  unfold Token.isPlain at h
  split at h <;> first | rfl | cases h

/-- The brackets that are open behind some tokens. -/
def openAfter (d : Nat) (ts : List Token) : Nat := ts.foldl openBehind d

/-- How often a punctuation mark stands among some tokens where no bracket is open. -/
def outside (p : Punct) : Nat → List Token → Nat
  | _, [] => 0
  | d, t :: ts => outside p (openBehind d t) ts + if d = 0 ∧ t.kind = .punct p then 1 else 0

theorem openAfter_append (d : Nat) (ts us : List Token) :
    openAfter d (ts ++ us) = openAfter (openAfter d ts) us := List.foldl_append

theorem outside_append (p : Punct) (d : Nat) (ts us : List Token) :
    outside p d (ts ++ us) = outside p d ts + outside p (openAfter d ts) us := by
  induction ts generalizing d with
  | nil => rw [outside, Nat.zero_add]; rfl
  | cons t ts ih =>
    rw [List.cons_append, outside, ih, outside, Nat.add_right_comm]
    rfl

/-! ### The tokens of a source -/

variable {s : Source} {w : Work} {i j k n : Nat} {t : Token}

namespace Source

/-- The tokens from one position up to another. -/
def tokens (s : Source) (i j : Nat) : List Token :=
  ((s.lexemes.toList.drop i).take (j - i)).map Lexeme.token

@[simp] theorem tokens_self (s : Source) (i : Nat) : s.tokens i i = [] := by
  rw [tokens, Nat.sub_self, List.take_zero, List.map_nil]

theorem tokens_append (hij : i ≤ j) (hjk : j ≤ k) :
    s.tokens i k = s.tokens i j ++ s.tokens j k := by
  have hadd : k - i = (j - i) + (k - j) := by omega
  rw [tokens, tokens, tokens, hadd, List.take_add, List.map_append, List.drop_drop,
    Nat.add_sub_cancel' hij]

theorem tokens_one (h : s.token? i = some t) : s.tokens i (i + 1) = [t] := by
  obtain ⟨l, hl, rfl⟩ := Option.map_eq_some_iff.1 h
  rw [← Array.getElem?_toList] at hl
  obtain ⟨hi, hl⟩ := List.getElem?_eq_some_iff.1 hl
  rw [tokens, List.drop_eq_getElem_cons hi, hl, Nat.add_sub_cancel_left]
  rfl

theorem tokens_succ (h : s.token? j = some t) (hij : i ≤ j) :
    s.tokens i (j + 1) = s.tokens i j ++ [t] := by
  rw [tokens_append hij (Nat.le_succ j), tokens_one h]

/-! ### Literals -/

/-- Whether the tokens between two positions, when a bracket is open, stand inside of it and leave
some of them open. -/
def Inside (s : Source) (i j n : Nat) : Prop :=
  i ≤ j ∧ ∀ d, openAfter (d + 1) (s.tokens i j) = d + n ∧ ∀ p, outside p (d + 1) (s.tokens i j) = 0

namespace Inside

theorem trans (h : s.Inside i j 1) (h' : s.Inside j k n) : s.Inside i k n := by
  obtain ⟨hij, h⟩ := h
  obtain ⟨hjk, h'⟩ := h'
  refine ⟨Nat.le_trans hij hjk, fun d => ?_⟩
  rw [tokens_append hij hjk, openAfter_append, (h d).1]
  refine ⟨(h' d).1, fun p => ?_⟩
  rw [outside_append, (h d).1, (h d).2, (h' d).2]

theorem of_token (h : s.token? i = some t) (hopen : ∀ d, openBehind (d + 1) t = d + n) :
    s.Inside i (i + 1) n := by
  refine ⟨Nat.le_succ i, fun d => ?_⟩
  rw [tokens_one h]
  exact ⟨hopen d, fun p => by rw [outside, outside, if_neg fun h => Nat.succ_ne_zero d h.1]⟩

/-- A literal inside of a bracket. -/
theorem literal (h : s.token? i = some t) (hopen : ∀ d, openBehind d t = d + 1)
    (h' : s.Inside (i + 1) j 0) : s.Inside i j 1 := by
  obtain ⟨hij, h'⟩ := h'
  refine ⟨Nat.le_of_succ_le hij, fun d => ?_⟩
  rw [tokens_append (Nat.le_succ i) hij, tokens_one h, List.singleton_append, openAfter,
    List.foldl_cons, hopen]
  refine ⟨(h' (d + 1)).1, fun p => ?_⟩
  rw [outside, hopen, (h' (d + 1)).2, if_neg fun h => Nat.succ_ne_zero d h.1]

end Inside

end Source

/-- The brackets that a part of a literal leaves open of one that is: entries and items are read up
to the one that closes them. -/
def LiteralPart.leftOpen : LiteralPart → Nat
  | entries _ | items _ => 0
  | item _ => 1

/-- What stands in a literal stands inside; behind its last bracket one bracket fewer is open. -/
theorem LiteralPart.Read.inside {p : LiteralPart} (h : p.Read s w i j) :
    s.Inside i j p.leftOpen := by
  induction h with
  | skip ht hplain _ ih =>
    exact (Source.Inside.of_token ht fun d => openBehind_of_isPlain hplain (d + 1)).trans ih
  | closeMap ht | closeArray ht | const ht | extend ht | var ht | field ht =>
    exact .of_token ht fun _ => rfl
  | entry _ _ ihitem ihrest | element _ _ ihitem ihrest => exact ihitem.trans ihrest
  | map ht _ ih | array ht _ ih => exact .literal ht (fun _ => rfl) ih

namespace Source

/-- Whether the tokens between two positions leave as many brackets open as there were and nothing
of them stands outside. -/
def Enclosed (s : Source) (i j : Nat) : Prop :=
  i < j ∧ ∀ d, openAfter d (s.tokens i j) = d ∧
    ∀ p, p = .comma ∨ p = .eq → outside p d (s.tokens i j) = 0

/-- What stands between brackets is enclosed. -/
theorem Inside.enclosed (ht : s.token? i = some t) (hopen : ∀ d, openBehind d t = d + 1)
    (hkind : t.kind ≠ .punct .comma ∧ t.kind ≠ .punct .eq) (h : s.Inside (i + 1) j 0) :
    s.Enclosed i j := by
  obtain ⟨hij, h⟩ := h
  refine ⟨hij, fun d => ?_⟩
  rw [tokens_append (Nat.le_succ i) hij, tokens_one ht, List.singleton_append, openAfter,
    List.foldl_cons, hopen]
  refine ⟨(h d).1, fun p hp => ?_⟩
  rw [outside, hopen, (h d).2, if_neg]
  rintro ⟨-, hp'⟩
  rcases hp with rfl | rfl
  · exact hkind.1 hp'
  · exact hkind.2 hp'

theorem enclosed_map {r : List (String × Item) × Nat} (ht : s.token? i = some (.punct .lcurly))
    (h : mapLiteral s w i = .ok r) : s.Enclosed i r.2 :=
  (LiteralPart.Read.of_mapLiteral h).inside.enclosed ht (fun _ => rfl)
    ⟨by simp [Token.kind], by simp [Token.kind]⟩

theorem enclosed_array {r : List Item × Nat} (ht : s.token? i = some (.punct .lbrack))
    (h : arrayLiteral s w i = .ok r) : s.Enclosed i r.2 :=
  (LiteralPart.Read.of_arrayLiteral h).inside.enclosed ht (fun _ => rfl)
    ⟨by simp [Token.kind], by simp [Token.kind]⟩

end Source

end Covenant.Compile
