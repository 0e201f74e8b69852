import Covenant.Lexeme.Reading
import Mathlib.Tactic.Common

/-!
# Words and their spelling

A source text of the structured language is a list of `Word`s with blanks between them. `Spells`
says which texts spell a list of words: any blanks may stand between two words, and where there are
none the second word must not start with a character that would extend the first.

The main statement is `read_of_spells`: reading a text that spells some words gives, positions
aside, what `Draft.feedAll` makes of the words one by one. Only a right brace looks further ahead,
and then at words only (`branchFollows_of_spells`).
-/

namespace Covenant.Structured

/-! ### Literals and words -/

/-- The texts that read as one constant, and the constant they read as. -/
inductive Literal.Reads : List Char → Constant → Prop
  | number {c : Char} {cs : List Char} {k : Constant} : Number.isDigit c = true →
      cs.all Cut.isNumberChar = true → Reader.numberConstant? (c :: cs) = some k → Reads (c :: cs) k
  | quoted {cs : List Char} : Cut.stringLength cs 0 = some cs.length →
      Reads ('"' :: cs) (.str (Reader.stringValue ('"' :: cs)))
  | raw {cs : List Char} : Cut.rawLength cs 0 = some cs.length →
      Reads ('\x60' :: cs) (.str (Reader.stringValue ('\x60' :: cs)))
  | bool (b : Bool) : Reads (if b then "true" else "false").toList (.bool b)
  | nil : Reads "nil".toList .nil

/-- A constant as it is written. -/
structure Literal where
  text : List Char
  value : Constant
  reads : Literal.Reads text value

/-- Whether a text is a name: neither a keyword nor a type, and made of the characters of names. -/
def isName (name : String) : Bool :=
  match name.toList with
  | [] => false
  | c :: cs =>
    (Cut.isLetter c || c == '@') && cs.all Cut.isNameChar && (Keyword.ofText? name).isNone
      && (Ty.ofName? name).isNone

/-- The keywords that read as themselves wherever they stand, and `elif`. -/
def isPlain (k : Keyword) : Bool :=
  [.func, .return, .if, .elif, .else, .while, .var, .break, .continue].contains k

/-- A word of the source text. -/
inductive Word where
  | newline
  | punct (p : Punct)
  | oper (o : Operator)
  | literal (l : Literal)
  | name (name : String)
  | keyword (k : Keyword)
  | type (t : Ty)

namespace Word

/-- The characters of a word. -/
def text : Word → List Char
  | newline => ['\n']
  | punct p => [p.char]
  | oper o => o.text.toList
  | literal l => l.text
  | name s => s.toList
  | keyword k => k.text.toList
  | type t => t.name.toList

/-- Whether the word is one of the structured language. -/
def IsValid : Word → Prop
  | punct p => p ≠ .dot
  | name s => isName s = true
  | keyword k => isPlain k = true
  | type t => t ≠ .any
  | _ => True

instance (w : Word) : Decidable w.IsValid :=
  match w with
  | punct p => inferInstanceAs (Decidable (p ≠ .dot))
  | name s => inferInstanceAs (Decidable (isName s = true))
  | keyword k => inferInstanceAs (Decidable (isPlain k = true))
  | type t => inferInstanceAs (Decidable (t ≠ .any))
  | newline => inferInstanceAs (Decidable True)
  | oper _ => inferInstanceAs (Decidable True)
  | literal _ => inferInstanceAs (Decidable True)

/-- Whether a character right behind the word would be taken for a part of it. -/
def extendsBy (w : Word) (c : Char) : Bool :=
  match w with
  | newline => false
  | punct p => p == .eq && Cut.endsPair c
  | oper o =>
    (o == .div && (c == '/' || c == '*')) ||
      ((o == .not || o == .less || o == .great) && Cut.endsPair c)
  | _ => Cut.isNameChar c || Cut.isMark c || c == '.'

end Word

/-- The texts that spell some words: blanks between the words, and no word runs into the next. -/
inductive Spells : List Word → List Char → Prop
  | nil {gap : List Char} : gap.all Cut.isSpace = true → Spells [] gap
  | cons {gap cs : List Char} {w : Word} {ws : List Word} : gap.all Cut.isSpace = true → w.IsValid →
      (∀ c, cs.head? = some c → w.extendsBy c = false) → Spells ws cs →
      Spells (w :: ws) (gap ++ (w.text ++ cs))

/-- A blank extends no word. -/
theorem extendsBy_blank (w : Word) : w.extendsBy ' ' = false := by
  cases w with
  | newline => rfl
  | punct p => cases p <;> rfl
  | oper o => cases o <;> rfl
  | literal _ | name _ | keyword _ | type _ => rfl

/-- Valid words are spelled by the text with a blank before each of them. -/
theorem spells_spaced {ws : List Word} (h : ∀ w ∈ ws, w.IsValid) :
    Spells ws (ws.flatMap fun w => ' ' :: w.text) := by
  induction ws with
  | nil => exact Spells.nil rfl
  | cons w ws ih =>
    have hrest := ih fun v hv => h v (List.mem_cons_of_mem _ hv)
    change Spells (w :: ws) ([' '] ++ (w.text ++ _))
    refine Spells.cons rfl (h w (List.mem_cons_self ..)) ?_ hrest
    intro c hc
    cases ws with
    | nil => exact absurd hc (by simp)
    | cons v vs =>
      obtain rfl : ' ' = c := by simpa using hc
      exact extendsBy_blank w

/-! ### Drafts -/

/-- The tokens read so far and the open `if`s: a reader without positions. -/
structure Draft where
  tokens : List Token := []
  ifs : List OpenIf := []

/-- Whether another branch of an `if` follows behind line ends. -/
def branchAhead : List Word → Bool
  | .newline :: ws => branchAhead ws
  | .keyword k :: _ => k == .else || k == .elif
  | _ => false

namespace Draft

/-- Adds tokens. -/
def push (d : Draft) (ts : List Token) : Draft := { d with tokens := d.tokens ++ ts }

/-- Counts a left brace. -/
def openBrace (d : Draft) : Draft :=
  match d.ifs with
  | [] => d
  | f :: fs => { d with ifs := { f with depth := f.depth + 1 } :: fs }

/-- Counts a right brace; `more` tells whether another branch follows. -/
def closeBrace (d : Draft) (more : Bool) : Draft :=
  match d.ifs with
  | [] => d
  | f :: fs =>
    if f.depth = 0 then d
    else if 1 < f.depth then { d with ifs := { f with depth := f.depth - 1 } :: fs }
    else if more then { d with ifs := { f with depth := 0 } :: fs }
    else { d with ifs := fs }.push (List.replicate f.owed (.punct .rcurly))

/-- Adds a keyword. -/
def keyword (d : Draft) (k : Keyword) : Draft :=
  match k, d.ifs with
  | .if, fs => { d with ifs := {} :: fs }.push [.keyword .if]
  | .elif, f :: fs =>
    { d with ifs := { f with owed := f.owed + 1 } :: fs }.push
      [.keyword .else, .punct .lcurly, .keyword .if]
  | k, _ => d.push [.keyword k]

/-- What reading one word adds, given the words behind it. -/
def feed (d : Draft) (w : Word) (after : List Word) : Draft :=
  match w with
  | .newline => d.push [.newline]
  | .punct .lcurly => (d.push [.punct .lcurly]).openBrace
  | .punct .rcurly => (d.push [.punct .rcurly]).closeBrace (branchAhead after)
  | .punct p => d.push [.punct p]
  | .oper o => d.push [.oper o]
  | .literal l => d.push [.const l.value]
  | .name s => d.push [.ident s]
  | .keyword k => d.keyword k
  | .type t => d.push [.type t]

/-- What reading some words adds. -/
def feedAll (d : Draft) : List Word → Draft
  | [] => d
  | w :: ws => feedAll (d.feed w ws) ws

end Draft

/-- A reader without the positions of its lexemes. -/
def draftOf (r : Reader) : Draft := ⟨r.lexemes.toList.map Lexeme.token, r.ifs⟩

/-! ### Slices of words -/

/-- Whether a text goes on with a character that `p` accepts. -/
theorem takeWhile_of_head {p : Char → Bool} {cs : List Char}
    (h : ∀ c, cs.head? = some c → p c = false) : cs.takeWhile p = [] := by
  cases cs with
  | nil => rfl
  | cons c cs => simp [h c rfl]

theorem takeWhile_append_of_head {p : Char → Bool} {ws rest : List Char} (hw : ws.all p = true)
    (h : ∀ c, rest.head? = some c → p c = false) : (ws ++ rest).takeWhile p = ws := by
  rw [List.takeWhile_append_of_pos (List.all_eq_true.1 hw), takeWhile_of_head h, List.append_nil]

/-- The slice of a first character and a whole following text. -/
theorem take_append (shape : Shape) (c : Char) (cs rest : List Char) :
    Cut.take shape c (cs ++ rest) cs.length = ⟨shape, c :: cs, rest⟩ := by
  simp [Cut.take]

/-- What is not followed by a bad character is not refused. -/
theorem guarded_of_head {bad : Char → Bool} {k : Cut}
    (h : ∀ c, k.rest.head? = some c → bad c = false) : Cut.guarded bad k = .ok k := by
  unfold Cut.guarded
  split
  · rename_i d ds hr
    rw [h d (by rw [hr]; rfl)]
    rfl
  · rfl

/-- Blanks in front of something else are one slice. -/
theorem first_blank {c : Char} {cs rest : List Char} (hc : Cut.isSpace c = true)
    (hcs : cs.all Cut.isSpace = true) (h : ∀ d, rest.head? = some d → Cut.isSpace d = false) :
    Cut.first c (cs ++ rest) = .ok ⟨.blank, c :: cs, rest⟩ := by
  unfold Cut.first
  rw [if_pos hc, takeWhile_append_of_head hcs h, take_append]

/-- A digit is no letter. -/
theorem not_isLetter_of_isDigit {c : Char} (h : Number.isDigit c = true) :
    Cut.isLetter c = false := by
  simp only [Number.isDigit, Char.le_def, UInt32.le_iff_toNat_le, decide_eq_true_eq] at h
  simp only [Cut.isLetter, Char.le_def, UInt32.le_iff_toNat_le, Bool.or_eq_false_iff,
    decide_eq_false_iff_not, not_and, beq_eq_false_iff_ne]
  have h9 : ('9' : Char).val.toNat = 57 := rfl
  have ha : ('a' : Char).val.toNat = 97 := rfl
  have hA : ('A' : Char).val.toNat = 65 := rfl
  refine ⟨⟨fun _ => by omega, fun _ => by omega⟩, ?_⟩
  rintro rfl
  exact absurd h (by decide)

/-- A letter or mark is none of the characters that start another slice. -/
theorem first_of_letter {c : Char} (hc : (Cut.isLetter c || Cut.isMark c) = true)
    (cs : List Char) :
    Cut.first c cs =
      Cut.guarded Cut.isMark (Cut.take .word c cs (cs.takeWhile Cut.isNameChar).length) := by
  have hne : ∀ d : Char, (Cut.isLetter d || Cut.isMark d) = false → c ≠ d := by
    rintro d hd rfl
    rw [hc] at hd
    cases hd
  have hspace : ¬ Cut.isSpace c = true := by
    simp [Cut.isSpace, hne ' ' (by decide), hne '\t' (by decide), hne '\r' (by decide)]
  have hdigit : ¬ Number.isDigit c = true := by
    intro hd
    rw [not_isLetter_of_isDigit hd, Bool.false_or] at hc
    rcases (by simpa [Cut.isMark] using hc : c = '$' ∨ c = '@') with rfl | rfl
    · exact absurd hd (by decide)
    · exact absurd hd (by decide)
  unfold Cut.first
  rw [if_neg hspace, if_neg (by simp [hne '\n' (by decide), hne ';' (by decide)]),
    if_neg (hne '/' (by decide)),
    if_neg (by simp [hne '*' (by decide), hne '+' (by decide), hne '-' (by decide)]),
    if_neg (hne '"' (by decide)), if_neg (hne '\x60' (by decide)), if_neg hdigit, if_pos hc]

/-- A name in front of something else is one slice. -/
theorem first_word {c : Char} {cs rest : List Char} (hc : (Cut.isLetter c || Cut.isMark c) = true)
    (hcs : cs.all Cut.isNameChar = true)
    (h : ∀ d, rest.head? = some d → (Cut.isNameChar d || Cut.isMark d || d == '.') = false) :
    Cut.first c (cs ++ rest) = .ok ⟨.word, c :: cs, rest⟩ := by
  have hname : ∀ d, rest.head? = some d → Cut.isNameChar d = false := by
    intro d hd
    simpa using (by simpa using h d hd : (_ ∧ _) ∧ _).1.1
  have hmark : ∀ d, rest.head? = some d → Cut.isMark d = false := by
    intro d hd
    simpa using (by simpa using h d hd : (_ ∧ _) ∧ _).1.2
  rw [first_of_letter hc, takeWhile_append_of_head hcs hname, take_append, guarded_of_head hmark]

/-- A number in front of something else is one slice. -/
theorem first_number {c : Char} {cs rest : List Char} (hc : Number.isDigit c = true)
    (hcs : cs.all Cut.isNumberChar = true)
    (h : ∀ d, rest.head? = some d → (Cut.isNameChar d || Cut.isMark d || d == '.') = false) :
    Cut.first c (cs ++ rest) = .ok ⟨.number, c :: cs, rest⟩ := by
  have hne : ∀ d : Char, Number.isDigit d = false → c ≠ d := by
    rintro d hd rfl
    rw [hc] at hd
    cases hd
  have hspace : ¬ Cut.isSpace c = true := by
    simp [Cut.isSpace, hne ' ' (by decide), hne '\t' (by decide), hne '\r' (by decide)]
  have hnumber : ∀ d, rest.head? = some d → Cut.isNumberChar d = false := by
    intro d hd
    have := h d hd
    simp only [Cut.isNameChar, Bool.or_eq_false_iff] at this
    simp [Cut.isNumberChar, this.1.1.2, this.2]
  have hbad : ∀ d, rest.head? = some d → (Cut.isLetter d || Cut.isMark d) = false := by
    intro d hd
    have := h d hd
    simp only [Cut.isNameChar, Bool.or_eq_false_iff] at this
    simp [this.1.1.1, this.1.2]
  -- A digit is none of the characters that are asked for before it.
  unfold Cut.first
  rw [if_neg hspace, if_neg (by simp [hne '\n' (by decide), hne ';' (by decide)]),
    if_neg (hne '/' (by decide)),
    if_neg (by simp [hne '*' (by decide), hne '+' (by decide), hne '-' (by decide)]),
    if_neg (hne '"' (by decide)), if_neg (hne '\x60' (by decide)), if_pos hc,
    takeWhile_append_of_head hcs hnumber, take_append]
  exact guarded_of_head hbad

/-- A string ends where it does, whatever follows. -/
theorem stringLength_append {cs : List Char} {n m : Nat} (h : Cut.stringLength cs n = some m)
    (rest : List Char) : Cut.stringLength (cs ++ rest) n = some m := by
  fun_induction Cut.stringLength cs n with
  | case1 n => cases h
  | case2 n => cases h
  | case3 c cs n ih => simpa [Cut.stringLength] using ih h
  | case4 cs n => simpa [Cut.stringLength] using h
  | case5 c cs n h₁ h₂ h₃ ih =>
    have hc : c ≠ '\\' := by
      intro hc
      cases cs with
      | nil => exact h₁ hc rfl
      | cons d ds => exact h₂ d ds hc rfl
    rw [List.cons_append, Cut.stringLength]
    · exact ih h
    · exact fun hc' _ => hc hc'
    · exact fun _ _ hc' _ => hc hc'
    · exact h₃

/-- So does a raw string. -/
theorem rawLength_append {cs : List Char} {n m : Nat} (h : Cut.rawLength cs n = some m)
    (rest : List Char) : Cut.rawLength (cs ++ rest) n = some m := by
  induction cs generalizing n with
  | nil => cases h
  | cons c cs ih =>
    rw [List.cons_append, Cut.rawLength]
    rw [Cut.rawLength] at h
    split at h
    · rename_i hc
      rw [if_pos hc]
      exact h
    · rename_i hc
      rw [if_neg hc]
      exact ih h

/-- A string in double quotes is one slice. -/
theorem first_quoted {cs : List Char} (h : Cut.stringLength cs 0 = some cs.length)
    (rest : List Char) : Cut.first '"' (cs ++ rest) = .ok ⟨.string, '"' :: cs, rest⟩ := by
  have : Cut.first '"' (cs ++ rest)
      = Cut.closed .string '"' (cs ++ rest) (Cut.stringLength (cs ++ rest) 0) := by
    unfold Cut.first
    rfl
  rw [this, stringLength_append h, Cut.closed, take_append]

/-- A string in back quotes is one slice. -/
theorem first_raw {cs : List Char} (h : Cut.rawLength cs 0 = some cs.length)
    (rest : List Char) : Cut.first '\x60' (cs ++ rest) = .ok ⟨.string, '\x60' :: cs, rest⟩ := by
  have : Cut.first '\x60' (cs ++ rest)
      = Cut.closed .string '\x60' (cs ++ rest) (Cut.rawLength (cs ++ rest) 0) := by
    unfold Cut.first
    rfl
  rw [this, rawLength_append h, Cut.closed, take_append]

/-! ### Reading one word -/

@[simp] theorem draftOf_push (r : Reader) (t : Token) (p : Position) :
    draftOf (r.push t p) = (draftOf r).push [t] := by
  simp [draftOf, Reader.push, Draft.push]

/-- A token that is pushed several times. -/
theorem draftOf_pushTimes (r : Reader) (t : Token) (p : Position) (n : Nat) :
    draftOf (r.pushTimes t p n) = (draftOf r).push (List.replicate n t) := by
  induction n with
  | zero => simp [Reader.pushTimes, Nat.repeat, Draft.push]
  | succ n ih =>
    have hstep : r.pushTimes t p (n + 1) = (r.pushTimes t p n).push t p := rfl
    rw [hstep, draftOf_push, ih]
    simp [Draft.push, List.replicate_succ']

theorem draftOf_openBrace (r : Reader) : draftOf r.openBrace = (draftOf r).openBrace := by
  obtain ⟨lexemes, ifs⟩ := r
  cases ifs <;> rfl

/-- A brace that is closed with a branch ahead or without. -/
theorem draftOf_closeBrace (r : Reader) (p : Position) (rest : List Char) :
    draftOf (r.closeBrace p rest) = (draftOf r).closeBrace (Reader.branchFollows rest) := by
  obtain ⟨lexemes, ifs⟩ := r
  cases ifs with
  | nil => rfl
  | cons f fs =>
    simp only [Reader.closeBrace, Draft.closeBrace, draftOf]
    split
    · rfl
    split
    · rfl
    split
    · rfl
    · exact draftOf_pushTimes _ _ _ _

theorem draftOf_keyword (r : Reader) {k : Keyword} (p : Position) (hk : isPlain k = true) :
    draftOf (r.keyword k p) = (draftOf r).keyword k := by
  obtain ⟨lexemes, ifs⟩ := r
  cases k <;> first
    | exact absurd hk (by decide)
    | (cases ifs <;> simp [Reader.keyword, Draft.keyword, draftOf, Reader.push, Draft.push])

/-- In front of a text the word is one slice, and reading the slice feeds the word. -/
def IsSlice (w : Word) (rest : List Char) : Prop :=
  ∃ (c : Char) (cs : List Char) (shape : Shape), w.text = c :: cs ∧ Cut.isSpace c = false ∧
    Cut.first c (cs ++ rest) = .ok ⟨shape, c :: cs, rest⟩ ∧
    ∀ (r : Reader) (p : Position) (after : List Word),
      Reader.branchFollows rest = branchAhead after →
      ∃ r', r.slice ⟨shape, c :: cs, rest⟩ p = .ok r' ∧ draftOf r' = (draftOf r).feed w after

theorem isSlice_newline (rest : List Char) : IsSlice .newline rest := by
  refine ⟨'\n', [], .newline, rfl, rfl, rfl, ?_⟩
  intro r p after _
  exact ⟨_, rfl, draftOf_push _ _ _⟩

/-- A sign is cut off a text, if no character behind it extends it. -/
theorem isSlice_punct {m : Punct} {rest : List Char} (hv : m ≠ .dot)
    (h : ∀ c, rest.head? = some c → (Word.punct m).extendsBy c = false) :
    IsSlice (.punct m) rest := by
  -- An equals sign is the one mark that may start a longer operator.
  by_cases hm : m = .eq
  · subst hm
    refine ⟨'=', [], .oper, rfl, rfl, ?_, ?_⟩
    · cases rest with
      | nil => rfl
      | cons c cs =>
        have hc : Cut.endsPair c = false := by simpa [Word.extendsBy] using h c rfl
        have : Cut.first '=' (c :: cs)
            = .ok (Cut.take .oper '=' (c :: cs) (if Cut.endsPair c then 1 else 0)) := by
          unfold Cut.first
          rfl
        rw [List.nil_append, this, hc]
        rfl
    · intro r p after _
      exact ⟨_, rfl, draftOf_push _ _ _⟩
  · refine ⟨m.char, [], .punct, rfl, ?_, ?_, ?_⟩
    · cases m <;> rfl
    · cases m <;> first | exact absurd rfl hv | exact absurd rfl hm | rfl
    · intro r p after hafter
      refine ⟨r.punct m p rest, ?_, ?_⟩
      · cases m <;> first | exact absurd rfl hv | exact absurd rfl hm | rfl
      · cases m with
        | lcurly => rw [Reader.punct, draftOf_openBrace, draftOf_push]; rfl
        | rcurly => rw [Reader.punct, draftOf_closeBrace, draftOf_push, hafter]; rfl
        | _ => exact draftOf_push _ _ _

/-- The slice of an operator in front of a text that does not extend it. -/
theorem first_oper {o : Operator} {c : Char} {cs rest : List Char} (ho : o.text.toList = c :: cs)
    (h : ∀ d, rest.head? = some d → (Word.oper o).extendsBy d = false) :
    Cut.first c (cs ++ rest) = .ok ⟨.oper, c :: cs, rest⟩ := by
  -- Four operators are the beginning of a longer one or of a comment.
  cases o with
  | not | less | great =>
    obtain ⟨rfl, rfl⟩ := List.cons.inj ho
    cases rest with
    | nil => rfl
    | cons d ds =>
      have hd : Cut.endsPair d = false := by simpa [Word.extendsBy] using h d rfl
      unfold Cut.first
      change Except.ok (Cut.take .oper _ (d :: ds) (if Cut.endsPair d then 1 else 0)) = _
      rw [hd]
      rfl
  | div =>
    obtain ⟨rfl, rfl⟩ := List.cons.inj ho
    cases rest with
    | nil => rfl
    | cons d ds =>
      have hd : d ≠ '/' ∧ d ≠ '*' := by simpa [Word.extendsBy] using h d rfl
      change Cut.first '/' (d :: ds) = .ok ⟨.oper, ['/'], d :: ds⟩
      unfold Cut.first
      simp [Cut.isSpace, Cut.take, hd.1, hd.2]
  | _ =>
    obtain ⟨rfl, rfl⟩ := List.cons.inj ho
    rfl

/-- So is an operator. -/
theorem isSlice_oper {o : Operator} {rest : List Char}
    (h : ∀ c, rest.head? = some c → (Word.oper o).extendsBy c = false) :
    IsSlice (.oper o) rest := by
  obtain ⟨c, cs, ho⟩ : ∃ c cs, o.text.toList = c :: cs := by cases o <;> exact ⟨_, _, rfl⟩
  refine ⟨c, cs, .oper, ho, ?_, first_oper ho h, ?_⟩
  · cases o <;> (obtain ⟨rfl, rfl⟩ := List.cons.inj ho; rfl)
  · intro r p after _
    refine ⟨r.push (.oper o) p, ?_, draftOf_push _ _ _⟩
    cases o <;> (obtain ⟨rfl, rfl⟩ := List.cons.inj ho; rfl)

/-- A word that is no `$` name reads as a keyword, a type or a name. -/
theorem word_eq {c : Char} (hc : c ≠ '$') (cs : List Char) (r : Reader) (p : Position) :
    r.word (c :: cs) p =
      match Keyword.ofText? (String.ofList (c :: cs)) with
      | some k => .ok (r.keyword k p)
      | none =>
        match Ty.ofName? (String.ofList (c :: cs)) with
        | some t => .ok (r.push (.type t) p)
        | none => .ok (r.push (.ident (String.ofList (c :: cs))) p) := by
  unfold Reader.word
  split
  · rename_i h
    exact absurd (List.cons.inj h).1 hc
  · rename_i name h
    exact absurd (List.cons.inj h).1 hc
  · rfl

/-- A word of letters is a slice of its own. -/
theorem isSlice_of_word {w : Word} {c : Char} {cs rest : List Char} (ht : w.text = c :: cs)
    (hc : (Cut.isLetter c || c == '@') = true) (hcs : cs.all Cut.isNameChar = true)
    (h : ∀ d, rest.head? = some d → (Cut.isNameChar d || Cut.isMark d || d == '.') = false)
    (hread : ∀ (r : Reader) (p : Position),
      ∃ r', r.word (c :: cs) p = .ok r' ∧ ∀ after, draftOf r' = (draftOf r).feed w after) :
    IsSlice w rest := by
  have hmark : (Cut.isLetter c || Cut.isMark c) = true := by
    rcases Bool.or_eq_true_iff.1 hc with hl | ha
    · rw [hl, Bool.true_or]
    · rw [eq_of_beq ha]
      rfl
  refine ⟨c, cs, .word, ht, ?_, first_word hmark hcs h, ?_⟩
  · rw [Bool.eq_false_iff]
    intro hs
    rcases (by simpa [Cut.isSpace] using hs : (c = ' ' ∨ c = '\t') ∨ c = '\r') with
      (rfl | rfl) | rfl <;> exact absurd hc (by decide)
  · intro r p after _
    obtain ⟨r', hr, hd⟩ := hread r p
    exact ⟨r', hr, hd after⟩

/-- So is a keyword. -/
theorem isSlice_keyword {k : Keyword} {rest : List Char} (hk : isPlain k = true)
    (h : ∀ c, rest.head? = some c → (Word.keyword k).extendsBy c = false) :
    IsSlice (.keyword k) rest := by
  obtain ⟨c, cs, ht⟩ : ∃ c cs, k.text.toList = c :: cs := by cases k <;> exact ⟨_, _, rfl⟩
  have hshape : Cut.isLetter c = true ∧ cs.all Cut.isNameChar = true ∧ c ≠ '$' := by
    cases k <;> first
      | exact absurd hk (by decide)
      | (obtain ⟨rfl, rfl⟩ := List.cons.inj ht; decide)
  have hread : Keyword.ofText? (String.ofList (c :: cs)) = some k := by
    rw [← ht, String.ofList_toList]
    cases k <;> decide
  refine isSlice_of_word ht (by rw [hshape.1, Bool.true_or]) hshape.2.1 h ?_
  intro r p
  refine ⟨r.keyword k p, ?_, fun after => draftOf_keyword r p hk⟩
  rw [word_eq hshape.2.2, hread]

/-- So is a type. -/
theorem isSlice_type {t : Ty} {rest : List Char} (ht : t ≠ .any)
    (h : ∀ c, rest.head? = some c → (Word.type t).extendsBy c = false) :
    IsSlice (.type t) rest := by
  obtain ⟨c, cs, htext⟩ : ∃ c cs, t.name.toList = c :: cs := by cases t <;> exact ⟨_, _, rfl⟩
  have hshape : Cut.isLetter c = true ∧ cs.all Cut.isNameChar = true ∧ c ≠ '$' := by
    cases t <;> (obtain ⟨rfl, rfl⟩ := List.cons.inj htext; decide)
  have hread : Keyword.ofText? (String.ofList (c :: cs)) = none
      ∧ Ty.ofName? (String.ofList (c :: cs)) = some t := by
    rw [← htext, String.ofList_toList]
    cases t <;> first | exact absurd rfl ht | decide
  refine isSlice_of_word htext (by rw [hshape.1, Bool.true_or]) hshape.2.1 h ?_
  intro r p
  refine ⟨r.push (.type t) p, ?_, fun after => draftOf_push _ _ _⟩
  rw [word_eq hshape.2.2, hread.1, hread.2]

/-- The shape of a name, spelled out. -/
theorem isName_spec {name : String} (h : isName name = true) :
    ∃ c cs, name.toList = c :: cs ∧ (Cut.isLetter c || c == '@') = true ∧
      cs.all Cut.isNameChar = true ∧ Keyword.ofText? name = none ∧ Ty.ofName? name = none := by
  unfold isName at h
  split at h
  · cases h
  · rename_i c cs hcs
    simp only [Bool.and_eq_true, Option.isNone_iff_eq_none] at h
    exact ⟨c, cs, hcs, h.1.1.1, h.1.1.2, h.1.2, h.2⟩

/-- So is a name. -/
theorem isSlice_name {name : String} {rest : List Char} (hn : isName name = true)
    (h : ∀ c, rest.head? = some c → (Word.name name).extendsBy c = false) :
    IsSlice (.name name) rest := by
  obtain ⟨c, cs, htext, hc, hcs, hkey, hty⟩ := isName_spec hn
  have hdollar : c ≠ '$' := by
    rintro rfl
    exact absurd hc (by decide)
  refine isSlice_of_word htext hc hcs h ?_
  intro r p
  refine ⟨r.push (.ident name) p, ?_, fun after => draftOf_push _ _ _⟩
  rw [word_eq hdollar, ← htext, String.ofList_toList, hkey, hty]

/-- So is a literal. -/
theorem isSlice_literal {l : Literal} {rest : List Char}
    (h : ∀ c, rest.head? = some c → (Word.literal l).extendsBy c = false) :
    IsSlice (.literal l) rest := by
  obtain ⟨text, value, reads⟩ := l
  cases reads with
  | @number c cs _ hc hcs hk =>
    refine ⟨c, cs, .number, rfl, ?_, first_number hc hcs h, ?_⟩
    · -- A digit is no space.
      rw [Bool.eq_false_iff]
      intro hs
      rcases (by simpa [Cut.isSpace] using hs : (c = ' ' ∨ c = '\t') ∨ c = '\r') with
        (rfl | rfl) | rfl <;> exact absurd hc (by decide)
    · intro r p after _
      refine ⟨r.push (.const value) p, ?_, draftOf_push _ _ _⟩
      simp only [Reader.slice, hk]
  | quoted hs =>
    refine ⟨'"', _, .string, rfl, rfl, first_quoted hs rest, ?_⟩
    intro r p after _
    exact ⟨_, rfl, draftOf_push _ _ _⟩
  | raw hs =>
    refine ⟨'\x60', _, .string, rfl, rfl, first_raw hs rest, ?_⟩
    intro r p after _
    exact ⟨_, rfl, draftOf_push _ _ _⟩
  | bool b =>
    cases b with
    | false =>
      have ht : (Word.literal ⟨_, _, .bool false⟩).text = ['f', 'a', 'l', 's', 'e'] := rfl
      exact isSlice_of_word ht rfl rfl h fun r p => ⟨_, rfl, fun after => draftOf_push _ _ _⟩
    | true =>
      have ht : (Word.literal ⟨_, _, .bool true⟩).text = ['t', 'r', 'u', 'e'] := rfl
      exact isSlice_of_word ht rfl rfl h fun r p => ⟨_, rfl, fun after => draftOf_push _ _ _⟩
  | nil =>
    have ht : (Word.literal ⟨_, _, .nil⟩).text = ['n', 'i', 'l'] := rfl
    exact isSlice_of_word ht rfl rfl h fun r p => ⟨_, rfl, fun after => draftOf_push _ _ _⟩

/-- Every valid word is a slice in front of a text that does not extend it. -/
theorem isSlice_of_valid {w : Word} {rest : List Char} (hw : w.IsValid)
    (h : ∀ c, rest.head? = some c → w.extendsBy c = false) : IsSlice w rest := by
  cases w with
  | newline => exact isSlice_newline rest
  | punct m => exact isSlice_punct hw h
  | oper o => exact isSlice_oper h
  | literal l => exact isSlice_literal h
  | name s => exact isSlice_name hw h
  | keyword k => exact isSlice_keyword hw h
  | type t => exact isSlice_type hw h

/-! ### The word behind a brace -/

/-- Whether some characters are one of the two keywords that go on with an `if`. -/
def isBranchWord (cs : List Char) : Bool := cs == "else".toList || cs == "elif".toList

theorem branchFollows_eq (cs : List Char) :
    Reader.branchFollows cs = isBranchWord (Reader.nextWord cs) := rfl

/-- Characters of names in front of something else are the next word. -/
theorem nextWord_of_name {c : Char} {cs rest : List Char} (hc : Cut.isNameChar c = true)
    (hcs : cs.all Cut.isNameChar = true)
    (h : ∀ d, rest.head? = some d → (Cut.isNameChar d || Cut.isMark d || d == '.') = false) :
    Reader.nextWord (c :: cs ++ rest) = c :: cs := by
  have hskip : (Cut.isSpace c || c == '\n') = false := by
    rw [Bool.eq_false_iff]
    intro hs
    rcases (by simpa [Cut.isSpace] using hs : ((c = ' ' ∨ c = '\t') ∨ c = '\r') ∨ c = '\n') with
      ((rfl | rfl) | rfl) | rfl <;> exact absurd hc (by decide)
  have hrest : ∀ d, rest.head? = some d → Cut.isNameChar d = false := by
    intro d hd
    have := h d hd
    simp only [Bool.or_eq_false_iff] at this
    exact this.1.1
  rw [Reader.nextWord, List.cons_append, List.dropWhile_cons_of_neg (by rw [hskip]; decide),
    List.takeWhile_cons_of_pos hc, takeWhile_append_of_head hcs hrest]

/-- Before any other character there is no next word. -/
theorem nextWord_of_not_name {c : Char} (cs : List Char) (hc : Cut.isNameChar c = false)
    (hskip : (Cut.isSpace c || c == '\n') = false) : Reader.nextWord (c :: cs) = [] := by
  rw [Reader.nextWord, List.dropWhile_cons_of_neg (by rw [hskip]; decide),
    List.takeWhile_cons_of_neg (by rw [hc]; decide)]

theorem nextWord_blank {gap : List Char} (h : gap.all Cut.isSpace = true) (cs : List Char) :
    Reader.nextWord (gap ++ cs) = Reader.nextWord cs := by
  have : ∀ c ∈ gap, (Cut.isSpace c || c == '\n') = true := by
    intro c hc
    rw [List.all_eq_true.1 h c hc, Bool.true_or]
  rw [Reader.nextWord, List.dropWhile_append_of_pos this]
  rfl

theorem isBranchWord_name {name : String} (h : isName name = true) :
    isBranchWord name.toList = false := by
  obtain ⟨-, -, -, -, -, hkey, -⟩ := isName_spec h
  rw [Bool.eq_false_iff]
  intro hb
  simp only [isBranchWord, Bool.or_eq_true, beq_iff_eq, String.toList_inj] at hb
  rcases hb with rfl | rfl <;> exact absurd hkey (by decide)

/-- A literal is no word that a branch starts with. -/
theorem isBranchWord_literal {l : Literal} {rest : List Char}
    (h : ∀ c, rest.head? = some c → (Word.literal l).extendsBy c = false) :
    isBranchWord (Reader.nextWord (l.text ++ rest)) = false := by
  obtain ⟨text, value, reads⟩ := l
  cases reads with
  | @number c cs _ hc _ _ =>
    have hname : Cut.isNameChar c = true := by rw [Cut.isNameChar, hc, Bool.or_true]
    have hskip : (Cut.isSpace c || c == '\n') = false := by
      rw [Bool.eq_false_iff]
      intro hs
      rcases (by simpa [Cut.isSpace] using hs :
        ((c = ' ' ∨ c = '\t') ∨ c = '\r') ∨ c = '\n') with ((rfl | rfl) | rfl) | rfl <;>
        exact absurd hc (by decide)
    have he : c ≠ 'e' := by
      rintro rfl
      exact absurd hc (by decide)
    dsimp only
    rw [Reader.nextWord, List.cons_append, List.dropWhile_cons_of_neg (by rw [hskip]; decide),
      List.takeWhile_cons_of_pos hname]
    simp [isBranchWord, he]
  | quoted | raw => rw [List.cons_append, nextWord_of_not_name _ rfl rfl]; rfl
  | bool b => cases b <;> exact congrArg isBranchWord (nextWord_of_name rfl rfl h)
  | nil => exact congrArg isBranchWord (nextWord_of_name rfl rfl h)

/-- The next word of a text that starts with a word other than a line end. -/
theorem isBranchWord_nextWord {w : Word} {rest : List Char} (hw : w.IsValid) (hn : w ≠ .newline)
    (h : ∀ c, rest.head? = some c → w.extendsBy c = false) (ws : List Word) :
    isBranchWord (Reader.nextWord (w.text ++ rest)) = branchAhead (w :: ws) := by
  cases w with
  | newline => exact absurd rfl hn
  | punct m => cases m <;> exact congrArg isBranchWord (nextWord_of_not_name _ rfl rfl)
  | oper o => cases o <;> exact congrArg isBranchWord (nextWord_of_not_name _ rfl rfl)
  | literal l => exact isBranchWord_literal h
  | name s =>
    obtain ⟨c, cs, htext, hc, hcs, -⟩ := isName_spec hw
    change isBranchWord (Reader.nextWord (s.toList ++ rest)) = false
    rcases Bool.or_eq_true_iff.1 hc with hl | ha
    · have hname : Cut.isNameChar c = true := by rw [Cut.isNameChar, hl, Bool.true_or]
      rw [htext, nextWord_of_name hname hcs h, ← htext, isBranchWord_name hw]
    · rw [htext, eq_of_beq ha, List.cons_append, nextWord_of_not_name _ rfl rfl]
      rfl
  | keyword k =>
    have hk : isPlain k = true := hw
    cases k <;> first
      | exact absurd hk (by decide)
      | exact congrArg isBranchWord (nextWord_of_name rfl rfl h)
  | type t => cases t <;> exact congrArg isBranchWord (nextWord_of_name rfl rfl h)

/-- Looking at the characters behind a brace is looking at the words behind it. -/
theorem branchFollows_of_spells {ws : List Word} {cs : List Char} (h : Spells ws cs) :
    Reader.branchFollows cs = branchAhead ws := by
  rw [branchFollows_eq]
  induction h with
  | nil hgap =>
    rename_i gap
    have := nextWord_blank hgap []
    rw [List.append_nil] at this
    rw [this]
    rfl
  | @cons gap cs w ws hgap hw hext hs ih =>
    rw [nextWord_blank hgap]
    by_cases hn : w = .newline
    · subst hn
      exact ih
    · exact isBranchWord_nextWord hw hn hext ws

/-! ### Reading a text -/

/-- Reading passes over blanks. -/
theorem run_blank {gap cs : List Char} (hgap : gap.all Cut.isSpace = true)
    (h : ∀ c, cs.head? = some c → Cut.isSpace c = false) {fuel : Nat} (r : Reader) (p : Position)
    (hfuel : (gap ++ cs).length ≤ fuel) :
    ∃ fuel' p', cs.length ≤ fuel' ∧ Reader.run fuel r p (gap ++ cs) = Reader.run fuel' r p' cs := by
  cases gap with
  | nil => exact ⟨fuel, p, hfuel, rfl⟩
  | cons c gap =>
    obtain ⟨fuel, rfl⟩ : ∃ n, fuel = n + 1 := ⟨fuel - 1, by simp at hfuel; omega⟩
    simp only [List.all_cons, Bool.and_eq_true] at hgap
    refine ⟨fuel, p.after (c :: gap), by simp at hfuel; omega, ?_⟩
    rw [List.cons_append, Reader.run, first_blank hgap.1 hgap.2 h]
    rfl

/-- Reading a word adds what the word feeds. -/
theorem run_word {w : Word} {cs : List Char} {after : List Word} (hw : IsSlice w cs)
    (h : Reader.branchFollows cs = branchAhead after) {fuel : Nat} (r : Reader) (p : Position)
    (hfuel : (w.text ++ cs).length ≤ fuel) :
    ∃ fuel' r' p', cs.length ≤ fuel' ∧ draftOf r' = (draftOf r).feed w after ∧
      Reader.run fuel r p (w.text ++ cs) = Reader.run fuel' r' p' cs := by
  obtain ⟨c, ds, shape, ht, -, hfirst, hslice⟩ := hw
  obtain ⟨r', hr, hd⟩ := hslice r p after h
  rw [ht] at hfuel ⊢
  obtain ⟨fuel, rfl⟩ : ∃ n, fuel = n + 1 := ⟨fuel - 1, by simp at hfuel; omega⟩
  refine ⟨fuel, r', p.after (c :: ds), by simp at hfuel; omega, hd, ?_⟩
  rw [List.cons_append, Reader.run, hfirst]
  dsimp only
  rw [hr]

/-- The reader makes of a text what its words say. -/
theorem run_of_spells {ws : List Word} {cs : List Char} (h : Spells ws cs) :
    ∀ (fuel : Nat) (r : Reader) (p : Position), cs.length ≤ fuel →
      ∃ r', Reader.run fuel r p cs = .ok r' ∧ draftOf r' = (draftOf r).feedAll ws := by
  induction h with
  | @nil gap hgap =>
    intro fuel r p hfuel
    rw [← List.append_nil gap] at hfuel ⊢
    obtain ⟨fuel', p', -, hrun⟩ := run_blank hgap (by simp) r p hfuel
    exact ⟨r, by rw [hrun, Reader.run], rfl⟩
  | @cons gap cs w ws hgap hw hext hs ih =>
    intro fuel r p hfuel
    have hslice := isSlice_of_valid hw hext
    have hhead : ∀ c, (w.text ++ cs).head? = some c → Cut.isSpace c = false := by
      obtain ⟨c, ds, shape, ht, hspace, -⟩ := hslice
      rw [ht]
      rintro d hd
      obtain rfl : c = d := by simpa using hd
      exact hspace
    obtain ⟨fuel₁, p₁, hfuel₁, hrun₁⟩ := run_blank hgap hhead r p hfuel
    obtain ⟨fuel₂, r₂, p₂, hfuel₂, hd₂, hrun₂⟩ :=
      run_word hslice (branchFollows_of_spells hs) r p₁ hfuel₁
    obtain ⟨r', hrun, hd⟩ := ih fuel₂ r₂ p₂ hfuel₂
    exact ⟨r', by rw [hrun₁, hrun₂, hrun], by rw [hd, hd₂]; rfl⟩

/-- A text that spells some words also spells them with a line end behind. -/
theorem Spells.snoc {ws : List Word} {cs : List Char} (h : Spells ws cs) :
    Spells (ws ++ [.newline]) (cs ++ ['\n']) := by
  induction h with
  | @nil gap hgap => exact Spells.cons hgap trivial (by simp) (Spells.nil rfl)
  | @cons gap cs w ws hgap hw hext hs ih =>
    rw [List.append_assoc, List.append_assoc, List.cons_append]
    refine Spells.cons hgap hw ?_ ih
    intro c hc
    cases cs with
    | nil =>
      obtain rfl : '\n' = c := by simpa using hc
      cases w with
      | oper o => cases o <;> rfl
      | punct m => cases m <;> rfl
      | _ => rfl
    | cons d ds => exact hext c hc

/-- **Reading by words**: a text that spells some words reads as what the words feed one by one,
with a line end behind. -/
theorem read_of_spells {ws : List Word} {text : String} (h : Spells ws text.toList) :
    ∃ lexemes, Lexeme.read text = .ok lexemes ∧
      lexemes.toList.map Lexeme.token = (Draft.feedAll {} (ws ++ [.newline])).tokens := by
  obtain ⟨r, hrun, hd⟩ := run_of_spells h.snoc _ {} ⟨1, 1⟩ (Nat.le_refl _)
  refine ⟨r.lexemes, ?_, congrArg Draft.tokens hd⟩
  rw [Lexeme.read, hrun]
  rfl

end Covenant.Structured
