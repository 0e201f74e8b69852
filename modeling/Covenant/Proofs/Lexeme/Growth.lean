import Covenant.Proofs.Lexeme.Slices
import Covenant.Registry

/-!
# Reading only adds lexemes

A reader never takes back a lexeme, so what a text begins with decides how its lexemes begin. What
it adds are no identifiers with an empty name, and no types without a keyword
(`Lexeme.read_spelled`). A condition is read behind the words that make a function of it, which are
read first whatever the condition is (`Lexeme.read_wrapCondition`).
-/

namespace Covenant

/-- Whether a word spells a token: an identifier has a name, and a type has a keyword. -/
def Token.Spelled : Token → Prop
  | .ident x => x ≠ ""
  | .type t => t ≠ .any
  | _ => True

namespace Reader

variable {r r' r'' : Reader} {p : Position} {t : Token}

/-- Whether a reader comes from another one by adding lexemes that words spell. -/
def Adds (r r' : Reader) : Prop :=
  ∃ ls, r'.lexemes.toList = r.lexemes.toList ++ ls ∧ ∀ l ∈ ls, l.token.Spelled

namespace Adds

theorem of_eq (h : r'.lexemes = r.lexemes) : r.Adds r' :=
  ⟨[], by rw [h, List.append_nil], fun _ hl => absurd hl List.not_mem_nil⟩

theorem trans (h : r.Adds r') (h' : r'.Adds r'') : r.Adds r'' := by
  obtain ⟨ls, hls, hspelled⟩ := h
  obtain ⟨ls', hls', hspelled'⟩ := h'
  refine ⟨ls ++ ls', by rw [hls', hls, List.append_assoc], fun l hl => ?_⟩
  exact (List.mem_append.1 hl).elim (hspelled l) (hspelled' l)

theorem push (r : Reader) (ht : t.Spelled) (p : Position) : r.Adds (r.push t p) := by
  refine ⟨[⟨t, p⟩], by rw [Reader.push, Array.toList_push], fun l hl => ?_⟩
  rw [List.mem_singleton.1 hl]
  exact ht

theorem pushTimes (r : Reader) (ht : t.Spelled) (p : Position) (n : Nat) :
    r.Adds (r.pushTimes t p n) := by
  unfold Reader.pushTimes
  induction n with
  | zero => exact .of_eq rfl
  | succ n ih => exact ih.trans (.push _ ht p)

/-- A closing brace adds one or more tokens. -/
theorem closeBrace (r : Reader) (p : Position) (rest : List Char) :
    r.Adds (r.closeBrace p rest) := by
  unfold Reader.closeBrace
  split
  · exact .of_eq rfl
  · rename_i f fs _
    split
    · exact .of_eq rfl
    · split
      · exact .of_eq rfl
      · split
        · exact .of_eq rfl
        · exact .pushTimes { r with ifs := fs } (by trivial) p _

/-- So does a sign. -/
theorem punct (r : Reader) (m : Punct) (p : Position) (rest : List Char) :
    r.Adds (r.punct m p rest) := by
  have hpush : r.Adds (r.push (.punct m) p) := .push r (by trivial) p
  cases m with
  | lcurly =>
    refine hpush.trans (.of_eq ?_)
    show (r.push (.punct .lcurly) p).openBrace.lexemes = _
    unfold openBrace
    split <;> rfl
  | rcurly => exact hpush.trans (.closeBrace _ p rest)
  | _ => exact hpush

/-- So does a keyword. -/
theorem keyword (r : Reader) (k : Keyword) (p : Position) : r.Adds (r.keyword k p) := by
  have hname : ∀ t : Token, t.Spelled →
      r.Adds ((if r.afterFunc then r else r.push (.keyword .func) p).push t p) := by
    intro t ht
    refine trans ?_ (.push _ ht p)
    split
    · exact .of_eq rfl
    · exact .push r (by trivial) p
  cases k with
  | action | conditions => exact hname _ (show _ ≠ _ by decide)
  | «elif» =>
    obtain ⟨lexemes, _ | ⟨f, fs⟩⟩ := r
    · exact .push ⟨lexemes, []⟩ (by trivial) p
    · have hfirst : Adds ⟨lexemes, f :: fs⟩
        (Reader.push ⟨lexemes, { f with owed := f.owed + 1 } :: fs⟩
          (.keyword .else) p) := .push ⟨lexemes, { f with owed := f.owed + 1 } :: fs⟩ (by trivial) p
      exact (hfirst.trans (.push _ (by trivial) p)).trans (.push _ (by trivial) p)
  | «if» => exact .push { r with ifs := {} :: r.ifs } (by trivial) p
  | _ => exact .push r (by trivial) p

/-- The name that a word reads as is the word, which is not empty. -/
theorem word {c : Char} {cs : List Char} (h : r.word (c :: cs) p = .ok r') : r.Adds r' := by
  unfold Reader.word at h
  split at h
  · cases h
  · cases h
    exact .push r (by trivial) p
  · dsimp only at h
    split at h
    · cases h
      exact .keyword r _ p
    · split at h <;> cases h
      · rename_i t htype
        have ht : (Token.type t).Spelled := by
          simpa [Token.Spelled] using (List.mem_filter.1 (List.mem_of_find?_eq_some htype)).2
        exact .push r ht p
      · have hname : (Token.ident (String.ofList (c :: cs))).Spelled := fun hempty =>
          List.cons_ne_nil c cs (String.ofList_eq_empty_iff.1 hempty)
        exact .push r hname p

/-- So does a slice that is read. -/
theorem slice {k : Cut} {c : Char} {ds : List Char} (htext : k.text = c :: ds)
    (h : r.slice k p = .ok r') : r.Adds r' := by
  unfold Reader.slice at h
  split at h
  · cases h
    exact .of_eq rfl
  · cases h
    exact .of_eq rfl
  · cases h
    exact .push r (by trivial) p
  · split at h <;> cases h
    exact .punct r _ p _
  · split at h
    · cases h
      exact .push r (by trivial) p
    · split at h <;> cases h
      exact .push r (by trivial) p
  · split at h <;> cases h
    exact .push r (by trivial) p
  · rw [htext] at h
    exact .word h
  · cases h
    exact .push r (by trivial) p

end Adds

/-- **Reading on only adds lexemes.** -/
theorem adds_run {fuel : Nat} {cs : List Char} (h : run fuel r p cs = .ok r') : r.Adds r' := by
  induction fuel generalizing r p cs with
  | zero =>
    cases cs with
    | nil =>
      cases h
      exact .of_eq rfl
    | cons => cases h
  | succ fuel ih =>
    cases cs with
    | nil =>
      cases h
      exact .of_eq rfl
    | cons c cs =>
      unfold run at h
      split at h
      · cases h
      · rename_i k hk
        split at h
        · cases h
        · obtain ⟨ds, htext, -⟩ := Cut.first_eq_ok hk
          exact (Adds.slice htext ‹_›).trans (ih h)

theorem lexemes_run {fuel : Nat} {cs : List Char} (h : run fuel r p cs = .ok r') :
    r.lexemes.toList <+: r'.lexemes.toList := by
  obtain ⟨ls, hls, -⟩ := adds_run h
  exact ⟨ls, hls.symm⟩

end Reader

/-- The identifiers of a text have names that are not empty, and its types have keywords. -/
theorem Lexeme.read_spelled {text : String} {lexemes : Array Lexeme} (h : read text = .ok lexemes) :
    ∀ l ∈ lexemes.toList, l.token.Spelled := by
  unfold read at h
  dsimp only at h
  cases hrun : Reader.run (text.toList ++ ['\n']).length {} ⟨1, 1⟩ (text.toList ++ ['\n']) with
  | error e =>
    rw [hrun] at h
    cases h
  | ok r =>
    rw [hrun] at h
    cases h
    obtain ⟨ls, hls, hspelled⟩ := Reader.adds_run hrun
    rwa [hls, List.nil_append]

namespace Structured

/-! ### Words in front of a text -/

/-- Only a right brace looks at the words behind it. -/
theorem Draft.feed_congr {w : Word} (hw : w ≠ .punct .rcurly) (d : Draft)
    (after after' : List Word) :
    d.feed w after = d.feed w after' := by
  cases w with
  | punct m =>
    cases m with
    | rcurly => exact absurd rfl hw
    | _ => rfl
  | _ => rfl

/-- A word with a blank behind it is read whatever the text goes on with. -/
theorem run_word_blank {w : Word} (hw : w.IsValid) (hbrace : w ≠ .punct .rcurly) (rest : List Char)
    {fuel : Nat} (r : Reader) (p : Position) (hfuel : (w.text ++ ' ' :: rest).length ≤ fuel) :
    ∃ fuel' r' p', (' ' :: rest).length ≤ fuel' ∧ draftOf r' = (draftOf r).feed w [] ∧
      Reader.run fuel r p (w.text ++ ' ' :: rest) = Reader.run fuel' r' p' (' ' :: rest) := by
  have hslice : IsSlice w (' ' :: rest) := by
    refine isSlice_of_valid hw fun c hc => ?_
    rw [← Option.some.inj hc]
    exact extendsBy_blank w
  obtain ⟨after, hafter⟩ : ∃ after, Reader.branchFollows (' ' :: rest) = branchAhead after := by
    cases Reader.branchFollows (' ' :: rest) with
    | false => exact ⟨[], rfl⟩
    | true => exact ⟨[.keyword .else], rfl⟩
  obtain ⟨fuel', r', p', hfuel', hd, hrun⟩ := run_word hslice hafter r p hfuel
  exact ⟨fuel', r', p', hfuel', hd.trans (Draft.feed_congr hbrace _ _ _), hrun⟩

/-- Words with blanks around them are read whatever the text goes on with. -/
theorem run_words {ws : List Word} (hws : ∀ w ∈ ws, w.IsValid ∧ w ≠ .punct .rcurly)
    (rest : List Char) {fuel : Nat} (r : Reader) (p : Position)
    (hfuel : ((ws.flatMap fun w => ' ' :: w.text) ++ ' ' :: rest).length ≤ fuel) :
    ∃ fuel' r' p', (' ' :: rest).length ≤ fuel' ∧ draftOf r' = (draftOf r).feedAll ws ∧
      Reader.run fuel r p ((ws.flatMap fun w => ' ' :: w.text) ++ ' ' :: rest)
        = Reader.run fuel' r' p' (' ' :: rest) := by
  induction ws generalizing fuel r p with
  | nil => exact ⟨fuel, r, p, hfuel, rfl, rfl⟩
  | cons w ws ih =>
    obtain ⟨⟨hw, hbrace⟩, hws⟩ := List.forall_mem_cons.1 hws
    obtain ⟨tail, htail⟩ : ∃ tail, (ws.flatMap fun w => ' ' :: w.text) ++ ' '
      :: rest = ' ' :: tail := by
      cases ws with
      | nil => exact ⟨rest, rfl⟩
      | cons v vs => exact ⟨_, rfl⟩
    have htext : ((w :: ws).flatMap fun w => ' ' :: w.text) ++ ' ' :: rest
        = [' '] ++ (w.text ++ ' ' :: tail) := by
      rw [List.flatMap_cons, List.append_assoc, htail]
      rfl
    rw [htext] at hfuel ⊢
    -- The blank before a word is a slice by itself since no word starts with a space.
    have hhead : ∀ c, (w.text ++ ' ' :: tail).head? = some c → Cut.isSpace c = false := by
      have hslice : IsSlice w [] := isSlice_of_valid hw fun _ h => by cases h
      obtain ⟨c, ds, shape, ht, hspace, -⟩ := hslice
      rw [ht]
      intro d hd
      rwa [← Option.some.inj hd]
    obtain ⟨fuel₁, p₁, hfuel₁, hrun₁⟩ := run_blank rfl hhead r p hfuel
    obtain ⟨fuel₂, r₂, p₂, hfuel₂, hd₂, hrun₂⟩ := run_word_blank hw hbrace tail r p₁ hfuel₁
    rw [← htail] at hfuel₂
    obtain ⟨fuel₃, r₃, p₃, hfuel₃, hd₃, hrun₃⟩ := ih hws r₂ p₂ hfuel₂
    rw [htail] at hrun₃
    refine ⟨fuel₃, r₃, p₃, hfuel₃, ?_, hrun₁.trans (hrun₂.trans hrun₃)⟩
    rw [hd₃, hd₂, Draft.feedAll, Draft.feed_congr hbrace]

end Structured

/-! ### Conditions -/

namespace Lexeme

/-- The words that a condition's function starts with, behind the first one. -/
def conditionWords : List Structured.Word :=
  [.name "eval", .type .bool, .punct .lcurly, .keyword .return]

theorem conditionWords_plain : ∀ w ∈ conditionWords, w.IsValid ∧ w ≠ .punct .rcurly := by
  simp only [conditionWords, List.forall_mem_cons]
  refine ⟨⟨?_, nofun⟩, ⟨?_, nofun⟩, ⟨?_, nofun⟩, ⟨?_, nofun⟩, nofun⟩ <;> decide +kernel

/-- What a condition's function starts with. -/
def conditionHeader : List Token :=
  [.keyword .func, .ident "eval", .type .bool, .punct .lcurly, .keyword .return]

/-- The words around a condition. -/
theorem toList_wrapCondition (text : String) : ∃ tail,
    (Registry.wrapCondition text).toList ++ ['\n']
      = (Structured.Word.keyword .func).text ++ ' ' :: tail ∧
    ' ' :: tail = (conditionWords.flatMap fun w => ' ' :: w.text)
      ++ ' ' :: (text.toList ++ [' ', '\x7d', '\n']) := by
  have hheader : "func eval bool \x7b return ".toList = (Structured.Word.keyword .func).text
      ++ ' ' :: ("eval bool \x7b return".toList ++ [' ']) := by decide +kernel
  have hwords : (conditionWords.flatMap fun w => ' ' :: w.text)
      = ' ' :: "eval bool \x7b return".toList := by decide +kernel
  have hclose : " \x7d".toList = [' ', '\x7d'] := by decide
  generalize "eval bool \x7b return".toList = words at hheader hwords
  have hwrap : (Registry.wrapCondition text).toList
      = "func eval bool \x7b return ".toList ++ text.toList ++ " \x7d".toList := by
    unfold Registry.wrapCondition
    rw [String.toList_append, String.toList_append]
  refine ⟨words ++ ' ' :: (text.toList ++ [' ', '\x7d', '\n']), ?_, ?_⟩
  · rw [hwrap, hheader, hclose]
    generalize (Structured.Word.keyword .func).text = func
    simp only [List.append_assoc, List.cons_append, List.nil_append]
  · rw [hwords, List.cons_append]

/-- **A condition is read as a function** `eval` with the condition behind `return`. -/
theorem run_wrapCondition (text : String) : ∃ fuel r p,
    (' ' :: (text.toList ++ [' ', '\x7d', '\n'])).length ≤ fuel ∧
      Structured.draftOf r = ⟨conditionHeader, []⟩ ∧
      read (Registry.wrapCondition text)
        = (Reader.run fuel r p (' ' :: (text.toList ++ [' ', '\x7d', '\n']))).map
        Reader.lexemes := by
  obtain ⟨tail, htext, htail⟩ := toList_wrapCondition text
  obtain ⟨fuel₁, r₁, p₁, hfuel₁, hd₁, hrun₁⟩ := Structured.run_word_blank (w := .keyword .func)
    (by decide) nofun tail {} ⟨1, 1⟩ (Nat.le_of_eq (congrArg List.length htext.symm))
  rw [htail] at hfuel₁
  obtain ⟨fuel₂, r₂, p₂, hfuel₂, hd₂, hrun₂⟩ := Structured.run_words conditionWords_plain
    (text.toList ++ [' ', '\x7d', '\n']) r₁ p₁ hfuel₁
  refine ⟨fuel₂, r₂, p₂, hfuel₂, by rw [hd₂, hd₁]; rfl, ?_⟩
  rw [read, ← hrun₂, ← htail, ← hrun₁, htext]

/-- The first words of a condition's function are read first. -/
theorem read_wrapCondition {text : String} {lexemes : Array Lexeme}
    (h : read (Registry.wrapCondition text) = .ok lexemes) :
    conditionHeader <+: lexemes.toList.map token := by
  obtain ⟨fuel, r, p, -, hd, hread⟩ := run_wrapCondition text
  rw [hread] at h
  cases hrun : Reader.run fuel r p (' ' :: (text.toList ++ [' ', '\x7d', '\n'])) with
  | error e =>
    rw [hrun] at h
    cases h
  | ok r' =>
    rw [hrun] at h
    cases h
    have hheader : r.lexemes.toList.map token = conditionHeader :=
      congrArg Structured.Draft.tokens hd
    exact hheader ▸ (Reader.lexemes_run hrun).map token

end Lexeme

end Covenant
