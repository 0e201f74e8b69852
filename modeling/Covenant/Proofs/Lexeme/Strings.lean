import Covenant.Proofs.Lexeme.Comments

/-!
# String literals

A string can be written in two ways. Between double quotes every backslash and every double quote
has a backslash in front of it, and a line feed, a tab or a return may be written as a letter behind
a backslash (`Lexeme.Escaped`). Between back quotes everything stands for itself. Either text reads
as one lexeme, which is the string (`Lexeme.read_string`).

The escapes are paired twice: by the slice, which looks for the closing quote
(`Escaped.stringLength`), and by the value of the slice (`Escaped.unescape`). Both inductions go
along the same pairs.
-/

namespace Covenant

namespace Lexeme

/-- The texts that stand for some characters between double quotes. -/
inductive Escaped : List Char → List Char → Prop
  | nil : Escaped [] []
  | plain {c : Char} {s t : List Char} : c ≠ '\\' → c ≠ '"' → Escaped s t →
    Escaped (c :: s) (c :: t)
  | backslash {s t : List Char} : Escaped s t → Escaped ('\\' :: s) ('\\' :: '\\' :: t)
  | quote {s t : List Char} : Escaped s t → Escaped ('"' :: s) ('\\' :: '"' :: t)
  | newline {s t : List Char} : Escaped s t → Escaped ('\n' :: s) ('\\' :: 'n' :: t)
  | tab {s t : List Char} : Escaped s t → Escaped ('\t' :: s) ('\\' :: 't' :: t)
  | return {s t : List Char} : Escaped s t → Escaped ('\r' :: s) ('\\' :: 'r' :: t)

/-! ### The two pairings of escapes -/

namespace Escaped

variable {s t : List Char}

/-- The closing quote of a string is the one behind its characters. -/
theorem stringLength (h : Escaped s t) (rest : List Char) (n : Nat) :
    Cut.stringLength (t ++ '"' :: rest) n = some (n + t.length + 1) := by
  induction h generalizing n with
  | nil => rfl
  | @plain c s t hbackslash hquote _ ih =>
    rw [List.cons_append, Cut.stringLength]
    · rw [ih, List.length_cons]
      congr 1
      omega
    · intro hc
      exact absurd hc hbackslash
    · intro d ds hc
      exact absurd hc hbackslash
    · exact hquote
  | backslash _ ih | quote _ ih | newline _ ih | tab _ ih | «return» _ ih =>
    rw [List.cons_append, List.cons_append, Cut.stringLength, ih]
    simp only [List.length_cons]
    congr 1
    omega

/-- Resolving the escapes gives the characters back. -/
theorem unescape (h : Escaped s t) : Reader.unescape t = s := by
  induction h with
  | nil => rfl
  | @plain c s t hbackslash _ _ ih =>
    rw [Reader.unescape, ih] <;> simp [hbackslash]
  | backslash _ ih | quote _ ih | newline _ ih | tab _ ih | «return» _ ih =>
    rw [Reader.unescape, ih]

end Escaped

/-! ### Reading -/

/-- A raw string ends at the first mark. -/
theorem rawLength_of_not_mem {cs : List Char} (h : '\x60' ∉ cs) (rest : List Char) (n : Nat) :
    Cut.rawLength (cs ++ '\x60' :: rest) n = some (n + cs.length + 1) := by
  induction cs generalizing n with
  | nil => rfl
  | cons c cs ih =>
    rw [List.mem_cons, not_or] at h
    rw [List.cons_append, Cut.rawLength, if_neg (Ne.symm h.1), ih h.2, List.length_cons]
    congr 1
    omega

/-- A text that is one string slice reads as one string. -/
theorem read_of_first {q : Char} {body : List Char}
    (hfirst : Cut.first q (body ++ ['\n']) = .ok ⟨.string, q :: body, ['\n']⟩) :
    read (String.ofList (q :: body)) = .ok
      #[⟨.const (.str (Reader.stringValue (q :: body))), ⟨1, 1⟩⟩,
        ⟨.newline, Position.after ⟨1, 1⟩ (q :: body)⟩] := by
  obtain ⟨n, hn⟩ : ∃ n, body.length = n := ⟨_, rfl⟩
  unfold read
  simp only [String.toList_ofList, List.cons_append, List.length_cons, List.length_append, hn,
    List.length_nil]
  rw [Reader.run_step hfirst (p := ⟨1, 1⟩) (r := {}) rfl, Reader.run_step rfl rfl]
  cases n <;> rfl

/-- **String literals round-trip.** Whatever the characters of a string are, each way to write them
between double quotes reads as the string, and so does the string itself between back quotes if it
has none. -/
theorem read_string (s : String) :
    (∀ t, Escaped s.toList t →
      read (String.ofList ('"' :: (t ++ ['"']))) = .ok
        #[⟨.const (.str s), ⟨1, 1⟩⟩, ⟨.newline, Position.after ⟨1, 1⟩ ('"' :: (t ++ ['"']))⟩]) ∧
    ('\x60' ∉ s.toList →
      read (String.ofList ('\x60' :: (s.toList ++ ['\x60']))) = .ok
        #[⟨.const (.str s), ⟨1, 1⟩⟩,
          ⟨.newline, Position.after ⟨1, 1⟩ ('\x60' :: (s.toList ++ ['\x60']))⟩]) := by
  constructor
  · intro t ht
    have hlength : Cut.stringLength (t ++ ['"']) 0 = some (t ++ ['"']).length := by
      rw [ht.stringLength [] 0, List.length_append]
      simp
    have hvalue : Reader.stringValue ('"' :: (t ++ ['"'])) = s := by
      show String.ofList (Reader.unescape (t ++ ['"']).dropLast) = s
      rw [List.dropLast_concat, ht.unescape, String.ofList_toList]
    rw [read_of_first (Structured.first_quoted hlength ['\n']), hvalue]
  · intro hs
    have hlength : Cut.rawLength (s.toList ++ ['\x60']) 0 = some (s.toList ++ ['\x60']).length := by
      rw [rawLength_of_not_mem hs [] 0, List.length_append]
      simp
    have hvalue : Reader.stringValue ('\x60' :: (s.toList ++ ['\x60'])) = s := by
      show String.ofList (s.toList ++ ['\x60']).dropLast = s
      rw [List.dropLast_concat, String.ofList_toList]
    rw [read_of_first (Structured.first_raw hlength ['\n']), hvalue]

/-- A backslash, a quote and two line feeds, of which one is written as a letter. -/
theorem read_string_escapes :
    Escaped ['\\', '"', '\n', '\n'] ['\\', '\\', '\\', '"', '\\', 'n', '\n'] ∧
      read (String.ofList ['"', '\\', '\\', '\\', '"', '\\', 'n', '\n', '"']) = .ok
        #[⟨.const (.str (String.ofList ['\\', '"', '\n', '\n'])), ⟨1, 1⟩⟩, ⟨.newline, ⟨2, 2⟩⟩] ∧
      read (String.ofList ['\x60', '\\', '"', '\n', '\n', '\x60']) = .ok
        #[⟨.const (.str (String.ofList ['\\', '"', '\n', '\n'])), ⟨1, 1⟩⟩, ⟨.newline, ⟨3, 2⟩⟩] := by
  have hescaped : Escaped ['\\', '"', '\n', '\n'] ['\\', '\\', '\\', '"', '\\', 'n', '\n'] :=
    .backslash (.quote (.newline (.plain (by decide) (by decide) .nil)))
  obtain ⟨hquoted, hraw⟩ := read_string (String.ofList ['\\', '"', '\n', '\n'])
  rw [String.toList_ofList] at hquoted hraw
  exact ⟨hescaped, hquoted _ hescaped, hraw (by decide)⟩

end Lexeme

end Covenant
