import Covenant.Name

/-!
# Qualified names

A qualified name is an ecosystem's number and a plain name with nothing in between, so that the two
can be told apart only by where the digits end. Every qualified name starts with `@` and a digit,
and is taken as it is when it is qualified again (`Name.exists_digit_of_qualify`); a plain name does
not go on with digits, so that the digits behind the `@` are those of the number
(`Number.takeWhile_digits_append`). The main statement is `Name.qualify_separates`.
-/

namespace Covenant

/-! ### Digits in front of a text -/

namespace Number

theorem isDigit_of_mem_digits {n : Nat} {c : Char} (h : c ∈ digits n) : isDigit c = true := by
  have hdigit : c.isDigit = true := Nat.isDigit_of_mem_toDigits (by decide) (by decide) h
  simpa [isDigit, Char.isDigit, Char.le_def] using hdigit

/-- Different numbers have different digits. -/
theorem digits_inj {m n : Nat} (h : digits m = digits n) : m = n := by
  calc
    m = Nat.ofDigitChars 10 (digits m) 0 := Nat.ofDigitChars_ten_toDigits.symm
    _ = Nat.ofDigitChars 10 (digits n) 0 := by rw [h]
    _ = n := Nat.ofDigitChars_ten_toDigits

/-- The digits of a number end where a text behind them begins that starts with no digit. -/
theorem takeWhile_digits_append (n : Nat) {cs : List Char} (h : ∀ c ∈ cs.head?, isDigit c = false) :
    (digits n ++ cs).takeWhile isDigit = digits n := by
  have hcs : cs.takeWhile isDigit = [] := by
    cases cs with
    | nil => rfl
    | cons c cs => exact List.takeWhile_cons_of_neg (by simp [h c rfl])
  rw [List.takeWhile_append_of_pos fun c hc => isDigit_of_mem_digits hc, hcs, List.append_nil]

/-- A number and a text behind it that starts with no digit can be told apart. -/
theorem digits_append_inj {m n : Nat} {cs ds : List Char} (hcs : ∀ c ∈ cs.head?, isDigit c = false)
    (hds : ∀ d ∈ ds.head?, isDigit d = false) (h : digits m ++ cs = digits n ++ ds) :
    m = n ∧ cs = ds := by
  have hdigits : digits m = digits n := by
    rw [← takeWhile_digits_append m hcs, h, takeWhile_digits_append n hds]
  rw [hdigits] at h
  exact ⟨digits_inj hdigits, List.append_cancel_left h⟩

end Number

/-! ### Qualifying names -/

namespace Name

variable {s t : Nat} {n m : String}

/-- Whether a name starts with neither `@` nor a digit. -/
def Plain (name : String) : Prop := ∀ c ∈ name.toList.head?, c ≠ '@' ∧ Number.isDigit c = false

instance (name : String) : Decidable (Plain name) :=
  decidable_of_iff (name.toList.head?.all fun c => c != '@' && !Number.isDigit c) (by
    cases h : name.toList.head? <;> simp [Plain, h])

/-- A plain name is put behind the number of the ecosystem. -/
theorem toList_qualify (h : Plain n) :
    (qualify s n).toList = '@' :: (Number.digits s ++ n.toList) := by
  unfold Plain at h
  unfold qualify
  split
  · rename_i c rest heq
    rw [heq] at h
    exact absurd rfl (h '@' rfl).1
  · rename_i heq
    rw [heq] at h
    exact absurd rfl (h '@' rfl).1
  · simp [Number.natText]

/-- A qualified name starts with `@` and a digit. -/
theorem exists_digit_of_qualify (s : Nat) (n : String) :
    ∃ d rest, (qualify s n).toList = '@' :: d :: rest ∧ Number.isDigit d = true := by
  unfold qualify
  split
  · rename_i c rest heq
    split
    · exact ⟨c, rest, heq, ‹_›⟩
    · exact ⟨'1', c :: rest, by simp, by decide⟩
  · exact ⟨'1', [], rfl, by decide⟩
  · cases hdigits : Number.digits s with
    | nil => exact absurd hdigits Nat.toDigits_ne_nil
    | cons d ds =>
      refine ⟨d, ds ++ n.toList, by simp [Number.natText, hdigits], ?_⟩
      exact Number.isDigit_of_mem_digits (hdigits ▸ List.mem_cons_self ..)

/-- A name that starts with `@` and a digit is taken as it is. -/
theorem qualify_of_digit {d : Char} {rest : List Char} (hn : n.toList = '@' :: d :: rest)
    (hd : Number.isDigit d = true) : qualify t n = n := by
  unfold qualify
  rw [hn]
  exact if_pos hd

/-- **Qualified names separate ecosystems.** A qualified name stays as it is in every ecosystem, and
the qualified names of plain names are equal only if the ecosystems and the names are. -/
theorem qualify_separates :
    (∀ s t n, qualify t (qualify s n) = qualify s n) ∧
      ∀ s t n m, Plain n → Plain m → (qualify s n = qualify t m ↔ s = t ∧ n = m) := by
  refine ⟨fun s t n => ?_, fun s t n m hn hm => ⟨fun h => ?_, ?_⟩⟩
  · obtain ⟨d, rest, hlist, hd⟩ := exists_digit_of_qualify s n
    exact qualify_of_digit hlist hd
  · have hlists : '@' :: (Number.digits s ++ n.toList) = '@' :: (Number.digits t ++ m.toList) := by
      rw [← toList_qualify hn, h, toList_qualify hm]
    obtain ⟨hst, hnm⟩ :=
      Number.digits_append_inj (fun c hc => (hn c hc).2) (fun c hc => (hm c hc).2)
      (List.cons.inj hlists).2
    exact ⟨hst, String.toList_inj.1 hnm⟩
  · rintro ⟨rfl, rfl⟩
    rfl

/-- Ecosystems whose numbers start alike, and names of which one is empty. -/
theorem qualify_separates_one_twelve :
    Plain "" ∧ Plain "Token" ∧ qualify 12 "" = "@12" ∧ qualify 1 "Token" = "@1Token" ∧
      qualify 12 "" ≠ qualify 1 "Token" ∧ qualify 7 (qualify 12 "Token") = qualify 12 "Token" := by
  have hempty : Plain "" := by decide
  have htoken : Plain "Token" := by decide
  refine ⟨hempty, htoken, by decide, by decide, fun h => ?_, qualify_separates.1 12 7 "Token"⟩
  exact absurd ((qualify_separates.2 12 1 "" "Token" hempty htoken).1 h).1 (by decide)

/-- Names that start with digits do belong to several ecosystems. -/
example : qualify 1 "2Token" = qualify 12 "Token" := by decide

end Name

end Covenant
