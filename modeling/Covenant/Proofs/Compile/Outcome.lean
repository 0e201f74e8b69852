import Covenant.Session

/-!
# Units that compile

A unit is compiled in place: what it does to the arena and the registry shows in both, whether it
compiles or not. Here is what a unit that compiles leaves.
-/

namespace Covenant

theorem succeeded_eq_ok {α σ : Type} {r : Except Error α × σ} {a : α} {s : σ} :
    succeeded r = .ok (a, s) ↔ r = (.ok a, s) := by
  obtain ⟨x, t⟩ := r
  cases x <;> simp [succeeded]

namespace Arena

variable {a a' : Arena} {scope : Scope} {text : String} {lexemes : Array Lexeme} {root : BlockId}
  {w : Compile.Work} {e : Error}

theorem compile_eq_ok :
    a.compile scope text = .ok (root, a') ↔ a.compileUnit scope text = (.ok root, a') :=
  succeeded_eq_ok

theorem compileUnit_of_ok (hread : Lexeme.read text = .ok lexemes)
    (hunit : Compile.unit (scope.source lexemes)
      { arena := a.push { parent := none }, root := a.size }
      = .ok () w) : a.compileUnit scope text = (.ok a.size, w.arena) := by
  rw [compileUnit, hread]
  simp only [hunit]

theorem compileUnit_of_error (hread : Lexeme.read text = .ok lexemes)
    (hunit : Compile.unit (scope.source lexemes)
      { arena := a.push { parent := none }, root := a.size }
      = .error e w) : a.compileUnit scope text = (.error (e.withSource text),
        w.arena.take a.size) := by
  rw [compileUnit, hread]
  simp only [hunit]

/-- A text that does not read leaves the arena as it is; otherwise a unit is compiled. -/
theorem compileUnit_cases (a : Arena) (scope : Scope) (text : String) :
    (∃ e, Lexeme.read text = .error e ∧ a.compileUnit scope text
      = (.error (e.withSource text), a)) ∨
      ∃ lexemes, Lexeme.read text = .ok lexemes ∧
        ((∃ w, Compile.unit (scope.source lexemes)
            { arena := a.push { parent := none }, root := a.size } = .ok () w ∧
            a.compileUnit scope text = (.ok a.size, w.arena)) ∨
          ∃ e w, Compile.unit (scope.source lexemes)
            { arena := a.push { parent := none }, root := a.size } = .error e w ∧
            a.compileUnit scope text = (.error (e.withSource text), w.arena.take a.size)) := by
  cases hread : Lexeme.read text with
  | error e => exact .inl ⟨e, rfl, by rw [compileUnit, hread]⟩
  | ok lexemes =>
    refine .inr ⟨lexemes, rfl, ?_⟩
    cases hunit : Compile.unit (scope.source lexemes)
      { arena := a.push { parent := none }, root := a.size } with
    | ok _ w => exact .inl ⟨w, rfl, compileUnit_of_ok hread hunit⟩
    | error e w => exact .inr ⟨e, w, rfl, compileUnit_of_error hread hunit⟩

/-- A unit that compiles has been compiled from the lexemes of its text. -/
theorem unit_of_compile (h : a.compile scope text = .ok (root, a')) :
    root = a.size ∧ ∃ lexemes w, Lexeme.read text = .ok lexemes ∧
    Compile.unit (scope.source lexemes)
      { arena := a.push { parent := none }, root := a.size } = .ok () w ∧ a' = w.arena := by
  have hunit := compile_eq_ok.1 h
  rcases compileUnit_cases a scope text with
    ⟨e, -, heq⟩ | ⟨lexemes, hread, ⟨w, hw, heq⟩ | ⟨e, w, -, heq⟩⟩ <;> cases heq.symm.trans hunit
  exact ⟨rfl, lexemes, w, hread, hw, rfl⟩

end Arena

namespace Registry

variable {r r' : Registry} {state : UInt32} {text : String}

/-- A unit that compiles is entered into the registry. -/
theorem compile_eq_ok : r.compile state text = .ok r' ↔ ∃ root arena,
    r.arena.compile (r.scope state) text = .ok (root, arena) ∧
      r' = { r with arena := arena }.enterUnit root := by
  unfold compile compileUnit Arena.compile
  rcases hunit : r.arena.compileUnit (r.scope state) text with ⟨e | root, arena⟩
  · simp [succeeded, Except.map]
  · constructor
    · intro h
      cases h
      exact ⟨root, arena, rfl, rfl⟩
    · rintro ⟨root, arena, h, rfl⟩
      cases h
      rfl

end Registry

end Covenant
