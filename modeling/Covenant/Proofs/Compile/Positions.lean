import Covenant.Proofs.Compile.Units

/-!
# Expressions and literals move on within the lexemes

Whatever the lexemes are, a literal and an expression end: each goes on behind the lexemes that it
has read, and not behind the last one (`Compile.literal_within`, `Compile.proceeds_take`). The steps
that the compiler gives them are enough (`Compile.proceeds_expression`), so no error ever is a lack
of steps (`Compile.Ends`). The data fields that wait for their type are left alone by all of this.
-/

namespace Covenant.Compile

open Covenant.Computation

/-! ### Steps that end -/

/-- Whether a step of compilation ends: with an answer and a work that have a property, or with an
error that is no lack of steps. -/
def Ends {α : Type} (w : Work) (x : Compiling α) (Q : α → Work → Prop) : Prop :=
  match x w with
  | .ok a w' => Q a w'
  | .error e _ => e.fault ≠ .outOfSteps

/-- Whether a step of compilation ends and leaves the data fields that wait. -/
def Proceeds {α : Type} (w : Work) (x : Compiling α) (Q : α → Prop) : Prop :=
  Ends w x fun a w' => w'.pendingFields = w.pendingFields ∧ Q a

section steps

variable {α β : Type} {s : Source} {w w' : Work} {x : Compiling α} {k : α → Compiling β}

namespace Ends

variable {P Q : α → Work → Prop} {R : β → Work → Prop}

theorem pure {a : α} (h : Q a w) : Ends w (pure a) Q := h

theorem throw {e : Error} (h : e.fault ≠ .outOfSteps) : Ends w (throw e : Compiling α) Q := h

theorem failAt {f : Fault} {i : Nat} (h : f ≠ .outOfSteps) :
    Ends w (failAt s f i : Compiling α) Q := h

/-- Two steps in a row end if the second does wherever the first one leads. -/
theorem bind (hx : Ends w x P) (hk : ∀ a w', P a w' → Ends w' (k a) R) : Ends w (x >>= k) R := by
  unfold Ends at hx
  cases hresult : x w with
  | ok a w' =>
    rw [hresult] at hx
    rw [Ends, bind_of_ok hresult]
    exact hk a w' hx
  | error e w' =>
    rw [hresult] at hx
    rw [Ends, bind_of_error hresult]
    exact hx

theorem throw_bind {e : Error} (h : e.fault ≠ .outOfSteps) :
    Ends w ((MonadExcept.throw e : Compiling α) >>= k) R := h

theorem get {k : Work → Compiling β} (h : Ends w (k w) R) : Ends w (get >>= k) R := h

theorem set {Q : PUnit → Work → Prop} (h : Q ⟨⟩ w') : Ends w (set w' : Compiling PUnit) Q := h

theorem modify {Q : PUnit → Work → Prop} {f : Work → Work} (h : Q ⟨⟩ (f w)) :
    Ends w (modify f : Compiling PUnit) Q := h

theorem ite {c : Prop} [Decidable c] {y : Compiling α} (hx : c → Ends w x Q)
    (hy : ¬ c → Ends w y Q) :
    Ends w (if c then x else y) Q := by
  split
  · exact hx ‹_›
  · exact hy ‹_›

theorem imp (h : Ends w x P) (hQ : ∀ a w', P a w' → Q a w') : Ends w x Q := by
  unfold Ends at h ⊢
  split at h
  · exact hQ _ _ h
  · exact h

theorem leads (h : Ends w x P) : Leads w x P := by
  intro a w' hx
  rwa [Ends, hx] at h

theorem fails (h : Ends w x P) {e : Error} (hx : x w = .error e w') : e.fault ≠ .outOfSteps := by
  rwa [Ends, hx] at h

end Ends

namespace Proceeds

variable {P Q : α → Prop} {R : β → Prop}

theorem pure {a : α} (h : Q a) : Proceeds w (pure a) Q := ⟨rfl, h⟩

theorem failAt {f : Fault} {i : Nat} (h : f ≠ .outOfSteps) :
    Proceeds w (failAt s f i : Compiling α) Q := h

theorem throw_bind {e : Error} (h : e.fault ≠ .outOfSteps) :
    Proceeds w ((MonadExcept.throw e : Compiling α) >>= k) R := h

theorem get {k : Work → Compiling β} (h : Proceeds w (k w) R) : Proceeds w (get >>= k) R := h

theorem ite {c : Prop} [Decidable c] {y : Compiling α} (hx : c → Proceeds w x Q)
    (hy : ¬ c → Proceeds w y Q) : Proceeds w (if c then x else y) Q :=
  Ends.ite hx hy

theorem imp (h : Proceeds w x P) (hQ : ∀ a, P a → Q a) : Proceeds w x Q :=
  Ends.imp h fun a _ ha => ⟨ha.1, hQ a ha.2⟩

theorem bind (hx : Proceeds w x P) (hk : ∀ a w', P a → Proceeds w' (k a) R) :
    Proceeds w (x >>= k) R :=
  Ends.bind hx fun a w' ha => Ends.imp (hk a w' ha.2) fun _ _ hb => ⟨hb.1.trans ha.1, hb.2⟩

theorem set {Q : PUnit → Prop} (hfields : w'.pendingFields = w.pendingFields) (h : Q ⟨⟩) :
    Proceeds w (set w' : Compiling PUnit) Q := ⟨hfields, h⟩

theorem modify {Q : PUnit → Prop} {f : Work → Work}
    (hfields : (f w).pendingFields = w.pendingFields) (h : Q ⟨⟩) :
    Proceeds w (modify f : Compiling PUnit) Q := ⟨hfields, h⟩

/-- What is read from the source alone leaves the work as it is. -/
theorem lift {r : Except Error α} (hok : ∀ a, r = .ok a → Q a)
    (hfail : ∀ e, r = .error e → e.fault ≠ .outOfSteps) : Proceeds w (liftM r : Compiling α) Q := by
  cases r with
  | ok a => exact ⟨rfl, hok a rfl⟩
  | error e => exact hfail e rfl

end Proceeds

end steps

variable {s : Source} {w : Work} {y : Yard}

/-! ### Data fields that wait -/

theorem Work.pendingFields_foldl_modifyBlock (f : Block → Block) (ids : List BlockId) (w : Work) :
    (ids.foldl (fun w id => w.modifyBlock id f) w).pendingFields = w.pendingFields := by
  induction ids generalizing w with
  | nil => rfl
  | cons id ids ih => exact ih (w.modifyBlock id f)

@[simp] theorem Work.pendingFields_setWritable (w : Work) :
    w.setWritable.pendingFields = w.pendingFields :=
  pendingFields_foldl_modifyBlock Block.setWritable w.opened w

@[simp] theorem Work.pendingFields_noteUse (w : Work) (contract : String) :
    (w.noteUse contract).pendingFields = w.pendingFields :=
  pendingFields_foldl_modifyBlock (noted contract) w.opened w

/-! ### Positions -/

theorem Source.lt_of_token? {i : Nat} {t : Token} (h : s.token? i = some t) :
    i < s.lexemes.size := by
  obtain ⟨l, hl, -⟩ := Option.map_eq_some_iff.1 h
  exact (Array.getElem?_eq_some_iff.1 hl).1

theorem Source.lt_of_kind? {i : Nat} {k : Kind} (h : s.kind? i = some k) : i < s.lexemes.size := by
  obtain ⟨l, hl, -⟩ := Option.map_eq_some_iff.1 h
  exact (Array.getElem?_eq_some_iff.1 hl).1

/-! ### Literals -/

/-- Whether reading from a position ends: behind it, but not behind the last lexeme, or with an
error that is no lack of steps. -/
structure Within {α : Type} (s : Source) (i : Nat) (r : Except Error (α × Nat)) : Prop where
  moves : ∀ a n, r = .ok (a, n) → i < n ∧ n ≤ s.lexemes.size
  fails : ∀ e, r = .error e → e.fault ≠ .outOfSteps

namespace Within

variable {α β : Type} {i n : Nat}

theorem error {e : Error} (h : e.fault ≠ .outOfSteps) : Within (α := α) s i (.error e) :=
  ⟨nofun, fun _ he => by cases he; exact h⟩

theorem next {a : α} (h : i < s.lexemes.size) : Within s i (.ok (a, i + 1)) := by
  refine ⟨fun _ _ hok => ?_, nofun⟩
  cases hok
  omega

/-- What starts further on ends further on. -/
theorem mono {r : Except Error (α × Nat)} (h : Within s n r) (hle : i ≤ n) : Within s i r :=
  ⟨fun a m hr => ⟨Nat.lt_of_le_of_lt hle (h.moves a m hr).1, (h.moves a m hr).2⟩, h.fails⟩

theorem bind {r : Except Error (α × Nat)} {k : α × Nat → Except Error (β × Nat)} (h : Within s i r)
    (hk : ∀ a n, i < n → n ≤ s.lexemes.size → Within s i (k (a, n))) : Within s i (r >>= k) := by
  cases r with
  | error e => exact .error (h.fails e rfl)
  | ok p =>
    obtain ⟨hlt, hle⟩ := h.moves p.1 p.2 rfl
    exact hk p.1 p.2 hlt hle

end Within

/-- **Literals end within the lexemes**: two steps for each lexeme are enough. -/
theorem literal_within (s : Source) (w : Work) (fuel : Nat) :
    (∀ i key comma, i ≤ s.lexemes.size → 2 * (s.lexemes.size - i) + 2 ≤ fuel →
      Within s i (mapFrom s w fuel i key comma)) ∧
    (∀ i comma, i ≤ s.lexemes.size → 2 * (s.lexemes.size - i) + 2 ≤ fuel →
      Within s i (arrayFrom s w fuel i comma)) ∧
    ∀ i, i ≤ s.lexemes.size → 2 * (s.lexemes.size - i) + 1 ≤ fuel →
      Within s i (itemFrom s w fuel i) := by
  -- Maps, arrays and their items read each other, so the three bounds are proved together. An array
  -- reads an item at its own position, which therefore needs one unit of fuel less.
  induction fuel with
  | zero =>
    refine ⟨fun _ _ _ _ h => ?_, fun _ _ _ h => ?_, fun _ _ h => ?_⟩ <;> exact absurd h (by omega)
  | succ fuel ih =>
    obtain ⟨ihmap, iharray, ihitem⟩ := ih
    refine ⟨fun i key comma hi hfuel => ?_, fun i comma hi hfuel => ?_, fun i hi hfuel => ?_⟩
    · -- a map
      have hskip : i < s.lexemes.size →
        ∀ key comma, Within s i (mapFrom s w fuel (i + 1) key comma) :=
        fun hlt key comma => (ihmap (i + 1) key comma (by omega) (by omega)).mono (Nat.le_succ i)
      unfold mapFrom
      split
      · exact .error (fun h => by cases h)
      · exact hskip (Source.lt_of_token? ‹_›) key comma
      · have hlt := Source.lt_of_token? ‹_›
        split
        · split
          · refine .bind ((ihitem (i + 1) (by omega) (by omega)).mono (Nat.le_succ i))
              fun item n hn hle => ?_
            refine .bind ((ihmap n none true hle (by omega)).mono (Nat.le_of_lt hn))
              fun entries m hm hle => ?_
            exact ⟨fun _ _ hok => by cases hok; exact ⟨hm, hle⟩, fun _ h => by cases h⟩
          · exact .error (fun h => by cases h)
        · split
          · exact .next hlt
          · exact hskip hlt none false
          · exact .error (fun h => by cases h)
          · exact hskip hlt _ false
          · exact hskip hlt _ false
          · exact .error (fun h => by cases h)
    · -- an array
      have hskip : i < s.lexemes.size → ∀ comma, Within s i (arrayFrom s w fuel (i + 1) comma) :=
        fun hlt comma => (iharray (i + 1) comma (by omega) (by omega)).mono (Nat.le_succ i)
      unfold arrayFrom
      split
      · exact .error (fun h => by cases h)
      · exact hskip (Source.lt_of_token? ‹_›) comma
      · have hlt := Source.lt_of_token? ‹_›
        split
        · exact .next hlt
        · exact hskip hlt false
        · exact .error (fun h => by cases h)
        · refine .bind (ihitem i hi (by omega)) fun item n hn hle => ?_
          refine .bind ((iharray n true hle (by omega)).mono (Nat.le_of_lt hn))
            fun items m hm hle => ?_
          exact ⟨fun _ _ hok => by cases hok; exact ⟨hm, hle⟩, fun _ h => by cases h⟩
    · -- one item
      unfold itemFrom
      split
      · exact .error (fun h => by cases h)
      · have hlt := Source.lt_of_token? ‹_›
        exact (ihitem (i + 1) (by omega) (by omega)).mono (Nat.le_succ i)
      · exact .next (Source.lt_of_token? ‹_›)
      · exact .next (Source.lt_of_token? ‹_›)
      · split
        · exact .next (Source.lt_of_token? ‹_›)
        · exact .next (Source.lt_of_token? ‹_›)
        · exact .error (fun h => by cases h)
      · have hlt := Source.lt_of_token? ‹_›
        refine .bind ((ihmap (i + 1) none false (by omega) (by omega)).mono (Nat.le_succ i))
          fun entries m hm hle => ?_
        exact ⟨fun _ _ hok => by cases hok; exact ⟨hm, hle⟩, fun _ h => by cases h⟩
      · have hlt := Source.lt_of_token? ‹_›
        refine .bind ((iharray (i + 1) false (by omega) (by omega)).mono (Nat.le_succ i))
          fun items m hm hle => ?_
        exact ⟨fun _ _ hok => by cases hok; exact ⟨hm, hle⟩, fun _ h => by cases h⟩
      · exact .error (fun h => by cases h)

theorem mapLiteral_within {i : Nat} (hi : i < s.lexemes.size) : Within s i (mapLiteral s w i) :=
  ((literal_within s w (literalFuel s)).1 (i + 1) none false hi (by unfold literalFuel; omega)).mono
    (Nat.le_succ i)

theorem arrayLiteral_within {i : Nat} (hi : i < s.lexemes.size) : Within s i (arrayLiteral s w i) :=
  ((literal_within s w (literalFuel s)).2.1 (i + 1) false hi (by unfold literalFuel; omega)).mono
    (Nat.le_succ i)

/-! ### Calls -/

theorem proceeds_contractRunner (i : Nat) : Proceeds w (contractRunner s i) fun _ => True := by
  unfold contractRunner
  split
  · exact .pure trivial
  · exact .failAt nofun

/-- To open a call of a contract ends. -/
theorem proceeds_openContract (id : BlockId) (i : Nat) :
    Proceeds w (openContract s id i y) fun _ => True := by
  refine .get ?_
  dsimp only
  split <;> refine .ite (fun _ => .throw_bind nofun) fun _ => ?_
  all_goals
    refine .bind (P := fun _ => True) (.set ?_ trivial) fun _ _ _ =>
      .bind (proceeds_contractRunner i) fun _ _ _ => .pure trivial
    split <;> simp

/-- So does any call. -/
theorem proceeds_openCall (name : String) (i : Nat) :
    Proceeds w (openCall s name i y) fun _ => True := by
  refine .get ?_
  dsimp only
  split
  · exact .pure trivial
  · exact .ite (fun _ => .pure trivial) fun _ => .pure trivial
  · exact proceeds_openContract _ i
  · exact .ite (fun _ => .bind (proceeds_contractRunner i) fun _ _ _ => .pure trivial)
      fun _ => .failAt nofun
  · exact .failAt nofun

theorem proceeds_endFunc (id : BlockId) (count : Nat) (c : PendingCall) (i : Nat) :
    Proceeds w (endFunc s id count c i y) fun _ => True := by
  refine .get ?_
  split
  · exact .failAt nofun
  · refine .ite (fun _ => .throw_bind nofun) fun _ => .ite (fun _ => ?_) fun _ => .pure trivial
    exact .bind (P := fun _ => True) (.set (by simp) trivial) fun _ _ _ => .pure trivial

/-- A call of an extension ends with its arguments checked. -/
theorem proceeds_endExt (e : Extension) (count : Nat) (c : PendingCall) (i : Nat) :
    Proceeds w (endExt s e count c i y) fun _ => True := by
  have hrest : ∀ (y : Yard) (count : Nat), Proceeds w (do
      if !e.takes count then failAt s (.wrongParams e.name e.params.length) i
      if e.canWrite then modify Work.setWritable
      return emitCall y (.ext e) e.variadic count (s.line i) c.line) fun _ => True := by
    intro y count
    refine .ite (fun _ => .throw_bind nofun) fun _ => .ite (fun _ => ?_) fun _ => .pure trivial
    exact .bind (P := fun _ => True) (.modify (by simp) trivial) fun _ _ _ => .pure trivial
  by_cases hcontract : c.contract = true
  · by_cases hcount : count = 0
    · simp only [endExt, hcontract, hcount, if_true]
      exact hrest _ _
    · simp only [endExt, hcontract, hcount, if_true, if_false]
      exact hrest _ _
  · simp only [endExt, hcontract]
    exact hrest _ _

theorem proceeds_endCall (count : Nat) (c : PendingCall) (i : Nat) :
    Proceeds w (endCall s count c i y) fun _ => True := by
  unfold endCall
  split
  · exact proceeds_endFunc _ count c i
  · exact proceeds_endExt _ count c i
  · exact .pure trivial

/-- The parenthesis of a chained segment stands further on. -/
theorem proceeds_closeCall (count : Nat) (i : Nat) : Proceeds w (closeCall s count i y)
    fun r => ∀ n, r.2 = some n → i < n ∧ n < s.lexemes.size := by
  have hend : ∀ (count : Nat) (c : PendingCall) (w : Work) (y : Yard),
      Proceeds w (endCall s count c i y >>= fun y => pure (y, none))
        fun r : Yard × Option Nat => ∀ n, r.2 = some n → i < n ∧ n < s.lexemes.size :=
    fun count c w y => .bind (proceeds_endCall count c i) fun _ _ _ => .pure nofun
  unfold closeCall
  dsimp only
  split
  · refine .get ?_
    split
    · exact hend ..
    · split
      · rename_i hchain
        refine .ite (fun _ => .throw_bind nofun) fun _ => .pure fun n hn => ?_
        obtain rfl := Option.some.inj hn
        simp only [chainFollows, Bool.and_eq_true, beq_iff_eq] at hchain
        exact ⟨by omega, Source.lt_of_kind? hchain.2⟩
      · exact hend ..
  · exact .failAt nofun

/-! ### Expressions -/

/-- Whether reading goes on behind a position, but not behind the last lexeme. -/
def Further (s : Source) (i : Nat) (r : Yard × Nat) : Prop := i < r.2 ∧ r.2 ≤ s.lexemes.size

variable {i : Nat}

theorem Further.succ (hi : i < s.lexemes.size) (y : Yard) : Further s i (y, i + 1) :=
  ⟨Nat.lt_succ_self i, hi⟩

/-- Behind the bracket of an index the expression goes further. -/
theorem proceeds_closeIndex (hi : i < s.lexemes.size) :
    Proceeds w (closeIndex s y i) (Further s i) := by
  refine .ite (fun _ => .throw_bind nofun) fun _ => ?_
  dsimp only
  split
  · exact .failAt nofun
  · split
    · exact .failAt nofun
    · have heq := Source.lt_of_kind? ‹_›
      refine .ite (fun _ => .pure ?_) fun _ => .pure (.succ hi _)
      exact ⟨show i < i + 2 by omega, heq⟩
    · exact .pure (.succ hi _)

/-- So it does behind a parenthesis. -/
theorem proceeds_closeParen (hi : i < s.lexemes.size) :
    Proceeds w (closeParen s y i) (Further s i) := by
  refine .ite (fun _ => .throw_bind nofun) fun _ => ?_
  dsimp only
  split
  · exact .failAt nofun
  · split
    · refine .bind (proceeds_closeCall _ i) fun r _ hr => ?_
      obtain ⟨y', chained⟩ := r
      cases chained with
      | some n =>
        obtain ⟨hlt, hsize⟩ := hr n rfl
        exact .pure ⟨show i < n + 1 by omega, hsize⟩
      | none => exact .pure (.succ hi _)
    · exact .pure (.succ hi _)

theorem proceeds_comma (hi : i < s.lexemes.size) : Proceeds w (comma s y i) (Further s i) :=
  .ite (fun _ => .throw_bind nofun) fun _ => .pure (.succ hi _)

/-- So it does behind an operator. -/
theorem proceeds_operator (hi : i < s.lexemes.size) (o : Operator) :
    Proceeds w (operator s y o i) (Further s i) := by
  unfold operator
  dsimp only
  split
  · exact .ite (fun _ => .throw_bind nofun) fun _ => .pure (.succ hi _)
  · exact .ite (fun _ => .throw_bind nofun) fun _ => .pure (.succ hi _)
  · exact .failAt nofun

/-- So it does behind a name. -/
theorem proceeds_nameOperand (hi : i < s.lexemes.size) (t : Token) (name : String) :
    Proceeds w (nameOperand s y t name i) (Further s i) := by
  refine .ite (fun hcall => ?_) fun _ => ?_
  · have hlpar : i + 1 < s.lexemes.size := Source.lt_of_kind? (eq_of_beq hcall)
    have hnext : ∀ y : Yard, Further s i (y, i + 2) := fun _ => ⟨show i < i + 2 by omega, hlpar⟩
    split
    · exact .pure (hnext _)
    · exact .bind (proceeds_openCall name i) fun _ _ _ => .pure (hnext _)
  · split
    · exact .pure (.succ hi _)
    · refine .get ?_
      split
      · exact .pure (.succ hi _)
      · exact .pure (.succ hi _)
      · exact .throw_bind nofun

theorem proceeds_onward {x : Compiling (Yard × Nat)} (hx : Proceeds w x (Further s i)) :
    Proceeds w (x >>= fun r => pure (some r)) fun r => ∀ p, r = some p → Further s i p :=
  .bind hx fun _ _ h => .pure fun _ hp => Option.some.inj hp ▸ h

/-- **An expression takes lexemes one after the other**, or several at once. -/
theorem proceeds_take (blockFollows : Bool) {t : Token} (ht : s.token? i = some t) :
    Proceeds w (take s blockFollows y i t) fun r => ∀ p, r = some p → Further s i p := by
  have hi := Source.lt_of_token? ht
  have hnext : ∀ y : Yard, ∀ p, some (y, i + 1) = some p → Further s i p :=
    fun y p hp => Option.some.inj hp ▸ .succ hi y
  unfold take
  dsimp only
  split
  · -- a line end
    refine .pure ?_
    split
    · exact hnext y
    · exact nofun
  · -- a left brace
    refine .ite (fun _ => .pure nofun) fun _ => .get ?_
    have hread := mapLiteral_within (w := w) hi
    exact .bind (.lift (fun r hr => hread.moves r.1 r.2 hr) hread.fails)
      fun r _ hr => .pure fun _ hp => Option.some.inj hp ▸ hr
  · -- a right brace
    exact .pure nofun
  · -- a left bracket
    refine .ite (fun _ => .get ?_) fun _ => .pure (hnext _)
    have hread := arrayLiteral_within (w := w) hi
    exact .bind (.lift (fun r hr => hread.moves r.1 r.2 hr) hread.fails)
      fun r _ hr => .pure fun _ hp => Option.some.inj hp ▸ hr
  · -- a right bracket
    exact proceeds_onward (proceeds_closeIndex hi)
  · -- a left parenthesis
    exact .ite (fun _ => .pure (hnext _)) fun _ => .pure nofun
  · -- a right parenthesis
    exact proceeds_onward (proceeds_closeParen hi)
  · -- a comma
    exact proceeds_onward (proceeds_comma hi)
  · -- an operator
    exact proceeds_onward (proceeds_operator hi _)
  · -- a constant
    exact .ite (fun _ => .pure (hnext _)) fun _ => .pure nofun
  · -- a name
    exact .ite (fun _ => proceeds_onward (proceeds_nameOperand hi _ _)) fun _ => .pure nofun
  · -- a name of the host
    exact .ite (fun _ => proceeds_onward (proceeds_nameOperand hi _ _)) fun _ => .pure nofun
  · -- an argument to spread
    exact .ite (fun _ => .throw_bind nofun) fun _ => .pure (hnext _)
  · -- no token of an expression
    exact .pure nofun

/-- As many steps as there are lexemes are enough for an expression. -/
theorem proceeds_takeAll (blockFollows : Bool) (fuel : Nat) (hi : i ≤ s.lexemes.size)
    (hfuel : s.lexemes.size - i ≤ fuel) : Proceeds w (takeAll s blockFollows fuel y i)
      fun r => i ≤ r.2 ∧ r.2 ≤ s.lexemes.size := by
  induction fuel generalizing w y i with
  | zero =>
    unfold takeAll
    split
    · exact .pure ⟨Nat.le_refl i, hi⟩
    · have hlt := Source.lt_of_token? ‹_›
      omega
  | succ fuel ih =>
    unfold takeAll
    split
    · exact .pure ⟨Nat.le_refl i, hi⟩
    · refine .bind (proceeds_take blockFollows ‹_›) fun r w' hr => ?_
      cases r with
      | none => exact .pure ⟨Nat.le_refl i, hi⟩
      | some p =>
        obtain ⟨hlt, hle⟩ := hr p rfl
        exact (ih hle (by omega)).imp fun _ h => ⟨Nat.le_trans (Nat.le_of_lt hlt) h.1, h.2⟩

theorem finish_fault {e : Error} (h : finish s y i = .error e) : e.fault ≠ .outOfSteps := by
  unfold finish at h
  dsimp only at h
  split_ifs at h <;> cases h <;> exact nofun

theorem proceeds_addCode (stop : Nat) : Proceeds w (do
    let code ← finish s y stop
    modify fun w => w.modifyTop fun b => { b with code := b.code ++ code }
    return stop) fun n => n = stop := by
  refine .bind (P := fun _ => True) (.lift (fun _ _ => trivial) fun _ he => finish_fault he)
    fun code w' _ => ?_
  exact .bind (P := fun _ => True) (.modify rfl trivial) fun _ _ _ => .pure rfl

/-- **An expression ends within the lexemes.** -/
theorem proceeds_expression (blockFollows : Bool) (hi : i ≤ s.lexemes.size) :
    Proceeds w (expression s blockFollows i) fun stop => i ≤ stop ∧ stop ≤ s.lexemes.size :=
  .bind (proceeds_takeAll blockFollows _ hi (Nat.le_refl _)) fun r _ hr =>
    (proceeds_addCode r.2).imp fun _ h => h ▸ hr

/-- What starts with a name takes the name. -/
theorem proceeds_take_name (blockFollows : Bool) {t : Token} (ht : s.token? i = some t)
    (hname : t.kind = .ident ∨ t.kind = .extend) :
    Proceeds w (take s blockFollows {} i t) fun r => ∃ p, r = some p ∧ Further s i p := by
  have hi := Source.lt_of_token? ht
  have hoperand : ∀ name, Proceeds w (nameOperand s {} t name i >>= fun r => pure (some r))
      fun r => ∃ p, r = some p ∧ Further s i p :=
    fun name => .bind (proceeds_nameOperand hi t name) fun p _ hp => .pure ⟨p, rfl, hp⟩
  cases t with
  | ident name => exact hoperand name
  | extend name => exact hoperand name
  | const c => cases c <;> rcases hname with h | h <;> cases h
  | _ => rcases hname with h | h <;> cases h

/-- An expression that starts with a name ends behind it. -/
theorem proceeds_expression_name (blockFollows : Bool) (hname : s.kind? i = some .ident ∨
    s.kind? i = some .extend) : Proceeds w (expression s blockFollows i)
      fun stop => i < stop ∧ stop ≤ s.lexemes.size := by
  obtain ⟨t, ht, hkind⟩ : ∃ t, s.token? i = some t ∧ (t.kind = .ident ∨ t.kind = .extend) := by
    unfold Source.kind? at hname
    unfold Source.token?
    rcases hname with h | h <;> obtain ⟨l, hl, hl'⟩ := Option.map_eq_some_iff.1 h
    · exact ⟨l.token, by rw [hl]; rfl, .inl hl'⟩
    · exact ⟨l.token, by rw [hl]; rfl, .inr hl'⟩
  have hi := Source.lt_of_token? ht
  obtain ⟨fuel, hfuel⟩ : ∃ fuel, s.lexemes.size - i = fuel + 1 := ⟨s.lexemes.size - i - 1, by omega⟩
  unfold expression
  rw [hfuel]
  refine .bind (P := fun r => i < r.2 ∧ r.2 ≤ s.lexemes.size) ?_ fun r _ hr =>
    (proceeds_addCode r.2).imp fun _ h => h ▸ hr
  unfold takeAll
  rw [ht]
  refine .bind (proceeds_take_name blockFollows ht hkind) fun r w' hr => ?_
  obtain ⟨p, rfl, hlt, hle⟩ := hr
  exact (proceeds_takeAll blockFollows fuel hle (by omega)).imp fun _ h =>
    ⟨Nat.lt_of_lt_of_le hlt h.1, h.2⟩

end Covenant.Compile
