import Covenant.Arithmetic
import Covenant.Proofs.Heap.Content

/-!
# Comparing values

The comparisons of two operands agree with each other. If the operands have a common kind, they are
brought to it and ordered (`Arithmetic.order`), which fails the same way for all comparisons and in
both directions, because at most one of the two has to be read from a text; otherwise they can only
be equal or not. The main statement is `Arithmetic.comparison_laws`. Doubles are left out: one that
is not a number is unequal to itself.
-/

namespace Covenant

/-- The opposite of a truth value. -/
def Value.negated : Value → Value
  | .bool b => .bool !b
  | v => v

namespace Arithmetic

variable {h : Heap} {a b : Value} {op : BinaryOp} {o : Ordering}

/-! ### Answers to comparisons -/

/-- Whether an operator compares its operands. -/
def compares (op : BinaryOp) : Bool := (holds? op .eq).isSome

theorem compareWith_equal_swap (o : Ordering) :
    compareWith .equal o.swap = compareWith .equal o := by
  cases o <;> rfl

theorem compareWith_great_swap (o : Ordering) :
    compareWith .great o.swap = compareWith .less o := by
  cases o <;> rfl

theorem compareWith_notGreat_swap (o : Ordering) :
    compareWith .notGreat o.swap = compareWith .notLess o := by
  cases o <;> rfl

theorem strings_of_compares (hop : compares op = true) (x y : String) :
    strings op x y = compareWith op (compare x y) := by
  cases op <;> first | rfl | exact absurd hop (by decide)

theorem ints_of_compares (hop : compares op = true) (x y : Int64) :
    ints op x y = compareWith op (compare x.toInt y.toInt) := by
  cases op <;> first | rfl | exact absurd hop (by decide)

theorem moneys_of_compares (hop : compares op = true) (x y : Money) :
    moneys op x y = compareWith op (x.compare y) := by
  cases op <;> first | rfl | exact absurd hop (by decide)

/-! ### Operands of a common kind -/

/-- The order of two operands that have a common kind, unless one of them cannot be read as one of
it. Doubles have none here. -/
def order (h : Heap) (a b : Value) : Except Fault Ordering :=
  match common? a b with
  | some .string => .ok (compare (a.text h) (b.text h))
  | some .int => do return compare (← a.toInt h).toInt (← b.toInt h).toInt
  | some .money => do return (← a.toMoney).compare (← b.toMoney)
  | _ => .error .unsupportedType

/-- The common kind of two values does not depend on their order. -/
theorem common?_comm (a b : Value) : common? b a = common? a b := by
  unfold common?
  cases width? a with
  | none => cases width? b <;> rfl
  | some m =>
    cases width? b with
    | none => rfl
    | some n => simp only [Nat.max_comm]

/-- Only a double brings operands to doubles. -/
theorem common?_ne_float (ha : ∀ x, a ≠ .float x) (hb : ∀ x, b ≠ .float x) :
    common? a b ≠ some .float := by
  cases a <;> cases b <;> first | exact absurd rfl (ha _) | exact absurd rfl (hb _) | nofun

/-- Operands that meet as integers are not both texts. -/
theorem int_of_common? (h : Heap) (hkind : common? a b = some .int) :
    (∃ n, a.toInt h = .ok n) ∨ ∃ n, b.toInt h = .ok n := by
  cases a <;> cases b <;> first | exact .inl ⟨_, rfl⟩ | exact .inr ⟨_, rfl⟩ | cases hkind

/-- Operands that meet as amounts are not both texts. -/
theorem money_of_common? (hkind : common? a b = some .money) :
    (∃ m, a.toMoney = .ok m) ∨ ∃ m, b.toMoney = .ok m := by
  cases a <;> cases b <;> first | exact .inl ⟨_, rfl⟩ | exact .inr ⟨_, rfl⟩ | cases hkind

/-- What a comparison does with operands of each kind. -/
theorem binary_of_compares (hop : compares op = true) : binary h op a b =
    match common? a b with
    | none => others h op a b
    | some .string => strings op (a.text h) (b.text h)
    | some .int => (do ints op (← a.toInt h) (← b.toInt h))
    | some .float => floats op a.toFloat b.toFloat
    | some .money => (do moneys op (← a.toMoney) (← b.toMoney)) := by
  cases op <;> first | rfl | exact absurd hop (by decide)

/-- **A comparison of operands of a common kind is an answer to their order.** -/
theorem binary_of_order (ha : ∀ x, a ≠ .float x) (hb : ∀ x, b ≠ .float x)
    (hcommon : common? a b ≠ none) (hop : compares op = true) :
    binary h op a b = order h a b >>= compareWith op := by
  rw [binary_of_compares hop, order]
  cases hkind : common? a b with
  | none => exact absurd hkind hcommon
  | some kind =>
    cases kind with
    | float => exact absurd hkind (common?_ne_float ha hb)
    | string => exact strings_of_compares hop ..
    | int =>
      simp only [ints_of_compares hop]
      cases a.toInt h <;> cases b.toInt h <;> rfl
    | money =>
      simp only [moneys_of_compares hop]
      cases a.toMoney <;> cases b.toMoney <;> rfl

/-- Operands without a common kind are equal or not, and have no order. -/
theorem binary_of_common?_eq_none (hcommon : common? a b = none) (hop : compares op = true) :
    binary h op a b = others h op a b := by
  rw [binary_of_compares hop, hcommon]

/-- Two readings of which one succeeds fail alike in both orders. -/
theorem compare_readings {α : Type} {x y : Except Fault α} (f : α → α → Ordering)
    (hf : ∀ u v, f v u = (f u v).swap) (hok : (∃ u, x = .ok u) ∨ ∃ v, y = .ok v) :
    (do return f (← y) (← x)) = (do return f (← x) (← y) : Except Fault Ordering).map
    Ordering.swap := by
  cases x with
  | ok u =>
    cases y with
    | ok v => exact congrArg Except.ok (hf u v)
    | error e => rfl
  | error e =>
    cases y with
    | ok v => rfl
    | error e' =>
      rcases hok with ⟨u, hu⟩ | ⟨v, hv⟩
      · cases hu
      · cases hv

/-- **The order of the operands the other way round** is the opposite one, and it fails for the same
reason: of the two, one has the common kind already. -/
theorem order_swap (h : Heap) (a b : Value) : order h b a = (order h a b).map Ordering.swap := by
  rw [order, order, common?_comm]
  cases hkind : common? a b with
  | none => rfl
  | some kind =>
    cases kind with
    | float => rfl
    | string => exact congrArg Except.ok Std.OrientedCmp.eq_swap
    | int =>
      exact compare_readings (fun x y : Int64 => compare x.toInt y.toInt)
        (fun _ _ => Std.OrientedCmp.eq_swap) (int_of_common? h hkind)
    | money => exact compare_readings Money.compare Money.compare_swap (money_of_common? hkind)

/-! ### Laws -/

/-- Two comparisons that answer to opposite orders, and agree on operands without one, agree on
swapped operands. -/
theorem binary_swap {op' : BinaryOp} (ha : ∀ x, a ≠ .float x) (hb : ∀ x, b ≠ .float x)
    (hop : compares op = true) (hop' : compares op' = true)
    (hwith : ∀ o, compareWith op' o.swap = compareWith op o)
    (hothers : others h op' b a = others h op a b) :
    binary h op' b a = binary h op a b := by
  by_cases hcommon : common? a b = none
  · rw [binary_of_common?_eq_none hcommon hop,
      binary_of_common?_eq_none ((common?_comm a b).trans hcommon) hop', hothers]
  · rw [binary_of_order ha hb hcommon hop, binary_of_order hb ha (by rwa [common?_comm]) hop',
      order_swap]
    cases order h a b with
    | error f => rfl
    | ok o => exact hwith o

/-- A comparison with the opposite answers to all orders is the opposite one. -/
theorem binary_negated {op' : BinaryOp} (ha : ∀ x, a ≠ .float x) (hb : ∀ x, b ≠ .float x)
    (hop : compares op = true) (hop' : compares op' = true)
    (hwith : ∀ o, compareWith op' o = (compareWith op o).map Value.negated)
    (hothers : others h op' a b = (others h op a b).map Value.negated) :
    binary h op' a b = (binary h op a b).map Value.negated := by
  by_cases hcommon : common? a b = none
  · rw [binary_of_common?_eq_none hcommon hop, binary_of_common?_eq_none hcommon hop', hothers]
  · rw [binary_of_order ha hb hcommon hop, binary_of_order ha hb hcommon hop']
    cases order h a b with
    | error f => rfl
    | ok o => exact hwith o

/-- The operators that ask for an order. -/
def orderings : List BinaryOp := [.less, .notLess, .great, .notGreat]

/-- Where one of the operators that ask for an order has an answer, the operands have an order, and
all comparisons are answers to it. -/
theorem order_of_binary (ha : ∀ x, a ≠ .float x) (hb : ∀ x, b ≠ .float x)
    (hop : op ∈ orderings) {v : Value} (hv : binary h op a b = .ok v) :
    ∃ o, ∀ op', compares op' = true → binary h op' a b = compareWith op' o := by
  have hcompares : compares op = true ∧ others h op a b = .error .unsupportedType := by
    cases op <;> first | exact ⟨rfl, rfl⟩ | exact absurd hop (by decide)
  by_cases hcommon : common? a b = none
  · rw [binary_of_common?_eq_none hcommon hcompares.1, hcompares.2] at hv
    cases hv
  · rw [binary_of_order ha hb hcommon hcompares.1] at hv
    cases ho : order h a b with
    | error f =>
      rw [ho] at hv
      cases hv
    | ok o =>
      refine ⟨o, fun op' hop' => ?_⟩
      rw [binary_of_order ha hb hcommon hop', ho]
      rfl

/-- **Comparison laws.** On values that do not hold themselves and have no doubles inside, equality
is an equivalence, and looks at contents only, in which maps are not ordered. The comparisons of two
such values agree with each other, also in how they fail: equality is symmetric, `notEq` is its
opposite, and `less` and `notLess` are `great` and `notGreat` of the swapped operands. Where the
operands can be ordered at all, they are less, equal or greater, just one of the three, and
`notLess` and `notGreat` are the opposites. -/
theorem comparison_laws (h : Heap) :
    Equivalence (fun a b : {v : Value // v.Comparable h} => a.1.eq h b.1 = true) ∧
      ∀ a b : Value, a.Comparable h → b.Comparable h →
        (a.eq h b = true ↔ a.content h = b.content h) ∧
        binary h .equal a b = binary h .equal b a ∧
        binary h .notEq a b = (binary h .equal a b).map Value.negated ∧
        binary h .less a b = binary h .great b a ∧
        binary h .notLess a b = binary h .notGreat b a ∧
        ∀ op ∈ orderings, ∀ v, binary h op a b = .ok v →
          (∃ o : Ordering, binary h .less a b = .ok (.bool (o == .lt)) ∧
            binary h .equal a b = .ok (.bool (o == .eq)) ∧
            binary h .great a b = .ok (.bool (o == .gt))) ∧
          binary h .notLess a b = (binary h .less a b).map Value.negated ∧
          binary h .notGreat a b = (binary h .great a b).map Value.negated := by
  have hsymm : ∀ a b : Value, a.Comparable h → b.Comparable h → a.eq h b = b.eq h a :=
    fun a b ha hb => by
    rw [Bool.eq_iff_iff, ha.eq_iff hb, hb.eq_iff ha]
    exact eq_comm
  refine ⟨⟨fun a => ?_, fun {a b} hab => ?_, fun {a b c} hab hbc => ?_⟩, fun a b ha hb => ?_⟩
  · exact (a.2.eq_iff a.2).2 rfl
  · rwa [hsymm b.1 a.1 b.2 a.2]
  · exact (a.2.eq_iff c.2).2 (((a.2.eq_iff b.2).1 hab).trans ((b.2.eq_iff c.2).1 hbc))
  -- without doubles the operands are ordered alike in both directions, so each law is one of
  -- `binary_swap` and `binary_negated` at the comparisons in question
  have hfa := ha.floatFree.ne
  have hfb := hb.floatFree.ne
  refine ⟨ha.eq_iff hb, ?_, ?_, ?_, ?_, fun op hop v hv => ⟨?_, ?_, ?_⟩⟩
  · exact binary_swap hfb hfa rfl rfl compareWith_equal_swap
      (by rw [others, others, hsymm a b ha hb])
  · exact binary_negated hfa hfb rfl rfl (fun o => by cases o <;> rfl) rfl
  · exact (binary_swap hfa hfb rfl rfl compareWith_great_swap rfl).symm
  · exact (binary_swap hfa hfb rfl rfl compareWith_notGreat_swap rfl).symm
  · obtain ⟨o, ho⟩ := order_of_binary hfa hfb hop hv
    exact ⟨o, ho .less rfl, ho .equal rfl, ho .great rfl⟩
  · exact binary_negated hfa hfb rfl rfl (fun o => by cases o <;> rfl) rfl
  · exact binary_negated hfa hfb rfl rfl (fun o => by cases o <;> rfl) rfl

/-! ### Maps that were filled in different orders -/

/-- Two arrays with a map each. The maps bind the same names, one of them to an amount with one
decimal place and with two, in opposite orders. -/
def filledTwice : Heap :=
  ⟨#[.map (.ofList [("price", .money ⟨false, 15, 1, by decide, by decide⟩), ("count", .int 2)]),
    .map (.ofList [("count", .int 2), ("price", .money ⟨false, 150, 2, by decide, by decide⟩)]),
    .array #[.map 0], .array #[.map 1]]⟩

/-- The two arrays are equal and have no order, and a number has one with a text that can be
read. -/
theorem comparison_laws_filledTwice :
    (Value.array 2).Comparable filledTwice ∧ (Value.array 3).Comparable filledTwice ∧
      (Value.int 2).Comparable filledTwice ∧ (Value.str "10").Comparable filledTwice ∧
      (Value.array 2).content filledTwice = (Value.array 3).content filledTwice ∧
      binary filledTwice .equal (.array 3) (.array 2) = .ok (.bool true) ∧
      binary filledTwice .less (.array 2) (.array 3) = .error .unsupportedType ∧
      binary filledTwice .less (.int 2) (.str "10") = .ok (.bool true) ∧
      binary filledTwice .great (.str "10") (.int 2) = .ok (.bool true) ∧
      binary filledTwice .notLess (.int 2) (.str "10") = .ok (.bool false) := by
  obtain ⟨hfloatless, hground₂, hground₃, hequal⟩ : filledTwice.floatless = true ∧
      (Value.array 2).Grounded filledTwice ∧ (Value.array 3).Grounded filledTwice ∧
      (Value.array 2).eq filledTwice (.array 3) = true := by
    decide +kernel
  have h₂ : (Value.array 2).Comparable filledTwice := ⟨hground₂, .of_floatless hfloatless rfl⟩
  have h₃ : (Value.array 3).Comparable filledTwice := ⟨hground₃, .of_floatless hfloatless rfl⟩
  have hint : (Value.int 2).Comparable filledTwice :=
    ⟨.of_ref?_eq_none rfl, .of_floatless hfloatless rfl⟩
  have hstr : (Value.str "10").Comparable filledTwice :=
    ⟨.of_ref?_eq_none rfl, .of_floatless hfloatless rfl⟩
  -- Two arrays that differ as references and agree in content, and a number beside a text.
  obtain ⟨hcontent, hsymm, -⟩ := (comparison_laws filledTwice).2 _ _ h₂ h₃
  obtain ⟨-, -, -, hswap, -, hordered⟩ := (comparison_laws filledTwice).2 _ _ hint hstr
  have hless : binary filledTwice .less (.int 2) (.str "10") = .ok (.bool true) := by rfl
  refine ⟨h₂, h₃, hint, hstr, hcontent.1 hequal, ?_, rfl, hless, hswap ▸ hless, ?_⟩
  · rw [← hsymm]
    exact congrArg (Except.ok ∘ Value.bool) hequal
  · rw [(hordered .less (by decide) _ hless).2.1, hless]
    rfl

end Arithmetic

end Covenant
