import Covenant.Money.Basic
import Mathlib.Algebra.Order.Field.Rat
import Mathlib.Data.Rat.Cast.Order
import Mathlib.Order.Compare
import Mathlib.Tactic.FieldSimp
import Mathlib.Tactic.Positivity

/-!
# Amounts as numbers

An amount is the number `± coeff / 10 ^ scale` (`Money.number`), and amounts are ordered as these
numbers, whatever their scales and also where a zero carries a sign (`Money.compare_eq`).
-/

namespace Covenant.Money

variable {a b m : Money}

/-- The number that an amount is. -/
def number (m : Money) : ℚ := m.signed / 10 ^ m.scale

/-- The coefficient at a larger scale is the number with the point moved. -/
theorem number_mul_pow {scale : Nat} (h : m.scale ≤ scale) :
    m.number * 10 ^ scale = m.signedAt scale := by
  obtain ⟨d, rfl⟩ := Nat.exists_eq_add_of_le h
  have hpow : ((Number.pow10 d : ℕ) : ℚ) = 10 ^ d := by
    rw [Number.pow10, Nat.pow_eq]
    exact Nat.cast_pow 10 d
  rw [number, signedAt, Nat.add_sub_cancel_left, Int.cast_mul, Int.cast_natCast, hpow, pow_add]
  field_simp

/-- **Amounts are ordered as numbers.** -/
theorem compare_eq (a b : Money) : a.compare b = cmp a.number b.number := by
  have hpos : (0 : ℚ) < 10 ^ max a.scale b.scale := by positivity
  calc
    a.compare b = cmp (a.signedAt (max a.scale b.scale)) (b.signedAt (max a.scale b.scale)) :=
      (cmp_eq_compare ..).symm
    _ = cmp (a.signedAt (max a.scale b.scale) : ℚ) (b.signedAt (max a.scale b.scale)) :=
      (StrictMono.cmp_map_eq Int.cast_strictMono ..).symm
    _ = cmp (a.number * 10 ^ max a.scale b.scale) (b.number * 10 ^ max a.scale b.scale) := by
      rw [number_mul_pow (Nat.le_max_left ..), number_mul_pow (Nat.le_max_right ..)]
    _ = cmp a.number b.number := cmp_mul_pos_right hpos ..

theorem compare_beq_eq : (a.compare b == .eq) = true ↔ a.number = b.number := by
  rw [compare_eq, beq_iff_eq, cmp_eq_eq_iff]

theorem compare_swap (a b : Money) : b.compare a = (a.compare b).swap := by
  rw [compare_eq, compare_eq, cmp_swap]

end Covenant.Money
