import Mathlib.Tactic.Ring
import Mathlib.Algebra.Order.Group.Nat

/-!
# Saturating arithmetic on 64-bit naturals

The values are natural numbers; only the operations know the width.

* `U64.max`: the largest 64-bit value;
* `U64.satAdd`, `U64.satMul`, `U64.divCeil`.
-/

namespace U64

/-- The largest value, `2 ^ 64 - 1`. -/
def max : ℕ := 2 ^ 64 - 1

/-- Addition that stops at `max`. -/
def satAdd (a b : ℕ) : ℕ := min (a + b) max

/-- Multiplication that stops at `max`. -/
def satMul (a b : ℕ) : ℕ := min (a * b) max

/-- Division rounding up. -/
def divCeil (a b : ℕ) : ℕ := (a + b - 1) / b

theorem satAdd_le (a b : ℕ) : satAdd a b ≤ a + b := min_le_left _ _

theorem satAdd_of_le {a b : ℕ} (h : a + b ≤ max) : satAdd a b = a + b := min_eq_left h

/-- A chain of saturating additions saturates only at the end. -/
theorem satAdd_satAdd (a b c : ℕ) : satAdd (satAdd a b) c = min (a + b + c) max := by
  unfold satAdd
  omega

theorem satMul_le_max (a b : ℕ) : satMul a b ≤ max := min_le_right _ _

theorem le_mul_divCeil (a : ℕ) {b : ℕ} (hb : 0 < b) : a ≤ b * divCeil a b := by
  have h := Nat.div_add_mod (a + b - 1) b
  have hlt := Nat.mod_lt (a + b - 1) hb
  unfold divCeil
  omega

end U64
