import Mathlib.Algebra.Order.Field.Rat
import Mathlib.Algebra.Order.Ring.Cast
import Mathlib.Order.Monotone.Basic

/-!
# Rounding to doubles

A computation with doubles rounds the exact result of each operation. As long as the results stay
finite, a rounding is a function on the rationals that is monotone and leaves small integers
alone; nothing here depends on the rounding mode.
-/

set_option autoImplicit false

namespace Foundation

/-- Rounding to a double is monotone, and leaves integers of 53 bits alone. -/
structure Rounding (round : ℚ → ℚ) : Prop where
  monotone : Monotone round
  exact : ∀ n : ℕ, n ≤ 2 ^ 53 → round n = n

/-- The same on both sides of zero. -/
structure SignedRounding (round : ℚ → ℚ) : Prop extends Rounding round where
  exact_neg : ∀ n : ℕ, n ≤ 2 ^ 53 → round (-n) = -n

variable {round : ℚ → ℚ}

/-- What is not negative is not rounded below zero. -/
theorem Rounding.nonneg (h : Rounding round) {x : ℚ} (hx : 0 ≤ x) : 0 ≤ round x := by
  have hzero : round 0 = 0 := by simpa using h.exact 0 (Nat.zero_le _)
  rw [← hzero]
  exact h.monotone hx

theorem SignedRounding.exact_int (h : SignedRounding round) {z : ℤ} (hz : z.natAbs ≤ 2 ^ 53) :
    round z = z := by
  obtain ⟨n, rfl | rfl⟩ := z.eq_nat_or_neg
  · have hn : n ≤ 2 ^ 53 := by rwa [Int.natAbs_natCast] at hz
    exact_mod_cast h.exact n hn
  · have hn : n ≤ 2 ^ 53 := by rwa [Int.natAbs_neg, Int.natAbs_natCast] at hz
    exact_mod_cast h.exact_neg n hn

theorem signedRounding_id : SignedRounding id where
  monotone := monotone_id
  exact := fun _ _ => rfl
  exact_neg := fun _ _ => rfl

end Foundation
