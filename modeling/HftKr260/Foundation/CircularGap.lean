import Mathlib.Data.Nat.ModEq

/-!
# Distances between counters that wrap

Of two counters that only grow, one at most `C - 1` behind the other, a reader sees the values
modulo `C`. If it takes the leading one first and the trailing one later, the distance it finds
on the ring is off by all that has moved in between: what the leading counter has gained since
the first read, and what the trailing one gains until the second.

## Main results

* `gap_add_drift` — how far the distance found is off
* `gap_near_iff` — when it is the distance at a moment between the reads, up to one
-/

set_option autoImplicit false

namespace Foundation

/-- The distance from `q` up to `p` on a ring of `C` places. -/
def gap (C p q : ℕ) : ℕ := (p + (C - q % C)) % C

section

variable {C : ℕ} {p q : ℕ}

theorem gap_lt (hC : 0 < C) : gap C p q < C := Nat.mod_lt _ hC

theorem gap_add_modEq (hC : 0 < C) : gap C p q + q ≡ p [MOD C] := by
  have hq : q % C + (C - q % C) = C := Nat.add_sub_cancel' (Nat.mod_lt q hC).le
  calc gap C p q + q
      ≡ p + (C - q % C) + q % C [MOD C] :=
        (Nat.mod_modEq _ C).add (Nat.mod_modEq q C).symm
    _ = p + C := by rw [Nat.add_assoc, Nat.add_comm (C - q % C), hq]
    _ ≡ p [MOD C] := Nat.add_modEq_right

/-- There is one such distance. -/
theorem gap_unique {n : ℕ} (hn : n < C) (h : n + q ≡ p [MOD C]) : gap C p q = n := by
  have hC : 0 < C := Nat.zero_lt_of_lt hn
  have hsame : gap C p q ≡ n [MOD C] :=
    Nat.ModEq.add_right_cancel' q ((gap_add_modEq hC).trans h.symm)
  exact hsame.eq_of_lt_of_lt (gap_lt hC) hn

/-- What moves between the reads of `p₀` and `q₁` is missing from the distance found, at any
moment between them. -/
theorem gap_add_drift {p₀ q₁ : ℕ} (hC : 0 < C) (hqp : q ≤ p) (hp : p₀ ≤ p) (hq : q ≤ q₁) :
    gap C p₀ q₁ + ((p - p₀) + (q₁ - q)) ≡ p - q [MOD C] := by
  refine Nat.ModEq.add_right_cancel' (p₀ + q) ?_
  have hmoved : gap C p₀ q₁ + ((p - p₀) + (q₁ - q)) + (p₀ + q) = gap C p₀ q₁ + q₁ + p := by omega
  have hthere : p - q + (p₀ + q) = p₀ + p := by omega
  rw [hmoved, hthere]
  exact (gap_add_modEq hC).add_right p

/-- Of two places on the ring, `d` steps apart, when the numbers are at most one apart. -/
theorem near_iff {v n d : ℕ} (hv : v < C) (hn : n < C) (h : v + d ≡ n [MOD C]) :
    v ≤ n + 1 ∧ n ≤ v + 1 ↔
      d % C = 0 ∨ (d % C = 1 ∧ 0 < n) ∨ (d % C + 1 = C ∧ n + 1 < C) := by
  have hr : d % C < C := Nat.mod_lt _ (Nat.zero_lt_of_lt hv)
  have hsum : (v + d % C) % C = n := by
    rw [Nat.add_mod_mod]
    exact Nat.mod_eq_of_modEq h hn
  rcases Nat.lt_or_ge (v + d % C) C with hlt | hge
  · rw [Nat.mod_eq_of_lt hlt] at hsum
    omega
  · -- the steps go once round the end of the ring
    rw [Nat.mod_eq_sub_mod hge, Nat.mod_eq_of_lt (by omega)] at hsum
    omega

/-- The distance found is within one of the distance at a moment, exactly if what has moved is a
multiple of `C`, or one more and the distance is not zero, or one less and it is not the
greatest. -/
theorem gap_near_iff {p₀ q₁ : ℕ} (hqp : q ≤ p) (hpq : p < q + C) (hp : p₀ ≤ p) (hq : q ≤ q₁) :
    gap C p₀ q₁ ≤ p - q + 1 ∧ p - q ≤ gap C p₀ q₁ + 1 ↔
      ((p - p₀) + (q₁ - q)) % C = 0 ∨ (((p - p₀) + (q₁ - q)) % C = 1 ∧ 0 < p - q) ∨
        (((p - p₀) + (q₁ - q)) % C + 1 = C ∧ p - q + 1 < C) := by
  have hC : 0 < C := by omega
  exact near_iff (gap_lt hC) (by omega) (gap_add_drift hC hqp hp hq)

end

end Foundation
