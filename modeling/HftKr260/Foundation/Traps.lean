import Mathlib.Data.Int.Order.Basic
import Mathlib.Algebra.Order.Ring.Int
import Mathlib.Tactic.Linarith

/-!
# Executions that trap

A step that may trap is run beside one that never does. If the two agree wherever an
invariant holds, and the invariant of `n` steps leads to that of `n + 1`, then a run of at
most `N` steps traps nowhere and ends where the other one ends.

`fitting w` is the arithmetic such steps are made of: a value of a signed type of `w` bits, or
a trap.
-/

set_option autoImplicit false

namespace Foundation

/-- The value of a signed type of `w` bits, nothing outside its range. -/
def fitting (w : ℕ) (x : ℤ) : Option ℤ :=
  if -2 ^ (w - 1) ≤ x ∧ x < 2 ^ (w - 1) then some x else none

theorem fitting_of_fits {w : ℕ} {x : ℤ} (hlo : -2 ^ (w - 1) ≤ x) (hhi : x < 2 ^ (w - 1)) :
    fitting w x = some x := if_pos ⟨hlo, hhi⟩

section Runs

variable {σ α : Type*} {step : σ → α → Option σ} {total : σ → α → σ} {P : ℕ → σ → Prop} {N : ℕ}

/-- A run that starts after `n` steps. -/
theorem foldlM_from (hstep : ∀ n s a, n < N → P n s →
      step s a = some (total s a) ∧ P (n + 1) (total s a))
    (as : List α) {n : ℕ} {s : σ} (hn : n + as.length ≤ N) (hs : P n s) :
    as.foldlM step s = some (as.foldl total s) := by
  induction as generalizing n s with
  | nil => rfl
  | cons a as ih =>
    rw [List.length_cons] at hn
    obtain ⟨hsome, hnext⟩ := hstep n s a (by omega) hs
    rw [List.foldlM_cons, hsome, List.foldl_cons]
    exact ih (by omega) hnext

/-- A run of at most `N` steps does not trap. -/
theorem foldlM_eq_foldl (hstep : ∀ n s a, n < N → P n s →
      step s a = some (total s a) ∧ P (n + 1) (total s a))
    {as : List α} {s : σ} (hn : as.length ≤ N) (hs : P 0 s) :
    as.foldlM step s = some (as.foldl total s) :=
  foldlM_from hstep as (by omega) hs

end Runs

end Foundation
