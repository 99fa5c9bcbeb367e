import HftKr260.Foundation.Clocked
import HftKr260.Foundation.Synchroniser

/-!
# Clock domains

Several clocked machines share one sequence of edges, each of which belongs to one of them. A
machine stays as it is at the edges of the others. Counted in its own edges it is a synchronous
machine: `Moves.eq_run`.
-/

set_option autoImplicit false

namespace Foundation

namespace Clocked

open Synchroniser

variable {σ ι : Type*} {own : ℕ → Bool} {step : σ → ι → σ} {data : ℕ → ι} {s : ℕ → σ}

/-- A machine that moves at its own edges only. -/
def Moves (own : ℕ → Bool) (step : σ → ι → σ) (data : ℕ → ι) (s : ℕ → σ) : Prop :=
  ∀ n, s (n + 1) = if own n then step (s n) (data n) else s n

/-- With its edges numbered by `data'`, it is a run. -/
theorem Moves.eq_run (h : Moves own step data s) {data' : ℕ → ι}
    (hdata : ∀ n, own n = true → data' (edgesBefore own n) = data n) (n : ℕ) :
    s n = run step (s 0) data' (edgesBefore own n) := by
  induction n with
  | zero => rfl
  | succ n ih =>
    rw [h n]
    cases hown : own n with
    | false => rw [edgesBefore_succ_of_other hown, if_neg Bool.false_ne_true, ih]
    | true =>
      rw [edgesBefore_succ_of_edge hown, if_pos rfl, ih, ← hdata n hown]
      rfl

end Clocked

end Foundation
