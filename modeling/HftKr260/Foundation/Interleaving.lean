import Mathlib.Data.List.Induction

/-!
# Interleaved steps

Parties that share a state and take atomic steps in any order: an action is one step of one
party, and a step may announce events. `run` is the state after a list of actions together
with all events announced on the way, oldest first.

A statement about every interleaving is a statement about every list of actions, and
`run_invariant` proves it from what one step does to the state and to the events so far.
-/

set_option autoImplicit false

namespace Foundation

namespace Interleaving

variable {σ α ε β : Type*}

/-- The state after some actions, and the events they announced. -/
def run (step : σ → α → σ × List ε) (s₀ : σ) (actions : List α) : σ × List ε :=
  actions.foldl (fun r a => ((step r.1 a).1, r.2 ++ (step r.1 a).2)) (s₀, [])

variable {step : σ → α → σ × List ε} {s₀ : σ}

@[simp] theorem run_nil : run step s₀ [] = (s₀, []) := rfl

theorem run_concat (actions : List α) (a : α) :
    run step s₀ (actions ++ [a]) =
      ((step (run step s₀ actions).1 a).1,
        (run step s₀ actions).2 ++ (step (run step s₀ actions).1 a).2) := by
  rw [run, List.foldl_append]
  rfl

/-- What holds at the start and survives every step holds after every interleaving. -/
theorem run_invariant {P : σ → List ε → Prop} (h₀ : P s₀ [])
    (hstep : ∀ s es a, P s es → P (step s a).1 (es ++ (step s a).2)) (actions : List α) :
    P (run step s₀ actions).1 (run step s₀ actions).2 := by
  induction actions using List.reverseRecOn with
  | nil => exact h₀
  | append_singleton actions a ih =>
    rw [run_concat]
    exact hstep _ _ a ih

end Interleaving

end Foundation
