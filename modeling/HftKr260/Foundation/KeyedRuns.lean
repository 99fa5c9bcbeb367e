import Mathlib.Data.List.Basic

/-!
# Runs over keyed states

A state that holds something under each key, and events that concern one key each. Of what is
held under a key, a run makes what the events of that key make of it alone: the keys are machines
of their own.

## Main results

* `Local.foldl` — the projection of a run to a key
-/

set_option autoImplicit false

namespace Foundation

namespace KeyedRuns

variable {κ σ ε ν : Type*}

/-- The events of one key. -/
def eventsOf [DecidableEq κ] (key : ε → κ) (k : κ) (es : List ε) : List ε :=
  es.filter fun e => key e = k

section Events

variable [DecidableEq κ] {key : ε → κ} {k : κ} {e : ε} {es : List ε}

theorem eventsOf_cons_self (h : key e = k) : eventsOf key k (e :: es) = e :: eventsOf key k es :=
  List.filter_cons_of_pos (decide_eq_true h)

theorem eventsOf_cons_other (h : key e ≠ k) : eventsOf key k (e :: es) = eventsOf key k es :=
  List.filter_cons_of_neg (by rwa [decide_eq_true_iff])

end Events

/-- What a step makes of the states in `P`: it stays there, changes what is held under the key of
its event as `own` says, and nothing else. -/
structure Local (P : σ → Prop) (held : σ → κ → ν) (key : ε → κ) (step : σ → ε → σ)
    (own : ν → ε → ν) : Prop where
  keeps : ∀ s e, P s → P (step s e)
  self : ∀ s e, P s → held (step s e) (key e) = own (held s (key e)) e
  other : ∀ s e k, P s → key e ≠ k → held (step s e) k = held s k

variable {P : σ → Prop} {held : σ → κ → ν} {key : ε → κ} {step : σ → ε → σ} {own : ν → ε → ν}

/-- **The projection of a run to a key.** -/
theorem Local.foldl [DecidableEq κ] (h : Local P held key step own) {s : σ} (hs : P s)
    (es : List ε) (k : κ) :
    held (es.foldl step s) k = (eventsOf key k es).foldl own (held s k) := by
  induction es generalizing s with
  | nil => rfl
  | cons e es ih =>
    rw [List.foldl_cons, ih (h.keeps s e hs)]
    by_cases hk : key e = k
    · -- an event of the key is a step of its own machine, any other leaves it alone
      subst hk
      rw [eventsOf_cons_self rfl, List.foldl_cons, h.self s e hs]
    · rw [eventsOf_cons_other hk, h.other s e k hs hk]

end KeyedRuns

end Foundation
