import Mathlib.Data.List.Induction

/-!
# Asynchronous resets

A clocked machine with a reset pin. A falling pin clears the machine at once, and so does a clock
edge that finds it low; an edge that finds it high is a step. What is not cleared takes its step
at every edge.

From the first clearing on the machine is, whatever the pin does, either cleared or a run from a
cleared state on the edges since the last rise of the pin.

## Main results

* `obeys_after` — what the machine does, by what its pin has done
* `lastTaken_foldl` — registers that some events write, such as those that are not cleared
-/

set_option autoImplicit false

namespace Foundation

namespace AsyncReset

variable {σ ι κ : Type*}

/-- The pin takes a level, or a clock edge comes with its inputs. -/
inductive Event (ι : Type*)
  | pin (level : Bool)
  | edge (input : ι)

/-- A machine and its reset pin. -/
structure Pinned (σ : Type*) where
  pin : Bool
  core : σ

namespace Pinned

variable (clear : σ → σ) (step : σ → ι → σ)

def next (s : Pinned σ) : Event ι → Pinned σ
  | .pin level =>
      if s.pin && !level then { pin := level, core := clear s.core } else { s with pin := level }
  | .edge i => { s with core := if s.pin then step s.core i else clear (step s.core i) }

def after (s : Pinned σ) (events : List (Event ι)) : Pinned σ := events.foldl (next clear step) s

theorem after_concat (s : Pinned σ) (events : List (Event ι)) (e : Event ι) :
    s.after clear step (events ++ [e]) = (s.after clear step events).next clear step e :=
  List.foldl_append

end Pinned

/-- Where a run stands. -/
inductive Phase (ι : Type*)
  /-- nothing has been cleared yet -/
  | unknown (level : Bool)
  /-- the pin is low -/
  | held
  /-- the pin is high, and since its rise these edges have come -/
  | released (edges : List ι)

namespace Phase

def next : Phase ι → Event ι → Phase ι
  | unknown true, .pin false => held
  | unknown _, .pin level => unknown level
  | unknown true, .edge _ => unknown true
  | unknown false, .edge _ => held
  | held, .pin true => released []
  | held, .pin false => held
  | held, .edge _ => held
  | released _, .pin false => held
  | released edges, .pin true => released edges
  | released edges, .edge i => released (edges ++ [i])

def after (level : Bool) (events : List (Event ι)) : Phase ι := events.foldl next (unknown level)

theorem after_concat (level : Bool) (events : List (Event ι)) (e : Event ι) :
    after level (events ++ [e]) = (after level events).next e :=
  List.foldl_append

end Phase

section Obeys

variable (clear : σ → σ) (step : σ → ι → σ)

/-- The machine does what the phase asks for. -/
def Obeys (s : Pinned σ) : Phase ι → Prop
  | .unknown level => s.pin = level
  | .held => s.pin = false ∧ clear s.core = s.core
  | .released edges =>
      s.pin = true ∧ ∃ start, clear start = start ∧ s.core = edges.foldl step start

variable {clear step} {s : Pinned σ} (hclear : ∀ c, clear (clear c) = clear c)
include hclear

theorem Obeys.next {phase : Phase ι} (h : Obeys clear step s phase) (e : Event ι) :
    Obeys clear step (s.next clear step e) (phase.next e) := by
  match phase, e, h with
  | .unknown true, .pin true, h =>
    rw [Pinned.next, h]
    rfl
  | .unknown true, .pin false, h =>
    rw [Pinned.next, h]
    exact ⟨rfl, hclear _⟩
  | .unknown false, .pin level, h =>
    rw [Pinned.next, h]
    rfl
  | .unknown true, .edge i, h => exact h
  | .unknown false, .edge i, h =>
    rw [Pinned.next, h]
    exact ⟨rfl, hclear _⟩
  | .held, .pin true, ⟨hpin, hcore⟩ =>
    -- the rise alone is no step
    rw [Pinned.next, hpin]
    exact ⟨rfl, s.core, hcore, rfl⟩
  | .held, .pin false, ⟨hpin, hcore⟩ =>
    rw [Pinned.next, hpin]
    exact ⟨rfl, hcore⟩
  | .held, .edge i, ⟨hpin, _⟩ =>
    rw [Pinned.next, hpin]
    exact ⟨rfl, hclear _⟩
  | .released edges, .pin true, ⟨hpin, hrun⟩ =>
    rw [Pinned.next, hpin]
    exact ⟨rfl, hrun⟩
  | .released edges, .pin false, ⟨hpin, _⟩ =>
    rw [Pinned.next, hpin]
    exact ⟨rfl, hclear _⟩
  | .released edges, .edge i, ⟨hpin, start, hstart, hcore⟩ =>
    rw [Pinned.next, hpin]
    refine ⟨rfl, start, hstart, ?_⟩
    rw [List.foldl_append, ← hcore]
    rfl

/-- **A machine with a reset pin** is cleared, or runs from a cleared state. -/
theorem obeys_after (s : Pinned σ) (events : List (Event ι)) :
    Obeys clear step (s.after clear step events) (Phase.after s.pin events) := by
  induction events using List.reverseRecOn with
  | nil => exact rfl
  | append_singleton events e ih =>
    rw [Pinned.after_concat, Phase.after_concat]
    exact ih.next hclear e

end Obeys

/-- Registers that are not cleared: an edge that captures writes them, in reset or not, and nothing
else does. -/
structure Retained (clear : σ → σ) (step : σ → ι → σ) (keep : σ → κ) (captures : σ → Bool)
    (taken : ι → κ) : Prop where
  clear : ∀ c, keep (clear c) = keep c
  step : ∀ c i, keep (step c i) = if captures c then taken i else keep c

section Retained

variable {clear : σ → σ} {step : σ → ι → σ} {keep : σ → κ} {captures : σ → Bool} {taken : ι → κ}

theorem Retained.next_pin (h : Retained clear step keep captures taken) (s : Pinned σ)
    (level : Bool) : keep (s.next clear step (.pin level)).core = keep s.core := by
  rw [Pinned.next]
  split_ifs
  · exact h.clear _
  · rfl

theorem Retained.next_edge (h : Retained clear step keep captures taken) (s : Pinned σ) (i : ι) :
    keep (s.next clear step (.edge i)).core =
      if captures s.core then taken i else keep s.core := by
  rw [Pinned.next, ← h.step]
  dsimp only
  split_ifs
  · rfl
  · exact h.clear _

end Retained

/-! ### Registers that some events write -/

section LastTaken

variable {ε : Type*} (next : σ → ε → σ) (takes : σ → ε → Option κ)

/-- None of the events writes. -/
def Untaken (s : σ) (events : List ε) : Prop :=
  ∀ before e rest, events = before ++ e :: rest → takes (before.foldl next s) e = none

/-- `v` is what the last event that writes has written, or the value `v₀` from before. -/
def LastTaken (s : σ) (events : List ε) (v₀ v : κ) : Prop :=
  (∃ before e rest, events = before ++ e :: rest ∧ takes (before.foldl next s) e = some v ∧
      Untaken next takes ((before ++ [e]).foldl next s) rest) ∨
    Untaken next takes s events ∧ v = v₀

variable {next takes}

theorem Untaken.concat {s : σ} {events : List ε} (h : Untaken next takes s events) {e : ε}
    (he : takes (events.foldl next s) e = none) : Untaken next takes s (events ++ [e]) := by
  intro before e' rest heq
  rcases List.eq_nil_or_concat rest with rfl | ⟨rest, last, rfl⟩
  · -- the event is the last one
    obtain ⟨rfl, hlast⟩ := List.append_inj' heq rfl
    obtain rfl := List.singleton_inj.mp hlast
    exact he
  · rw [List.concat_eq_append, ← List.cons_append, ← List.append_assoc] at heq
    exact h before e' rest (List.append_inj_left' heq rfl)

/-- **Registers that some events write** hold what was written last. -/
theorem lastTaken_foldl (keep : σ → κ)
    (hkeep : ∀ s e, keep (next s e) = (takes s e).getD (keep s)) (s : σ) (events : List ε) :
    LastTaken next takes s events (keep s) (keep (events.foldl next s)) := by
  induction events using List.reverseRecOn with
  | nil => exact .inr ⟨fun before e rest heq => absurd heq (by simp), rfl⟩
  | append_singleton events e ih =>
    rw [List.foldl_append, List.foldl_cons, List.foldl_nil, hkeep]
    cases htakes : takes (events.foldl next s) e with
    | some v =>
      exact .inl ⟨events, e, [], rfl, htakes, fun before e rest heq => absurd heq (by simp)⟩
    | none =>
      rcases ih with ⟨before, e', rest, rfl, hwritten, hquiet⟩ | ⟨hquiet, hstart⟩
      · refine .inl ⟨before, e', rest ++ [e], by simp, hwritten, hquiet.concat ?_⟩
        rw [← htakes, ← List.foldl_append, List.append_assoc, List.singleton_append]
      · exact .inr ⟨hquiet.concat htakes, hstart⟩

end LastTaken

end AsyncReset

end Foundation
