import Mathlib.Data.List.Basic

/-!
# Programs that read a shared device

A program issues requests to a device one at a time, each answered atomically, while others
update the device between the requests. A schedule says which updates land before each
request; `exec` is the run of a program under a schedule, with every state the device was in.

## Main results

* `exec_bind` — a program runs in the schedule where the one before it stopped
* `exec_invariant` — what updates and answers preserve holds of every state seen
-/

set_option autoImplicit false

namespace Foundation

/-- A program that makes requests in `ρ`, is answered in `β` and ends with a value. -/
inductive ReadProgram (ρ β α : Type)
  | done (value : α)
  | request (r : ρ) (rest : β → ReadProgram ρ β α)

namespace ReadProgram

variable {ρ β α γ σ υ : Type}

def bind (p : ReadProgram ρ β α) (f : α → ReadProgram ρ β γ) : ReadProgram ρ β γ :=
  match p with
  | done value => f value
  | request r rest => request r fun b => (rest b).bind f

instance : Monad (ReadProgram ρ β) where
  pure := done
  bind := bind

/-- How a run ended: the value, the number of requests so far, the device, and the states the
device was in on the way. -/
structure Outcome (σ α : Type) where
  value : α
  count : ℕ
  state : σ
  seen : List σ

/-- The run of a program. The updates in `gaps i` land before request `i`. -/
def exec (respond : σ → ρ → β × σ) (update : σ → υ → σ) (gaps : ℕ → List υ) :
    ReadProgram ρ β α → ℕ → σ → Outcome σ α
  | done value, i, s => ⟨value, i, s, []⟩
  | request r rest, i, s =>
      let shown := (gaps i).foldl update s
      let out := exec respond update gaps (rest (respond shown r).1) (i + 1) (respond shown r).2
      { out with seen := (gaps i).scanl update s ++ out.seen }

variable {respond : σ → ρ → β × σ} {update : σ → υ → σ} {gaps : ℕ → List υ}

@[simp] theorem exec_pure (value : α) (i : ℕ) (s : σ) :
    exec respond update gaps (pure value : ReadProgram ρ β α) i s = ⟨value, i, s, []⟩ := rfl

/-- One program after another. -/
theorem exec_bind (p : ReadProgram ρ β α) (f : α → ReadProgram ρ β γ) (i : ℕ) (s : σ) :
    exec respond update gaps (p >>= f) i s =
      let out := exec respond update gaps p i s
      let out' := exec respond update gaps (f out.value) out.count out.state
      { out' with seen := out.seen ++ out'.seen } := by
  induction p generalizing i s with
  | done value => rfl
  | request r rest ih =>
    have hrest := ih (respond ((gaps i).foldl update s) r).1 (i + 1)
      (respond ((gaps i).foldl update s) r).2
    change exec respond update gaps (request r fun b => rest b >>= f) i s = _
    simp only [exec]
    rw [hrest, List.append_assoc]

theorem foldl_mem_scanl (us : List υ) (s : σ) : us.foldl update s ∈ us.scanl update s := by
  have hne : us.scanl update s ≠ [] := List.scanl_ne_nil
  rw [← List.getLast_scanl hne]
  exact List.getLast_mem hne

section Invariant

variable {P : σ → Prop}

theorem foldl_invariant {us : List υ} (hupdate : ∀ s, ∀ u ∈ us, P s → P (update s u)) {s : σ}
    (h : P s) : P (us.foldl update s) := by
  induction us generalizing s with
  | nil => exact h
  | cons u us ih =>
    exact ih (fun s v hv => hupdate s v (List.mem_cons_of_mem _ hv))
      (hupdate s u List.mem_cons_self h)

theorem scanl_invariant {us : List υ} (hupdate : ∀ s, ∀ u ∈ us, P s → P (update s u)) {s : σ}
    (h : P s) : ∀ s' ∈ us.scanl update s, P s' := by
  induction us generalizing s with
  | nil =>
    intro s' hs'
    rw [List.scanl_nil, List.mem_singleton] at hs'
    exact hs' ▸ h
  | cons u us ih =>
    intro s' hs'
    rw [List.scanl_cons, List.mem_cons] at hs'
    rcases hs' with rfl | hmem
    · exact h
    · exact ih (fun s v hv => hupdate s v (List.mem_cons_of_mem _ hv))
        (hupdate s u List.mem_cons_self h) s' hmem

/-- What updates and answers preserve holds of every state seen, and at the end. -/
theorem exec_invariant (hrespond : ∀ s r, P s → P (respond s r).2)
    (hupdate : ∀ i s, ∀ u ∈ gaps i, P s → P (update s u)) (p : ReadProgram ρ β α) {i : ℕ} {s : σ}
    (h : P s) :
    P (exec respond update gaps p i s).state ∧
      ∀ s' ∈ (exec respond update gaps p i s).seen, P s' := by
  induction p generalizing i s with
  | done value => exact ⟨h, fun s' hs' => absurd hs' List.not_mem_nil⟩
  | request r rest ih =>
    have hshown : P ((gaps i).foldl update s) := foldl_invariant (hupdate i) h
    obtain ⟨hstate, hseen⟩ :=
      ih (respond ((gaps i).foldl update s) r).1 (i := i + 1) (hrespond _ r hshown)
    refine ⟨hstate, fun s' hs' => ?_⟩
    rcases List.mem_append.mp hs' with hmem | hmem
    · exact scanl_invariant (hupdate i) h s' hmem
    · exact hseen s' hmem

end Invariant

end ReadProgram

end Foundation
