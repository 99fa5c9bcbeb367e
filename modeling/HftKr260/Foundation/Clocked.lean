import Mathlib.Data.List.Basic
import Mathlib.Data.List.GetD
import Mathlib.Data.Nat.Init

/-!
# Synchronous machines

A clocked machine reads an input in every cycle and sets its registers at the end of it:
`run step s₀ input t` are the register values during cycle `t`, cycle `0` being the first
after reset. What a handshaked port transfers is the list of the values it shows in the
cycles in which it is valid; `transferred` collects it.

## Main results

* `run_invariant` — the invariant rule
* `transferred_delay` — a port that repeats another one cycle later transfers the same
* `Latch.holds` — a latch keeps what has set it until it is cleared
* `Capture.last` — a register shows what it was last enabled for
-/

set_option autoImplicit false

namespace Foundation

namespace Clocked

variable {σ ι α β : Type*}

/-- The register values during each cycle. -/
def run (step : σ → ι → σ) (s₀ : σ) (input : ℕ → ι) : ℕ → σ
  | 0 => s₀
  | t + 1 => step (run step s₀ input t) (input t)

section Run

variable {step : σ → ι → σ} {s₀ : σ} {input : ℕ → ι}

@[simp] theorem run_zero : run step s₀ input 0 = s₀ := rfl

/-- What holds after reset and survives every cycle always holds. -/
theorem run_invariant {P : ℕ → σ → Prop} (h₀ : P 0 s₀)
    (hstep : ∀ t s, P t s → P (t + 1) (step s (input t))) (t : ℕ) :
    P t (run step s₀ input t) := by
  induction t with
  | zero => exact h₀
  | succ t ih => exact hstep t _ ih

/-- A run depends on the inputs so far only. -/
theorem run_congr {input' : ℕ → ι} {t : ℕ} (h : ∀ c < t, input c = input' c) :
    run step s₀ input t = run step s₀ input' t := by
  induction t with
  | zero => rfl
  | succ t ih =>
    change step (run step s₀ input t) (input t) = step (run step s₀ input' t) (input' t)
    rw [ih fun c hc => h c (Nat.lt_succ_of_lt hc), h t (Nat.lt_succ_self t)]

/-- The inputs of a list, and behind them any. -/
theorem run_getD_concat (is : List ι) (i idle : ι) :
    run step s₀ (fun t => (is ++ [i]).getD t idle) (is ++ [i]).length =
      step (run step s₀ (fun t => is.getD t idle) is.length) i := by
  have hfront : run step s₀ (fun t => (is ++ [i]).getD t idle) is.length =
      run step s₀ (fun t => is.getD t idle) is.length :=
    run_congr fun c hc => List.getD_append is [i] idle c hc
  have hlast : (is ++ [i]).getD is.length idle = i := by
    rw [List.getD_append_right is [i] idle is.length (Nat.le_refl _), Nat.sub_self]
    rfl
  rw [List.length_append]
  change step (run step s₀ (fun t => (is ++ [i]).getD t idle) is.length)
    ((is ++ [i]).getD is.length idle) = _
  rw [hfront, hlast]

end Run

/-- The values a port transfers in the first `t` cycles. -/
def transferred (valid : ℕ → Bool) (data : ℕ → α) : ℕ → List α
  | 0 => []
  | t + 1 => transferred valid data t ++ if valid t then [data t] else []

section Transferred

variable {valid valid' : ℕ → Bool} {data data' : ℕ → α}

@[simp] theorem transferred_zero : transferred valid data 0 = [] := rfl

theorem transferred_succ (t : ℕ) :
    transferred valid data (t + 1) =
      transferred valid data t ++ if valid t then [data t] else [] := rfl

theorem transferred_succ_of_valid {t : ℕ} (h : valid t = true) :
    transferred valid data (t + 1) = transferred valid data t ++ [data t] := by
  rw [transferred_succ, h]
  rfl

theorem transferred_succ_of_idle {t : ℕ} (h : valid t = false) :
    transferred valid data (t + 1) = transferred valid data t := by
  rw [transferred_succ, h]
  exact List.append_nil _

/-- Reading the data through a function. -/
theorem transferred_map (f : α → β) (t : ℕ) :
    transferred valid (fun c => f (data c)) t = (transferred valid data t).map f := by
  induction t with
  | zero => rfl
  | succ t ih =>
    rw [transferred_succ, transferred_succ, ih, List.map_append]
    split_ifs <;> rfl

/-- A port that shows the transfers of another one cycle later transfers the same list. -/
theorem transferred_delay (h₀ : valid' 0 = false) (hvalid : ∀ t, valid' (t + 1) = valid t)
    (hdata : ∀ t, valid t = true → data' (t + 1) = data t) (t : ℕ) :
    transferred valid' data' (t + 1) = transferred valid data t := by
  induction t with
  | zero => rw [transferred_succ_of_idle h₀, transferred_zero, transferred_zero]
  | succ t ih =>
    cases hv : valid t with
    | false =>
      rw [transferred_succ_of_idle ((hvalid t).trans hv), ih, transferred_succ_of_idle hv]
    | true =>
      rw [transferred_succ_of_valid ((hvalid t).trans hv), ih, transferred_succ_of_valid hv,
        hdata t hv]

/-- A port without transfers adds nothing. -/
theorem transferred_of_idle {s t : ℕ} (h : s ≤ t)
    (hidle : ∀ c, s ≤ c → c < t → valid c = false) :
    transferred valid data t = transferred valid data s := by
  induction t, h using Nat.le_induction with
  | base => rfl
  | succ t hst ih =>
    rw [transferred_succ_of_idle (hidle t hst (Nat.lt_succ_self t))]
    exact ih fun c hc hct => hidle c hc (Nat.lt_succ_of_lt hct)

end Transferred

/-- A register with a set and a clear input, of which clear wins. -/
def Latch (set clear q : ℕ → Bool) : Prop :=
  ∀ t, q (t + 1) = if clear t then false else set t || q t

section Latch

variable {set clear q : ℕ → Bool}

theorem Latch.cleared (h : Latch set clear q) {t : ℕ} (hclear : clear t = true) :
    q (t + 1) = false := by
  rw [h t, if_pos hclear]

/-- What has been set stays set until it is cleared. -/
theorem Latch.holds (h : Latch set clear q) {s t : ℕ} (hst : s < t) (hset : set s = true)
    (hkeep : ∀ c, s ≤ c → c < t → clear c = false) : q t = true := by
  induction t, hst using Nat.le_induction with
  | base => rw [h s, hkeep s (Nat.le_refl s) (Nat.lt_succ_self s), hset]; rfl
  | succ t hst ih =>
    have hbefore := ih fun c hc hct => hkeep c hc (Nat.lt_succ_of_lt hct)
    rw [h t, hkeep t (Nat.le_of_lt hst) (Nat.lt_succ_self t), hbefore]
    exact Bool.or_true _

/-- What is neither set nor cleared stands still. -/
theorem Latch.keeps (h : Latch set clear q) {s t : ℕ} (hst : s ≤ t)
    (hset : ∀ c, s ≤ c → c < t → set c = false)
    (hclear : ∀ c, s ≤ c → c < t → clear c = false) : q t = q s := by
  induction t, hst using Nat.le_induction with
  | base => rfl
  | succ t hst ih =>
    rw [h t, hclear t hst (Nat.lt_succ_self t), hset t hst (Nat.lt_succ_self t)]
    exact ih (fun c hc hct => hset c hc (Nat.lt_succ_of_lt hct))
      fun c hc hct => hclear c hc (Nat.lt_succ_of_lt hct)

end Latch

/-- A register that takes its data in the cycles in which it is enabled. -/
def Capture (enable : ℕ → Bool) (data q : ℕ → α) : Prop :=
  ∀ t, q (t + 1) = if enable t then data t else q t

/-- Something holds for the last time before `t`, or never before. -/
theorem last_or_none (P : ℕ → Prop) (t : ℕ) :
    (∃ s < t, P s ∧ ∀ c, s < c → c < t → ¬P c) ∨ ∀ c < t, ¬P c := by
  induction t with
  | zero => exact .inr fun c hc => absurd hc (Nat.not_lt_zero c)
  | succ t ih =>
    by_cases ht : P t
    · exact .inl ⟨t, Nat.lt_succ_self t, ht, fun c htc hct =>
        absurd (Nat.le_of_lt_succ hct) (Nat.not_le_of_lt htc)⟩
    · rcases ih with ⟨s, hs, hP, hnone⟩ | hnone
      · refine .inl ⟨s, Nat.lt_succ_of_lt hs, hP, fun c hsc hct => ?_⟩
        rcases Nat.lt_succ_iff_lt_or_eq.mp hct with hlt | rfl
        · exact hnone c hsc hlt
        · exact ht
      · refine .inr fun c hct => ?_
        rcases Nat.lt_succ_iff_lt_or_eq.mp hct with hlt | rfl
        · exact hnone c hlt
        · exact ht

/-- There is one last time only. -/
theorem last_unique {P : ℕ → Prop} {s s' : ℕ} (hs : P s) (hs' : P s') (h : s < s' → ¬P s')
    (h' : s' < s → ¬P s) : s = s' := by
  rcases Nat.lt_trichotomy s s' with hlt | heq | hgt
  · exact absurd hs' (h hlt)
  · exact heq
  · exact absurd hs (h' hgt)

section Capture

variable {enable : ℕ → Bool} {data q : ℕ → α}

/-- The data of the last cycle in which it was enabled. -/
theorem Capture.last (h : Capture enable data q) {s t : ℕ} (hst : s < t)
    (hs : enable s = true) (hnone : ∀ c, s < c → c < t → enable c = false) : q t = data s := by
  induction t, hst using Nat.le_induction with
  | base => rw [h s, if_pos hs]
  | succ t hst ih =>
    rw [h t, hnone t hst (Nat.lt_succ_self t)]
    exact ih fun c hc hct => hnone c hc (Nat.lt_succ_of_lt hct)

/-- As long as it is not enabled it stands still. -/
theorem Capture.keeps (h : Capture enable data q) {s t : ℕ} (hst : s ≤ t)
    (hnone : ∀ c, s ≤ c → c < t → enable c = false) : q t = q s := by
  induction t, hst using Nat.le_induction with
  | base => rfl
  | succ t hst ih =>
    rw [h t, hnone t hst (Nat.lt_succ_self t)]
    exact ih fun c hc hct => hnone c hc (Nat.lt_succ_of_lt hct)

/-- As long as it is not enabled it keeps what it was. -/
theorem Capture.none (h : Capture enable data q) {t : ℕ}
    (hnone : ∀ c < t, enable c = false) : q t = q 0 := by
  induction t with
  | zero => rfl
  | succ t ih =>
    rw [h t, hnone t (Nat.lt_succ_self t)]
    exact ih fun c hct => hnone c (Nat.lt_succ_of_lt hct)

end Capture

end Clocked

end Foundation
