import Mathlib.Data.Nat.Count

/-!
# Two-flop synchronisers

A signal carried into another clock domain by two registers in a row, both set at the edges of
that domain. Time counts the edges of all clocks, in the order in which they come; `edge t`
says that the edge at `t` is one of the receiving domain, and `edgesBefore edge t` is how many
of those came before `t`.

The second register shows at an edge what the signal was two edges of its domain earlier
(`TwoFlop.second_iff`). What it shows at the next three edges from some time on is therefore
what the signal was at the last two edges before that time and at the first one from it on
(`TwoFlop.shown_iff`).
-/

set_option autoImplicit false

namespace Foundation

namespace Synchroniser

variable {edge signal s₁ s₂ : ℕ → Bool} {t n N : ℕ}

/-- The edges of the receiving domain before `t`. -/
def edgesBefore (edge : ℕ → Bool) (t : ℕ) : ℕ := Nat.count (fun c => edge c = true) t

theorem edgesBefore_succ_of_edge (h : edge t = true) :
    edgesBefore edge (t + 1) = edgesBefore edge t + 1 :=
  Nat.count_succ_eq_succ_count_iff.mpr h

theorem edgesBefore_succ_of_other (h : edge t = false) :
    edgesBefore edge (t + 1) = edgesBefore edge t :=
  Nat.count_succ_eq_count_iff.mpr (Bool.eq_false_iff.mp h)

/-- There is an edge with each number below the count. -/
theorem exists_edge {j : ℕ} (h : j < edgesBefore edge N) :
    ∃ e < N, edge e = true ∧ edgesBefore edge e = j := by
  induction N with
  | zero => exact absurd h (Nat.not_lt_zero j)
  | succ N ih =>
    cases hN : edge N with
    | false =>
      rw [edgesBefore_succ_of_other hN] at h
      obtain ⟨e, he, hedge⟩ := ih h
      exact ⟨e, Nat.lt_succ_of_lt he, hedge⟩
    | true =>
      rw [edgesBefore_succ_of_edge hN] at h
      rcases Nat.lt_succ_iff_lt_or_eq.mp h with hlt | rfl
      · obtain ⟨e, he, hedge⟩ := ih hlt
        exact ⟨e, Nat.lt_succ_of_lt he, hedge⟩
      · exact ⟨N, Nat.lt_succ_self N, hN, rfl⟩

/-- Two registers in a row, set at the edges of the receiving domain. -/
structure TwoFlop (edge signal s₁ s₂ : ℕ → Bool) : Prop where
  start₁ : s₁ 0 = false
  start₂ : s₂ 0 = false
  next₁ : ∀ t, s₁ (t + 1) = if edge t then signal t else s₁ t
  next₂ : ∀ t, s₂ (t + 1) = if edge t then s₁ t else s₂ t

namespace TwoFlop

/-- The first register holds what the signal was at the last edge. -/
theorem first_iff (h : TwoFlop edge signal s₁ s₂) (t : ℕ) :
    s₁ t = true ↔
      ∃ m, edge m = true ∧ signal m = true ∧ edgesBefore edge t = edgesBefore edge m + 1 := by
  induction t with
  | zero =>
    rw [h.start₁]
    refine ⟨fun hf => absurd hf Bool.false_ne_true, ?_⟩
    rintro ⟨m, -, -, hm⟩
    exact absurd hm (Nat.succ_ne_zero _).symm
  | succ t ih =>
    rw [h.next₁]
    cases ht : edge t with
    | false =>
      rw [edgesBefore_succ_of_other ht]
      exact ih
    | true =>
      rw [if_pos rfl, edgesBefore_succ_of_edge ht]
      constructor
      · exact fun hsignal => ⟨t, ht, hsignal, rfl⟩
      · rintro ⟨m, hm, hsignal, hcount⟩
        obtain rfl : t = m := Nat.count_injective ht hm (Nat.succ_injective hcount)
        exact hsignal

/-- The second register holds what the signal was at the edge before. -/
theorem second_iff (h : TwoFlop edge signal s₁ s₂) (t : ℕ) :
    s₂ t = true ↔
      ∃ m, edge m = true ∧ signal m = true ∧ edgesBefore edge t = edgesBefore edge m + 2 := by
  induction t with
  | zero =>
    rw [h.start₂]
    refine ⟨fun hf => absurd hf Bool.false_ne_true, ?_⟩
    rintro ⟨m, -, -, hm⟩
    exact absurd hm (Nat.succ_ne_zero _).symm
  | succ t ih =>
    rw [h.next₂]
    cases ht : edge t with
    | false =>
      rw [edgesBefore_succ_of_other ht]
      exact ih
    | true =>
      rw [if_pos rfl, edgesBefore_succ_of_edge ht, h.first_iff]
      exact exists_congr fun m => and_congr_right fun _ => and_congr_right fun _ =>
        (Nat.succ_inj (a := edgesBefore edge t)).symm

/-- What the next three edges from `n` on show. -/
theorem shown_iff (h : TwoFlop edge signal s₁ s₂)
    (hthree : edgesBefore edge N = edgesBefore edge n + 3) :
    (∃ e, n ≤ e ∧ e < N ∧ edge e = true ∧ s₂ e = true) ↔
      ∃ m, edge m = true ∧ signal m = true ∧ edgesBefore edge m ≤ edgesBefore edge n ∧
        edgesBefore edge n ≤ edgesBefore edge m + 2 := by
  constructor
  · rintro ⟨e, hn, hN, hedge, hshown⟩
    obtain ⟨m, hm, hsignal, hcount⟩ := (h.second_iff e).mp hshown
    have hafter : edgesBefore edge n ≤ edgesBefore edge e := Nat.count_monotone _ hn
    have hbefore : edgesBefore edge (e + 1) ≤ edgesBefore edge N := Nat.count_monotone _ hN
    rw [edgesBefore_succ_of_edge hedge] at hbefore
    exact ⟨m, hm, hsignal, by omega, by omega⟩
  · rintro ⟨m, hm, hsignal, hle, hge⟩
    have hlate : edgesBefore edge m + 2 < edgesBefore edge N := by omega
    obtain ⟨e, hN, hedge, hcount⟩ := exists_edge hlate
    refine ⟨e, ?_, hN, hedge, (h.second_iff e).mpr ⟨m, hm, hsignal, hcount⟩⟩
    -- an edge before `n` would be counted there
    by_contra hlt
    have hcounted : edgesBefore edge (e + 1) ≤ edgesBefore edge n :=
      Nat.count_monotone _ (Nat.lt_of_not_le hlt)
    rw [edgesBefore_succ_of_edge hedge] at hcounted
    omega

end TwoFlop

end Synchroniser

end Foundation
