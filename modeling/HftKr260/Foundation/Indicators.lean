import HftKr260.Foundation.Clocked
import Mathlib.Data.Nat.Count

/-!
# Indicators

Registers that make one-cycle pulses visible. A one-shot is loaded by a pulse and counts down;
its output stays up until a cycle in which the counter is found at zero. A latch stays up until it
is cleared.

## Main results

* `OneShot.on_iff` — a one-shot is up exactly for a fixed time behind a pulse
* `Latch.on_iff` — a latch is up from a pulse to the next clear
* `Latch.count_le` — a latch is found up at most once for each pulse
-/

set_option autoImplicit false

namespace Foundation

namespace Clocked

variable {trigger q : ℕ → Bool} {count : ℕ → ℕ} {load : ℕ}

/-- A counter that a pulse loads, and its output. -/
structure OneShot (load : ℕ) (trigger : ℕ → Bool) (count : ℕ → ℕ) (q : ℕ → Bool) : Prop where
  start : q 0 = false
  next_count : ∀ t, count (t + 1) = if trigger t then load else count t - 1
  next : ∀ t, q (t + 1) = if trigger t then true else decide (0 < count t) && q t

namespace OneShot

/-- Behind the last pulse the counter runs down, and the output follows it. -/
theorem behind_pulse (h : OneShot load trigger count q) {s t : ℕ} (hst : s < t)
    (hs : trigger s = true) (hnone : ∀ c, s < c → c < t → ¬trigger c = true) :
    count t = load - (t - (s + 1)) ∧ q t = decide (t - (s + 1) ≤ load) := by
  induction t, hst using Nat.le_induction with
  | base =>
    rw [h.next_count, h.next, if_pos hs, if_pos hs, Nat.sub_self]
    exact ⟨rfl, (decide_eq_true (Nat.zero_le load)).symm⟩
  | succ t hst ih =>
    obtain ⟨hcount, hq⟩ := ih fun c hc hct => hnone c hc (Nat.lt_succ_of_lt hct)
    -- one cycle more without a pulse
    have hquiet : ¬trigger t = true := hnone t hst (Nat.lt_succ_self t)
    rw [h.next_count, h.next, if_neg hquiet, if_neg hquiet, hcount, hq, ← Bool.decide_and]
    refine ⟨by omega, decide_eq_decide.mpr ?_⟩
    omega

/-- Without a pulse the output stays down. -/
theorem off_of_quiet (h : OneShot load trigger count q) {t : ℕ}
    (hnone : ∀ c < t, ¬trigger c = true) : q t = false := by
  induction t with
  | zero => exact h.start
  | succ t ih =>
    rw [h.next, if_neg (hnone t (Nat.lt_succ_self t)),
      ih fun c hc => hnone c (Nat.lt_succ_of_lt hc)]
    exact Bool.and_false _

/-- **A one-shot** is up for `load + 1` cycles behind every pulse, and at no other time. -/
theorem on_iff (h : OneShot load trigger count q) (t : ℕ) :
    q t = true ↔ ∃ s < t, t ≤ s + (load + 1) ∧ trigger s = true := by
  rcases last_or_none (fun c => trigger c = true) t with ⟨s, hst, hs, hnone⟩ | hnone
  · obtain ⟨-, hq⟩ := h.behind_pulse hst hs hnone
    rw [hq, decide_eq_true_iff]
    constructor
    · exact fun hle => ⟨s, hst, by omega, hs⟩
    · rintro ⟨c, hct, hle, hc⟩
      -- no pulse is later than the last one
      have hcs : c ≤ s := Nat.le_of_not_lt fun hsc => hnone c hsc hct hc
      omega
  · rw [h.off_of_quiet hnone]
    refine ⟨fun hf => absurd hf Bool.false_ne_true, ?_⟩
    rintro ⟨c, hct, -, hc⟩
    exact absurd hc (hnone c hct)

end OneShot

/-- **A latch** is up exactly if it has been set and not been cleared since, at the same time or
later. -/
theorem Latch.on_iff {set clear : ℕ → Bool} (h : Latch set clear q) (hstart : q 0 = false) (t : ℕ) :
    q t = true ↔ ∃ s < t, set s = true ∧ ∀ c, s ≤ c → c < t → clear c = false := by
  induction t with
  | zero =>
    rw [hstart]
    refine ⟨fun hf => absurd hf Bool.false_ne_true, ?_⟩
    rintro ⟨s, hs, -⟩
    exact absurd hs (Nat.not_lt_zero s)
  | succ t ih =>
    cases hclear : clear t with
    | true =>
      rw [h.cleared hclear]
      refine ⟨fun hf => absurd hf Bool.false_ne_true, ?_⟩
      rintro ⟨s, hs, -, hkeep⟩
      exact absurd (hclear.symm.trans (hkeep t (Nat.le_of_lt_succ hs) (Nat.lt_succ_self t)))
        Bool.false_ne_true.symm
    | false =>
      rw [h t, hclear, if_neg Bool.false_ne_true, Bool.or_eq_true, ih]
      constructor
      · rintro (hset | ⟨s, hs, hset, hkeep⟩)
        · refine ⟨t, Nat.lt_succ_self t, hset, fun c hc hct => ?_⟩
          obtain rfl : c = t := Nat.le_antisymm (Nat.le_of_lt_succ hct) hc
          exact hclear
        · refine ⟨s, Nat.lt_succ_of_lt hs, hset, fun c hc hct => ?_⟩
          rcases Nat.lt_succ_iff_lt_or_eq.mp hct with hlt | rfl
          · exact hkeep c hc hlt
          · exact hclear
      · rintro ⟨s, hs, hset, hkeep⟩
        rcases Nat.lt_succ_iff_lt_or_eq.mp hs with hlt | rfl
        · exact .inr ⟨s, hlt, hset, fun c hc hct => hkeep c hc (Nat.lt_succ_of_lt hct)⟩
        · exact .inl hset

/-- What nothing clears is up from the first pulse on. -/
theorem Latch.sticky_iff {set : ℕ → Bool} (h : Latch set (fun _ => false) q)
    (hstart : q 0 = false) (t : ℕ) : q t = true ↔ ∃ s < t, set s = true := by
  rw [h.on_iff hstart]
  exact exists_congr fun s => and_congr_right fun _ => and_iff_left fun _ _ _ => rfl

/-- **Clears that find the latch up** are no more than the pulses. -/
theorem Latch.count_le {set clear : ℕ → Bool} (h : Latch set clear q) (hstart : q 0 = false)
    (t : ℕ) :
    Nat.count (fun c => (clear c && q c) = true) t + (q t).toNat ≤
      Nat.count (fun c => set c = true) t := by
  induction t with
  | zero => simp [hstart]
  | succ t ih =>
    rw [Nat.count_succ, Nat.count_succ, h t]
    -- a pulse pays for the latch, and the latch for the clear that finds it up
    cases hclear : clear t <;> cases hset : set t <;> cases hq : q t <;> simp [hq] at ih ⊢ <;> omega

end Clocked

end Foundation
