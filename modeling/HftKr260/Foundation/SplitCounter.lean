import Mathlib.Data.Nat.ModEq
import Mathlib.Tactic.Ring

/-!
# Counters read in two words

A counter of two words to the radix `R` counts modulo `R * R`. A reader that takes the low
word first and the high word `k` increments later puts together a value that is ahead of the
counter by `R` for each time the low word has wrapped in between.

## Main results

* `splitRead_modEq` — how far the value is ahead
* `splitRead_moment_iff` — when the counter has shown the value around the two reads
-/

set_option autoImplicit false

namespace Foundation

/-- How often the low word of a counter wraps in `k` increments. -/
def wraps (R count k : ℕ) : ℕ := (count % R + k) / R

/-- The low word of a counter and the high word of `k` increments later. -/
def splitRead (R count k : ℕ) : ℕ := (count + k) / R % R * R + count % R

section

variable {R : ℕ} (count k : ℕ)

theorem add_div_eq_wraps (hR : 0 < R) : (count + k) / R = count / R + wraps R count k := by
  have hsplit : count + k = R * (count / R) + (count % R + k) := by
    rw [← Nat.add_assoc, Nat.div_add_mod]
  rw [hsplit, Nat.mul_add_div hR]
  rfl

/-- The value is ahead by the wraps of the low word. -/
theorem splitRead_modEq (hR : 0 < R) :
    splitRead R count k ≡ count + R * (wraps R count k % R) [MOD R * R] := by
  have hwords : ∀ x, R * (x % R) ≡ R * x [MOD R * R] := fun x =>
    (Nat.mod_modEq x R).mul_left' R
  calc splitRead R count k
      = R * ((count / R + wraps R count k) % R) + count % R := by
        rw [splitRead, add_div_eq_wraps count k hR, Nat.mul_comm]
    _ ≡ R * (count / R + wraps R count k) + count % R [MOD R * R] := (hwords _).add_right _
    _ = count + R * wraps R count k := by
        have hcount := Nat.div_add_mod count R
        rw [Nat.mul_add]
        omega
    _ ≡ count + R * (wraps R count k % R) [MOD R * R] := (hwords _).symm.add_left _

end

/-- A counter that starts at `start` and is read low after `before` increments, high after
`between` more and left alone after `behind` more has shown the value put together exactly if
the increments behind the first read make up for the wraps, or those before it for what the
wraps lack of a whole turn. -/
theorem splitRead_moment_iff {R : ℕ} (hR : 0 < R) (start before between behind : ℕ) :
    (∃ m ≤ before + between + behind,
        splitRead R (start + before) between ≡ start + m [MOD R * R]) ↔
      R * (wraps R (start + before) between % R) ≤ between + behind ∨
        R * ((R - wraps R (start + before) between % R) % R) ≤ before := by
  have hread := splitRead_modEq (start + before) between hR
  have hd : wraps R (start + before) between % R < R := Nat.mod_lt _ hR
  generalize wraps R (start + before) between % R = d at hread hd ⊢
  have hahead : R * d < R * R := Nat.mul_lt_mul_of_pos_left hd hR
  constructor
  · rintro ⟨m, hm, hmoment⟩
    have hsame : before + R * d ≡ m [MOD R * R] := by
      refine Nat.ModEq.add_left_cancel' start ?_
      rw [← Nat.add_assoc]
      exact hread.symm.trans hmoment
    rcases Nat.le_total before m with hle | hle
    · -- a moment behind the first read is at least the wraps away
      obtain ⟨n, rfl⟩ := Nat.exists_eq_add_of_le hle
      have hn : R * d ≡ n [MOD R * R] := Nat.ModEq.add_left_cancel' before hsame
      have hmod : R * d = n % (R * R) := (Nat.mod_eq_of_lt hahead).symm.trans hn
      have hle' := Nat.mod_le n (R * R)
      exact .inl (by omega)
    · -- one before it lies a turn back
      obtain ⟨n, rfl⟩ := Nat.exists_eq_add_of_le hle
      rcases Nat.eq_zero_or_pos d with rfl | hpos
      · exact .inl (by simp)
      · refine .inr ?_
        have hturn : n + R * d ≡ 0 [MOD R * R] := by
          refine Nat.ModEq.add_left_cancel' m ?_
          rw [← Nat.add_assoc]
          exact hsame
        have hle' : R * R ≤ n + R * d :=
          Nat.le_of_dvd (by have := Nat.mul_pos hR hpos; omega) ((Nat.modEq_zero_iff_dvd).mp hturn)
        rw [Nat.mod_eq_of_lt (by omega), Nat.mul_sub]
        omega
  · rintro (hle | hle)
    · refine ⟨before + R * d, by omega, ?_⟩
      rw [← Nat.add_assoc]
      exact hread
    · refine ⟨before - R * ((R - d) % R), by omega, hread.trans ?_⟩
      rcases Nat.eq_zero_or_pos d with rfl | hpos
      · rw [Nat.sub_zero, Nat.mod_self, Nat.mul_zero, Nat.sub_zero, Nat.add_zero]
      · rw [Nat.mod_eq_of_lt (by omega)] at hle ⊢
        have hwhole : start + before + R * d =
            start + (before - R * (R - d)) + R * R := by
          rw [Nat.mul_sub] at hle ⊢
          omega
        rw [hwhole]
        exact (Nat.add_modEq_right)

end Foundation
