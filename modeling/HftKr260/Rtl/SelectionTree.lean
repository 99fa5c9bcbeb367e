import HftKr260.Rtl.EngineFeed

/-!
# The selection trees

`best_bid_combo` and `best_ask_combo` are nested conditionals without parentheses. The
conditional binds weaker than the comparison and to the right, so a half of the tree compares
its first input with the second and, failing that, the second with the third: it yields the
first, or the third just when that is worse than the second, or the fourth without a look at it.

Both sides are one tree under the comparison of the side, an invalid slot standing for the worst
value.

## Main results

* `quad_unbeaten_iff` — when a half yields a price that none of the side beats
* `best_combos_iff` — the books whose best prices the trees select
-/

set_option autoImplicit false

namespace HftKr260

/-- The comparison of a side as an order. -/
def Side.score : Side → BitVec 64 → ℤ
  | .bid => fun x => x.toNat
  | .ask => fun x => -x.toNat

theorem Side.beats_iff (side : Side) (x y : BitVec 64) :
    side.beats x y = true ↔ side.score y < side.score x := by
  cases side with
  | bid => simp [beats, score, BitVec.lt_def]
  | ask => simp [beats, score, BitVec.lt_def]

theorem Side.beats_eq_false_iff (side : Side) (x y : BitVec 64) :
    side.beats x y = false ↔ side.score x ≤ side.score y := by
  rw [← Bool.not_eq_true, beats_iff, not_lt]

theorem Side.score_injective (side : Side) : Function.Injective side.score := by
  intro x y h
  apply BitVec.eq_of_toNat_eq
  cases side with
  | bid => exact Int.ofNat_inj.mp h
  | ask => exact Int.ofNat_inj.mp (neg_inj.mp h)

theorem Side.absent_score_le (side : Side) (x : BitVec 64) :
    side.score side.absent ≤ side.score x :=
  (side.beats_eq_false_iff _ _).mp (side.beats_absent x)

namespace LevelArray

variable (l : LevelArray) (side : Side)

/-- The best price of the valid slots, or the value that stands for none. -/
def IsBest (best : BitVec 64) : Prop :=
  ((∃ i, l.valid i = true ∧ l.price i = best) ∧
      ∀ j, l.valid j = true → side.beats (l.price j) best = false) ∨
    ((∀ j, l.valid j = false) ∧ best = side.absent)

/-- Slot `i` beats slot `j`. -/
def Over (i j : Fin 8) : Prop := side.beats (l.leaf side.absent i) (l.leaf side.absent j) = true

/-- No slot beats slot `i`. -/
def Unbeaten (i : Fin 8) : Prop := ∀ j, ¬ l.Over side j i

/-- Of four slots the first beats the second and is unbeaten, or they do not get worse up to the
third and the fourth is unbeaten. -/
def BringsBest (i₀ i₁ i₂ i₃ : Fin 8) : Prop :=
  (l.Over side i₀ i₁ ∧ l.Unbeaten side i₀) ∨
    (¬ l.Over side i₀ i₁ ∧ ¬ l.Over side i₁ i₂ ∧ l.Unbeaten side i₃)

instance (i j : Fin 8) : Decidable (l.Over side i j) := inferInstanceAs (Decidable (_ = _))

instance (i : Fin 8) : Decidable (l.Unbeaten side i) := inferInstanceAs (Decidable (∀ _, _))

instance (i₀ i₁ i₂ i₃ : Fin 8) : Decidable (l.BringsBest side i₀ i₁ i₂ i₃) :=
  inferInstanceAs (Decidable (_ ∨ _))

instance (best : BitVec 64) : Decidable (l.IsBest side best) := inferInstanceAs (Decidable (_ ∨ _))

variable {l side} {i i₀ i₁ i₂ i₃ : Fin 8} {best : BitVec 64}

/-- The value no leaf beats is the best price. -/
theorem isBest_leaf_iff (hleaf : l.leaf side.absent i = best) :
    l.IsBest side best ↔ ∀ j, side.beats (l.leaf side.absent j) best = false := by
  constructor
  · rintro (⟨-, hall⟩ | ⟨hnone, rfl⟩) j
    · unfold leaf
      cases hj : l.valid j with
      | false => exact side.beats_absent best
      | true => exact hall j hj
    · rw [leaf, hnone j]
      exact side.beats_absent _
  · intro hall
    have hvalid : ∀ j, l.valid j = true → side.beats (l.price j) best = false := by
      intro j hj
      have hleaf_j := hall j
      rwa [leaf, hj, if_pos rfl] at hleaf_j
    by_cases hsome : ∃ j, l.valid j = true ∧ l.price j = best
    · exact .inl ⟨hsome, hvalid⟩
    · -- the leaf stands for no slot, and a valid slot would be as good
      have hinvalid : l.valid i = false := by
        refine Bool.eq_false_of_not_eq_true fun hi => hsome ⟨i, hi, ?_⟩
        rwa [leaf, hi, if_pos rfl] at hleaf
      rw [leaf, hinvalid, if_neg Bool.false_ne_true] at hleaf
      refine .inr ⟨fun j => Bool.eq_false_of_not_eq_true fun hj => hsome ⟨j, hj, ?_⟩, hleaf.symm⟩
      have hle := (side.beats_eq_false_iff _ _).mp (hvalid j hj)
      have hge := side.absent_score_le (l.price j)
      rw [hleaf] at hge
      exact side.score_injective (le_antisymm hle hge)

/-- A half of the tree yields one of its leaves. -/
theorem quad_mem (better : BitVec 64 → BitVec 64 → Bool) (absent : BitVec 64)
    (i₀ i₁ i₂ i₃ : Fin 8) :
    ∃ i, l.leaf absent i =
      quad better (l.leaf absent i₀) (l.leaf absent i₁) (l.leaf absent i₂) (l.leaf absent i₃) := by
  unfold quad
  split_ifs
  · exact ⟨i₀, rfl⟩
  · exact ⟨i₂, rfl⟩
  · exact ⟨i₃, rfl⟩

/-- A half of the tree yields an unbeaten leaf only through its first or its last input. -/
theorem quad_unbeaten_iff :
    (∀ j, side.beats (l.leaf side.absent j)
        (quad side.beats (l.leaf side.absent i₀) (l.leaf side.absent i₁) (l.leaf side.absent i₂)
          (l.leaf side.absent i₃)) = false) ↔ l.BringsBest side i₀ i₁ i₂ i₃ := by
  have hunbeaten : ∀ i, (∀ j, side.beats (l.leaf side.absent j) (l.leaf side.absent i) = false) ↔
      l.Unbeaten side i := fun i => forall_congr' fun j => (Bool.not_eq_true _).symm.to_iff
  have hquad : quad side.beats (l.leaf side.absent i₀) (l.leaf side.absent i₁)
      (l.leaf side.absent i₂) (l.leaf side.absent i₃) =
        if l.Over side i₀ i₁ then l.leaf side.absent i₀
        else if l.Over side i₁ i₂ then l.leaf side.absent i₂
        else l.leaf side.absent i₃ := rfl
  rw [hquad, BringsBest]
  by_cases h₀ : l.Over side i₀ i₁
  · -- the first leaf comes out
    rw [if_pos h₀, hunbeaten]
    exact ⟨fun h => .inl ⟨h₀, h⟩, fun h => h.elim And.right fun h => absurd h₀ h.1⟩
  · rw [if_neg h₀]
    by_cases h₁ : l.Over side i₁ i₂
    · -- the third leaf comes out when the second beats it
      rw [if_pos h₁, hunbeaten]
      refine iff_of_false (fun h => h i₁ h₁) ?_
      rintro (⟨h, -⟩ | ⟨-, h, -⟩)
      · exact h₀ h
      · exact h h₁
    · -- the fourth comes out unseen
      rw [if_neg h₁, hunbeaten]
      exact ⟨fun h => .inr ⟨h₀, h₁, h⟩, fun h => h.elim (fun h => absurd h.1 h₀) fun h => h.2.2⟩

/-- The tree yields the best price exactly if one of its halves does. -/
theorem tree_isBest_iff (l : LevelArray) (side : Side) :
    l.IsBest side (l.tree side.beats side.absent) ↔
      l.BringsBest side 0 1 2 3 ∨ l.BringsBest side 4 5 6 7 := by
  rw [← quad_unbeaten_iff, ← quad_unbeaten_iff, tree]
  obtain ⟨i, hi⟩ := quad_mem (l := l) side.beats side.absent 0 1 2 3
  obtain ⟨j, hj⟩ := quad_mem (l := l) side.beats side.absent 4 5 6 7
  generalize quad side.beats (l.leaf side.absent 0) (l.leaf side.absent 1) (l.leaf side.absent 2)
    (l.leaf side.absent 3) = low at hi ⊢
  generalize quad side.beats (l.leaf side.absent 4) (l.leaf side.absent 5) (l.leaf side.absent 6)
    (l.leaf side.absent 7) = high at hj ⊢
  simp only [Side.beats_iff, Side.beats_eq_false_iff]
  split_ifs with hlow
  · rw [isBest_leaf_iff hi]
    simp only [Side.beats_eq_false_iff]
    exact ⟨.inl, fun h => h.elim id fun h m => (h m).trans hlow.le⟩
  · rw [isBest_leaf_iff hj]
    simp only [Side.beats_eq_false_iff]
    exact ⟨.inr, fun h => h.elim (fun h m => (h m).trans (not_lt.mp hlow)) id⟩

end LevelArray

/-- **The selection trees.** They select the best prices of a book exactly if on each side, among
the first four slots or the last four, the first beats the second and is unbeaten, or the first
three do not get worse and the last is unbeaten. -/
theorem best_combos_iff (bids asks : LevelArray) :
    (bids.IsBest .bid bids.bestBidCombo ∧ asks.IsBest .ask asks.bestAskCombo) ↔
      (bids.BringsBest .bid 0 1 2 3 ∨ bids.BringsBest .bid 4 5 6 7) ∧
        (asks.BringsBest .ask 0 1 2 3 ∨ asks.BringsBest .ask 4 5 6 7) :=
  and_congr (bids.tree_isBest_iff .bid) (asks.tree_isBest_iff .ask)

/-- Bids of 100 and 200 in the order in which the slots are taken. -/
def twoBidLevels : LevelArray where
  valid i := 6 ≤ i.val
  price i := if i.val = 7 then 100 else 200
  qty _ := 10

/-- The 100 is selected. -/
theorem twoBidLevels_best :
    twoBidLevels.bestBidCombo = 100 ∧
      ¬ (twoBidLevels.IsBest .bid twoBidLevels.bestBidCombo ∧
        LevelArray.cleared.IsBest .ask LevelArray.cleared.bestAskCombo) := by
  refine ⟨by decide, fun h => ?_⟩
  exact absurd h.1 (by decide)

end HftKr260
