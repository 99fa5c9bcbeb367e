import HftKr260.Rtl.LevelMap
import HftKr260.Rtl.Publication

/-!
# Quantities at the top of book

`best_bid_qty` and `best_ask_qty` are output registers, and `best_bid_qty_combo` and
`best_ask_qty_combo` are declared to feed them, but no block assigns any of the four. The
change detector compares prices only.

So a quantity at the best price is what the registers powered up with, or it is not shown; and
a message that changes only that quantity is announced when a message within the next cycles
happens to find an older change of the prices.

## Main results

* `bestQty_orderBook` — the quantities shown never change
* `best_quantities_iff` — when the best quantities are published
-/

set_option autoImplicit false

namespace HftKr260

open Foundation

namespace OrderBookEngine

/-- The best quantity shown for a side. -/
def bestQty (s : OrderBookEngine) : Side → BitVec 32
  | .bid => s.bestBidQty
  | .ask => s.bestAskQty

/-- A valid slot at the best price shown holds the quantity shown. -/
def ShowsQuantity (s : OrderBookEngine) (side : Side) : Prop :=
  ∃ i, (s.levels side).valid i = true ∧ (s.levels side).price i = s.bestPrice side ∧
    (s.levels side).qty i = s.bestQty side

instance (s : OrderBookEngine) (side : Side) : Decidable (s.ShowsQuantity side) :=
  inferInstanceAs (Decidable (∃ _, _))

/-- The best price the scan of a side finds. -/
def found (s : OrderBookEngine) (side : Side) : BitVec 64 :=
  (s.levels side).tree side.beats side.absent

end OrderBookEngine

/-- The levels differ in the quantity of one valid slot at this price. -/
def LevelArray.QuantityOnly (l l' : LevelArray) (price : BitVec 64) : Prop :=
  ∃ i, l.valid i = true ∧ l.price i = price ∧ l'.qty i ≠ l.qty i ∧
    l' = { l with qty := Function.update l.qty i (l'.qty i) }

section Run

variable (powerUp : OrderBookEngine) (input : ℕ → EngineIn)

/-- The levels of a cycle are still there in the three cycles behind it. -/
def Quiet (s : ℕ) : Prop :=
  ∀ side, ∀ d ≤ 3, (orderBook powerUp input (s + d)).levels side =
    (orderBook powerUp input s).levels side

/-- A message changes a quantity at the best price of its side, and nothing else. -/
structure ChangesQuantity (c : ℕ) (side : Side) : Prop where
  arrives : (input c).inValid = true
  here : ((orderBook powerUp input c).levels side).QuantityOnly
    ((orderBook powerUp input (c + 1)).levels side) ((orderBook powerUp input c).found side)
  elsewhere : ∀ other, other ≠ side →
    (orderBook powerUp input (c + 1)).levels other = (orderBook powerUp input c).levels other

/-- In every state with both sides filled whose levels have not changed for three cycles, the
quantities shown are those at the best prices, and the changes of such a quantity before it have
been announced, each within three cycles. -/
def PublishesQuantities : Prop :=
  ∀ s, Quiet powerUp input s → (orderBook powerUp input (s + 3)).tobValid = true →
    (∀ side, (orderBook powerUp input (s + 3)).ShowsQuantity side) ∧
      ∀ c < s, ∀ side, ChangesQuantity powerUp input c side →
        ∃ d, c < d ∧ d ≤ c + 3 ∧ (orderBook powerUp input d).tobChanged = true

/-- A side holds, at the price that is found best, the quantity the register powered up with. -/
def HoldsPowerUp (s : ℕ) (side : Side) : Prop :=
  ∃ i, ((orderBook powerUp input s).levels side).valid i = true ∧
    ((orderBook powerUp input s).levels side).price i = (orderBook powerUp input s).found side ∧
    ((orderBook powerUp input s).levels side).qty i = powerUp.bestQty side

/-- No block drives the best quantities. -/
theorem bestQty_orderBook (side : Side) (t : ℕ) :
    (orderBook powerUp input t).bestQty side = powerUp.bestQty side := by
  induction t with
  | zero => cases side <;> rfl
  | succ t ih =>
    rw [← ih, orderBook_succ]
    cases side <;> rfl

variable {powerUp input} {s : ℕ}

/-- Behind quiet levels both sides are valid if both have a level, and the best prices shown are
those found. -/
theorem Quiet.outputs (h : Quiet powerUp input s) :
    ((orderBook powerUp input (s + 3)).tobValid = true ↔
        ∀ side, ((orderBook powerUp input s).levels side).anyValid = true) ∧
      ∀ side, (orderBook powerUp input (s + 3)).bestPrice side =
        (orderBook powerUp input s).found side := by
  -- the scan is registered in one cycle and shown in the next
  have hnext := (orderBook powerUp input (s + 1)).next_next_outputs (input (s + 1)) (input (s + 2))
  have hlevels (side : Side) := h side 1 (by omega)
  refine ⟨hnext.1.trans ?_, fun side => (hnext.2 side).trans ?_⟩
  · simp only [hlevels]
  · rw [hlevels side]
    rfl

theorem Quiet.showsQuantity_iff (h : Quiet powerUp input s) (side : Side) :
    (orderBook powerUp input (s + 3)).ShowsQuantity side ↔ HoldsPowerUp powerUp input s side := by
  rw [OrderBookEngine.ShowsQuantity, h side 3 (le_refl 3), h.outputs.2 side, bestQty_orderBook]
  rfl

end Run

/-- A pulse within three cycles of a message is that message or one of the next two finding a
change. -/
theorem exists_tobChanged_iff (powerUp : OrderBookEngine) (input : ℕ → EngineIn) (c : ℕ) :
    (∃ d, c < d ∧ d ≤ c + 3 ∧ (orderBook powerUp input d).tobChanged = true) ↔
      ∃ m, c ≤ m ∧ m ≤ c + 2 ∧ FindsChange powerUp input m := by
  constructor
  · rintro ⟨d, hcd, hd, hchanged⟩
    obtain ⟨m, rfl⟩ := Nat.exists_eq_succ_of_ne_zero (Nat.ne_zero_of_lt hcd)
    exact ⟨m, by omega, by omega, (tobChanged_succ_iff powerUp input m).mp hchanged⟩
  · rintro ⟨m, hcm, hm, hfinds⟩
    exact ⟨m + 1, by omega, by omega, (tobChanged_succ_iff powerUp input m).mpr hfinds⟩

/-- **Best quantities** are published exactly if in every quiet state with both sides filled each
side holds at its best price the quantity the register powered up with, and every message that
changed only a quantity at a best price, or one of the two cycles behind it, found a change of
the prices from before. -/
theorem best_quantities_iff (powerUp : OrderBookEngine) (input : ℕ → EngineIn) :
    PublishesQuantities powerUp input ↔
      ∀ s, Quiet powerUp input s →
        (∀ side, ((orderBook powerUp input s).levels side).anyValid = true) →
        (∀ side, HoldsPowerUp powerUp input s side) ∧
          ∀ c < s, ∀ side, ChangesQuantity powerUp input c side →
            ∃ m, c ≤ m ∧ m ≤ c + 2 ∧ FindsChange powerUp input m := by
  refine forall_congr' fun s => forall_congr' fun hquiet => ?_
  rw [hquiet.outputs.1]
  refine forall_congr' fun _ => and_congr ?_ ?_
  · exact forall_congr' hquiet.showsQuantity_iff
  · exact forall_congr' fun c => forall_congr' fun _ => forall_congr' fun side =>
      forall_congr' fun _ => exists_tobChanged_iff powerUp input c

/-- A cycle of the engine's input. -/
def engineCycle (inValid inSide : Bool) (inPrice : BitVec 64) (inQuantity : BitVec 32) :
    EngineIn where
  inValid := inValid
  inMsgType := 0
  inSide := inSide
  inOrderRef := 0
  inQuantity := inQuantity
  inPrice := inPrice
  inTimestamp := 0

/-- A bid of 10 at 100, an ask at 200, and twice 5 more at the bid. -/
def growingBid : List EngineIn :=
  [engineCycle false false 0 0, engineCycle true false 100 10, engineCycle true true 200 10,
    engineCycle false false 100 0, engineCycle true false 100 5, engineCycle false false 100 0,
    engineCycle true false 100 5]

theorem quiet_growingBid : Quiet default (enginePlayback growingBid) 7 := by
  intro side d _
  exact levels_of_quiet _ _ side (Nat.le_add_right 7 d) fun b hb _ => enginePlayback_idle hb

/-- The bid holds 20 and shows 0, and the last 5 are not announced. -/
theorem growingBid_unpublished :
    (orderBook default (enginePlayback growingBid) 10).bestBidPrice = 100 ∧
      (orderBook default (enginePlayback growingBid) 10).bids.qty 7 = 20 ∧
      (orderBook default (enginePlayback growingBid) 10).bestBidQty = 0 ∧
      (∀ d, 6 < d → d ≤ 9 →
        (orderBook default (enginePlayback growingBid) d).tobChanged = false) ∧
      ¬ PublishesQuantities default (enginePlayback growingBid) := by
  refine ⟨by decide +kernel, by decide +kernel, by decide +kernel, ?_, fun h => ?_⟩
  · intro d hlo hhi
    interval_cases d <;> decide +kernel
  · obtain ⟨hshows, -⟩ := h 7 quiet_growingBid (by decide +kernel)
    have hbid := hshows .bid
    revert hbid
    decide +kernel

end HftKr260
