import HftKr260.Foundation.Bytes
import HftKr260.Foundation.Clocked
import Mathlib.Data.List.FinRange
import Mathlib.Logic.Function.Basic

/-!
# order_book_engine

The last stage of the datapath: a book of eight price levels a side. Every cycle scans
the levels for the incoming price, for a free slot and for the best price, and registers
what it found; a message updates the book by the registered indices of the cycle before.

The two sides are mirror images, so a side's three arrays are one `LevelArray` and each
block of a side is one function applied to that side's registers. `next` is all clocked
blocks. Registers the source leaves out of the reset keep their power-up value through
`reset`, and the two best quantities, which no block drives, keep it forever.
-/

set_option autoImplicit false

namespace HftKr260

open Foundation

/-- The valid, price and quantity arrays of one side. -/
structure LevelArray where
  valid : Fin 8 → Bool
  price : Fin 8 → BitVec 64
  qty : Fin 8 → BitVec 32
  deriving Inhabited

/-- What the parser hands over in one cycle. -/
structure EngineIn where
  inValid : Bool
  inMsgType : BitVec 4
  inSide : Bool
  inOrderRef : BitVec 64
  inQuantity : BitVec 32
  inPrice : BitVec 64
  inTimestamp : BitVec 64
  deriving DecidableEq, Repr

/-- The registers of `order_book_engine`. -/
structure OrderBookEngine where
  bids : LevelArray
  asks : LevelArray
  bidMatchR : BitVec 4
  bidEmptyR : BitVec 4
  askMatchR : BitVec 4
  askEmptyR : BitVec 4
  bestBidR : BitVec 64
  bestAskR : BitVec 64
  anyBidR : Bool
  anyAskR : Bool
  prevBestBid : BitVec 64
  prevBestAsk : BitVec 64
  tobChanged : Bool
  tobValid : Bool
  bestBidPrice : BitVec 64
  bestBidQty : BitVec 32
  bestAskPrice : BitVec 64
  bestAskQty : BitVec 32
  spread : BitVec 64
  lastUpdateTs : BitVec 64
  crossedBook : Bool
  deriving Inhabited

namespace LevelArray

/-- All slots invalid. -/
def cleared : LevelArray where
  valid := fun _ => false
  price := fun _ => 0
  qty := fun _ => 0

variable (l : LevelArray)

/-! ### Stage 0: the combinational scan -/

/-- `match_idx`: the last valid slot with this price, or `N_LEVELS`. -/
def matchIdx (inPrice : BitVec 64) : BitVec 4 :=
  (List.finRange 8).foldl
    (fun idx i =>
      if l.valid i then (if l.price i = inPrice then BitVec.ofNat 4 i else idx) else idx)
    8

/-- `empty_idx`: the last invalid slot, or `N_LEVELS`. -/
def emptyIdx : BitVec 4 :=
  (List.finRange 8).foldl (fun idx i => if l.valid i then idx else BitVec.ofNat 4 i) 8

/-- `any_valid`. -/
def anyValid : Bool :=
  (List.finRange 8).foldl (fun any i => if l.valid i then true else any) false

/-- The inputs `b0` to `b7` and `a0` to `a7` of the trees. -/
def leaf (absent : BitVec 64) (i : Fin 8) : BitVec 64 := if l.valid i then l.price i else absent

/-- `x0>x1?x0:x1 > x2?x2:x3`. The conditional binds weaker than the comparison and to the
right, so this is `x0>x1 ? x0 : (x1>x2 ? x2 : x3)`. -/
def quad (better : BitVec 64 → BitVec 64 → Bool) (x0 x1 x2 x3 : BitVec 64) : BitVec 64 :=
  if better x0 x1 then x0 else if better x1 x2 then x2 else x3

/-- The unrolled tree over the eight slots. -/
def tree (better : BitVec 64 → BitVec 64 → Bool) (absent : BitVec 64) : BitVec 64 :=
  let low := quad better (l.leaf absent 0) (l.leaf absent 1) (l.leaf absent 2) (l.leaf absent 3)
  let high := quad better (l.leaf absent 4) (l.leaf absent 5) (l.leaf absent 6) (l.leaf absent 7)
  if better low high then low else high

/-- `best_bid_combo`. -/
def bestBidCombo : BitVec 64 := l.tree (fun x y => decide (y < x)) 0

/-- `best_ask_combo`. -/
def bestAskCombo : BitVec 64 := l.tree (fun x y => decide (x < y)) (BitVec.allOnes 64)

/-! ### Stage 2: the update -/

/-- The slot an index register below `N_LEVELS` addresses. -/
def slotOf (idx : BitVec 4) : Fin 8 := Fin.ofNat 8 idx.toNat

/-- The update of one side by a message for it. -/
def write (matchR emptyR inMsgType : BitVec 4) (inQuantity : BitVec 32) (inPrice : BitVec 64) :
    LevelArray :=
  -- ADD
  if inMsgType = 0 then
    if matchR < 8 then
      { l with qty := Function.update l.qty (slotOf matchR) (l.qty (slotOf matchR) + inQuantity) }
    else if emptyR < 8 then
      { valid := Function.update l.valid (slotOf emptyR) true
        price := Function.update l.price (slotOf emptyR) inPrice
        qty := Function.update l.qty (slotOf emptyR) inQuantity }
    else l
  -- UPDATE / EXEC
  else if inMsgType = 1 ∨ inMsgType = 3 then
    if matchR < 8 then
      if l.qty (slotOf matchR) ≤ inQuantity then
        { l with valid := Function.update l.valid (slotOf matchR) false }
      else
        { l with qty := Function.update l.qty (slotOf matchR) (l.qty (slotOf matchR) - inQuantity) }
    else l
  -- DELETE
  else if inMsgType = 2 then
    if matchR < 8 then { l with valid := Function.update l.valid (slotOf matchR) false } else l
  else l

end LevelArray

namespace OrderBookEngine

/-- Reset. `best_*_price`, `best_*_qty`, `spread`, `last_update_ts` and `crossed_book` are
not part of it. -/
def reset (s : OrderBookEngine) : OrderBookEngine :=
  { s with
    bids := .cleared
    asks := .cleared
    bidMatchR := 8
    bidEmptyR := 8
    askMatchR := 8
    askEmptyR := 8
    bestBidR := 0
    bestAskR := 0
    anyBidR := false
    anyAskR := false
    prevBestBid := 0
    prevBestAsk := BitVec.allOnes 64
    tobChanged := false
    tobValid := false }

/-- The clocked blocks outside reset. -/
def next (s : OrderBookEngine) (i : EngineIn) : OrderBookEngine where
  -- stage 1
  bidMatchR := s.bids.matchIdx i.inPrice
  bidEmptyR := s.bids.emptyIdx
  askMatchR := s.asks.matchIdx i.inPrice
  askEmptyR := s.asks.emptyIdx
  bestBidR := s.bids.bestBidCombo
  bestAskR := s.asks.bestAskCombo
  anyBidR := s.bids.anyValid
  anyAskR := s.asks.anyValid
  -- stage 2: the indices are those of the cycle before
  bids :=
    if i.inValid && !i.inSide then
      s.bids.write s.bidMatchR s.bidEmptyR i.inMsgType i.inQuantity i.inPrice
    else s.bids
  asks :=
    if i.inValid && i.inSide then
      s.asks.write s.askMatchR s.askEmptyR i.inMsgType i.inQuantity i.inPrice
    else s.asks
  tobChanged :=
    i.inValid && (s.bestBidR != s.prevBestBid || s.bestAskR != s.prevBestAsk)
  prevBestBid := if i.inValid then s.bestBidR else s.prevBestBid
  prevBestAsk := if i.inValid then s.bestAskR else s.prevBestAsk
  lastUpdateTs := if i.inValid then i.inTimestamp else s.lastUpdateTs
  -- output registers
  tobValid := s.anyBidR && s.anyAskR
  bestBidPrice := s.bestBidR
  bestAskPrice := s.bestAskR
  crossedBook := s.anyBidR && s.anyAskR && decide (s.bestAskR ≤ s.bestBidR)
  spread := if s.anyBidR && s.anyAskR then s.bestAskR - s.bestBidR else 0
  bestBidQty := s.bestBidQty
  bestAskQty := s.bestAskQty

end OrderBookEngine

/-- The engine alone, on any input. -/
def orderBook (powerUp : OrderBookEngine) (input : ℕ → EngineIn) : ℕ → OrderBookEngine :=
  Clocked.run OrderBookEngine.next powerUp.reset input

theorem orderBook_succ (powerUp : OrderBookEngine) (input : ℕ → EngineIn) (t : ℕ) :
    orderBook powerUp input (t + 1) = (orderBook powerUp input t).next (input t) := rfl

end HftKr260
