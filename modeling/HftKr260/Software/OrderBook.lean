import Mathlib.Data.Fin.Basic
import Mathlib.Data.List.FinRange
import Mathlib.Data.Int.ModEq
import Mathlib.Logic.Function.Basic

/-!
# The price-level order book

The aggregated book of one instrument: per side an array of `Capacity` price levels,
addressed by the low bits of the price, and the best level of each side kept beside it
behind a seqlock. Prices are tick counts. A price whose slot holds another price is
dropped; the caller is expected to keep to one price window.

`Capacity` is a power of two that fits `std::size_t`, so a book is indexed by its
exponent. `Price` and `Quantity` are both `int64_t`, order counts `int32_t`; all three are
integers here, and `int64` and `int32` bring the result of an addition back into the
field's range.
-/

set_option autoImplicit false

namespace HftKr260

/-- The `int64_t` value congruent to `x`. -/
def int64 (x : ℤ) : ℤ := x.bmod (2 ^ 64)

/-- The `int32_t` value congruent to `x`. -/
def int32 (x : ℤ) : ℤ := x.bmod (2 ^ 32)

/-- `std::numeric_limits<Price>::min()`, the price of an unused level. -/
def nullPrice : ℤ := -2 ^ 63

/-- One aggregated price point; the default value is the unused level. -/
structure PriceLevel where
  price : ℤ := nullPrice
  quantity : ℤ := 0
  orders : ℤ := 0
  deriving DecidableEq, Repr

/-- A level is empty when no quantity rests on it. -/
def PriceLevel.Empty (lv : PriceLevel) : Prop := lv.quantity ≤ 0

instance (lv : PriceLevel) : Decidable lv.Empty := inferInstanceAs (Decidable (_ ≤ _))

theorem PriceLevel.empty_default : PriceLevel.Empty {} := le_refl (0 : ℤ)

/-- The writer's sequence counter: odd while a write is in progress. -/
structure Seqlock where
  seq : BitVec 64 := 0
  deriving DecidableEq, Repr

namespace Seqlock

/-- Enter the write section. -/
def writeBegin (l : Seqlock) : Seqlock := { seq := l.seq + 1 }

/-- Leave the write section. -/
def writeEnd (l : Seqlock) : Seqlock := { seq := l.seq + 1 }

/-- The sequence number a reader starts from. On an odd number the reader spins: with
no writer running the number never changes, and there is no result. -/
def readBegin (l : Seqlock) : Option (BitVec 64) :=
  if l.seq &&& 1 = 0 then some l.seq else none

/-- The reader starts over when the number moved. -/
def readRetry (l : Seqlock) (s : BitVec 64) : Bool := l.seq != s

end Seqlock

/-- The best bid and ask. -/
structure TopOfBook where
  bid : PriceLevel := {}
  ask : PriceLevel := {}
  deriving DecidableEq, Repr

inductive Side
  | bid
  | ask
  deriving DecidableEq, Repr

/-- The top-of-book entry of one side. -/
def TopOfBook.level (t : TopOfBook) : Side → PriceLevel
  | .bid => t.bid
  | .ask => t.ask

/-- An order book with `Capacity = 2 ^ k` price slots a side. -/
structure OrderBook (k : Fin 64) where
  bids : Fin (2 ^ k.val) → PriceLevel := fun _ => {}
  asks : Fin (2 ^ k.val) → PriceLevel := fun _ => {}
  tobLock : Seqlock := {}
  tob : TopOfBook := {}

/-- `price & MASK`: the two's complement bits of the price under the capacity mask. -/
def slot (k : Fin 64) (price : ℤ) : Fin (2 ^ k.val) :=
  ⟨(BitVec.ofInt 64 price).toNat &&& (2 ^ k.val - 1),
    Nat.lt_of_le_of_lt Nat.and_le_right (Nat.sub_lt (Nat.two_pow_pos _) Nat.one_pos)⟩

namespace OrderBook

variable {k : Fin 64}

/-- The price array of one side. -/
def levels (b : OrderBook k) : Side → Fin (2 ^ k.val) → PriceLevel
  | .bid => b.bids
  | .ask => b.asks

/-- Store one slot of one side. -/
def setLevel (b : OrderBook k) (side : Side) (i : Fin (2 ^ k.val)) (lv : PriceLevel) :
    OrderBook k :=
  match side with
  | .bid => { b with bids := Function.update b.bids i lv }
  | .ask => { b with asks := Function.update b.asks i lv }

/-- The re-scan of one side: keep the first non-empty level seen, then every non-empty
level that is better than the one kept. -/
def scanBest (better : ℤ → ℤ → Bool) (levels : Fin (2 ^ k.val) → PriceLevel) :
    PriceLevel :=
  (List.finRange (2 ^ k.val)).foldl
    (fun best i =>
      if ¬ (levels i).Empty then
        -- the unused level stands for "nothing seen yet"
        if best.price = nullPrice ∨ better (levels i).price best.price then levels i else best
      else best)
    {}

/-- Re-scan one side and publish its best level under the seqlock. -/
def refreshTop (b : OrderBook k) (side : Side) : OrderBook k :=
  match side with
  | .bid =>
      let best := scanBest (fun price best => decide (price > best)) b.bids
      { b with tobLock := b.tobLock.writeBegin.writeEnd, tob := { b.tob with bid := best } }
  | .ask =>
      let best := scanBest (fun price best => decide (price < best)) b.asks
      { b with tobLock := b.tobLock.writeBegin.writeEnd, tob := { b.tob with ask := best } }

/-- Change the quantity and the order count at a price level. -/
def updateLevel (b : OrderBook k) (side : Side) (price : ℤ) (qtyDelta : ℤ)
    (orderDelta : ℤ) : OrderBook k :=
  let i := slot k price
  let lv := b.levels side i
  let written :=
    -- a slot taken by another price drops the write
    if lv.price = nullPrice ∨ lv.price = price then
      let lv' : PriceLevel :=
        { price := price
          quantity := int64 (lv.quantity + qtyDelta)
          orders := int32 (lv.orders + orderDelta) }
      if lv'.quantity ≤ 0 then b.setLevel side i {} else b.setLevel side i lv'
    else b
  written.refreshTop side

/-- Remove a level entirely. -/
def removeLevel (b : OrderBook k) (side : Side) (price : ℤ) : OrderBook k :=
  let i := slot k price
  -- only the price's own level is removed
  let written := if (b.levels side i).price = price then b.setLevel side i {} else b
  written.refreshTop side

/-- Drop every level of both sides. -/
def reset (b : OrderBook k) : OrderBook k :=
  { bids := fun _ => {}
    asks := fun _ => {}
    tobLock := b.tobLock.writeBegin.writeEnd
    tob := {} }

/-- The constructor resets the default-initialised storage. -/
def fresh : OrderBook k := reset {}

/-- The seqlock-protected read with no writer running: one pass of the loop. -/
def topOfBookSnapshot (b : OrderBook k) : Option TopOfBook := do
  let seq ← b.tobLock.readBegin
  let snapshot := b.tob
  if b.tobLock.readRetry seq then none else some snapshot

end OrderBook

end HftKr260
