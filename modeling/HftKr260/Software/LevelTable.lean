import HftKr260.Foundation.DirectMap
import HftKr260.Software.OrderBook
import Mathlib.Data.List.Induction
import Mathlib.Data.Prod.Lex

/-!
# The book as two direct-mapped tables

A side of the book is a direct-mapped table from prices to a quantity and an order
count: an unused level is a free slot. This module states what each write does to the
two tables, the representation invariant all writes keep, and what the published top of
book is in terms of them.

## Main definitions

* `OrderBook.table` — one side as a direct-mapped table
* `OrderBook.entryAt` — the quantity and order count recorded for one price
* `OrderBook.WellFormed` — the representation invariant
* `IsBest` — a level is the best entry of a price-keyed map

## Main results

* `table_updateLevel`, `table_removeLevel` — the writes are `DirectMap.alter`
* `WellFormed.updateLevel`, `WellFormed.removeLevel`, `wellFormed_reset`
* `leads_bestLevel` — the scan shows the first of the non-empty slots by rank
* `WellFormed.isBest` — the snapshot shows the best entry of each side
-/

set_option autoImplicit false

namespace HftKr260

open Foundation

/-! ### Field arithmetic -/

theorem int64_of_fits {x : ℤ} (hlo : -2 ^ 63 ≤ x) (hhi : x < 2 ^ 63) : int64 x = x := by
  unfold int64
  exact Int.bmod_eq_of_le (by omega) (by omega)

/-- A quantity that fits the 32-bit field of a message. -/
def QtyFits (q : ℤ) : Prop := 0 ≤ q ∧ q < 2 ^ 32

theorem qtyFits_toNat (q : BitVec 32) : QtyFits q.toNat :=
  ⟨Int.natCast_nonneg _, by exact_mod_cast q.isLt⟩

/-- Differences of such quantities are far from the ends of `int64_t`. -/
theorem int64_sub_of_qtyFits {q q' : ℤ} (h : QtyFits q) (h' : QtyFits q') :
    int64 (q - q') = q - q' := by
  obtain ⟨hlo, hhi⟩ := h
  obtain ⟨hlo', hhi'⟩ := h'
  exact int64_of_fits (by omega) (by omega)

theorem int64_neg_of_qtyFits {q : ℤ} (h : QtyFits q) : int64 (-q) = -q := by
  obtain ⟨hlo, hhi⟩ := h
  exact int64_of_fits (by omega) (by omega)

theorem int32_of_fits {x : ℤ} (hlo : -2 ^ 31 ≤ x) (hhi : x < 2 ^ 31) : int32 x = x := by
  unfold int32
  exact Int.bmod_eq_of_le (by omega) (by omega)

theorem int32_lt (x : ℤ) : int32 x < 2 ^ 31 := by
  have h : x.bmod (2 ^ 32) < ((2 ^ 32 : ℕ) + 1) / 2 := Int.bmod_lt (by decide)
  unfold int32
  omega

/-- Above the lower end of the range wrapping can only lose: an overflow comes out
negative. -/
theorem int64_le {x : ℤ} (hlo : -2 ^ 63 ≤ x) : int64 x ≤ x := by
  unfold int64
  rw [Int.bmod_def]
  split_ifs <;> omega

/-! ### Price preference -/

/-- The scan key of a side: the better price has the greater key. -/
def Side.key : Side → ℤ → ℤ
  | .bid => fun p => p
  | .ask => fun p => -p

theorem Side.key_injective (side : Side) : Function.Injective side.key := by
  intro p q h
  cases side with
  | bid => exact h
  | ask => exact neg_inj.mp h

/-- `p` is at least as good a price as `q`: as high a bid, as low an ask. -/
def Side.AtLeast (side : Side) (p q : ℤ) : Prop := side.key q ≤ side.key p

/-- The place of a price in a scan: the sentinel comes behind every other price. -/
def Side.rank (side : Side) (p : ℤ) : ℕ ×ₗ ℤ :=
  toLex (if p = nullPrice then (0, 0) else (1, side.key p))

theorem Side.rank_le_iff {side : Side} {p q : ℤ} (hp : p ≠ nullPrice) (hq : q ≠ nullPrice) :
    side.rank p ≤ side.rank q ↔ side.key p ≤ side.key q := by
  rw [rank, rank, if_neg hp, if_neg hq, Prod.Lex.toLex_le_toLex]
  simp

theorem Side.rank_lt_iff {side : Side} {p q : ℤ} :
    side.rank p < side.rank q ↔
      q ≠ nullPrice ∧ (p = nullPrice ∨ side.key p < side.key q) := by
  rw [rank, rank, Prod.Lex.toLex_lt_toLex]
  split_ifs with hp hq hq <;> simp [hp, hq]

theorem Side.rank_nullPrice_le (side : Side) (p : ℤ) : side.rank nullPrice ≤ side.rank p := by
  refine not_lt.mp fun h => ?_
  exact (rank_lt_iff.mp h).1 rfl

/-- `lv` is the best entry of a price-keyed map, or the unused level if there is none. -/
def IsBest (side : Side) (m : ℤ → Option (ℤ × ℤ)) (lv : PriceLevel) : Prop :=
  (lv = {} ∧ ∀ p, m p = none) ∨
    (m lv.price = some (lv.quantity, lv.orders) ∧ ∀ p, m p ≠ none → side.AtLeast lv.price p)

namespace OrderBook

variable {k : Fin 64} {b : OrderBook k} {side other : Side} {p q : ℤ}

/-! ### Fields after a write -/

@[simp] theorem levels_setLevel_self (i : Fin (2 ^ k.val)) (lv : PriceLevel) :
    (b.setLevel side i lv).levels side = Function.update (b.levels side) i lv := by
  cases side <;> rfl

theorem levels_setLevel_of_ne (h : other ≠ side) (i : Fin (2 ^ k.val)) (lv : PriceLevel) :
    (b.setLevel side i lv).levels other = b.levels other := by
  cases side <;> cases other <;> first | rfl | exact absurd rfl h

@[simp] theorem tob_setLevel (i : Fin (2 ^ k.val)) (lv : PriceLevel) :
    (b.setLevel side i lv).tob = b.tob := by
  cases side <;> rfl

@[simp] theorem tobLock_setLevel (i : Fin (2 ^ k.val)) (lv : PriceLevel) :
    (b.setLevel side i lv).tobLock = b.tobLock := by
  cases side <;> rfl

@[simp] theorem levels_refreshTop : (b.refreshTop side).levels other = b.levels other := by
  cases side <;> cases other <;> rfl

@[simp] theorem tobLock_refreshTop :
    (b.refreshTop side).tobLock = b.tobLock.writeBegin.writeEnd := by
  cases side <;> rfl

/-- The scan of one side, in the direction of that side. -/
def bestLevel (side : Side) (levels : Fin (2 ^ k.val) → PriceLevel) : PriceLevel :=
  scanBest (fun price best => decide (side.key best < side.key price)) levels

@[simp] theorem tob_refreshTop_self :
    (b.refreshTop side).tob.level side = bestLevel side (b.levels side) := by
  cases side with
  | bid => rfl
  | ask => simp [refreshTop, TopOfBook.level, bestLevel, Side.key, levels]

theorem tob_refreshTop_of_ne (h : other ≠ side) :
    (b.refreshTop side).tob.level other = b.tob.level other := by
  cases side <;> cases other <;> first | rfl | exact absurd rfl h

/-! ### Sides as tables -/

/-- The table entry a level stands for. -/
def entry (lv : PriceLevel) : Option (ℤ × ℤ × ℤ) :=
  if lv.price = nullPrice then none else some (lv.price, lv.quantity, lv.orders)

/-- One side of the book as a direct-mapped table. -/
def table (b : OrderBook k) (side : Side) : DirectMap (Fin (2 ^ k.val)) ℤ (ℤ × ℤ) :=
  fun i => entry (b.levels side i)

/-- The quantity and order count the book records for a price. -/
def entryAt (b : OrderBook k) (side : Side) (p : ℤ) : Option (ℤ × ℤ) :=
  DirectMap.lookup (slot k) (b.table side) p

/-- The level a price finds in the array: its slot's, if that slot holds the price. -/
def levelAt (b : OrderBook k) (side : Side) (p : ℤ) : PriceLevel :=
  if (b.levels side (slot k p)).price = p then b.levels side (slot k p) else {}

/-- What `updateLevel` makes of the entry of its price. -/
def bump (qtyDelta : ℤ) (orderDelta : ℤ) (old : Option (ℤ × ℤ)) :
    Option (ℤ × ℤ) :=
  let e := old.getD (0, 0)
  if int64 (e.1 + qtyDelta) ≤ 0 then none
  else some (int64 (e.1 + qtyDelta), int32 (e.2 + orderDelta))

@[simp] theorem entry_default : entry {} = none := rfl

/-- A slot is either unused or holds a positive quantity at a price of its own. -/
def SlotOk (i : Fin (2 ^ k.val)) (lv : PriceLevel) : Prop :=
  lv = {} ∨ (slot k lv.price = i ∧ lv.price ≠ nullPrice ∧ 0 < lv.quantity)

/-- The representation invariant of a book between two writes. -/
structure WellFormed (b : OrderBook k) : Prop where
  slots : ∀ side i, SlotOk i (b.levels side i)
  top : ∀ side, b.tob.level side = bestLevel side (b.levels side)
  idle : b.tobLock.seq.toNat % 2 = 0

theorem SlotOk.entry_eq_some {i : Fin (2 ^ k.val)} {lv : PriceLevel} (h : SlotOk i lv)
    {e : ℤ × ℤ × ℤ} :
    entry lv = some e ↔ lv = { price := e.1, quantity := e.2.1, orders := e.2.2 } ∧ ¬ lv.Empty := by
  rcases h with rfl | ⟨-, hprice, hpos⟩
  · simp [PriceLevel.Empty]
  · obtain ⟨price, qty, n⟩ := e
    obtain ⟨price', qty', n'⟩ := lv
    simp_all [entry, PriceLevel.Empty]

theorem WellFormed.placed (h : b.WellFormed) (side : Side) :
    DirectMap.Placed (slot k) (b.table side) := by
  intro i p e hi
  rcases h.slots side i with hlv | ⟨hslot, hprice, -⟩
  · simp [table, hlv] at hi
  · simp only [table, entry, hprice, if_false, Option.some.injEq, Prod.mk.injEq] at hi
    rwa [← hi.1]

/-- Recorded quantities are positive. -/
theorem WellFormed.entryAt_pos (h : b.WellFormed) {e : ℤ × ℤ}
    (he : b.entryAt side p = some e) : 0 < e.1 := by
  rw [entryAt, DirectMap.lookup_eq_some] at he
  obtain ⟨hlv, hpos⟩ := (h.slots side (slot k p)).entry_eq_some.mp he
  rw [hlv] at hpos
  exact not_le.mp hpos

/-- The entries of a side are its non-empty slots. -/
theorem WellFormed.entryAt_eq_some (h : b.WellFormed) {qty : ℤ} {n : ℤ} :
    b.entryAt side p = some (qty, n) ↔
      ∃ i, b.levels side i = { price := p, quantity := qty, orders := n } ∧
        ¬ (b.levels side i).Empty := by
  rw [entryAt, DirectMap.lookup_eq_some_iff (h.placed side)]
  exact exists_congr fun i => (h.slots side i).entry_eq_some

/-- The level of a price shows the recorded entry. -/
theorem WellFormed.levelAt_eq (h : b.WellFormed) (side : Side) (p : ℤ) :
    ((b.levelAt side p).quantity, (b.levelAt side p).orders) = (b.entryAt side p).getD (0, 0) := by
  unfold levelAt
  cases he : b.entryAt side p with
  | some e =>
    rw [entryAt, DirectMap.lookup_eq_some] at he
    rw [((h.slots side (slot k p)).entry_eq_some.mp he).1]
    simp
  | none =>
    split_ifs with hprice
    · rcases h.slots side (slot k p) with hlv | ⟨-, hnull, -⟩
      · rw [hlv]
        rfl
      · -- a used slot that holds the price records it
        have hsome : b.entryAt side p =
            some ((b.levels side (slot k p)).quantity, (b.levels side (slot k p)).orders) := by
          rw [entryAt, DirectMap.lookup_eq_some, table, entry, if_neg hnull, hprice]
        rw [hsome] at he
        exact absurd he (by simp)
    · rfl

/-- A price whose slot no other recorded price shares is admitted. -/
theorem WellFormed.admits (h : b.WellFormed)
    (hfree : ∀ q e, b.entryAt side q = some e → slot k q = slot k p → q = p) :
    DirectMap.Admits (slot k) (b.table side) p := by
  intro q e hq
  have hslot : slot k q = slot k p := h.placed side _ q e hq
  refine hfree q e ?_ hslot
  rw [entryAt, DirectMap.lookup_eq_some, hslot]
  exact hq

/-! ### The writes on tables -/

theorem updateLevel_levels_of_ne (h : other ≠ side) (qtyDelta : ℤ) (orderDelta : ℤ) :
    (b.updateLevel side p qtyDelta orderDelta).levels other = b.levels other := by
  simp only [updateLevel, levels_refreshTop]
  split_ifs <;> simp [levels_setLevel_of_ne h]

theorem removeLevel_levels_of_ne (h : other ≠ side) :
    (b.removeLevel side p).levels other = b.levels other := by
  simp only [removeLevel, levels_refreshTop]
  split_ifs <;> simp [levels_setLevel_of_ne h]

/-- The slots of the written side after `updateLevel`. -/
theorem updateLevel_levels_self (side : Side) (qtyDelta : ℤ) (orderDelta : ℤ) :
    (b.updateLevel side p qtyDelta orderDelta).levels side =
      if (b.levels side (slot k p)).price = nullPrice ∨ (b.levels side (slot k p)).price = p then
        Function.update (b.levels side) (slot k p)
          (if int64 ((b.levels side (slot k p)).quantity + qtyDelta) ≤ 0 then {} else
            { price := p
              quantity := int64 ((b.levels side (slot k p)).quantity + qtyDelta)
              orders := int32 ((b.levels side (slot k p)).orders + orderDelta) })
      else b.levels side := by
  simp only [updateLevel, levels_refreshTop]
  split_ifs <;> simp

/-- The slots of the written side after `removeLevel`. -/
theorem removeLevel_levels_self (side : Side) :
    (b.removeLevel side p).levels side =
      if (b.levels side (slot k p)).price = p then
        Function.update (b.levels side) (slot k p) {}
      else b.levels side := by
  simp only [removeLevel, levels_refreshTop]
  split_ifs <;> simp

private theorem map_entry_update (levels : Fin (2 ^ k.val) → PriceLevel) (i : Fin (2 ^ k.val))
    (lv : PriceLevel) :
    (fun j => entry (Function.update levels i lv j)) =
      Function.update (fun j => entry (levels j)) i (entry lv) := by
  funext j
  by_cases hj : j = i
  · subst hj
    simp
  · simp [Function.update_of_ne hj]

/-- `updateLevel` rewrites the entry of its price by `bump`, unless it collides. -/
theorem table_updateLevel (hb : b.WellFormed) (hp : p ≠ nullPrice) (qtyDelta : ℤ)
    (orderDelta : ℤ) :
    (b.updateLevel side p qtyDelta orderDelta).table side =
      DirectMap.alter (slot k) (b.table side) p (bump qtyDelta orderDelta) := by
  unfold table
  rw [updateLevel_levels_self]
  rcases hb.slots side (slot k p) with hlv | ⟨-, hprice, -⟩
  · -- a free slot counts as quantity and count zero
    simp only [hlv, true_or, if_true, map_entry_update]
    unfold DirectMap.alter
    simp only [hlv, entry_default, bump, Option.getD_none]
    split_ifs with hq <;> simp [entry, hp]
  · by_cases hsame : (b.levels side (slot k p)).price = p
    · -- the price's own level is bumped
      have hentry : entry (b.levels side (slot k p)) =
          some (p, (b.levels side (slot k p)).quantity, (b.levels side (slot k p)).orders) := by
        simp [entry, hsame, hp]
      simp only [hsame, or_true, if_true, map_entry_update]
      unfold DirectMap.alter
      simp only [hentry, if_true, bump, Option.getD_some]
      split_ifs with hq <;> simp [entry, hp]
    · -- the slot holds another price: neither side writes
      simp only [hprice, hsame, or_self, if_false]
      unfold DirectMap.alter
      simp [entry, hprice, hsame]

/-- `removeLevel` erases the entry of its price, unless it collides. -/
theorem table_removeLevel (hb : b.WellFormed) (hp : p ≠ nullPrice) :
    (b.removeLevel side p).table side =
      DirectMap.alter (slot k) (b.table side) p (fun _ => none) := by
  unfold table
  rw [removeLevel_levels_self]
  rcases hb.slots side (slot k p) with hlv | ⟨-, hprice, -⟩
  · -- a free slot has no level to remove
    have hne : ({} : PriceLevel).price ≠ p := fun h => hp h.symm
    simp only [hlv, hne, if_false]
    unfold DirectMap.alter
    simp only [hlv, entry_default, Option.map_none]
    symm
    rw [Function.update_eq_self_iff]
    simp [hlv]
  · by_cases hsame : (b.levels side (slot k p)).price = p
    · simp only [hsame, if_true, map_entry_update]
      unfold DirectMap.alter
      simp [entry, hsame, hp]
    · simp only [hsame, if_false]
      unfold DirectMap.alter
      simp [entry, hprice, hsame]

theorem entryAt_updateLevel_of_side_ne (h : other ≠ side) (qtyDelta : ℤ)
    (orderDelta : ℤ) :
    (b.updateLevel side p qtyDelta orderDelta).entryAt other = b.entryAt other := by
  unfold entryAt table
  rw [updateLevel_levels_of_ne h]

theorem entryAt_removeLevel_of_side_ne (h : other ≠ side) :
    (b.removeLevel side p).entryAt other = b.entryAt other := by
  unfold entryAt table
  rw [removeLevel_levels_of_ne h]

theorem entryAt_updateLevel_of_ne (hb : b.WellFormed) (hp : p ≠ nullPrice) (hq : q ≠ p)
    (qtyDelta : ℤ) (orderDelta : ℤ) :
    (b.updateLevel side p qtyDelta orderDelta).entryAt side q = b.entryAt side q := by
  rw [entryAt, table_updateLevel hb hp, DirectMap.lookup_alter_of_ne hq]
  rfl

theorem entryAt_removeLevel_of_ne (hb : b.WellFormed) (hp : p ≠ nullPrice) (hq : q ≠ p) :
    (b.removeLevel side p).entryAt side q = b.entryAt side q := by
  rw [entryAt, table_removeLevel hb hp, DirectMap.lookup_alter_of_ne hq]
  rfl

/-- `updateLevel` leaves every entry alone but that of its side and price. -/
theorem entryAt_updateLevel_other (hb : b.WellFormed) (hp : p ≠ nullPrice)
    (hother : ¬ (other = side ∧ q = p)) (qtyDelta : ℤ) (orderDelta : ℤ) :
    (b.updateLevel side p qtyDelta orderDelta).entryAt other q = b.entryAt other q := by
  by_cases hs : other = side
  · subst hs
    exact entryAt_updateLevel_of_ne hb hp (fun hq => hother ⟨rfl, hq⟩) qtyDelta orderDelta
  · rw [entryAt_updateLevel_of_side_ne hs]

theorem entryAt_removeLevel_other (hb : b.WellFormed) (hp : p ≠ nullPrice)
    (hother : ¬ (other = side ∧ q = p)) :
    (b.removeLevel side p).entryAt other q = b.entryAt other q := by
  by_cases hs : other = side
  · subst hs
    exact entryAt_removeLevel_of_ne hb hp fun hq => hother ⟨rfl, hq⟩
  · rw [entryAt_removeLevel_of_side_ne hs]

/-- `updateLevel` bumps the entry of its price when the slot admits the price. -/
theorem entryAt_updateLevel_self (hb : b.WellFormed) (hp : p ≠ nullPrice)
    (hadm : DirectMap.Admits (slot k) (b.table side) p) (qtyDelta : ℤ) (orderDelta : ℤ) :
    (b.updateLevel side p qtyDelta orderDelta).entryAt side p =
      bump qtyDelta orderDelta (b.entryAt side p) := by
  rw [entryAt, table_updateLevel hb hp, DirectMap.lookup_alter_self hadm]
  rfl

/-- `updateLevel` on a slot held by another price records nothing for its own. -/
theorem entryAt_updateLevel_collision (hb : b.WellFormed) (hp : p ≠ nullPrice)
    (hadm : ¬ DirectMap.Admits (slot k) (b.table side) p) (qtyDelta : ℤ)
    (orderDelta : ℤ) :
    (b.updateLevel side p qtyDelta orderDelta).entryAt side p = none := by
  rw [entryAt, table_updateLevel hb hp, DirectMap.alter_of_not_admits hadm,
    DirectMap.lookup_of_not_admits hadm]

theorem entryAt_removeLevel_self (hb : b.WellFormed) (hp : p ≠ nullPrice) :
    (b.removeLevel side p).entryAt side p = none := by
  rw [entryAt, table_removeLevel hb hp]
  by_cases hadm : DirectMap.Admits (slot k) (b.table side) p
  · rw [DirectMap.lookup_alter_self hadm]
  · rw [DirectMap.alter_of_not_admits hadm, DirectMap.lookup_of_not_admits hadm]

/-! ### The invariant -/

private theorem seq_writeEnd (l : Seqlock) : l.writeBegin.writeEnd.seq = l.seq + 2 := by
  simp only [Seqlock.writeBegin, Seqlock.writeEnd, BitVec.add_assoc]
  rfl

private theorem idle_writeEnd {l : Seqlock} (h : l.seq.toNat % 2 = 0) :
    l.writeBegin.writeEnd.seq.toNat % 2 = 0 := by
  rw [seq_writeEnd]
  bv_omega

theorem slotOk_default (i : Fin (2 ^ k.val)) : SlotOk i {} := Or.inl rfl

/-- Every slot is of some kind, the best of each side is shown and no write is going on. -/
structure Keeps (ok : Fin (2 ^ k.val) → PriceLevel → Prop) (b : OrderBook k) : Prop where
  slots : ∀ side i, ok i (b.levels side i)
  top : ∀ side, b.tob.level side = bestLevel side (b.levels side)
  idle : b.tobLock.seq.toNat % 2 = 0

theorem wellFormed_iff_keeps : b.WellFormed ↔ b.Keeps SlotOk :=
  ⟨fun h => ⟨h.slots, h.top, h.idle⟩, fun h => ⟨h.slots, h.top, h.idle⟩⟩

section Keeps

variable {ok : Fin (2 ^ k.val) → PriceLevel → Prop}

/-- A written side with good slots, re-scanned, gives a good book again. -/
private theorem Keeps.of_refresh (hb : b.Keeps ok) {b' : OrderBook k}
    (hother : ∀ other, other ≠ side → b'.levels other = b.levels other)
    (hslots : ∀ i, ok i (b'.levels side i)) (htob : b'.tob = b.tob)
    (hlock : b'.tobLock = b.tobLock) : (b'.refreshTop side).Keeps ok where
  slots := by
    intro s i
    rw [levels_refreshTop]
    by_cases hs : s = side
    · subst hs
      exact hslots i
    · rw [hother s hs]
      exact hb.slots s i
  top := by
    intro s
    by_cases hs : s = side
    · subst hs
      rw [tob_refreshTop_self, levels_refreshTop]
    · rw [tob_refreshTop_of_ne hs, levels_refreshTop, htob, hother s hs]
      exact hb.top s
  idle := by
    rw [tobLock_refreshTop, hlock]
    exact idle_writeEnd hb.idle

/-- `updateLevel` writes the unused level or a positive quantity at its price. -/
theorem Keeps.updateLevel (hb : b.Keeps ok) (hunused : ok (slot k p) {})
    (hused : ∀ qty n, 0 < qty → ok (slot k p) { price := p, quantity := qty, orders := n })
    (qtyDelta : ℤ) (orderDelta : ℤ) :
    (b.updateLevel side p qtyDelta orderDelta).Keeps ok := by
  simp only [OrderBook.updateLevel]
  refine hb.of_refresh ?_ ?_ ?_ ?_
  · intro other h
    split_ifs <;> simp [levels_setLevel_of_ne h]
  · intro i
    by_cases hi : i = slot k p
    · subst hi
      split_ifs with hadm hq
      · rw [levels_setLevel_self, Function.update_self]
        exact hunused
      · rw [levels_setLevel_self, Function.update_self]
        exact hused _ _ (not_le.mp hq)
      · exact hb.slots side _
    · split_ifs
      · simpa [Function.update_of_ne hi] using hb.slots side i
      · simpa [Function.update_of_ne hi] using hb.slots side i
      · exact hb.slots side i
  · split_ifs <;> simp
  · split_ifs <;> simp

/-- `removeLevel` writes the unused level. -/
theorem Keeps.removeLevel (hb : b.Keeps ok) (hunused : ok (slot k p) {}) :
    (b.removeLevel side p).Keeps ok := by
  simp only [OrderBook.removeLevel]
  refine hb.of_refresh ?_ ?_ ?_ ?_
  · intro other h
    split_ifs <;> simp [levels_setLevel_of_ne h]
  · intro i
    split_ifs
    · rw [levels_setLevel_self]
      by_cases hi : i = slot k p
      · subst hi
        rw [Function.update_self]
        exact hunused
      · rw [Function.update_of_ne hi]
        exact hb.slots side i
    · exact hb.slots side i
  · split_ifs <;> simp
  · split_ifs <;> simp

end Keeps

theorem WellFormed.updateLevel (hb : b.WellFormed) (hp : p ≠ nullPrice) (qtyDelta : ℤ)
    (orderDelta : ℤ) : (b.updateLevel side p qtyDelta orderDelta).WellFormed := by
  rw [wellFormed_iff_keeps] at hb ⊢
  exact hb.updateLevel (slotOk_default _) (fun _ _ hqty => Or.inr ⟨rfl, hp, hqty⟩) _ _

theorem WellFormed.removeLevel (hb : b.WellFormed) : (b.removeLevel side p).WellFormed := by
  rw [wellFormed_iff_keeps] at hb ⊢
  exact hb.removeLevel (slotOk_default _)

/-! ### The published top of book -/

/-- `lv` is the first of the non-empty slots by rank, or the unused level if all are empty. -/
def Leads (side : Side) (levels : Fin (2 ^ k.val) → PriceLevel) (lv : PriceLevel) : Prop :=
  (lv = {} ∧ ∀ i, (levels i).Empty) ∨
    ∃ i, ¬ (levels i).Empty ∧ lv = levels i ∧
      ∀ j, ¬ (levels j).Empty → side.rank (levels j).price ≤ side.rank (levels i).price

/-- `i` leads the slots of a list. -/
structure LeadsIn (side : Side) (levels : Fin (2 ^ k.val) → PriceLevel)
    (l : List (Fin (2 ^ k.val))) (i : Fin (2 ^ k.val)) : Prop where
  mem : i ∈ l
  nonempty : ¬ (levels i).Empty
  rank_le : ∀ j ∈ l, ¬ (levels j).Empty →
    side.rank (levels j).price ≤ side.rank (levels i).price

section LeadsIn

variable {levels : Fin (2 ^ k.val) → PriceLevel} {l : List (Fin (2 ^ k.val))}
  {i m : Fin (2 ^ k.val)}

theorem LeadsIn.keep (h : LeadsIn side levels l m)
    (hi : ¬ (levels i).Empty → side.rank (levels i).price ≤ side.rank (levels m).price) :
    LeadsIn side levels (l ++ [i]) m where
  mem := List.mem_append_left _ h.mem
  nonempty := h.nonempty
  rank_le := by
    intro j hj hne
    rcases List.mem_append.mp hj with hj | hj
    · exact h.rank_le j hj hne
    · rw [List.mem_singleton] at hj
      subst hj
      exact hi hne

theorem LeadsIn.overtake (h : LeadsIn side levels l m) (hi : ¬ (levels i).Empty)
    (hle : side.rank (levels m).price ≤ side.rank (levels i).price) :
    LeadsIn side levels (l ++ [i]) i where
  mem := List.mem_append_right _ (List.mem_singleton_self i)
  nonempty := hi
  rank_le := by
    intro j hj hne
    rcases List.mem_append.mp hj with hj | hj
    · exact (h.rank_le j hj hne).trans hle
    · rw [List.mem_singleton] at hj
      rw [hj]

/-- The scan of a list of slots of which only the first may hold a level at the sentinel. -/
private theorem scan_leads (side : Side)
    (hlate : l.Pairwise fun _ j => ¬ (levels j).Empty → (levels j).price ≠ nullPrice) :
    let best := l.foldl
      (fun best i =>
        if ¬ (levels i).Empty then
          if best.price = nullPrice ∨ decide (side.key best.price < side.key (levels i).price)
          then levels i else best
        else best)
      ({} : PriceLevel)
    (best = {} ∧ ∀ i ∈ l, (levels i).Empty) ∨ ∃ i, LeadsIn side levels l i ∧ best = levels i := by
  -- induction on the slots scanned so far
  induction l using List.reverseRecOn with
  | nil => exact Or.inl ⟨rfl, by simp⟩
  | append_singleton l i ih =>
    obtain ⟨hlate, -, hi⟩ := List.pairwise_append.mp hlate
    simp only [List.foldl_append, List.foldl_cons, List.foldl_nil]
    by_cases hempty : (levels i).Empty
    · -- an empty slot is passed over
      simp only [hempty, not_true_eq_false, if_false]
      rcases ih hlate with ⟨hbest, hall⟩ | ⟨m, hm, hbest⟩
      · refine Or.inl ⟨hbest, fun j hj => ?_⟩
        rcases List.mem_append.mp hj with hj | hj
        · exact hall j hj
        · rwa [List.mem_singleton.mp hj]
      · exact Or.inr ⟨m, hm.keep fun hne => absurd hempty hne, hbest⟩
    · simp only [hempty, not_false_eq_true, if_true]
      rcases ih hlate with ⟨hbest, hall⟩ | ⟨m, hm, hbest⟩
      · -- the first level seen
        rw [hbest, if_pos (Or.inl rfl)]
        refine Or.inr ⟨i, ⟨by simp, hempty, fun j hj hne => ?_⟩, rfl⟩
        rcases List.mem_append.mp hj with hj | hj
        · exact absurd (hall j hj) hne
        · rw [List.mem_singleton.mp hj]
      · rw [hbest]
        have hprice := hi m hm.mem i (List.mem_singleton_self i) hempty
        by_cases hnull : (levels m).price = nullPrice
        · -- a level at the sentinel gives way to any other
          rw [if_pos (Or.inl hnull)]
          refine Or.inr ⟨i, hm.overtake hempty ?_, rfl⟩
          rw [hnull]
          exact side.rank_nullPrice_le _
        · by_cases hbetter : side.key (levels m).price < side.key (levels i).price
          · rw [if_pos (Or.inr (decide_eq_true hbetter))]
            refine Or.inr ⟨i, hm.overtake hempty ?_, rfl⟩
            rw [Side.rank_le_iff hnull hprice]
            exact hbetter.le
          · rw [if_neg (by simp [hnull, hbetter])]
            refine Or.inr ⟨m, hm.keep fun _ => ?_, rfl⟩
            rw [Side.rank_le_iff hprice hnull]
            exact not_lt.mp hbetter

end LeadsIn

/-- The scan shows the leading level, when a level at the sentinel can only be in slot 0. -/
theorem leads_bestLevel (side : Side) (levels : Fin (2 ^ k.val) → PriceLevel)
    (hnull : ∀ i, ¬ (levels i).Empty → (levels i).price = nullPrice → i.val = 0) :
    Leads side levels (bestLevel side levels) := by
  have hlate : (List.finRange (2 ^ k.val)).Pairwise fun _ j =>
      ¬ (levels j).Empty → (levels j).price ≠ nullPrice := by
    refine (List.pairwise_lt_finRange _).imp fun {i j} hij hj heq => ?_
    have hzero := hnull j hj heq
    have hlt : i.val < j.val := hij
    omega
  unfold bestLevel scanBest
  rcases scan_leads side hlate with ⟨hbest, hall⟩ | ⟨i, hi, hbest⟩
  · exact Or.inl ⟨hbest, fun i => hall i (List.mem_finRange i)⟩
  · exact Or.inr ⟨i, hi.nonempty, hbest, fun j => hi.rank_le j (List.mem_finRange j)⟩

theorem WellFormed.price_ne (hb : b.WellFormed) {i : Fin (2 ^ k.val)}
    (hi : ¬ (b.levels side i).Empty) : (b.levels side i).price ≠ nullPrice := by
  rcases hb.slots side i with hlv | ⟨-, hprice, -⟩
  · rw [hlv] at hi
    exact absurd PriceLevel.empty_default hi
  · exact hprice

/-- On good slots the scan finds the best recorded entry. -/
theorem isBest_bestLevel (hb : b.WellFormed) :
    IsBest side (b.entryAt side) (bestLevel side (b.levels side)) := by
  have hleads := leads_bestLevel side (b.levels side) fun i hi hnull =>
    absurd hnull (hb.price_ne hi)
  rcases hleads with ⟨hbest, hall⟩ | ⟨i, hi, hbest, hle⟩
  · -- no slot is in use, so no price is recorded
    refine Or.inl ⟨hbest, fun p => ?_⟩
    cases he : b.entryAt side p with
    | none => rfl
    | some e =>
      obtain ⟨i, -, hi⟩ := hb.entryAt_eq_some.mp he
      exact absurd (hall i) hi
  · -- a recorded price is in a slot that was scanned
    rw [hbest]
    refine Or.inr ⟨hb.entryAt_eq_some.mpr ⟨i, rfl, hi⟩, fun p hp => ?_⟩
    obtain ⟨e, he⟩ := Option.ne_none_iff_exists'.mp hp
    obtain ⟨j, hlv, hj⟩ := hb.entryAt_eq_some.mp he
    have hrank := hle j hj
    have hpj : (b.levels side j).price = p := by rw [hlv]
    rw [Side.rank_le_iff (hb.price_ne hj) (hb.price_ne hi), hpj] at hrank
    exact hrank

/-- The published level of each side is the best recorded entry. -/
theorem WellFormed.isBest (hb : b.WellFormed) (side : Side) :
    IsBest side (b.entryAt side) (b.tob.level side) := by
  rw [hb.top side]
  exact isBest_bestLevel hb

/-- Between two writes a snapshot returns the published top of book at once. -/
theorem Keeps.snapshot {ok : Fin (2 ^ k.val) → PriceLevel → Prop} (hb : b.Keeps ok) :
    b.topOfBookSnapshot = some b.tob := by
  -- outside a write the sequence number is even, and nothing moves it
  have heven : b.tobLock.seq &&& 1 = 0 := by
    apply BitVec.eq_of_toNat_eq
    rw [BitVec.toNat_and]
    simpa [Nat.and_one_is_mod] using hb.idle
  have hread : b.tobLock.readBegin = some b.tobLock.seq := if_pos heven
  simp [topOfBookSnapshot, hread, Seqlock.readRetry]

theorem WellFormed.snapshot (hb : b.WellFormed) : b.topOfBookSnapshot = some b.tob :=
  (wellFormed_iff_keeps.mp hb).snapshot

/-! ### Reset -/

@[simp] theorem levels_reset : b.reset.levels side = fun _ => {} := by
  cases side <;> rfl

@[simp] theorem entryAt_reset : b.reset.entryAt side p = none := by
  unfold entryAt table
  simp

theorem bestLevel_unused : bestLevel side (fun _ : Fin (2 ^ k.val) => {}) = {} := by
  rcases leads_bestLevel side (fun _ : Fin (2 ^ k.val) => {})
    (fun _ hi => absurd PriceLevel.empty_default hi) with ⟨hbest, -⟩ | ⟨_, hi, -⟩
  · exact hbest
  · exact absurd PriceLevel.empty_default hi

/-- After `reset` every slot is unused. -/
theorem keeps_reset {ok : Fin (2 ^ k.val) → PriceLevel → Prop} (hunused : ∀ i, ok i {})
    (h : b.tobLock.seq.toNat % 2 = 0) : b.reset.Keeps ok where
  slots := by
    intro side i
    rw [levels_reset]
    exact hunused i
  top := by
    intro side
    rw [levels_reset, bestLevel_unused]
    cases side <;> rfl
  idle := idle_writeEnd h

theorem wellFormed_reset (h : b.tobLock.seq.toNat % 2 = 0) : b.reset.WellFormed :=
  wellFormed_iff_keeps.mpr (keeps_reset slotOk_default h)

theorem wellFormed_fresh : (fresh : OrderBook k).WellFormed := wellFormed_reset rfl

@[simp] theorem entryAt_fresh : (fresh : OrderBook k).entryAt side p = none := entryAt_reset

end OrderBook

end HftKr260
