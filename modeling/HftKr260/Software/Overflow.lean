import HftKr260.Foundation.Traps
import HftKr260.Software.RestingOrders
import Mathlib.Algebra.Order.Ring.Abs

/-!
# Quantity arithmetic

The handlers compute on `int64_t` quantities and `int32_t` order counts, where an overflow
is undefined. `Core.stepChecked` is the event step with a trap behind every such computation.

A quantity on the wire has 32 bits, so one message moves a level by less than `2 ^ 32` and its
order count by at most one, whatever has happened to the level before: after `n` messages a
level holds at most `n * (2 ^ 32 - 1)`.

## Main results

* `Bounded.step` — an event traps nowhere and keeps the bounds
* `no_signed_overflow` — a run of fewer than `2 ^ 31` buffers traps nowhere
-/

set_option autoImplicit false

namespace HftKr260

open Foundation

/-- `update_level` with its two additions checked. -/
def OrderBook.updateLevelChecked {k : Fin 64} (b : OrderBook k) (side : Side) (price : ℤ)
    (qtyDelta : ℤ) (orderDelta : ℤ) : Option (OrderBook k) :=
  let i := slot k price
  let lv := b.levels side i
  if lv.price = nullPrice ∨ lv.price = price then do
    let quantity ← fitting 64 (lv.quantity + qtyDelta)
    let orders ← fitting 32 (lv.orders + orderDelta)
    let written :=
      if quantity ≤ 0 then b.setLevel side i {}
      else b.setLevel side i { price := price, quantity := quantity, orders := orders }
    some (written.refreshTop side)
  else some (b.refreshTop side)

/-- One event with every computation on quantities checked. -/
def Core.stepChecked {k : Fin 64} (c : Core k) : OrderEvent → Option (Core k)
  | .add ref side price qty => do
      let book ← c.book.updateLevelChecked side price qty.toNat 1
      some
        { book := book
          orders := c.orders.insert ref { price := price, quantity := qty.toNat, side := side } }
  | .update ref newQty =>
      match c.orders.lookup ref with
      | none => some c
      | some o => do
          -- taken before it is known whether the level stays
          let delta ← fitting 64 (newQty.toNat - o.quantity)
          if (newQty.toNat : ℤ) ≤ 0 then
            some { book := c.book.removeLevel o.side o.price, orders := c.orders.erase ref }
          else
            let book ← c.book.updateLevelChecked o.side o.price delta 0
            some
              { book := book, orders := c.orders.insert ref { o with quantity := newQty.toNat } }
  | .delete ref =>
      match c.orders.lookup ref with
      | none => some c
      | some o => do
          let delta ← fitting 64 (-o.quantity)
          let book ← c.book.updateLevelChecked o.side o.price delta (-1)
          some { book := book, orders := c.orders.erase ref }
  | .execute ref executed =>
      match c.orders.lookup ref with
      | none => some c
      | some o => do
          -- negative if more is executed than rests
          let quantity ← fitting 64 (o.quantity - executed.toNat)
          if quantity ≤ 0 then
            some { book := c.book.removeLevel o.side o.price, orders := c.orders.erase ref }
          else
            let delta ← fitting 64 (-(executed.toNat : ℤ))
            let book ← c.book.updateLevelChecked o.side o.price delta 0
            some { book := book, orders := c.orders.insert ref { o with quantity := quantity } }

/-- What a buffer does to the order map and the book. -/
def Core.receive {k : Fin 64} (c : Core k) (buf : List Byte) : Core k :=
  match FeedHandler.bufEvent buf with
  | none => c
  | some e => c.step e

/-- The same with the computations checked. -/
def Core.receiveChecked {k : Fin 64} (c : Core k) (buf : List Byte) : Option (Core k) :=
  match FeedHandler.bufEvent buf with
  | none => some c
  | some e => c.stepChecked e

/-! ### Bounds -/

/-- What a level can hold after `n` messages. -/
def PriceLevel.Within (lv : PriceLevel) (n : ℕ) : Prop :=
  0 ≤ lv.quantity ∧ lv.quantity ≤ n * (2 ^ 32 - 1) ∧ -n ≤ lv.orders ∧ lv.orders ≤ n

theorem PriceLevel.Within.mono {lv : PriceLevel} {n n' : ℕ} (h : lv.Within n) (hn : n ≤ n') :
    lv.Within n' := by
  have hcast : (n : ℤ) ≤ n' := Int.ofNat_le.mpr hn
  obtain ⟨hnonneg, hqty, hlo, hhi⟩ := h
  refine ⟨hnonneg, ?_, ?_, ?_⟩ <;> omega

theorem PriceLevel.within_default (n : ℕ) : ({} : PriceLevel).Within n := by
  refine ⟨le_refl 0, ?_, ?_, ?_⟩ <;> dsimp only <;> omega

/-- The bounds of the order map and the book after `n` messages. -/
structure Bounded {k : Fin 64} (n : ℕ) (c : Core k) : Prop where
  orders : ∀ ref o, c.orders.lookup ref = some o → QtyFits o.quantity
  levels : ∀ side i, (c.book.levels side i).Within n

section Bounds

variable {k : Fin 64} {n : ℕ} {c : Core k} {b : OrderBook k} {side : Side} {p : ℤ}
  {dq dn : ℤ}

/-- The levels of one side and the other after a write of one slot. -/
theorem forall_levels_setLevel (Q : PriceLevel → Prop) {i : Fin (2 ^ k.val)} {lv : PriceLevel}
    (h : ∀ side i, Q (b.levels side i)) (hlv : Q lv) (other : Side) (j : Fin (2 ^ k.val)) :
    Q (((b.setLevel side i lv).refreshTop side).levels other j) := by
  rw [OrderBook.levels_refreshTop]
  by_cases hother : other = side
  · subst hother
    rw [OrderBook.levels_setLevel_self]
    by_cases hj : j = i
    · rw [hj, Function.update_self]
      exact hlv
    · rw [Function.update_of_ne hj]
      exact h other j
  · rw [OrderBook.levels_setLevel_of_ne hother]
    exact h other j

theorem within_removeLevel (h : ∀ side i, (b.levels side i).Within n) (other : Side)
    (j : Fin (2 ^ k.val)) : ((b.removeLevel side p).levels other j).Within n := by
  unfold OrderBook.removeLevel
  dsimp only
  split_ifs
  · exact forall_levels_setLevel (·.Within n) h (PriceLevel.within_default n) other j
  · rw [OrderBook.levels_refreshTop]
    exact h other j

/-- **A write of one message's size**: neither addition overflows, and the level stays within
the bound of one message more. -/
theorem updateLevelChecked_eq (side : Side) (p : ℤ) (h : ∀ side i, (b.levels side i).Within n)
    (hn : n + 1 < 2 ^ 31) (hdq : |dq| ≤ 2 ^ 32 - 1) (hdn : |dn| ≤ 1) :
    b.updateLevelChecked side p dq dn = some (b.updateLevel side p dq dn) ∧
      ∀ other j, ((b.updateLevel side p dq dn).levels other j).Within (n + 1) := by
  obtain ⟨hnonneg, hqty, hlo, hhi⟩ := h side (slot k p)
  obtain ⟨hdq₁, hdq₂⟩ := abs_le.mp hdq
  obtain ⟨hdn₁, hdn₂⟩ := abs_le.mp hdn
  have hmore : ∀ side i, (b.levels side i).Within (n + 1) := fun side i =>
    (h side i).mono (Nat.le_succ n)
  have hcast : ((n + 1 : ℕ) : ℤ) < 2 ^ 31 := by exact_mod_cast hn
  have hbound : ((b.levels side (slot k p)).quantity + dq) ≤ (n + 1 : ℕ) * (2 ^ 32 - 1) := by
    push_cast
    linarith
  have hq64 : fitting 64 ((b.levels side (slot k p)).quantity + dq) =
      some (int64 ((b.levels side (slot k p)).quantity + dq)) := by
    rw [int64_of_fits (by omega) (by omega)]
    exact fitting_of_fits (by omega) (by omega)
  have hn32 : fitting 32 ((b.levels side (slot k p)).orders + dn) =
      some (int32 ((b.levels side (slot k p)).orders + dn)) := by
    rw [int32_of_fits (by omega) (by omega)]
    exact fitting_of_fits (by omega) (by omega)
  unfold OrderBook.updateLevelChecked OrderBook.updateLevel
  dsimp only
  by_cases hprice : (b.levels side (slot k p)).price = nullPrice ∨
      (b.levels side (slot k p)).price = p
  · rw [if_pos hprice, if_pos hprice, hq64, hn32]
    refine ⟨rfl, fun other j => ?_⟩
    split_ifs with hwiped
    · -- a sum that is not positive is not kept
      exact forall_levels_setLevel (·.Within (n + 1)) hmore (PriceLevel.within_default _) other j
    · refine forall_levels_setLevel (·.Within (n + 1)) hmore ?_ other j
      rw [int64_of_fits (by omega) (by omega)] at hwiped ⊢
      rw [int32_of_fits (by omega) (by omega)]
      refine ⟨by dsimp only; omega, hbound, ?_, ?_⟩ <;> dsimp only <;> omega
  · -- a collision computes nothing
    rw [if_neg hprice, if_neg hprice]
    refine ⟨rfl, fun other j => ?_⟩
    rw [OrderBook.levels_refreshTop]
    exact hmore other j

/-! ### One event -/

theorem Bounded.mono {n' : ℕ} (h : Bounded n c) (hn : n ≤ n') : Bounded n' c :=
  ⟨h.orders, fun side i => (h.levels side i).mono hn⟩

/-- An order leaves with its level. -/
theorem Bounded.finish (h : Bounded n c) (ref : BitVec 64) (side : Side) (p : ℤ) :
    Bounded n { book := c.book.removeLevel side p, orders := c.orders.erase ref } :=
  ⟨forall_lookup_erase h.orders, within_removeLevel h.levels⟩

theorem fitting_of_abs_le {x : ℤ} (h : |x| ≤ 2 ^ 32 - 1) : fitting 64 x = some (int64 x) := by
  obtain ⟨hlo, hhi⟩ := abs_le.mp h
  rw [int64_of_fits (by omega) (by omega)]
  exact fitting_of_fits (by omega) (by omega)

theorem abs_int64_le {x : ℤ} (h : |x| ≤ 2 ^ 32 - 1) : |int64 x| ≤ 2 ^ 32 - 1 := by
  obtain ⟨hlo, hhi⟩ := abs_le.mp h
  rwa [int64_of_fits (by omega) (by omega)]

theorem QtyFits.abs_sub_le {q q' : ℤ} (h : QtyFits q) (h' : QtyFits q') :
    |q - q'| ≤ 2 ^ 32 - 1 := by
  obtain ⟨hlo, hhi⟩ := h
  obtain ⟨hlo', hhi'⟩ := h'
  exact abs_le.mpr ⟨by omega, by omega⟩

theorem QtyFits.abs_le {q : ℤ} (h : QtyFits q) : |q| ≤ 2 ^ 32 - 1 := by
  rw [abs_of_nonneg h.1]
  exact Int.le_sub_one_of_lt h.2

theorem QtyFits.abs_neg_le {q : ℤ} (h : QtyFits q) : |-q| ≤ 2 ^ 32 - 1 := by
  rw [abs_neg]
  exact h.abs_le

theorem Bounded.add (h : Bounded n c) (hn : n + 1 < 2 ^ 31) (ref : BitVec 64) (side : Side)
    (p : ℤ) (qty : BitVec 32) :
    c.stepChecked (.add ref side p qty) = some (c.step (.add ref side p qty)) ∧
      Bounded (n + 1) (c.step (.add ref side p qty)) := by
  have hqty := qtyFits_toNat qty
  obtain ⟨hbook, hlevels⟩ := updateLevelChecked_eq side p h.levels hn hqty.abs_le abs_one.le
  unfold Core.stepChecked Core.step
  dsimp only
  rw [hbook]
  exact ⟨rfl, forall_lookup_insert hqty h.orders, hlevels⟩

theorem Bounded.update (h : Bounded n c) (hn : n + 1 < 2 ^ 31) (ref : BitVec 64)
    (newQty : BitVec 32) :
    c.stepChecked (.update ref newQty) = some (c.step (.update ref newQty)) ∧
      Bounded (n + 1) (c.step (.update ref newQty)) := by
  have hqty := qtyFits_toNat newQty
  unfold Core.stepChecked Core.step
  dsimp only
  cases hlookup : c.orders.lookup ref with
  | none => exact ⟨rfl, h.mono (Nat.le_succ n)⟩
  | some o =>
    dsimp only
    have hdelta := hqty.abs_sub_le (h.orders ref o hlookup)
    rw [fitting_of_abs_le hdelta]
    dsimp only [Option.bind_eq_bind, Option.bind_some]
    split_ifs with hzero
    · exact ⟨rfl, (h.finish ref o.side o.price).mono (Nat.le_succ n)⟩
    · obtain ⟨hbook, hlevels⟩ := updateLevelChecked_eq o.side o.price h.levels hn
        (abs_int64_le hdelta) (abs_zero.trans_le zero_le_one)
      rw [hbook]
      exact ⟨rfl, forall_lookup_insert hqty h.orders, hlevels⟩

theorem Bounded.delete (h : Bounded n c) (hn : n + 1 < 2 ^ 31) (ref : BitVec 64) :
    c.stepChecked (.delete ref) = some (c.step (.delete ref)) ∧
      Bounded (n + 1) (c.step (.delete ref)) := by
  unfold Core.stepChecked Core.step
  dsimp only
  cases hlookup : c.orders.lookup ref with
  | none => exact ⟨rfl, h.mono (Nat.le_succ n)⟩
  | some o =>
    dsimp only
    have hdelta := (h.orders ref o hlookup).abs_neg_le
    obtain ⟨hbook, hlevels⟩ := updateLevelChecked_eq o.side o.price h.levels hn
      (abs_int64_le hdelta) (abs_neg (1 : ℤ) ▸ abs_one.le)
    rw [fitting_of_abs_le hdelta]
    dsimp only [Option.bind_eq_bind, Option.bind_some]
    rw [hbook]
    exact ⟨rfl, forall_lookup_erase h.orders, hlevels⟩

theorem Bounded.execute (h : Bounded n c) (hn : n + 1 < 2 ^ 31) (ref : BitVec 64)
    (executed : BitVec 32) :
    c.stepChecked (.execute ref executed) = some (c.step (.execute ref executed)) ∧
      Bounded (n + 1) (c.step (.execute ref executed)) := by
  have hexecuted := qtyFits_toNat executed
  unfold Core.stepChecked Core.step
  dsimp only
  cases hlookup : c.orders.lookup ref with
  | none => exact ⟨rfl, h.mono (Nat.le_succ n)⟩
  | some o =>
    dsimp only
    have ho := h.orders ref o hlookup
    rw [fitting_of_abs_le (ho.abs_sub_le hexecuted)]
    dsimp only [Option.bind_eq_bind, Option.bind_some]
    split_ifs with hused
    · exact ⟨rfl, (h.finish ref o.side o.price).mono (Nat.le_succ n)⟩
    · obtain ⟨hbook, hlevels⟩ := updateLevelChecked_eq o.side o.price h.levels hn
        (abs_int64_le hexecuted.abs_neg_le) (abs_zero.trans_le zero_le_one)
      rw [fitting_of_abs_le hexecuted.abs_neg_le, Option.bind_some, hbook]
      -- what is left of the order is positive and no more than there was
      have hleft : QtyFits (int64 (o.quantity - executed.toNat)) := by
        rw [int64_sub_of_qtyFits ho hexecuted] at hused ⊢
        have hhi := ho.2
        have hnonneg := hexecuted.1
        exact ⟨by omega, by omega⟩
      exact ⟨rfl, forall_lookup_insert hleft h.orders, hlevels⟩

/-- An event traps nowhere and keeps the bounds. -/
theorem Bounded.step (h : Bounded n c) (hn : n + 1 < 2 ^ 31) (e : OrderEvent) :
    c.stepChecked e = some (c.step e) ∧ Bounded (n + 1) (c.step e) := by
  cases e with
  | add ref side p qty => exact h.add hn ref side p qty
  | update ref newQty => exact h.update hn ref newQty
  | delete ref => exact h.delete hn ref
  | execute ref executed => exact h.execute hn ref executed

theorem Bounded.fresh : Bounded 0 ({} : Core k) where
  orders := by simp
  levels := by
    intro side i
    cases side <;> exact PriceLevel.within_default 0

end Bounds

/-! ### Runs -/

section Runs

variable {k : Fin 64}

theorem FeedHandler.core_processAll_receive (h : FeedHandler k) (bufs : List (List Byte)) :
    (h.processAll bufs).core = bufs.foldl Core.receive h.core := by
  rw [core_processAll, List.foldl_filterMap]
  congr 1
  funext c buf
  unfold Core.receive
  cases bufEvent buf <;> rfl

theorem Bounded.receive {n : ℕ} {c : Core k} (h : Bounded n c) (hn : n + 1 < 2 ^ 31)
    (buf : List Byte) :
    c.receiveChecked buf = some (c.receive buf) ∧ Bounded (n + 1) (c.receive buf) := by
  unfold Core.receiveChecked Core.receive
  cases FeedHandler.bufEvent buf with
  | none => exact ⟨rfl, h.mono (Nat.le_succ n)⟩
  | some e => exact h.step hn e

/-- **No signed overflow.** A fresh handler may process any fewer than `2 ^ 31` buffers: the
checked run ends, in the order map and the book of `process`. -/
theorem no_signed_overflow (h : FeedHandler k) (hfresh : h.core = {}) (bufs : List (List Byte))
    (hlen : bufs.length < 2 ^ 31) :
    bufs.foldlM Core.receiveChecked ({} : Core k) = some (h.processAll bufs).core := by
  rw [h.core_processAll_receive, hfresh]
  refine foldlM_eq_foldl (N := 2 ^ 31 - 1) (P := fun n c => Bounded n c) ?_ (by omega) Bounded.fresh
  intro n c buf hn hc
  exact hc.receive (by omega) buf

/-- Two orders of `2 ^ 32 - 1` at one price, the second executed beyond what it holds. -/
def overExecuted : List (List Byte) :=
  [buildAdd 0 1 charB 0xFFFFFFFF 100, buildAdd 0 2 charB 0xFFFFFFFF 100, buildExecute 0 2 1,
    buildExecute 0 2 0xFFFFFFFF]

theorem no_signed_overflow_overExecuted :
    overExecuted.length < 2 ^ 31 ∧
      overExecuted.foldlM Core.receiveChecked ({} : Core 3) =
        some (({} : FeedHandler 3).processAll overExecuted).core :=
  ⟨by decide, no_signed_overflow {} rfl overExecuted (by decide)⟩

end Runs

end HftKr260
