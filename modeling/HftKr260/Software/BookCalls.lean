import HftKr260.Software.LevelTable

/-!
# Calls on the book

The writing interface of the book as a whole: what holds after any sequence of
`update_level`, `remove_level` and `reset` calls, with any deltas and colliding prices.

The unused level is marked by a price of its own, `NULL_PRICE`, and nothing keeps a caller
from naming it. A quantity recorded there sits in slot 0 like any other, but the next write
to that slot takes the level for an unused one.

## Main results

* `representation_invariant` — slots and snapshot after calls that do not name the sentinel
* `price_isolation_iff` — when the operations on one price leave every other price alone
-/

set_option autoImplicit false

namespace HftKr260

/-- The calls that write the book. -/
inductive BookCall
  | updateLevel (side : Side) (price : ℤ) (qtyDelta : ℤ) (orderDelta : ℤ)
  | removeLevel (side : Side) (price : ℤ)
  | reset
  deriving DecidableEq, Repr

/-- A call on the book. -/
def OrderBook.apply {k : Fin 64} (b : OrderBook k) : BookCall → OrderBook k
  | .updateLevel side p qtyDelta orderDelta => b.updateLevel side p qtyDelta orderDelta
  | .removeLevel side p => b.removeLevel side p
  | .reset => b.reset

/-- The price a call names. -/
def BookCall.price : BookCall → Option ℤ
  | updateLevel _ price _ _ => some price
  | removeLevel _ price => some price
  | reset => none

namespace OrderBook

variable {k : Fin 64} {b : OrderBook k} {side other : Side} {p q : ℤ}

/-- A constructed book after some calls. -/
def after (calls : List BookCall) : OrderBook k := calls.foldl apply fresh

@[simp] theorem after_nil : (after [] : OrderBook k) = fresh := rfl

theorem after_concat (calls : List BookCall) (c : BookCall) :
    (after (calls ++ [c]) : OrderBook k) = (after calls).apply c :=
  List.foldl_append

/-- What holds of a constructed book and survives every call always holds. -/
theorem after_invariant {P : OrderBook k → Prop} {calls : List BookCall} (hfresh : P fresh)
    (hcall : ∀ b, ∀ c ∈ calls, P b → P (b.apply c)) : P (after calls) := by
  induction calls using List.reverseRecOn with
  | nil => exact hfresh
  | append_singleton calls c ih =>
    rw [after_concat]
    refine hcall _ c (by simp) (ih fun b d hd => hcall b d ?_)
    exact List.mem_append_left _ hd

theorem Keeps.apply {ok : Fin (2 ^ k.val) → PriceLevel → Prop} (hb : b.Keeps ok)
    (hunused : ∀ i, ok i {}) {c : BookCall}
    (hused : ∀ price, c.price = some price → ∀ qty n, 0 < qty →
      ok (slot k price) { price := price, quantity := qty, orders := n }) :
    (b.apply c).Keeps ok := by
  cases c with
  | updateLevel side price qtyDelta orderDelta =>
    exact hb.updateLevel (hunused _) (hused price rfl) _ _
  | removeLevel side price => exact hb.removeLevel (hunused _)
  | reset => exact keeps_reset hunused hb.idle

/-! ### Calls that do not name the sentinel -/

theorem wellFormed_after {calls : List BookCall}
    (hprice : ∀ c ∈ calls, c.price ≠ some nullPrice) :
    (after calls : OrderBook k).WellFormed := by
  refine after_invariant wellFormed_fresh fun b c hc hb => ?_
  rw [wellFormed_iff_keeps] at hb ⊢
  refine hb.apply slotOk_default fun price hnamed qty n hqty => ?_
  refine Or.inr ⟨rfl, ?_, hqty⟩
  rintro rfl
  exact hprice c hc hnamed

/-- The snapshot entry of a side copies its best non-empty slot, if there is one. -/
def ShowsBestSlot (b : OrderBook k) (side : Side) : Prop :=
  (b.tob.level side = {} ∧ ∀ i, (b.levels side i).Empty) ∨
    ∃ i, ¬ (b.levels side i).Empty ∧ b.tob.level side = b.levels side i ∧
      ∀ j, ¬ (b.levels side j).Empty → side.AtLeast (b.levels side i).price (b.levels side j).price

theorem WellFormed.showsBestSlot (h : b.WellFormed) (side : Side) : b.ShowsBestSlot side := by
  have hleads := leads_bestLevel side (b.levels side) fun i hi hnull =>
    absurd hnull (h.price_ne hi)
  rw [← h.top side] at hleads
  rcases hleads with hnone | ⟨i, hi, htop, hle⟩
  · exact Or.inl hnone
  · refine Or.inr ⟨i, hi, htop, fun j hj => ?_⟩
    exact (Side.rank_le_iff (h.price_ne hj) (h.price_ne hi)).mp (hle j hj)

/-- **The representation invariant.** After any calls that do not name the sentinel, each slot
is unused or holds a positive quantity at a price of its own, the snapshot copies the best
slot of each side, and the sequence number is even. -/
theorem representation_invariant (k : Fin 64) (calls : List BookCall)
    (hprice : ∀ c ∈ calls, c.price ≠ some nullPrice) :
    let b : OrderBook k := after calls
    (∀ side i, b.levels side i = {} ∨
      (slot k (b.levels side i).price = i ∧ (b.levels side i).price ≠ nullPrice ∧
        0 < (b.levels side i).quantity)) ∧
    (∀ side, b.ShowsBestSlot side) ∧ b.tobLock.seq.toNat % 2 = 0 :=
  have hb : (after calls : OrderBook k).WellFormed := wellFormed_after hprice
  ⟨hb.slots, hb.showsBestSlot, hb.idle⟩

/-- Two colliding bids, an ask that is taken off again, and a delta below zero. -/
theorem representation_invariant_collision :
    let b : OrderBook 3 := after [.updateLevel .bid 8 10 1, .updateLevel .bid 16 5 1,
      .updateLevel .ask 20 7 1, .removeLevel .ask 20, .updateLevel .bid 3 (-4) (-1)]
    (∀ side i, b.levels side i = {} ∨
      (slot 3 (b.levels side i).price = i ∧ (b.levels side i).price ≠ nullPrice ∧
        0 < (b.levels side i).quantity)) ∧
    (∀ side, b.ShowsBestSlot side) ∧ b.tobLock.seq.toNat % 2 = 0 :=
  representation_invariant 3 _ (by decide)

/-! ### Any calls -/

/-- A slot is unused or holds a positive quantity in its home slot, perhaps at the sentinel. -/
def Homed (i : Fin (2 ^ k.val)) (lv : PriceLevel) : Prop :=
  lv = {} ∨ (slot k lv.price = i ∧ 0 < lv.quantity)

theorem homed_default (i : Fin (2 ^ k.val)) : Homed i {} := Or.inl rfl

theorem keeps_fresh {ok : Fin (2 ^ k.val) → PriceLevel → Prop} (hunused : ∀ i, ok i {}) :
    (fresh : OrderBook k).Keeps ok := keeps_reset hunused rfl

theorem Keeps.apply_homed (hb : b.Keeps Homed) (c : BookCall) : (b.apply c).Keeps Homed :=
  hb.apply homed_default fun _ _ _ _ hqty => Or.inr ⟨rfl, hqty⟩

theorem homed_after (calls : List BookCall) : (after calls : OrderBook k).Keeps Homed :=
  after_invariant (keeps_fresh homed_default) fun _ c _ hb => hb.apply_homed c

theorem Homed.slot_eq {i : Fin (2 ^ k.val)} {lv : PriceLevel} (h : Homed i lv)
    (hne : ¬ lv.Empty) : slot k lv.price = i := by
  rcases h with rfl | ⟨hslot, -⟩
  · exact absurd PriceLevel.empty_default hne
  · exact hslot

theorem Homed.eq_default {i : Fin (2 ^ k.val)} {lv : PriceLevel} (h : Homed i lv)
    (hempty : lv.Empty) : lv = {} := by
  rcases h with hlv | ⟨-, hqty⟩
  · exact hlv
  · exact absurd hempty (not_le.mpr hqty)

/-- The low bits of the sentinel are zero. -/
theorem slot_nullPrice (k : Fin 64) : (slot k nullPrice).val = 0 := by
  have hbits : (BitVec.ofInt 64 nullPrice).toNat = 2 ^ 63 := by decide
  have hdvd : 2 ^ k.val ∣ 2 ^ 63 := Nat.pow_dvd_pow 2 (Nat.le_of_lt_succ k.isLt)
  show (BitVec.ofInt 64 nullPrice).toNat &&& (2 ^ k.val - 1) = 0
  rw [hbits, Nat.and_two_pow_sub_one_eq_mod]
  exact Nat.mod_eq_zero_of_dvd hdvd

/-- The slot of a price holds a quantity recorded at the sentinel. -/
def HoldsSentinel (b : OrderBook k) (side : Side) (p : ℤ) : Prop :=
  p ≠ nullPrice ∧ (b.levels side (slot k p)).price = nullPrice ∧
    ¬ (b.levels side (slot k p)).Empty

/-- From one book to the next at most one price of one side has changed. -/
structure OnlyTouches (side : Side) (p : ℤ) (b b' : OrderBook k) : Prop where
  quantity : ∀ q, q ≠ p → (b'.levelAt side q).quantity = (b.levelAt side q).quantity
  orders : ∀ q, q ≠ p → (b'.levelAt side q).orders = (b.levelAt side q).orders
  levels : ∀ other, other ≠ side → b'.levels other = b.levels other
  tob : ∀ other, other ≠ side → b'.tob.level other = b.tob.level other

theorem OnlyTouches.of_levelAt {b' : OrderBook k}
    (hlevelAt : ∀ q, q ≠ p → b'.levelAt side q = b.levelAt side q)
    (hlevels : ∀ other, other ≠ side → b'.levels other = b.levels other)
    (htob : ∀ other, other ≠ side → b'.tob.level other = b.tob.level other) :
    OnlyTouches side p b b' where
  quantity := fun q hq => by rw [hlevelAt q hq]
  orders := fun q hq => by rw [hlevelAt q hq]
  levels := hlevels
  tob := htob

/-- A price finds the level of its slot only. -/
theorem levelAt_update {b' : OrderBook k} {i : Fin (2 ^ k.val)} {lv : PriceLevel}
    (h : b'.levels side = Function.update (b.levels side) i lv) (q : ℤ) :
    b'.levelAt side q =
      if slot k q = i then (if lv.price = q then lv else {}) else b.levelAt side q := by
  unfold levelAt
  rw [h]
  by_cases hi : slot k q = i
  · subst hi
    rw [if_pos rfl, Function.update_self]
  · rw [if_neg hi, Function.update_of_ne hi]

theorem levelAt_congr {b' : OrderBook k} (h : b'.levels side = b.levels side) (q : ℤ) :
    b'.levelAt side q = b.levelAt side q := by
  unfold levelAt
  rw [h]

/-- A level that is unused or at another price is not found. -/
private theorem ite_price {lv : PriceLevel} (h : lv = {} ∨ lv.price ≠ q) :
    (if lv.price = q then lv else {}) = ({} : PriceLevel) := by
  rcases h with rfl | hne
  · exact ite_self _
  · exact if_neg hne

theorem levelAt_eq_default (h : b.levels side (slot k q) = {} ∨
    (b.levels side (slot k q)).price ≠ q) : b.levelAt side q = {} := ite_price h

/-- Rewriting the slot of a price, which held that price or nothing, hides nothing else. -/
theorem levelAt_rewrite {b' : OrderBook k} {lv : PriceLevel}
    (h : b'.levels side = Function.update (b.levels side) (slot k p) lv)
    (hold : b.levels side (slot k p) = {} ∨ (b.levels side (slot k p)).price = p)
    (hnew : lv = {} ∨ lv.price = p) (hq : q ≠ p) : b'.levelAt side q = b.levelAt side q := by
  rw [levelAt_update h]
  by_cases hslot : slot k q = slot k p
  · have hbefore : b.levelAt side q = {} := by
      refine levelAt_eq_default ?_
      rw [hslot]
      exact hold.imp_right fun heq => by rw [heq]; exact hq.symm
    rw [if_pos hslot, hbefore]
    exact ite_price (hnew.imp_right fun heq => by rw [heq]; exact hq.symm)
  · rw [if_neg hslot]

theorem tob_updateLevel_of_ne (h : other ≠ side) (qtyDelta orderDelta : ℤ) :
    (b.updateLevel side p qtyDelta orderDelta).tob.level other = b.tob.level other := by
  simp only [updateLevel]
  rw [tob_refreshTop_of_ne h]
  split_ifs <;> simp

theorem tob_removeLevel_of_ne (h : other ≠ side) :
    (b.removeLevel side p).tob.level other = b.tob.level other := by
  simp only [removeLevel]
  rw [tob_refreshTop_of_ne h]
  split_ifs <;> simp

/-- Removing a level touches nothing else. -/
theorem onlyTouches_removeLevel : OnlyTouches side p b (b.removeLevel side p) := by
  refine .of_levelAt (fun q hq => ?_) (fun other h => removeLevel_levels_of_ne h)
    fun other h => tob_removeLevel_of_ne h
  have hlevels := removeLevel_levels_self (b := b) (p := p) side
  by_cases hprice : (b.levels side (slot k p)).price = p
  · rw [if_pos hprice] at hlevels
    exact levelAt_rewrite hlevels (Or.inr hprice) (Or.inl rfl) hq
  · rw [if_neg hprice] at hlevels
    exact levelAt_congr hlevels q

/-- What `updateLevel` writes is the unused level or one at its price. -/
theorem updateLevel_writes (h : (b.levels side (slot k p)).price = nullPrice ∨
      (b.levels side (slot k p)).price = p) (qtyDelta orderDelta : ℤ) :
    ∃ lv : PriceLevel, (lv = {} ∨ lv.price = p) ∧
      (b.updateLevel side p qtyDelta orderDelta).levels side =
        Function.update (b.levels side) (slot k p) lv := by
  refine ⟨_, ?_, (updateLevel_levels_self side qtyDelta orderDelta).trans (if_pos h)⟩
  split_ifs
  · exact Or.inl rfl
  · exact Or.inr rfl

/-- A quantity recorded at the sentinel is lost to a write of another price to its slot. -/
theorem not_onlyTouches_of_sentinel (hb : b.Keeps Homed) (h : b.HoldsSentinel side p)
    (qtyDelta orderDelta : ℤ) :
    ¬ OnlyTouches side p b (b.updateLevel side p qtyDelta orderDelta) := by
  intro htouches
  obtain ⟨hp, hprice, hne⟩ := h
  have hslot : slot k nullPrice = slot k p := by
    rw [← hprice]
    exact (hb.slots side (slot k p)).slot_eq hne
  have hbefore : b.levelAt side nullPrice = b.levels side (slot k p) := by
    rw [levelAt, hslot, if_pos hprice]
  obtain ⟨lv, hlv, hlevels⟩ := updateLevel_writes (Or.inl hprice) qtyDelta orderDelta
  have hafter : (b.updateLevel side p qtyDelta orderDelta).levelAt side nullPrice = {} := by
    rw [levelAt_update hlevels, if_pos hslot]
    exact ite_price (hlv.imp_right fun heq => by rw [heq]; exact hp)
  have hquantity := htouches.quantity nullPrice hp.symm
  rw [hafter, hbefore] at hquantity
  exact hne hquantity.ge

/-- Otherwise a write touches nothing else. -/
theorem onlyTouches_updateLevel (hb : b.Keeps Homed) (h : ¬ b.HoldsSentinel side p)
    (qtyDelta orderDelta : ℤ) :
    OnlyTouches side p b (b.updateLevel side p qtyDelta orderDelta) := by
  refine .of_levelAt (fun q hq => ?_) (fun other hne => updateLevel_levels_of_ne hne _ _)
    fun other hne => tob_updateLevel_of_ne hne _ _
  by_cases hadm : (b.levels side (slot k p)).price = nullPrice ∨
      (b.levels side (slot k p)).price = p
  · obtain ⟨lv, hlv, hlevels⟩ := updateLevel_writes hadm qtyDelta orderDelta
    refine levelAt_rewrite hlevels ?_ hlv hq
    by_cases hprice : (b.levels side (slot k p)).price = p
    · exact Or.inr hprice
    · -- a level at the sentinel that is not the price's own is unused
      have hnull := hadm.resolve_right hprice
      have hempty : (b.levels side (slot k p)).Empty := by
        by_contra hne
        exact h ⟨fun heq => hprice (hnull.trans heq.symm), hnull, hne⟩
      exact Or.inl ((hb.slots side (slot k p)).eq_default hempty)
  · -- the write is dropped
    exact levelAt_congr ((updateLevel_levels_self side qtyDelta orderDelta).trans (if_neg hadm)) q

theorem WellFormed.not_holdsSentinel (h : b.WellFormed) : ¬ b.HoldsSentinel side p :=
  fun ⟨_, hprice, hne⟩ => h.price_ne hne hprice

/-- After calls that do not name the sentinel, every operation touches its price only. -/
theorem onlyTouches_of_unnamed {calls : List BookCall}
    (hprice : ∀ c ∈ calls, c.price ≠ some nullPrice) (qtyDelta orderDelta : ℤ) :
    OnlyTouches side p (after calls : OrderBook k)
      ((after calls).updateLevel side p qtyDelta orderDelta) :=
  onlyTouches_updateLevel (homed_after calls) (wellFormed_after hprice).not_holdsSentinel _ _

/-- **Operations on one price** leave every other price of the side and the whole other side
alone, exactly if no quantity is recorded at the sentinel in the slot of the price. -/
theorem price_isolation_iff (k : Fin 64) (calls : List BookCall) (side : Side)
    (p qtyDelta orderDelta : ℤ) :
    let b : OrderBook k := after calls
    (OnlyTouches side p b (b.updateLevel side p qtyDelta orderDelta) ∧
        OnlyTouches side p b (b.removeLevel side p)) ↔
      ¬ b.HoldsSentinel side p := by
  intro b
  have hb : b.Keeps Homed := homed_after calls
  constructor
  · rintro ⟨hupdate, -⟩ hsentinel
    exact not_onlyTouches_of_sentinel hb hsentinel qtyDelta orderDelta hupdate
  · exact fun h => ⟨onlyTouches_updateLevel hb h _ _, onlyTouches_removeLevel⟩

/-- 10 bid at `INT64_MIN`, then 5 at 0: the 10 are counted at 0. -/
theorem sentinel_price_merged :
    let b : OrderBook 13 := after [.updateLevel .bid nullPrice 10 1]
    (b.levelAt .bid nullPrice).quantity = 10 ∧
      ((b.updateLevel .bid 0 5 1).levelAt .bid 0).quantity = 15 ∧
      ¬ (OnlyTouches .bid 0 b (b.updateLevel .bid 0 5 1) ∧
        OnlyTouches .bid 0 b (b.removeLevel .bid 0)) := by
  refine ⟨by decide, by decide, fun h => ?_⟩
  have hquantity := h.1.quantity nullPrice (by decide)
  exact absurd hquantity (by decide)

end OrderBook

end HftKr260
