import HftKr260.Software.BookCalls
import Mathlib.Tactic.Linarith
import Mathlib.Tactic.NormNum

/-!
# The book inside a price window

What the circular price array is for: inside a window of `Capacity` consecutive prices
it is a price-keyed map. `PriceBook` is that map, one per side, with the two writes and
the reset in its own terms; `runCalls_refines_priceBook` says that any sequence of calls
whose prices stay in one window leaves the book and the map in step, and that the
snapshot is the map's best bid and ask.

The array index keeps only the low bits of the price, so the argument needs that no two
prices of a window share them, whether or not the window spans zero.
-/

set_option autoImplicit false

namespace HftKr260

open Foundation

/-! ### The price-keyed book -/

/-- What one side records: per price a quantity and an order count. -/
abbrev PriceMap := ℤ → Option (ℤ × ℤ)

namespace PriceMap

/-- Add both deltas to an entry, absent entries counting as zero; an entry left without
quantity is erased. -/
def update (m : PriceMap) (p : ℤ) (qtyDelta : ℤ) (orderDelta : ℤ) : PriceMap :=
  let e := (m p).getD (0, 0)
  Function.update m p
    (if e.1 + qtyDelta ≤ 0 then none else some (e.1 + qtyDelta, e.2 + orderDelta))

/-- Erase an entry. -/
def remove (m : PriceMap) (p : ℤ) : PriceMap := Function.update m p none

variable {m : PriceMap} {p q : ℤ}

theorem update_of_ne (h : q ≠ p) (qtyDelta : ℤ) (orderDelta : ℤ) :
    m.update p qtyDelta orderDelta q = m q := Function.update_of_ne h _ _

theorem remove_of_ne (h : q ≠ p) : m.remove p q = m q := Function.update_of_ne h _ _

@[simp] theorem remove_self : m.remove p p = none := Function.update_self _ _ _

end PriceMap

/-- The price maps of both sides. -/
abbrev PriceBook := Side → PriceMap

namespace PriceBook

def empty : PriceBook := fun _ _ => none

/-- A call on the price-keyed book. -/
def apply (m : PriceBook) : BookCall → PriceBook
  | .updateLevel side p qtyDelta orderDelta =>
      Function.update m side ((m side).update p qtyDelta orderDelta)
  | .removeLevel side p => Function.update m side ((m side).remove p)
  | .reset => empty

/-- The sums a call forms stay inside `int64_t` and `int32_t`. -/
def CallFits (m : PriceBook) : BookCall → Prop
  | .updateLevel side p qtyDelta orderDelta =>
      let e := (m side p).getD (0, 0)
      (-2 ^ 63 ≤ e.1 + qtyDelta ∧ e.1 + qtyDelta < 2 ^ 63) ∧
        (-2 ^ 31 ≤ e.2 + orderDelta ∧ e.2 + orderDelta < 2 ^ 31)
  | .removeLevel _ _ => True
  | .reset => True

instance (m : PriceBook) : DecidablePred m.CallFits
  | .updateLevel _ _ _ _ => inferInstanceAs (Decidable ((_ ∧ _) ∧ (_ ∧ _)))
  | .removeLevel _ _ => inferInstanceAs (Decidable True)
  | .reset => inferInstanceAs (Decidable True)

/-- No call of a sequence overflows. -/
def RunFits : PriceBook → List BookCall → Prop
  | _, [] => True
  | m, c :: cs => m.CallFits c ∧ (m.apply c).RunFits cs

theorem RunFits.left {m : PriceBook} {cs cs' : List BookCall} (h : m.RunFits (cs ++ cs')) :
    m.RunFits cs := by
  induction cs generalizing m with
  | nil => trivial
  | cons c cs ih => exact ⟨h.1, ih h.2⟩

end PriceBook

/-! ### Slots of a window -/

/-- Masking a price keeps its residue modulo the capacity. -/
theorem slot_val (k : Fin 64) (p : ℤ) : ((slot k p).val : ℤ) = p % 2 ^ k.val := by
  -- the capacity divides the word size, so the two residues agree
  have hdvd : (2 ^ k.val : ℤ) ∣ 2 ^ 64 := pow_dvd_pow 2 (by omega)
  simp only [slot, Nat.and_two_pow_sub_one_eq_mod, BitVec.toNat_ofInt]
  rw [Int.natCast_emod, Int.toNat_of_nonneg (Int.emod_nonneg _ (by norm_num))]
  push_cast
  exact Int.emod_emod_of_dvd p hdvd

/-- Prices share a slot exactly when they are congruent modulo the capacity. -/
theorem slot_eq_iff (k : Fin 64) (p q : ℤ) :
    slot k p = slot k q ↔ p % 2 ^ k.val = q % 2 ^ k.val := by
  rw [← slot_val, ← slot_val, Fin.ext_iff]
  exact Int.natCast_inj.symm

/-- The prices of the window that starts at `w`. -/
def window (w : ℤ) (k : Fin 64) : Set ℤ := {p | w ≤ p ∧ p < w + 2 ^ k.val}

/-- The sentinel lies below the windows considered. -/
theorem ne_nullPrice_of_mem_window {w : ℤ} {k : Fin 64} (hlo : nullPrice < w) {p : ℤ}
    (hp : p ∈ window w k) : p ≠ nullPrice := by
  rintro rfl
  exact absurd hp.1 (not_le.mpr hlo)

/-- No two prices of a window share a slot. -/
theorem slot_injOn_window (w : ℤ) (k : Fin 64) : (window w k).InjOn (slot k) := by
  intro p hp q hq h
  have hmod : p ≡ q [ZMOD 2 ^ k.val] := (slot_eq_iff k p q).mp h
  -- two prices of a window are less than a capacity apart
  have habs : |q - p| < 2 ^ k.val := by
    rw [abs_lt]
    obtain ⟨hp1, hp2⟩ := hp
    obtain ⟨hq1, hq2⟩ := hq
    constructor <;> linarith
  have hzero : q - p = 0 := Int.eq_zero_of_abs_lt_dvd hmod.dvd habs
  exact (sub_eq_zero.mp hzero).symm

/-- The price a call names lies in the window. -/
def BookCall.InWindow (w : ℤ) (k : Fin 64) : BookCall → Prop
  | .updateLevel _ p _ _ => p ∈ window w k
  | .removeLevel _ p => p ∈ window w k
  | .reset => True

/-! ### Refinement -/

section Refinement

variable {k : Fin 64} {b : OrderBook k} {m : PriceBook} {w : ℤ}

/-- The book records exactly the entries of a price-keyed book over the window. -/
structure Refines (w : ℤ) (b : OrderBook k) (m : PriceBook) : Prop where
  wellFormed : b.WellFormed
  entryAt : ∀ side, b.entryAt side = m side
  inWindow : ∀ side p e, m side p = some e → p ∈ window w k

theorem Refines.fresh : Refines w (OrderBook.fresh : OrderBook k) PriceBook.empty where
  wellFormed := OrderBook.wellFormed_fresh
  entryAt := fun side => funext fun p => OrderBook.entryAt_fresh
  inWindow := by simp [PriceBook.empty]

theorem Refines.admits (h : Refines w b m) (side : Side) {p : ℤ} (hp : p ∈ window w k) :
    DirectMap.Admits (slot k) (b.table side) p := by
  refine DirectMap.admits_of_injOn (slot_injOn_window w k) (h.wellFormed.placed side) ?_ hp
  intro q e hq
  exact h.inWindow side q e (h.entryAt side ▸ hq)

private theorem bump_eq {m : PriceBook} {side : Side} {p : ℤ} {qtyDelta : ℤ}
    {orderDelta : ℤ} (hfits : m.CallFits (.updateLevel side p qtyDelta orderDelta)) :
    OrderBook.bump qtyDelta orderDelta (m side p) =
      (m side).update p qtyDelta orderDelta p := by
  obtain ⟨⟨hqlo, hqhi⟩, hnlo, hnhi⟩ := hfits
  simp only [OrderBook.bump, PriceMap.update, Function.update_self]
  rw [int64_of_fits hqlo hqhi, int32_of_fits hnlo hnhi]

/-- Writing one side of both books keeps them in step. -/
private theorem Refines.write (h : Refines w b m) {b' : OrderBook k} {side : Side}
    {mside : PriceMap} {p : ℤ} (hwf : b'.WellFormed)
    (hother : ∀ other, other ≠ side → b'.entryAt other = b.entryAt other)
    (hself : b'.entryAt side = mside) (hmap : ∀ q, q ≠ p → mside q = m side q)
    (hp : p ∈ window w k) : Refines w b' (Function.update m side mside) where
  wellFormed := hwf
  entryAt := by
    intro s
    by_cases hs : s = side
    · subst hs
      rw [Function.update_self, hself]
    · rw [Function.update_of_ne hs, hother s hs, h.entryAt s]
  inWindow := by
    intro s q e hq
    by_cases hs : s = side
    · subst hs
      rw [Function.update_self] at hq
      by_cases hqp : q = p
      · exact hqp ▸ hp
      · exact h.inWindow s q e (hmap q hqp ▸ hq)
    · rw [Function.update_of_ne hs] at hq
      exact h.inWindow s q e hq

/-- One call inside the window keeps the books in step. -/
theorem Refines.apply (hlo : nullPrice < w) (h : Refines w b m) {c : BookCall}
    (hc : c.InWindow w k) (hfits : m.CallFits c) : Refines w (b.apply c) (m.apply c) := by
  cases c with
  | updateLevel side p qtyDelta orderDelta =>
    have hp := ne_nullPrice_of_mem_window hlo hc
    refine h.write (p := p) (h.wellFormed.updateLevel hp qtyDelta orderDelta) ?_ ?_ ?_ hc
    · exact fun other hne => OrderBook.entryAt_updateLevel_of_side_ne hne qtyDelta orderDelta
    · funext q
      by_cases hq : q = p
      · subst hq
        show (b.updateLevel side q qtyDelta orderDelta).entryAt side q = _
        rw [OrderBook.entryAt_updateLevel_self h.wellFormed hp (h.admits side hc), h.entryAt side,
          bump_eq hfits]
      · show (b.updateLevel side p qtyDelta orderDelta).entryAt side q = _
        rw [OrderBook.entryAt_updateLevel_of_ne h.wellFormed hp hq, h.entryAt side,
          PriceMap.update_of_ne hq]
    · exact fun q hq => PriceMap.update_of_ne hq _ _
  | removeLevel side p =>
    have hp := ne_nullPrice_of_mem_window hlo hc
    refine h.write (p := p) h.wellFormed.removeLevel ?_ ?_ ?_ hc
    · exact fun other hne => OrderBook.entryAt_removeLevel_of_side_ne hne
    · funext q
      by_cases hq : q = p
      · subst hq
        show (b.removeLevel side q).entryAt side q = _
        rw [OrderBook.entryAt_removeLevel_self h.wellFormed hp, PriceMap.remove_self]
      · show (b.removeLevel side p).entryAt side q = _
        rw [OrderBook.entryAt_removeLevel_of_ne h.wellFormed hp hq, h.entryAt side,
          PriceMap.remove_of_ne hq]
    · exact fun q hq => PriceMap.remove_of_ne hq
  | reset =>
    exact
      { wellFormed := OrderBook.wellFormed_reset h.wellFormed.idle
        entryAt := fun side => funext fun p => OrderBook.entryAt_reset
        inWindow := by simp [PriceBook.apply, PriceBook.empty] }

/-- Any sequence of calls inside the window keeps the books in step. -/
theorem Refines.run (hlo : nullPrice < w) (calls : List BookCall) (h : Refines w b m)
    (hwin : ∀ c ∈ calls, c.InWindow w k) (hfits : m.RunFits calls) :
    Refines w (calls.foldl OrderBook.apply b) (calls.foldl PriceBook.apply m) := by
  induction calls generalizing b m with
  | nil => exact h
  | cons c cs ih =>
    have hstep := h.apply hlo (hwin c List.mem_cons_self) hfits.1
    exact ih hstep (fun c' hc' => hwin c' (List.mem_cons_of_mem c hc')) hfits.2

/-- The non-empty slots of a refining book are the entries of the map. -/
theorem Refines.slots (h : Refines w b m) (side : Side) (p : ℤ) (qty : ℤ) (n : ℤ) :
    (∃ i, b.levels side i = { price := p, quantity := qty, orders := n } ∧
      ¬ (b.levels side i).Empty) ↔ m side p = some (qty, n) := by
  rw [← h.entryAt side]
  exact h.wellFormed.entryAt_eq_some.symm

/-- One slot each: a slot that is not empty is the home slot of its price. -/
theorem Refines.slot_unique (h : Refines w b m) (side : Side) (i j : Fin (2 ^ k.val))
    (hi : ¬ (b.levels side i).Empty) (hj : ¬ (b.levels side j).Empty)
    (hprice : (b.levels side i).price = (b.levels side j).price) : i = j := by
  have hhome (s : Fin (2 ^ k.val)) (hs : ¬ (b.levels side s).Empty) :
      slot k (b.levels side s).price = s :=
    h.wellFormed.placed side s _ ((b.levels side s).quantity, (b.levels side s).orders)
      ((h.wellFormed.slots side s).entry_eq_some.mpr ⟨rfl, hs⟩)
  rw [← hhome i hi, ← hhome j hj, hprice]

end Refinement

/-- **The circular array is a price-keyed map inside a window.** After every call of a
sequence whose prices lie in `[w, w + Capacity)`, the non-empty slots are the entries of
the price-keyed book under the same calls, one slot each, and the snapshot shows its best bid
and ask. -/
theorem runCalls_refines_priceBook (k : Fin 64) (w : ℤ) (hlo : nullPrice < w)
    (calls : List BookCall)
    (hwin : ∀ c ∈ calls, c.InWindow w k) (hfits : PriceBook.empty.RunFits calls)
    (done : List BookCall) (hdone : done <+: calls) :
    (∀ side p qty n,
      (∃ i, (done.foldl OrderBook.apply (OrderBook.fresh : OrderBook k)).levels side i =
          { price := p, quantity := qty, orders := n } ∧
        ¬ ((done.foldl OrderBook.apply (OrderBook.fresh : OrderBook k)).levels side i).Empty) ↔
      done.foldl PriceBook.apply PriceBook.empty side p = some (qty, n)) ∧
    (∀ side i j,
      ¬ ((done.foldl OrderBook.apply (OrderBook.fresh : OrderBook k)).levels side i).Empty →
      ¬ ((done.foldl OrderBook.apply (OrderBook.fresh : OrderBook k)).levels side j).Empty →
      ((done.foldl OrderBook.apply (OrderBook.fresh : OrderBook k)).levels side i).price =
        ((done.foldl OrderBook.apply (OrderBook.fresh : OrderBook k)).levels side j).price →
      i = j) ∧
    ∃ tob, (done.foldl OrderBook.apply (OrderBook.fresh : OrderBook k)).topOfBookSnapshot =
        some tob ∧
      ∀ side, IsBest side (done.foldl PriceBook.apply PriceBook.empty side) (tob.level side) := by
  obtain ⟨rest, rfl⟩ := hdone
  have h : Refines w (done.foldl OrderBook.apply (OrderBook.fresh : OrderBook k))
      (done.foldl PriceBook.apply PriceBook.empty) :=
    Refines.run hlo done Refines.fresh (fun c hc => hwin c (List.mem_append_left rest hc))
      hfits.left
  refine ⟨h.slots, h.slot_unique, _, h.wellFormed.snapshot, fun side => ?_⟩
  rw [← h.entryAt side]
  exact h.wellFormed.isBest side

/-- Calls on the window of four prices from `-2`. -/
def callsAcrossZero : List BookCall :=
  [.updateLevel .bid (-1) 10 1, .updateLevel .bid 1 5 1, .updateLevel .ask (-2) 7 1,
    .removeLevel .bid 1]

theorem snapshot_callsAcrossZero :
    ∃ tob,
      (callsAcrossZero.foldl OrderBook.apply (OrderBook.fresh : OrderBook 2)).topOfBookSnapshot =
        some tob ∧
      ∀ side, IsBest side (callsAcrossZero.foldl PriceBook.apply PriceBook.empty side)
        (tob.level side) := by
  refine (runCalls_refines_priceBook 2 (-2) (by decide) callsAcrossZero ?_ ?_ callsAcrossZero
    List.prefix_rfl).2.2
  · simp [callsAcrossZero, BookCall.InWindow, window]
  · exact ⟨by decide, by decide, by decide, trivial, trivial⟩

end HftKr260
