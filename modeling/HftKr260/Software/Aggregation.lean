import HftKr260.Software.PriceWindow
import HftKr260.Software.RestingOrders
import Mathlib.Tactic.Ring

/-!
# The book as the aggregate of the resting orders

The level of a price should show the total quantity and the number of the orders resting
there. The handlers keep the book by deltas, except where an order is used up: an Update
to zero and an Execute of the whole remainder remove the whole level. That is the same
thing only while the order is alone at its price.

`SoleFinish` is that condition on one event, `SoleFinishRun` on a run.
`levels_exact_iff_soleFinishRun` says that the aggregate is exact after every message of
a run if and only if the run meets it.

## Proof structure

`Exact` is the invariant: the book records the aggregate of the resting orders. One
lemma per kind of write carries it over an event (`Exact.add`, `Exact.replace`,
`Exact.cancel`, `Exact.finish`), and `not_agrees_of_shared` shows that an event outside the
condition breaks the agreement at once.
-/

set_option autoImplicit false

namespace HftKr260

open Foundation

/-! ### Runs under consideration -/

/-- No two resting prices of one side share a slot. -/
def NoCollision (k : Fin 64) (r : OrderMap) : Prop :=
  ∀ ref o ref' o', r.lookup ref = some o → r.lookup ref' = some o' → o.side = o'.side →
    o.price % 2 ^ k.val = o'.price % 2 ^ k.val → o.price = o'.price

/-- What the feed promises of an event: an Add names a reference that is not resting, a
positive quantity and a real price. -/
def Promised (r : OrderMap) : OrderEvent → Prop
  | .add ref _ price qty => r.lookup ref = none ∧ 0 < qty.toNat ∧ price ≠ nullPrice
  | _ => True

/-- A run whose events are as promised and whose resting prices never collide. -/
def PromisedRun (k : Fin 64) : OrderMap → List OrderEvent → Prop
  | _, [] => True
  | r, e :: es => Promised r e ∧ NoCollision k (restStep r e) ∧ PromisedRun k (restStep r e) es

/-- An event that uses an order up finds no other order at its price, and an Add does not
exhaust the order counter of its level. -/
def SoleFinish (r : OrderMap) : OrderEvent → Prop
  | .add _ side price _ => restingCount r side price < 2 ^ 31 - 1
  | .update ref newQty =>
      ∀ o, r.lookup ref = some o → newQty.toNat = 0 → restingCount r o.side o.price = 1
  | .delete _ => True
  | .execute ref executed =>
      ∀ o, r.lookup ref = some o → o.quantity ≤ executed.toNat →
        restingCount r o.side o.price = 1

/-- `SoleFinish` at every event of a run. -/
def SoleFinishRun : OrderMap → List OrderEvent → Prop
  | _, [] => True
  | r, e :: es => SoleFinish r e ∧ SoleFinishRun (restStep r e) es

instance (r : OrderMap) : DecidablePred (SoleFinish r)
  | .add _ _ _ _ => inferInstanceAs (Decidable (_ < _))
  | .update ref newQty =>
      decidable_of_iff (∀ o ∈ r.lookup ref, newQty.toNat = 0 → restingCount r o.side o.price = 1)
        Iff.rfl
  | .delete _ => inferInstanceAs (Decidable True)
  | .execute ref executed =>
      decidable_of_iff
        (∀ o ∈ r.lookup ref, o.quantity ≤ executed.toNat → restingCount r o.side o.price = 1)
        Iff.rfl

instance decidableSoleFinishRun : (r : OrderMap) → DecidablePred (SoleFinishRun r)
  | _, [] => inferInstanceAs (Decidable True)
  | r, e :: es =>
      haveI := decidableSoleFinishRun (restStep r e) es
      inferInstanceAs (Decidable (SoleFinish r e ∧ SoleFinishRun (restStep r e) es))

/-- The published level of a side: the best resting price with its totals. -/
def ShowsTop (r : OrderMap) (side : Side) (lv : PriceLevel) : Prop :=
  (lv = {} ∧ ∀ ref o, r.lookup ref = some o → o.side ≠ side) ∨
    ((∃ ref o, r.lookup ref = some o ∧ o.At side lv.price) ∧
      (∀ ref o, r.lookup ref = some o → o.side = side → side.AtLeast lv.price o.price) ∧
      lv.quantity = restingQty r side lv.price ∧ lv.orders = restingCount r side lv.price)

/-- Every level shows its total quantity and order count, and the snapshot the best bid
and ask with theirs. -/
structure Agrees {k : Fin 64} (b : OrderBook k) (r : OrderMap) : Prop where
  level : ∀ side p, (b.levelAt side p).quantity = restingQty r side p ∧
    (b.levelAt side p).orders = restingCount r side p
  top : ∃ tob, b.topOfBookSnapshot = some tob ∧ ∀ side, ShowsTop r side (tob.level side)

/-! ### The invariant -/

/-- The entry of a price with `n` orders and total quantity `q`. -/
def aggregate (q n : ℤ) : Option (ℤ × ℤ) := if n = 0 then none else some (q, n)

/-- Resting orders hold positive 32-bit quantities at real prices. -/
def OrderOk (o : RestingOrder) : Prop :=
  0 < o.quantity ∧ o.quantity < 2 ^ 32 ∧ o.price ≠ nullPrice

theorem OrderOk.qtyFits {o : RestingOrder} (h : OrderOk o) : QtyFits o.quantity := ⟨h.1.le, h.2.1⟩

theorem orderOk_add {r : OrderMap} {ref : BitVec 64} {side : Side} {price : ℤ} {qty : BitVec 32}
    (h : Promised r (.add ref side price qty)) :
    OrderOk { price := price, quantity := qty.toNat, side := side } := by
  refine ⟨?_, (qtyFits_toNat qty).2, h.2.2⟩
  show (0 : ℤ) < qty.toNat
  exact_mod_cast h.2.1

/-- The core records exactly the aggregate of the resting orders. -/
structure Exact {k : Fin 64} (c : Core k) (r : OrderMap) : Prop where
  wellFormed : c.book.WellFormed
  orders : c.orders = r
  orderOk : ∀ ref o, r.lookup ref = some o → OrderOk o
  apart : NoCollision k r
  entryAt : ∀ side p, c.book.entryAt side p =
    aggregate (restingQty r side p) (restingCount r side p)
  countFits : ∀ side p, restingCount r side p < 2 ^ 31

section Sums

variable {r : OrderMap}

theorem restingQty_eq_zero_of_count (side : Side) (p : ℤ) (h : restingCount r side p = 0) :
    restingQty r side p = 0 := by
  by_contra hne
  obtain ⟨ref, o, hlookup, hat⟩ := exists_of_restingQty_ne_zero hne
  have hpos := restingCount_pos hlookup
  rw [hat.1, hat.2] at hpos
  omega

variable (hok : ∀ ref o, r.lookup ref = some o → OrderOk o)
include hok

/-- A positive quantity rests exactly where orders do. -/
theorem restingQty_pos_of_count (side : Side) (p : ℤ) (h : restingCount r side p ≠ 0) :
    0 < restingQty r side p := by
  obtain ⟨ref, o, hlookup, hat⟩ := exists_of_restingCount_ne_zero h
  have hle := KeyedSum.le_total (f := fun o' : RestingOrder => o'.qtyAt side p)
    (fun ref' o' h' => by
      have hpos := (hok ref' o' h').1
      unfold RestingOrder.qtyAt
      split_ifs <;> omega) hlookup
  have hterm : o.qtyAt side p = o.quantity := if_pos hat
  have hpos := (hok ref o hlookup).1
  unfold restingQty
  omega

/-- Below the counter's range the total quantity stays far inside `int64_t`. -/
theorem restingQty_le (side : Side) (p : ℤ) :
    restingQty r side p ≤ restingCount r side p * (2 ^ 32 - 1) := by
  -- order by order: no order has more than 2 ^ 32 - 1
  have hdiff : 0 ≤ KeyedSum.total
      (fun o : RestingOrder => o.countAt side p * (2 ^ 32 - 1) - o.qtyAt side p) r := by
    apply KeyedSum.total_nonneg
    intro ref o h
    have hhi := (hok ref o h).2.1
    unfold RestingOrder.countAt RestingOrder.qtyAt
    split_ifs <;> omega
  have hsplit : KeyedSum.total
      (fun o : RestingOrder => o.countAt side p * (2 ^ 32 - 1) - o.qtyAt side p) r =
        restingCount r side p * (2 ^ 32 - 1) - restingQty r side p := by
    unfold restingCount restingQty KeyedSum.total
    induction r.entries with
    | nil => rfl
    | cons e es ih =>
      simp only [List.map_cons, List.sum_cons, ih]
      ring
  omega

end Sums

/-- Deltas on an aggregate entry, when the sums fit and quantity goes with orders. -/
theorem bump_aggregate {q n dq dn : ℤ} (hzero : n = 0 → q = 0) (hsame : n + dn = 0 ↔ q + dq ≤ 0)
    (hqlo : -2 ^ 63 ≤ q + dq) (hqhi : q + dq < 2 ^ 63) (hnlo : -2 ^ 31 ≤ n + dn)
    (hnhi : n + dn < 2 ^ 31) :
    OrderBook.bump dq dn (aggregate q n) = aggregate (q + dq) (n + dn) := by
  -- the entry of no orders reads as (0, 0), which is what they add up to
  have hgetD : (aggregate q n).getD (0, 0) = (q, n) := by
    unfold aggregate
    split_ifs with hn
    · simp [hn, hzero hn]
    · rfl
  unfold OrderBook.bump
  rw [hgetD]
  dsimp only
  rw [int64_of_fits hqlo hqhi, int32_of_fits hnlo hnhi]
  unfold aggregate
  simp only [hsame]

section Step

variable {k : Fin 64} {c : Core k} {r : OrderMap} {ref : BitVec 64} {o : RestingOrder}

theorem Exact.entry_some_of_lookup (h : Exact c r) (ho : r.lookup ref = some o) :
    ∃ e, c.book.entryAt o.side o.price = some e := by
  rw [h.entryAt]
  have hpos := restingCount_pos ho
  exact ⟨_, if_neg (by omega)⟩

theorem Exact.admits_of_lookup (h : Exact c r) (ho : r.lookup ref = some o) :
    DirectMap.Admits (slot k) (c.book.table o.side) o.price := by
  obtain ⟨e, he⟩ := h.entry_some_of_lookup ho
  exact DirectMap.admits_of_lookup he

/-- A fresh order that collides with none finds its slot free or at its own price. -/
theorem Exact.admits_of_insert (h : Exact c r) (hfresh : r.lookup ref = none)
    (hapart : NoCollision k (r.insert ref o)) :
    DirectMap.Admits (slot k) (c.book.table o.side) o.price := by
  refine h.wellFormed.admits fun q e hq hslot => ?_
  -- a recorded price has an order resting on it, and that order keeps its distance
  have hcount : restingCount r o.side q ≠ 0 := by
    intro hzero
    rw [h.entryAt, hzero] at hq
    simp [aggregate] at hq
  obtain ⟨ref', o', ho', hside, rfl⟩ := exists_of_restingCount_ne_zero hcount
  have hkeep : (r.insert ref o).lookup ref' = some o' := by
    rw [lookup_insert_eq, if_neg]
    · exact ho'
    · rintro rfl
      simp [hfresh] at ho'
  have hnew : (r.insert ref o).lookup ref = some o := by simp
  exact hapart ref' o' ref o hkeep hnew hside ((slot_eq_iff k o'.price o.price).mp hslot)

/-- The entries of a book written at one side and price. -/
private theorem entryAt_write (b : OrderBook k) {b' : OrderBook k} (side : Side) (p : ℤ)
    {r' : OrderMap}
    (hother : ∀ s q, ¬ (s = side ∧ q = p) → b'.entryAt s q = b.entryAt s q)
    (hself : b'.entryAt side p = aggregate (restingQty r' side p) (restingCount r' side p))
    (hsame : ∀ s q, ¬ (s = side ∧ q = p) →
      b.entryAt s q = aggregate (restingQty r' s q) (restingCount r' s q)) :
    ∀ s q, b'.entryAt s q = aggregate (restingQty r' s q) (restingCount r' s q) := by
  intro s q
  by_cases hsq : s = side ∧ q = p
  · obtain ⟨rfl, rfl⟩ := hsq
    exact hself
  · rw [hother s q hsq]
    exact hsame s q hsq

/-- Updating a level by the change of the orders resting there keeps the aggregate. -/
private theorem Exact.updateLevel (h : Exact c r) {side : Side} {p : ℤ} {r' : OrderMap}
    {dq dn : ℤ} (hp : p ≠ nullPrice) (hadm : DirectMap.Admits (slot k) (c.book.table side) p)
    (hqty : restingQty r' side p = restingQty r side p + dq)
    (hcount : restingCount r' side p = restingCount r side p + dn)
    (hqtyOther : ∀ s q, ¬ (s = side ∧ q = p) → restingQty r' s q = restingQty r s q)
    (hcountOther : ∀ s q, ¬ (s = side ∧ q = p) → restingCount r' s q = restingCount r s q)
    (hok : ∀ ref o, r'.lookup ref = some o → OrderOk o) (hapart : NoCollision k r')
    (hfits : restingCount r' side p < 2 ^ 31) :
    Exact { book := c.book.updateLevel side p dq dn, orders := r' } r' where
  wellFormed := h.wellFormed.updateLevel hp dq dn
  orders := rfl
  orderOk := hok
  apart := hapart
  entryAt := by
    refine entryAt_write c.book side p
      (fun s q hsq => OrderBook.entryAt_updateLevel_other h.wellFormed hp hsq dq dn) ?_ ?_
    · show (c.book.updateLevel side p dq dn).entryAt side p = _
      have hnonneg := restingCount_nonneg r' side p
      have hqnonneg := restingQty_nonneg (fun ref o h => (hok ref o h).1.le) side p
      have hqle := restingQty_le hok side p
      rw [OrderBook.entryAt_updateLevel_self h.wellFormed hp hadm, h.entryAt, hqty, hcount]
      refine bump_aggregate (restingQty_eq_zero_of_count side p) ?_ ?_ ?_ ?_ ?_
      · rw [← hcount, ← hqty]
        constructor
        · exact fun hn => (restingQty_eq_zero_of_count side p hn).le
        · intro hq
          by_contra hn
          exact absurd (restingQty_pos_of_count hok side p hn) (not_lt.mpr hq)
      all_goals omega
    · intro s q hsq
      rw [hqtyOther s q hsq, hcountOther s q hsq]
      exact h.entryAt s q
  countFits := by
    intro s q
    by_cases hsq : s = side ∧ q = p
    · rw [hsq.1, hsq.2]
      exact hfits
    · rw [hcountOther s q hsq]
      exact h.countFits s q

/-- A fresh order adds itself to its level. -/
theorem Exact.add (h : Exact c r) (hfresh : r.lookup ref = none) (hok : OrderOk o)
    (hapart : NoCollision k (r.insert ref o))
    (hfits : restingCount r o.side o.price < 2 ^ 31 - 1) :
    Exact { book := c.book.updateLevel o.side o.price o.quantity 1, orders := r.insert ref o }
      (r.insert ref o) := by
  refine h.updateLevel hok.2.2 ?_ ?_ ?_ ?_ ?_ (forall_lookup_insert hok h.orderOk) hapart ?_
  · exact h.admits_of_insert hfresh hapart
  · rw [restingQty_insert_fresh hfresh, RestingOrder.qtyAt_self]
  · rw [restingCount_insert_fresh hfresh, RestingOrder.countAt_self]
  · intro s q hsq
    rw [restingQty_insert_fresh hfresh, RestingOrder.qtyAt_of_ne hsq, add_zero]
  · intro s q hsq
    rw [restingCount_insert_fresh hfresh, RestingOrder.countAt_of_ne hsq, add_zero]
  · rw [restingCount_insert_fresh hfresh, RestingOrder.countAt_self]
    omega

/-- Resting prices stay apart when an order keeps its side and price. -/
theorem NoCollision.replace (h : NoCollision k r) (ho : r.lookup ref = some o) (q : ℤ) :
    NoCollision k (r.insert ref { o with quantity := q }) := by
  intro ref₁ o₁ ref₂ o₂ h₁ h₂ hside hmod
  obtain ⟨o₁', h₁', hs₁, hp₁⟩ := exists_of_lookup_resize ho h₁
  obtain ⟨o₂', h₂', hs₂, hp₂⟩ := exists_of_lookup_resize ho h₂
  rw [← hp₁, ← hp₂] at hmod ⊢
  exact h ref₁ o₁' ref₂ o₂' h₁' h₂' (by rw [hs₁, hs₂, hside]) hmod

theorem NoCollision.erase (h : NoCollision k r) : NoCollision k (r.erase ref) := by
  intro ref₁ o₁ ref₂ o₂ h₁ h₂
  exact h ref₁ o₁ ref₂ o₂ (lookup_of_lookup_erase h₁).2 (lookup_of_lookup_erase h₂).2

/-- An order whose quantity changes moves its level by the difference. -/
theorem Exact.replace (h : Exact c r) (ho : r.lookup ref = some o) {q : ℤ}
    (hpos : 0 < q) (hlt : q < 2 ^ 32) :
    Exact
      { book := c.book.updateLevel o.side o.price (q - o.quantity) 0
        orders := r.insert ref { o with quantity := q } }
      (r.insert ref { o with quantity := q }) := by
  have hok := h.orderOk ref o ho
  have hcount : ∀ s p, restingCount (r.insert ref { o with quantity := q }) s p =
      restingCount r s p := by
    intro s p
    rw [restingCount_replace ho]
    have hsame : ({ o with quantity := q } : RestingOrder).countAt s p = o.countAt s p := rfl
    omega
  refine h.updateLevel hok.2.2 (h.admits_of_lookup ho) ?_ ?_ ?_ ?_
    (forall_lookup_insert ⟨hpos, hlt, hok.2.2⟩ h.orderOk) (h.apart.replace ho q) ?_
  · rw [restingQty_replace ho, RestingOrder.qtyAt_self]
    have hnew : ({ o with quantity := q } : RestingOrder).qtyAt o.side o.price = q :=
      if_pos ⟨rfl, rfl⟩
    omega
  · rw [hcount, add_zero]
  · intro s p hsp
    have hold : o.qtyAt s p = 0 := RestingOrder.qtyAt_of_ne hsp
    have hnew : ({ o with quantity := q } : RestingOrder).qtyAt s p = 0 :=
      RestingOrder.qtyAt_of_ne hsp
    rw [restingQty_replace ho]
    omega
  · exact fun s p _ => hcount s p
  · rw [hcount]
    exact h.countFits _ _

/-- A cancelled order takes itself out of its level. -/
theorem Exact.cancel (h : Exact c r) (ho : r.lookup ref = some o) :
    Exact
      { book := c.book.updateLevel o.side o.price (-o.quantity) (-1), orders := r.erase ref }
      (r.erase ref) := by
  have hok := h.orderOk ref o ho
  have hcount := restingCount_erase ho o.side o.price
  have hfits := h.countFits o.side o.price
  rw [RestingOrder.countAt_self] at hcount
  refine h.updateLevel hok.2.2 (h.admits_of_lookup ho) ?_ ?_ ?_ ?_
    (forall_lookup_erase h.orderOk) h.apart.erase (by omega)
  · rw [restingQty_erase ho, RestingOrder.qtyAt_self]
    omega
  · omega
  · intro s p hsp
    rw [restingQty_erase ho, RestingOrder.qtyAt_of_ne hsp, sub_zero]
  · intro s p hsp
    rw [restingCount_erase ho, RestingOrder.countAt_of_ne hsp, sub_zero]

/-- A sole order that is used up leaves with its whole level. -/
theorem Exact.finish (h : Exact c r) (ho : r.lookup ref = some o)
    (hsole : restingCount r o.side o.price = 1) :
    Exact { book := c.book.removeLevel o.side o.price, orders := r.erase ref } (r.erase ref) where
  wellFormed := h.wellFormed.removeLevel
  orders := rfl
  orderOk := forall_lookup_erase h.orderOk
  apart := h.apart.erase
  entryAt := by
    have hok := h.orderOk ref o ho
    refine entryAt_write c.book o.side o.price
      (fun s q hsq => OrderBook.entryAt_removeLevel_other h.wellFormed hok.2.2 hsq) ?_ ?_
    · show (c.book.removeLevel o.side o.price).entryAt o.side o.price = _
      rw [OrderBook.entryAt_removeLevel_self h.wellFormed hok.2.2, restingCount_erase ho,
        RestingOrder.countAt_self, hsole]
      rfl
    · intro s q hsq
      rw [restingQty_erase ho, restingCount_erase ho, RestingOrder.qtyAt_of_ne hsq,
        RestingOrder.countAt_of_ne hsq, sub_zero, sub_zero]
      exact h.entryAt s q
  countFits := by
    intro s q
    have hterm := o.countAt_nonneg s q
    have hfits := h.countFits s q
    rw [restingCount_erase ho]
    omega

/-- A promised event inside the condition keeps the aggregate exact. -/
theorem Exact.step (h : Exact c r) {e : OrderEvent} (hprom : Promised r e)
    (hapart : NoCollision k (restStep r e)) (hsole : SoleFinish r e) :
    Exact (c.step e) (restStep r e) := by
  have horders := h.orders
  cases e with
  | add ref side price qty =>
    have hadd := h.add hprom.1 (orderOk_add hprom) hapart hsole
    simpa only [Core.step, restStep, horders] using hadd
  | update ref newQty =>
    simp only [Core.step, restStep, horders]
    cases ho : r.lookup ref with
    | none => exact h
    | some o =>
      by_cases hzero : newQty.toNat = 0
      · -- the order is used up and was alone
        have hfinish := h.finish ho (hsole o ho hzero)
        simpa [hzero] using hfinish
      · have hpos : 0 < (newQty.toNat : ℤ) := by omega
        have hreplace := h.replace ho hpos (qtyFits_toNat newQty).2
        have hdelta := int64_sub_of_qtyFits (qtyFits_toNat newQty) (h.orderOk ref o ho).qtyFits
        simpa only [hzero, if_false, not_le.mpr hpos, hdelta] using hreplace
  | delete ref =>
    simp only [Core.step, restStep, horders]
    cases ho : r.lookup ref with
    | none =>
      rw [KeyedSum.erase_of_lookup_none ho]
      exact h
    | some o =>
      have hneg := int64_neg_of_qtyFits (h.orderOk ref o ho).qtyFits
      simpa only [hneg] using h.cancel ho
  | execute ref executed =>
    simp only [Core.step, restStep, horders]
    cases ho : r.lookup ref with
    | none => exact h
    | some o =>
      have hok := h.orderOk ref o ho
      have hsub := int64_sub_of_qtyFits hok.qtyFits (qtyFits_toNat executed)
      have hneg := int64_neg_of_qtyFits (qtyFits_toNat executed)
      simp only [hsub, hneg]
      by_cases hdone : o.quantity - executed.toNat ≤ 0
      · have hfinish := h.finish ho (hsole o ho (by omega))
        simpa only [hdone, if_true] using hfinish
      · have hreplace := h.replace ho (q := o.quantity - executed.toNat) (by omega)
          (by have := hok.2.1; omega)
        have hdelta : o.quantity - executed.toNat - o.quantity = -(executed.toNat : ℤ) := by ring
        simpa only [hdone, if_false, hdelta] using hreplace

end Step

/-! ### Agreement -/

section Agreement

variable {k : Fin 64} {c : Core k} {r : OrderMap} {ref : BitVec 64} {o : RestingOrder}

theorem getD_aggregate (side : Side) (p : ℤ) :
    (aggregate (restingQty r side p) (restingCount r side p)).getD (0, 0) =
      (restingQty r side p, restingCount r side p) := by
  unfold aggregate
  split_ifs with hn
  · simp [hn, restingQty_eq_zero_of_count side p hn]
  · rfl

/-- The best recorded entry is the best resting price with its totals. -/
theorem Exact.showsTop (h : Exact c r) {side : Side} {lv : PriceLevel}
    (hbest : IsBest side (c.book.entryAt side) lv) : ShowsTop r side lv := by
  rcases hbest with ⟨rfl, hnone⟩ | ⟨hlv, hbest⟩
  · refine Or.inl ⟨rfl, fun ref o ho hside => ?_⟩
    subst hside
    obtain ⟨e, he⟩ := h.entry_some_of_lookup ho
    rw [hnone o.price] at he
    exact absurd he (by simp)
  · rw [h.entryAt, aggregate] at hlv
    split_ifs at hlv with hn
    obtain ⟨hqty, hcount⟩ := Prod.mk.inj (Option.some.inj hlv)
    refine Or.inr ⟨exists_of_restingCount_ne_zero hn, fun ref o ho hside => ?_, hqty.symm,
      hcount.symm⟩
    subst hside
    obtain ⟨e, he⟩ := h.entry_some_of_lookup ho
    exact hbest o.price (by simp [he])

/-- An exact core agrees with the resting orders. -/
theorem Exact.agrees (h : Exact c r) : Agrees c.book r where
  level := by
    intro side p
    have hlevel := h.wellFormed.levelAt_eq side p
    rw [h.entryAt, getD_aggregate] at hlevel
    exact Prod.mk.inj hlevel
  top := ⟨_, h.wellFormed.snapshot, fun side => h.showsTop (h.wellFormed.isBest side)⟩

/-- Removing the level of an order that is not alone there loses the others. -/
theorem Exact.not_agrees_removeLevel (h : Exact c r) (ho : r.lookup ref = some o)
    (hshared : restingCount r o.side o.price ≠ 1) :
    ¬ Agrees (c.book.removeLevel o.side o.price) (r.erase ref) := by
  intro hagrees
  have hok := h.orderOk ref o ho
  have hwf : (c.book.removeLevel o.side o.price).WellFormed := h.wellFormed.removeLevel
  have hlevel := hwf.levelAt_eq o.side o.price
  rw [OrderBook.entryAt_removeLevel_self h.wellFormed hok.2.2] at hlevel
  have hzero := (Prod.mk.inj hlevel).2
  -- the level shows no orders, but those that shared it still rest
  have hcount := (hagrees.level o.side o.price).2
  have hpos := restingCount_pos ho
  rw [hzero, restingCount_erase ho, RestingOrder.countAt_self] at hcount
  omega

/-- An Add to a level whose counter is exhausted leaves a wrong count. -/
theorem Exact.not_agrees_overflow (h : Exact c r) (hfresh : r.lookup ref = none)
    (hok : OrderOk o) (hapart : NoCollision k (r.insert ref o))
    (hfull : ¬ restingCount r o.side o.price < 2 ^ 31 - 1) :
    ¬ Agrees (c.book.updateLevel o.side o.price o.quantity 1) (r.insert ref o) := by
  intro hagrees
  have hadm := h.admits_of_insert hfresh hapart
  have hwf : (c.book.updateLevel o.side o.price o.quantity 1).WellFormed :=
    h.wellFormed.updateLevel hok.2.2 o.quantity 1
  have hlevel := hwf.levelAt_eq o.side o.price
  rw [OrderBook.entryAt_updateLevel_self h.wellFormed hok.2.2 hadm] at hlevel
  have hcount := (hagrees.level o.side o.price).2
  rw [restingCount_insert_fresh hfresh, RestingOrder.countAt_self] at hcount
  -- an `int32_t` never shows the count the level has now
  have hlt :
      ((OrderBook.bump o.quantity 1 (c.book.entryAt o.side o.price)).getD (0, 0)).2 < 2 ^ 31 := by
    unfold OrderBook.bump
    dsimp only
    split_ifs
    · simp
    · exact int32_lt _
  have horders := congrArg Prod.snd hlevel
  dsimp only at horders
  omega

/-- An event outside the condition breaks the agreement at once. -/
theorem Exact.not_agrees_of_shared (h : Exact c r) {e : OrderEvent} (hprom : Promised r e)
    (hapart : NoCollision k (restStep r e)) (hshared : ¬ SoleFinish r e) :
    ¬ Agrees (c.step e).book (restStep r e) := by
  have horders := h.orders
  cases e with
  | add ref side price qty =>
    have hok : OrderOk { price := price, quantity := qty.toNat, side := side } :=
      orderOk_add hprom
    exact h.not_agrees_overflow hprom.1 hok hapart hshared
  | update ref newQty =>
    simp only [SoleFinish, not_forall] at hshared
    obtain ⟨o, ho, hzero, hcount⟩ := hshared
    have hnot := h.not_agrees_removeLevel ho hcount
    simpa [Core.step, restStep, horders, ho, hzero] using hnot
  | delete ref => exact absurd trivial hshared
  | execute ref executed =>
    simp only [SoleFinish, not_forall] at hshared
    obtain ⟨o, ho, hdone, hcount⟩ := hshared
    have hsub := int64_sub_of_qtyFits (h.orderOk ref o ho).qtyFits (qtyFits_toNat executed)
    have hle : o.quantity - executed.toNat ≤ 0 := by omega
    have hnot := h.not_agrees_removeLevel ho hcount
    simpa only [Core.step, restStep, horders, ho, hsub, hle, if_true] using hnot

/-- From an exact core, agreement along a run is the condition along the run. -/
theorem Exact.agrees_run_iff {evs : List OrderEvent} (h : Exact c r) (hrun : PromisedRun k r evs) :
    (∀ done, done <+: evs → Agrees (done.foldl Core.step c).book (done.foldl restStep r)) ↔
      SoleFinishRun r evs := by
  induction evs generalizing c r with
  | nil =>
    refine ⟨fun _ => trivial, fun _ done hdone => ?_⟩
    rw [List.prefix_nil.mp hdone]
    exact h.agrees
  | cons e es ih =>
    obtain ⟨hprom, hapart, hrest⟩ := hrun
    constructor
    · intro hall
      -- the prefix that ends with `e` already breaks the agreement
      have hsole : SoleFinish r e := by
        by_contra hshared
        exact h.not_agrees_of_shared hprom hapart hshared (hall [e] (by simp))
      refine ⟨hsole, (ih (h.step hprom hapart hsole) hrest).mp fun done hdone => ?_⟩
      exact hall (e :: done) ((List.prefix_cons_inj e).mpr hdone)
    · rintro ⟨hsole, htail⟩ done hdone
      cases done with
      | nil => exact h.agrees
      | cons d ds =>
        obtain ⟨rfl, hds⟩ := List.cons_prefix_cons.mp hdone
        exact (ih (h.step hprom hapart hsole) hrest).mpr htail ds hds

theorem Exact.fresh : Exact ({} : Core k) ∅ where
  wellFormed := OrderBook.wellFormed_fresh
  orders := rfl
  orderOk := by simp
  apart := by simp [NoCollision]
  entryAt := fun _ _ => OrderBook.entryAt_fresh
  countFits := by simp

end Agreement

/-- **The aggregate is exact exactly while orders are used up alone.** On any run of
encoded messages from a fresh handler, the levels and the snapshot agree with the resting
orders after every message if and only if every Update to zero and every Execute of the
remainder meets its order alone at its price (and no level counts past `int32_t`). -/
theorem levels_exact_iff_soleFinishRun (k : Fin 64) (h : FeedHandler k) (hfresh : h.core = {})
    (ms : List Msg) (hrun : PromisedRun k ∅ (events ms)) :
    (∀ done, done <+: ms →
      Agrees (h.processAll (done.map Msg.encode)).book (resting (events done))) ↔
        SoleFinishRun ∅ (events ms) := by
  have hbook (done : List Msg) := FeedHandler.book_processAll_encode hfresh done
  rw [← Exact.fresh.agrees_run_iff hrun]
  constructor
  · intro hall evs hevs
    obtain ⟨done, hdone, rfl⟩ := List.prefix_filterMap_iff.mp hevs
    have hagrees := hall done hdone
    rwa [hbook] at hagrees
  · intro hall done hdone
    rw [hbook]
    exact hall (events done) (hdone.filterMap Msg.event)

/-- Prices never collide while a side has only one. -/
theorem NoCollision.of_price {k : Fin 64} {r : OrderMap} (price : Side → ℤ)
    (h : ∀ ref o, r.lookup ref = some o → o.price = price o.side) : NoCollision k r := by
  intro ref o ref' o' ho ho' hside _
  rw [h ref o ho, h ref' o' ho', hside]

/-- Two bids at one price: the first is reduced and deleted, the second executed to the end. -/
def sharedLevel : List Msg :=
  [.add ⟨0, 1, charB, 10, 100⟩, .add ⟨0, 2, charB, 5, 100⟩, .update ⟨0, 1, 4⟩, .delete ⟨0, 1⟩,
    .execute ⟨0, 2, 5⟩]

theorem promisedRun_sharedLevel : PromisedRun 8 ∅ (events sharedLevel) := by
  refine ⟨⟨rfl, by decide, by decide⟩, .of_price (fun _ => 100) ?_,
    ⟨by decide, by decide, by decide⟩, .of_price (fun _ => 100) ?_, trivial,
    .of_price (fun _ => 100) ?_, trivial, .of_price (fun _ => 100) ?_, trivial,
    .of_price (fun _ => 100) ?_, trivial⟩
  · exact forall_lookup_insert rfl (by simp)
  · exact forall_lookup_insert rfl (forall_lookup_insert rfl (by simp))
  · exact forall_lookup_insert rfl (forall_lookup_insert rfl (forall_lookup_insert rfl (by simp)))
  · exact forall_lookup_erase
      (forall_lookup_insert rfl (forall_lookup_insert rfl (forall_lookup_insert rfl (by simp))))
  · exact forall_lookup_erase (forall_lookup_erase
      (forall_lookup_insert rfl (forall_lookup_insert rfl (forall_lookup_insert rfl (by simp)))))

/-- The second is alone when it is used up. -/
theorem levels_exact_sharedLevel :
    SoleFinishRun ∅ (events sharedLevel) ∧ ∀ done, done <+: sharedLevel →
      Agrees (({} : FeedHandler 8).processAll (done.map Msg.encode)).book
        (resting (events done)) := by
  have hsole : SoleFinishRun ∅ (events sharedLevel) := by decide
  exact ⟨hsole,
    (levels_exact_iff_soleFinishRun 8 {} rfl sharedLevel promisedRun_sharedLevel).mpr hsole⟩

/-- Two bids at one price, the first of them updated to zero. -/
def sharedFinish : List Msg :=
  [.add ⟨0, 1, charB, 10, 100⟩, .add ⟨0, 2, charB, 5, 100⟩, .update ⟨0, 1, 0⟩]

theorem promisedRun_sharedFinish : PromisedRun 8 ∅ (events sharedFinish) := by
  refine ⟨⟨rfl, by decide, by decide⟩, .of_price (fun _ => 100) ?_,
    ⟨by decide, by decide, by decide⟩, .of_price (fun _ => 100) ?_, trivial,
    .of_price (fun _ => 100) ?_, trivial⟩
  · exact forall_lookup_insert rfl (by simp)
  · exact forall_lookup_insert rfl (forall_lookup_insert rfl (by simp))
  · exact forall_lookup_erase (forall_lookup_insert rfl (forall_lookup_insert rfl (by simp)))

/-- The second order still rests, but its level is gone from the book. -/
theorem sharedFinish_not_agrees :
    PromisedRun 8 ∅ (events sharedFinish) ∧
      ¬ Agrees (({} : FeedHandler 8).processAll (sharedFinish.map Msg.encode)).book
        (resting (events sharedFinish)) := by
  refine ⟨promisedRun_sharedFinish, fun hagrees => ?_⟩
  have hbook := FeedHandler.book_processAll_encode (h := ({} : FeedHandler 8)) rfl sharedFinish
  have hlevel := (hagrees.level .bid 100).1
  rw [hbook] at hlevel
  revert hlevel
  decide

end HftKr260
