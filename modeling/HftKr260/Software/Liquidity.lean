import HftKr260.Software.RestingOrders

/-!
# Displayed quantity is resting quantity

What a level displays should be there to trade against: its quantity is positive and at
most what the orders resting at its side and price add up to. The book is only loosely
tied to the order map (colliding Adds are dropped, whole levels are removed while orders
still rest on them), so this is an inequality, not an equation; the writes that lose
quantity keep it.

`Backed` is the invariant. The one event that can break it is an Add that re-uses the
reference of a resting order: the map forgets the old order, the level does not.
`Covers` says that nothing is lost that way, because the other orders account for all the
old order's level displays.

## Main results

* `displayed_le_resting` — with fresh references nothing is displayed that does not rest
* `no_orphaned_level` — with covered references every non-empty level has an order, and
  the book is empty once every order has been deleted
* `Backed.orphan_of_uncovered` — an uncovered reference leaves a level no Delete reaches
-/

set_option autoImplicit false

namespace HftKr260

open Foundation

/-! ### The invariant -/

/-- Resting orders hold 32-bit quantities at real prices. -/
def OrderFits (o : RestingOrder) : Prop :=
  0 ≤ o.quantity ∧ o.quantity < 2 ^ 32 ∧ o.price ≠ nullPrice

theorem OrderFits.qtyFits {o : RestingOrder} (h : OrderFits o) : QtyFits o.quantity :=
  ⟨h.1, h.2.1⟩

/-- Every recorded quantity is covered by the orders resting at its side and price. -/
structure Backed {k : Fin 64} (c : Core k) : Prop where
  wellFormed : c.book.WellFormed
  orderFits : ∀ ref o, c.orders.lookup ref = some o → OrderFits o
  entryLe : ∀ side p e, c.book.entryAt side p = some e → e.1 ≤ restingQty c.orders side p

/-- Taking a new order under `ref` loses nothing: if the reference is in use, the other
orders at the old order's side and price account for all its level displays. -/
def Core.Covers {k : Fin 64} (c : Core k) (ref : BitVec 64) : Prop :=
  ∀ o, c.orders.lookup ref = some o →
    (c.book.levelAt o.side o.price).quantity ≤ restingQty (c.orders.erase ref) o.side o.price

/-- An Add names a real price and a covered reference. -/
def Core.AddOk {k : Fin 64} (c : Core k) : OrderEvent → Prop
  | .add ref _ price _ => price ≠ nullPrice ∧ c.Covers ref
  | _ => True

section Invariant

variable {k : Fin 64} {c : Core k} {ref : BitVec 64} {o : RestingOrder} {side : Side} {p : ℤ}

theorem Core.covers_of_fresh (h : c.orders.lookup ref = none) : c.Covers ref := by
  intro o ho
  rw [h] at ho
  exact absurd ho (by simp)

theorem Backed.qty_nonneg (h : Backed c) (side : Side) (p : ℤ) :
    0 ≤ restingQty c.orders side p :=
  restingQty_nonneg (fun ref o ho => (h.orderFits ref o ho).1) side p

/-- What a price displays, recorded or not, is covered. -/
theorem Backed.getD_le (h : Backed c) (side : Side) (p : ℤ) :
    ((c.book.entryAt side p).getD (0, 0)).1 ≤ restingQty c.orders side p := by
  cases he : c.book.entryAt side p with
  | none => exact h.qty_nonneg side p
  | some e => exact h.entryLe side p e he

theorem Backed.getD_nonneg (h : Backed c) (side : Side) (p : ℤ) :
    0 ≤ ((c.book.entryAt side p).getD (0, 0)).1 := by
  cases he : c.book.entryAt side p with
  | none => exact le_rfl
  | some e => exact (h.wellFormed.entryAt_pos he).le

/-- An entry grows by at most the delta of its update. -/
theorem bump_le {dq dn : ℤ} {old : Option (ℤ × ℤ)} {e : ℤ × ℤ}
    (hlo : -2 ^ 63 ≤ (old.getD (0, 0)).1 + dq) (he : OrderBook.bump dq dn old = some e) :
    e.1 ≤ (old.getD (0, 0)).1 + dq := by
  simp only [OrderBook.bump] at he
  split_ifs at he
  obtain rfl := Option.some.inj he
  exact int64_le hlo

/-- Updating a level keeps the book backed by a map that covers the old quantity and the
delta at that level, and the old quantities elsewhere. -/
private theorem Backed.write (h : Backed c) {r' : OrderMap} {dq dn : ℤ} (hp : p ≠ nullPrice)
    (hlo : -2 ^ 32 ≤ dq) (hok : ∀ ref o, r'.lookup ref = some o → OrderFits o)
    (hself : ((c.book.entryAt side p).getD (0, 0)).1 + dq ≤ restingQty r' side p)
    (hother : ∀ s q e, ¬ (s = side ∧ q = p) → c.book.entryAt s q = some e →
      e.1 ≤ restingQty r' s q) :
    Backed { book := c.book.updateLevel side p dq dn, orders := r' } where
  wellFormed := h.wellFormed.updateLevel hp dq dn
  orderFits := hok
  entryLe := by
    intro s q e he
    by_cases hsq : s = side ∧ q = p
    · obtain ⟨rfl, rfl⟩ := hsq
      -- a write whose slot is taken by another price records nothing
      by_cases hadm : DirectMap.Admits (slot k) (c.book.table s) q
      · rw [OrderBook.entryAt_updateLevel_self h.wellFormed hp hadm] at he
        have hnonneg := h.getD_nonneg s q
        exact (bump_le (by omega) he).trans hself
      · rw [OrderBook.entryAt_updateLevel_collision h.wellFormed hp hadm] at he
        exact absurd he (by simp)
    · rw [OrderBook.entryAt_updateLevel_other h.wellFormed hp hsq] at he
      exact hother s q e hsq he

/-- An Add under a covered reference displays what it brings. -/
theorem Backed.add (h : Backed c) (hok : OrderFits o) (hcovers : c.Covers ref) :
    Backed { book := c.book.updateLevel o.side o.price o.quantity 1
             orders := c.orders.insert ref o } := by
  -- without the order that is replaced, what rests still covers what is displayed
  have hkept (s : Side) (q : ℤ) :
      ((c.book.entryAt s q).getD (0, 0)).1 ≤ restingQty (c.orders.erase ref) s q := by
    cases hold : c.orders.lookup ref with
    | none =>
      rw [KeyedSum.erase_of_lookup_none hold]
      exact h.getD_le s q
    | some old =>
      by_cases hsq : s = old.side ∧ q = old.price
      · obtain ⟨rfl, rfl⟩ := hsq
        have hlevel := congrArg Prod.fst (h.wellFormed.levelAt_eq old.side old.price)
        dsimp only at hlevel
        rw [← hlevel]
        exact hcovers old hold
      · rw [restingQty_erase hold, RestingOrder.qtyAt_of_ne hsq, sub_zero]
        exact h.getD_le s q
  -- the new order covers its own share
  have hnew (s : Side) (q : ℤ) : restingQty (c.orders.insert ref o) s q =
      o.qtyAt s q + restingQty (c.orders.erase ref) s q :=
    KeyedSum.total_insert (fun o : RestingOrder => o.qtyAt s q) c.orders ref o
  refine h.write hok.2.2 (by have := hok.1; omega) (forall_lookup_insert hok h.orderFits) ?_ ?_
  · have hle := hkept o.side o.price
    rw [hnew, RestingOrder.qtyAt_self]
    omega
  · intro s q e hsq he
    have hle := hkept s q
    rw [he] at hle
    rw [hnew, RestingOrder.qtyAt_of_ne hsq, zero_add]
    exact hle

/-- An order whose quantity changes moves what its level displays by as much. -/
theorem Backed.replace (h : Backed c) (ho : c.orders.lookup ref = some o) {q : ℤ}
    (hnonneg : 0 ≤ q) (hlt : q < 2 ^ 32) :
    Backed { book := c.book.updateLevel o.side o.price (q - o.quantity) 0
             orders := c.orders.insert ref { o with quantity := q } } := by
  have hok := h.orderFits ref o ho
  refine h.write hok.2.2 (by have := hok.2.1; omega)
    (forall_lookup_insert ⟨hnonneg, hlt, hok.2.2⟩ h.orderFits) ?_ ?_
  · have hle := h.getD_le o.side o.price
    have hnew : ({ o with quantity := q } : RestingOrder).qtyAt o.side o.price = q :=
      if_pos ⟨rfl, rfl⟩
    rw [restingQty_replace ho, RestingOrder.qtyAt_self, hnew]
    omega
  · intro s p e hsp he
    have hnew : ({ o with quantity := q } : RestingOrder).qtyAt s p = 0 :=
      RestingOrder.qtyAt_of_ne hsp
    rw [restingQty_replace ho, RestingOrder.qtyAt_of_ne hsp, hnew, sub_zero, add_zero]
    exact h.entryLe s p e he

/-- A cancelled order takes away what it displayed. -/
theorem Backed.cancel (h : Backed c) (ho : c.orders.lookup ref = some o) :
    Backed { book := c.book.updateLevel o.side o.price (-o.quantity) (-1)
             orders := c.orders.erase ref } := by
  have hok := h.orderFits ref o ho
  refine h.write hok.2.2 (by have := hok.2.1; omega) (forall_lookup_erase h.orderFits) ?_ ?_
  · have hle := h.getD_le o.side o.price
    rw [restingQty_erase ho, RestingOrder.qtyAt_self]
    omega
  · intro s q e hsq he
    rw [restingQty_erase ho, RestingOrder.qtyAt_of_ne hsq, sub_zero]
    exact h.entryLe s q e he

/-- A finished order takes its whole level away. -/
theorem Backed.finish (h : Backed c) (ho : c.orders.lookup ref = some o) :
    Backed { book := c.book.removeLevel o.side o.price, orders := c.orders.erase ref } where
  wellFormed := h.wellFormed.removeLevel
  orderFits := forall_lookup_erase h.orderFits
  entryLe := by
    have hok := h.orderFits ref o ho
    intro s q e he
    by_cases hsq : s = o.side ∧ q = o.price
    · obtain ⟨rfl, rfl⟩ := hsq
      rw [OrderBook.entryAt_removeLevel_self h.wellFormed hok.2.2] at he
      exact absurd he (by simp)
    · rw [OrderBook.entryAt_removeLevel_other h.wellFormed hok.2.2 hsq] at he
      rw [restingQty_erase ho, RestingOrder.qtyAt_of_ne hsq, sub_zero]
      exact h.entryLe s q e he

/-- An event keeps the book backed, an Add if it is covered. -/
theorem Backed.step (h : Backed c) {e : OrderEvent} (hadd : c.AddOk e) : Backed (c.step e) := by
  cases e with
  | add ref side price qty =>
    obtain ⟨hlo, hhi⟩ := qtyFits_toNat qty
    exact h.add (o := { price := price, quantity := qty.toNat, side := side })
      ⟨hlo, hhi, hadd.1⟩ hadd.2
  | update ref newQty =>
    simp only [Core.step]
    cases ho : c.orders.lookup ref with
    | none => exact h
    | some o =>
      obtain ⟨hlo, hhi⟩ := qtyFits_toNat newQty
      dsimp only
      rw [int64_sub_of_qtyFits ⟨hlo, hhi⟩ (h.orderFits ref o ho).qtyFits]
      split_ifs with hzero
      · exact h.finish ho
      · exact h.replace ho hlo hhi
  | delete ref =>
    simp only [Core.step]
    cases ho : c.orders.lookup ref with
    | none => exact h
    | some o =>
      dsimp only
      rw [int64_neg_of_qtyFits (h.orderFits ref o ho).qtyFits]
      exact h.cancel ho
  | execute ref executed =>
    simp only [Core.step]
    cases ho : c.orders.lookup ref with
    | none => exact h
    | some o =>
      have hok := h.orderFits ref o ho
      have hsub := int64_sub_of_qtyFits hok.qtyFits (qtyFits_toNat executed)
      have hneg : int64 (-(executed.toNat : ℤ)) = o.quantity - executed.toNat - o.quantity := by
        rw [int64_neg_of_qtyFits (qtyFits_toNat executed)]
        omega
      dsimp only
      rw [hsub, hneg]
      split_ifs with hdone
      · exact h.finish ho
      · exact h.replace ho (by omega) (by have := hok.2.1; omega)

theorem Backed.fresh : Backed ({} : Core k) where
  wellFormed := OrderBook.wellFormed_fresh
  orderFits := by simp
  entryLe := by simp

/-- A non-empty slot displays a positive, covered quantity. -/
theorem Backed.slot_le (h : Backed c) (side : Side) (i : Fin (2 ^ k.val))
    (hne : ¬ (c.book.levels side i).Empty) :
    0 < (c.book.levels side i).quantity ∧
      (c.book.levels side i).quantity ≤ restingQty c.orders side (c.book.levels side i).price := by
  refine ⟨not_le.mp hne, ?_⟩
  exact h.entryLe side _ _ (h.wellFormed.entryAt_eq_some.mpr ⟨i, rfl, hne⟩)

/-- A published level displays a positive, covered quantity. -/
theorem Backed.top_le (h : Backed c) (side : Side)
    (hne : (c.book.tob.level side).price ≠ nullPrice) :
    0 < (c.book.tob.level side).quantity ∧
      (c.book.tob.level side).quantity ≤
        restingQty c.orders side (c.book.tob.level side).price := by
  rcases h.wellFormed.isBest side with ⟨hlv, -⟩ | ⟨hlv, -⟩
  · rw [hlv] at hne
    exact absurd rfl hne
  · exact ⟨h.wellFormed.entryAt_pos hlv, h.entryLe side _ _ hlv⟩

/-- A non-empty slot has an order resting at its side and price. -/
theorem Backed.exists_order (h : Backed c) (side : Side) (i : Fin (2 ^ k.val))
    (hne : ¬ (c.book.levels side i).Empty) :
    ∃ ref o, c.orders.lookup ref = some o ∧ o.At side (c.book.levels side i).price := by
  obtain ⟨hpos, hle⟩ := h.slot_le side i hne
  exact exists_of_restingQty_ne_zero (by omega)

/-- With no order resting nothing is displayed. -/
theorem Backed.empty_of_no_orders (h : Backed c) (hnone : ∀ ref, c.orders.lookup ref = none) :
    (∀ side i, (c.book.levels side i).Empty) ∧ c.book.topOfBookSnapshot = some {} := by
  have hempty (side : Side) (i : Fin (2 ^ k.val)) : (c.book.levels side i).Empty := by
    by_contra hne
    obtain ⟨ref, o, ho, -⟩ := h.exists_order side i hne
    rw [hnone ref] at ho
    exact absurd ho (by simp)
  have htop (side : Side) : c.book.tob.level side = {} := by
    rcases h.wellFormed.isBest side with ⟨hlv, -⟩ | ⟨hlv, -⟩
    · exact hlv
    · obtain ⟨i, -, hne⟩ := h.wellFormed.entryAt_eq_some.mp hlv
      exact absurd (hempty side i) hne
  refine ⟨hempty, h.wellFormed.snapshot.trans (congrArg some ?_)⟩
  have hbid : c.book.tob.bid = {} := htop .bid
  have hask : c.book.tob.ask = {} := htop .ask
  cases htob : c.book.tob
  simp_all

end Invariant

/-! ### Runs -/

section Runs

variable {k : Fin 64}

/-- Buffers whose Adds are acceptable where they arrive keep a handler's book backed. -/
theorem backed_processAll {h : FeedHandler k} (hinit : Backed h.core) (bufs : List (List Byte))
    (hadds : ∀ before buf after, bufs = before ++ buf :: after →
      ∀ e, FeedHandler.bufEvent buf = some e → (h.processAll before).core.AddOk e) :
    Backed (h.processAll bufs).core := by
  induction bufs using List.reverseRecOn with
  | nil => exact hinit
  | append_singleton before buf ih =>
    have hbefore : Backed (h.processAll before).core := by
      refine ih fun before' buf' after' heq => ?_
      exact hadds before' buf' (after' ++ [buf]) (by simp [heq])
    rw [FeedHandler.processAll_append, FeedHandler.processAll_cons, FeedHandler.processAll_nil,
      FeedHandler.process_core]
    cases hev : decodeEvent (bufferOf buf) buf.length with
    | none => exact hbefore
    | some e => exact hbefore.step (hadds before buf [] rfl e hev)

/-- **No phantom liquidity.** Whatever buffers are processed, as long as no Add re-uses a
resting reference or names the sentinel price, every non-empty level displays a positive
quantity that is at most what rests there, and so does the published top of book. -/
theorem displayed_le_resting (h : FeedHandler k) (hfresh : h.core = {})
    (bufs : List (List Byte))
    (hadds : ∀ before buf after, bufs = before ++ buf :: after →
      ∀ ref side price qty, FeedHandler.bufEvent buf = some (.add ref side price qty) →
        (h.processAll before).orders.lookup ref = none ∧ price ≠ nullPrice)
    (done : List (List Byte)) (hdone : done <+: bufs) :
    let now := h.processAll done
    (∀ side i, ¬ (now.book.levels side i).Empty →
      0 < (now.book.levels side i).quantity ∧
        (now.book.levels side i).quantity ≤
          restingQty now.orders side (now.book.levels side i).price) ∧
    ∃ tob, now.book.topOfBookSnapshot = some tob ∧
      ∀ side, (tob.level side).price ≠ nullPrice →
        0 < (tob.level side).quantity ∧
          (tob.level side).quantity ≤ restingQty now.orders side (tob.level side).price := by
  intro now
  have hbacked : Backed now.core := by
    refine backed_processAll (hfresh ▸ Backed.fresh) done fun before buf after heq e he => ?_
    obtain ⟨rest, rfl⟩ := hdone
    cases e with
    | add ref side price qty =>
      obtain ⟨hlookup, hprice⟩ :=
        hadds before buf (after ++ rest) (by simp [heq]) ref side price qty he
      -- a reference that is not in use covers trivially
      exact ⟨hprice, Core.covers_of_fresh hlookup⟩
    | _ => trivial
  exact ⟨hbacked.slot_le, _, hbacked.wellFormed.snapshot, hbacked.top_le⟩

/-- A truncated Add, two bids at one price, and an Execute of a part of the first. -/
def truncatedThenShared : List (List Byte) :=
  [[charA], (Msg.add ⟨0, 1, charB, 10, 100⟩).encode, (Msg.add ⟨0, 2, charB, 5, 100⟩).encode,
    (Msg.execute ⟨0, 1, 4⟩).encode]

theorem top_truncatedThenShared :
    ∃ tob,
      (({} : FeedHandler 8).processAll truncatedThenShared).book.topOfBookSnapshot = some tob ∧
      ∀ side, (tob.level side).price ≠ nullPrice →
        0 < (tob.level side).quantity ∧ (tob.level side).quantity ≤
          restingQty (({} : FeedHandler 8).processAll truncatedThenShared).orders side
            (tob.level side).price := by
  refine (displayed_le_resting {} rfl truncatedThenShared ?_ _ List.prefix_rfl).2
  intro before buf after heq ref side price qty he
  -- the buffer in question is one of the four
  rcases before with _ | ⟨_, _ | ⟨_, _ | ⟨_, _ | ⟨_, before⟩⟩⟩⟩ <;>
    simp [truncatedThenShared] at heq
  · obtain ⟨rfl, -⟩ := heq
    have hnone : FeedHandler.bufEvent [charA] = none := by decide
    rw [hnone] at he
    exact absurd he (by simp)
  · obtain ⟨rfl, rfl, -⟩ := heq
    rw [FeedHandler.bufEvent, decodeEvent_encode] at he
    obtain ⟨rfl, -, rfl, -⟩ := OrderEvent.add.inj (Option.some.inj he)
    exact ⟨rfl, by decide⟩
  · obtain ⟨rfl, rfl, rfl, -⟩ := heq
    rw [FeedHandler.bufEvent, decodeEvent_encode] at he
    obtain ⟨rfl, -, rfl, -⟩ := OrderEvent.add.inj (Option.some.inj he)
    exact ⟨rfl, by decide⟩
  · obtain ⟨rfl, rfl, rfl, rfl, -⟩ := heq
    rw [FeedHandler.bufEvent, decodeEvent_encode] at he
    exact absurd (Option.some.inj he) (by simp)

/-- After an event an order rests that the event added, or that rested and was not deleted. -/
theorem Core.lookup_step {c : Core k} {e : OrderEvent} {ref : BitVec 64} {o : RestingOrder}
    (ho : (c.step e).orders.lookup ref = some o) :
    (∃ side price qty, e = .add ref side price qty) ∨
      (e ≠ .delete ref ∧ ∃ o', c.orders.lookup ref = some o') := by
  cases e with
  | add ref' side price qty =>
    simp only [Core.step, lookup_insert_eq] at ho
    by_cases href : ref = ref'
    · exact Or.inl ⟨side, price, qty, by rw [href]⟩
    · exact Or.inr ⟨by simp, o, by rwa [if_neg href] at ho⟩
  | delete ref' =>
    simp only [Core.step] at ho
    cases hold : c.orders.lookup ref' with
    | none =>
      simp only [hold] at ho
      refine Or.inr ⟨?_, o, ho⟩
      rintro ⟨⟩
      simp [hold] at ho
    | some old =>
      simp only [hold] at ho
      obtain ⟨hne, ho'⟩ := lookup_of_lookup_erase ho
      exact Or.inr ⟨by simpa using hne.symm, o, ho'⟩
  | update ref' newQty =>
    refine Or.inr ⟨by simp, ?_⟩
    simp only [Core.step] at ho
    cases hold : c.orders.lookup ref' with
    | none => exact ⟨o, by simpa only [hold] using ho⟩
    | some old =>
      simp only [hold, apply_ite Core.orders] at ho
      obtain ⟨o', ho', -⟩ := exists_of_lookup_settle hold ho
      exact ⟨o', ho'⟩
  | execute ref' executed =>
    refine Or.inr ⟨by simp, ?_⟩
    simp only [Core.step] at ho
    cases hold : c.orders.lookup ref' with
    | none => exact ⟨o, by simpa only [hold] using ho⟩
    | some old =>
      simp only [hold, apply_ite Core.orders] at ho
      obtain ⟨o', ho', -⟩ := exists_of_lookup_settle hold ho
      exact ⟨o', ho'⟩

theorem core_process_encode (h : FeedHandler k) (m : Msg) :
    (h.process (bufferOf m.encode) m.encode.length).1.core = m.event.elim h.core h.core.step := by
  rw [FeedHandler.process_core, decodeEvent_encode]

theorem Msg.eq_add_of_event {m : Msg} {ref : BitVec 64} {side : Side} {price : ℤ}
    {qty : BitVec 32} (h : m.event = some (.add ref side price qty)) :
    ∃ a, m = .add a ∧ a.orderRef = ref := by
  cases m with
  | add a => exact ⟨a, rfl, (OrderEvent.add.inj (Option.some.inj h)).1⟩
  | _ => simp [Msg.event] at h

/-- An order rests only if its reference was added and not deleted since. -/
theorem exists_add_of_lookup {h : FeedHandler k} (hempty : h.orders = ∅) (ms : List Msg)
    {ref : BitVec 64} {o : RestingOrder}
    (ho : (h.processAll (ms.map Msg.encode)).orders.lookup ref = some o) :
    ∃ before m after, ms = before ++ .add m :: after ∧ m.orderRef = ref ∧
      ∀ d, Msg.delete d ∈ after → d.orderRef ≠ ref := by
  induction ms using List.reverseRecOn generalizing o with
  | nil => simp [hempty] at ho
  | append_singleton ms m ih =>
    have hcore : (h.processAll ((ms ++ [m]).map Msg.encode)).core =
        m.event.elim (h.processAll (ms.map Msg.encode)).core
          (h.processAll (ms.map Msg.encode)).core.step := by
      rw [List.map_append, FeedHandler.processAll_append]
      exact core_process_encode _ m
    -- an order that rested before `m` keeps its Add, unless `m` deletes it
    have hkeep (hm : ∀ d, m = .delete d → d.orderRef ≠ ref)
        (hold : ∃ o', (h.processAll (ms.map Msg.encode)).orders.lookup ref = some o') :
        ∃ before m' after, ms ++ [m] = before ++ .add m' :: after ∧ m'.orderRef = ref ∧
          ∀ d, Msg.delete d ∈ after → d.orderRef ≠ ref := by
      obtain ⟨o', ho'⟩ := hold
      obtain ⟨before, m', after, rfl, href, hafter⟩ := ih ho'
      refine ⟨before, m', after ++ [m], by simp, href, fun d hd => ?_⟩
      rcases List.mem_append.mp hd with hd | hd
      · exact hafter d hd
      · exact hm d (List.mem_singleton.mp hd).symm
    change (h.processAll ((ms ++ [m]).map Msg.encode)).core.orders.lookup ref = some o at ho
    rw [hcore] at ho
    cases hev : m.event with
    | none =>
      rw [hev] at ho
      refine hkeep ?_ ⟨o, ho⟩
      rintro d rfl
      exact absurd hev (by simp [Msg.event])
    | some e =>
      rw [hev] at ho
      rcases Core.lookup_step ho with ⟨side, price, qty, rfl⟩ | ⟨hne, hold⟩
      · obtain ⟨a, rfl, href⟩ := Msg.eq_add_of_event hev
        exact ⟨ms, a, [], rfl, href, by simp⟩
      · refine hkeep ?_ hold
        rintro d rfl href
        exact hne (by rw [← href, ← Option.some.inj hev])

/-- **No orphaned level.** As long as every Add that re-uses a resting reference finds the
old order covered, every non-empty level has an order resting on it, and the book is empty
once each added reference has been deleted again. -/
theorem no_orphaned_level (h : FeedHandler k) (hfresh : h.core = {}) (ms : List Msg)
    (hadds : ∀ before m after, ms = before ++ .add m :: after → m.price.toInt ≠ nullPrice ∧
      (h.processAll (before.map Msg.encode)).core.Covers m.orderRef)
    (done : List Msg) (hdone : done <+: ms) :
    let now := h.processAll (done.map Msg.encode)
    (∀ side i, ¬ (now.book.levels side i).Empty →
      ∃ ref o, now.orders.lookup ref = some o ∧ o.At side (now.book.levels side i).price) ∧
    ((∀ before m after, done = before ++ .add m :: after →
        ∃ d, Msg.delete d ∈ after ∧ d.orderRef = m.orderRef) →
      (∀ side i, (now.book.levels side i).Empty) ∧ now.book.topOfBookSnapshot = some {}) := by
  intro now
  have hbacked : Backed now.core := by
    refine backed_processAll (hfresh ▸ Backed.fresh) _ fun before buf after heq e he => ?_
    obtain ⟨rest, rfl⟩ := hdone
    obtain ⟨msBefore, msRest, rfl, rfl, hrest⟩ := List.map_eq_append_iff.mp heq
    obtain ⟨m, msAfter, rfl, rfl, -⟩ := List.map_eq_cons_iff.mp hrest
    rw [FeedHandler.bufEvent, decodeEvent_encode] at he
    cases m with
    | add a =>
      obtain rfl := Option.some.inj he
      exact hadds msBefore a (msAfter ++ rest) (by simp)
    | trade t => exact absurd he (by simp [Msg.event])
    | _ =>
      obtain rfl := Option.some.inj he
      trivial
  -- an order left over would have an Add without a Delete behind it
  refine ⟨hbacked.exists_order, fun hdeleted => hbacked.empty_of_no_orders fun ref => ?_⟩
  have hempty : h.orders = ∅ := congrArg Core.orders hfresh
  cases hlookup : now.core.orders.lookup ref with
  | none => rfl
  | some o =>
    obtain ⟨before, m, after, heq, href, hafter⟩ := exists_add_of_lookup hempty done hlookup
    obtain ⟨d, hd, hdref⟩ := hdeleted before m after heq
    exact absurd (hdref.trans href) (hafter d hd)

/-- With one slot a side the second bid is dropped, so its reference can be used again. -/
def reuseOfDropped : List Msg :=
  [.add ⟨0, 1, charB, 10, 100⟩, .add ⟨0, 2, charB, 5, 101⟩, .add ⟨0, 2, charB, 7, 100⟩]

theorem order_behind_reuseOfDropped :
    ∃ ref o, (({} : FeedHandler 0).processAll (reuseOfDropped.map Msg.encode)).orders.lookup ref =
        some o ∧
      o.At .bid ((({} : FeedHandler 0).processAll (reuseOfDropped.map Msg.encode)).book.levels .bid
        0).price := by
  have hbook : (({} : FeedHandler 0).processAll (reuseOfDropped.map Msg.encode)).book = _ :=
    congrArg Core.book (FeedHandler.core_processAll_encode {} reuseOfDropped)
  refine (no_orphaned_level {} rfl reuseOfDropped ?_ _ List.prefix_rfl).1 .bid 0
    (by rw [hbook]; decide)
  intro before m after heq
  rw [FeedHandler.core_processAll_encode]
  rcases before with _ | ⟨first, _ | ⟨second, _ | ⟨third, before⟩⟩⟩ <;>
    simp [reuseOfDropped] at heq
  · obtain ⟨rfl, -⟩ := heq
    exact ⟨by decide, Core.covers_of_fresh rfl⟩
  · obtain ⟨rfl, rfl, -⟩ := heq
    exact ⟨by decide, Core.covers_of_fresh rfl⟩
  · obtain ⟨rfl, rfl, rfl, -⟩ := heq
    refine ⟨by decide, fun o ho => ?_⟩
    obtain rfl := Option.some.inj ho
    decide

/-- Two Adds under one reference at different prices, then its Delete. -/
def reusedRef : List Msg :=
  [.add ⟨0, 1, charB, 10, 100⟩, .add ⟨0, 1, charB, 5, 200⟩, .delete ⟨0, 1⟩]

/-- The first Add's level is left on the book with no order behind it. -/
theorem reusedRef_orphans :
    (∀ m, Msg.add m ∈ reusedRef → m.price.toInt ≠ nullPrice) ∧
    ¬ ((({} : FeedHandler 8).processAll (reusedRef.map Msg.encode)).book.levels .bid
      (slot 8 100)).Empty ∧
    (({} : FeedHandler 8).processAll (reusedRef.map Msg.encode)).orders = ∅ := by
  have hcore := FeedHandler.core_processAll_encode ({} : FeedHandler 8) reusedRef
  have hbook : (({} : FeedHandler 8).processAll (reusedRef.map Msg.encode)).book = _ :=
    congrArg Core.book hcore
  refine ⟨by simp [reusedRef, nullPrice], ?_, (congrArg Core.orders hcore).trans rfl⟩
  rw [hbook]
  decide

end Runs

/-! ### Uncovered references

The condition on re-used references is not only enough: from a backed book, an Add that
breaks it leaves a level that outlives all orders once they are deleted. -/

/-- A level displays more than rests there. -/
def Core.Excess {k : Fin 64} (c : Core k) (side : Side) (p : ℤ) : Prop :=
  ∃ e, c.book.entryAt side p = some e ∧ restingQty c.orders side p < e.1 ∧ e.1 < 2 ^ 63

section Uncovered

variable {k : Fin 64} {c : Core k} {ref : BitVec 64} {o : RestingOrder} {side : Side} {p : ℤ}

/-- A book whose orders all fit, for what Deletes do to it. -/
structure Sound {k : Fin 64} (c : Core k) : Prop where
  wellFormed : c.book.WellFormed
  orderFits : ∀ ref o, c.orders.lookup ref = some o → OrderFits o

theorem Sound.delete (h : Sound c) (ref : BitVec 64) : Sound (c.step (.delete ref)) := by
  simp only [Core.step]
  cases ho : c.orders.lookup ref with
  | none => exact h
  | some o =>
    exact
      { wellFormed := h.wellFormed.updateLevel (h.orderFits ref o ho).2.2 _ _
        orderFits := forall_lookup_erase h.orderFits }

/-- A Delete takes as much from a level as from what rests there. -/
theorem Core.Excess.delete (hs : Sound c) (h : c.Excess side p) (ref : BitVec 64) :
    (c.step (.delete ref)).Excess side p := by
  obtain ⟨e, he, hlt, hfits⟩ := h
  simp only [Core.step]
  cases ho : c.orders.lookup ref with
  | none => exact ⟨e, he, hlt, hfits⟩
  | some o =>
    have hok := hs.orderFits ref o ho
    have hneg := int64_neg_of_qtyFits hok.qtyFits
    -- both numbers fall by the order's quantity, if it was at this level
    have hrest := restingQty_erase ho side p
    by_cases hat : side = o.side ∧ p = o.price
    · obtain ⟨rfl, rfl⟩ := hat
      have hnonneg : 0 ≤ restingQty (c.orders.erase ref) o.side o.price := restingQty_nonneg
        (fun ref' o' ho' => (forall_lookup_erase hs.orderFits ref' o' ho').1) _ _
      rw [RestingOrder.qtyAt_self] at hrest
      have hsum : int64 (e.1 + -o.quantity) = e.1 + -o.quantity :=
        int64_of_fits (by omega) (by have := hok.1; omega)
      refine ⟨(e.1 + -o.quantity, int32 (e.2 + -1)), ?_, ?_, ?_⟩
      · show (c.book.updateLevel o.side o.price (int64 (-o.quantity)) (-1)).entryAt o.side
          o.price = _
        rw [OrderBook.entryAt_updateLevel_self hs.wellFormed hok.2.2
          (DirectMap.admits_of_lookup he), he, hneg]
        simp only [OrderBook.bump, Option.getD_some, hsum]
        exact if_neg (by omega)
      · show restingQty (c.orders.erase ref) o.side o.price < e.1 + -o.quantity
        omega
      · show e.1 + -o.quantity < 2 ^ 63
        have := hok.1
        omega
    · rw [RestingOrder.qtyAt_of_ne hat, sub_zero] at hrest
      refine ⟨e, ?_, by dsimp only; omega, hfits⟩
      show (c.book.updateLevel o.side o.price _ (-1)).entryAt side p = some e
      rwa [OrderBook.entryAt_updateLevel_other hs.wellFormed hok.2.2 hat]

/-- Deleting a list of references leaves the excess, and none of the references. -/
theorem Core.Excess.deleteAll (hs : Sound c) (h : c.Excess side p) (refs : List (BitVec 64)) :
    let c' := (refs.map OrderEvent.delete).foldl Core.step c
    Sound c' ∧ c'.Excess side p ∧
      ∀ ref o, c'.orders.lookup ref = some o →
        ref ∉ refs ∧ ∃ o', c.orders.lookup ref = some o' := by
  induction refs generalizing c with
  | nil => exact ⟨hs, h, fun ref o ho => ⟨by simp, o, ho⟩⟩
  | cons r refs ih =>
    -- the first Delete, then the others
    obtain ⟨hsound, hexcess, hlookup⟩ := ih (hs.delete r) (h.delete hs r)
    refine ⟨hsound, hexcess, fun ref o ho => ?_⟩
    obtain ⟨hnotin, o', ho'⟩ := hlookup ref o ho
    rcases Core.lookup_step ho' with ⟨_, _, _, hadd⟩ | ⟨hne, hold⟩
    · exact absurd hadd (by simp)
    · refine ⟨?_, hold⟩
      rw [List.mem_cons, not_or]
      exact ⟨fun href => hne (by rw [href]), hnotin⟩

/-- An Add under an uncovered reference leaves the old order's level in excess. -/
theorem Backed.excess_of_uncovered (h : Backed c) (hok : OrderFits o) {old : RestingOrder}
    (huncovered : restingQty (c.orders.erase ref) old.side old.price <
      (c.book.levelAt old.side old.price).quantity)
    (hroom : (c.book.levelAt old.side old.price).quantity + o.quantity < 2 ^ 63) :
    Core.Excess { book := c.book.updateLevel o.side o.price o.quantity 1
                  orders := c.orders.insert ref o } old.side old.price := by
  have hlevel := congrArg Prod.fst (h.wellFormed.levelAt_eq old.side old.price)
  have hnonneg : 0 ≤ restingQty (c.orders.erase ref) old.side old.price := restingQty_nonneg
    (fun ref' o' ho' => (forall_lookup_erase h.orderFits ref' o' ho').1) _ _
  have hnew : restingQty (c.orders.insert ref o) old.side old.price =
      o.qtyAt old.side old.price + restingQty (c.orders.erase ref) old.side old.price :=
    KeyedSum.total_insert (fun o : RestingOrder => o.qtyAt old.side old.price) c.orders ref o
  have hqty := hok.1
  cases he : c.book.entryAt old.side old.price with
  | none =>
    rw [he] at hlevel
    simp only [Option.getD_none] at hlevel
    omega
  | some e =>
    rw [he] at hlevel
    simp only [Option.getD_some] at hlevel
    by_cases hat : old.side = o.side ∧ old.price = o.price
    · obtain ⟨hside, hprice⟩ := hat
      rw [hside, hprice] at he hlevel hnew hnonneg huncovered hroom ⊢
      rw [RestingOrder.qtyAt_self] at hnew
      have hsum : int64 (e.1 + o.quantity) = e.1 + o.quantity :=
        int64_of_fits (by omega) (by omega)
      refine ⟨(e.1 + o.quantity, int32 (e.2 + 1)), ?_, by dsimp only; omega, by dsimp only; omega⟩
      show (c.book.updateLevel o.side o.price o.quantity 1).entryAt o.side o.price = _
      rw [OrderBook.entryAt_updateLevel_self h.wellFormed hok.2.2 (DirectMap.admits_of_lookup he),
        he]
      simp only [OrderBook.bump, Option.getD_some, hsum]
      exact if_neg (by omega)
    · rw [RestingOrder.qtyAt_of_ne hat] at hnew
      refine ⟨e, ?_, by dsimp only; omega, by omega⟩
      show (c.book.updateLevel o.side o.price o.quantity 1).entryAt old.side old.price = some e
      rwa [OrderBook.entryAt_updateLevel_other h.wellFormed hok.2.2 hat]

/-- **An uncovered re-use orphans a level.** There are Deletes after which no order rests,
but a level still displays quantity. -/
theorem Backed.orphan_of_uncovered (h : Backed c) {price : ℤ} {qty : BitVec 32}
    (hprice : price ≠ nullPrice) (huncovered : ¬ c.Covers ref)
    (hroom : ∀ s p, (c.book.levelAt s p).quantity + qty.toNat < 2 ^ 63) :
    ∃ refs : List (BitVec 64),
      let c' := (refs.map OrderEvent.delete).foldl Core.step (c.step (.add ref side price qty))
      (∀ ref, c'.orders.lookup ref = none) ∧ ∃ s i, ¬ (c'.book.levels s i).Empty := by
  obtain ⟨hlo, hhi⟩ := qtyFits_toNat qty
  have hok : OrderFits { price := price, quantity := qty.toNat, side := side } :=
    ⟨hlo, hhi, hprice⟩
  have hsound : Sound (c.step (.add ref side price qty)) :=
    { wellFormed := h.wellFormed.updateLevel hprice _ _
      orderFits := forall_lookup_insert hok h.orderFits }
  simp only [Core.Covers, not_forall, not_le] at huncovered
  obtain ⟨old, -, hmore⟩ := huncovered
  have hexcess : (c.step (.add ref side price qty)).Excess old.side old.price :=
    h.excess_of_uncovered hok hmore (hroom old.side old.price)
  -- delete everything that rests after the Add
  obtain ⟨hsound', ⟨e, he, -⟩, hlookup⟩ :=
    hexcess.deleteAll hsound (c.step (.add ref side price qty)).orders.keys
  refine ⟨(c.step (.add ref side price qty)).orders.keys, fun ref' => ?_, old.side, ?_⟩
  · by_contra hne
    obtain ⟨o, ho⟩ := Option.ne_none_iff_exists'.mp hne
    obtain ⟨hnotin, o', ho'⟩ := hlookup ref' o ho
    exact hnotin (AList.mem_keys.mpr (AList.lookup_isSome.mp (by rw [ho']; rfl)))
  · obtain ⟨i, -, hne⟩ := hsound'.wellFormed.entryAt_eq_some.mp he
    exact ⟨i, hne⟩

end Uncovered

end HftKr260
