import HftKr260.Foundation.KeyedSum
import HftKr260.Software.FeedHandler
import HftKr260.Software.LevelTable

/-!
# Resting orders

The reference semantics of the feed: a map from order references to resting orders, on
which an Add inserts, an Update sets the quantity, an Execute subtracts, a Delete removes,
and an order left without quantity is removed. The book is meant to be the aggregate of
this map: per side and price the total quantity `restingQty` and the number of orders
`restingCount`.
-/

set_option autoImplicit false

namespace HftKr260

open Foundation

/-! ### Aggregates -/

/-- Does an order rest at this side and price? -/
def RestingOrder.At (o : RestingOrder) (side : Side) (p : ℤ) : Prop :=
  o.side = side ∧ o.price = p

instance (o : RestingOrder) (side : Side) (p : ℤ) : Decidable (o.At side p) :=
  inferInstanceAs (Decidable (_ ∧ _))

theorem RestingOrder.at_self (o : RestingOrder) : o.At o.side o.price := ⟨rfl, rfl⟩

/-- An order's share of the quantity at a side and price. -/
def RestingOrder.qtyAt (o : RestingOrder) (side : Side) (p : ℤ) : ℤ :=
  if o.At side p then o.quantity else 0

/-- An order's share of the order count at a side and price. -/
def RestingOrder.countAt (o : RestingOrder) (side : Side) (p : ℤ) : ℤ :=
  if o.At side p then 1 else 0

/-- The quantity resting at a side and price. -/
def restingQty (r : OrderMap) (side : Side) (p : ℤ) : ℤ :=
  KeyedSum.total (fun o => o.qtyAt side p) r

/-- The number of orders resting at a side and price. -/
def restingCount (r : OrderMap) (side : Side) (p : ℤ) : ℤ :=
  KeyedSum.total (fun o => o.countAt side p) r

section Aggregates

variable {r : OrderMap} {ref : BitVec 64} {o o' : RestingOrder} {side : Side} {p : ℤ}

@[simp] theorem restingQty_empty : restingQty ∅ side p = 0 := rfl

@[simp] theorem restingCount_empty : restingCount ∅ side p = 0 := rfl

theorem restingQty_erase (h : r.lookup ref = some o) (side : Side) (p : ℤ) :
    restingQty (r.erase ref) side p = restingQty r side p - o.qtyAt side p := by
  have htotal := KeyedSum.total_erase (fun o : RestingOrder => o.qtyAt side p) h
  unfold restingQty
  omega

theorem restingCount_erase (h : r.lookup ref = some o) (side : Side) (p : ℤ) :
    restingCount (r.erase ref) side p = restingCount r side p - o.countAt side p := by
  have htotal := KeyedSum.total_erase (fun o : RestingOrder => o.countAt side p) h
  unfold restingCount
  omega

theorem restingQty_insert_fresh (h : r.lookup ref = none) (o : RestingOrder) (side : Side)
    (p : ℤ) : restingQty (r.insert ref o) side p = restingQty r side p + o.qtyAt side p := by
  unfold restingQty
  rw [KeyedSum.total_insert_fresh _ h, add_comm]

theorem restingCount_insert_fresh (h : r.lookup ref = none) (o : RestingOrder) (side : Side)
    (p : ℤ) :
    restingCount (r.insert ref o) side p = restingCount r side p + o.countAt side p := by
  unfold restingCount
  rw [KeyedSum.total_insert_fresh _ h, add_comm]

/-- Overwriting a resting order exchanges its share for the new one's. -/
theorem restingQty_replace (h : r.lookup ref = some o) (o' : RestingOrder) (side : Side)
    (p : ℤ) :
    restingQty (r.insert ref o') side p =
      restingQty r side p - o.qtyAt side p + o'.qtyAt side p := by
  have hinsert := KeyedSum.total_insert (fun o : RestingOrder => o.qtyAt side p) r ref o'
  have herase := KeyedSum.total_erase (fun o : RestingOrder => o.qtyAt side p) h
  unfold restingQty
  omega

theorem restingCount_replace (h : r.lookup ref = some o) (o' : RestingOrder) (side : Side)
    (p : ℤ) :
    restingCount (r.insert ref o') side p =
      restingCount r side p - o.countAt side p + o'.countAt side p := by
  have hinsert := KeyedSum.total_insert (fun o : RestingOrder => o.countAt side p) r ref o'
  have herase := KeyedSum.total_erase (fun o : RestingOrder => o.countAt side p) h
  unfold restingCount
  omega

@[simp] theorem RestingOrder.qtyAt_self : o.qtyAt o.side o.price = o.quantity :=
  if_pos o.at_self

@[simp] theorem RestingOrder.countAt_self : o.countAt o.side o.price = 1 := if_pos o.at_self

theorem RestingOrder.qtyAt_of_ne (h : ¬ (side = o.side ∧ p = o.price)) : o.qtyAt side p = 0 :=
  if_neg fun hat => h ⟨hat.1.symm, hat.2.symm⟩

theorem RestingOrder.countAt_of_ne (h : ¬ (side = o.side ∧ p = o.price)) :
    o.countAt side p = 0 :=
  if_neg fun hat => h ⟨hat.1.symm, hat.2.symm⟩

theorem RestingOrder.countAt_nonneg (o : RestingOrder) (side : Side) (p : ℤ) :
    0 ≤ o.countAt side p := by
  unfold RestingOrder.countAt
  split_ifs <;> omega

theorem restingCount_nonneg (r : OrderMap) (side : Side) (p : ℤ) : 0 ≤ restingCount r side p :=
  KeyedSum.total_nonneg fun _ o _ => o.countAt_nonneg side p

/-- Nonnegative orders rest with a nonnegative quantity. -/
theorem restingQty_nonneg (h : ∀ ref o, r.lookup ref = some o → 0 ≤ o.quantity) (side : Side)
    (p : ℤ) : 0 ≤ restingQty r side p := by
  apply KeyedSum.total_nonneg
  intro ref o ho
  have hpos := h ref o ho
  unfold RestingOrder.qtyAt
  split_ifs <;> omega

/-- A resting order is counted. -/
theorem restingCount_pos (h : r.lookup ref = some o) : 0 < restingCount r o.side o.price := by
  have hle := KeyedSum.le_total (f := fun o' : RestingOrder => o'.countAt o.side o.price)
    (fun _ o' _ => o'.countAt_nonneg o.side o.price) h
  have hone : o.countAt o.side o.price = 1 := if_pos o.at_self
  unfold restingCount
  omega

/-- A nonzero sum of shares in a side and price comes from a resting order there. -/
theorem exists_of_total_share_ne_zero {f : RestingOrder → ℤ}
    (hf : ∀ o : RestingOrder, ¬ o.At side p → f o = 0) (h : KeyedSum.total f r ≠ 0) :
    ∃ ref o, r.lookup ref = some o ∧ o.At side p := by
  obtain ⟨ref, o, hlookup, hterm⟩ := KeyedSum.exists_of_total_ne_zero h
  refine ⟨ref, o, hlookup, ?_⟩
  by_contra hat
  exact hterm (hf o hat)

theorem exists_of_restingCount_ne_zero (h : restingCount r side p ≠ 0) :
    ∃ ref o, r.lookup ref = some o ∧ o.At side p :=
  exists_of_total_share_ne_zero (fun _ hat => if_neg hat) h

theorem exists_of_restingQty_ne_zero (h : restingQty r side p ≠ 0) :
    ∃ ref o, r.lookup ref = some o ∧ o.At side p :=
  exists_of_total_share_ne_zero (fun _ hat => if_neg hat) h

end Aggregates

/-! ### Lookups after a write -/

theorem lookup_insert_eq (r : OrderMap) (ref ref' : BitVec 64) (o : RestingOrder) :
    (r.insert ref o).lookup ref' = if ref' = ref then some o else r.lookup ref' := by
  by_cases h : ref' = ref
  · subst h
    simp [AList.lookup_insert]
  · rw [if_neg h, AList.lookup_insert_ne h]

theorem lookup_erase_eq (r : OrderMap) (ref ref' : BitVec 64) :
    (r.erase ref).lookup ref' = if ref' = ref then none else r.lookup ref' := by
  by_cases h : ref' = ref
  · subst h
    simp [AList.lookup_erase]
  · rw [if_neg h, AList.lookup_erase_ne h]

/-- What rests after an erasure rested before it. -/
theorem lookup_of_lookup_erase {r : OrderMap} {ref ref' : BitVec 64} {o : RestingOrder}
    (h : (r.erase ref').lookup ref = some o) : ref ≠ ref' ∧ r.lookup ref = some o := by
  rw [lookup_erase_eq] at h
  split_ifs at h with href
  exact ⟨href, h⟩

/-- What rests after an order was given another quantity rested before, where it was. -/
theorem exists_of_lookup_resize {r : OrderMap} {ref ref' : BitVec 64} {o o' : RestingOrder} {q : ℤ}
    (ho' : r.lookup ref' = some o')
    (h : (r.insert ref' { o' with quantity := q }).lookup ref = some o) :
    ∃ o₁, r.lookup ref = some o₁ ∧ o₁.side = o.side ∧ o₁.price = o.price := by
  rw [lookup_insert_eq] at h
  split_ifs at h with href
  · obtain rfl := Option.some.inj h
    exact ⟨o', href ▸ ho', rfl, rfl⟩
  · exact ⟨o, h, rfl, rfl⟩

/-- The same if the order that was given another quantity has left with it. -/
theorem exists_of_lookup_settle {r : OrderMap} {ref ref' : BitVec 64} {o o' : RestingOrder} {q : ℤ}
    {used : Prop} [Decidable used] (ho' : r.lookup ref' = some o')
    (h : (if used then r.erase ref' else r.insert ref' { o' with quantity := q }).lookup ref =
      some o) :
    ∃ o₁, r.lookup ref = some o₁ ∧ o₁.side = o.side ∧ o₁.price = o.price := by
  split_ifs at h
  · exact ⟨o, (lookup_of_lookup_erase h).2, rfl, rfl⟩
  · exact exists_of_lookup_resize ho' h

/-- What a property of all orders needs to survive an insertion. -/
theorem forall_lookup_insert {P : RestingOrder → Prop} {r : OrderMap} {ref : BitVec 64}
    {o : RestingOrder} (ho : P o) (hr : ∀ ref o, r.lookup ref = some o → P o) :
    ∀ ref' o', (r.insert ref o).lookup ref' = some o' → P o' := by
  intro ref' o' h
  rw [lookup_insert_eq] at h
  split_ifs at h with href
  · exact Option.some.inj h ▸ ho
  · exact hr ref' o' h

theorem forall_lookup_erase {P : RestingOrder → Prop} {r : OrderMap} {ref : BitVec 64}
    (hr : ∀ ref o, r.lookup ref = some o → P o) :
    ∀ ref' o', (r.erase ref).lookup ref' = some o' → P o' := by
  intro ref' o' h
  rw [lookup_erase_eq] at h
  split_ifs at h
  exact hr ref' o' h

/-! ### Reference semantics -/

/-- One event on the resting orders. -/
def restStep (r : OrderMap) : OrderEvent → OrderMap
  | .add ref side price qty =>
      r.insert ref { price := price, quantity := qty.toNat, side := side }
  | .update ref newQty =>
      match r.lookup ref with
      | none => r
      | some o =>
          if newQty.toNat = 0 then r.erase ref
          else r.insert ref { o with quantity := newQty.toNat }
  | .delete ref => r.erase ref
  | .execute ref executed =>
      match r.lookup ref with
      | none => r
      | some o =>
          if o.quantity - executed.toNat ≤ 0 then r.erase ref
          else r.insert ref { o with quantity := o.quantity - executed.toNat }

/-- The orders resting after a list of events, from none. -/
def resting (evs : List OrderEvent) : OrderMap := evs.foldl restStep ∅

/-- The events of a list of messages. -/
def events (ms : List Msg) : List OrderEvent := ms.filterMap Msg.event

/-- An order keeps the side and the price of the Add that brought it. -/
theorem exists_of_lookup_restStep {r : OrderMap} {e : OrderEvent} {ref : BitVec 64}
    {o : RestingOrder} (h : (restStep r e).lookup ref = some o) :
    (∃ q, e = .add ref o.side o.price q) ∨
      ∃ o', r.lookup ref = some o' ∧ o'.side = o.side ∧ o'.price = o.price := by
  cases e with
  | add ref' side price qty =>
    rw [restStep, lookup_insert_eq] at h
    split_ifs at h with href
    · obtain rfl := Option.some.inj h
      exact .inl ⟨qty, by rw [href]⟩
    · exact .inr ⟨o, h, rfl, rfl⟩
  | update ref' newQty =>
    simp only [restStep] at h
    cases ho' : r.lookup ref' with
    | none => exact .inr ⟨o, by simpa only [ho'] using h, rfl, rfl⟩
    | some o' =>
      simp only [ho'] at h
      exact .inr (exists_of_lookup_settle ho' h)
  | delete ref' => exact .inr ⟨o, (lookup_of_lookup_erase h).2, rfl, rfl⟩
  | execute ref' executed =>
    simp only [restStep] at h
    cases ho' : r.lookup ref' with
    | none => exact .inr ⟨o, by simpa only [ho'] using h, rfl, rfl⟩
    | some o' =>
      simp only [ho'] at h
      exact .inr (exists_of_lookup_settle ho' h)

theorem resting_concat (evs : List OrderEvent) (e : OrderEvent) :
    resting (evs ++ [e]) = restStep (resting evs) e :=
  List.foldl_concat _ _ _ _

/-- A resting order was added by one of the messages. -/
theorem exists_add_of_resting {ms : List Msg} {ref : BitVec 64} {o : RestingOrder}
    (h : (resting (events ms)).lookup ref = some o) :
    ∃ a, Msg.add a ∈ ms ∧ a.orderRef = ref ∧ sideOf a.side = o.side ∧ a.price.toInt = o.price := by
  induction ms using List.reverseRecOn generalizing o with
  | nil => exact absurd h (by simp [events, resting])
  | append_singleton ms m ih =>
    have hmore {o' : RestingOrder} (h' : (resting (events ms)).lookup ref = some o')
        (hside : o'.side = o.side) (hprice : o'.price = o.price) :
        ∃ a, Msg.add a ∈ ms ++ [m] ∧ a.orderRef = ref ∧ sideOf a.side = o.side ∧
          a.price.toInt = o.price := by
      obtain ⟨a, ha, href, hs, hp⟩ := ih h'
      exact ⟨a, List.mem_append_left _ ha, href, hs.trans hside, hp.trans hprice⟩
    have hevents : events (ms ++ [m]) = events ms ++ m.event.toList := by
      cases hev : m.event <;> simp [events, hev]
    rw [hevents] at h
    cases hev : m.event with
    | none =>
      rw [hev, Option.toList_none, List.append_nil] at h
      exact hmore h rfl rfl
    | some e =>
      rw [hev, Option.toList_some, resting_concat] at h
      rcases exists_of_lookup_restStep h with ⟨q, rfl⟩ | ⟨o', h', hside, hprice⟩
      · cases m with
        | add a =>
          obtain ⟨href, hside, hprice, -⟩ := OrderEvent.add.inj (Option.some.inj hev)
          exact ⟨a, by simp, href, hside, hprice⟩
        | _ => exact absurd hev (by simp [Msg.event])
      · exact hmore h' hside hprice

/-! ### Runs of the handler -/

namespace FeedHandler

variable {k : Fin 64}

/-- The event of a byte buffer. -/
def bufEvent (buf : List Byte) : Option OrderEvent := decodeEvent (bufferOf buf) buf.length

/-- Processing buffers does to the core what their events do. -/
theorem core_processAll (h : FeedHandler k) (bufs : List (List Byte)) :
    (h.processAll bufs).core = (bufs.filterMap bufEvent).foldl Core.step h.core := by
  induction bufs generalizing h with
  | nil => rfl
  | cons buf bufs ih =>
    rw [processAll_cons, ih, process_core]
    cases hev : bufEvent buf with
    | none =>
      rw [List.filterMap_cons_none hev, show decodeEvent (bufferOf buf) buf.length = none from hev]
      rfl
    | some e =>
      rw [List.filterMap_cons_some hev,
        show decodeEvent (bufferOf buf) buf.length = some e from hev]
      rfl

/-- Processing encoded messages does to the core what their events do. -/
theorem core_processAll_encode (h : FeedHandler k) (ms : List Msg) :
    (h.processAll (ms.map Msg.encode)).core = (events ms).foldl Core.step h.core := by
  rw [core_processAll, List.filterMap_map]
  congr 2
  funext m
  exact decodeEvent_encode m

/-- The book of a fresh handler that has processed encoded messages. -/
theorem book_processAll_encode {h : FeedHandler k} (hfresh : h.core = {}) (ms : List Msg) :
    (h.processAll (ms.map Msg.encode)).book = ((events ms).foldl Core.step {}).book := by
  rw [← hfresh, ← core_processAll_encode]
  rfl

end FeedHandler

end HftKr260
