import HftKr260.Software.BookCalls
import HftKr260.Software.FeedHandler

/-!
# Reported changes of the top of book

`process` reports a change of the top of book whenever it has called the book. A call changes
the top if it changes the level the top shows, or leaves one in its slot that is ahead of it
(`MovesTop`); a call behind the best price, one that is dropped by a collision or one that
writes what is there already is reported all the same.

## Main results

* `bestLevel_update_ne_iff` — when rewriting one slot changes the level shown
* `call_tob_ne_iff` — when a call changes the top of book
* `process_truthful_iff` — when what `process` reports is right
-/

set_option autoImplicit false

namespace HftKr260

open Foundation

attribute [ext] PriceLevel TopOfBook

theorem Side.rank_injective (side : Side) : Function.Injective side.rank := by
  intro p q h
  replace h := toLex.injective h
  split_ifs at h with hp hq hq
  · exact hp.trans hq.symm
  · exact absurd (congrArg Prod.fst h) (by simp)
  · exact absurd (congrArg Prod.fst h) (by simp)
  · exact side.key_injective (congrArg Prod.snd h)

namespace OrderBook

variable {k : Fin 64} {b : OrderBook k} {side : Side} {p : ℤ}

/-! ### Rewriting one slot -/

section Leads

variable {levels : Fin (2 ^ k.val) → PriceLevel} {lv : PriceLevel} {i : Fin (2 ^ k.val)}

/-- Used slots have different prices. -/
theorem slot_unique (hhomed : ∀ i, Homed i (levels i)) {j : Fin (2 ^ k.val)}
    (hi : ¬ (levels i).Empty) (hj : ¬ (levels j).Empty)
    (hprice : (levels i).price = (levels j).price) : i = j := by
  rw [← (hhomed i).slot_eq hi, ← (hhomed j).slot_eq hj, hprice]

/-- Only one level leads. -/
theorem Leads.unique (hhomed : ∀ i, Homed i (levels i)) {lv' : PriceLevel}
    (h : Leads side levels lv) (h' : Leads side levels lv') : lv = lv' := by
  rcases h with ⟨rfl, hall⟩ | ⟨i, hi, rfl, hle⟩
  · rcases h' with ⟨rfl, -⟩ | ⟨j, hj, -⟩
    · rfl
    · exact absurd (hall j) hj
  · rcases h' with ⟨-, hall⟩ | ⟨j, hj, rfl, hle'⟩
    · exact absurd (hall i) hi
    · have hrank := le_antisymm (hle' i hi) (hle j hj)
      rw [slot_unique hhomed hi hj (side.rank_injective hrank)]

theorem leads_bestLevel_of_homed (side : Side) (hhomed : ∀ i, Homed i (levels i)) :
    Leads side levels (bestLevel side levels) := by
  refine leads_bestLevel side levels fun i hi hnull => ?_
  have hslot := (hhomed i).slot_eq hi
  rw [hnull] at hslot
  rw [← hslot]
  exact slot_nullPrice k

/-- A non-empty level at the price shown is the one shown. -/
theorem Leads.eq_of_price (hhomed : ∀ i, Homed i (levels i)) (h : Leads side levels lv)
    (hi : ¬ (levels i).Empty) (hprice : lv.price = (levels i).price) : lv = levels i := by
  rcases h with ⟨-, hall⟩ | ⟨j, hj, rfl, -⟩
  · exact absurd (hall i) hi
  · rw [slot_unique hhomed hj hi hprice]

theorem homed_update (hhomed : ∀ i, Homed i (levels i)) {lv' : PriceLevel} (h' : Homed i lv')
    (j : Fin (2 ^ k.val)) : Homed j (Function.update levels i lv' j) := by
  by_cases hj : j = i
  · subst hj
    rwa [Function.update_self]
  · rw [Function.update_of_ne hj]
    exact hhomed j

/-- A level not shown, rewritten by one that is not ahead, leaves the leader. -/
theorem Leads.update {lv' : PriceLevel} (h : Leads side levels lv)
    (hold : ¬ (¬ (levels i).Empty ∧ lv.price = (levels i).price))
    (hnew : ¬ lv'.Empty → ¬ lv.Empty ∧ side.rank lv'.price ≤ side.rank lv.price) :
    Leads side (Function.update levels i lv') lv := by
  rcases h with ⟨rfl, hall⟩ | ⟨m, hm, rfl, hle⟩
  · -- no level was in use, and the new one is empty too
    refine Or.inl ⟨rfl, fun j => ?_⟩
    by_cases hj : j = i
    · subst hj
      rw [Function.update_self]
      exact by_contra fun hne => (hnew hne).1 PriceLevel.empty_default
    · rw [Function.update_of_ne hj]
      exact hall j
  · have hmi : m ≠ i := by
      rintro rfl
      exact hold ⟨hm, rfl⟩
    refine Or.inr ⟨m, ?_, ?_, fun j hj => ?_⟩
    · rwa [Function.update_of_ne hmi]
    · rw [Function.update_of_ne hmi]
    · rw [Function.update_of_ne hmi]
      by_cases hji : j = i
      · subst hji
        rw [Function.update_self] at hj ⊢
        exact (hnew hj).2
      · rw [Function.update_of_ne hji] at hj ⊢
        exact hle j hj

/-- Rewriting one slot changes the level shown exactly if it changes the slot, and the slot's
level is the one shown or the new one is ahead of it. -/
theorem bestLevel_update_ne_iff (hhomed : ∀ i, Homed i (levels i)) {lv' : PriceLevel}
    (h' : Homed i lv') :
    bestLevel side (Function.update levels i lv') ≠ bestLevel side levels ↔
      lv' ≠ levels i ∧
        ((¬ (levels i).Empty ∧ (bestLevel side levels).price = (levels i).price) ∨
          (¬ lv'.Empty ∧ ((bestLevel side levels).Empty ∨
            side.rank (bestLevel side levels).price < side.rank lv'.price))) := by
  have hhomed' := homed_update hhomed h'
  have htop := leads_bestLevel_of_homed side hhomed
  have htop' := leads_bestLevel_of_homed side hhomed'
  generalize bestLevel side levels = top at htop ⊢
  generalize bestLevel side (Function.update levels i lv') = top' at htop' ⊢
  constructor
  · intro hne
    by_contra hno
    apply hne
    -- otherwise the level shown before still leads, and only one does
    by_cases hsame : lv' = levels i
    · rw [hsame, Function.update_eq_self] at htop'
      exact htop'.unique hhomed htop
    · obtain ⟨hold, hahead⟩ := not_or.mp fun h => hno ⟨hsame, h⟩
      refine htop'.unique hhomed' (htop.update hold fun hlv' => ?_)
      obtain ⟨hempty, hrank⟩ := not_or.mp fun h => hahead ⟨hlv', h⟩
      exact ⟨hempty, not_lt.mp hrank⟩
  · rintro ⟨hchange, ⟨hi, hprice⟩ | ⟨hlv', hahead⟩⟩ rfl
    · -- the level shown is no longer there
      rw [htop.eq_of_price hhomed hi hprice] at htop'
      rcases htop' with ⟨hdefault, -⟩ | ⟨j, hj, heq, -⟩
      · exact hi (hdefault ▸ PriceLevel.empty_default)
      · by_cases hji : j = i
        · subst hji
          rw [Function.update_self] at heq
          exact hchange heq.symm
        · rw [Function.update_of_ne hji] at hj heq
          exact hji (slot_unique hhomed hj hi (by rw [heq]))
    · -- the new level would be shown
      have hi : ¬ (Function.update levels i lv' i).Empty := by rwa [Function.update_self]
      rcases htop' with ⟨-, hall⟩ | ⟨j, hj, heq, hle⟩
      · exact hi (hall i)
      · have hrank := hle i hi
        rw [Function.update_self, ← heq] at hrank
        rcases hahead with hempty | hlt
        · rw [heq] at hempty
          exact hj hempty
        · exact absurd hrank (not_le.mpr hlt)

end Leads

/-! ### The top of book after a call -/

/-- A call changes the top of book: the level its slot holds is the one shown and is rewritten
by another, or the level it leaves there is ahead of the one shown. -/
def MovesTop (b : OrderBook k) : BookCall → Prop
  | .updateLevel side price qtyDelta orderDelta =>
      let lv := b.levels side (slot k price)
      let quantity := int64 (lv.quantity + qtyDelta)
      let top := b.tob.level side
      -- not dropped by a collision
      (lv.price = nullPrice ∨ lv.price = price) ∧
        ((¬ lv.Empty ∧ top.price = lv.price ∧
            ¬ (lv.price = price ∧ quantity = lv.quantity ∧
              int32 (lv.orders + orderDelta) = lv.orders)) ∨
          (0 < quantity ∧ (top.Empty ∨ side.rank top.price < side.rank price)))
  | .removeLevel side price =>
      let lv := b.levels side (slot k price)
      lv.price = price ∧ ¬ lv.Empty ∧ (b.tob.level side).price = price
  | .reset => b.tob ≠ {}

instance (side : Side) (p q : ℤ) : Decidable (side.rank p < side.rank q) :=
  decidable_of_iff' _ Side.rank_lt_iff

instance (b : OrderBook k) : DecidablePred b.MovesTop
  | .updateLevel _ _ _ _ => by unfold MovesTop; infer_instance
  | .removeLevel _ _ => by unfold MovesTop; infer_instance
  | .reset => by unfold MovesTop; infer_instance

theorem tob_ext {t t' : TopOfBook}
    (h : ∀ side, t.level side = t'.level side) : t = t' := by
  have hbid : t.bid = t'.bid := h .bid
  have hask : t.ask = t'.ask := h .ask
  exact TopOfBook.ext hbid hask

/-- A call on one side changes the top of book if it changes that side of it. -/
theorem tob_ne_iff {b' : OrderBook k}
    (hother : ∀ other, other ≠ side → b'.tob.level other = b.tob.level other) :
    b'.tob ≠ b.tob ↔ b'.tob.level side ≠ b.tob.level side := by
  refine not_congr ⟨fun h => by rw [h], fun h => ?_⟩
  refine tob_ext fun s => ?_
  by_cases hs : s = side
  · rw [hs]
    exact h
  · exact hother s hs

/-- A call that rewrites a slot of a side changes its top as that slot does. -/
theorem tob_ne_of_update (hb : b.Keeps Homed) {b' : OrderBook k} {i : Fin (2 ^ k.val)}
    {lv' : PriceLevel} (hb' : b'.Keeps Homed)
    (hlevels : b'.levels side = Function.update (b.levels side) i lv')
    (hother : ∀ other, other ≠ side → b'.tob.level other = b.tob.level other) :
    b'.tob ≠ b.tob ↔
      lv' ≠ b.levels side i ∧
        ((¬ (b.levels side i).Empty ∧ (b.tob.level side).price = (b.levels side i).price) ∨
          (¬ lv'.Empty ∧ ((b.tob.level side).Empty ∨
            side.rank (b.tob.level side).price < side.rank lv'.price))) := by
  have hlv' : Homed i lv' := by
    have hslot := hb'.slots side i
    rwa [hlevels, Function.update_self] at hslot
  rw [tob_ne_iff hother, hb'.top side, hb.top side, hlevels]
  exact bestLevel_update_ne_iff (hb.slots side) hlv'

/-- A call without effect on the levels leaves the top of book. -/
theorem tob_eq_of_levels (hb : b.Keeps Homed) {b' : OrderBook k} (hb' : b'.Keeps Homed)
    (hlevels : b'.levels side = b.levels side)
    (hother : ∀ other, other ≠ side → b'.tob.level other = b.tob.level other) :
    b'.tob = b.tob := by
  by_contra hne
  refine (tob_ne_iff hother).mp hne ?_
  rw [hb'.top side, hb.top side, hlevels]

/-- No level is ahead of the one shown. -/
theorem Keeps.not_ahead (hb : b.Keeps Homed) {i : Fin (2 ^ k.val)}
    (hi : ¬ (b.levels side i).Empty) :
    ¬ ((b.tob.level side).Empty ∨
      side.rank (b.tob.level side).price < side.rank (b.levels side i).price) := by
  rw [hb.top side]
  rcases leads_bestLevel_of_homed side (hb.slots side) with
    ⟨-, hall⟩ | ⟨m, hm, heq, hle⟩
  · exact absurd (hall i) hi
  · rw [heq]
    rintro (hempty | hlt)
    · exact hm hempty
    · exact absurd (hle i hi) (not_le.mpr hlt)

/-- Writing a quantity at a price, or the unused level for none. -/
private theorem write_moves_iff {lv top : PriceLevel} {qty n : ℤ}
    (hahead : ¬ lv.Empty → ¬ (top.Empty ∨ side.rank top.price < side.rank lv.price)) :
    ((if qty ≤ 0 then {} else { price := p, quantity := qty, orders := n }) ≠ lv ∧
        ((¬ lv.Empty ∧ top.price = lv.price) ∨
          (¬ (if qty ≤ 0 then {} else { price := p, quantity := qty, orders := n } :
              PriceLevel).Empty ∧
            (top.Empty ∨ side.rank top.price < side.rank
              (if qty ≤ 0 then {} else { price := p, quantity := qty, orders := n } :
                PriceLevel).price)))) ↔
      (¬ lv.Empty ∧ top.price = lv.price ∧
          ¬ (lv.price = p ∧ qty = lv.quantity ∧ n = lv.orders)) ∨
        (0 < qty ∧ (top.Empty ∨ side.rank top.price < side.rank p)) := by
  by_cases hqty : qty ≤ 0
  · -- the level is wiped out
    rw [if_pos hqty]
    constructor
    · rintro ⟨-, ⟨hne, hshown⟩ | ⟨hne, -⟩⟩
      · refine Or.inl ⟨hne, hshown, fun hsame => hne ?_⟩
        rw [PriceLevel.Empty, ← hsame.2.1]
        exact hqty
      · exact absurd PriceLevel.empty_default hne
    · rintro (⟨hne, hshown, -⟩ | ⟨hpos, -⟩)
      · exact ⟨fun hsame => hne (hsame ▸ PriceLevel.empty_default), Or.inl ⟨hne, hshown⟩⟩
      · exact absurd hqty (not_le.mpr hpos)
  · have hsame : ({ price := p, quantity := qty, orders := n } : PriceLevel) = lv ↔
        lv.price = p ∧ qty = lv.quantity ∧ n = lv.orders := by
      rw [PriceLevel.ext_iff, eq_comm (a := p)]
    rw [if_neg hqty, Ne, hsame]
    constructor
    · rintro ⟨hchange, ⟨hne, hshown⟩ | ⟨-, hmore⟩⟩
      · exact Or.inl ⟨hne, hshown, hchange⟩
      · exact Or.inr ⟨not_le.mp hqty, hmore⟩
    · rintro (⟨hne, hshown, hchange⟩ | ⟨-, hmore⟩)
      · exact ⟨hchange, Or.inl ⟨hne, hshown⟩⟩
      · refine ⟨fun hold => ?_, Or.inr ⟨hqty, hmore⟩⟩
        -- a level that is there already is not ahead
        have hne : ¬ lv.Empty := by
          rw [PriceLevel.Empty, ← hold.2.1]
          exact hqty
        rw [← hold.1] at hmore
        exact hahead hne hmore

/-- **A call changes the top of book** exactly if it moves it. -/
theorem apply_tob_ne_iff (hb : b.Keeps Homed) (c : BookCall) :
    (b.apply c).tob ≠ b.tob ↔ b.MovesTop c := by
  have hb' := hb.apply_homed c
  cases c with
  | updateLevel side p qtyDelta orderDelta =>
    have hlevels := updateLevel_levels_self (b := b) (p := p) side qtyDelta orderDelta
    have hother (other : Side) (h : other ≠ side) :=
      tob_updateLevel_of_ne (b := b) (p := p) h qtyDelta orderDelta
    by_cases hadm : (b.levels side (slot k p)).price = nullPrice ∨
        (b.levels side (slot k p)).price = p
    · rw [if_pos hadm] at hlevels
      refine (tob_ne_of_update hb hb' hlevels hother).trans ?_
      simp only [MovesTop, hadm, true_and]
      exact write_moves_iff fun hne => hb.not_ahead hne
    · rw [if_neg hadm] at hlevels
      exact iff_of_false (not_not.mpr (tob_eq_of_levels hb hb' hlevels hother))
        fun hmoves => hadm hmoves.1
  | removeLevel side p =>
    have hlevels := removeLevel_levels_self (b := b) (p := p) side
    have hother (other : Side) (h : other ≠ side) := tob_removeLevel_of_ne (b := b) (p := p) h
    by_cases hprice : (b.levels side (slot k p)).price = p
    · rw [if_pos hprice] at hlevels
      refine (tob_ne_of_update hb hb' hlevels hother).trans ?_
      simp only [MovesTop, hprice, true_and]
      constructor
      · rintro ⟨-, hshown | ⟨hne, -⟩⟩
        · exact hshown
        · exact absurd PriceLevel.empty_default hne
      · exact fun hshown =>
          ⟨fun hsame => hshown.1 (hsame ▸ PriceLevel.empty_default), Or.inl hshown⟩
    · rw [if_neg hprice] at hlevels
      exact iff_of_false (not_not.mpr (tob_eq_of_levels hb hb' hlevels hother))
        fun hmoves => hprice hmoves.1
  | reset => exact ne_comm

end OrderBook

/-! ### What is reported -/

/-- The call a decoded message makes on the book, by the orders that rest. -/
def OrderEvent.bookCall (orders : OrderMap) : OrderEvent → Option BookCall
  | .add _ side price qty => some (.updateLevel side price qty.toNat 1)
  | .update ref newQty =>
      (orders.lookup ref).map fun o =>
        if (newQty.toNat : ℤ) ≤ 0 then .removeLevel o.side o.price
        else .updateLevel o.side o.price (int64 (newQty.toNat - o.quantity)) 0
  | .delete ref =>
      (orders.lookup ref).map fun o =>
        .updateLevel o.side o.price (int64 (-o.quantity)) (-1)
  | .execute ref executed =>
      (orders.lookup ref).map fun o =>
        if int64 (o.quantity - executed.toNat) ≤ 0 then .removeLevel o.side o.price
        else .updateLevel o.side o.price (int64 (-(executed.toNat : ℤ))) 0

variable {k : Fin 64}

/-- An event does to the book what its call does. -/
theorem Core.step_book (c : Core k) (e : OrderEvent) :
    (c.step e).book = (e.bookCall c.orders).elim c.book c.book.apply := by
  cases e with
  | add ref side price qty => rfl
  | update ref newQty =>
    simp only [step, OrderEvent.bookCall]
    cases c.orders.lookup ref with
    | none => rfl
    | some o => dsimp only [Option.map_some, Option.elim_some]; split_ifs <;> rfl
  | delete ref =>
    simp only [step, OrderEvent.bookCall]
    cases c.orders.lookup ref <;> rfl
  | execute ref executed =>
    simp only [step, OrderEvent.bookCall]
    cases c.orders.lookup ref with
    | none => rfl
    | some o => dsimp only [Option.map_some, Option.elim_some]; split_ifs <;> rfl

/-- The snapshots handed to the top-of-book callback, in order. -/
def reported (calls : List CallbackCall) : List (Option TopOfBook) :=
  calls.filterMap fun
    | .topOfBook snapshot _ => some snapshot
    | .trade _ _ _ _ => none

@[simp] theorem reported_concat_topOfBook (calls : List CallbackCall)
    (snapshot : Option TopOfBook) (ts : BitVec 64) :
    reported (calls ++ [.topOfBook snapshot ts]) = reported calls ++ [snapshot] := by
  simp [reported]

@[simp] theorem reported_concat_trade (calls : List CallbackCall) (price qty : ℤ) (side : Side)
    (ts : BitVec 64) : reported (calls ++ [.trade price qty side ts]) = reported calls := by
  simp [reported]

namespace FeedHandler

variable (h : FeedHandler k) (m : Buffer) (len : ℕ)

/-- The call a message buffer makes on the book. -/
def bookCall : Option BookCall := (decodeEvent m len).bind (OrderEvent.bookCall h.orders)

theorem process_book :
    (h.process m len).1.book = (h.bookCall m len).elim h.book h.book.apply := by
  have hcore := congrArg Core.book (h.process_core m len)
  rw [bookCall]
  cases hevent : decodeEvent m len with
  | none =>
    rw [hevent] at hcore
    exact hcore
  | some e =>
    rw [hevent] at hcore
    exact hcore.trans (h.core.step_book e)

/-- What a handler leaves to `process`: the registrations and the calls so far, and whether it
has called the book. -/
structure Leaves (h : FeedHandler k) (r : FeedHandler k × Bool) (call : Option BookCall) :
    Prop where
  tobCb : r.1.tobCb = h.tobCb
  reported : reported r.1.calls = reported h.calls
  result : r.2 = call.isSome

theorem dispatch_leaves (hlen : ¬ len < 1) :
    Leaves h (h.dispatch m len) (h.bookCall m len) := by
  unfold dispatch bookCall decodeEvent
  rw [if_neg hlen]
  -- of each type a buffer that is too short, and one that is not
  split_ifs with hA hshort hU hshort hD hshort hE hshort hP
  · simp only [handleAdd, hshort, if_true]
    exact ⟨rfl, rfl, rfl⟩
  · simp only [handleAdd, hshort, if_false]
    exact ⟨rfl, rfl, rfl⟩
  · simp only [handleUpdate, hshort, if_true]
    exact ⟨rfl, rfl, rfl⟩
  · simp only [handleUpdate, hshort, if_false, Option.bind_some, OrderEvent.bookCall]
    cases h.orders.lookup (be64 m 9) with
    | none => exact ⟨rfl, rfl, rfl⟩
    | some o => dsimp only; split_ifs <;> exact ⟨rfl, rfl, rfl⟩
  · simp only [handleDelete, hshort, if_true]
    exact ⟨rfl, rfl, rfl⟩
  · simp only [handleDelete, hshort, if_false, Option.bind_some, OrderEvent.bookCall]
    cases h.orders.lookup (be64 m 9) <;> exact ⟨rfl, rfl, rfl⟩
  · simp only [handleExecute, hshort, if_true]
    exact ⟨rfl, rfl, rfl⟩
  · simp only [handleExecute, hshort, if_false, Option.bind_some, OrderEvent.bookCall]
    cases h.orders.lookup (be64 m 9) with
    | none => exact ⟨rfl, rfl, rfl⟩
    | some o => dsimp only; split_ifs <;> exact ⟨rfl, rfl, rfl⟩
  · simp only [handleTrade]
    split_ifs
    · exact ⟨rfl, rfl, rfl⟩
    · exact ⟨rfl, reported_concat_trade _ _ _ _ _, rfl⟩
    · exact ⟨rfl, rfl, rfl⟩
  · exact ⟨rfl, rfl, rfl⟩

/-- `process` reports a change exactly if the message called the book. -/
theorem process_reports :
    (h.process m len).2 = (h.bookCall m len).isSome ∧
      reported (h.process m len).1.calls =
        reported h.calls ++
          if h.tobCb ∧ (h.bookCall m len).isSome then
            [(h.process m len).1.book.topOfBookSnapshot]
          else [] := by
  unfold process
  by_cases hlen : len < 1
  · have hnone : h.bookCall m len = none := by
      rw [bookCall, decodeEvent, if_pos hlen]
      rfl
    rw [if_pos hlen, hnone]
    simp
  · have hleaves := h.dispatch_leaves m len hlen
    simp only [hlen, if_false, hleaves.tobCb, hleaves.result]
    cases hcb : h.tobCb with
    | false => simp [hleaves.reported]
    | true =>
      cases hcall : (h.bookCall m len).isSome with
      | false => simp [hleaves.reported]
      | true => simp [hleaves.reported]

/-- The result and the callback of `process` tell whether the snapshot has changed. -/
structure Truthful : Prop where
  result : (h.process m len).2 = true ↔
    (h.process m len).1.book.topOfBookSnapshot ≠ h.book.topOfBookSnapshot
  callback : reported (h.process m len).1.calls =
    reported h.calls ++
      if h.tobCb ∧ (h.process m len).1.book.topOfBookSnapshot ≠ h.book.topOfBookSnapshot then
        [(h.process m len).1.book.topOfBookSnapshot]
      else []

/-- **What `process` reports is right**, on any book that calls can produce, exactly if the
message leaves the book alone or moves its top. -/
theorem process_truthful_iff (hbook : ∃ calls, h.book = OrderBook.after calls) :
    h.Truthful m len ↔ ∀ c, h.bookCall m len = some c → h.book.MovesTop c := by
  obtain ⟨calls, hcalls⟩ := hbook
  have hb : h.book.Keeps OrderBook.Homed := by
    rw [hcalls]
    exact OrderBook.homed_after calls
  obtain ⟨hresult, hreported⟩ := h.process_reports m len
  have hprocess := h.process_book m len
  cases hcall : h.bookCall m len with
  | none =>
    -- nothing is called, reported or changed
    rw [hcall] at hresult hreported hprocess
    have hsame : (h.process m len).1.book = h.book := hprocess
    refine iff_of_true ⟨?_, ?_⟩ fun c hc => absurd hc (by simp)
    · rw [hresult, hsame]
      simp
    · rw [hreported, hsame]
      simp
  | some c =>
    rw [hcall] at hresult hreported hprocess
    have happly : (h.process m len).1.book = h.book.apply c := hprocess
    have hchanged : (h.process m len).1.book.topOfBookSnapshot ≠ h.book.topOfBookSnapshot ↔
        h.book.MovesTop c := by
      rw [happly, hb.snapshot, (hb.apply_homed c).snapshot, Ne, Option.some.injEq]
      exact OrderBook.apply_tob_ne_iff hb c
    constructor
    · intro htruthful c' hc'
      obtain rfl := Option.some.inj hc'
      exact hchanged.mp (htruthful.result.mp hresult)
    · intro hmoves
      have hmoved := hchanged.mpr (hmoves c rfl)
      refine ⟨iff_of_true hresult hmoved, ?_⟩
      rw [hreported]
      simp [hmoved]

/-- The book of a handler is written by calls only. -/
theorem book_process (hbook : ∃ calls, h.book = OrderBook.after calls) :
    ∃ calls, (h.process m len).1.book = OrderBook.after calls := by
  obtain ⟨calls, hcalls⟩ := hbook
  rw [process_book]
  cases h.bookCall m len with
  | none => exact ⟨calls, hcalls⟩
  | some c =>
    refine ⟨calls ++ [c], ?_⟩
    rw [OrderBook.after_concat, ← hcalls]
    rfl

/-- A handler that has processed any buffers is one of those. -/
theorem book_processAll {h : FeedHandler k} (hbook : ∃ calls, h.book = OrderBook.after calls)
    (bufs : List (List Byte)) : ∃ calls, (h.processAll bufs).book = OrderBook.after calls := by
  induction bufs generalizing h with
  | nil => exact hbook
  | cons buf bufs ih => exact ih (h.book_process _ _ hbook)

/-- A first bid moves the top. -/
theorem firstBid_truthful :
    (∀ c, ({ tobCb := true } : FeedHandler 3).bookCall
        (bufferOf (buildAdd 0 1 charB 10 100)) 30 = some c →
      ({ tobCb := true } : FeedHandler 3).book.MovesTop c) ∧
    ({ tobCb := true } : FeedHandler 3).Truthful (bufferOf (buildAdd 0 1 charB 10 100)) 30 := by
  have hmoves : ∀ c, ({ tobCb := true } : FeedHandler 3).bookCall
      (bufferOf (buildAdd 0 1 charB 10 100)) 30 = some c →
        ({ tobCb := true } : FeedHandler 3).book.MovesTop c := by
    intro c hc
    have hcall : ({ tobCb := true } : FeedHandler 3).bookCall
        (bufferOf (buildAdd 0 1 charB 10 100)) 30 = some (.updateLevel .bid 100 10 1) := by
      decide +kernel
    rw [hcall] at hc
    obtain rfl := Option.some.inj hc
    decide +kernel
  exact ⟨hmoves, (process_truthful_iff _ _ _ ⟨[], rfl⟩).mpr hmoves⟩

/-- A bid of 100 and one of 99 behind it: the second is reported too. -/
theorem bidBehind_reported :
    let h := ({ tobCb := true } : FeedHandler 3).processAll [buildAdd 0 1 charB 10 100]
    (∃ calls, h.book = OrderBook.after calls) ∧
      (h.process (bufferOf (buildAdd 0 2 charB 10 99)) 30).2 = true ∧
      (h.process (bufferOf (buildAdd 0 2 charB 10 99)) 30).1.book.topOfBookSnapshot =
        h.book.topOfBookSnapshot ∧
      ¬ h.Truthful (bufferOf (buildAdd 0 2 charB 10 99)) 30 := by
  intro h
  have hresult : (h.process (bufferOf (buildAdd 0 2 charB 10 99)) 30).2 = true := by
    decide +kernel
  have hsame : (h.process (bufferOf (buildAdd 0 2 charB 10 99)) 30).1.book.topOfBookSnapshot =
      h.book.topOfBookSnapshot := by decide +kernel
  refine ⟨book_processAll ⟨[], rfl⟩ _, hresult, hsame, fun htruthful => ?_⟩
  exact htruthful.result.mp hresult hsame

end FeedHandler

end HftKr260
