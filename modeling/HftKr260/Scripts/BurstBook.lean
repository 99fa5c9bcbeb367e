import HftKr260.Scripts.Bursts
import HftKr260.Software.CrossedBook
import HftKr260.Software.OrderLives

/-!
# A burst on the software book

What the feed handler makes of a burst. The generator goes on naming an order that has been
executed to the end, while the handler has dropped it, so the handler tracks the orders that are
in use and not used up, each as its own Add and Executes have left it. It never shows a crossed
book.

## Main results

* `Burst.life_iff` — what a burst makes of an order
* `burst_book` — the handler behind every burst
-/

set_option autoImplicit false

namespace HftKr260

namespace Demo

open Foundation

/-! ### The orders of a burst -/

/-- What a message takes from an order by executing it. -/
def takenBy (ref : BitVec 64) : Msg → ℕ
  | .execute e => if e.orderRef = ref then e.executedQty.toNat else 0
  | _ => 0

/-- What has been executed of an order. -/
def executedOf (ref : BitVec 64) (ms : List Msg) : ℕ := (ms.map (takenBy ref)).sum

/-- What is left of the order that `a` adds. -/
def leftOf (a : MsgAddOrder) (ms : List Msg) : RestingOrder where
  price := a.price.toInt
  quantity := a.quantity.toNat - executedOf a.orderRef ms
  side := sideOf a.side

/-- The order that `a` adds is in use, and not used up. -/
structure Leaves (ms : List Msg) (ref : BitVec 64) (a : MsgAddOrder) : Prop where
  added : Msg.add a ∈ ms
  orderRef : a.orderRef = ref
  live : ref.toNat ∈ liveRefs ms
  left : executedOf ref ms < a.quantity.toNat

section Orders

variable {ms : List Msg} {m : Msg} {ref : BitVec 64} {a a' : MsgAddOrder}

theorem executedOf_concat : executedOf ref (ms ++ [m]) = executedOf ref ms + takenBy ref m := by
  simp [executedOf]

theorem Burst.orderRef_le (h : Burst ms) (ha : Msg.add a ∈ ms) :
    a.orderRef.toNat ≤ addCount ms := by
  induction h with
  | start => exact absurd ha List.not_mem_nil
  | @add ms a' h hts href hquoted ih =>
    rw [addCount_concat_add]
    rcases List.mem_append.mp ha with hold | hnew
    · exact (ih hold).trans (Nat.le_succ _)
    · obtain rfl := Msg.add.inj (List.mem_singleton.mp hnew)
      exact href.le
  | @execute ms e h hts hlive href hqty ih =>
    rcases List.mem_append.mp ha with hold | hnew
    · simpa [addCount] using ih hold
    · exact absurd (List.mem_singleton.mp hnew) (by simp)
  | @delete ms d h hts hlive href ih =>
    rcases List.mem_append.mp ha with hold | hnew
    · simpa [addCount] using ih hold
    · exact absurd (List.mem_singleton.mp hnew) (by simp)

/-- No two Adds share a reference. -/
theorem Burst.add_unique (h : Burst ms) (ha : Msg.add a ∈ ms) (ha' : Msg.add a' ∈ ms)
    (href : a.orderRef = a'.orderRef) : a = a' := by
  induction h with
  | start => exact absurd ha List.not_mem_nil
  | @add ms new h hts hnext hquoted ih =>
    -- an Add that came before has a smaller reference than the new one
    have hearlier {b : MsgAddOrder} (hb : Msg.add b ∈ ms) : b.orderRef ≠ new.orderRef := by
      intro heq
      have hle := h.orderRef_le hb
      rw [heq] at hle
      omega
    rcases List.mem_append.mp ha with hold | hnew <;>
      rcases List.mem_append.mp ha' with hold' | hnew'
    · exact ih hold hold'
    · obtain rfl := Msg.add.inj (List.mem_singleton.mp hnew')
      exact absurd href (hearlier hold)
    · obtain rfl := Msg.add.inj (List.mem_singleton.mp hnew)
      exact absurd href.symm (hearlier hold')
    · obtain rfl := Msg.add.inj (List.mem_singleton.mp hnew)
      exact (Msg.add.inj (List.mem_singleton.mp hnew')).symm
  | execute _ _ _ _ _ ih | delete _ _ _ _ ih =>
    exact ih (by simpa using ha) (by simpa using ha')

/-- Nothing is executed under a reference that is not handed out yet. -/
theorem Burst.executedOf_eq_zero (h : Burst ms) (href : addCount ms < ref.toNat) :
    executedOf ref ms = 0 := by
  induction h with
  | start => rfl
  | @add ms a h hts hnext hquoted ih =>
    rw [addCount_concat_add] at href
    rw [executedOf_concat, ih (by omega)]
    rfl
  | @execute ms e h hts hlive hused hqty ih =>
    have hcount : addCount (ms ++ [.execute e]) = addCount ms := by simp [addCount]
    rw [hcount] at href
    have hother : e.orderRef ≠ ref := by
      rintro rfl
      have hle := (h.live.2 _ hused).2
      omega
    rw [executedOf_concat, ih href, takenBy, if_neg hother]
  | @delete ms d h hts hlive hused ih =>
    have hcount : addCount (ms ++ [.delete d]) = addCount ms := by simp [addCount]
    rw [hcount] at href
    rw [executedOf_concat, ih href]
    rfl

variable {o : RestingOrder}

/-- A message about another order leaves an order as it is. -/
theorem leaves_concat_iff (hadd : ∀ a, m = .add a → a.orderRef ≠ ref)
    (hlive : ref.toNat ∈ liveRefs (ms ++ [m]) ↔ ref.toNat ∈ liveRefs ms)
    (htaken : takenBy ref m = 0) :
    (∃ a, Leaves (ms ++ [m]) ref a ∧ o = leftOf a (ms ++ [m])) ↔
      ∃ a, Leaves ms ref a ∧ o = leftOf a ms := by
  have hexecuted : executedOf ref (ms ++ [m]) = executedOf ref ms := by
    rw [executedOf_concat, htaken, Nat.add_zero]
  have hleft {a : MsgAddOrder} (href : a.orderRef = ref) : leftOf a (ms ++ [m]) = leftOf a ms := by
    rw [leftOf, leftOf, href, hexecuted]
  constructor
  · rintro ⟨a, h, rfl⟩
    refine ⟨a, ⟨?_, h.orderRef, hlive.mp h.live, hexecuted ▸ h.left⟩, hleft h.orderRef⟩
    rcases List.mem_append.mp h.added with hold | hnew
    · exact hold
    · exact absurd h.orderRef (hadd a (List.mem_singleton.mp hnew).symm)
  · rintro ⟨a, h, rfl⟩
    exact ⟨a, ⟨List.mem_append_left _ h.added, h.orderRef, hlive.mpr h.live, hexecuted ▸ h.left⟩,
      (hleft h.orderRef).symm⟩

/-- **The orders of a burst.** An order lives exactly if it is in use and not used up, and it is
what its Executes have left of its Add. -/
theorem Burst.life_iff (h : Burst ms) :
    life ref (events ms) = some o ↔ ∃ a, Leaves ms ref a ∧ o = leftOf a ms := by
  induction h generalizing o with
  | start =>
    refine iff_of_false (by simp [events, life, KeyedRuns.eventsOf]) ?_
    rintro ⟨a, h, -⟩
    exact absurd h.added List.not_mem_nil
  | @add ms new h hts hnext hquoted ih =>
    have hevents : events (ms ++ [.add new]) =
        events ms ++ [.add new.orderRef (sideOf new.side) new.price.toInt new.quantity] := by
      simp [events, Msg.event]
    rw [hevents, life_concat]
    by_cases href : new.orderRef = ref
    · subst href
      have hnone : executedOf new.orderRef (ms ++ [.add new]) = 0 := by
        rw [executedOf_concat, h.executedOf_eq_zero (by omega)]
        rfl
      have hleft : leftOf new (ms ++ [.add new]) =
          { price := new.price.toInt
            quantity := new.quantity.toNat
            side := sideOf new.side } := by
        rw [leftOf, hnone, Nat.cast_zero, sub_zero]
      rw [OrderEvent.orderRef, if_pos rfl, lifeStep_add, ← hleft]
      constructor
      · rintro hlife
        refine ⟨new, ⟨by simp, rfl, ?_, ?_⟩, (Option.some.inj hlife).symm⟩
        · rw [liveRefs_concat]
          exact List.mem_append_right _ (List.mem_singleton_self _)
        · rw [hnone]
          have hqty := hquoted.quantity
          simp only [List.mem_cons, List.not_mem_nil, or_false] at hqty
          omega
      · rintro ⟨a, ha, rfl⟩
        rw [(h.add hts hnext hquoted).add_unique ha.added (by simp) ha.orderRef]
    · rw [OrderEvent.orderRef, if_neg href, ih]
      have hne : ref.toNat ≠ new.orderRef.toNat := fun heq => href (BitVec.eq_of_toNat_eq heq).symm
      refine (leaves_concat_iff ?_ ?_ rfl).symm
      · rintro a hadd
        obtain rfl := Msg.add.inj hadd
        exact href
      · rw [liveRefs_concat, useStep, List.mem_append, List.mem_singleton]
        exact or_iff_left hne
  | @execute ms e h hts hlive hused hqty ih =>
    have hevents : events (ms ++ [.execute e]) =
        events ms ++ [.execute e.orderRef e.executedQty] := by
      simp [events, Msg.event]
    rw [hevents, life_concat]
    by_cases href : e.orderRef = ref
    · subst href
      have hmore : executedOf e.orderRef (ms ++ [.execute e]) =
          executedOf e.orderRef ms + e.executedQty.toNat := by
        rw [executedOf_concat, takenBy, if_pos rfl]
      have hsame : liveRefs (ms ++ [.execute e]) = liveRefs ms := liveRefs_concat
      rw [OrderEvent.orderRef, if_pos rfl]
      constructor
      · intro hlife
        cases hold : life e.orderRef (events ms) with
        | none => exact absurd hlife (by rw [hold]; simp [lifeStep])
        | some o' =>
          obtain ⟨a, ha, rfl⟩ := ih.mp hold
          rw [hold] at hlife
          simp only [lifeStep, Option.ite_none_left_eq_some, Option.some.injEq] at hlife
          obtain ⟨hleft, rfl⟩ := hlife
          simp only [leftOf, ha.orderRef] at hleft
          refine ⟨a, ⟨List.mem_append_left _ ha.added, ha.orderRef, hsame ▸ ha.live, ?_⟩, ?_⟩
          · rw [hmore]
            omega
          · simp only [leftOf, ha.orderRef, hmore, Nat.cast_add, sub_sub]
      · rintro ⟨a, ha, rfl⟩
        have hadded : Msg.add a ∈ ms := by simpa using ha.added
        have hbound := ha.left
        rw [hmore] at hbound
        have hbefore : life e.orderRef (events ms) = some (leftOf a ms) :=
          ih.mpr ⟨a, ⟨hadded, ha.orderRef, hsame ▸ ha.live, by omega⟩, rfl⟩
        rw [hbefore]
        simp only [lifeStep, leftOf, ha.orderRef, hmore, Nat.cast_add, sub_sub]
        rw [if_neg (by omega)]
    · have htaken : takenBy ref (.execute e) = 0 := if_neg href
      rw [OrderEvent.orderRef, if_neg href, ih]
      refine (leaves_concat_iff (by simp) ?_ htaken).symm
      rw [liveRefs_concat]
      rfl
  | @delete ms d h hts hlive hused ih =>
    have hevents : events (ms ++ [.delete d]) = events ms ++ [.delete d.orderRef] := by
      simp [events, Msg.event]
    rw [hevents, life_concat]
    by_cases href : d.orderRef = ref
    · subst href
      rw [OrderEvent.orderRef, if_pos rfl]
      refine iff_of_false ?_ ?_
      · cases life d.orderRef (events ms) <;> simp [lifeStep]
      · rintro ⟨a, ha, -⟩
        have hgone := ha.live
        rw [liveRefs_concat, useStep, h.live.1.mem_erase_iff] at hgone
        exact hgone.1 rfl
    · rw [OrderEvent.orderRef, if_neg href, ih]
      have hne : ref.toNat ≠ d.orderRef.toNat := fun heq => href (BitVec.eq_of_toNat_eq heq).symm
      refine (leaves_concat_iff (by simp) ?_ rfl).symm
      rw [liveRefs_concat, useStep]
      exact List.mem_erase_of_ne hne

end Orders

/-! ### The book of a burst -/

/-- A price of the side the generator quotes it for. -/
def OnQuote (side : Side) (price : ℤ) : Prop :=
  match side with
  | .bid => 9980 ≤ price ∧ price ≤ 10000
  | .ask => 10001 ≤ price ∧ price ≤ 10020

theorem Quoted.onQuote {a : MsgAddOrder} (h : Quoted a) :
    OnQuote (sideOf a.side) a.price.toInt := by
  rcases h.price with ⟨hside, hprice⟩ | ⟨hside, hprice⟩
  · rw [hside]
    exact hprice
  · rw [hside]
    exact hprice

theorem OnQuote.ne_nullPrice {side : Side} {price : ℤ} (h : OnQuote side price) :
    price ≠ nullPrice := by
  have hnull : nullPrice < 9980 := by decide
  cases side with
  | bid => exact (hnull.trans_le h.1).ne'
  | ask => exact (hnull.trans_le (le_trans (by decide) h.1)).ne'

section Core

variable {k : Fin 64} {ms : List Msg}

/-- The core of a handler behind a burst. -/
def coreBehind (k : Fin 64) (ms : List Msg) : Core k := (events ms).foldl Core.step {}

theorem coreBehind_concat {m : Msg} {e : OrderEvent} (he : m.event = some e) :
    coreBehind k (ms ++ [m]) = (coreBehind k ms).step e := by
  rw [coreBehind, coreBehind, show events (ms ++ [m]) = events ms ++ [e] by simp [events, he],
    List.foldl_concat]

theorem Burst.lookup_iff (h : Burst ms) {ref : BitVec 64} {o : RestingOrder} :
    (coreBehind k ms).orders.lookup ref = some o ↔ ∃ a, Leaves ms ref a ∧ o = leftOf a ms := by
  rw [coreBehind, lookup_foldl_step]
  exact h.life_iff

/-- What the book displays is backed by the orders. -/
theorem Burst.backed (h : Burst ms) : Backed (coreBehind k ms) := by
  induction h with
  | start => exact .fresh
  | @add ms a h hts href hquoted ih =>
    have hfresh : (coreBehind k ms).orders.lookup a.orderRef = none := by
      by_contra hne
      obtain ⟨o, ho⟩ := Option.ne_none_iff_exists'.mp hne
      obtain ⟨a', ha', -⟩ := h.lookup_iff.mp ho
      have hle := (h.live.2 _ ha'.live).2
      omega
    rw [coreBehind_concat rfl]
    exact ih.step ⟨hquoted.onQuote.ne_nullPrice, Core.covers_of_fresh hfresh⟩
  | execute _ _ _ _ _ ih | delete _ _ _ _ ih =>
    rw [coreBehind_concat rfl]
    exact ih.step trivial

/-- A side shows no price, or one where the generator quotes. -/
theorem Burst.shown (h : Burst ms) (side : Side)
    (hne : ((coreBehind k ms).book.tob.level side).price ≠ nullPrice) :
    OnQuote side ((coreBehind k ms).book.tob.level side).price := by
  -- an order rests at the price, and it rests where it was quoted
  obtain ⟨ref, o, ho, hside, hprice⟩ := h.backed.exists_shown side hne
  obtain ⟨a, ha, rfl⟩ := h.lookup_iff.mp ho
  rw [← hprice, ← hside]
  exact (h.quoted a ha.added).onQuote

/-- Bids are quoted below asks. -/
theorem Burst.not_crossed (h : Burst ms) : (coreBehind k ms).book.tob.crossed = false := by
  refine Bool.eq_false_of_not_eq_true fun hcrossed => ?_
  obtain ⟨hbid, hask, hle⟩ := TopOfBook.crossed_iff.mp hcrossed
  have hbidle : (coreBehind k ms).book.tob.bid.price ≤ 10000 := (h.shown .bid hbid).2
  have haskge : 10001 ≤ (coreBehind k ms).book.tob.ask.price := (h.shown .ask hask).1
  omega

end Core

/-! ### The handler -/

/-- What the software makes of a burst. -/
structure BurstBook {k : Fin 64} (now : FeedHandler k) (ms : List Msg) : Prop where
  /-- It tracks the orders in use that are not used up, at the side and the price of their Adds
  and with what the Executes have left of them. -/
  tracked : ∀ ref o, now.orders.lookup ref = some o ↔ ∃ a, Leaves ms ref a ∧ o = leftOf a ms
  /-- What it shows is uncrossed, rests, and has a spread of one to forty ticks. -/
  shown : ∃ tob, now.book.topOfBookSnapshot = some tob ∧ tob.crossed = false ∧
    (∀ side, (tob.level side).price ≠ nullPrice →
      OnQuote side (tob.level side).price ∧ 0 < (tob.level side).quantity ∧
        (tob.level side).quantity ≤ restingQty now.orders side (tob.level side).price) ∧
    (tob.bid.price ≠ nullPrice → tob.ask.price ≠ nullPrice →
      ∀ round, SignedRounding round →
        0 < tob.spreadTicks round ∧ tob.spreadTicks round ≤ 40)

theorem Burst.burstBook {k : Fin 64} {now : FeedHandler k} {ms : List Msg} (h : Burst ms)
    (hnow : now.core = coreBehind k ms) : BurstBook now ms where
  tracked := by
    intro ref o
    rw [← h.lookup_iff (k := k), ← hnow]
    rfl
  shown := by
    have hback : Backed now.core := hnow ▸ h.backed
    have hquote (side : Side) (hne : (now.book.tob.level side).price ≠ nullPrice) :
        OnQuote side (now.book.tob.level side).price := by
      have hshown := h.shown (k := k) side
      rw [← hnow] at hshown
      exact hshown hne
    have hcrossed : now.core.book.tob.crossed = false := hnow ▸ h.not_crossed
    refine ⟨now.book.tob, hback.wellFormed.snapshot, hcrossed, ?_, ?_⟩
    · exact fun side hne => ⟨hquote side hne, hback.top_le side hne⟩
    · intro hbid hask round hround
      -- bids are below asks, and the widest spread is that of the lowest bid and the highest ask
      change now.book.tob.bid.price ≠ nullPrice at hbid
      change now.book.tob.ask.price ≠ nullPrice at hask
      obtain ⟨hbidge, hbidle⟩ : 9980 ≤ now.book.tob.bid.price ∧ now.book.tob.bid.price ≤ 10000 :=
        hquote .bid hbid
      obtain ⟨haskge, haskle⟩ : 10001 ≤ now.book.tob.ask.price ∧ now.book.tob.ask.price ≤ 10020 :=
        hquote .ask hask
      rw [TopOfBook.spreadTicks_eq hround hbid hask (by omega)]
      constructor <;> norm_cast <;> omega

/-- **A burst on the software book**, of any capacity, whatever the generator has drawn. -/
theorem burst_book {k : Fin 64} (h : FeedHandler k) (hfresh : h.core = {}) {ms : List Msg}
    (hburst : Burst ms) : BurstBook (h.processAll (ms.map Msg.encode)) ms := by
  apply hburst.burstBook
  rw [FeedHandler.core_processAll_encode, hfresh]
  rfl

theorem burst_book_bidAndAsk :
    BurstBook (({} : FeedHandler 12).processAll (bidAndAsk.map Msg.encode)) bidAndAsk :=
  burst_book {} rfl burst_bidAndAsk

end Demo

end HftKr260
