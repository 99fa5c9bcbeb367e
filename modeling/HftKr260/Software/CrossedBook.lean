import HftKr260.Foundation.Rounding
import HftKr260.Software.BookCalls
import HftKr260.Software.Liquidity

/-!
# TopOfBook: crossed and spread

What `crossed` and `spread_ticks` of a snapshot say of the slots of the book, and of the orders
that rest: a slot displays only what rests there, so a crossed book is a bid and an ask that
cross. The other way round resting orders may cross unseen, because an Add to a taken slot is
dropped.

## Main results

* `WellFormed.topSays` — the snapshot against the slots
* `snapshot_sound` — the snapshot of a running handler against the resting orders
-/

set_option autoImplicit false

namespace HftKr260

open Foundation

namespace TopOfBook

variable (t : TopOfBook)

def crossed : Bool :=
  decide (t.bid.price ≠ nullPrice) && decide (t.ask.price ≠ nullPrice) &&
    decide (t.bid.price ≥ t.ask.price)

/-- `spread_ticks`; `round` is the conversion to a double. -/
def spreadTicks (round : ℚ → ℚ) : ℚ :=
  if t.bid.price = nullPrice ∨ t.ask.price = nullPrice then 0
  else round (int64 (t.ask.price - t.bid.price))

variable {t}

theorem crossed_iff :
    t.crossed = true ↔
      t.bid.price ≠ nullPrice ∧ t.ask.price ≠ nullPrice ∧ t.ask.price ≤ t.bid.price := by
  simp only [crossed, Bool.and_eq_true, decide_eq_true_eq, and_assoc, ge_iff_le]

/-- A difference of small prices is subtracted and converted exactly. -/
theorem spreadTicks_eq {round : ℚ → ℚ} (hround : SignedRounding round)
    (hbid : t.bid.price ≠ nullPrice) (hask : t.ask.price ≠ nullPrice)
    (hsmall : (t.ask.price - t.bid.price).natAbs ≤ 2 ^ 53) :
    t.spreadTicks round = (t.ask.price - t.bid.price : ℤ) := by
  rw [spreadTicks, if_neg (not_or.mpr ⟨hbid, hask⟩), int64_of_fits (by omega) (by omega)]
  exact hround.exact_int hsmall

end TopOfBook

section Slots

variable {k : Fin 64} {b : OrderBook k}

/-- Slots that hold the best bid and the best ask. -/
structure BestSlots (b : OrderBook k) (i j : Fin (2 ^ k.val)) : Prop where
  bid : ¬ (b.bids i).Empty
  ask : ¬ (b.asks j).Empty
  highest : ∀ i', ¬ (b.bids i').Empty → (b.bids i').price ≤ (b.bids i).price
  lowest : ∀ j', ¬ (b.asks j').Empty → (b.asks j).price ≤ (b.asks j').price

/-- The difference of the prices in two slots. -/
def OrderBook.gap (b : OrderBook k) (i j : Fin (2 ^ k.val)) : ℤ :=
  (b.asks j).price - (b.bids i).price

/-- What the spread of a snapshot says of the best slots. The subtraction is one of `int64_t`,
which not all prices fit. -/
structure ShowsSpread (round : ℚ → ℚ) (b : OrderBook k) (tob : TopOfBook)
    (i j : Fin (2 ^ k.val)) : Prop where
  best : BestSlots b i j
  converted : -2 ^ 63 ≤ b.gap i j → b.gap i j < 2 ^ 63 → tob.spreadTicks round = round (b.gap i j)
  exact : (b.gap i j).natAbs ≤ 2 ^ 53 → tob.spreadTicks round = b.gap i j
  /-- no slots are closer -/
  narrowest : -2 ^ 63 ≤ b.gap i j → b.gap i j < 2 ^ 63 →
    ∀ i' j', ¬ (b.bids i').Empty → ¬ (b.asks j').Empty →
      tob.spreadTicks round ≤ round (b.gap i' j')

/-- What a snapshot says of the slots. -/
structure TopSays (round : ℚ → ℚ) (b : OrderBook k) (tob : TopOfBook) : Prop where
  crossed_iff : tob.crossed = true ↔
    ∃ i j, ¬ (b.bids i).Empty ∧ ¬ (b.asks j).Empty ∧ (b.asks j).price ≤ (b.bids i).price
  spread : (∃ i, ¬ (b.bids i).Empty) → (∃ j, ¬ (b.asks j).Empty) →
    ∃ i j, ShowsSpread round b tob i j
  oneSided : (∀ i, (b.bids i).Empty) ∨ (∀ j, (b.asks j).Empty) → tob.spreadTicks round = 0

/-- A side that shows no price is empty, and one that shows a price shows a best slot. -/
theorem OrderBook.WellFormed.side_cases (h : b.WellFormed) (side : Side) :
    ((b.tob.level side).price = nullPrice ∧ ∀ i, (b.levels side i).Empty) ∨
      ((b.tob.level side).price ≠ nullPrice ∧
        ∃ i, ¬ (b.levels side i).Empty ∧ (b.tob.level side).price = (b.levels side i).price ∧
          ∀ j, ¬ (b.levels side j).Empty →
            side.AtLeast (b.levels side i).price (b.levels side j).price) := by
  rcases h.showsBestSlot side with ⟨hlv, hempty⟩ | ⟨i, hi, hlv, hbest⟩
  · exact .inl ⟨by rw [hlv], hempty⟩
  · exact .inr ⟨by rw [hlv]; exact h.price_ne hi, i, hi, by rw [hlv], hbest⟩

/-- A snapshot that shows the prices of the best slots shows their spread. -/
theorem BestSlots.showsSpread {i j : Fin (2 ^ k.val)} (h : BestSlots b i j) {round : ℚ → ℚ}
    (hround : SignedRounding round) {tob : TopOfBook} (hbid : tob.bid.price ≠ nullPrice)
    (hask : tob.ask.price ≠ nullPrice) (hbidi : tob.bid.price = (b.bids i).price)
    (haskj : tob.ask.price = (b.asks j).price) : ShowsSpread round b tob i j := by
  have hspread : tob.spreadTicks round = round (int64 (b.gap i j)) := by
    rw [TopOfBook.spreadTicks, if_neg (not_or.mpr ⟨hbid, hask⟩), hbidi, haskj]
    rfl
  refine ⟨h, fun hlo hhi => ?_, fun hsmall => ?_, fun hlo hhi i' j' hi' hj' => ?_⟩
  · rw [hspread, int64_of_fits hlo hhi]
  · rw [hspread, int64_of_fits (by omega) (by omega)]
    exact hround.exact_int hsmall
  · rw [hspread, int64_of_fits hlo hhi]
    refine hround.monotone (Int.cast_le.mpr ?_)
    exact sub_le_sub (h.lowest j' hj') (h.highest i' hi')

theorem OrderBook.WellFormed.topSays (h : b.WellFormed) {round : ℚ → ℚ}
    (hround : SignedRounding round) : TopSays round b b.tob := by
  rcases h.side_cases .bid with ⟨hbid, hnobid⟩ | ⟨hbid, i, hi, hbidi, hbesti⟩
  · -- no bid
    refine ⟨?_, fun ⟨i, hi⟩ => absurd (hnobid i) hi, fun _ => if_pos (.inl hbid)⟩
    refine iff_of_false (fun hcrossed => (TopOfBook.crossed_iff.mp hcrossed).1 hbid) ?_
    rintro ⟨i, -, hi, -⟩
    exact hi (hnobid i)
  rcases h.side_cases .ask with ⟨hask, hnoask⟩ | ⟨hask, j, hj, haskj, hbestj⟩
  · -- no ask
    refine ⟨?_, fun _ ⟨j, hj⟩ => absurd (hnoask j) hj, fun _ => if_pos (.inr hask)⟩
    refine iff_of_false (fun hcrossed => (TopOfBook.crossed_iff.mp hcrossed).2.1 hask) ?_
    rintro ⟨-, j, -, hj, -⟩
    exact hj (hnoask j)
  -- both sides, each with its best slot
  have hbest : BestSlots b i j := by
    refine ⟨hi, hj, fun i' hi' => ?_, fun j' hj' => ?_⟩
    · simpa [Side.AtLeast, Side.key, OrderBook.levels] using hbesti i' hi'
    · simpa [Side.AtLeast, Side.key, OrderBook.levels] using hbestj j' hj'
  change b.tob.bid.price ≠ nullPrice at hbid
  change b.tob.ask.price ≠ nullPrice at hask
  change b.tob.bid.price = (b.bids i).price at hbidi
  change b.tob.ask.price = (b.asks j).price at haskj
  refine ⟨?_, fun _ _ => ⟨i, j, hbest.showsSpread hround hbid hask hbidi haskj⟩, ?_⟩
  · rw [TopOfBook.crossed_iff, hbidi, haskj]
    constructor
    · exact fun hcrossed => ⟨i, j, hi, hj, hcrossed.2.2⟩
    · rintro ⟨i', j', hi', hj', hle⟩
      exact ⟨hbidi ▸ hbid, haskj ▸ hask,
        (hbest.lowest j' hj').trans (hle.trans (hbest.highest i' hi'))⟩
  · rintro (hempty | hempty)
    · exact absurd (hempty i) hi
    · exact absurd (hempty j) hj

end Slots

/-! ### The orders behind a snapshot -/

/-- A bid and an ask rest that cross. -/
def RestingCross (r : OrderMap) : Prop :=
  ∃ ref o ref' o', r.lookup ref = some o ∧ r.lookup ref' = some o' ∧
    o.side = .bid ∧ o'.side = .ask ∧ o'.price ≤ o.price

section Handler

variable {k : Fin 64} {c : Core k}

/-- A side that shows a price has an order resting there. -/
theorem Backed.exists_shown (h : Backed c) (side : Side)
    (hne : (c.book.tob.level side).price ≠ nullPrice) :
    ∃ ref o, c.orders.lookup ref = some o ∧ o.side = side ∧
      o.price = (c.book.tob.level side).price := by
  obtain ⟨hpos, hle⟩ := h.top_le side hne
  have hqty : restingQty c.orders side (c.book.tob.level side).price ≠ 0 := by omega
  obtain ⟨ref, o, ho, hside, hprice⟩ := exists_of_restingQty_ne_zero hqty
  exact ⟨ref, o, ho, hside, hprice⟩

theorem Backed.cross_of_crossed (h : Backed c) (hcrossed : c.book.tob.crossed = true) :
    RestingCross c.orders := by
  obtain ⟨hbid, hask, hle⟩ := TopOfBook.crossed_iff.mp hcrossed
  obtain ⟨ref, o, ho, hside, hprice⟩ := h.exists_shown .bid hbid
  obtain ⟨ref', o', ho', hside', hprice'⟩ := h.exists_shown .ask hask
  refine ⟨ref, o, ref', o', ho, ho', hside, hside', ?_⟩
  rw [hprice, hprice']
  exact hle

/-- **No false alarm.** Whatever buffers a handler has processed, as long as no Add re-uses a
resting reference or names the sentinel price: its snapshot reports a crossed book and the
spread as the slots have them, and a crossed book only if a bid and an ask rest that cross. -/
theorem snapshot_sound {round : ℚ → ℚ} (hround : SignedRounding round) (h : FeedHandler k)
    (hfresh : h.core = {}) (bufs : List (List Byte))
    (hadds : ∀ before buf after, bufs = before ++ buf :: after →
      ∀ ref side price qty, FeedHandler.bufEvent buf = some (.add ref side price qty) →
        (h.processAll before).orders.lookup ref = none ∧ price ≠ nullPrice) :
    ∃ tob, (h.processAll bufs).book.topOfBookSnapshot = some tob ∧
      TopSays round (h.processAll bufs).book tob ∧
      (tob.crossed = true → RestingCross (h.processAll bufs).orders) := by
  have hbacked : Backed (h.processAll bufs).core := by
    refine backed_processAll (hfresh ▸ Backed.fresh) bufs fun before buf after heq e he => ?_
    cases e with
    | add ref side price qty =>
      obtain ⟨hlookup, hprice⟩ := hadds before buf after heq ref side price qty he
      exact ⟨hprice, Core.covers_of_fresh hlookup⟩
    | _ => trivial
  exact ⟨_, hbacked.wellFormed.snapshot, hbacked.wellFormed.topSays hround,
    hbacked.cross_of_crossed⟩

/-- A bid and an ask that cross. -/
def bidOverAsk : List Msg := [.add ⟨0, 1, charB, 10, 101⟩, .add ⟨0, 2, charS, 5, 100⟩]

theorem snapshot_sound_bidOverAsk :
    ∃ tob, (({} : FeedHandler 8).processAll (bidOverAsk.map Msg.encode)).book.topOfBookSnapshot =
        some tob ∧
      TopSays id (({} : FeedHandler 8).processAll (bidOverAsk.map Msg.encode)).book tob ∧
      (tob.crossed = true →
        RestingCross (({} : FeedHandler 8).processAll (bidOverAsk.map Msg.encode)).orders) := by
  refine snapshot_sound signedRounding_id {} rfl (bidOverAsk.map Msg.encode) ?_
  intro before buf after heq ref side price qty he
  rcases before with _ | ⟨first, _ | ⟨second, before⟩⟩ <;> simp [bidOverAsk] at heq
  · obtain ⟨rfl, -⟩ := heq
    rw [FeedHandler.bufEvent, decodeEvent_encode] at he
    obtain ⟨-, -, rfl, -⟩ := OrderEvent.add.inj (Option.some.inj he)
    exact ⟨rfl, by decide⟩
  · obtain ⟨rfl, rfl, -⟩ := heq
    rw [FeedHandler.bufEvent, decodeEvent_encode] at he
    obtain ⟨rfl, -, rfl, -⟩ := OrderEvent.add.inj (Option.some.inj he)
    refine ⟨?_, by decide⟩
    have hcore := FeedHandler.core_processAll_encode ({} : FeedHandler 8)
      [.add ⟨0, 1, charB, 10, 101⟩]
    exact (congrArg (fun c : Core 8 => c.orders.lookup 2) hcore).trans rfl

end Handler

end HftKr260
