import HftKr260.Rtl.EngineFeed
import HftKr260.Software.Aggregation

/-!
# The two books

The hardware's top of book against the software's, after the same messages. The software
keeps its orders by reference, and `Aggregation` says when its snapshot shows the best
resting prices. The hardware keeps its levels by price and `EngineFeed` says what they
hold. Where no order's liquidity is dropped on one side and no level is touched by a message
that is not for it on the other, the two books meet in a condition on the prices: what the
tree shows of the arrivals has to be the best resting price.

## Main results

* `books_agree_iff` — when the two books agree
* `books_disagree_quotes` — one bid and one ask, on which they do not
-/

set_option autoImplicit false

namespace HftKr260

open Foundation

/-! ### The feed -/

/-- The references of the Adds. -/
def addedRefs (ms : List Msg) : List (BitVec 64) :=
  ms.filterMap fun
    | .add a => some a.orderRef
    | _ => none

/-- What is promised of a message that follows others. -/
def Expected (before : List Msg) : Msg → Prop
  | .add a =>
      a.orderRef ∉ addedRefs before ∧
        (a.side = charB ∨ a.side = charS) ∧ 0 < a.quantity.toNat ∧
        1 ≤ a.price.toInt ∧ a.price.toInt ≤ 2 ^ 62
  | .update u => ((resting (events before)).lookup u.orderRef).isSome
  | .delete d => ((resting (events before)).lookup d.orderRef).isSome
  | .execute e => ((resting (events before)).lookup e.orderRef).isSome
  | .trade _ => False

instance (before : List Msg) : DecidablePred (Expected before)
  | .add _ => inferInstanceAs (Decidable (_ ∧ _ ∧ _ ∧ _ ∧ _))
  | .update _ => inferInstanceAs (Decidable (_ = true))
  | .delete _ => inferInstanceAs (Decidable (_ = true))
  | .execute _ => inferInstanceAs (Decidable (_ = true))
  | .trade _ => inferInstanceAs (Decidable False)

/-- A feed for a book of `2 ^ k` slots and an engine of eight levels a side. -/
structure OrderlyFeed (k : Fin 64) (ms : List Msg) : Prop where
  expected : ∀ i m, ms[i]? = some m → Expected (ms.take i) m
  apart : ∀ i, NoCollision k (resting (events (ms.take i)))
  few : ∀ i side (ps : List ℤ), ps.Nodup →
    (∀ p ∈ ps, restingCount (resting (events (ms.take i))) side p ≠ 0) → ps.length ≤ 8

/-- The best price resting on a side. -/
def BestResting (r : OrderMap) (side : Side) (p : ℤ) : Prop :=
  (∃ ref o, r.lookup ref = some o ∧ o.At side p) ∧
    ∀ ref o, r.lookup ref = some o → o.side = side → side.AtLeast p o.price

/-- `tob_valid` is up exactly if the snapshot has a bid and an ask, and then the best
prices are those of the snapshot. -/
structure BooksAgree (s : OrderBookEngine) (tob : TopOfBook) : Prop where
  valid : s.tobValid = true ↔ tob.bid.price ≠ nullPrice ∧ tob.ask.price ≠ nullPrice
  prices : tob.bid.price ≠ nullPrice → tob.ask.price ≠ nullPrice →
    s.bestBidPrice.toInt = tob.bid.price ∧ s.bestAskPrice.toInt = tob.ask.price

theorem booksAgree_iff_sides {s : OrderBookEngine} {tob : TopOfBook} :
    BooksAgree s tob ↔
      (s.tobValid = true ↔ ∀ side, (tob.level side).price ≠ nullPrice) ∧
        ((∀ side, (tob.level side).price ≠ nullPrice) →
          ∀ side, (s.bestPrice side).toInt = (tob.level side).price) := by
  have hsides {P : Side → Prop} : (∀ side, P side) ↔ P .bid ∧ P .ask :=
    ⟨fun h => ⟨h .bid, h .ask⟩, fun h side => by cases side; exacts [h.1, h.2]⟩
  simp only [hsides]
  exact ⟨fun h => ⟨h.valid, fun hboth => h.prices hboth.1 hboth.2⟩,
    fun h => ⟨h.1, fun hbid hask => h.2 ⟨hbid, hask⟩⟩⟩

namespace OrderlyFeed

variable {k : Fin 64} {ms : List Msg}

theorem expected_split (h : OrderlyFeed k ms) {before after : List Msg} {m : Msg}
    (hms : ms = before ++ m :: after) : Expected before m := by
  subst hms
  have hexp := h.expected before.length m (by simp)
  rwa [List.take_left] at hexp

theorem not_isTrade (h : OrderlyFeed k ms) : ∀ m ∈ ms, ¬ m.IsTrade := by
  intro m hm htrade
  obtain ⟨before, after, hms⟩ := List.append_of_mem hm
  have hexp := h.expected_split hms
  cases m with
  | trade t => exact hexp
  | _ => exact htrade

/-- What is promised of an Add of the feed, beside its reference. -/
theorem add_expected (h : OrderlyFeed k ms) {a : MsgAddOrder} (ha : Msg.add a ∈ ms) :
    (a.side = charB ∨ a.side = charS) ∧ 0 < a.quantity.toNat ∧
      1 ≤ a.price.toInt ∧ a.price.toInt ≤ 2 ^ 62 := by
  obtain ⟨before, after, hms⟩ := List.append_of_mem ha
  exact (h.expected_split hms).2

theorem sidesOk (h : OrderlyFeed k ms) : SidesOk ms := fun _ ha => (h.add_expected ha).1

/-- A price in the promised range is no null price. -/
theorem ne_nullPrice {p : ℤ} (h : 1 ≤ p) : p ≠ nullPrice := by
  rintro rfl
  exact absurd h (by decide)

theorem resting_ne_nullPrice (h : OrderlyFeed k ms) (ref : BitVec 64) (o : RestingOrder)
    (ho : (resting (events ms)).lookup ref = some o) : o.price ≠ nullPrice := by
  obtain ⟨a, ha, -, -, hprice⟩ := exists_add_of_resting ho
  obtain ⟨-, -, hlo, -⟩ := h.add_expected ha
  exact hprice ▸ ne_nullPrice hlo

theorem promised {before : List Msg} {m : Msg} {e : OrderEvent} (h : Expected before m)
    (he : m.event = some e) : Promised (resting (events before)) e := by
  cases m with
  | add a =>
    obtain rfl := Option.some.inj he
    obtain ⟨hfresh, -, hqty, hlo, -⟩ := h
    refine ⟨?_, hqty, ne_nullPrice hlo⟩
    cases ho : (resting (events before)).lookup a.orderRef with
    | none => rfl
    | some o =>
      obtain ⟨a', ha', href, -⟩ := exists_add_of_resting ho
      have hused : a.orderRef ∈ addedRefs before :=
        List.mem_filterMap.mpr ⟨.add a', ha', by simp [href]⟩
      exact absurd hused hfresh
  | trade t => exact absurd he (by simp [Msg.event])
  | _ =>
    obtain rfl := Option.some.inj he
    trivial

/-- The rest of an orderly feed is a promised run. -/
theorem promisedRun_append (h : OrderlyFeed k ms) (before after : List Msg)
    (hms : ms = before ++ after) : PromisedRun k (resting (events before)) (events after) := by
  induction after generalizing before with
  | nil => trivial
  | cons m after ih =>
    -- the message moves from the rest to what came before
    have hrest := ih (before ++ [m]) (by rw [hms, List.append_assoc]; rfl)
    have hexp := h.expected_split hms
    have hevents : events (before ++ [m]) = events before ++ m.event.toList := by
      cases hev : m.event <;> simp [events, hev]
    have hcons : events (m :: after) = m.event.toList ++ events after := by
      cases hev : m.event <;> simp [events, hev]
    rw [hevents] at hrest
    rw [hcons]
    cases hev : m.event with
    | none =>
      rw [hev, Option.toList_none, List.append_nil] at hrest
      exact hrest
    | some e =>
      rw [hev, Option.toList_some, resting_concat] at hrest
      have hapart := h.apart (before.length + 1)
      have htake : ms.take (before.length + 1) = before ++ [m] := by
        rw [hms, List.take_append]
        simp
      rw [htake, hevents, hev, Option.toList_some, resting_concat] at hapart
      exact ⟨promised hexp hev, hapart, hrest⟩

theorem promisedRun (h : OrderlyFeed k ms) : PromisedRun k ∅ (events ms) :=
  h.promisedRun_append [] ms rfl

end OrderlyFeed

/-! ### The software's best prices -/

section Top

variable {r : OrderMap} {side : Side} {lv : PriceLevel} (h : ShowsTop r side lv)
include h

/-- The snapshot has a price exactly if an order rests on the side. -/
theorem ShowsTop.price_ne_iff (hreal : ∀ ref o, r.lookup ref = some o → o.price ≠ nullPrice) :
    lv.price ≠ nullPrice ↔ ∃ ref o, r.lookup ref = some o ∧ o.side = side := by
  rcases h with ⟨rfl, hnone⟩ | ⟨⟨ref, o, ho, hat⟩, -⟩
  · refine ⟨fun hne => absurd rfl hne, ?_⟩
    rintro ⟨ref, o, ho, hside⟩
    exact absurd hside (hnone ref o ho)
  · exact ⟨fun _ => ⟨ref, o, ho, hat.1⟩, fun _ => hat.2 ▸ hreal ref o ho⟩

/-- And then it is the best price resting there. -/
theorem ShowsTop.best_iff (hne : lv.price ≠ nullPrice) (p : ℤ) :
    BestResting r side p ↔ p = lv.price := by
  rcases h with ⟨rfl, -⟩ | ⟨hrests, hbest, -⟩
  · exact absurd rfl hne
  · constructor
    · rintro ⟨⟨ref, o, ho, hat⟩, hp⟩
      obtain ⟨ref', o', ho', hat'⟩ := hrests
      have hle := hbest ref o ho hat.1
      have hge := hp ref' o' ho' hat'.1
      rw [hat.2] at hle
      rw [hat'.2] at hge
      exact side.key_injective (le_antisymm hle hge)
    · rintro rfl
      exact ⟨hrests, hbest⟩

end Top

/-! ### Agreement -/

/-- On every side, the arrival the engine shows is the best resting price. -/
def ShowsBest (ms : List Msg) (rs : List EngineReading) : Prop :=
  ∀ side, ∃ m : BitVec 64, BestResting (resting (events ms)) side m.toInt ∧
    LevelArray.Shown side.beats (arrivals side rs) m

/-- **When hardware and software books agree.** Take an orderly feed in which orders are used
up alone at their price and no message is read as taking from a level. The top of book shown
by the hardware after eight idle cycles agrees with the software's snapshot if and only if one
side of the engine never had an arrival, or each side shows its best resting price. -/
theorem books_agree_iff (k : Fin 64) (h : FeedHandler k) (hfresh : h.core = {})
    (powerUp : OrderBookEngine) (ms : List Msg) (input : ℕ → AxisIn) (t₀ t : ℕ)
    (hfeed : OrderlyFeed k ms) (hstreamed : Streamed ms input t₀ t)
    (hsole : SoleFinishRun ∅ (events ms)) (hquiet : Undisturbed (readings input t₀)) :
    (∃ tob, (h.processAll (ms.map Msg.encode)).book.topOfBookSnapshot = some tob ∧
      BooksAgree (kr260Top powerUp input t).engine tob) ↔
        ((∀ side, arrivals side (readings input t₀) ≠ []) →
          ShowsBest ms (readings input t₀)) := by
  have hagrees : Agrees ((events ms).foldl Core.step ({} : Core k)).book (resting (events ms)) :=
    (Exact.fresh.agrees_run_iff hfeed.promisedRun).mpr hsole (events ms) List.prefix_rfl
  rw [← FeedHandler.book_processAll_encode hfresh] at hagrees
  -- the software's half: the snapshot shows the best resting prices
  obtain ⟨tob, htob, htop⟩ := hagrees.top
  -- the hardware's half: the outputs show the arrivals
  obtain ⟨hvalid, hshown⟩ := hstreamed.outputs powerUp hfeed.not_isTrade hquiet
  have hrests (side : Side) := (htop side).price_ne_iff hfeed.resting_ne_nullPrice
  -- what rests on a side was added to it
  have hadds (side : Side) (hne : (tob.level side).price ≠ nullPrice) :
      arrivals side (readings input t₀) ≠ [] := by
    obtain ⟨ref, o, ho, rfl⟩ := (hrests side).mp hne
    obtain ⟨a, ha, -, hside, -⟩ := exists_add_of_resting ho
    rw [← hside]
    exact arrivals_ne_nil_of_add hfeed.sidesOk (hstreamed.frames_eq hfeed.not_isTrade) ha
  have hbest (side : Side) (m : BitVec 64) (hne : (tob.level side).price ≠ nullPrice) :
      BestResting (resting (events ms)) side m.toInt ↔ m.toInt = (tob.level side).price :=
    (htop side).best_iff hne m.toInt
  simp only [htob, Option.some.injEq, exists_eq_left', engine_kr260Top]
  change BooksAgree (engine powerUp input t) tob ↔ _
  rw [booksAgree_iff_sides, hvalid]
  constructor
  · rintro ⟨hboth, hprices⟩ hall side
    refine ⟨(engine powerUp input t).bestPrice side, ?_, ?_⟩
    · rw [hbest side _ (hboth.mp hall side)]
      exact hprices (hboth.mp hall) side
    · exact (hshown side _ (hall side)).mp rfl
  · intro hshows
    have hne (hall : ∀ side, arrivals side (readings input t₀) ≠ []) (side : Side) :
        (tob.level side).price ≠ nullPrice := by
      obtain ⟨m, ⟨⟨ref, o, ho, hat⟩, -⟩, -⟩ := hshows hall side
      exact (hrests side).mpr ⟨ref, o, ho, hat.1⟩
    refine ⟨⟨hne, fun hboth side => hadds side (hboth side)⟩, fun hboth side => ?_⟩
    obtain ⟨m, hm, hshow⟩ := hshows (fun side => hadds side (hboth side)) side
    rw [(hshown side m (hadds side (hboth side))).mpr hshow]
    exact (hbest side m (hboth side)).mp hm

/-! ### Feeds with one price a side -/

section OnePrice

/-! All Adds to a side have one price. -/

variable {k : Fin 64} {ms : List Msg} (price : Side → BitVec 64)
  (hprice : ∀ a, Msg.add a ∈ ms → a.price = price (sideOf a.side))
include hprice

/-- Then nothing rests at another price. -/
theorem price_of_resting {ref : BitVec 64} {o : RestingOrder}
    (ho : (resting (events ms)).lookup ref = some o) : o.price = (price o.side).toInt := by
  obtain ⟨a, ha, -, hside, hp⟩ := exists_add_of_resting ho
  rw [← hp, hprice a ha, hside]

/-- A feed whose Adds have one price a side keeps the promises on prices. -/
theorem OrderlyFeed.of_price
    (hexpected : ∀ i : Fin ms.length, Expected (ms.take i) (ms.get i)) : OrderlyFeed k ms := by
  have hrests (i : ℕ) (ref : BitVec 64) (o : RestingOrder)
      (ho : (resting (events (ms.take i))).lookup ref = some o) :
      o.price = (price o.side).toInt :=
    price_of_resting price (fun a ha => hprice a (List.mem_of_mem_take ha)) ho
  refine ⟨fun i m hm => ?_, fun i => .of_price (fun side => (price side).toInt) (hrests i),
    fun i side ps hnodup hps => ?_⟩
  · obtain ⟨hi, rfl⟩ := List.getElem?_eq_some_iff.mp hm
    exact hexpected ⟨i, hi⟩
  · have hsub : ps ⊆ [(price side).toInt] := by
      intro p hp
      obtain ⟨ref, o, ho, hside, hat⟩ := exists_of_restingCount_ne_zero (hps p hp)
      rw [← hat, hrests i ref o ho, hside]
      exact List.mem_singleton_self _
    have hlen : ps.length ≤ 1 := (List.subperm_of_subset hnodup hsub).length_le
    omega

/-- The one price is the best while an order rests there. -/
theorem bestResting_of_price (ref : BitVec 64) {o : RestingOrder}
    (ho : (resting (events ms)).lookup ref = some o) :
    BestResting (resting (events ms)) o.side (price o.side).toInt := by
  refine ⟨⟨ref, o, ho, rfl, price_of_resting price hprice ho⟩, fun ref' o' ho' hside => ?_⟩
  rw [price_of_resting price hprice ho', hside]
  exact le_rfl

end OnePrice

/-- Prices of one byte, so that the second bid is looked up by its own price, an order executed
in part and another one cancelled. -/
def steadyQuotes : List Msg :=
  [.add ⟨0, 1, charB, 10, 0x0101010101010101⟩, .add ⟨0, 2, charS, 10, 0x0202020202020202⟩,
    .execute ⟨0, 1, 4⟩, .add ⟨0, 3, charB, 1, 0x0101010101010101⟩, .delete ⟨0, 3⟩]

/-- Their prices. -/
def steadyPrice : Side → BitVec 64
  | .bid => 0x0101010101010101
  | .ask => 0x0202020202020202

theorem steadyQuotes_price (a : MsgAddOrder) (ha : Msg.add a ∈ steadyQuotes) :
    a.price = steadyPrice (sideOf a.side) := by
  simp only [steadyQuotes, List.mem_cons, Msg.add.injEq, reduceCtorEq, List.not_mem_nil,
    or_false, false_or] at ha
  rcases ha with rfl | rfl | rfl <;> rfl

theorem orderlyFeed_steadyQuotes : OrderlyFeed 8 steadyQuotes :=
  .of_price steadyPrice steadyQuotes_price (by decide)

theorem showsBest_steadyQuotes : ShowsBest steadyQuotes (gaplessReadings [] steadyQuotes) := by
  intro side
  have harrivals : arrivals side (gaplessReadings [] steadyQuotes) = [steadyPrice side] := by
    cases side <;> decide +kernel
  refine ⟨steadyPrice side, ?_, ?_⟩
  · cases side with
    | bid => exact bestResting_of_price steadyPrice steadyQuotes_price 1 rfl
    | ask => exact bestResting_of_price steadyPrice steadyQuotes_price 2 rfl
  · rw [harrivals]
    exact LevelArray.shown_head _ (Nat.zero_le 1)

/-- Both books show the two prices. -/
theorem books_agree_steadyQuotes :
    ∃ tob, (({} : FeedHandler 8).processAll (steadyQuotes.map Msg.encode)).book.topOfBookSnapshot =
        some tob ∧
      BooksAgree (kr260Top default (playback (stream steadyQuotes)) 136).engine tob := by
  have hread : readings (playback (stream steadyQuotes)) 128 = gaplessReadings [] steadyQuotes :=
    readings_playback orderlyFeed_steadyQuotes.not_isTrade
  refine (books_agree_iff 8 {} rfl default steadyQuotes _ 128 136 orderlyFeed_steadyQuotes
    (streamed_playback steadyQuotes) (by decide) ?_).mpr ?_
  · rw [hread]
    decide +kernel
  · rw [hread]
    exact fun _ => showsBest_steadyQuotes

/-- One bid and one ask. -/
def quotes : List Msg := [.add ⟨0, 1, charB, 10, 100⟩, .add ⟨0, 2, charS, 10, 200⟩]

theorem orderlyFeed_quotes : OrderlyFeed 8 quotes := by
  refine .of_price (fun side => if side = .bid then 100 else 200) ?_ (by decide)
  intro a ha
  simp only [quotes, List.mem_cons, Msg.add.injEq, List.not_mem_nil, or_false] at ha
  rcases ha with rfl | rfl <;> rfl

/-- The engine shows the bid's price with its bytes reversed. -/
theorem books_disagree_quotes :
    OrderlyFeed 8 quotes ∧ Streamed quotes (playback (stream quotes)) 60 68 ∧
      ∀ powerUp, ¬ ∃ tob,
        (({} : FeedHandler 8).processAll (quotes.map Msg.encode)).book.topOfBookSnapshot =
          some tob ∧
        BooksAgree (kr260Top powerUp (playback (stream quotes)) 68).engine tob := by
  have hstreamed : Streamed quotes (playback (stream quotes)) 60 68 := streamed_playback quotes
  refine ⟨orderlyFeed_quotes, hstreamed, ?_⟩
  rintro powerUp ⟨tob, htob, hagree⟩
  have hread : readings (playback (stream quotes)) 60 = gaplessReadings [] quotes :=
    readings_playback orderlyFeed_quotes.not_isTrade
  have hsoftware : ((events quotes).foldl Core.step ({} : Core 8)).book.topOfBookSnapshot =
      some ⟨⟨100, 10, 1⟩, ⟨200, 10, 1⟩⟩ := by decide +kernel
  rw [FeedHandler.book_processAll_encode rfl, hsoftware] at htob
  obtain rfl := Option.some.inj htob
  have houtputs := hstreamed.outputs powerUp orderlyFeed_quotes.not_isTrade
    (by rw [hread]; decide +kernel)
  rw [hread] at houtputs
  have hbid : (engine powerUp (playback (stream quotes)) 68).bestPrice .bid = bswap64 100 := by
    have harrivals : arrivals .bid (gaplessReadings [] quotes) = [bswap64 100] := by
      decide +kernel
    refine (houtputs.2 .bid _ (by rw [harrivals]; decide)).mpr ?_
    rw [harrivals]
    exact LevelArray.shown_head _ (Nat.zero_le 1)
  rw [engine_kr260Top] at hagree
  -- the snapshot has both prices, so the engine would have to show 100
  have hprice := (hagree.prices (by decide) (by decide)).1
  change ((engine powerUp (playback (stream quotes)) 68).bestPrice .bid).toInt = 100 at hprice
  rw [hbid] at hprice
  exact absurd hprice (by decide)

end HftKr260
