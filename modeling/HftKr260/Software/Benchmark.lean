import HftKr260.Software.AddedBook
import HftKr260.Software.CrossedBook
import HftKr260.Software.RestingOrders
import Mathlib.Data.List.GetD

/-!
# kria_benchmark.cpp: the feed of the software benchmark

`bench_software_feed` builds a batch of Adds, processes ten thousand of them as a warm-up, resets
the book and measures the processing of `n_messages` of them. The references wrap every 200
messages, so that the order map stays small; the book is reset before the measurement, the order
map is not.

What the measured messages run on: two hundred tracked orders, a book of twenty prices whose levels
are the sums of all measured messages at their prices, and, from the twentieth message on, a book
that is crossed by 19 ticks.

## Main results

* `bench_book` — book and order map at the end of the benchmark
-/

set_option autoImplicit false

namespace HftKr260

open Foundation

namespace Benchmark

/-! ### The program -/

/-- Message `i` of `MsgBatch`. -/
def message (i : ℕ) : List Byte :=
  buildAdd (34200000000000 + BitVec.ofNat 64 (i * 1000)) (BitVec.ofNat 64 (i % 200) + 1)
    (if i % 3 ≠ 0 then charB else charS) (BitVec.ofNat 32 (100 + i % 50))
    (BitVec.ofNat 64 (9990 + i % 20))

def msgBatch (n : ℕ) : List (List Byte) := (List.range n).map message

/-- The messages of the warm-up. -/
def warmup (batch : List (List Byte)) : List (List Byte) :=
  (List.range 10000).map fun i => batch.getD i []

/-- The messages that are measured. -/
def measured (batch : List (List Byte)) (nMessages : ℕ) : List (List Byte) :=
  (List.range nMessages).map fun i => batch.getD (i % batch.length) []

/-- The handler at the end of `bench_software_feed`; the book of the source has 256 levels, that
is `k = 8`. -/
def benchSoftwareFeed {k : Fin 64} (nMessages : ℕ) : FeedHandler k :=
  let batch := msgBatch (nMessages + 10000)
  let warm := ({} : FeedHandler k).processAll (warmup batch)
  -- the warm-up leaves its orders in the order map
  ({ warm with book := warm.book.reset } : FeedHandler k).processAll (measured batch nMessages)

/-! ### The messages -/

theorem length_msgBatch (n : ℕ) : (msgBatch n).length = n := by
  rw [msgBatch, List.length_map, List.length_range]

theorem getD_msgBatch {n i : ℕ} (hi : i < n) : (msgBatch n).getD i [] = message i := by
  have hlt : i < (msgBatch n).length := by rwa [length_msgBatch]
  rw [List.getD_eq_getElem _ _ hlt]
  simp [msgBatch]

theorem warmup_msgBatch (n : ℕ) : warmup (msgBatch (n + 10000)) = msgBatch 10000 := by
  rw [warmup, msgBatch.eq_def 10000]
  refine List.map_congr_left fun i hi => getD_msgBatch ?_
  have := List.mem_range.mp hi
  omega

theorem measured_msgBatch (n : ℕ) : measured (msgBatch (n + 10000)) n = msgBatch n := by
  rw [measured, msgBatch.eq_def n]
  refine List.map_congr_left fun i hi => ?_
  have hlt := List.mem_range.mp hi
  -- the batch is longer than what is measured
  rw [length_msgBatch, Nat.mod_eq_of_lt (by omega)]
  exact getD_msgBatch (by omega)

/-- The side of message `i`. -/
def sideAt (i : ℕ) : Side := if i % 3 ≠ 0 then .bid else .ask

/-- The reference of message `i`. -/
def refAt (i : ℕ) : BitVec 64 := BitVec.ofNat 64 (i % 200) + 1

/-- What message `i` adds. -/
def added (i : ℕ) : AddedQty := ⟨sideAt i, 9990 + (i % 20 : ℕ), 100 + (i % 50 : ℕ)⟩

/-- What message `i` asks for. -/
def event (i : ℕ) : OrderEvent :=
  .add (refAt i) (sideAt i) (9990 + (i % 20 : ℕ)) (BitVec.ofNat 32 (100 + i % 50))

theorem bufEvent_message (i : ℕ) : FeedHandler.bufEvent (message i) = some (event i) := by
  have hside : sideOf (if i % 3 ≠ 0 then charB else charS) = sideAt i := by
    rw [sideAt]
    split_ifs <;> rfl
  have hprice : (BitVec.ofNat 64 (9990 + i % 20)).toInt = 9990 + (i % 20 : ℕ) := by
    -- a small number is packed as it is, and is not negative
    have hnat : (BitVec.ofNat 64 (9990 + i % 20)).toNat = 9990 + i % 20 := by
      rw [BitVec.toNat_ofNat]
      omega
    rw [BitVec.toInt_eq_toNat_of_lt (by omega), hnat]
    push_cast
    rfl
  rw [message, buildAdd_eq_encode, FeedHandler.bufEvent, decodeEvent_encode, Msg.event, event,
    hside, hprice, refAt]

theorem core_msgBatch (h : FeedHandler 8) (n : ℕ) :
    (h.processAll (msgBatch n)).core = ((List.range n).map event).foldl Core.step h.core := by
  rw [FeedHandler.core_processAll, msgBatch, List.filterMap_map]
  have hevents : (List.range n).filterMap (FeedHandler.bufEvent ∘ message) =
      (List.range n).map event := by
    rw [← List.filterMap_eq_map]
    exact List.filterMap_congr fun i _ => bufEvent_message i
  rw [hevents]

/-! ### The book -/

section Book

variable {c : Core 8} {is : List ℕ}

theorem step_event_book (c : Core 8) (i : ℕ) :
    (c.step (event i)).book = c.book.apply (added i).call := by
  have hqty : ((BitVec.ofNat 32 (100 + i % 50)).toNat : ℤ) = 100 + (i % 50 : ℕ) := by
    rw [BitVec.toNat_ofNat]
    omega
  rw [event, Core.step, hqty]
  rfl

theorem book_events (c : Core 8) (is : List ℕ) :
    ((is.map event).foldl Core.step c).book =
      ((is.map added).map AddedQty.call).foldl OrderBook.apply c.book := by
  induction is generalizing c with
  | nil => rfl
  | cons i is ih =>
    simp only [List.map_cons, List.foldl_cons]
    rw [ih, step_event_book]

theorem added_ok (i : ℕ) : (added i).Ok := by
  simp only [added, AddedQty.Ok]
  omega

theorem added_mem_window (i : ℕ) : (added i).price ∈ window 9990 8 := by
  have hcap : (2 : ℤ) ^ (8 : Fin 64).val = 256 := rfl
  simp only [added, window, Set.mem_ofPred_eq, hcap]
  omega

/-- A book that is empty holds the sums of the messages. -/
theorem refines_msgBatch {h : FeedHandler 8} (hempty : Refines 9990 h.book PriceBook.empty) {n : ℕ}
    (hn : n < 2 ^ 31) :
    Refines 9990 (h.processAll (msgBatch n)).book (addedBook ((List.range n).map added)) := by
  have hbook : (h.processAll (msgBatch n)).book =
      (((List.range n).map added).map AddedQty.call).foldl OrderBook.apply h.book :=
    (congrArg Core.book (core_msgBatch h n)).trans (book_events h.core (List.range n))
  rw [hbook]
  refine refines_adds (by decide) hempty ?_ ?_ ?_
  · intro a ha
    obtain ⟨i, -, rfl⟩ := List.mem_map.mp ha
    exact added_mem_window i
  · intro a ha
    obtain ⟨i, -, rfl⟩ := List.mem_map.mp ha
    exact added_ok i
  · rwa [List.length_map, List.length_range]

/-- The book that is measured, behind the warm-up and the reset. -/
theorem refines_bench {n : ℕ} (hn : n < 2 ^ 31) :
    Refines 9990 (benchSoftwareFeed n : FeedHandler 8).book
      (addedBook ((List.range n).map added)) := by
  have hwarm := refines_msgBatch (h := {}) Refines.fresh (n := 10000) (by norm_num)
  -- the warm-up stays in the window, so the reset finds a book in step with its prices
  have hreset := hwarm.apply (by decide) (c := .reset) trivial trivial
  rw [benchSoftwareFeed, warmup_msgBatch, measured_msgBatch]
  exact refines_msgBatch hreset hn

end Book

/-! ### The order map -/

section Orders

variable {ref : BitVec 64}

theorem isSome_lookup_insert {r : OrderMap} {new : BitVec 64} {o : RestingOrder} :
    ((r.insert new o).lookup ref).isSome ↔ ref = new ∨ (r.lookup ref).isSome := by
  by_cases hnew : ref = new
  · subst hnew
    simp
  · rw [AList.lookup_insert_ne hnew, or_iff_right hnew]

/-- An Add only makes its own reference known. -/
theorem isSome_lookup_step_event (c : Core 8) (i : ℕ) :
    ((c.step (event i)).orders.lookup ref).isSome ↔
      ref = refAt i ∨ (c.orders.lookup ref).isSome := by
  rw [event, Core.step]
  exact isSome_lookup_insert

theorem isSome_lookup_events (c : Core 8) (is : List ℕ) :
    (((is.map event).foldl Core.step c).orders.lookup ref).isSome ↔
      (∃ i ∈ is, ref = refAt i) ∨ (c.orders.lookup ref).isSome := by
  induction is generalizing c with
  | nil => simp
  | cons i is ih =>
    rw [List.map_cons, List.foldl_cons, ih, isSome_lookup_step_event, List.exists_mem_cons_iff,
      or_assoc, or_left_comm]

theorem isSome_lookup_msgBatch (h : FeedHandler 8) (n : ℕ) :
    ((h.processAll (msgBatch n)).orders.lookup ref).isSome ↔
      (∃ i < n, ref = refAt i) ∨ (h.orders.lookup ref).isSome := by
  have horders := congrArg Core.orders (core_msgBatch h n)
  change (h.processAll (msgBatch n)).orders = _ at horders
  rw [horders, isSome_lookup_events]
  simp [FeedHandler.core]

theorem toNat_refAt (i : ℕ) : (refAt i).toNat = i % 200 + 1 := by
  rw [refAt, BitVec.toNat_add, BitVec.toNat_ofNat]
  have hone : (1 : BitVec 64).toNat = 1 := rfl
  omega

/-- The references of a long batch. -/
theorem exists_refAt_iff {n : ℕ} (hn : 200 ≤ n) :
    (∃ i < n, ref = refAt i) ↔ 1 ≤ ref.toNat ∧ ref.toNat ≤ 200 := by
  constructor
  · rintro ⟨i, -, rfl⟩
    rw [toNat_refAt]
    omega
  · rintro ⟨hlo, hhi⟩
    refine ⟨ref.toNat - 1, by omega, BitVec.eq_of_toNat_eq ?_⟩
    rw [toNat_refAt]
    omega

/-- A warm-up that is long enough leaves every reference the batch has, and the reset does not
change that. -/
theorem isSome_lookup_measured {m : ℕ} (hm : 200 ≤ m) (n : ℕ) :
    let warm := ({} : FeedHandler 8).processAll (msgBatch m)
    ((({ warm with book := warm.book.reset } : FeedHandler 8).processAll
      (msgBatch n)).orders.lookup ref).isSome ↔ 1 ≤ ref.toNat ∧ ref.toNat ≤ 200 := by
  intro warm
  have hwarm : (warm.orders.lookup ref).isSome ↔
      (∃ i < m, ref = refAt i) ∨ ((∅ : OrderMap).lookup ref).isSome :=
    isSome_lookup_msgBatch {} m
  rw [isSome_lookup_msgBatch, hwarm, exists_refAt_iff hm]
  constructor
  · -- what is measured names no other references
    rintro (⟨i, -, rfl⟩ | hearlier | hfresh)
    · rw [toNat_refAt]
      omega
    · exact hearlier
    · exact absurd hfresh (by simp)
  · exact fun href => .inr (.inl href)

theorem isSome_lookup_bench (n : ℕ) (ref : BitVec 64) :
    ((benchSoftwareFeed n : FeedHandler 8).orders.lookup ref).isSome ↔
      1 ≤ ref.toNat ∧ ref.toNat ≤ 200 := by
  rw [benchSoftwareFeed, warmup_msgBatch, measured_msgBatch]
  exact isSome_lookup_measured (by norm_num) n

end Orders

/-! ### The top of the book -/

section Top

variable {n : ℕ} {side : Side} {p : ℤ}

/-- A side shows its best added price. -/
theorem price_top {b : OrderBook 8} (h : Refines 9990 b (addedBook ((List.range n).map added)))
    {i : ℕ} (hi : i < n) (hbest : ∀ j, sideAt j = sideAt i → (sideAt i).AtLeast (added i).price
      (added j).price) :
    (b.tob.level (sideAt i)).price = (added i).price := by
  have hadded : addedBook ((List.range n).map added) (sideAt i) (added i).price ≠ none := by
    refine addedBook_ne_none_iff.mpr ⟨added i, List.mem_map.mpr ⟨i, ?_, rfl⟩, rfl, rfl⟩
    exact List.mem_range.mpr hi
  have htop := h.wellFormed.isBest (sideAt i)
  rw [h.entryAt] at htop
  rcases htop with ⟨-, hnone⟩ | ⟨hshown, hle⟩
  · exact absurd (hnone _) hadded
  · -- what is shown was added, and is as good as the best added price
    have hshown' : addedBook ((List.range n).map added) (sideAt i)
        (b.tob.level (sideAt i)).price ≠ none := by
      rw [hshown]
      exact Option.some_ne_none _
    obtain ⟨a, ha, haside, haprice⟩ := addedBook_ne_none_iff.mp hshown'
    obtain ⟨j, -, rfl⟩ := List.mem_map.mp ha
    have hge := hle _ hadded
    have hlt := hbest j haside
    rw [← haprice] at hge ⊢
    revert hge hlt
    cases sideAt i <;> simp only [Side.AtLeast, Side.key] <;> omega

end Top

/-- What the benchmark leaves, of `n` measured messages. -/
structure Measured (n : ℕ) (h : FeedHandler 8) : Prop where
  /-- each level is the sum of the messages at its price -/
  levels : ∀ side p,
    (h.book.levelAt side p).quantity = (addedAt ((List.range n).map added) side p).sum ∧
      (h.book.levelAt side p).orders = (addedAt ((List.range n).map added) side p).length
  /-- the order map does not grow with `n` -/
  tracked : ∀ ref, (h.orders.lookup ref).isSome ↔ 1 ≤ ref.toNat ∧ ref.toNat ≤ 200
  /-- the twentieth message crosses the book -/
  crossed : 20 ≤ n → ∃ tob, h.book.topOfBookSnapshot = some tob ∧
    tob.bid.price = 10009 ∧ tob.ask.price = 9990 ∧ tob.crossed = true ∧
      ∀ round, SignedRounding round → tob.spreadTicks round = -19

/-- **What the software benchmark measures**, for any number of messages whose times do not
overflow `int`: the processing of Adds on a book of twenty prices whose levels only grow and that is
crossed, with two hundred orders in the order map. -/
theorem bench_book (n : ℕ) (hn : (n + 9999) * 1000 < 2 ^ 31) :
    Measured n (benchSoftwareFeed n) where
  levels := by
    intro side p
    have h := refines_bench (n := n) (by omega)
    have hlevel := h.wellFormed.levelAt_eq side p
    rw [h.entryAt, getD_addedBook] at hlevel
    exact Prod.mk.inj hlevel
  tracked := isSome_lookup_bench n
  crossed := by
    intro hlong
    have h := refines_bench (n := n) (by omega)
    -- message 19 bids the highest price, message 0 asks the lowest
    have hprice (j : ℕ) : 9990 ≤ (added j).price ∧ (added j).price ≤ 10009 := by
      simp only [added]
      omega
    have hbid : (benchSoftwareFeed n : FeedHandler 8).book.tob.bid.price = 10009 :=
      price_top h (i := 19) (by omega) fun j _ => (hprice j).2
    have hask : (benchSoftwareFeed n : FeedHandler 8).book.tob.ask.price = 9990 :=
      price_top h (i := 0) (by omega) fun j _ => neg_le_neg (hprice j).1
    refine ⟨_, h.wellFormed.snapshot, hbid, hask, ?_, fun round hround => ?_⟩
    · rw [TopOfBook.crossed_iff, hbid, hask]
      decide
    · rw [TopOfBook.spreadTicks_eq hround (by rw [hbid]; decide) (by rw [hask]; decide)
        (by rw [hbid, hask]; decide), hbid, hask]
      norm_num

/-- The number of messages the program measures without an argument. -/
theorem bench_book_default : Measured 500000 (benchSoftwareFeed 500000) :=
  bench_book 500000 (by norm_num)

end Benchmark

end HftKr260
