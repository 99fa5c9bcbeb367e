import HftKr260.Foundation.OrderStatistics
import HftKr260.Foundation.Rounding
import Mathlib.Data.List.GetD
import Mathlib.Data.List.Induction
import Mathlib.Data.PNat.Defs
import Mathlib.Tactic.NormNum

/-!
# The latency histogram

`LatencyHistogram` keeps the first `Capacity` samples that are recorded and drops the others.
`compute` sorts the samples in place and reads percentiles off their positions, so that what is
recorded behind it is appended to a sorted list. None of this shows in a percentile: it is the order
statistic of the samples that were kept, whenever and in whatever order they were recorded.

Samples are ticks of a counter, and results nanoseconds. `round` is the rounding of a result to a
double, of which `Rounding` says what is used here, and `freq` the frequency the counter names.

## Main results

* `histogram_run` — what `compute` returns behind any calls
-/

set_option autoImplicit false

namespace HftKr260

open Foundation OrderStatistics

/-- The samples, at most `capacity` of them. -/
structure LatencyHistogram (capacity : ℕ) where
  samples : List ℕ
  fits : samples.length ≤ capacity

/-- What `compute` returns. -/
structure LatencyStats where
  minNs : ℚ
  p50Ns : ℚ
  p90Ns : ℚ
  p99Ns : ℚ
  p999Ns : ℚ
  maxNs : ℚ
  meanNs : ℚ
  sampleCount : ℕ
  counterFreqMhz : ℚ
  deriving DecidableEq, Repr

/-! ### The literals, as doubles -/

def double050 : ℚ := 1 / 2
def double090 : ℚ := 8106479329266893 / 2 ^ 53
def double099 : ℚ := 8917127262193582 / 2 ^ 53
def double0999 : ℚ := 8998192055486251 / 2 ^ 53

/-! ### Ticks and nanoseconds -/

section Ticks

variable (round : ℚ → ℚ) (freq : ℕ+)

def nsPerTick : ℚ := round (10 ^ 9 / round freq)

def ticksToNs (ticks : ℕ) : ℚ := round (round ticks * nsPerTick round freq)

variable {round freq}

theorem ticksToNs_mono (hround : Rounding round) : Monotone (ticksToNs round freq) := by
  intro t t' hle
  have hfreq : 0 ≤ round freq := hround.nonneg (Nat.cast_nonneg _)
  have hns : 0 ≤ nsPerTick round freq := hround.nonneg (div_nonneg (by norm_num) hfreq)
  exact hround.monotone (mul_le_mul_of_nonneg_right (hround.monotone (Nat.cast_le.mpr hle)) hns)

end Ticks

namespace LatencyHistogram

variable {capacity : ℕ}

def fresh : LatencyHistogram capacity := ⟨[], Nat.zero_le _⟩

def record (h : LatencyHistogram capacity) (ticks : ℕ) : LatencyHistogram capacity :=
  if hroom : h.samples.length < capacity then
    ⟨h.samples ++ [ticks], by rw [List.length_append]; exact hroom⟩
  else h

/-- `static_cast<std::size_t>(p * (count_ - 1))`. -/
def index (round : ℚ → ℚ) (p : ℚ) (count : ℕ) : ℕ :=
  (round (p * round ((count - 1 : ℕ) : ℚ))).floor.toNat

/-- `std::sort` of the samples in use. -/
def sort (h : LatencyHistogram capacity) : LatencyHistogram capacity where
  samples := h.samples.insertionSort (· ≤ ·)
  fits := by rw [List.length_insertionSort]; exact h.fits

/-- `samples_[idx]`; behind the samples in use the array is zero. -/
def sample (h : LatencyHistogram capacity) (idx : ℕ) : ℕ := h.samples.getD idx 0

/-- `sum`, over the samples in the order in which they stand. -/
def sumNs (round : ℚ → ℚ) (freq : ℕ+) (samples : List ℕ) : ℚ :=
  samples.foldl (fun sum ticks => round (sum + ticksToNs round freq ticks)) 0

/-- The histogram behind the call, and the result; without samples the assertion fails. -/
def compute (round : ℚ → ℚ) (freq : ℕ+) (h : LatencyHistogram capacity) :
    LatencyHistogram capacity × Option LatencyStats :=
  let count := h.samples.length
  if count = 0 then (h, none)
  else
    let sorted := h.sort
    let pct (p : ℚ) := ticksToNs round freq (sorted.sample (index round p count))
    (sorted,
      some
        { minNs := ticksToNs round freq (sorted.sample 0)
          p50Ns := pct double050
          p90Ns := pct double090
          p99Ns := pct double099
          p999Ns := pct double0999
          maxNs := ticksToNs round freq (sorted.sample (count - 1))
          meanNs := round (sumNs round freq sorted.samples / round count)
          sampleCount := count
          counterFreqMhz := round (10 ^ 3 / nsPerTick round freq) })

end LatencyHistogram

/-- The calls on a histogram. -/
inductive HistogramCall
  | record (ticks : ℕ)
  | compute
  deriving DecidableEq, Repr

namespace LatencyHistogram

variable {capacity : ℕ} {round : ℚ → ℚ} {freq : ℕ+}

def apply (round : ℚ → ℚ) (freq : ℕ+) (h : LatencyHistogram capacity) :
    HistogramCall → LatencyHistogram capacity
  | .record ticks => h.record ticks
  | .compute => (h.compute round freq).1

/-- A histogram behind some calls. -/
def after (round : ℚ → ℚ) (freq : ℕ+) (capacity : ℕ) (calls : List HistogramCall) :
    LatencyHistogram capacity := calls.foldl (apply round freq) fresh

/-- The samples some calls record. -/
def recorded (calls : List HistogramCall) : List ℕ :=
  calls.filterMap fun c => match c with
    | .record ticks => some ticks
    | .compute => none

/-- Sorting changes the order only. -/
theorem perm_compute (h : LatencyHistogram capacity) :
    (h.compute round freq).1.samples.Perm h.samples := by
  simp only [compute]
  split_ifs
  · exact .rfl
  · exact List.perm_insertionSort _ _

/-- One more sample of those that were recorded is kept if there is room. -/
theorem take_concat (xs : List ℕ) (x n : ℕ) :
    (xs ++ [x]).take n = if (xs.take n).length < n then xs.take n ++ [x] else xs.take n := by
  rw [List.take_append, List.length_take]
  split_ifs with h
  · rw [List.take_of_length_le (l := [x]) (by simp; omega)]
  · have hfull : n - xs.length = 0 := by omega
    rw [hfull, List.take_zero, List.append_nil]

/-- **What is kept**: the first `capacity` samples, in some order. -/
theorem perm_after (calls : List HistogramCall) :
    (after round freq capacity calls).samples.Perm ((recorded calls).take capacity) := by
  induction calls using List.reverseRecOn with
  | nil => simp [after, fresh, recorded]
  | append_singleton calls c ih =>
    have hafter : after round freq capacity (calls ++ [c]) =
        (after round freq capacity calls).apply round freq c :=
      List.foldl_concat ..
    rw [hafter, recorded, List.filterMap_append]
    cases c with
    | record ticks =>
      change ((after round freq capacity calls).record ticks).samples.Perm
        ((recorded calls ++ [ticks]).take capacity)
      -- there is room for the sample exactly if there is room for it in the list
      rw [take_concat, ← ih.length_eq, record]
      split_ifs
      · exact ih.append_right _
      · exact ih
    | compute =>
      refine (perm_compute _).trans ?_
      rw [show [HistogramCall.compute].filterMap _ = ([] : List ℕ) from rfl, List.append_nil]
      exact ih

/-! ### Percentiles -/

section Percentiles

variable (hround : Rounding round) {p q : ℚ} {count : ℕ}
include hround

theorem index_eq (hcount : count ≤ 2 ^ 53) :
    index round p count = (round (p * ((count - 1 : ℕ) : ℚ))).floor.toNat := by
  rw [index, hround.exact _ ((Nat.sub_le _ _).trans hcount)]

/-- A higher percentile is at a later position. -/
theorem index_mono (hcount : count ≤ 2 ^ 53) (hpq : p ≤ q) :
    index round p count ≤ index round q count := by
  rw [index_eq hround hcount, index_eq hround hcount]
  -- product, rounding and truncation are all monotone
  refine Int.toNat_le_toNat (Rat.floor_monotone (hround.monotone ?_))
  exact mul_le_mul_of_nonneg_right hpq (Nat.cast_nonneg _)

/-- No percentile is behind the last sample. -/
theorem index_le (hcount : count ≤ 2 ^ 53) (hp : p ≤ 1) : index round p count ≤ count - 1 := by
  refine (index_mono hround hcount hp).trans ?_
  rw [index_eq hround hcount, one_mul, hround.exact _ ((Nat.sub_le _ _).trans hcount),
    ← Int.cast_natCast, Rat.floor_intCast, Int.toNat_natCast]

end Percentiles

theorem isOrderStat_sample (h : LatencyHistogram capacity) {i : ℕ} (hi : i < h.samples.length) :
    IsOrderStat h.samples i (h.sort.sample i) := by
  have hlt : i < (h.samples.insertionSort (· ≤ ·)).length := by
    rwa [List.length_insertionSort]
  rw [sample, sort, List.getD_eq_getElem _ _ hlt]
  exact isOrderStat_sort hlt

/-- The value of rank `i`, in nanoseconds. -/
def IsRank (round : ℚ → ℚ) (freq : ℕ+) (xs : List ℕ) (i : ℕ) (ns : ℚ) : Prop :=
  ∃ ticks, IsOrderStat xs i ticks ∧ ns = ticksToNs round freq ticks

section Rank

variable {xs ys : List ℕ} {i j : ℕ} {ns ns' : ℚ}

theorem IsRank.le (hround : Rounding round) (h : IsRank round freq xs i ns)
    (h' : IsRank round freq xs j ns') (hij : i ≤ j) : ns ≤ ns' := by
  obtain ⟨t, ht, rfl⟩ := h
  obtain ⟨t', ht', rfl⟩ := h'
  exact ticksToNs_mono hround (ht.le ht' hij)

theorem IsRank.unique (h : IsRank round freq xs i ns) (h' : IsRank round freq xs i ns') :
    ns = ns' := by
  obtain ⟨t, ht, rfl⟩ := h
  obtain ⟨t', ht', rfl⟩ := h'
  rw [ht.unique ht']

theorem IsRank.perm (h : IsRank round freq xs i ns) (hperm : xs.Perm ys) :
    IsRank round freq ys i ns := by
  obtain ⟨t, ht, rfl⟩ := h
  exact ⟨t, ht.perm hperm, rfl⟩

end Rank

/-- The statistics of some samples. -/
structure StatsOf (round : ℚ → ℚ) (freq : ℕ+) (xs : List ℕ) (s : LatencyStats) : Prop where
  minNs : IsRank round freq xs 0 s.minNs
  p50Ns : IsRank round freq xs (index round double050 xs.length) s.p50Ns
  p90Ns : IsRank round freq xs (index round double090 xs.length) s.p90Ns
  p99Ns : IsRank round freq xs (index round double099 xs.length) s.p99Ns
  p999Ns : IsRank round freq xs (index round double0999 xs.length) s.p999Ns
  maxNs : IsRank round freq xs (xs.length - 1) s.maxNs
  ordered : s.minNs ≤ s.p50Ns ∧ s.p50Ns ≤ s.p90Ns ∧ s.p90Ns ≤ s.p99Ns ∧ s.p99Ns ≤ s.p999Ns ∧
    s.p999Ns ≤ s.maxNs
  /-- the samples are summed from the smallest up -/
  meanNs : s.meanNs = round (sumNs round freq (xs.insertionSort (· ≤ ·)) / round xs.length)
  sampleCount : s.sampleCount = xs.length
  counterFreqMhz : s.counterFreqMhz = round (10 ^ 3 / nsPerTick round freq)

/-- The statistics of some samples are one result. -/
theorem StatsOf.unique {xs : List ℕ} {s s' : LatencyStats} (h : StatsOf round freq xs s)
    (h' : StatsOf round freq xs s') : s = s' := by
  refine LatencyStats.mk.injEq .. |>.mpr ⟨h.minNs.unique h'.minNs, h.p50Ns.unique h'.p50Ns,
    h.p90Ns.unique h'.p90Ns, h.p99Ns.unique h'.p99Ns, h.p999Ns.unique h'.p999Ns,
    h.maxNs.unique h'.maxNs, ?_, ?_, ?_⟩
  · exact h.meanNs.trans h'.meanNs.symm
  · exact h.sampleCount.trans h'.sampleCount.symm
  · exact h.counterFreqMhz.trans h'.counterFreqMhz.symm

theorem statsOf_compute (hround : Rounding round) (hcap : capacity ≤ 2 ^ 53)
    (h : LatencyHistogram capacity) (hne : h.samples ≠ []) :
    ∃ s, (h.compute round freq).2 = some s ∧ StatsOf round freq h.samples s := by
  have hpos : 0 < h.samples.length := List.length_pos_iff.mpr hne
  have hcount : h.samples.length ≤ 2 ^ 53 := h.fits.trans hcap
  have hrank {i : ℕ} (hi : i < h.samples.length) :
      IsRank round freq h.samples i (ticksToNs round freq (h.sort.sample i)) :=
    ⟨_, h.isOrderStat_sample hi, rfl⟩
  have hpct {p : ℚ} (hp : p ≤ 1) := hrank (i := index round p h.samples.length)
    (by have := index_le hround hcount hp; omega)
  have h050 := hpct (p := double050) (by norm_num [double050])
  have h090 := hpct (p := double090) (by norm_num [double090])
  have h099 := hpct (p := double099) (by norm_num [double099])
  have h0999 := hpct (p := double0999) (by norm_num [double0999])
  have hmin := hrank hpos
  have hmax := hrank (Nat.sub_lt hpos Nat.one_pos)
  have hcompute : (h.compute round freq).2 = some _ := congrArg Prod.snd (if_neg hpos.ne')
  refine ⟨_, hcompute, hmin, h050, h090, h099, h0999, hmax, ⟨?_, ?_, ?_, ?_, ?_⟩, rfl, rfl, rfl⟩
  · exact hmin.le hround h050 (Nat.zero_le _)
  · exact h050.le hround h090 (index_mono hround hcount (by norm_num [double050, double090]))
  · exact h090.le hround h099 (index_mono hround hcount (by norm_num [double090, double099]))
  · exact h099.le hround h0999 (index_mono hround hcount (by norm_num [double099, double0999]))
  · exact h0999.le hround hmax (index_le hround hcount (by norm_num [double0999]))

/-- What a histogram says that has kept some samples. -/
structure HistogramSays (round : ℚ → ℚ) (freq : ℕ+) (h : LatencyHistogram capacity)
    (kept : List ℕ) : Prop where
  samples : h.samples.Perm kept
  empty : kept = [] → (h.compute round freq).2 = none
  /-- the statistics of the samples -/
  stats : kept ≠ [] → ∃ s, (h.compute round freq).2 = some s ∧ StatsOf round freq kept s

theorem StatsOf.perm {xs ys : List ℕ} {s : LatencyStats} (h : StatsOf round freq xs s)
    (hperm : xs.Perm ys) : StatsOf round freq ys s where
  minNs := h.minNs.perm hperm
  p50Ns := hperm.length_eq ▸ h.p50Ns.perm hperm
  p90Ns := hperm.length_eq ▸ h.p90Ns.perm hperm
  p99Ns := hperm.length_eq ▸ h.p99Ns.perm hperm
  p999Ns := hperm.length_eq ▸ h.p999Ns.perm hperm
  maxNs := hperm.length_eq ▸ h.maxNs.perm hperm
  ordered := h.ordered
  meanNs := by
    -- the same samples stand in the same order once they are sorted
    have hsorted : xs.insertionSort (· ≤ ·) = ys.insertionSort (· ≤ ·) := by
      refine List.Perm.eq_of_sortedLE List.sortedLE_insertionSort List.sortedLE_insertionSort ?_
      exact (List.perm_insertionSort _ xs).trans
        (hperm.trans (List.perm_insertionSort _ ys).symm)
    rw [h.meanNs, hsorted, hperm.length_eq]
  sampleCount := h.sampleCount.trans hperm.length_eq
  counterFreqMhz := h.counterFreqMhz

theorem histogramSays_after (hround : Rounding round) (hcap : capacity ≤ 2 ^ 53)
    (calls : List HistogramCall) :
    HistogramSays round freq (after round freq capacity calls)
      ((recorded calls).take capacity) where
  samples := perm_after calls
  empty := by
    intro hempty
    have hnone : (after round freq capacity calls).samples.length = 0 := by
      rw [(perm_after calls).length_eq, hempty]
      rfl
    exact congrArg Prod.snd (if_pos hnone)
  stats := by
    intro hkept
    have hne : (after round freq capacity calls).samples ≠ [] := fun hnil =>
      hkept (hnil ▸ perm_after calls).symm.eq_nil
    obtain ⟨s, hs, hstats⟩ := statsOf_compute hround hcap _ hne
    exact ⟨s, hs, hstats.perm (perm_after calls)⟩

/-- **Histograms.** Behind any calls, a histogram holds the first `capacity` samples recorded, and
`compute` returns their order statistics, in order, and their mean; calls that have recorded the
same samples, in any order and with any calls of `compute` between, get the same result. -/
theorem histogram_run (hround : Rounding round) (freq : ℕ+) (capacity : ℕ)
    (hcap : capacity ≤ 2 ^ 53) (calls : List HistogramCall) :
    HistogramSays round freq (after round freq capacity calls) ((recorded calls).take capacity) ∧
      ∀ calls', ((recorded calls').take capacity).Perm ((recorded calls).take capacity) →
        ((after round freq capacity calls').compute round freq).2 =
          ((after round freq capacity calls).compute round freq).2 := by
  have hrun : HistogramSays round freq _ _ := histogramSays_after hround hcap calls
  refine ⟨hrun, fun calls' hsame => ?_⟩
  have hrun' : HistogramSays round freq _ _ := histogramSays_after hround hcap calls'
  by_cases hempty : (recorded calls).take capacity = []
  · rw [hrun.empty hempty, hrun'.empty (hempty ▸ hsame).eq_nil]
  · have hkept : (recorded calls').take capacity ≠ [] := fun hnil =>
      hempty (hnil ▸ hsame).symm.eq_nil
    obtain ⟨s, hs, hstats⟩ := hrun.stats hempty
    obtain ⟨s', hs', hstats'⟩ := hrun'.stats hkept
    -- both are the statistics of the same samples
    rw [hs, hs', (hstats'.perm hsame).unique hstats]

/-- Two samples, a look, and a third one, on a counter of 100 MHz; with results that are exact. -/
theorem histogram_run_three :
    HistogramSays id 100000000 (after id 100000000 8 [.record 5, .record 3, .compute, .record 9])
        [5, 3, 9] ∧
      ∀ calls', ((recorded calls').take 8).Perm [5, 3, 9] →
        ((after id 100000000 8 calls').compute id 100000000).2 =
          ((after id 100000000 8 [.record 5, .record 3, .compute, .record 9]).compute id
            100000000).2 :=
  histogram_run signedRounding_id.toRounding 100000000 8 (by decide)
    [.record 5, .record 3, .compute, .record 9]

end LatencyHistogram

end HftKr260
