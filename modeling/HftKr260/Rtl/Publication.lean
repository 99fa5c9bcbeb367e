import HftKr260.Rtl.ClockCrossing
import HftKr260.Rtl.EngineFeed

/-!
# Publication of the top of book

Both clocks of `kr260_top` driven by one: what of the top of book reaches the registers behind
`BID_PRICE`, `ASK_PRICE` and `SPREAD`.

The engine looks for a change only when a message arrives, and compares the best prices of the
levels before that message with those before the message preceding it. So a message announces
what the message before it has changed, together with what it changes itself. What the last
message of a stream changes is published if it announces something.

## Main results

* `tobChanged_iff` — the messages that announce a change
* `published_iff` — when the published values are the engine's
-/

set_option autoImplicit false

namespace HftKr260

open Foundation

/-- The values behind `BID_PRICE`, `ASK_PRICE` and `SPREAD`. -/
structure TopPrices where
  bestBid : BitVec 64
  bestAsk : BitVec 64
  spread : BitVec 64
  deriving DecidableEq, Repr

/-- The captured registers. -/
def AxiDomain.published (s : AxiDomain) : TopPrices where
  bestBid := s.bestBidPriceAxi
  bestAsk := s.bestAskPriceAxi
  spread := s.spreadAxi

namespace OrderBookEngine

variable (s : OrderBookEngine)

/-- The output registers. -/
def outputs : TopPrices where
  bestBid := s.bestBidPrice
  bestAsk := s.bestAskPrice
  spread := s.spread

/-- What the scan of the levels finds. -/
def scanned : TopPrices where
  bestBid := s.bids.bestBidCombo
  bestAsk := s.asks.bestAskCombo
  spread :=
    if s.bids.anyValid && s.asks.anyValid then s.asks.bestAskCombo - s.bids.bestBidCombo else 0

/-- The best prices the scan finds, those registered and those of the message before. -/
def bestScanned : BitVec 64 × BitVec 64 := (s.bids.bestBidCombo, s.asks.bestAskCombo)

def bestR : BitVec 64 × BitVec 64 := (s.bestBidR, s.bestAskR)

def prevBest : BitVec 64 × BitVec 64 := (s.prevBestBid, s.prevBestAsk)

variable (i i' : EngineIn)

theorem bestR_next : (s.next i).bestR = s.bestScanned := rfl

theorem outputs_next_next : ((s.next i).next i').outputs = s.scanned := rfl

theorem prevBest_next : (s.next i).prevBest = if i.inValid then s.bestR else s.prevBest := by
  rw [prevBest, next]
  cases i.inValid <;> rfl

theorem tobChanged_next_iff :
    (s.next i).tobChanged = true ↔ i.inValid = true ∧ s.bestR ≠ s.prevBest := by
  have hpair : (s.bestBidR != s.prevBestBid || s.bestAskR != s.prevBestAsk) = true ↔
      s.bestR ≠ s.prevBest := by
    rw [Bool.or_eq_true, bne_iff_ne, bne_iff_ne, ← not_and_or, bestR, prevBest]
    exact not_congr Prod.mk_inj.symm
  rw [← hpair, ← Bool.and_eq_true]
  rfl

/-- The scan depends on the levels only. -/
theorem scanned_congr {s s' : OrderBookEngine} (h : ∀ side, s.levels side = s'.levels side) :
    s.scanned = s'.scanned := by
  have hbids : s.bids = s'.bids := h .bid
  have hasks : s.asks = s'.asks := h .ask
  rw [scanned, scanned, hbids, hasks]

end OrderBookEngine

/-- The captured registers take the outputs while `tob_changed_axi` is up. -/
theorem AxiDomain.published_next (s : AxiDomain) (dp : Kr260Top) :
    (s.next dp).published = if s.tobChangedAxi then dp.engine.outputs else s.published := by
  cases h : s.tobChangedAxi <;> simp [published, next, h, OrderBookEngine.outputs]

/-! ### Messages that find a change -/

section Changes

variable (powerUp : OrderBookEngine) (input : ℕ → EngineIn)

/-- The best prices of the message before are taken when a message arrives. -/
theorem prevBest_capture :
    Clocked.Capture (fun t => (input t).inValid) (fun t => (orderBook powerUp input t).bestR)
      (fun t => (orderBook powerUp input t).prevBest) :=
  fun t => (orderBook powerUp input t).prevBest_next (input t)

/-- The best prices the scan found a cycle before; the reset leaves 0 on both sides. -/
def bestBefore : ℕ → BitVec 64 × BitVec 64
  | 0 => (0, 0)
  | t + 1 => (orderBook powerUp input t).bestScanned

theorem bestR_orderBook (t : ℕ) :
    (orderBook powerUp input t).bestR = bestBefore powerUp input t := by
  cases t with
  | zero => rfl
  | succ t => rw [orderBook_succ, OrderBookEngine.bestR_next, bestBefore]

/-- The levels stay as they are while nothing arrives. -/
theorem levels_of_quiet (side : Side) {s t : ℕ} (hst : s ≤ t)
    (hquiet : ∀ b, s ≤ b → b < t → (input b).inValid = false) :
    (orderBook powerUp input t).levels side = (orderBook powerUp input s).levels side := by
  induction t, hst using Nat.le_induction with
  | base => rfl
  | succ t hst ih =>
    rw [← ih fun b hs hb => hquiet b hs (Nat.lt_succ_of_lt hb)]
    exact OrderBookEngine.levels_next_of_idle _ side (hquiet t hst (Nat.lt_succ_self t))

/-- A message arrives in cycle `m`, and the best prices found before it are not those found
before the message preceding it; or it arrives right behind the reset. -/
structure FindsChange (m : ℕ) : Prop where
  arrives : (input m).inValid = true
  changed : m = 0 ∨ ∃ c < m, (input c).inValid = true ∧
    (∀ b, c < b → b < m → ¬(input b).inValid = true) ∧
    bestBefore powerUp input m ≠ bestBefore powerUp input c

/-- The first message finds the best prices of the empty book, unless it comes right behind the
reset: `best_ask_r` and `prev_best_ask` are not reset to the same value. -/
theorem bestBefore_first_iff {m : ℕ} (hfirst : ∀ b < m, ¬(input b).inValid = true) :
    bestBefore powerUp input m ≠ (orderBook powerUp input m).prevBest ↔ m = 0 := by
  have hquiet : ∀ b < m, (input b).inValid = false := fun b hb =>
    Bool.eq_false_of_not_eq_true (hfirst b hb)
  have hprev : (orderBook powerUp input m).prevBest = (0, BitVec.allOnes 64) :=
    (prevBest_capture powerUp input).none hquiet
  rw [hprev]
  cases m with
  | zero =>
    have hne : ((0, 0) : BitVec 64 × BitVec 64) ≠ (0, BitVec.allOnes 64) := by decide
    exact iff_of_true hne rfl
  | succ m =>
    have hlevels (side : Side) : (orderBook powerUp input m).levels side =
        (orderBook powerUp input 0).levels side :=
      levels_of_quiet powerUp input side (Nat.zero_le _) fun b _ hb =>
        hquiet b (Nat.lt_succ_of_lt hb)
    have hbids : (orderBook powerUp input m).bids = .cleared := hlevels .bid
    have hasks : (orderBook powerUp input m).asks = .cleared := hlevels .ask
    refine iff_of_false (not_not.mpr ?_) (Nat.succ_ne_zero m)
    rw [bestBefore, OrderBookEngine.bestScanned, hbids, hasks]
    rfl

/-- `tob_changed` is up behind the messages that find a change. -/
theorem tobChanged_succ_iff (m : ℕ) :
    (orderBook powerUp input (m + 1)).tobChanged = true ↔ FindsChange powerUp input m := by
  rw [orderBook_succ, OrderBookEngine.tobChanged_next_iff, bestR_orderBook]
  rcases Clocked.last_or_none (fun b => (input b).inValid = true) m with
    ⟨c, hc, harrives, hnone⟩ | hnone
  · -- the message before arrived in cycle `c`
    have hprev : (orderBook powerUp input m).prevBest = bestBefore powerUp input c := by
      rw [← bestR_orderBook]
      exact (prevBest_capture powerUp input).last hc harrives fun b hcb hbm =>
        Bool.eq_false_of_not_eq_true (hnone b hcb hbm)
    rw [hprev]
    constructor
    · exact fun ⟨harrives', hne⟩ => ⟨harrives', .inr ⟨c, hc, harrives, hnone, hne⟩⟩
    · rintro ⟨harrives', rfl | ⟨b, hb, hbarrives, hbnone, hne⟩⟩
      · exact absurd hc (Nat.not_lt_zero c)
      · obtain rfl : b = c := Clocked.last_unique (P := fun b => (input b).inValid = true)
          hbarrives harrives (fun hlt => hbnone c hlt hc) fun hgt => hnone b hgt hb
        exact ⟨harrives', hne⟩
  · rw [bestBefore_first_iff powerUp input hnone]
    constructor
    · exact fun ⟨harrives, hzero⟩ => ⟨harrives, .inl hzero⟩
    · rintro ⟨harrives, hzero | ⟨b, hb, hbarrives, -⟩⟩
      · exact ⟨harrives, hzero⟩
      · exact absurd hbarrives (hnone b hb)

end Changes

/-! ### The announcements -/

section Announce

variable (powerUp : OrderBookEngine) (input : ℕ → AxisIn)

/-- A message ends in cycle `c`, and the best prices before it are not those before the
message preceding it. -/
structure Announces (c : ℕ) : Prop where
  ends : EndsSegment input c
  changed : ∃ c' < c, EndsSegment input c' ∧ (∀ b, c' < b → b < c → ¬EndsSegment input b) ∧
    (engine powerUp input (c + 3)).bestScanned ≠ (engine powerUp input (c' + 3)).bestScanned

theorem inValid_iff (t : ℕ) :
    (parsedOf input t).inValid = true ↔ ∃ c, t = c + 4 ∧ EndsSegment input c := by
  have hvalid := parsedValid_iff default input t
  rw [parser_kr260Top] at hvalid
  exact hvalid

theorem inValid_add_iff (c : ℕ) :
    (parsedOf input (c + 4)).inValid = true ↔ EndsSegment input c := outValid_succ_iff input c

/-- Without a message nothing arrives. -/
theorem not_inValid {s t : ℕ} (hnone : ∀ c, s ≤ c + 4 → c + 4 < t → ¬EndsSegment input c) :
    ∀ b, s ≤ b → b < t → (parsedOf input b).inValid = false := by
  refine fun b hsb hbt => Bool.eq_false_iff.mpr fun hvalid => ?_
  obtain ⟨c, rfl, hends⟩ := (inValid_iff input b).mp hvalid
  exact hnone c hsb hbt hends

/-- A message arrives at the engine four cycles behind its last byte. -/
theorem findsChange_iff (c : ℕ) :
    FindsChange powerUp (parsedOf input) (c + 4) ↔ Announces powerUp input c := by
  constructor
  · rintro ⟨harrives, hzero | ⟨b, hb, hbarrives, hnone, hne⟩⟩
    · exact absurd hzero (Nat.succ_ne_zero _)
    · obtain ⟨c', rfl, hends'⟩ := (inValid_iff input b).mp hbarrives
      refine ⟨(inValid_add_iff input c).mp harrives, c', by omega, hends', fun a ha hac hends => ?_,
        hne⟩
      exact hnone (a + 4) (by omega) (by omega) ((inValid_add_iff input a).mpr hends)
  · rintro ⟨hends, c', hc', hends', hnone, hne⟩
    refine ⟨(inValid_add_iff input c).mpr hends, .inr ⟨c' + 4, by omega,
      (inValid_add_iff input c').mpr hends', fun b hb hbc hbarrives => ?_, hne⟩⟩
    obtain ⟨a, rfl, ha⟩ := (inValid_iff input b).mp hbarrives
    exact hnone a (by omega) (by omega) ha

/-- **The announcements** of the engine. -/
theorem tobChanged_iff (c : ℕ) :
    (engine powerUp input (c + 5)).tobChanged = true ↔ Announces powerUp input c :=
  (tobChanged_succ_iff powerUp (parsedOf input) (c + 4)).trans (findsChange_iff powerUp input c)

theorem tobChanged_early {t : ℕ} (ht : t < 5) : (engine powerUp input t).tobChanged = false := by
  cases t with
  | zero => rfl
  | succ t =>
    refine Bool.eq_false_iff.mpr fun hchanged => ?_
    have hfinds := (tobChanged_succ_iff powerUp (parsedOf input) t).mp hchanged
    obtain ⟨c, hc, -⟩ := (inValid_iff input t).mp hfinds.arrives
    omega

/-- `tob_changed_dp` is up five cycles behind the message that announces. -/
theorem tobChanged_true_iff (t : ℕ) :
    (engine powerUp input t).tobChanged = true ↔
      ∃ c, t = c + 5 ∧ Announces powerUp input c := by
  constructor
  · intro hchanged
    rcases Nat.lt_or_ge t 5 with hlt | hge
    · exact absurd ((tobChanged_early powerUp input hlt).symm.trans hchanged) Bool.false_ne_true
    · obtain ⟨c, rfl⟩ := Nat.exists_eq_add_of_le' hge
      exact ⟨c, rfl, (tobChanged_iff powerUp input c).mp hchanged⟩
  · rintro ⟨c, rfl, hannounces⟩
    exact (tobChanged_iff powerUp input c).mpr hannounces

end Announce

/-! ### One clock -/

/-- One edge of a clock that drives both domains. -/
def TwoDomains.nextBoth (s : TwoDomains) (i : AxisIn) : TwoDomains where
  dp := s.dp.next i
  axi := s.axi.next s.dp

/-- The receiving domain looks at the datapath as it was before the edge. -/
theorem TwoDomains.nextBoth_eq (s : TwoDomains) (i : AxisIn) :
    s.nextBoth i = (s.next .sAxiAclk).next (.plClk1 i) := rfl

/-- Both domains from reset on, with `pl_clk1` and `s_axi_aclk` driven by one clock. -/
def oneClock (powerUp : OrderBookEngine) (axiPowerUp : AxiDomain) (input : ℕ → AxisIn) :
    ℕ → TwoDomains :=
  Clocked.run TwoDomains.nextBoth (.reset powerUp axiPowerUp) input

section OneClock

variable (powerUp : OrderBookEngine) (axiPowerUp : AxiDomain) (input : ℕ → AxisIn)

theorem oneClock_dp (t : ℕ) :
    (oneClock powerUp axiPowerUp input t).dp = kr260Top powerUp input t := by
  induction t with
  | zero => rfl
  | succ t ih =>
    change (oneClock powerUp axiPowerUp input t).dp.next (input t) = _
    rw [ih]
    rfl

theorem oneClock_engine (t : ℕ) :
    (oneClock powerUp axiPowerUp input t).dp.engine = engine powerUp input t := by
  rw [oneClock_dp, engine_kr260Top]
  rfl

/-- `tob_changed_axi` repeats the datapath's pulse two cycles later. -/
theorem tobChangedAxi_true_iff (t : ℕ) :
    (oneClock powerUp axiPowerUp input t).axi.tobChangedAxi = true ↔
      ∃ c, t = c + 7 ∧ Announces powerUp input c := by
  rcases Nat.lt_or_ge t 2 with hlt | hge
  · have hstart : (oneClock powerUp axiPowerUp input t).axi.tobChangedAxi = false := by
      interval_cases t <;> rfl
    rw [hstart]
    refine ⟨fun hf => absurd hf Bool.false_ne_true, ?_⟩
    rintro ⟨c, hc, -⟩
    omega
  · obtain ⟨t, rfl⟩ := Nat.exists_eq_add_of_le' hge
    have hdelay : (oneClock powerUp axiPowerUp input (t + 2)).axi.tobChangedAxi =
        (oneClock powerUp axiPowerUp input t).dp.engine.tobChanged := rfl
    rw [hdelay, oneClock_engine, tobChanged_true_iff]
    exact exists_congr fun c => and_congr_left fun _ =>
      (Nat.add_right_cancel_iff (n := 2) (m := t) (k := c + 5)).symm

theorem published_capture :
    Clocked.Capture (fun t => (oneClock powerUp axiPowerUp input t).axi.tobChangedAxi)
      (fun t => (engine powerUp input t).outputs)
      (fun t => (oneClock powerUp axiPowerUp input t).axi.published) := by
  intro t
  have hnext := (oneClock powerUp axiPowerUp input t).axi.published_next
    (oneClock powerUp axiPowerUp input t).dp
  rw [oneClock_engine] at hnext
  exact hnext

/-- What is published is what the levels after the last announcing message show. -/
theorem published_of_last {c t : ℕ} (hct : c + 7 < t) (hannounces : Announces powerUp input c)
    (hlast : ∀ b, c < b → ¬Announces powerUp input b) :
    (oneClock powerUp axiPowerUp input t).axi.published =
      (engine powerUp input (c + 5)).scanned := by
  rw [← OrderBookEngine.outputs_next_next _ (parsedOf input (c + 5)) (parsedOf input (c + 6))]
  refine (published_capture powerUp axiPowerUp input).last hct
    ((tobChangedAxi_true_iff powerUp axiPowerUp input (c + 7)).mpr ⟨c, rfl, hannounces⟩) ?_
  refine fun b hb _ => Bool.eq_false_iff.mpr fun hchanged => ?_
  obtain ⟨b', rfl, hannounces'⟩ := (tobChangedAxi_true_iff powerUp axiPowerUp input b).mp hchanged
  exact hlast b' (Nat.lt_of_add_lt_add_right hb) hannounces'

/-- Without an announcement nothing is ever captured. -/
theorem published_of_none (t : ℕ) (hnone : ∀ c, ¬Announces powerUp input c) :
    (oneClock powerUp axiPowerUp input t).axi.published = axiPowerUp.published := by
  refine (published_capture powerUp axiPowerUp input).none fun b _ =>
    Bool.eq_false_iff.mpr fun hchanged => ?_
  obtain ⟨c, -, hannounces⟩ := (tobChangedAxi_true_iff powerUp axiPowerUp input b).mp hchanged
  exact hnone c hannounces

/-- The outputs of a stream that has ended. -/
theorem outputs_of_idle {T t : ℕ} (hidle : ∀ c, T ≤ c → (input c).tvalid = false)
    (ht : T + 16 ≤ t) :
    (engine powerUp input t).outputs = (engine powerUp input (T + 4)).scanned := by
  obtain ⟨t, rfl⟩ := Nat.exists_eq_add_of_le' (show 2 ≤ t by omega)
  have houtputs : (engine powerUp input (t + 2)).outputs = (engine powerUp input t).scanned :=
    OrderBookEngine.outputs_next_next _ _ _
  rw [houtputs]
  refine OrderBookEngine.scanned_congr fun side =>
    levels_of_quiet powerUp (parsedOf input) side (by omega)
      (not_inValid input fun c hc _ hends => ?_)
  exact Bool.false_ne_true ((hidle c (Nat.le_of_add_le_add_right hc)).symm.trans hends.1)

/-- **What the processor sees** of a stream that has ended is the engine's top of book exactly
if the last message that announces something leaves the best prices and the spread as they are
at the end, or if none does and the registers happened to power up that way. -/
theorem published_iff {T t : ℕ} (hidle : ∀ c, T ≤ c → (input c).tvalid = false)
    (ht : T + 16 ≤ t) :
    (oneClock powerUp axiPowerUp input t).axi.published =
        (oneClock powerUp axiPowerUp input t).dp.engine.outputs ↔
      (∃ c, Announces powerUp input c ∧ (∀ b, c < b → ¬Announces powerUp input b) ∧
        (engine powerUp input (c + 5)).scanned = (engine powerUp input (T + 4)).scanned) ∨
      ((∀ c, ¬Announces powerUp input c) ∧
        axiPowerUp.published = (engine powerUp input (T + 4)).scanned) := by
  rw [oneClock_engine, outputs_of_idle powerUp input hidle ht]
  have hearly : ∀ c, Announces powerUp input c → c < T := by
    intro c hannounces
    by_contra hge
    exact Bool.false_ne_true
      ((hidle c (Nat.le_of_not_lt hge)).symm.trans hannounces.ends.1)
  rcases Clocked.last_or_none (Announces powerUp input) T with ⟨c, hc, hannounces, hnone⟩ | hnone
  · have hlast : ∀ b, c < b → ¬Announces powerUp input b := fun b hb hb' =>
      hnone b hb (hearly b hb') hb'
    rw [published_of_last powerUp axiPowerUp input (by omega) hannounces hlast]
    constructor
    · exact fun heq => .inl ⟨c, hannounces, hlast, heq⟩
    · rintro (⟨b, hb, hblast, heq⟩ | ⟨hno, -⟩)
      · obtain rfl : b = c := Clocked.last_unique hb hannounces (hblast c) (hlast b)
        exact heq
      · exact absurd hannounces (hno c)
  · have hno : ∀ c, ¬Announces powerUp input c := fun c hc => hnone c (hearly c hc) hc
    rw [published_of_none powerUp axiPowerUp input t hno]
    constructor
    · exact fun heq => .inr ⟨hno, heq⟩
    · rintro (⟨c, hc, -⟩ | ⟨-, heq⟩)
      · exact absurd hc (hno c)
      · exact heq

end OneClock

/-- A single bid. -/
def oneBid : List Byte := (Msg.add ⟨0, 1, charB, 10, 100⟩).encode

/-- It becomes the best bid and is never published. -/
theorem oneBid_unpublished :
    ¬∀ powerUp axiPowerUp input T,
      (∃ t, (engine powerUp input (t + 1)).bestScanned ≠ (engine powerUp input t).bestScanned) →
      (∀ c, T ≤ c → (input c).tvalid = false) →
      ∀ t, T + 16 ≤ t → (oneClock powerUp axiPowerUp input t).axi.published =
        (oneClock powerUp axiPowerUp input t).dp.engine.outputs := by
  intro h
  have hchanged : (engine default (playback oneBid) 34).bestScanned ≠
      (engine default (playback oneBid) 33).bestScanned := by decide +kernel
  have hdiffer : (oneClock default default (playback oneBid) 46).axi.published ≠
      (oneClock default default (playback oneBid) 46).dp.engine.outputs := by decide +kernel
  exact hdiffer (h default default (playback oneBid) 30 ⟨33, hchanged⟩
    (playback_idle oneBid) 46 (by decide))

/-- A bid and a better one. -/
def twoBids : List Byte := oneBid ++ (Msg.add ⟨0, 2, charB, 10, 200⟩).encode

/-- The second bid announces the first, and both are published. -/
theorem twoBids_announced :
    (∃ c, Announces default (playback twoBids) c ∧
        (∀ b, c < b → ¬Announces default (playback twoBids) b) ∧
        (engine default (playback twoBids) (c + 5)).scanned =
          (engine default (playback twoBids) 64).scanned) ∨
      ((∀ c, ¬Announces default (playback twoBids) c) ∧
        (default : AxiDomain).published = (engine default (playback twoBids) 64).scanned) := by
  have hpublished : (oneClock default default (playback twoBids) 76).axi.published =
      (oneClock default default (playback twoBids) 76).dp.engine.outputs := by decide +kernel
  exact (published_iff default default (playback twoBids) (T := 60) (playback_idle twoBids)
    (by decide)).mp hpublished

end HftKr260
