import HftKr260.Rtl.SettledBoard

/-!
# demo.py: reading the top of book

`read_tob` of the demo reads the registers once, one after the other, with no look at
`TOB_CHANGED`. The demo calls it a millisecond behind the transfer, when the board has settled.
Then what it returns is one top of book.

The prices are left in ticks; the script multiplies them by `TICK`.

## Main results

* `read_tob_settled` — what `read_tob` returns of a settled board
-/

set_option autoImplicit false

namespace HftKr260

namespace Demo

open Foundation ReadProgram

/-! ### The registers -/

def tobStatus : BitVec 6 := 0x00
def tobMsgCntLo : BitVec 6 := 0x08
def tobMsgCntHi : BitVec 6 := 0x0C
def tobBidPriceLo : BitVec 6 := 0x10
def tobBidPriceHi : BitVec 6 := 0x14
def tobBidQty : BitVec 6 := 0x18
def tobAskPriceLo : BitVec 6 := 0x1C
def tobAskPriceHi : BitVec 6 := 0x20
def tobAskQty : BitVec 6 := 0x24
def tobSpreadLo : BitVec 6 := 0x28
def tobSpreadHi : BitVec 6 := 0x2C

/-! ### The script -/

/-- What `read_tob` returns, in ticks. -/
structure TobReading where
  valid : Bool
  crossed : Bool
  error : Bool
  msgCount : ℕ
  bid : ℕ
  bidQty : ℕ
  ask : ℕ
  askQty : ℕ
  spread : ℕ
  deriving DecidableEq, Repr

def read32 (offset : BitVec 6) : RegProgram ℕ := do
  let value ← TobAxiDriver.readReg offset
  pure value.toNat

def read64 (offsetLo offsetHi : BitVec 6) : RegProgram ℕ := do
  let lo ← read32 offsetLo
  let hi ← read32 offsetHi
  pure (hi <<< 32 ||| lo)

def readTob : RegProgram TobReading := do
  let status ← read32 tobStatus
  let msgCnt ← read64 tobMsgCntLo tobMsgCntHi
  let bid ← read64 tobBidPriceLo tobBidPriceHi
  let bidQty ← read32 tobBidQty
  let ask ← read64 tobAskPriceLo tobAskPriceHi
  let askQty ← read32 tobAskQty
  let spread ← read64 tobSpreadLo tobSpreadHi
  pure
    { valid := status &&& 1 != 0
      crossed := status >>> 1 &&& 1 != 0
      error := status >>> 2 &&& 1 != 0
      msgCount := msgCnt
      bid := bid
      bidQty := bidQty
      ask := ask
      askQty := askQty
      spread := spread }

/-- It does not read `TOB_CHANGED`. -/
theorem only_readTob : readTob.Only (· ≠ TobAxiLite.regTobChanged) := by
  have hread32 {offset : BitVec 6} (h : offset ≠ TobAxiLite.regTobChanged) :
      (read32 offset).Only (· ≠ TobAxiLite.regTobChanged) :=
    ⟨h, fun _ => trivial⟩
  have hread64 {lo hi : BitVec 6} (hlo : lo ≠ TobAxiLite.regTobChanged)
      (hhi : hi ≠ TobAxiLite.regTobChanged) :
      (read64 lo hi).Only (· ≠ TobAxiLite.regTobChanged) :=
    (hread32 hlo).bind fun _ => (hread32 hhi).bind fun _ => trivial
  refine (hread32 (by decide)).bind fun _ => ?_
  refine (hread64 (by decide) (by decide)).bind fun _ => ?_
  refine (hread64 (by decide) (by decide)).bind fun _ => ?_
  refine (hread32 (by decide)).bind fun _ => ?_
  refine (hread64 (by decide) (by decide)).bind fun _ => ?_
  refine (hread32 (by decide)).bind fun _ => ?_
  exact (hread64 (by decide) (by decide)).bind fun _ => trivial

/-! ### Words and bits -/

theorem join_halves (x : BitVec 64) :
    (x.extractLsb 63 32).toNat <<< 32 ||| (x.extractLsb 31 0).toNat = x.toNat := by
  rw [← BitVec.toNat_append, append_halves]

theorem bit_ne_zero (x : BitVec 32) (i : ℕ) : (x.toNat >>> i &&& 1 != 0) = x.getLsbD i := by
  rw [Nat.and_comm]
  rfl

/-! ### A settled board -/

/-- The reading shows these prices, quantities and spread. -/
structure Quotes (r : TobReading) (u : TobRegisters) (spread : BitVec 64) : Prop where
  bid : r.bid = u.bidPrice.toNat
  bidQty : r.bidQty = u.bidQty.toNat
  ask : r.ask = u.askPrice.toNat
  askQty : r.askQty = u.askQty.toNat
  spread : r.spread = spread.toNat

section Board

variable (powerUp : OrderBookEngine) (axiPowerUp : AxiDomain) (input : ℕ → AxisIn)
  (sched : Schedule)

/-- What is read if each register is read at `n`. -/
def readingAt (n : ℕ) : TobReading where
  valid := StatusBit.tobValid.shown (kr260Board powerUp axiPowerUp input sched n).axi
  crossed := StatusBit.crossed.shown (kr260Board powerUp axiPowerUp input sched n).axi
  error := (kr260Board powerUp axiPowerUp input sched n).slave.parseErrorLatch
  msgCount := (kr260Board powerUp axiPowerUp input sched n).axi.msgCountAxi.toNat
  bid := (heldAt powerUp axiPowerUp input sched n).bidPrice.toNat
  bidQty := (heldAt powerUp axiPowerUp input sched n).bidQty.toNat
  ask := (heldAt powerUp axiPowerUp input sched n).askPrice.toNat
  askQty := (heldAt powerUp axiPowerUp input sched n).askQty.toNat
  spread := (kr260Board powerUp axiPowerUp input sched n).axi.spreadAxi.toNat

variable {powerUp axiPowerUp input sched}

theorem answerWith_dataAt (n : ℕ) :
    readTob.answerWith (dataAt powerUp axiPowerUp input sched n) =
      readingAt powerUp axiPowerUp input sched n := by
  let status := dataAt powerUp axiPowerUp input sched n tobStatus
  obtain ⟨hvalid, hcrossed, herror⟩ := readData_status false
    (kr260Board powerUp axiPowerUp input sched n).slave.parseErrorLatch
    (kr260Board powerUp axiPowerUp input sched n).axi.status
  have hbit (i : ℕ) : (status.toNat >>> i &&& 1 != 0) = status.getLsbD i := bit_ne_zero status i
  change TobReading.mk (status.toNat >>> 0 &&& 1 != 0) (status.toNat >>> 1 &&& 1 != 0)
    (status.toNat >>> 2 &&& 1 != 0) (_ <<< 32 ||| _) (_ <<< 32 ||| _) _ (_ <<< 32 ||| _) _
    (_ <<< 32 ||| _) = _
  rw [hbit, hbit, hbit, readingAt]
  refine TobReading.mk.injEq .. |>.mpr ⟨hvalid, hcrossed, herror, ?_⟩
  exact ⟨join_halves _, join_halves _, rfl, join_halves _, rfl, join_halves _⟩

/-- What is read is what the last capture took. -/
theorem quotes_of_last {e n : ℕ} (hen : e < n)
    (hcaptures : capturesAt powerUp axiPowerUp input sched e = true)
    (hlast : ∀ b, e < b → b < n → capturesAt powerUp axiPowerUp input sched b = false) :
    Quotes (readingAt powerUp axiPowerUp input sched n) (offeredAt powerUp input sched e)
      (engine powerUp input (sched.plBefore e)).spread := by
  have hheld : heldAt powerUp axiPowerUp input sched n = _ :=
    heldAt_capture.last hen hcaptures hlast
  have hspread : (kr260Board powerUp axiPowerUp input sched n).axi.spreadAxi = _ :=
    spreadAxi_capture.last hen hcaptures hlast
  rw [readingAt, hheld, hspread]
  exact ⟨rfl, rfl, rfl, rfl, rfl⟩

theorem quotes_of_none {n : ℕ}
    (hnone : ∀ e < n, capturesAt powerUp axiPowerUp input sched e = false) :
    Quotes (readingAt powerUp axiPowerUp input sched n)
      (heldAt powerUp axiPowerUp input sched 0) axiPowerUp.spreadAxi := by
  have hheld : heldAt powerUp axiPowerUp input sched n = _ := heldAt_capture.none hnone
  have hspread : (kr260Board powerUp axiPowerUp input sched n).axi.spreadAxi = _ :=
    spreadAxi_capture.none hnone
  rw [readingAt, hheld, hspread]
  exact ⟨rfl, rfl, rfl, rfl, rfl⟩

variable (powerUp axiPowerUp input sched)

/-- What a reading from edge `n` on says of a stream of `T` cycles. -/
structure ReadsSettled (T n : ℕ) (r : TobReading) : Prop where
  /-- both sides have a level at the end -/
  valid : r.valid = true ↔ (engine powerUp input (T + 4)).TwoSided
  /-- the best prices cross at the end -/
  crossed : r.crossed = true ↔ Crosses (engine powerUp input (T + 4))
  /-- a segment was reported in a cycle with an edge of `s_axi_aclk`, and not cleared -/
  error : r.error = true ↔
    ∃ m e c, TwoBefore sched m e ∧ sched.isAxi e = true ∧ e < n ∧ sched.plBefore m = c + 4 ∧
      Reported input c ∧ ∀ b, e ≤ b → b < n → ¬ClearsAt powerUp axiPowerUp input sched b
  msgCount : r.msgCount = (frames (accepted input T)).1.length % 2 ^ 64
  /-- prices, quantities and spread are those of one cycle, that of the last capture -/
  captured : ∀ e < n, capturesAt powerUp axiPowerUp input sched e = true →
    (∀ b, e < b → b < n → capturesAt powerUp axiPowerUp input sched b = false) →
    Quotes r (offeredAt powerUp input sched e) (engine powerUp input (sched.plBefore e)).spread
  /-- without a capture they are those the registers powered up with -/
  uncaptured : (∀ e < n, capturesAt powerUp axiPowerUp input sched e = false) →
    Quotes r (heldAt powerUp axiPowerUp input sched 0) axiPowerUp.spreadAxi
  /-- a capture behind the sixth cycle takes the final prices -/
  final : ∀ e < n, capturesAt powerUp axiPowerUp input sched e = true →
    T + 6 ≤ sched.plBefore e →
    r.bid = (engine powerUp input (T + 4)).bids.bestBidCombo.toNat ∧
      r.ask = (engine powerUp input (T + 4)).asks.bestAskCombo.toNat ∧
      r.spread = (engine powerUp input (T + 4)).scanned.spread.toNat

variable {powerUp axiPowerUp input sched}

theorem readsSettled {T n : ℕ} (hidle : ∀ c, T ≤ c → (input c).tvalid = false)
    (hsettled : sched.Settled (T + 6) n) :
    ReadsSettled powerUp axiPowerUp input sched T n
      (readingAt powerUp axiPowerUp input sched n) where
  valid := by
    change StatusBit.tobValid.shown (kr260Board powerUp axiPowerUp input sched n).axi = true ↔ _
    rw [shown_settled hidle hsettled, StatusBit.sent, engine_kr260Top]
    exact tobValid_at_rest powerUp hidle le_rfl
  crossed := by
    change StatusBit.crossed.shown (kr260Board powerUp axiPowerUp input sched n).axi = true ↔ _
    rw [shown_settled hidle hsettled, StatusBit.sent, engine_kr260Top]
    exact crossedBook_at_rest powerUp hidle le_rfl
  error := parseErrorLatch_iff n
  msgCount := by
    change (kr260Board powerUp axiPowerUp input sched n).axi.msgCountAxi.toNat = _
    rw [msgCountAxi_settled hidle hsettled, BitVec.toNat_ofNat]
  captured := fun _ hen hcaptures hlast => quotes_of_last hen hcaptures hlast
  uncaptured := quotes_of_none
  final := by
    intro e hen hcaptures hlate
    rcases Clocked.last_or_none (fun c => capturesAt powerUp axiPowerUp input sched c = true) n with
      ⟨l, hln, hl, hnone⟩ | hnone
    · have hquotes := quotes_of_last hln hl fun b hlb hbn =>
        Bool.eq_false_of_not_eq_true (hnone b hlb hbn)
      -- the last capture is no earlier, and finds the outputs at rest
      have hle : e ≤ l := Nat.le_of_not_lt fun hlt => hnone e hlt hen hcaptures
      have hrest := outputs_at_rest powerUp hidle (hlate.trans (Schedule.plBefore_mono hle))
      refine ⟨hquotes.bid.trans ?_, hquotes.ask.trans ?_, hquotes.spread.trans ?_⟩
      · exact congrArg (fun p => p.bestBid.toNat) hrest
      · exact congrArg (fun p => p.bestAsk.toNat) hrest
      · exact congrArg (fun p => p.spread.toNat) hrest
    · exact absurd hcaptures (hnone e hen)

/-- **`read_tob` of a settled board.** The stream has ended, and two edges of `s_axi_aclk` have
come since the datapath is at rest. If the slave then answers the reads of one call in some
stretch in which nothing clears the error, the call returns what the board holds at the start of
the stretch. -/
theorem read_tob_settled (powerUp : OrderBookEngine) (axiPowerUp : AxiDomain)
    (input : ℕ → AxisIn) (sched : Schedule) (T n k : ℕ) (r : TobReading)
    (hidle : ∀ c, T ≤ c → (input c).tvalid = false) (hsettled : sched.Settled (T + 6) n)
    (hkeep : ∀ b, n ≤ b → b < n + k → ¬ClearsAt powerUp axiPowerUp input sched b)
    (hfollows : Follows readTob (requests (momentsFrom powerUp axiPowerUp input sched n k)) r) :
    ReadsSettled powerUp axiPowerUp input sched T n r := by
  have hvalue : r = readTob.answerWith (dataAt powerUp axiPowerUp input sched n) :=
    hfollows.eq_answerWith fun q hq =>
      requests_settled hidle hsettled hkeep hq (hfollows.only only_readTob q hq)
  rw [hvalue, answerWith_dataAt]
  exact readsSettled hidle hsettled

end Board

/-- Behind `c` edges of `pl_clk1` the clocks alternate for twelve more; two edges of `s_axi_aclk`
follow, and the reads of one call. -/
def callBehind (c : ℕ) : Schedule := fun n =>
  let addrs := [tobStatus, tobMsgCntLo, tobMsgCntHi, tobBidPriceLo, tobBidPriceHi, tobBidQty,
    tobAskPriceLo, tobAskPriceHi, tobAskQty, tobSpreadLo, tobSpreadHi]
  if n < c then none
  else if n < c + 24 then (if n % 2 = 0 then some default else none)
  else if n < c + 26 then some default
  -- an address is held until it is answered, in the cycle behind
  else addrs[(n - c - 26) / 2]?.map fun addr =>
    { (default : AxiMasterIn) with arvalid := true, araddr := addr, rready := true }

/-- Both sides, an error, five messages and the captured prices are read. -/
theorem read_tob_settled_noisyQuotes :
    ReadsSettled default quoted (playback noisyQuotes) (callBehind 62) 63 88
      ⟨true, false, true, 5, 7205759403792793600, 0, 14411518807585587200, 0,
        7205759403792793600⟩ := by
  have hkeep : ∀ b < 110, ¬ClearsAt default quoted (playback noisyQuotes) (callBehind 62) b := by
    unfold ClearsAt
    decide +kernel
  exact read_tob_settled default quoted (playback noisyQuotes) (callBehind 62) 63 88 22 _
    (playback_idle noisyQuotes) ⟨86, by decide, by decide⟩ (fun b _ hb => hkeep b hb)
    (follows_of_follow (by decide +kernel))

end Demo

end HftKr260
