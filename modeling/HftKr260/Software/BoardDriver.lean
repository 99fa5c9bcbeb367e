import HftKr260.Foundation.DeviceTrace
import HftKr260.Rtl.Kr260Board
import HftKr260.Software.TobAxiDriver

/-!
# The driver on the board

`TobAxiDriver::read_tob` was studied on a device whose registers change between the reads. Here
the reads go through the bus of the board, while datapath, crossing and slave run on. What a
capture replaces is an update of the device, and a read accepted by the slave is a read of it,
as long as no capture meets a read of `TOB_CHANGED` at one edge: there the latch is cleared and
the device would have it set.

## Main results

* `boardDevice_succ` — one edge of the board is a step of the device
* `read_tob_on_board` — what `read_tob` returns on the board
-/

set_option autoImplicit false

namespace HftKr260

open Foundation ReadProgram

/-- The top of book of some registers. -/
def TobRegisters.top (u : TobRegisters) : TopOfBook where
  bid := { price := u.bidPrice.toInt, quantity := u.bidQty.toNat }
  ask := { price := u.askPrice.toInt, quantity := u.askQty.toNat }

@[simp] theorem TobDevice.tob_respond (d : TobDevice) (offset : BitVec 6) :
    (d.respond offset).2.tob = d.tob := by
  rw [respond]
  split_ifs <;> rfl

/-- A device with these registers, the others at zero. -/
def TobDevice.holding (u : TobRegisters) (latch : Bool) : TobDevice where
  status :=
    { (default : TobStatus) with
      bestBidPrice := u.bidPrice
      bestBidQty := u.bidQty
      bestAskPrice := u.askPrice
      bestAskQty := u.askQty }
  tobChangedLatch := latch
  parseErrorLatch := false

@[simp] theorem TobDevice.update_holding (u v : TobRegisters) (latch : Bool) :
    (holding u latch).update v = holding v true := rfl

theorem TobDevice.respond_holding (u : TobRegisters) (latch : Bool) (offset : BitVec 6) :
    ((holding u latch).respond offset).2 =
      holding u (if offset = TobAxiLite.regTobChanged then false else latch) := by
  rw [respond]
  split_ifs <;> rfl

/-- The registers `read_tob` reads. -/
def TobRegister (addr : BitVec 6) : Prop :=
  addr = TobAxiLite.regTobChanged ∨ addr = TobAxiLite.regBidPriceLo ∨
    addr = TobAxiLite.regBidPriceHi ∨ addr = TobAxiLite.regBidQty ∨
    addr = TobAxiLite.regAskPriceLo ∨ addr = TobAxiLite.regAskPriceHi ∨
    addr = TobAxiLite.regAskQty

instance : DecidablePred TobRegister := fun _ => inferInstanceAs (Decidable (_ ∨ _))

namespace TobAxiDriver

theorem only_readReg {addr : BitVec 6} (h : TobRegister addr) : (readReg addr).Only TobRegister :=
  ⟨h, fun _ => trivial⟩

theorem only_tobChangedAndClear : tobChangedAndClear.Only TobRegister :=
  (only_readReg (by decide)).bind fun _ => trivial

theorem only_readTobPass : readTobPass.Only TobRegister := by
  -- the latch, the six words, and the latch again
  refine only_tobChangedAndClear.bind fun _ => ?_
  refine (only_readReg (by decide)).bind fun _ => ?_
  refine (only_readReg (by decide)).bind fun _ => ?_
  refine (only_readReg (by decide)).bind fun _ => ?_
  refine (only_readReg (by decide)).bind fun _ => ?_
  refine (only_readReg (by decide)).bind fun _ => ?_
  refine (only_readReg (by decide)).bind fun _ => ?_
  exact only_tobChangedAndClear.bind fun _ => trivial

theorem only_readTobLoop (left : ℕ) : (readTobLoop left).Only TobRegister := by
  induction left with
  | zero => exact only_readTobPass.bind fun _ => trivial
  | succ left ih =>
    refine only_readTobPass.bind fun pass => ?_
    split_ifs
    · exact ih
    · trivial

end TobAxiDriver

section Board

variable (powerUp : OrderBookEngine) (axiPowerUp : AxiDomain) (input : ℕ → AxisIn)
  (sched : Schedule)

/-- The registers behind the prices and quantities, at edge `n`. -/
def heldAt (n : ℕ) : TobRegisters where
  bidPrice := (kr260Board powerUp axiPowerUp input sched n).axi.bestBidPriceAxi
  bidQty := (kr260Board powerUp axiPowerUp input sched n).axi.bestBidQtyAxi
  askPrice := (kr260Board powerUp axiPowerUp input sched n).axi.bestAskPriceAxi
  askQty := (kr260Board powerUp axiPowerUp input sched n).axi.bestAskQtyAxi

/-- What `read_tob` depends on, at edge `n`. -/
def boardDevice (n : ℕ) : TobDevice :=
  .holding (heldAt powerUp axiPowerUp input sched n)
    (kr260Board powerUp axiPowerUp input sched n).slave.tobChangedLatch

/-- What the engine shows a capture at edge `n`. -/
def offeredAt (n : ℕ) : TobRegisters where
  bidPrice := (engine powerUp input (sched.plBefore n)).bestBidPrice
  bidQty := (engine powerUp input (sched.plBefore n)).bestBidQty
  askPrice := (engine powerUp input (sched.plBefore n)).bestAskPrice
  askQty := (engine powerUp input (sched.plBefore n)).bestAskQty

/-- Edge `n` captures. -/
def capturesAt (n : ℕ) : Bool :=
  sched.isAxi n && (kr260Board powerUp axiPowerUp input sched n).axi.tobChangedAxi

/-- Edge `n` accepts a read. -/
def readsAt (n : ℕ) : Bool :=
  sched.isAxi n && (kr260Board powerUp axiPowerUp input sched n).slave.takesRead
    (slaveIn powerUp axiPowerUp input sched n)

/-- What edge `n` is to the device. -/
def momentAt (n : ℕ) : Moment (BitVec 6) (BitVec 32) TobRegisters where
  answered :=
    if readsAt powerUp axiPowerUp input sched n then
      some ((slaveIn powerUp axiPowerUp input sched n).araddr,
        readAt powerUp axiPowerUp input sched n)
    else none
  updates :=
    if capturesAt powerUp axiPowerUp input sched n then [offeredAt powerUp input sched n] else []

/-- The edges from `n` on, `k` of them. -/
def momentsFrom (n k : ℕ) : List (Moment (BitVec 6) (BitVec 32) TobRegisters) :=
  (List.range' n k).map (momentAt powerUp axiPowerUp input sched)

/-- A capture meets a read of `TOB_CHANGED`. -/
def ClashesAt (n : ℕ) : Prop :=
  capturesAt powerUp axiPowerUp input sched n = true ∧
    AcceptsAt powerUp axiPowerUp input sched TobAxiLite.regTobChanged n

instance : DecidablePred (ClashesAt powerUp axiPowerUp input sched) :=
  fun _ => inferInstanceAs (Decidable (_ ∧ _))

/-- The board holds this top of book at `n`, or captures it at one of the `k` edges from then. -/
def HeldOnce (n k : ℕ) (tob : TopOfBook) : Prop :=
  tob = (heldAt powerUp axiPowerUp input sched n).top ∨
    ∃ e, n ≤ e ∧ e < n + k ∧ capturesAt powerUp axiPowerUp input sched e = true ∧
      tob = (offeredAt powerUp input sched e).top

variable {powerUp axiPowerUp input sched}

theorem acceptsAt_of_reads {n : ℕ} (h : readsAt powerUp axiPowerUp input sched n = true) :
    AcceptsAt powerUp axiPowerUp input sched (slaveIn powerUp axiPowerUp input sched n).araddr n :=
  ⟨(Bool.and_eq_true_iff.mp h).1, (Bool.and_eq_true_iff.mp h).2, rfl⟩

/-- A read of one of these registers returns what the device answers. -/
theorem readAt_eq_respond {addr : BitVec 6} {n : ℕ}
    (h : AcceptsAt powerUp axiPowerUp input sched addr n) (haddr : TobRegister addr) :
    readAt powerUp axiPowerUp input sched n =
      ((boardDevice powerUp axiPowerUp input sched n).respond addr).1 := by
  rw [readAt_eq h, TobDevice.respond]
  rcases haddr with rfl | rfl | rfl | rfl | rfl | rfl | rfl <;> rfl

/-- The registers are captured. -/
theorem heldAt_capture :
    Clocked.Capture (capturesAt powerUp axiPowerUp input sched) (offeredAt powerUp input sched)
      (heldAt powerUp axiPowerUp input sched) := by
  intro n
  rw [capturesAt, offeredAt, ← engine_kr260Board powerUp axiPowerUp]
  cases h : sched n with
  | none => rw [heldAt, kr260Board_succ_pl _ _ _ _ h, Schedule.isAxi, h]; rfl
  | some m =>
    rw [heldAt, kr260Board_succ_axi _ _ _ _ h, Schedule.isAxi, h]
    change TobRegisters.mk (if _ then _ else _) (if _ then _ else _) (if _ then _ else _)
      (if _ then _ else _) = _
    cases hchanged : (kr260Board powerUp axiPowerUp input sched n).axi.tobChangedAxi <;> rfl

/-- The latch is set by captures and cleared by reads of `TOB_CHANGED`. -/
theorem tobChangedLatch_kr260Board :
    Clocked.Latch (capturesAt powerUp axiPowerUp input sched)
      (fun n => readsAt powerUp axiPowerUp input sched n &&
        (slaveIn powerUp axiPowerUp input sched n).araddr == TobAxiLite.regTobChanged)
      (fun n => (kr260Board powerUp axiPowerUp input sched n).slave.tobChangedLatch) := by
  intro n
  have hmoves := congrArg TobAxiLite.tobChangedLatch (slave_moves powerUp axiPowerUp input sched n)
  beta_reduce at hmoves ⊢
  rw [hmoves, readsAt, capturesAt]
  cases sched.isAxi n with
  | true => rfl
  | false => simp

/-- **One edge of the board is a step of the device**: the answer, then the update. -/
theorem boardDevice_succ {n : ℕ} (hclash : ¬ClashesAt powerUp axiPowerUp input sched n) :
    boardDevice powerUp axiPowerUp input sched (n + 1) =
      (momentAt powerUp axiPowerUp input sched n).updates.foldl TobDevice.update
        ((momentAt powerUp axiPowerUp input sched n).answered.elim
          (boardDevice powerUp axiPowerUp input sched n) fun q =>
            ((boardDevice powerUp axiPowerUp input sched n).respond q.1).2) := by
  have hheld : heldAt powerUp axiPowerUp input sched (n + 1) = _ := heldAt_capture n
  have hlatch : (kr260Board powerUp axiPowerUp input sched (n + 1)).slave.tobChangedLatch = _ :=
    tobChangedLatch_kr260Board n
  rw [boardDevice, boardDevice, hheld, hlatch, momentAt]
  cases hcaptures : capturesAt powerUp axiPowerUp input sched n with
  | true =>
    cases hreads : readsAt powerUp axiPowerUp input sched n with
    | true =>
      -- without a clash the read is of another register, and leaves the latch to the capture
      have hother : (slaveIn powerUp axiPowerUp input sched n).araddr ≠ TobAxiLite.regTobChanged :=
        fun haddr => hclash ⟨hcaptures, haddr ▸ acceptsAt_of_reads hreads⟩
      have hbeq : ((slaveIn powerUp axiPowerUp input sched n).araddr ==
          TobAxiLite.regTobChanged) = false := beq_eq_false_iff_ne.mpr hother
      simp [hbeq, TobDevice.respond_holding]
    | false => simp [hreads]
  | false =>
    cases hreads : readsAt powerUp axiPowerUp input sched n with
    | true =>
      by_cases haddr : (slaveIn powerUp axiPowerUp input sched n).araddr = TobAxiLite.regTobChanged
      · -- the read that clears the latch
        simp [hreads, haddr, TobDevice.respond_holding]
      · simp [haddr, TobDevice.respond_holding]
    | false => simp [hreads]

theorem mem_requests_of_answered {n k e : ℕ} (hn : n ≤ e) (hk : e < n + k)
    {q : BitVec 6 × BitVec 32}
    (h : (momentAt powerUp axiPowerUp input sched e).answered = some q) :
    q ∈ requests (momentsFrom powerUp axiPowerUp input sched n k) := by
  refine List.mem_filterMap.mpr ⟨momentAt powerUp axiPowerUp input sched e, ?_, h⟩
  exact List.mem_map_of_mem (List.mem_range'_1.mpr ⟨hn, hk⟩)

/-- A stretch of the board without a clash is a stretch of the device. -/
theorem answers_boardDevice (n k : ℕ)
    (hclash : ∀ e, n ≤ e → e < n + k → ¬ClashesAt powerUp axiPowerUp input sched e)
    (hregs : ∀ q ∈ requests (momentsFrom powerUp axiPowerUp input sched n k), TobRegister q.1) :
    Answers TobDevice.respond TobDevice.update (boardDevice powerUp axiPowerUp input sched n)
      (momentsFrom powerUp axiPowerUp input sched n k) := by
  refine answers_of_steps k (fun e hn hk r b hanswered => ?_) fun e hn hk =>
    boardDevice_succ (hclash e hn hk)
  have haddr : TobRegister r := hregs (r, b) (mem_requests_of_answered hn hk hanswered)
  cases hreads : readsAt powerUp axiPowerUp input sched e with
  | false => simp [momentAt, hreads] at hanswered
  | true =>
    simp only [momentAt, hreads, if_true, Option.some.injEq, Prod.mk.injEq] at hanswered
    obtain ⟨rfl, rfl⟩ := hanswered
    exact (readAt_eq_respond (acceptsAt_of_reads hreads) haddr).symm

/-- Every device seen in a run shows the first top of book or that of an update. -/
theorem tob_of_seen {gaps : ℕ → List TobRegisters} {α : Type} (p : RegProgram α)
    (d : TobDevice) :
    ∀ s ∈ (TobAxiDriver.exec gaps p 0 d).seen,
      s.tob = d.tob ∨ ∃ i, ∃ u ∈ gaps i, s.tob = u.top := by
  refine (exec_invariant
    (P := fun s : TobDevice => s.tob = d.tob ∨ ∃ i, ∃ u ∈ gaps i, s.tob = u.top)
    (fun s r hs => ?_) (fun i s u hu _ => .inr ⟨i, u, hu, rfl⟩) p (.inl rfl)).2
  rwa [TobDevice.tob_respond]

/-- What comes before a read in the schedule was captured. -/
theorem captured_of_mem_gapsAt {n k i : ℕ} {u : TobRegisters}
    (hu : u ∈ gapsAt (momentsFrom powerUp axiPowerUp input sched n k) i) :
    ∃ e, n ≤ e ∧ e < n + k ∧ capturesAt powerUp axiPowerUp input sched e = true ∧
      u = offeredAt powerUp input sched e := by
  obtain ⟨m, hm, hmem⟩ := mem_gapsAt hu
  obtain ⟨e, he, rfl⟩ := List.mem_map.mp hm
  obtain ⟨hn, hk⟩ := List.mem_range'_1.mp he
  refine ⟨e, hn, hk, ?_⟩
  cases hcaptures : capturesAt powerUp axiPowerUp input sched e with
  | true => simpa [momentAt, hcaptures] using hmem
  | false => simp [momentAt, hcaptures] at hmem

/-- **`read_tob` on the board.** In some stretch of edges the slave answers the reads of one call
of `read_tob`, and no capture meets a read of `TOB_CHANGED`. Then the call returns what it returns
on the device, under the schedule of the captures between its reads; and if some pass that
returns is calm under this schedule, that is one top of book the board held. -/
theorem read_tob_on_board (powerUp : OrderBookEngine) (axiPowerUp : AxiDomain)
    (input : ℕ → AxisIn) (sched : Schedule) (n k : ℕ) (tob : TopOfBook)
    (hfollows : Follows TobAxiDriver.readTob
      (requests (momentsFrom powerUp axiPowerUp input sched n k)) tob)
    (hclash : ∀ e, n ≤ e → e < n + k → ¬ClashesAt powerUp axiPowerUp input sched e) :
    tob = (TobAxiDriver.exec (gapsAt (momentsFrom powerUp axiPowerUp input sched n k))
        TobAxiDriver.readTob 0 (boardDevice powerUp axiPowerUp input sched n)).value ∧
      (TobAxiDriver.Settles
          (fun i => (gapsAt (momentsFrom powerUp axiPowerUp input sched n k) i).length) 1 0 →
        HeldOnce powerUp axiPowerUp input sched n k tob) := by
  have hregs := hfollows.only (TobAxiDriver.only_readTobLoop 1)
  have hvalue := hfollows.exec_value (answers_boardDevice n k hclash hregs)
  refine ⟨hvalue.symm, fun hsettles => ?_⟩
  -- a calm pass returns what some state of the device shows
  have hmoment := TobAxiDriver.readTobLoop_consistent (fun _ => rfl) 1 0
    (boardDevice powerUp axiPowerUp input sched n) hsettles
  obtain ⟨s, hs, htob⟩ := List.mem_map.mp hmoment
  rw [← hvalue]
  change HeldOnce _ _ _ _ n k (TobAxiDriver.exec _ (TobAxiDriver.readTobLoop 1) 0 _).value
  rw [← htob]
  rcases tob_of_seen (TobAxiDriver.readTobLoop 1) _ s hs with hfirst | ⟨i, u, hu, hlater⟩
  · exact .inl hfirst
  · obtain ⟨e, hn, hk, hcaptures, rfl⟩ := captured_of_mem_gapsAt hu
    exact .inr ⟨e, hn, hk, hcaptures, hlater⟩

end Board

/-- A master that makes the reads of two passes from edge 62 on, at every other edge until the
stream has gone through. -/
def twoPasses : Schedule := fun n =>
  let addrs := [TobAxiLite.regTobChanged, TobAxiLite.regBidPriceLo, TobAxiLite.regBidPriceHi,
    TobAxiLite.regBidQty, TobAxiLite.regAskPriceLo, TobAxiLite.regAskPriceHi,
    TobAxiLite.regAskQty, TobAxiLite.regTobChanged]
  -- an address is held until it is answered, in the cycle behind
  let read (k : ℕ) : AxiMasterIn :=
    { (default : AxiMasterIn) with
      arvalid := true
      araddr := addrs.getD (k / 2 % 8) 0
      rready := true }
  if n < 62 then none
  else if n < 86 then (if n % 2 = 0 then some (read ((n - 62) / 2)) else none)
  else some (read (n - 74))

/-- Captured registers with something in them. -/
def quoted : AxiDomain :=
  { (default : AxiDomain) with
    bestBidPriceAxi := 100
    bestBidQtyAxi := 10
    bestAskPriceAxi := 200
    bestAskQtyAxi := 20 }

/-- The board captures twice between the reads of the first pass, so a second one is made, and
the call returns what was captured. -/
theorem read_tob_on_board_twoPasses :
    let ms := momentsFrom default quoted (playback noisyQuotes) twoPasses 62 44
    let tob : TopOfBook := ⟨⟨7205759403792793600, 0, 0⟩, ⟨-4035225266123964416, 0, 0⟩⟩
    (gapsAt ms 3).length = 1 ∧ (gapsAt ms 4).length = 1 ∧
      tob = (TobAxiDriver.exec (gapsAt ms) TobAxiDriver.readTob 0
        (boardDevice default quoted (playback noisyQuotes) twoPasses 62)).value ∧
      HeldOnce default quoted (playback noisyQuotes) twoPasses 62 44 tob := by
  have hclash : ∀ e < 106, ¬ClashesAt default quoted (playback noisyQuotes) twoPasses e := by
    decide +kernel
  -- the first pass is disturbed, the second is calm
  have hcalm : ∀ i < 15, 10 ≤ i → (gapsAt
      (momentsFrom default quoted (playback noisyQuotes) twoPasses 62 44) i).length = 0 := by
    decide +kernel
  have hread := read_tob_on_board default quoted (playback noisyQuotes) twoPasses 62 44
    ⟨⟨7205759403792793600, 0, 0⟩, ⟨-4035225266123964416, 0, 0⟩⟩
    (follows_of_follow (by decide +kernel)) fun e _ he => hclash e he
  refine ⟨by decide +kernel, by decide +kernel, hread.1, hread.2 (.inr ?_)⟩
  rintro ⟨i, hlo, hhi, hne⟩
  exact hne (hcalm i (by omega) hlo)

end HftKr260
