import HftKr260.Foundation.ClockDomains
import HftKr260.Rtl.StatusLatches
import HftKr260.Rtl.StatusLeds

/-!
# kr260_top: the whole board

Everything of `kr260_top` behind the reset: the `pl_clk1` domain with datapath and LEDs, the
registers of the crossing in the `s_axi_aclk` domain, and the AXI4-Lite slave behind them. A
schedule says which clock has the next edge; an edge of `s_axi_aclk` comes with what the master
shows on its ports. The byte stream is numbered by the edges of `pl_clk1`.

The domains are the machines studied on their own: `pl_kr260Board`, `slave_moves`.

## Main results

* `counts_messages` — what a read of the message counter returns
* `reads_status` — what a read of `STATUS` returns
-/

set_option autoImplicit false

namespace HftKr260

open Foundation Synchroniser

/-- What the master shows on the ports of the slave. -/
structure AxiMasterIn where
  awaddr : BitVec 6
  awvalid : Bool
  wdata : BitVec 32
  wvalid : Bool
  bready : Bool
  araddr : BitVec 6
  arvalid : Bool
  rready : Bool
  deriving DecidableEq, Repr, Inhabited

/-- The ports of the slave: those of the master, and the status inputs. -/
def AxiMasterIn.withStatus (m : AxiMasterIn) (status : TobStatus) : AxiLiteIn where
  awaddr := m.awaddr
  awvalid := m.awvalid
  wdata := m.wdata
  wvalid := m.wvalid
  bready := m.bready
  araddr := m.araddr
  arvalid := m.arvalid
  rready := m.rready
  status := status

/-- The registers of the crossing on the status inputs of the slave. -/
def AxiDomain.status (s : AxiDomain) : TobStatus where
  tobValid := s.tobValidAxi
  tobChanged := s.tobChangedAxi
  crossedBook := s.crossedAxi
  parseError := s.parseErrorAxi
  bestBidPrice := s.bestBidPriceAxi
  bestBidQty := s.bestBidQtyAxi
  bestAskPrice := s.bestAskPriceAxi
  bestAskQty := s.bestAskQtyAxi
  spread := s.spreadAxi
  msgCount := s.msgCountAxi

/-- The registers of `kr260_top` behind the reset synchroniser. -/
structure Kr260Board where
  pl : PlDomain
  axi : AxiDomain
  slave : TobAxiLite

/-- An edge of one of the clocks. -/
inductive BoardEdge
  | plClk1 (i : AxisIn)
  | sAxiAclk (m : AxiMasterIn)
  deriving DecidableEq, Repr

namespace Kr260Board

def reset (powerUp : OrderBookEngine) (axiPowerUp : AxiDomain) : Kr260Board where
  pl := .reset powerUp
  axi := axiPowerUp.reset
  slave := .reset

def next (s : Kr260Board) : BoardEdge → Kr260Board
  | .plClk1 i => { s with pl := s.pl.next i }
  -- the slave samples the registers of the crossing as they were before the edge
  | .sAxiAclk m =>
      { s with
        axi := s.axi.next s.pl.dp
        slave := s.slave.next (m.withStatus s.axi.status) }

end Kr260Board

/-- Whose edge comes when: `pl_clk1` has one where there is no master. -/
abbrev Schedule : Type := ℕ → Option AxiMasterIn

namespace Schedule

variable (sched : Schedule)

def isPl (n : ℕ) : Bool := (sched n).isNone

def isAxi (n : ℕ) : Bool := (sched n).isSome

/-- The edges of `pl_clk1` before edge `n`. -/
def plBefore (n : ℕ) : ℕ := edgesBefore sched.isPl n

/-- The edges of `s_axi_aclk` before edge `n`. -/
def axiBefore (n : ℕ) : ℕ := edgesBefore sched.isAxi n

/-- The edges with what they come with. -/
def edge (input : ℕ → AxisIn) (n : ℕ) : BoardEdge :=
  match sched n with
  | none => .plClk1 (input (sched.plBefore n))
  | some m => .sAxiAclk m

/-- `e` is the last edge of `s_axi_aclk` before `n`. -/
structure LastAxi (e n : ℕ) : Prop where
  lt : e < n
  axi : sched.isAxi e = true
  quiet : ∀ c, e < c → c < n → sched.isAxi c = false

variable {sched}

theorem isAxi_iff {n : ℕ} : sched.isAxi n = true ↔ ∃ m, sched n = some m :=
  Option.isSome_iff_exists

theorem plBefore_mono {m n : ℕ} (h : m ≤ n) : sched.plBefore m ≤ sched.plBefore n :=
  Nat.count_monotone _ h

end Schedule

/-- The registers before each edge. -/
def kr260Board (powerUp : OrderBookEngine) (axiPowerUp : AxiDomain) (input : ℕ → AxisIn)
    (sched : Schedule) : ℕ → Kr260Board :=
  Clocked.run Kr260Board.next (.reset powerUp axiPowerUp) (sched.edge input)

section Board

variable (powerUp : OrderBookEngine) (axiPowerUp : AxiDomain) (input : ℕ → AxisIn)
  (sched : Schedule)

/-! ### The two domains -/

theorem kr260Board_succ_pl {n : ℕ} (h : sched n = none) :
    kr260Board powerUp axiPowerUp input sched (n + 1) =
      (kr260Board powerUp axiPowerUp input sched n).next
        (.plClk1 (input (sched.plBefore n))) := by
  change Kr260Board.next _ (sched.edge input n) = _
  rw [Schedule.edge, h]
  rfl

theorem kr260Board_succ_axi {n : ℕ} {m : AxiMasterIn} (h : sched n = some m) :
    kr260Board powerUp axiPowerUp input sched (n + 1) =
      (kr260Board powerUp axiPowerUp input sched n).next (.sAxiAclk m) := by
  change Kr260Board.next _ (sched.edge input n) = _
  rw [Schedule.edge, h]
  rfl

/-- The `pl_clk1` domain runs by its own clock. -/
theorem pl_kr260Board (n : ℕ) :
    (kr260Board powerUp axiPowerUp input sched n).pl =
      plDomain powerUp input (sched.plBefore n) := by
  have hmoves : Clocked.Moves sched.isPl PlDomain.next (fun n => input (sched.plBefore n))
      (fun n => (kr260Board powerUp axiPowerUp input sched n).pl) := by
    intro n
    beta_reduce
    cases h : sched n with
    | none => rw [kr260Board_succ_pl _ _ _ _ h, Schedule.isPl, h]; rfl
    | some m => rw [kr260Board_succ_axi _ _ _ _ h, Schedule.isPl, h]; rfl
  exact hmoves.eq_run (fun _ _ => rfl) n

theorem engine_kr260Board (n : ℕ) :
    (kr260Board powerUp axiPowerUp input sched n).pl.dp.engine =
      engine powerUp input (sched.plBefore n) := by
  rw [pl_kr260Board, engine_plDomain]

theorem parser_kr260Board (n : ℕ) :
    (kr260Board powerUp axiPowerUp input sched n).pl.dp.parser =
      parser (framedOf input) (sched.plBefore n) := by
  rw [pl_kr260Board, parser_plDomain]

/-- The ports of the slave at edge `n`, if it is one of `s_axi_aclk`. -/
def slaveIn (n : ℕ) : AxiLiteIn :=
  ((sched n).getD default).withStatus (kr260Board powerUp axiPowerUp input sched n).axi.status

/-- The slave moves at the edges of `s_axi_aclk`. -/
theorem slave_moves :
    Clocked.Moves sched.isAxi TobAxiLite.next (slaveIn powerUp axiPowerUp input sched)
      (fun n => (kr260Board powerUp axiPowerUp input sched n).slave) := by
  intro n
  beta_reduce
  cases h : sched n with
  -- an edge of `pl_clk1` leaves the slave alone
  | none => rw [kr260Board_succ_pl _ _ _ _ h, Schedule.isAxi, h]; rfl
  | some m => rw [kr260Board_succ_axi _ _ _ _ h, Schedule.isAxi, slaveIn, h]; rfl

theorem slave_succ_axi {n : ℕ} (h : sched.isAxi n = true) :
    (kr260Board powerUp axiPowerUp input sched (n + 1)).slave =
      (kr260Board powerUp axiPowerUp input sched n).slave.next
        (slaveIn powerUp axiPowerUp input sched n) :=
  (slave_moves powerUp axiPowerUp input sched n).trans (if_pos h)

/-! ### Reads -/

/-- Edge `n` is one of `s_axi_aclk` that accepts a read of `addr`. -/
def AcceptsAt (addr : BitVec 6) (n : ℕ) : Prop :=
  sched.isAxi n = true ∧
    (kr260Board powerUp axiPowerUp input sched n).slave.takesRead
      (slaveIn powerUp axiPowerUp input sched n) = true ∧
    (slaveIn powerUp axiPowerUp input sched n).araddr = addr

instance (addr : BitVec 6) : DecidablePred (AcceptsAt powerUp axiPowerUp input sched addr) :=
  fun _ => inferInstanceAs (Decidable (_ ∧ _ ∧ _))

/-- The data of the read accepted at edge `n`. -/
def readAt (n : ℕ) : BitVec 32 := (kr260Board powerUp axiPowerUp input sched (n + 1)).slave.rdata

variable {powerUp axiPowerUp input sched}

/-- A read returns what the register map shows at that edge. -/
theorem readAt_eq {addr : BitVec 6} {n : ℕ} (h : AcceptsAt powerUp axiPowerUp input sched addr n) :
    readAt powerUp axiPowerUp input sched n =
      TobAxiLite.readData (kr260Board powerUp axiPowerUp input sched n).slave.tobChangedLatch
        (kr260Board powerUp axiPowerUp input sched n).slave.parseErrorLatch
        (kr260Board powerUp axiPowerUp input sched n).axi.status addr := by
  obtain ⟨haxi, htake, haddr⟩ := h
  rw [readAt, slave_succ_axi powerUp axiPowerUp input sched haxi, TobAxiLite.next, htake, haddr]
  rfl

variable (powerUp axiPowerUp input sched)

/-! ### The message counter -/

/-- What the counter shows at edge `e`: the segments whose last byte was accepted at least five
cycles of `pl_clk1` before. -/
def countedAt (e : ℕ) : BitVec 64 :=
  BitVec.ofNat 64 (frames (accepted input (sched.plBefore e - 4))).1.length

theorem msgCountDp_kr260Board (n : ℕ) :
    (kr260Board powerUp axiPowerUp input sched n).pl.dp.msgCountDp = countedAt input sched n := by
  rw [pl_kr260Board, dp_plDomain, msgCountDp_eq, count_endsSegment, countedAt]

theorem msgCountAxi_capture :
    Clocked.Capture sched.isAxi (countedAt input sched)
      (fun n => (kr260Board powerUp axiPowerUp input sched n).axi.msgCountAxi) := by
  intro n
  beta_reduce
  rw [← msgCountDp_kr260Board powerUp axiPowerUp]
  cases h : sched n with
  | none => rw [kr260Board_succ_pl _ _ _ _ h, Schedule.isAxi, h]; rfl
  | some m => rw [kr260Board_succ_axi _ _ _ _ h, Schedule.isAxi, h]; rfl

variable {sched} in
theorem msgCountAxi_of_last {e n : ℕ} (h : sched.LastAxi e n) :
    (kr260Board powerUp axiPowerUp input sched n).axi.msgCountAxi = countedAt input sched e :=
  (msgCountAxi_capture powerUp axiPowerUp input sched).last h.lt h.axi h.quiet

/-- What is read of the message counter. -/
structure CountsMessages : Prop where
  /-- each word is that of the count at the edge of `s_axi_aclk` before -/
  lo : ∀ e n, sched.LastAxi e n →
    AcceptsAt powerUp axiPowerUp input sched TobAxiLite.regMsgCntLo n →
    readAt powerUp axiPowerUp input sched n = (countedAt input sched e).extractLsb 31 0
  hi : ∀ e n, sched.LastAxi e n →
    AcceptsAt powerUp axiPowerUp input sched TobAxiLite.regMsgCntHi n →
    readAt powerUp axiPowerUp input sched n = (countedAt input sched e).extractLsb 63 32
  /-- behind a stream of `T` cycles both words together count its messages -/
  drained : ∀ T, (∀ c, T ≤ c → (input c).tvalid = false) → ∀ n n',
    AcceptsAt powerUp axiPowerUp input sched TobAxiLite.regMsgCntLo n →
    AcceptsAt powerUp axiPowerUp input sched TobAxiLite.regMsgCntHi n' →
    (∃ e < n, sched.isAxi e = true ∧ T + 4 ≤ sched.plBefore e) →
    (∃ e < n', sched.isAxi e = true ∧ T + 4 ≤ sched.plBefore e) →
    readAt powerUp axiPowerUp input sched n' ++ readAt powerUp axiPowerUp input sched n =
      BitVec.ofNat 64 (frames (accepted input T)).1.length

variable {powerUp axiPowerUp input sched}

/-- An edge behind another has a last one before it that is no earlier. -/
theorem Schedule.exists_lastAxi {e n : ℕ} (he : sched.isAxi e = true) (hen : e < n) :
    ∃ e', e ≤ e' ∧ sched.LastAxi e' n := by
  rcases Clocked.last_or_none (fun c => sched.isAxi c = true) n with ⟨e', hlt, haxi, hnone⟩ | hnone
  · refine ⟨e', ?_, hlt, haxi, fun c hc hcn => Bool.eq_false_of_not_eq_true (hnone c hc hcn)⟩
    exact Nat.le_of_not_lt fun h => hnone e h hen he
  · exact absurd he (hnone e hen)

/-- Nothing is accepted behind the stream. -/
theorem accepted_of_idle {T t : ℕ} (hidle : ∀ c, T ≤ c → (input c).tvalid = false) (ht : T ≤ t) :
    accepted input t = accepted input T :=
  Clocked.transferred_of_idle ht fun c hc _ => hidle c hc

theorem readAt_msgCntLo {e n : ℕ} (h : sched.LastAxi e n)
    (hread : AcceptsAt powerUp axiPowerUp input sched TobAxiLite.regMsgCntLo n) :
    readAt powerUp axiPowerUp input sched n = (countedAt input sched e).extractLsb 31 0 := by
  rw [readAt_eq hread, ← msgCountAxi_of_last powerUp axiPowerUp input h]
  rfl

theorem readAt_msgCntHi {e n : ℕ} (h : sched.LastAxi e n)
    (hread : AcceptsAt powerUp axiPowerUp input sched TobAxiLite.regMsgCntHi n) :
    readAt powerUp axiPowerUp input sched n = (countedAt input sched e).extractLsb 63 32 := by
  rw [readAt_eq hread, ← msgCountAxi_of_last powerUp axiPowerUp input h]
  rfl

/-- Behind the stream the count stands still. -/
theorem countedAt_of_idle {T e : ℕ} (hidle : ∀ c, T ≤ c → (input c).tvalid = false)
    (he : T + 4 ≤ sched.plBefore e) :
    countedAt input sched e = BitVec.ofNat 64 (frames (accepted input T)).1.length := by
  rw [countedAt, accepted_of_idle hidle (by omega)]

variable (powerUp axiPowerUp input sched)

/-- The two words of a register. -/
theorem append_halves (x : BitVec 64) : x.extractLsb 63 32 ++ x.extractLsb 31 0 = x := by
  apply BitVec.eq_of_toNat_eq
  -- as numbers: the high word times `2 ^ 32`, and the low word
  have hlt := x.isLt
  simp only [BitVec.toNat_append, BitVec.extractLsb_toNat]
  rw [← Nat.shiftLeft_add_eq_or_of_lt (by omega), Nat.shiftLeft_eq, Nat.shiftRight_eq_div_pow,
    Nat.shiftRight_eq_div_pow]
  omega

variable {powerUp axiPowerUp} in
/-- Behind the stream the two words are those of one count. -/
theorem readAt_drained {T : ℕ} (hidle : ∀ c, T ≤ c → (input c).tvalid = false) {n n' : ℕ}
    (hlo : AcceptsAt powerUp axiPowerUp input sched TobAxiLite.regMsgCntLo n)
    (hhi : AcceptsAt powerUp axiPowerUp input sched TobAxiLite.regMsgCntHi n')
    (hn : ∃ e < n, sched.isAxi e = true ∧ T + 4 ≤ sched.plBefore e)
    (hn' : ∃ e < n', sched.isAxi e = true ∧ T + 4 ≤ sched.plBefore e) :
    readAt powerUp axiPowerUp input sched n' ++ readAt powerUp axiPowerUp input sched n =
      BitVec.ofNat 64 (frames (accepted input T)).1.length := by
  obtain ⟨e, hen, he, hT⟩ := hn
  obtain ⟨e', hen', he', hT'⟩ := hn'
  -- each word is read from the count captured last before it, and both captures are behind the
  -- stream
  obtain ⟨l, hel, hl⟩ := Schedule.exists_lastAxi he hen
  obtain ⟨l', hel', hl'⟩ := Schedule.exists_lastAxi he' hen'
  rw [readAt_msgCntLo hl hlo, readAt_msgCntHi hl' hhi,
    countedAt_of_idle hidle (hT.trans (Schedule.plBefore_mono hel)),
    countedAt_of_idle hidle (hT'.trans (Schedule.plBefore_mono hel'))]
  exact append_halves _

/-- **The message counter through the bus**, for every stream and every interleaving of the
clocks. -/
theorem counts_messages : CountsMessages powerUp axiPowerUp input sched where
  lo := fun _ _ h hread => readAt_msgCntLo h hread
  hi := fun _ _ h hread => readAt_msgCntHi h hread
  drained := fun _ hidle _ _ hlo hhi hn hn' => readAt_drained input sched hidle hlo hhi hn hn'

/-! ### The status bits -/

end Board

/-- The single bits that cross. -/
inductive StatusBit
  | tobChanged
  | parseError
  | crossed
  | tobValid
  deriving DecidableEq, Repr

namespace StatusBit

/-- In the `pl_clk1` domain. -/
def sent (dp : Kr260Top) : StatusBit → Bool
  | tobChanged => dp.engine.tobChanged
  | parseError => dp.parser.outError
  | crossed => dp.engine.crossedBook
  | tobValid => dp.engine.tobValid

/-- The first flip-flop. -/
def sampled (axi : AxiDomain) : StatusBit → Bool
  | tobChanged => axi.tobChangedAxiS1
  | parseError => axi.parseErrorAxiS1
  | crossed => axi.crossedAxiS1
  | tobValid => axi.tobValidAxiS1

/-- The second one. -/
def shown (axi : AxiDomain) : StatusBit → Bool
  | tobChanged => axi.tobChangedAxi
  | parseError => axi.parseErrorAxi
  | crossed => axi.crossedAxi
  | tobValid => axi.tobValidAxi

end StatusBit

section Status

variable (powerUp : OrderBookEngine) (axiPowerUp : AxiDomain) (input : ℕ → AxisIn)
  (sched : Schedule)

theorem statusBit_twoFlop (bit : StatusBit) :
    TwoFlop sched.isAxi
      (fun n => bit.sent (kr260Board powerUp axiPowerUp input sched n).pl.dp)
      (fun n => bit.sampled (kr260Board powerUp axiPowerUp input sched n).axi)
      (fun n => bit.shown (kr260Board powerUp axiPowerUp input sched n).axi) where
  start₁ := by cases bit <;> rfl
  start₂ := by cases bit <;> rfl
  next₁ := by
    intro n
    cases h : sched n with
    | none => rw [kr260Board_succ_pl _ _ _ _ h, Schedule.isAxi, h]; rfl
    | some m => rw [kr260Board_succ_axi _ _ _ _ h, Schedule.isAxi, h]; cases bit <;> rfl
  next₂ := by
    intro n
    cases h : sched n with
    | none => rw [kr260Board_succ_pl _ _ _ _ h, Schedule.isAxi, h]; rfl
    | some m => rw [kr260Board_succ_axi _ _ _ _ h, Schedule.isAxi, h]; cases bit <;> rfl

/-- Edge `m` of `s_axi_aclk` is two edges of this clock before `n`. -/
def TwoBefore (m n : ℕ) : Prop := sched.isAxi m = true ∧ sched.axiBefore n = sched.axiBefore m + 2

/-- Edge `n` is one of `s_axi_aclk` that takes a beat for `STATUS` with bit 2 set. -/
def ClearsAt (n : ℕ) : Prop :=
  sched.isAxi n = true ∧
    (kr260Board powerUp axiPowerUp input sched n).slave.writeClearParse
      (slaveIn powerUp axiPowerUp input sched n) = true

variable {powerUp axiPowerUp input sched}

theorem not_clearsAt_iff (n : ℕ) :
    ¬ClearsAt powerUp axiPowerUp input sched n ↔
      (sched.isAxi n && (kr260Board powerUp axiPowerUp input sched n).slave.writeClearParse
        (slaveIn powerUp axiPowerUp input sched n)) = false := by
  rw [ClearsAt, ← Bool.and_eq_true, Bool.not_eq_true]

/-- A bit is shown two edges of `s_axi_aclk` late. -/
theorem shown_iff_sent (bit : StatusBit) (n : ℕ) :
    bit.shown (kr260Board powerUp axiPowerUp input sched n).axi = true ↔
      ∃ m, TwoBefore sched m n ∧
        bit.sent (kr260Board powerUp axiPowerUp input sched m).pl.dp = true := by
  refine ((statusBit_twoFlop powerUp axiPowerUp input sched bit).second_iff n).trans ?_
  exact exists_congr fun m => ⟨fun ⟨h, hsent, hcount⟩ => ⟨⟨h, hcount⟩, hsent⟩,
    fun ⟨⟨h, hcount⟩, hsent⟩ => ⟨h, hsent, hcount⟩⟩

/-- The latch on the board is set and cleared at the edges of `s_axi_aclk`. -/
theorem parseErrorLatch_kr260Board :
    Clocked.Latch
      (fun n => sched.isAxi n &&
        (kr260Board powerUp axiPowerUp input sched n).axi.parseErrorAxi)
      (fun n => sched.isAxi n && (kr260Board powerUp axiPowerUp input sched n).slave.writeClearParse
        (slaveIn powerUp axiPowerUp input sched n))
      (fun n => (kr260Board powerUp axiPowerUp input sched n).slave.parseErrorLatch) := by
  intro n
  have hmoves := congrArg TobAxiLite.parseErrorLatch (slave_moves powerUp axiPowerUp input sched n)
  beta_reduce at hmoves ⊢
  rw [hmoves]
  cases sched.isAxi n with
  | true => rfl
  | false => simp

/-- What is latched: a segment reported in a cycle with an edge of `s_axi_aclk`, unless it is
cleared from the second edge behind on. -/
theorem parseErrorLatch_iff (n : ℕ) :
    (kr260Board powerUp axiPowerUp input sched n).slave.parseErrorLatch = true ↔
      ∃ m e c, TwoBefore sched m e ∧ sched.isAxi e = true ∧ e < n ∧ sched.plBefore m = c + 4 ∧
        Reported input c ∧ ∀ b, e ≤ b → b < n → ¬ClearsAt powerUp axiPowerUp input sched b := by
  rw [parseErrorLatch_kr260Board.on_iff rfl]
  constructor
  · rintro ⟨e, hen, hset, hkeep⟩
    -- back from the edge that set the latch: two edges through the flip-flops, four cycles through
    -- the parser
    obtain ⟨haxi, hshown⟩ := Bool.and_eq_true_iff.mp hset
    obtain ⟨m, hm, hsent⟩ := (shown_iff_sent StatusBit.parseError e).mp hshown
    simp only [StatusBit.sent, parser_kr260Board] at hsent
    obtain ⟨c, hc, hreported⟩ := (outError_true_iff input _).mp hsent
    exact ⟨m, e, c, hm, haxi, hen, hc, hreported, fun b hb hbn =>
      (not_clearsAt_iff b).mpr (hkeep b hb hbn)⟩
  · rintro ⟨m, e, c, hm, haxi, hen, hc, hreported, hkeep⟩
    refine ⟨e, hen, Bool.and_eq_true_iff.mpr ⟨haxi, ?_⟩, fun b hb hbn =>
      (not_clearsAt_iff b).mp (hkeep b hb hbn)⟩
    refine (shown_iff_sent StatusBit.parseError e).mpr ⟨m, hm, ?_⟩
    simp only [StatusBit.sent, parser_kr260Board]
    exact (outError_true_iff input _).mpr ⟨c, hc, hreported⟩

variable (powerUp axiPowerUp input sched)

/-- What a read of `STATUS` at edge `n` says of the stream. -/
structure ReadsStatus (n : ℕ) : Prop where
  /-- both sides had a level, two cycles before the second last edge of `s_axi_aclk` -/
  tobValid : (readAt powerUp axiPowerUp input sched n).getLsbD 0 = true ↔
    ∃ m c, TwoBefore sched m n ∧ sched.plBefore m = c + 2 ∧
      ∀ side, ((engine powerUp input c).levels side).anyValid = true
  /-- `crossed_book` at that edge -/
  crossed : (readAt powerUp axiPowerUp input sched n).getLsbD 1 = true ↔
    ∃ m, TwoBefore sched m n ∧ (engine powerUp input (sched.plBefore m)).crossedBook = true
  /-- a segment was reported in a cycle with an edge of `s_axi_aclk`, and from the second edge
  behind it on nothing has cleared it -/
  parseError : (readAt powerUp axiPowerUp input sched n).getLsbD 2 = true ↔
    ∃ m e c, TwoBefore sched m e ∧ sched.isAxi e = true ∧ e < n ∧ sched.plBefore m = c + 4 ∧
      Reported input c ∧ ∀ b, e ≤ b → b < n → ¬ClearsAt powerUp axiPowerUp input sched b

variable {powerUp axiPowerUp input sched}

/-- The bits of `STATUS`. -/
theorem readData_status (latch error : Bool) (status : TobStatus) :
    (TobAxiLite.readData latch error status TobAxiLite.regStatus).getLsbD 0 = status.tobValid ∧
      (TobAxiLite.readData latch error status TobAxiLite.regStatus).getLsbD 1 =
        status.crossedBook ∧
      (TobAxiLite.readData latch error status TobAxiLite.regStatus).getLsbD 2 = error := by
  rw [TobAxiLite.readData, if_pos rfl]
  generalize status.crossedBook = crossed
  generalize status.tobValid = valid
  cases error <;> cases crossed <;> cases valid <;> exact ⟨rfl, rfl, rfl⟩

theorem readAt_status {n : ℕ}
    (h : AcceptsAt powerUp axiPowerUp input sched TobAxiLite.regStatus n) :
    (readAt powerUp axiPowerUp input sched n).getLsbD 0 =
        StatusBit.tobValid.shown (kr260Board powerUp axiPowerUp input sched n).axi ∧
      (readAt powerUp axiPowerUp input sched n).getLsbD 1 =
        StatusBit.crossed.shown (kr260Board powerUp axiPowerUp input sched n).axi ∧
      (readAt powerUp axiPowerUp input sched n).getLsbD 2 =
        (kr260Board powerUp axiPowerUp input sched n).slave.parseErrorLatch := by
  rw [readAt_eq h]
  exact readData_status _ _ _

/-- **The status register through the bus**, for every stream, every interleaving of the clocks
and any other traffic of the master. -/
theorem reads_status (powerUp : OrderBookEngine) (axiPowerUp : AxiDomain) (input : ℕ → AxisIn)
    (sched : Schedule) (n : ℕ)
    (h : AcceptsAt powerUp axiPowerUp input sched TobAxiLite.regStatus n) :
    ReadsStatus powerUp axiPowerUp input sched n := by
  obtain ⟨hvalid, hcrossed, herror⟩ := readAt_status h
  refine ⟨?_, ?_, ?_⟩
  · -- the engine itself shows both sides two cycles late
    rw [hvalid, shown_iff_sent]
    simp only [StatusBit.sent, engine_kr260Board, tobValid_true_iff]
    constructor
    · rintro ⟨m, hm, c, hc, hlevels⟩
      exact ⟨m, c, hm, hc, hlevels⟩
    · rintro ⟨m, c, hm, hc, hlevels⟩
      exact ⟨m, hm, c, hc, hlevels⟩
  · rw [hcrossed, shown_iff_sent]
    simp only [StatusBit.sent, engine_kr260Board]
  · rw [herror, parseErrorLatch_iff]

end Status

/-- A bid, an ask and three bytes that are no message. -/
def noisyQuotes : List Byte :=
  (Msg.add ⟨0, 1, charB, 10, 100⟩).encode ++ (Msg.add ⟨0, 2, charS, 10, 200⟩).encode ++ [0, 0, 0]

/-- The clocks alternate while the last bytes go through; then the master reads `STATUS`. -/
def readsStatusBehind : Schedule := fun n =>
  if n < 62 then none
  else if n < 86 then (if n % 2 = 0 then some default else none)
  else some { (default : AxiMasterIn) with arvalid := true, araddr := TobAxiLite.regStatus }

/-- The read returns both sides and the error, and the prices have been captured. -/
theorem reads_status_noisyQuotes :
    ReadsStatus default default (playback noisyQuotes) readsStatusBehind 86 ∧
      readAt default default (playback noisyQuotes) readsStatusBehind 86 = 5 ∧
      (kr260Board default default (playback noisyQuotes) readsStatusBehind 86).axi.bestBidPriceAxi =
        bswap64 100 :=
  ⟨reads_status default default (playback noisyQuotes) readsStatusBehind 86 (by decide +kernel),
    by decide +kernel, by decide +kernel⟩

end HftKr260
