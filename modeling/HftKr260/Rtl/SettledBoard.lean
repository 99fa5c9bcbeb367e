import HftKr260.Rtl.TobOutputs
import HftKr260.Software.BoardDriver

/-!
# The settled board

Behind the end of a stream the board comes to rest: the datapath in six cycles of `pl_clk1`, and
the crossing at the second edge of `s_axi_aclk` from then on. The registers on the bus do not
change any more, so that reads that are made one after the other are reads of one moment. Only
the two latches of the slave still move, at reads of `TOB_CHANGED` and writes of `STATUS`.

## Main results

* `status_settled` — the status inputs of the slave stand still
* `requests_settled` — what a stretch of reads returns
-/

set_option autoImplicit false

namespace HftKr260

open Foundation ReadProgram Synchroniser

/-! ### The datapath at rest -/

section AtRest

variable (powerUp : OrderBookEngine) {input : ℕ → AxisIn} {T t : ℕ}
  (hidle : ∀ c, T ≤ c → (input c).tvalid = false)
include hidle

theorem lt_of_ends {c : ℕ} (hends : EndsSegment input c) : c < T := by
  by_contra hge
  exact Bool.false_ne_true ((hidle c (Nat.le_of_not_lt hge)).symm.trans hends.1)

theorem levels_at_rest (side : Side) (ht : T + 4 ≤ t) :
    (engine powerUp input t).levels side = (engine powerUp input (T + 4)).levels side := by
  -- a message reaches the engine four cycles behind its last byte
  refine levels_of_quiet powerUp (parsedOf input) side ht (not_inValid input fun c hc _ hends => ?_)
  have hlt := lt_of_ends hidle hends
  omega

theorem tobValid_at_rest (ht : T + 6 ≤ t) :
    (engine powerUp input t).tobValid = true ↔ (engine powerUp input (T + 4)).TwoSided := by
  obtain ⟨t, rfl⟩ := Nat.exists_eq_add_of_le' (show 2 ≤ t by omega)
  have hbids : (engine powerUp input t).bids = (engine powerUp input (T + 4)).bids :=
    levels_at_rest powerUp hidle .bid (by omega)
  have hasks : (engine powerUp input t).asks = (engine powerUp input (T + 4)).asks :=
    levels_at_rest powerUp hidle .ask (by omega)
  rw [OrderBookEngine.TwoSided, ← hbids, ← hasks]
  rfl

theorem crossedBook_at_rest (ht : T + 6 ≤ t) :
    (engine powerUp input t).crossedBook = true ↔ Crosses (engine powerUp input (T + 4)) := by
  obtain ⟨t, rfl⟩ := Nat.exists_eq_add_of_le' (show 2 ≤ t by omega)
  have hbids : (engine powerUp input t).bids = (engine powerUp input (T + 4)).bids :=
    levels_at_rest powerUp hidle .bid (by omega)
  have hasks : (engine powerUp input t).asks = (engine powerUp input (T + 4)).asks :=
    levels_at_rest powerUp hidle .ask (by omega)
  rw [crossedBook_succ_succ, Crosses, Crosses, hbids, hasks]

theorem outputs_at_rest (ht : T + 6 ≤ t) :
    (engine powerUp input t).outputs = (engine powerUp input (T + 4)).scanned := by
  obtain ⟨t, rfl⟩ := Nat.exists_eq_add_of_le' (show 2 ≤ t by omega)
  -- the outputs are two cycles behind the levels, and those stand still
  have houtputs : (engine powerUp input (t + 2)).outputs = (engine powerUp input t).scanned :=
    OrderBookEngine.outputs_next_next _ _ _
  rw [houtputs]
  exact OrderBookEngine.scanned_congr fun side =>
    levels_at_rest powerUp hidle side (by omega)

theorem tobChanged_at_rest (ht : T + 6 ≤ t) : (engine powerUp input t).tobChanged = false := by
  refine Bool.eq_false_iff.mpr fun hchanged => ?_
  obtain ⟨c, rfl, hannounces⟩ := (tobChanged_true_iff powerUp input t).mp hchanged
  have hlt := lt_of_ends hidle hannounces.ends
  omega

theorem outError_at_rest (ht : T + 6 ≤ t) : (parser (framedOf input) t).outError = false := by
  refine Bool.eq_false_iff.mpr fun herror => ?_
  obtain ⟨c, rfl, hreported⟩ := (outError_true_iff input t).mp herror
  have hlt := lt_of_ends hidle hreported.ends
  omega

/-- Every bit that crosses is at rest. -/
theorem sent_at_rest (bit : StatusBit) (ht : T + 6 ≤ t) :
    bit.sent (kr260Top powerUp input t) = bit.sent (kr260Top powerUp input (T + 6)) := by
  rw [Bool.eq_iff_iff]
  cases bit with
  | tobChanged =>
    simp only [StatusBit.sent, engine_kr260Top]
    change (engine powerUp input t).tobChanged = true ↔ (engine powerUp input _).tobChanged = true
    rw [tobChanged_at_rest powerUp hidle ht, tobChanged_at_rest powerUp hidle le_rfl]
  | parseError =>
    simp only [StatusBit.sent, parser_kr260Top]
    rw [outError_at_rest hidle ht, outError_at_rest hidle le_rfl]
  | crossed =>
    simp only [StatusBit.sent, engine_kr260Top]
    exact (crossedBook_at_rest powerUp hidle ht).trans
      (crossedBook_at_rest powerUp hidle le_rfl).symm
  | tobValid =>
    simp only [StatusBit.sent, engine_kr260Top]
    exact (tobValid_at_rest powerUp hidle ht).trans (tobValid_at_rest powerUp hidle le_rfl).symm

end AtRest

/-! ### The crossing at rest -/

namespace Schedule

variable {sched : Schedule} {t n n' : ℕ}

/-- Before `n` two edges of `s_axi_aclk` have come since cycle `t` of `pl_clk1`. -/
def Settled (sched : Schedule) (t n : ℕ) : Prop :=
  ∃ m, t ≤ sched.plBefore m ∧ sched.axiBefore m + 2 ≤ sched.axiBefore n

theorem axiBefore_mono {m : ℕ} (h : m ≤ n) : sched.axiBefore m ≤ sched.axiBefore n :=
  Nat.count_monotone _ h

theorem axiBefore_succ (h : sched.isAxi n = true) :
    sched.axiBefore (n + 1) = sched.axiBefore n + 1 :=
  edgesBefore_succ_of_edge h

theorem exists_axi {j : ℕ} (h : j < sched.axiBefore n) :
    ∃ m < n, sched.isAxi m = true ∧ sched.axiBefore m = j :=
  exists_edge h

theorem Settled.mono (h : sched.Settled t n) (hn : n ≤ n') : sched.Settled t n' := by
  obtain ⟨m, hm, hcount⟩ := h
  exact ⟨m, hm, hcount.trans (axiBefore_mono hn)⟩

/-- The edge that the second flip-flops show comes late. -/
theorem Settled.le_plBefore (h : sched.Settled t n) {m : ℕ} (hm : TwoBefore sched m n) :
    t ≤ sched.plBefore m := by
  obtain ⟨m₀, hpl, hcount⟩ := h
  refine hpl.trans (plBefore_mono (Nat.le_of_not_lt fun hlt => ?_))
  -- the edge `m` would be counted before `m₀`
  have hcounted : sched.axiBefore (m + 1) ≤ sched.axiBefore m₀ := axiBefore_mono hlt
  have htwo := hm.2
  rw [axiBefore_succ hm.1] at hcounted
  omega

theorem Settled.exists_twoBefore (h : sched.Settled t n) : ∃ m < n, TwoBefore sched m n := by
  obtain ⟨m₀, -, hcount⟩ := h
  obtain ⟨m, hm, haxi, hnth⟩ :=
    exists_axi (show sched.axiBefore n - 2 < sched.axiBefore n by omega)
  exact ⟨m, hm, haxi, by omega⟩

end Schedule

section Board

variable {powerUp : OrderBookEngine} {axiPowerUp : AxiDomain} {input : ℕ → AxisIn}
  {sched : Schedule} {T n : ℕ}

theorem dp_kr260Board (n : ℕ) :
    (kr260Board powerUp axiPowerUp input sched n).pl.dp =
      kr260Top powerUp input (sched.plBefore n) := by
  rw [pl_kr260Board, dp_plDomain]

/-- The spread is captured with the prices. -/
theorem spreadAxi_capture :
    Clocked.Capture (capturesAt powerUp axiPowerUp input sched)
      (fun n => (engine powerUp input (sched.plBefore n)).spread)
      (fun n => (kr260Board powerUp axiPowerUp input sched n).axi.spreadAxi) := by
  intro n
  beta_reduce
  rw [capturesAt, ← engine_kr260Board powerUp axiPowerUp]
  cases h : sched n with
  | none => rw [kr260Board_succ_pl _ _ _ _ h, Schedule.isAxi, h]; rfl
  | some m => rw [kr260Board_succ_axi _ _ _ _ h, Schedule.isAxi, h]; rfl

section Settled

variable (hidle : ∀ c, T ≤ c → (input c).tvalid = false) (hsettled : sched.Settled (T + 6) n)
include hidle hsettled

/-- What has crossed is what is sent at rest. -/
theorem shown_settled (bit : StatusBit) :
    bit.shown (kr260Board powerUp axiPowerUp input sched n).axi =
      bit.sent (kr260Top powerUp input (T + 6)) := by
  rw [Bool.eq_iff_iff, shown_iff_sent]
  constructor
  · rintro ⟨m, hm, hsent⟩
    rwa [dp_kr260Board, sent_at_rest powerUp hidle bit (hsettled.le_plBefore hm)] at hsent
  · intro hsent
    obtain ⟨m, -, hm⟩ := hsettled.exists_twoBefore
    refine ⟨m, hm, ?_⟩
    rwa [dp_kr260Board, sent_at_rest powerUp hidle bit (hsettled.le_plBefore hm)]

theorem tobChangedAxi_settled :
    (kr260Board powerUp axiPowerUp input sched n).axi.tobChangedAxi = false := by
  have hshown : (kr260Board powerUp axiPowerUp input sched n).axi.tobChangedAxi = _ :=
    shown_settled hidle hsettled StatusBit.tobChanged
  rw [hshown, StatusBit.sent, engine_kr260Top]
  exact tobChanged_at_rest powerUp hidle le_rfl

theorem parseErrorAxi_settled :
    (kr260Board powerUp axiPowerUp input sched n).axi.parseErrorAxi = false := by
  have hshown : (kr260Board powerUp axiPowerUp input sched n).axi.parseErrorAxi = _ :=
    shown_settled hidle hsettled StatusBit.parseError
  rw [hshown, StatusBit.sent, parser_kr260Top]
  exact outError_at_rest hidle le_rfl

theorem msgCountAxi_settled :
    (kr260Board powerUp axiPowerUp input sched n).axi.msgCountAxi =
      BitVec.ofNat 64 (frames (accepted input T)).1.length := by
  obtain ⟨m, hmn, hm⟩ := hsettled.exists_twoBefore
  obtain ⟨l, hml, hl⟩ := Schedule.exists_lastAxi hm.1 hmn
  -- the last capture of the count is no earlier than the edge two before
  have hpl : T + 6 ≤ sched.plBefore l :=
    (hsettled.le_plBefore hm).trans (Schedule.plBefore_mono hml)
  rw [msgCountAxi_of_last powerUp axiPowerUp input hl, countedAt_of_idle hidle (by omega)]

theorem not_capturesAt_settled : capturesAt powerUp axiPowerUp input sched n = false := by
  rw [capturesAt, tobChangedAxi_settled hidle hsettled, Bool.and_false]

end Settled

/-! ### Reads of a settled board -/

section Reads

variable (hidle : ∀ c, T ≤ c → (input c).tvalid = false) (hsettled : sched.Settled (T + 6) n)
include hidle hsettled

variable {e : ℕ} (he : n ≤ e)
include he

theorem heldAt_settled :
    heldAt powerUp axiPowerUp input sched e = heldAt powerUp axiPowerUp input sched n :=
  heldAt_capture.keeps he fun _ hc _ => not_capturesAt_settled hidle (hsettled.mono hc)

theorem spreadAxi_settled :
    (kr260Board powerUp axiPowerUp input sched e).axi.spreadAxi =
      (kr260Board powerUp axiPowerUp input sched n).axi.spreadAxi :=
  spreadAxi_capture.keeps he fun _ hc _ => not_capturesAt_settled hidle (hsettled.mono hc)

/-- **The status inputs of the slave stand still.** -/
theorem status_settled :
    (kr260Board powerUp axiPowerUp input sched e).axi.status =
      (kr260Board powerUp axiPowerUp input sched n).axi.status := by
  have hbit (bit : StatusBit) :
      bit.shown (kr260Board powerUp axiPowerUp input sched e).axi =
        bit.shown (kr260Board powerUp axiPowerUp input sched n).axi := by
    rw [shown_settled hidle hsettled, shown_settled hidle (hsettled.mono he)]
  have hcount : (kr260Board powerUp axiPowerUp input sched e).axi.msgCountAxi =
      (kr260Board powerUp axiPowerUp input sched n).axi.msgCountAxi := by
    rw [msgCountAxi_settled hidle hsettled, msgCountAxi_settled hidle (hsettled.mono he)]
  have hheld : heldAt powerUp axiPowerUp input sched e = _ := heldAt_settled hidle hsettled he
  have hspread : (kr260Board powerUp axiPowerUp input sched e).axi.spreadAxi = _ :=
    spreadAxi_settled hidle hsettled he
  -- input by input: the four bits, the published prices and quantities, spread and count
  change TobStatus.mk (StatusBit.tobValid.shown _) (StatusBit.tobChanged.shown _)
    (StatusBit.crossed.shown _) (StatusBit.parseError.shown _)
    (heldAt powerUp axiPowerUp input sched e).bidPrice
    (heldAt powerUp axiPowerUp input sched e).bidQty
    (heldAt powerUp axiPowerUp input sched e).askPrice
    (heldAt powerUp axiPowerUp input sched e).askQty _ _ = _
  rw [hbit, hbit, hbit, hbit, hcount, hheld, hspread]
  rfl

/-- The latch stands still until it is cleared. -/
theorem parseErrorLatch_settled
    (hkeep : ∀ b, n ≤ b → b < e → ¬ClearsAt powerUp axiPowerUp input sched b) :
    (kr260Board powerUp axiPowerUp input sched e).slave.parseErrorLatch =
      (kr260Board powerUp axiPowerUp input sched n).slave.parseErrorLatch := by
  refine parseErrorLatch_kr260Board.keeps he (fun b hb _ => ?_) fun b hb hbe =>
    (not_clearsAt_iff b).mp (hkeep b hb hbe)
  rw [parseErrorAxi_settled hidle (hsettled.mono hb), Bool.and_false]

end Reads

/-- What a read of a register other than `TOB_CHANGED` returns at `n`. -/
def dataAt (powerUp : OrderBookEngine) (axiPowerUp : AxiDomain) (input : ℕ → AxisIn)
    (sched : Schedule) (n : ℕ) (addr : BitVec 6) : BitVec 32 :=
  TobAxiLite.readData false (kr260Board powerUp axiPowerUp input sched n).slave.parseErrorLatch
    (kr260Board powerUp axiPowerUp input sched n).axi.status addr

theorem readAt_eq_dataAt {addr : BitVec 6} (h : AcceptsAt powerUp axiPowerUp input sched addr n)
    (haddr : addr ≠ TobAxiLite.regTobChanged) :
    readAt powerUp axiPowerUp input sched n = dataAt powerUp axiPowerUp input sched n addr := by
  rw [readAt_eq h, dataAt, TobAxiLite.readData, TobAxiLite.readData, if_neg haddr, if_neg haddr]

/-- **A stretch of reads of a settled board** returns what the first edge of the stretch would
return, as long as nothing clears the latch of the parse error. -/
theorem requests_settled (hidle : ∀ c, T ≤ c → (input c).tvalid = false)
    (hsettled : sched.Settled (T + 6) n) {k : ℕ}
    (hkeep : ∀ b, n ≤ b → b < n + k → ¬ClearsAt powerUp axiPowerUp input sched b)
    {q : BitVec 6 × BitVec 32}
    (hq : q ∈ requests (momentsFrom powerUp axiPowerUp input sched n k))
    (haddr : q.1 ≠ TobAxiLite.regTobChanged) :
    q.2 = dataAt powerUp axiPowerUp input sched n q.1 := by
  -- the edge that has answered
  obtain ⟨m, hm, hanswered⟩ := List.mem_filterMap.mp hq
  obtain ⟨e, he, rfl⟩ := List.mem_map.mp hm
  obtain ⟨hne, hek⟩ := List.mem_range'_1.mp he
  cases hreads : readsAt powerUp axiPowerUp input sched e with
  | false => simp [momentAt, hreads] at hanswered
  | true =>
    simp only [momentAt, hreads, if_true, Option.some.injEq] at hanswered
    subst hanswered
    rw [readAt_eq_dataAt (acceptsAt_of_reads hreads) haddr, dataAt, dataAt,
      status_settled hidle hsettled hne,
      parseErrorLatch_settled hidle hsettled hne fun b hb hbe => hkeep b hb (hbe.trans hek)]

end Board

end HftKr260
