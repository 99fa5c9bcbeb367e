import HftKr260.Scripts.BurstOnBoard
import HftKr260.Scripts.ReadTob
import HftKr260.Scripts.ScriptedBursts

/-!
# demo.py: the burst mode

`demo_burst` generates a burst, streams it into the board in one transfer and reads the top of
book behind it. The transfer and the pause behind it are seen from the board: the bytes of the
buffer come in some stretch of cycles, and the board has settled when it is read.

## Main results

* `demo_burst_reads` — what the burst mode gets to read
-/

set_option autoImplicit false

namespace HftKr260

namespace Demo

open Foundation ReadProgram

/-- `demo_burst` up to the transfer: the bytes in the DMA buffer of `bufLen` bytes. -/
def demoBurst {σ : Type} (R : Random σ) (seeded : σ) (nMessages bufLen : ℕ) :
    Except String (List Byte) :=
  match generateBurst R seeded nMessages with
  | none => .error "struct.error"
  | some buf =>
      if bufLen < buf.length then
        .error s!"Buffer too small: need {buf.length} bytes, have {bufLen}"
      else .ok buf

theorem demoBurst_eq_ok_iff {σ : Type} {R : Random σ} {seeded : σ} {nMessages bufLen : ℕ}
    {bytes : List Byte} :
    demoBurst R seeded nMessages bufLen = .ok bytes ↔
      generateBurst R seeded nMessages = some bytes ∧ bytes.length ≤ bufLen := by
  rw [demoBurst]
  cases generateBurst R seeded nMessages with
  | none => exact ⟨fun h => (nomatch h), fun h => (nomatch h.1)⟩
  | some buf =>
    simp only [Option.some.injEq]
    split_ifs with hlen
    · refine ⟨fun h => (nomatch h), ?_⟩
      rintro ⟨rfl, hle⟩
      exact absurd hlen (Nat.not_lt.mpr hle)
    · refine ⟨fun h => ?_, fun h => h.1 ▸ rfl⟩
      obtain rfl := Except.ok.inj h
      exact ⟨rfl, Nat.not_lt.mp hlen⟩

/-- Every cycle of `pl_clk1` up to `t` has an edge of `s_axi_aclk`. -/
def EdgeInEvery (sched : Schedule) (t : ℕ) : Prop :=
  ∀ c ≤ t, ∃ m, sched.isAxi m = true ∧ sched.plBefore m = c

/-- What is read behind the burst of `ms`. -/
structure BurstReading (powerUp : OrderBookEngine) (axiPowerUp : AxiDomain) (input : ℕ → AxisIn)
    (sched : Schedule) (n : ℕ) (ms : List Msg) (T : ℕ) (r : TobReading) : Prop where
  msgCount : r.msgCount = ms.length
  /-- Adds only are read without an error -/
  silent : (∀ m ∈ ms, IsAdd m) → r.error = false
  /-- any other burst is read with an error, if the crossing sees every cycle -/
  alarm : (∃ m ∈ ms, ¬ IsAdd m) → EdgeInEvery sched (T + 4) → r.error = true
  /-- no price of the burst is read -/
  prices : (∃ e < n, capturesAt powerUp axiPowerUp input sched e = true) →
    ∀ a, Msg.add a ∈ ms → r.bid ≠ a.price.toNat ∧ r.ask ≠ a.price.toNat

section Readings

variable {powerUp : OrderBookEngine} {axiPowerUp : AxiDomain} {input : ℕ → AxisIn}
  {sched : Schedule} {n T : ℕ} {ms : List Msg}

/-- The edge at which a bit of cycle `c` is latched, once the board has settled. -/
theorem exists_latched (hsettled : sched.Settled (T + 6) n) {m : ℕ} (hm : sched.isAxi m = true)
    (hlt : sched.plBefore m < T + 6) :
    ∃ e < n, TwoBefore sched m e ∧ sched.isAxi e = true := by
  obtain ⟨m₀, hpl, hcount⟩ := hsettled
  -- two edges of the bus clock have come since the datapath is at rest, and `m` is before that
  have hmm₀ : m < m₀ := by
    by_contra hge
    have hmono : sched.plBefore m₀ ≤ sched.plBefore m :=
      Schedule.plBefore_mono (Nat.le_of_not_lt hge)
    omega
  have hcounted : sched.axiBefore (m + 1) ≤ sched.axiBefore m₀ := Schedule.axiBefore_mono hmm₀
  rw [Schedule.axiBefore_succ hm] at hcounted
  obtain ⟨e, hen, he, hnth⟩ :=
    Schedule.exists_axi (show sched.axiBefore m + 2 < sched.axiBefore n by omega)
  exact ⟨e, hen, ⟨hm, hnth⟩, he⟩

theorem burstReading (hburst : Burst ms) (hlen : ms.length < 2 ^ 32) (hsent : SentBy ms input T)
    (hsettled : sched.Settled (T + 6) n)
    (hkeep : ∀ b < n, ¬ClearsAt powerUp axiPowerUp input sched b) :
    BurstReading powerUp axiPowerUp input sched n ms T
      (readingAt powerUp axiPowerUp input sched n) where
  msgCount := by
    have hreads : ReadsSettled powerUp axiPowerUp input sched T n _ :=
      readsSettled hsent.idle hsettled
    rw [hreads.msgCount, hsent.all, stream, (frames_encode_iff ms).mpr hburst.not_trade,
      List.length_map]
    exact Nat.mod_eq_of_lt (hlen.trans (by decide))
  silent := by
    intro hadds
    refine Bool.eq_false_iff.mpr fun herror => ?_
    obtain ⟨m, e, c, -, -, -, -, hreported, -⟩ := (parseErrorLatch_iff n).mp herror
    exact hburst.not_reported hadds (hsent.front _) hreported
  alarm := by
    intro hother hevery
    obtain ⟨c, hc, hreported⟩ := hburst.exists_reported hother hsent
    -- the report is up for one cycle, in which the crossing has an edge
    obtain ⟨m, hm, hcycle⟩ := hevery (c + 4) (by omega)
    obtain ⟨e, hen, htwo, he⟩ := exists_latched hsettled hm (by omega)
    exact (parseErrorLatch_iff n).mpr
      ⟨m, e, c, htwo, he, hen, hcycle, hreported, fun b _ hb => hkeep b hb⟩
  prices := by
    rintro ⟨e, hen, hcaptures⟩ a ha
    obtain ⟨hbid, hask⟩ := noQuote_heldAt powerUp hburst hlen hsent.front hen hcaptures
    have hquote := (hburst.quoted a ha).not_noQuote
    constructor
    · intro heq
      exact hquote (BitVec.eq_of_toNat_eq heq ▸ hbid)
    · intro heq
      exact hquote (BitVec.eq_of_toNat_eq heq ▸ hask)

end Readings

/-- **The burst mode of the demo.** Whatever random numbers are drawn, whatever gaps the transfer
leaves between the bytes and however the clocks run, what `read_tob` returns counts the messages
asked for, and shows an error or wrong prices instead of the book of the burst. -/
theorem demo_burst_reads {σ : Type} (R : Random σ) (seeded : σ) (nMessages bufLen : ℕ)
    (bytes : List Byte) (powerUp : OrderBookEngine) (axiPowerUp : AxiDomain) (input : ℕ → AxisIn)
    (sched : Schedule) (T n k : ℕ) (r : TobReading)
    (hburst : demoBurst R seeded nMessages bufLen = .ok bytes) (hfew : nMessages < 2 ^ 32)
    (hbytes : accepted input T = bytes) (hidle : ∀ c, T ≤ c → (input c).tvalid = false)
    (hsettled : sched.Settled (T + 6) n)
    (hkeep : ∀ b < n + k, ¬ClearsAt powerUp axiPowerUp input sched b)
    (hfollows : Follows readTob (requests (momentsFrom powerUp axiPowerUp input sched n k)) r) :
    ∃ ms, bytes = stream ms ∧ ms.length = nMessages ∧
      BurstReading powerUp axiPowerUp input sched n ms T r := by
  obtain ⟨hgenerated, -⟩ := demoBurst_eq_ok_iff.mp hburst
  obtain ⟨s, hloop, rfl⟩ := Option.map_eq_some_iff.mp hgenerated
  obtain ⟨ms, hsent, rfl⟩ := sent_burstLoop hloop
  refine ⟨ms, hsent.buf, rfl, ?_⟩
  have hvalue : r = readTob.answerWith (dataAt powerUp axiPowerUp input sched n) :=
    hfollows.eq_answerWith fun q hq =>
      requests_settled hidle hsettled (fun b _ hb => hkeep b hb) hq
        (hfollows.only only_readTob q hq)
  rw [hvalue, answerWith_dataAt]
  exact burstReading hsent.burst hfew ⟨hbytes.trans hsent.buf, hidle⟩ hsettled fun b hb =>
    hkeep b (hb.trans_le (Nat.le_add_right n k))

/-- Both sides are read, at prices that are none of the burst's. -/
theorem demo_burst_reads_bidAndAsk :
    ∃ ms, stream bidAndAsk = stream ms ∧ ms.length = 2 ∧
      BurstReading default quoted (playback (stream bidAndAsk)) (callBehind 58) 84 ms 60
        ⟨true, false, false, 2, 443323088319283200, 0, 1884474969077841920, 0,
          1441151880758558720⟩ := by
  have hkeep : ∀ b < 106,
      ¬ClearsAt default quoted (playback (stream bidAndAsk)) (callBehind 58) b := by
    unfold ClearsAt
    decide +kernel
  exact demo_burst_reads scripted [100, 0, 10, 0, 100, oneHalf, 10, 1] 2 64 (stream bidAndAsk)
    default quoted (playback (stream bidAndAsk)) (callBehind 58) 60 84 22 _ (by decide +kernel)
    (by decide) (sentBy_playback bidAndAsk).all (sentBy_playback bidAndAsk).idle
    ⟨80, by decide, by decide⟩ hkeep (follows_of_follow (by decide +kernel))

end Demo

end HftKr260
