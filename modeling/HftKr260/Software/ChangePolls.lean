import HftKr260.Rtl.SettledBoard

/-!
# Polls for a change

`TobAxiDriver::tob_changed_and_clear` is how a program waits for a new top of book without reading
the prices: "returns 1 if TOB changed since last call; clears the latch on read". Here the calls
go through the bus of the board. A change is what the engine announces in a cycle into which an
edge of `s_axi_aclk` falls; it is captured at the second edge behind, where it also sets the latch.
If a poll is accepted at that very edge, the change is captured and not reported.

## Main results

* `polls_say` — what polls return, and what a poll that returns nothing says of the prices
-/

set_option autoImplicit false

namespace HftKr260

open Foundation ReadProgram Clocked

section Polls

variable (powerUp : OrderBookEngine) (axiPowerUp : AxiDomain) (input : ℕ → AxisIn)
  (sched : Schedule)

/-- Edge `n` accepts the read of a poll. -/
def PollsAt (n : ℕ) : Prop := AcceptsAt powerUp axiPowerUp input sched TobAxiLite.regTobChanged n

instance : DecidablePred (PollsAt powerUp axiPowerUp input sched) :=
  fun _ => inferInstanceAs (Decidable (AcceptsAt _ _ _ _ _ _))

/-- What a poll at edge `n` returns. -/
def pollAt (n : ℕ) : Bool := (readAt powerUp axiPowerUp input sched n).getLsbD 0

/-- Edge `e` captures what the engine announced for the message that ends in cycle `c`. -/
def CapturesChange (c e : ℕ) : Prop :=
  sched.isAxi e = true ∧ ∃ m, TwoBefore sched m e ∧ sched.plBefore m = c + 5 ∧
    Announces powerUp input c

/-- What the polls of a run say. -/
structure PollsSay : Prop where
  /-- a change has been captured, and no poll was accepted at its edge or since -/
  reports : ∀ n, PollsAt powerUp axiPowerUp input sched n →
    (pollAt powerUp axiPowerUp input sched n = true ↔
      ∃ c e, CapturesChange powerUp input sched c e ∧ e < n ∧
        ∀ b, e ≤ b → b < n → ¬PollsAt powerUp axiPowerUp input sched b)
  /-- a poll that reports nothing says that prices and quantities are those of the poll before,
  unless that one met a capture -/
  unchanged : ∀ n n', n < n' → PollsAt powerUp axiPowerUp input sched n →
    ¬ClashesAt powerUp axiPowerUp input sched n → PollsAt powerUp axiPowerUp input sched n' →
    (∀ b, n < b → b < n' → ¬PollsAt powerUp axiPowerUp input sched b) →
    pollAt powerUp axiPowerUp input sched n' = false →
    ∀ e, n ≤ e → e ≤ n' →
      heldAt powerUp axiPowerUp input sched e = heldAt powerUp axiPowerUp input sched n
  /-- no change is reported twice -/
  once : ∀ n,
    Nat.count (fun b => PollsAt powerUp axiPowerUp input sched b ∧
        pollAt powerUp axiPowerUp input sched b = true) n ≤
      Nat.count (fun e => capturesAt powerUp axiPowerUp input sched e = true) n
  /-- behind the end of the stream one more poll may report, and the prices are final -/
  settles : ∀ T n n', (∀ c, T ≤ c → (input c).tvalid = false) → sched.Settled (T + 6) n → n < n' →
    PollsAt powerUp axiPowerUp input sched n → PollsAt powerUp axiPowerUp input sched n' →
    pollAt powerUp axiPowerUp input sched n' = false ∧
      heldAt powerUp axiPowerUp input sched n' = heldAt powerUp axiPowerUp input sched n

variable {powerUp axiPowerUp input sched} {n : ℕ}

theorem pollsAt_iff (n : ℕ) :
    PollsAt powerUp axiPowerUp input sched n ↔
      (readsAt powerUp axiPowerUp input sched n &&
        (slaveIn powerUp axiPowerUp input sched n).araddr == TobAxiLite.regTobChanged) = true := by
  rw [PollsAt, AcceptsAt, readsAt, Bool.and_eq_true, Bool.and_eq_true, beq_iff_eq, and_assoc]

theorem not_pollsAt_iff (n : ℕ) :
    ¬PollsAt powerUp axiPowerUp input sched n ↔
      (readsAt powerUp axiPowerUp input sched n &&
        (slaveIn powerUp axiPowerUp input sched n).araddr == TobAxiLite.regTobChanged) = false := by
  rw [pollsAt_iff, Bool.not_eq_true]

/-- A poll returns the latch. -/
theorem pollAt_eq (h : PollsAt powerUp axiPowerUp input sched n) :
    pollAt powerUp axiPowerUp input sched n =
      (kr260Board powerUp axiPowerUp input sched n).slave.tobChangedLatch := by
  rw [pollAt, readAt_eq h]
  change (0#31 ++ BitVec.ofBool _).getLsbD 0 = _
  cases (kr260Board powerUp axiPowerUp input sched n).slave.tobChangedLatch <;> rfl

theorem capturesAt_iff (e : ℕ) :
    capturesAt powerUp axiPowerUp input sched e = true ↔
      ∃ c, CapturesChange powerUp input sched c e := by
  rw [capturesAt, Bool.and_eq_true]
  constructor
  · rintro ⟨haxi, hshown⟩
    obtain ⟨m, hm, hsent⟩ := (shown_iff_sent StatusBit.tobChanged e).mp hshown
    simp only [StatusBit.sent, engine_kr260Board] at hsent
    obtain ⟨c, hc, hannounces⟩ := (tobChanged_true_iff powerUp input _).mp hsent
    exact ⟨c, haxi, m, hm, hc, hannounces⟩
  · rintro ⟨c, haxi, m, hm, hc, hannounces⟩
    refine ⟨haxi, (shown_iff_sent StatusBit.tobChanged e).mpr ⟨m, hm, ?_⟩⟩
    simp only [StatusBit.sent, engine_kr260Board]
    exact (tobChanged_true_iff powerUp input _).mpr ⟨c, hc, hannounces⟩

/-- The latch is up from a capture to the next poll. -/
theorem tobChangedLatch_iff (n : ℕ) :
    (kr260Board powerUp axiPowerUp input sched n).slave.tobChangedLatch = true ↔
      ∃ e < n, capturesAt powerUp axiPowerUp input sched e = true ∧
        ∀ b, e ≤ b → b < n → ¬PollsAt powerUp axiPowerUp input sched b := by
  rw [tobChangedLatch_kr260Board.on_iff rfl]
  simp only [not_pollsAt_iff]

theorem pollAt_iff (h : PollsAt powerUp axiPowerUp input sched n) :
    pollAt powerUp axiPowerUp input sched n = true ↔
      ∃ e < n, capturesAt powerUp axiPowerUp input sched e = true ∧
        ∀ b, e ≤ b → b < n → ¬PollsAt powerUp axiPowerUp input sched b := by
  rw [pollAt_eq h, tobChangedLatch_iff]

/-- Between two polls of which the later one reports nothing, nothing is captured. -/
theorem not_capturesAt_of_poll {n n' e : ℕ} (hclash : ¬ClashesAt powerUp axiPowerUp input sched n)
    (hn : PollsAt powerUp axiPowerUp input sched n)
    (hn' : PollsAt powerUp axiPowerUp input sched n')
    (hbetween : ∀ b, n < b → b < n' → ¬PollsAt powerUp axiPowerUp input sched b)
    (hpoll : pollAt powerUp axiPowerUp input sched n' = false) (hne : n ≤ e) (hen : e < n') :
    capturesAt powerUp axiPowerUp input sched e = false := by
  refine Bool.eq_false_iff.mpr fun hcaptures => ?_
  -- a capture at the edge of the first poll would clash, a later one would be reported
  rcases Nat.eq_or_lt_of_le hne with rfl | hlt
  · exact hclash ⟨hcaptures, hn⟩
  · have hreported := (pollAt_iff hn').mpr
      ⟨e, hen, hcaptures, fun b hb hbn => hbetween b (hlt.trans_le hb) hbn⟩
    exact Bool.false_ne_true (hpoll.symm.trans hreported)

/-- **Polls on the board**, for every stream, every interleaving of the clocks and any other
traffic of the master. -/
theorem polls_say (powerUp : OrderBookEngine) (axiPowerUp : AxiDomain) (input : ℕ → AxisIn)
    (sched : Schedule) : PollsSay powerUp axiPowerUp input sched where
  reports := by
    intro n hn
    rw [pollAt_iff hn]
    simp only [capturesAt_iff]
    constructor
    · rintro ⟨e, hen, ⟨c, hc⟩, hkeep⟩
      exact ⟨c, e, hc, hen, hkeep⟩
    · rintro ⟨c, e, hc, hen, hkeep⟩
      exact ⟨e, hen, ⟨c, hc⟩, hkeep⟩
  unchanged := by
    intro n n' _ hn hclash hn' hbetween hpoll e hne hen
    refine heldAt_capture.keeps hne fun a hna hae => ?_
    exact not_capturesAt_of_poll hclash hn hn' hbetween hpoll hna (hae.trans_le hen)
  once := by
    intro n
    -- each report clears what a capture has set
    have hlatch : Latch (capturesAt powerUp axiPowerUp input sched) _ _ :=
      tobChangedLatch_kr260Board
    refine le_trans (Nat.count_mono_left fun b _ hb => ?_)
      (Nat.le_of_add_right_le (hlatch.count_le rfl n))
    rw [Bool.and_eq_true, ← pollsAt_iff, ← pollAt_eq hb.1]
    exact hb
  settles := by
    intro T n n' hidle hsettled hlt hn hn'
    refine ⟨Bool.eq_false_iff.mpr fun hreports => ?_, heldAt_settled hidle hsettled hlt.le⟩
    obtain ⟨e, hen, hcaptures, hkeep⟩ := (pollAt_iff hn').mp hreports
    -- the capture reported is not behind the first poll, so that one has cleared it
    rcases Nat.lt_or_ge n e with hlate | hearly
    · rw [not_capturesAt_settled hidle (hsettled.mono hlate.le)] at hcaptures
      exact Bool.false_ne_true hcaptures
    · exact hkeep n hearly hlt hn

end Polls

end HftKr260
