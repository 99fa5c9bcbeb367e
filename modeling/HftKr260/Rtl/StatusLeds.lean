import HftKr260.Foundation.Indicators
import HftKr260.Rtl.ErroredFrames
import HftKr260.Rtl.Publication

/-!
# kr260_top: the status LEDs

The block behind the four LEDs of the board, in the `pl_clk1` domain: `tob_valid` as it is,
`tob_changed` stretched by a 24-bit counter, and a latch each for `crossed_book` and
`parse_error`, which only a reset clears.

The output registers of the engine are not part of its reset. What `crossed_book` was before
the reset is there in the first cycle behind it, and latched.

## Main results

* `leds_show` — what each LED says of the stream
-/

set_option autoImplicit false

namespace HftKr260

open Foundation MarketDataParser

/-- The registers of the LED block. -/
structure StatusLeds where
  stretchCnt : BitVec 24
  led1Stretched : Bool
  crossedLatch : Bool
  errorLatch : Bool
  deriving DecidableEq, Repr, Inhabited

namespace StatusLeds

def reset : StatusLeds where
  stretchCnt := 0
  led1Stretched := false
  crossedLatch := false
  errorLatch := false

/-- The clocked block outside reset. -/
def next (s : StatusLeds) (tobChangedDp crossedDp parsedError : Bool) : StatusLeds where
  stretchCnt :=
    -- a further pulse starts the countdown again
    if tobChangedDp then 0xFFFFFF
    else if 0 < s.stretchCnt then s.stretchCnt - 1
    else s.stretchCnt
  led1Stretched :=
    if tobChangedDp then true else if 0 < s.stretchCnt then s.led1Stretched else false
  crossedLatch := if crossedDp then true else s.crossedLatch
  errorLatch := if parsedError then true else s.errorLatch

variable (s : StatusLeds) (tobChangedDp crossedDp parsedError : Bool)

theorem crossedLatch_next :
    (s.next tobChangedDp crossedDp parsedError).crossedLatch = (crossedDp || s.crossedLatch) := by
  cases crossedDp <;> rfl

theorem errorLatch_next :
    (s.next tobChangedDp crossedDp parsedError).errorLatch = (parsedError || s.errorLatch) := by
  cases parsedError <;> rfl

end StatusLeds

/-- The datapath and the LED block: the registers of `kr260_top` clocked by `pl_clk1`. -/
structure PlDomain where
  dp : Kr260Top
  leds : StatusLeds

namespace PlDomain

def reset (powerUp : OrderBookEngine) : PlDomain where
  dp := .reset powerUp
  leds := .reset

/-- One edge of `pl_clk1`, outside reset. -/
def next (s : PlDomain) (i : AxisIn) : PlDomain where
  dp := s.dp.next i
  leds := s.leds.next s.dp.engine.tobChanged s.dp.engine.crossedBook s.dp.parser.outError

/-- `pl_led_0` to `pl_led_3`. -/
def plLed (s : PlDomain) : Fin 4 → Bool
  | 0 => s.dp.engine.tobValid
  | 1 => s.leds.led1Stretched
  | 2 => s.leds.crossedLatch
  | 3 => s.leds.errorLatch

end PlDomain

/-- The domain from reset on. -/
def plDomain (powerUp : OrderBookEngine) (input : ℕ → AxisIn) : ℕ → PlDomain :=
  Clocked.run PlDomain.next (.reset powerUp) input

section Leds

variable (powerUp : OrderBookEngine) (input : ℕ → AxisIn)

/-- The LED block changes nothing of the datapath. -/
theorem dp_plDomain (t : ℕ) : (plDomain powerUp input t).dp = kr260Top powerUp input t := by
  induction t with
  | zero => rfl
  | succ t ih =>
    change (plDomain powerUp input t).dp.next (input t) = _
    rw [ih]
    rfl

theorem engine_plDomain (t : ℕ) :
    (plDomain powerUp input t).dp.engine = engine powerUp input t := by
  rw [dp_plDomain, engine_kr260Top]
  rfl

theorem parser_plDomain (t : ℕ) :
    (plDomain powerUp input t).dp.parser = parser (framedOf input) t := by
  rw [dp_plDomain, parser_kr260Top]

theorem leds_succ (t : ℕ) :
    (plDomain powerUp input (t + 1)).leds =
      (plDomain powerUp input t).leds.next (engine powerUp input t).tobChanged
        (engine powerUp input t).crossedBook (parser (framedOf input) t).outError := by
  rw [← engine_plDomain, ← parser_plDomain powerUp]
  rfl

/-! ### The stretched pulse -/

theorem toNat_pos_iff (x : BitVec 24) : 0 < x ↔ 0 < x.toNat := by
  rw [BitVec.lt_def]
  rfl

theorem toNat_sub_one {x : BitVec 24} (h : 0 < x.toNat) : (x - 1).toNat = x.toNat - 1 := by
  have hlt := x.isLt
  rw [BitVec.toNat_sub, show (1 : BitVec 24).toNat = 1 from rfl]
  omega

theorem stretch_oneShot :
    Clocked.OneShot (2 ^ 24 - 1) (fun t => (engine powerUp input t).tobChanged)
      (fun t => (plDomain powerUp input t).leds.stretchCnt.toNat)
      (fun t => (plDomain powerUp input t).leds.led1Stretched) where
  start := rfl
  next_count := by
    intro t
    rw [leds_succ, StatusLeds.next]
    cases (engine powerUp input t).tobChanged with
    -- without a pulse the counter goes down to zero and stays there
    | true => rfl
    | false =>
      simp only [Bool.false_eq_true, if_false, toNat_pos_iff]
      split_ifs with hpos
      · exact toNat_sub_one hpos
      · omega
  next := by
    intro t
    rw [leds_succ, StatusLeds.next]
    cases (engine powerUp input t).tobChanged with
    | true => rfl
    | false =>
      simp only [Bool.false_eq_true, if_false, toNat_pos_iff]
      split_ifs with hpos <;> simp [hpos]

/-! ### The latches -/

theorem crossedLatch_latch :
    Clocked.Latch (fun t => (engine powerUp input t).crossedBook) (fun _ => false)
      (fun t => (plDomain powerUp input t).leds.crossedLatch) := by
  intro t
  rw [if_neg Bool.false_ne_true, ← StatusLeds.crossedLatch_next, ← leds_succ]

theorem errorLatch_latch :
    Clocked.Latch (fun t => (parser (framedOf input) t).outError) (fun _ => false)
      (fun t => (plDomain powerUp input t).leds.errorLatch) := by
  intro t
  rw [if_neg Bool.false_ne_true, ← StatusLeds.errorLatch_next, ← leds_succ]

/-- A segment that the parser reports. -/
structure Reported (c : ℕ) : Prop where
  ends : EndsSegment input c
  error : decodeType (typeByteRead input c) = typeUnkn ∨
    (frameAt input c).length < minLength (typeByteRead input c)

/-- `parsed_error` is up four cycles behind a segment that is reported, and otherwise down. -/
theorem outError_true_iff (t : ℕ) :
    (parser (framedOf input) t).outError = true ↔ ∃ c, t = c + 4 ∧ Reported input c := by
  constructor
  · intro herror
    -- without a pulse the flag is cleared
    have hvalid : (parser (framedOf input) t).outValid = true := by
      cases t with
      | zero => exact absurd herror Bool.false_ne_true
      | succ t =>
        by_contra hidle
        have hp2 : (parser (framedOf input) t).p2Valid = false := Bool.eq_false_of_not_eq_true hidle
        rw [parser_succ, MarketDataParser.next, hp2] at herror
        exact absurd herror Bool.false_ne_true
    obtain ⟨c, rfl, hends⟩ := (inValid_iff input t).mp hvalid
    exact ⟨c, rfl, hends, (outError_iff input hends).mp herror⟩
  · rintro ⟨c, rfl, hends, herror⟩
    exact (outError_iff input hends).mpr herror

/-- The best prices the scan finds cross. -/
def Crosses (s : OrderBookEngine) : Prop :=
  (s.bids.anyValid && s.asks.anyValid) = true ∧ s.asks.bestAskCombo ≤ s.bids.bestBidCombo

theorem crossedBook_succ_succ (t : ℕ) :
    (engine powerUp input (t + 2)).crossedBook = true ↔ Crosses (engine powerUp input t) := by
  change (_ && decide _) = true ↔ _
  rw [Bool.and_eq_true, decide_eq_true_iff]
  rfl

/-- `crossed_book` behind the reset. -/
theorem crossedBook_true_iff (t : ℕ) :
    (engine powerUp input t).crossedBook = true ↔
      (t = 0 ∧ powerUp.crossedBook = true) ∨ ∃ c, t = c + 2 ∧ Crosses (engine powerUp input c) := by
  match t with
  | 0 =>
    refine ⟨fun h => .inl ⟨rfl, h⟩, ?_⟩
    rintro (⟨-, h⟩ | ⟨c, hc, -⟩)
    · exact h
    · exact absurd hc (Nat.succ_ne_zero _).symm
  | 1 =>
    -- the output register takes what the reset has left in the pipeline
    have hdown : (engine powerUp input 1).crossedBook = false := rfl
    rw [hdown]
    refine ⟨fun h => absurd h Bool.false_ne_true, ?_⟩
    rintro (⟨h, -⟩ | ⟨c, hc, -⟩)
    · exact absurd h Nat.one_ne_zero
    · omega
  | t + 2 =>
    rw [crossedBook_succ_succ]
    constructor
    · exact fun h => .inr ⟨t, rfl, h⟩
    · rintro (⟨h, -⟩ | ⟨c, hc, h⟩)
      · exact absurd h (Nat.succ_ne_zero _)
      · obtain rfl : t = c := by omega
        exact h

/-- What the LEDs say in cycle `t`. -/
structure LedsShow (t : ℕ) : Prop where
  /-- both sides had a level two cycles ago -/
  led0 : (plDomain powerUp input t).plLed 0 = true ↔
    ∃ c, t = c + 2 ∧ ∀ side, ((engine powerUp input c).levels side).anyValid = true
  /-- a message announced a change at most `2 ^ 24` cycles ago, counted from the pulse -/
  led1 : (plDomain powerUp input t).plLed 1 = true ↔
    ∃ c, c + 5 < t ∧ t ≤ c + 5 + 2 ^ 24 ∧ Announces powerUp input c
  /-- the best prices crossed at some time, or before the reset -/
  led2 : (plDomain powerUp input t).plLed 2 = true ↔
    (0 < t ∧ powerUp.crossedBook = true) ∨ ∃ c, c + 2 < t ∧ Crosses (engine powerUp input c)
  /-- a segment was reported -/
  led3 : (plDomain powerUp input t).plLed 3 = true ↔ ∃ c, c + 4 < t ∧ Reported input c

theorem tobValid_true_iff (t : ℕ) :
    (engine powerUp input t).tobValid = true ↔
      ∃ c, t = c + 2 ∧ ∀ side, ((engine powerUp input c).levels side).anyValid = true := by
  match t with
  | 0 =>
    refine ⟨fun h => absurd h Bool.false_ne_true, ?_⟩
    rintro ⟨c, hc, -⟩
    exact absurd hc (Nat.succ_ne_zero _).symm
  | 1 =>
    refine ⟨fun h => absurd h Bool.false_ne_true, ?_⟩
    rintro ⟨c, hc, -⟩
    omega
  | t + 2 =>
    have hboth := ((engine powerUp input t).next_next_outputs (parsedOf input t)
      (parsedOf input (t + 1))).1
    refine hboth.trans ⟨fun h => ⟨t, rfl, h⟩, ?_⟩
    rintro ⟨c, hc, h⟩
    obtain rfl : t = c := by omega
    exact h

theorem led0_iff (t : ℕ) :
    (plDomain powerUp input t).plLed 0 = true ↔
      ∃ c, t = c + 2 ∧ ∀ side, ((engine powerUp input c).levels side).anyValid = true := by
  change (plDomain powerUp input t).dp.engine.tobValid = true ↔ _
  rw [engine_plDomain]
  exact tobValid_true_iff powerUp input t

theorem led1_iff (t : ℕ) :
    (plDomain powerUp input t).plLed 1 = true ↔
      ∃ c, c + 5 < t ∧ t ≤ c + 5 + 2 ^ 24 ∧ Announces powerUp input c := by
  -- the pulse is five cycles behind the byte that ends the message
  refine ((stretch_oneShot powerUp input).on_iff t).trans ?_
  constructor
  · rintro ⟨s, hs, ht, hchanged⟩
    obtain ⟨c, rfl, hannounces⟩ := (tobChanged_true_iff powerUp input s).mp hchanged
    exact ⟨c, hs, by omega, hannounces⟩
  · rintro ⟨c, hc, ht, hannounces⟩
    exact ⟨c + 5, hc, by omega, (tobChanged_true_iff powerUp input _).mpr ⟨c, rfl, hannounces⟩⟩

theorem led2_iff (t : ℕ) :
    (plDomain powerUp input t).plLed 2 = true ↔
      (0 < t ∧ powerUp.crossedBook = true) ∨
        ∃ c, c + 2 < t ∧ Crosses (engine powerUp input c) := by
  refine ((crossedLatch_latch powerUp input).sticky_iff rfl t).trans ?_
  simp only [crossedBook_true_iff]
  constructor
  · rintro ⟨s, hs, ⟨rfl, hup⟩ | ⟨c, rfl, hcrosses⟩⟩
    · -- the output register has no reset, so power-up can set the latch
      exact .inl ⟨hs, hup⟩
    · exact .inr ⟨c, hs, hcrosses⟩
  · rintro (⟨ht, hup⟩ | ⟨c, hc, hcrosses⟩)
    · exact ⟨0, ht, .inl ⟨rfl, hup⟩⟩
    · exact ⟨c + 2, hc, .inr ⟨c, rfl, hcrosses⟩⟩

theorem led3_iff (t : ℕ) :
    (plDomain powerUp input t).plLed 3 = true ↔ ∃ c, c + 4 < t ∧ Reported input c := by
  refine ((errorLatch_latch powerUp input).sticky_iff rfl t).trans ?_
  simp only [outError_true_iff]
  constructor
  · rintro ⟨s, hs, c, rfl, hreported⟩
    exact ⟨c, hs, hreported⟩
  · rintro ⟨c, hc, hreported⟩
    exact ⟨c + 4, hc, c, rfl, hreported⟩

/-- **The status LEDs**, for every byte stream. -/
theorem leds_show (t : ℕ) : LedsShow powerUp input t where
  led0 := led0_iff powerUp input t
  led1 := led1_iff powerUp input t
  led2 := led2_iff powerUp input t
  led3 := led3_iff powerUp input t

end Leds

end HftKr260
