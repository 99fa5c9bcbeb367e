import HftKr260.Rtl.MarketDataParser
import HftKr260.Rtl.MsgFramer
import HftKr260.Rtl.OrderBookEngine
import Mathlib.Data.Nat.Count

/-!
# kr260_top: the datapath

The three stages wired together in the `pl_clk1` domain, with the message counter. The
framer feeds the parser, the parser's decoded message is offered to the engine and counted.

A run of the whole is a run of each stage on what the stage before put out
(`framer_kr260Top`, `parser_kr260Top`, `engine_kr260Top`).

## Main results

* `parsedValid_iff` — one decoded message a segment, four cycles behind its last byte
* `one_event_per_segment` — the same for the pulse and the message counter
-/

set_option autoImplicit false

namespace HftKr260

open Foundation

/-- The registers of the `pl_clk1` datapath. -/
structure Kr260Top where
  framer : MsgFramer
  parser : MarketDataParser
  engine : OrderBookEngine
  msgCountDp : BitVec 64

/-- The framer's output registers on the parser's input port. -/
def MsgFramer.framed (s : MsgFramer) : FramedIn where
  tdata := s.mTdata
  tvalid := s.mTvalid
  tlast := s.mTlast

/-- The parser's output registers on the engine's input port. -/
def MarketDataParser.parsed (s : MarketDataParser) : EngineIn where
  inValid := s.outValid
  inMsgType := s.outMsgType
  inSide := s.outSide
  inOrderRef := s.outOrderRef
  inQuantity := s.outQuantity
  inPrice := s.outPrice
  inTimestamp := s.outTimestamp

namespace Kr260Top

/-- Reset, from any power-up value of the engine's registers. -/
def reset (powerUp : OrderBookEngine) : Kr260Top where
  framer := .reset
  parser := .reset
  engine := powerUp.reset
  msgCountDp := 0

/-- One edge of `pl_clk1`. -/
def next (s : Kr260Top) (i : AxisIn) : Kr260Top where
  framer := s.framer.next i.tdata i.tvalid MarketDataParser.sTready
  parser := s.parser.next s.framer.framed.tdata s.framer.framed.tvalid s.framer.framed.tlast
  engine := s.engine.next s.parser.parsed
  msgCountDp := if s.parser.outValid then s.msgCountDp + 1 else s.msgCountDp

end Kr260Top

/-- The datapath from reset on. -/
def kr260Top (powerUp : OrderBookEngine) (input : ℕ → AxisIn) : ℕ → Kr260Top :=
  Clocked.run Kr260Top.next (.reset powerUp) input

/-! ### The stages of a run -/

/-- What the framer shows the parser. -/
def framedOf (input : ℕ → AxisIn) (t : ℕ) : FramedIn := (framer input t).framed

/-- What the parser shows the engine. -/
def parsedOf (input : ℕ → AxisIn) (t : ℕ) : EngineIn := (parser (framedOf input) t).parsed

section Stages

variable (powerUp : OrderBookEngine) (input : ℕ → AxisIn) (t : ℕ)

theorem framer_kr260Top : (kr260Top powerUp input t).framer = framer input t := by
  induction t with
  | zero => rfl
  | succ t ih =>
    rw [framer_succ, ← ih]
    rfl

theorem parser_kr260Top :
    (kr260Top powerUp input t).parser = parser (framedOf input) t := by
  induction t with
  | zero => rfl
  | succ t ih =>
    have hstep : (kr260Top powerUp input (t + 1)).parser =
        (kr260Top powerUp input t).parser.next (kr260Top powerUp input t).framer.framed.tdata
          (kr260Top powerUp input t).framer.framed.tvalid
          (kr260Top powerUp input t).framer.framed.tlast := rfl
    rw [hstep, ih, framer_kr260Top]
    rfl

theorem engine_kr260Top :
    (kr260Top powerUp input t).engine =
      Clocked.run OrderBookEngine.next powerUp.reset (parsedOf input) t := by
  induction t with
  | zero => rfl
  | succ t ih =>
    have hstep : (kr260Top powerUp input (t + 1)).engine =
        (kr260Top powerUp input t).engine.next (kr260Top powerUp input t).parser.parsed := rfl
    rw [hstep, ih, parser_kr260Top]
    rfl

/-- The parser receives the accepted bytes one cycle later. -/
theorem received_framedOf : received (framedOf input) (t + 1) = accepted input t :=
  Clocked.transferred_delay rfl (fun _ => MsgFramer.mTvalid_next _ _ _)
    (fun _ _ => MsgFramer.mTdata_next _ _ _) t

theorem framedOf_succ_tdata : (framedOf input (t + 1)).tdata = (input t).tdata :=
  MsgFramer.mTdata_next _ _ _

theorem framedOf_succ_tvalid : (framedOf input (t + 1)).tvalid = (input t).tvalid :=
  MsgFramer.mTvalid_next _ _ _

end Stages

/-! ### One event a segment -/

/-- In cycle `c` a byte is accepted that ends a segment. -/
def EndsSegment (input : ℕ → AxisIn) (c : ℕ) : Prop :=
  (input c).tvalid = true ∧ (frames (accepted input (c + 1))).2 = []

instance (input : ℕ → AxisIn) : DecidablePred (EndsSegment input) :=
  fun _ => inferInstanceAs (Decidable (_ ∧ _))

section Events

variable (powerUp : OrderBookEngine) (input : ℕ → AxisIn)

/-- `parsed_valid` is up four cycles behind the last byte of a segment. -/
theorem outValid_succ_iff (c : ℕ) :
    (parser (framedOf input) (c + 4)).outValid = true ↔ EndsSegment input c := by
  -- one cycle through the framer, three through the parser
  have hvalid := parser_outValid (framedOf input) (c + 1)
  have hlast : (framedOf input (c + 1)).tlast = true ↔ EndsSegment input c :=
    framer_mTlast input c
  rw [show c + 4 = c + 1 + 3 from rfl, hvalid, framedOf_succ_tvalid, Bool.and_eq_true, hlast]
  exact and_iff_right_of_imp fun hends => hends.1

theorem outValid_early {t : ℕ} (h : t < 4) : (parser (framedOf input) t).outValid = false := by
  interval_cases t <;> rfl

/-- One decoded message a segment, four cycles behind its last byte. -/
theorem parsedValid_iff (t : ℕ) :
    (kr260Top powerUp input t).parser.outValid = true ↔
      ∃ c, t = c + 4 ∧ EndsSegment input c := by
  rw [parser_kr260Top]
  constructor
  · intro hvalid
    have hlate : ¬ t < 4 := by
      intro hlt
      rw [outValid_early input hlt] at hvalid
      exact Bool.false_ne_true hvalid
    obtain ⟨c, rfl⟩ := Nat.exists_eq_add_of_le' (not_lt.mp hlate)
    exact ⟨c, rfl, (outValid_succ_iff input c).mp hvalid⟩
  · rintro ⟨c, rfl, hends⟩
    exact (outValid_succ_iff input c).mpr hends

/-- The counter counts the segments that ended at least five cycles ago. -/
theorem msgCountDp_eq (t : ℕ) :
    (kr260Top powerUp input t).msgCountDp =
      BitVec.ofNat 64 (Nat.count (EndsSegment input) (t - 4)) := by
  induction t with
  | zero => rfl
  | succ t ih =>
    have hstep : (kr260Top powerUp input (t + 1)).msgCountDp =
        if (kr260Top powerUp input t).parser.outValid then
          (kr260Top powerUp input t).msgCountDp + 1
        else (kr260Top powerUp input t).msgCountDp := rfl
    rw [hstep, ih]
    by_cases hlt : t < 4
    · -- nothing has reached the counter yet
      rw [parser_kr260Top, outValid_early input hlt, show t + 1 - 4 = t - 4 by omega]
      rfl
    · obtain ⟨c, rfl⟩ := Nat.exists_eq_add_of_le' (not_lt.mp hlt)
      rw [show c + 4 + 1 - 4 = c + 1 by omega, show c + 4 - 4 = c by omega, Nat.count_succ]
      by_cases hends : EndsSegment input c
      · rw [if_pos ((parsedValid_iff powerUp input (c + 4)).mpr ⟨c, rfl, hends⟩), if_pos hends]
        exact (BitVec.ofNat_add _ _).symm
      · rw [if_neg, if_neg hends, Nat.add_zero]
        intro hvalid
        obtain ⟨c', hc', hends'⟩ := (parsedValid_iff powerUp input (c + 4)).mp hvalid
        obtain rfl : c' = c := by omega
        exact hends hends'

end Events

/-- What one cycle does to the segmentation of the accepted bytes: it completes the open
segment, or it leaves the complete ones alone. -/
theorem frames_accepted_succ (input : ℕ → AxisIn) (c : ℕ) :
    (EndsSegment input c ∧ frames (accepted input (c + 1)) =
      ((frames (accepted input c)).1 ++ [(frames (accepted input c)).2 ++ [(input c).tdata]], [])) ∨
    (¬ EndsSegment input c ∧
      (frames (accepted input (c + 1))).1 = (frames (accepted input c)).1) := by
  cases hv : (input c).tvalid with
  | false =>
    rw [accepted_succ_of_idle hv]
    exact .inr ⟨fun hends => Bool.false_ne_true (hv.symm.trans hends.1), rfl⟩
  | true =>
    have hmore := accepted_succ_of_valid hv
    unfold EndsSegment
    rw [hmore]
    rcases Segmentation.complete_or_incomplete frameLen_pos (accepted input c)
      (input c).tdata with hc | hc
    · have hcut : frames (accepted input c ++ [(input c).tdata]) = _ :=
        Segmentation.segment_concat_of_complete frameLen_pos hc
      exact .inl ⟨⟨hv, by rw [hcut]⟩, hcut⟩
    · have hcut : frames (accepted input c ++ [(input c).tdata]) = _ :=
        Segmentation.segment_concat_of_incomplete frameLen_pos hc
      rw [hcut]
      exact .inr ⟨fun hends => absurd hends.2 (by simp), rfl⟩

/-- The segments that end in the first `t` cycles are those of the bytes accepted in them. -/
theorem count_endsSegment (input : ℕ → AxisIn) (t : ℕ) :
    Nat.count (EndsSegment input) t = (frames (accepted input t)).1.length := by
  induction t with
  | zero => rw [accepted_zero, frames_nil]; rfl
  | succ t ih =>
    rw [Nat.count_succ, ih]
    rcases frames_accepted_succ input t with ⟨hends, hcut⟩ | ⟨hends, hcut⟩
    · rw [if_pos hends, hcut, List.length_append]
      rfl
    · rw [if_neg hends, hcut, Nat.add_zero]

/-- **One decoded event a segment, none lost or invented.** `parsed_valid` is up in cycle
`t` exactly if a segment's last byte was accepted in cycle `t - 4`, and the counter shows,
modulo `2 ^ 64`, how many segments ended five or more cycles before. -/
theorem one_event_per_segment (powerUp : OrderBookEngine) (input : ℕ → AxisIn) (t : ℕ) :
    ((kr260Top powerUp input t).parser.outValid = true ↔
      ∃ c, t = c + 4 ∧ EndsSegment input c) ∧
    (kr260Top powerUp input t).msgCountDp =
      BitVec.ofNat 64 (Nat.count (fun c => EndsSegment input c) (t - 4)) ∧
    Nat.count (fun c => EndsSegment input c) (t - 4) =
      (frames (accepted input (t - 4))).1.length :=
  ⟨parsedValid_iff powerUp input t, msgCountDp_eq powerUp input t,
    count_endsSegment input (t - 4)⟩

end HftKr260
