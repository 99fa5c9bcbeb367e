import HftKr260.Rtl.AxiRead
import HftKr260.Rtl.AxiWrite

/-!
# Status events

The latches behind `TOB_CHANGED` and behind bit 2 of `STATUS` keep an event until the master
clears it. On one edge clear wins over set, and the read that clears returns the latch as it
was before the edge: an event at that very edge is neither returned nor kept.

## Main results

* `status_events_kept` — an event at an edge without a clear is there until it is cleared
* `event_at_clear_lost` — an event at the edge of a clear is lost
-/

set_option autoImplicit false

namespace HftKr260

open Foundation

section Latches

variable (input : ℕ → AxiLiteIn)

theorem tobChangedLatch_latch :
    Clocked.Latch (fun t => (input t).status.tobChanged)
      (fun t => (tobAxiLite input t).readTobChanged (input t))
      (fun t => (tobAxiLite input t).tobChangedLatch) := fun _ => rfl

theorem parseErrorLatch_latch :
    Clocked.Latch (fun t => (input t).status.parseError)
      (fun t => (tobAxiLite input t).writeClearParse (input t))
      (fun t => (tobAxiLite input t).parseErrorLatch) := fun _ => rfl

theorem readTobChanged_iff (t : ℕ) :
    (tobAxiLite input t).readTobChanged (input t) = true ↔
      AcceptsRead input TobAxiLite.regTobChanged t := by
  rw [TobAxiLite.readTobChanged, Bool.and_eq_true, beq_iff_eq, AcceptsRead]

/-- The edge that ends cycle `t` takes a beat for `STATUS` with bit 2 set. -/
def ClearsParse (t : ℕ) : Prop := (tobAxiLite input t).writeClearParse (input t) = true

instance : DecidablePred (ClearsParse input) := fun _ => inferInstanceAs (Decidable (_ = _))

/-- The data of the read accepted at the edge that ends cycle `t`. -/
def returned (t : ℕ) : BitVec 32 := (tobAxiLite input (t + 1)).rdata

variable {input}

theorem returned_eq {addr : BitVec 6} {t : ℕ} (h : AcceptsRead input addr t) :
    returned input t = mapped input t := by
  rw [returned, tobAxiLite_succ, TobAxiLite.next, h.1, mapped_eq_readData]
  rfl

/-- A read of `TOB_CHANGED` returns the latch. -/
theorem returned_tobChanged {t : ℕ} (h : AcceptsRead input TobAxiLite.regTobChanged t) :
    returned input t = 0#31 ++ BitVec.ofBool (tobAxiLite input t).tobChangedLatch := by
  rw [returned_eq h, mapped_eq_readData, h.2]
  rfl

/-- A read of `STATUS` returns the latch in bit 2. -/
theorem returned_status {t : ℕ} (h : AcceptsRead input TobAxiLite.regStatus t) :
    (returned input t).getLsbD 2 = (tobAxiLite input t).parseErrorLatch := by
  rw [returned_eq h, mapped_eq_readData, h.2, TobAxiLite.readData, if_pos rfl]
  cases (tobAxiLite input t).parseErrorLatch <;> cases (input t).status.crossedBook <;>
    cases (input t).status.tobValid <;> rfl

variable (input)

/-- What happens to the events of a run. -/
structure StatusEventsKept : Prop where
  /-- a change at an edge without a read of `TOB_CHANGED` is returned by the next read -/
  tobChanged : ∀ e e', e < e' → (input e).status.tobChanged = true →
    (∀ c, e ≤ c → c < e' → ¬AcceptsRead input TobAxiLite.regTobChanged c) →
    AcceptsRead input TobAxiLite.regTobChanged e' → returned input e' = 1
  /-- a parse error at an edge without a clear is in bit 2 until it is cleared -/
  parseError : ∀ e e', e < e' → (input e).status.parseError = true →
    (∀ c, e ≤ c → c < e' → ¬ClearsParse input c) →
    AcceptsRead input TobAxiLite.regStatus e' → (returned input e').getLsbD 2 = true
  /-- clear wins over set -/
  tobChanged_cleared : ∀ e, AcceptsRead input TobAxiLite.regTobChanged e →
    (tobAxiLite input (e + 1)).tobChangedLatch = false
  parseError_cleared : ∀ e, ClearsParse input e →
    (tobAxiLite input (e + 1)).parseErrorLatch = false

/-- **Events are kept** until they are cleared, whatever the master does. -/
theorem status_events_kept : StatusEventsKept input where
  tobChanged := by
    intro e e' hlt hevent hkeep hread
    have hlatch : (tobAxiLite input e').tobChangedLatch = true :=
      (tobChangedLatch_latch input).holds hlt hevent fun c hc hce =>
        Bool.eq_false_iff.mpr fun h => hkeep c hc hce ((readTobChanged_iff input c).mp h)
    rw [returned_tobChanged hread, hlatch]
    rfl
  parseError := by
    intro e e' hlt hevent hkeep hread
    have hlatch : (tobAxiLite input e').parseErrorLatch = true :=
      (parseErrorLatch_latch input).holds hlt hevent fun c hc hce =>
        Bool.eq_false_iff.mpr (hkeep c hc hce)
    rw [returned_status hread, hlatch]
  tobChanged_cleared := fun e hread =>
    (tobChangedLatch_latch input).cleared ((readTobChanged_iff input e).mpr hread)
  parseError_cleared := fun _ hclear => (parseErrorLatch_latch input).cleared hclear

end Latches

example : returned (axiPlayback changeThenRead) 1 = 1 := by decide

/-- A change and a parse error at the edge that accepts a read of `TOB_CHANGED` and takes a
clear of `STATUS`, then a read of each. -/
def eventsAtClear : List AxiLiteIn :=
  let addr : AxiLiteIn := { AxiLiteIn.waiting with awvalid := true }
  let read (araddr : BitVec 6) : AxiLiteIn :=
    { AxiLiteIn.waiting with arvalid := true, araddr := araddr }
  let clear : AxiLiteIn := { read TobAxiLite.regTobChanged with wvalid := true, wdata := 4 }
  let events : TobStatus := { (default : TobStatus) with tobChanged := true, parseError := true }
  [addr, { clear with awvalid := true, status := events }, clear,
    read TobAxiLite.regTobChanged, read TobAxiLite.regTobChanged,
    read TobAxiLite.regStatus, read TobAxiLite.regStatus]

/-- Neither event is returned. -/
theorem event_at_clear_lost :
    (¬∀ input, ReadMaster input → WriteMaster input →
      ∀ e e', e < e' → (input e).status.tobChanged = true →
        (∀ c, e < c → c < e' → ¬AcceptsRead input TobAxiLite.regTobChanged c) →
        AcceptsRead input TobAxiLite.regTobChanged e' → returned input e' = 1) ∧
    ¬∀ input, ReadMaster input → WriteMaster input →
      ∀ e e', e < e' → (input e).status.parseError = true →
        (∀ c, e < c → c < e' → ¬ClearsParse input c) →
        AcceptsRead input TobAxiLite.regStatus e' → (returned input e').getLsbD 2 = true := by
  have hread : ReadMaster (axiPlayback eventsAtClear) := .of_playback (by decide)
  have hwrite : WriteMaster (axiPlayback eventsAtClear) := .of_playback (by decide) (by decide)
  constructor
  · intro h
    have hquiet : ∀ c < 3, 1 < c →
        ¬AcceptsRead (axiPlayback eventsAtClear) TobAxiLite.regTobChanged c := by
      decide
    exact absurd (h _ hread hwrite 1 3 (by decide) (by decide)
      (fun c hc hc3 => hquiet c hc3 hc) (by decide)) (by decide)
  · intro h
    have hquiet : ∀ c < 5, 1 < c → ¬ClearsParse (axiPlayback eventsAtClear) c := by
      decide
    exact absurd (h _ hread hwrite 1 5 (by decide) (by decide)
      (fun c hc hc5 => hquiet c hc5 hc) (by decide)) (by decide)

end HftKr260
