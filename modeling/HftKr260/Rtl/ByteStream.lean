import HftKr260.Foundation.Bytes
import HftKr260.Foundation.Clocked

/-!
# Byte streams

The AXI4-Stream byte port at the head of the datapath. In a cycle without `tvalid` the
data lines may carry anything, so a schedule of a byte list is any sequence of cycles whose
accepted bytes are that list; `playback` is the schedule without gaps.
-/

set_option autoImplicit false

namespace HftKr260

open Foundation

/-- One cycle of an AXI4-Stream byte port. -/
structure AxisIn where
  tdata : Byte
  tvalid : Bool
  deriving DecidableEq, Repr

/-- The bytes a port has accepted in the first `t` cycles. -/
def accepted (input : ℕ → AxisIn) : ℕ → List Byte :=
  Clocked.transferred (fun c => (input c).tvalid) (fun c => (input c).tdata)

section Accepted

variable {input : ℕ → AxisIn} {t : ℕ}

@[simp] theorem accepted_zero : accepted input 0 = [] := rfl

theorem accepted_succ_of_valid (h : (input t).tvalid = true) :
    accepted input (t + 1) = accepted input t ++ [(input t).tdata] :=
  Clocked.transferred_succ_of_valid h

theorem accepted_succ_of_idle (h : (input t).tvalid = false) :
    accepted input (t + 1) = accepted input t :=
  Clocked.transferred_succ_of_idle h

end Accepted

/-- A byte list sent without gaps, then silence. -/
def playback (bytes : List Byte) (t : ℕ) : AxisIn :=
  match bytes[t]? with
  | some b => { tdata := b, tvalid := true }
  | none => { tdata := 0, tvalid := false }

/-- A byte list is on the wire for as many cycles as it has bytes. -/
theorem tvalid_playback_iff (bytes : List Byte) (t : ℕ) :
    (playback bytes t).tvalid = true ↔ t < bytes.length := by
  cases hb : bytes[t]? with
  | none => simp [playback, List.getElem?_eq_none_iff.mp hb]
  | some b =>
    obtain ⟨hlt, -⟩ := List.getElem?_eq_some_iff.mp hb
    simp [playback, hlt]

/-- Behind them the wire is idle. -/
theorem playback_idle (bytes : List Byte) :
    ∀ c, bytes.length ≤ c → (playback bytes c).tvalid = false := fun c hc =>
  Bool.eq_false_iff.mpr fun hvalid =>
    absurd ((tvalid_playback_iff bytes c).mp hvalid) (Nat.not_lt.mpr hc)

theorem accepted_playback (bytes : List Byte) (t : ℕ) :
    accepted (playback bytes) t = bytes.take t := by
  induction t with
  | zero => rfl
  | succ t ih =>
    cases hb : bytes[t]? with
    | none =>
      have hle : bytes.length ≤ t := List.getElem?_eq_none_iff.mp hb
      rw [accepted_succ_of_idle (by simp [playback, hb]), ih, List.take_of_length_le hle,
        List.take_of_length_le (by omega)]
    | some b =>
      have hdata : (playback bytes t).tdata = b := by simp [playback, hb]
      rw [accepted_succ_of_valid (by simp [playback, hb]), ih, hdata, List.take_add_one, hb]
      rfl

/-- Once all bytes are sent they have been accepted. -/
theorem accepted_playback_of_le {bytes : List Byte} {t : ℕ} (h : bytes.length ≤ t) :
    accepted (playback bytes) t = bytes := by
  rw [accepted_playback, List.take_of_length_le h]

end HftKr260
