import HftKr260.Foundation.Clocked
import Mathlib.Data.BitVec
import Mathlib.Data.List.GetD

/-!
# tob_axi_lite

The AXI4-Lite slave that exposes the top of book as registers. The write channel takes an
address and a data beat and answers with a response; the only register a write changes is the
parse-error latch. The read channel answers with the register the address names, and a read
of `TOB_CHANGED` clears the latch behind it.

`next` is all clocked blocks. `s_axi_wstrb` is read by none of them.
-/

set_option autoImplicit false

namespace HftKr260

open Foundation

/-- The status inputs. -/
structure TobStatus where
  tobValid : Bool
  tobChanged : Bool
  crossedBook : Bool
  parseError : Bool
  bestBidPrice : BitVec 64
  bestBidQty : BitVec 32
  bestAskPrice : BitVec 64
  bestAskQty : BitVec 32
  spread : BitVec 64
  msgCount : BitVec 64
  deriving DecidableEq, Repr, Inhabited

/-- One cycle of the input ports. -/
structure AxiLiteIn where
  awaddr : BitVec 6
  awvalid : Bool
  wdata : BitVec 32
  wvalid : Bool
  bready : Bool
  araddr : BitVec 6
  arvalid : Bool
  rready : Bool
  status : TobStatus
  deriving DecidableEq, Repr, Inhabited

/-- The registers of `tob_axi_lite`. -/
structure TobAxiLite where
  awready : Bool
  wready : Bool
  bresp : BitVec 2
  bvalid : Bool
  awActive : Bool
  wrAddr : BitVec 6
  arready : Bool
  rdata : BitVec 32
  rresp : BitVec 2
  rvalid : Bool
  tobChangedLatch : Bool
  parseErrorLatch : Bool
  deriving DecidableEq, Repr

namespace TobAxiLite

def regStatus : BitVec 6 := 0x00
def regTobChanged : BitVec 6 := 0x04
def regMsgCntLo : BitVec 6 := 0x08
def regMsgCntHi : BitVec 6 := 0x0C
def regBidPriceLo : BitVec 6 := 0x10
def regBidPriceHi : BitVec 6 := 0x14
def regBidQty : BitVec 6 := 0x18
def regAskPriceLo : BitVec 6 := 0x1C
def regAskPriceHi : BitVec 6 := 0x20
def regAskQty : BitVec 6 := 0x24
def regSpreadLo : BitVec 6 := 0x28
def regSpreadHi : BitVec 6 := 0x2C

/-- The register map: what `case (s_axi_araddr)` puts on the data lines. -/
def readData (tobChangedLatch parseErrorLatch : Bool) (status : TobStatus) (araddr : BitVec 6) :
    BitVec 32 :=
  if araddr = regStatus then
    0#29 ++ BitVec.ofBool parseErrorLatch ++ BitVec.ofBool status.crossedBook ++
      BitVec.ofBool status.tobValid
  else if araddr = regTobChanged then 0#31 ++ BitVec.ofBool tobChangedLatch
  else if araddr = regMsgCntLo then status.msgCount.extractLsb 31 0
  else if araddr = regMsgCntHi then status.msgCount.extractLsb 63 32
  else if araddr = regBidPriceLo then status.bestBidPrice.extractLsb 31 0
  else if araddr = regBidPriceHi then status.bestBidPrice.extractLsb 63 32
  else if araddr = regBidQty then status.bestBidQty
  else if araddr = regAskPriceLo then status.bestAskPrice.extractLsb 31 0
  else if araddr = regAskPriceHi then status.bestAskPrice.extractLsb 63 32
  else if araddr = regAskQty then status.bestAskQty
  else if araddr = regSpreadLo then status.spread.extractLsb 31 0
  else if araddr = regSpreadHi then status.spread.extractLsb 63 32
  else 0xDEADBEEF

def reset : TobAxiLite where
  awready := false
  wready := false
  bresp := 0
  bvalid := false
  awActive := false
  wrAddr := 0
  arready := false
  rdata := 0
  rresp := 0
  rvalid := false
  tobChangedLatch := false
  parseErrorLatch := false

variable (s : TobAxiLite) (i : AxiLiteIn)

/-- An address is taken at this edge. -/
def takesAddr : Bool := i.awvalid && !s.awActive

/-- A data beat is taken at this edge. -/
def takesData : Bool := i.wvalid && s.awActive && !s.wready

/-- A read is accepted at this edge. -/
def takesRead : Bool := i.arvalid && !s.rvalid

/-- `write_clear_parse`. -/
def writeClearParse : Bool := s.takesData i && s.wrAddr == regStatus && i.wdata.getLsbD 2

/-- `read_tob_changed`. -/
def readTobChanged : Bool := s.takesRead i && i.araddr == regTobChanged

/-- The clocked blocks outside reset. -/
def next : TobAxiLite where
  -- write channel: the release at the response comes last and wins
  awready := s.takesAddr i
  wrAddr := if s.takesAddr i then i.awaddr else s.wrAddr
  awActive := if s.bvalid && i.bready then false else s.takesAddr i || s.awActive
  wready := s.takesData i
  bvalid := if s.bvalid && i.bready then false else (s.wready && !s.bvalid) || s.bvalid
  bresp := if s.wready && !s.bvalid then 0 else s.bresp
  -- read channel
  arready := s.takesRead i
  rvalid := if s.rvalid && i.rready then false else s.takesRead i || s.rvalid
  rresp := if s.takesRead i then 0 else s.rresp
  rdata :=
    if s.takesRead i then readData s.tobChangedLatch s.parseErrorLatch i.status i.araddr
    else s.rdata
  -- the latches: clear wins over set
  tobChangedLatch :=
    if s.readTobChanged i then false else i.status.tobChanged || s.tobChangedLatch
  parseErrorLatch :=
    if s.writeClearParse i then false else i.status.parseError || s.parseErrorLatch

end TobAxiLite

/-- A cycle in which the master only waits for responses. -/
def AxiLiteIn.waiting : AxiLiteIn := { (default : AxiLiteIn) with bready := true, rready := true }

/-- Some cycles of the ports, then waiting. -/
def axiPlayback (l : List AxiLiteIn) (t : ℕ) : AxiLiteIn := l.getD t .waiting

theorem axiPlayback_of_le {l : List AxiLiteIn} {t : ℕ} (h : l.length ≤ t) :
    axiPlayback l t = .waiting := List.getD_eq_default _ _ h

/-- The slave's registers from reset on. -/
def tobAxiLite (input : ℕ → AxiLiteIn) : ℕ → TobAxiLite :=
  Clocked.run TobAxiLite.next .reset input

theorem tobAxiLite_succ (input : ℕ → AxiLiteIn) (t : ℕ) :
    tobAxiLite input (t + 1) = (tobAxiLite input t).next (input t) := rfl

end HftKr260
