import HftKr260.Foundation.Synchroniser
import HftKr260.Rtl.Kr260Top
import HftKr260.Rtl.TobAxiLite

/-!
# kr260_top: the clock-domain crossing

The registers of `kr260_top` in the `s_axi_aclk` domain. Four single bits of the datapath are
carried over by two flip-flops each; the prices, quantities and spread are captured at the
edges at which the carried `tob_changed` is up, the message counter at every edge.

The pulses of the datapath last one `pl_clk1` cycle, the flip-flops look at them at the edges of
the other clock only.

## Main results

* `presented_iff` — what three edges of `s_axi_aclk` show of a pulse
* `pulses_presented_iff` — the runs in which no pulse is missed
-/

set_option autoImplicit false

namespace HftKr260

open Foundation

/-- The registers in the `s_axi_aclk` domain. -/
structure AxiDomain where
  tobChangedAxiS1 : Bool
  tobChangedAxi : Bool
  parseErrorAxiS1 : Bool
  parseErrorAxi : Bool
  crossedAxiS1 : Bool
  crossedAxi : Bool
  tobValidAxiS1 : Bool
  tobValidAxi : Bool
  bestBidPriceAxi : BitVec 64
  bestBidQtyAxi : BitVec 32
  bestAskPriceAxi : BitVec 64
  bestAskQtyAxi : BitVec 32
  spreadAxi : BitVec 64
  msgCountAxi : BitVec 64
  deriving DecidableEq, Repr, Inhabited

namespace AxiDomain

/-- Reset. The captured registers are not part of it. -/
def reset (s : AxiDomain) : AxiDomain :=
  { s with
    tobChangedAxiS1 := false
    tobChangedAxi := false
    parseErrorAxiS1 := false
    parseErrorAxi := false
    crossedAxiS1 := false
    crossedAxi := false
    tobValidAxiS1 := false
    tobValidAxi := false }

/-- One edge of `s_axi_aclk`, outside reset. -/
def next (s : AxiDomain) (dp : Kr260Top) : AxiDomain where
  tobChangedAxi := s.tobChangedAxiS1
  tobChangedAxiS1 := dp.engine.tobChanged
  parseErrorAxi := s.parseErrorAxiS1
  parseErrorAxiS1 := dp.parser.outError
  crossedAxi := s.crossedAxiS1
  crossedAxiS1 := dp.engine.crossedBook
  tobValidAxi := s.tobValidAxiS1
  tobValidAxiS1 := dp.engine.tobValid
  bestBidPriceAxi := if s.tobChangedAxi then dp.engine.bestBidPrice else s.bestBidPriceAxi
  bestBidQtyAxi := if s.tobChangedAxi then dp.engine.bestBidQty else s.bestBidQtyAxi
  bestAskPriceAxi := if s.tobChangedAxi then dp.engine.bestAskPrice else s.bestAskPriceAxi
  bestAskQtyAxi := if s.tobChangedAxi then dp.engine.bestAskQty else s.bestAskQtyAxi
  spreadAxi := if s.tobChangedAxi then dp.engine.spread else s.spreadAxi
  msgCountAxi := dp.msgCountDp

end AxiDomain

/-- Both clock domains. -/
structure TwoDomains where
  dp : Kr260Top
  axi : AxiDomain

/-- An edge of one of the clocks; one of `pl_clk1` comes with what the stream port shows. -/
inductive ClockEdge
  | plClk1 (i : AxisIn)
  | sAxiAclk
  deriving DecidableEq, Repr

def ClockEdge.isAxi : ClockEdge → Bool
  | plClk1 _ => false
  | sAxiAclk => true

namespace TwoDomains

def reset (powerUp : OrderBookEngine) (axiPowerUp : AxiDomain) : TwoDomains where
  dp := .reset powerUp
  axi := axiPowerUp.reset

def next (s : TwoDomains) : ClockEdge → TwoDomains
  | .plClk1 i => { s with dp := s.dp.next i }
  | .sAxiAclk => { s with axi := s.axi.next s.dp }

end TwoDomains

/-- The registers before each edge, when the edges come in this order. -/
def twoDomains (powerUp : OrderBookEngine) (axiPowerUp : AxiDomain) (edges : ℕ → ClockEdge) :
    ℕ → TwoDomains :=
  Clocked.run TwoDomains.next (.reset powerUp axiPowerUp) edges

/-- The one-cycle pulses that cross. -/
inductive Pulse
  | tobChanged
  | parseError
  deriving DecidableEq, Repr

namespace Pulse

/-- `tob_changed_dp` and `parsed_error`. -/
def raised (dp : Kr260Top) : Pulse → Bool
  | tobChanged => dp.engine.tobChanged
  | parseError => dp.parser.outError

/-- The first flip-flop. -/
def sampled (axi : AxiDomain) : Pulse → Bool
  | tobChanged => axi.tobChangedAxiS1
  | parseError => axi.parseErrorAxiS1

/-- `tob_changed_axi` and `parse_error_axi`. -/
def shown (axi : AxiDomain) : Pulse → Bool
  | tobChanged => axi.tobChangedAxi
  | parseError => axi.parseErrorAxi

end Pulse

section Crossing

variable (powerUp : OrderBookEngine) (axiPowerUp : AxiDomain) (edges : ℕ → ClockEdge)

/-- A `pl_clk1` cycle starts before edge `n`. -/
def StartsCycle (n : ℕ) : Prop := n = 0 ∨ ∃ t i, n = t + 1 ∧ edges t = .plClk1 i

/-- The edges of `s_axi_aclk` before edge `n`. -/
def axiEdges (n : ℕ) : ℕ := Synchroniser.edgesBefore (fun t => (edges t).isAxi) n

/-- Each pulse crosses through its own pair of flip-flops. -/
theorem pulse_twoFlop (p : Pulse) :
    Synchroniser.TwoFlop (fun t => (edges t).isAxi)
      (fun t => p.raised (twoDomains powerUp axiPowerUp edges t).dp)
      (fun t => p.sampled (twoDomains powerUp axiPowerUp edges t).axi)
      (fun t => p.shown (twoDomains powerUp axiPowerUp edges t).axi) where
  start₁ := by cases p <;> rfl
  start₂ := by cases p <;> rfl
  next₁ := by
    intro t
    change p.sampled ((twoDomains powerUp axiPowerUp edges t).next (edges t)).axi = _
    cases edges t <;> cases p <;> rfl
  next₂ := by
    intro t
    change p.shown ((twoDomains powerUp axiPowerUp edges t).next (edges t)).axi = _
    cases edges t <;> cases p <;> rfl

/-- One of the first three `s_axi_aclk` edges from edge `n` on shows the pulse, when three of
them come before edge `N`. -/
def Presented (p : Pulse) (n N : ℕ) : Prop :=
  ∃ e, n ≤ e ∧ e < N ∧ edges e = .sAxiAclk ∧
    p.shown (twoDomains powerUp axiPowerUp edges e).axi = true

/-- The pulse is up at the first `s_axi_aclk` edge from edge `n` on, or at one of the last two
before it. -/
def UpAround (p : Pulse) (n : ℕ) : Prop :=
  ∃ m, edges m = .sAxiAclk ∧ p.raised (twoDomains powerUp axiPowerUp edges m).dp = true ∧
    axiEdges edges m ≤ axiEdges edges n ∧ axiEdges edges n ≤ axiEdges edges m + 2

/-- Every cycle of a pulse is presented by three `s_axi_aclk` edges from its start on. -/
def PulsesPresented : Prop :=
  ∀ (p : Pulse) (n N : ℕ), StartsCycle edges n →
    p.raised (twoDomains powerUp axiPowerUp edges n).dp = true →
    axiEdges edges N = axiEdges edges n + 3 → Presented powerUp axiPowerUp edges p n N

variable {edges}

theorem isAxi_iff (e : ClockEdge) : e.isAxi = true ↔ e = .sAxiAclk := by
  cases e with
  | plClk1 i => exact ⟨fun h => absurd h Bool.false_ne_true, fun h => nomatch h⟩
  | sAxiAclk => exact ⟨fun _ => rfl, fun _ => rfl⟩

/-- What three edges show of a pulse. -/
theorem presented_iff (p : Pulse) {n N : ℕ} (hthree : axiEdges edges N = axiEdges edges n + 3) :
    Presented powerUp axiPowerUp edges p n N ↔ UpAround powerUp axiPowerUp edges p n := by
  have hshown := (pulse_twoFlop powerUp axiPowerUp edges p).shown_iff hthree
  simp only [isAxi_iff] at hshown
  exact hshown

variable (edges)

/-- **Pulses across the clock domains.** Every cycle of a pulse is presented exactly if each is
up at the first `s_axi_aclk` edge from its start on, or the same signal was at one of the last
two before. -/
theorem pulses_presented_iff :
    PulsesPresented powerUp axiPowerUp edges ↔
      ∀ (p : Pulse) (n N : ℕ), StartsCycle edges n →
        p.raised (twoDomains powerUp axiPowerUp edges n).dp = true →
        axiEdges edges N = axiEdges edges n + 3 → UpAround powerUp axiPowerUp edges p n := by
  refine forall_congr' fun p => forall_congr' fun n => forall_congr' fun N => ?_
  exact forall_congr' fun _ => forall_congr' fun _ => forall_congr' fun hthree =>
    presented_iff powerUp axiPowerUp p hthree

/-- No pulse is missed when each of its cycles has an edge of `s_axi_aclk`. -/
theorem pulses_presented_of_edge_in_cycle
    (h : ∀ (p : Pulse) (n : ℕ), StartsCycle edges n →
      p.raised (twoDomains powerUp axiPowerUp edges n).dp = true → edges n = .sAxiAclk) :
    PulsesPresented powerUp axiPowerUp edges := by
  intro p n N hstart hraised hthree
  refine (presented_iff powerUp axiPowerUp p hthree).mpr ?_
  exact ⟨n, h p n hstart hraised, hraised, Nat.le_refl _, Nat.le_add_right _ 2⟩

end Crossing

/-- An Add, then after two idle cycles a byte that starts no message, then `s_axi_aclk` only. -/
def slowAxi : List ClockEdge :=
  let byte (b : Byte) : ClockEdge := .plClk1 ⟨b, true⟩
  let idle : ClockEdge := .plClk1 ⟨0, false⟩
  byte 0x41 :: List.replicate 29 (byte 1) ++ [idle, idle, byte 0x58] ++ List.replicate 6 idle

/-- The new best price is pulsed in the cycle from edge 37 on and never presented. -/
theorem slowAxi_misses_pulse :
    ¬∀ powerUp axiPowerUp edges, PulsesPresented powerUp axiPowerUp edges := by
  intro h
  have hlost : ∀ e < 42, 37 ≤ e →
      (twoDomains default default (fun t => slowAxi.getD t .sAxiAclk) e).axi.tobChangedAxi =
        false := by
    decide +kernel
  obtain ⟨e, hstart, hend, -, hshown⟩ :=
    h default default (fun t => slowAxi.getD t .sAxiAclk) .tobChanged 37 42
      (.inr ⟨36, ⟨0, false⟩, rfl, rfl⟩) (by decide +kernel) (by decide +kernel)
  exact Bool.false_ne_true ((hlost e hend hstart).symm.trans hshown)

end HftKr260
