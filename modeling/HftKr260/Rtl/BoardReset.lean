import HftKr260.Rtl.StatusLeds

/-!
# kr260_top: the reset

The reset pin of the board passes two flip-flops on its way to the `pl_clk1` domain. It takes
effect at once when it falls, and lets go at the second clock edge behind its rise. Registers
with an asynchronous reset are cleared when the synchronised reset falls, the first stage of the
engine at the clock edges at which it is found low.

The stream port is ready all the time, so bytes that come while the reset is held are lost.

## Main results

* `reset_restarts` — behind every reset the domain runs as from power-up
-/

set_option autoImplicit false

namespace HftKr260

open Foundation

/-- The registers with an asynchronous reset: all but those of the first stage and the
published values. -/
def OrderBookEngine.asyncReset (s : OrderBookEngine) : OrderBookEngine :=
  { s with
    bids := .cleared
    asks := .cleared
    prevBestBid := 0
    prevBestAsk := BitVec.allOnes 64
    tobChanged := false
    tobValid := false }

/-- What a falling reset clears. -/
def PlDomain.asyncReset (s : PlDomain) : PlDomain where
  dp :=
    { framer := .reset
      parser := .reset
      engine := s.dp.engine.asyncReset
      msgCountDp := 0 }
  leds := .reset

/-- The domain with the reset synchroniser and the level of the pin. -/
structure ResetDomain where
  plResetn0 : Bool
  rstNS1 : Bool
  rstNSync : Bool
  pl : PlDomain

/-- The pin takes a level, or a clock edge comes with what the stream port shows. -/
inductive ResetEvent
  | plResetn0 (level : Bool)
  | plClk1 (i : AxisIn)
  deriving DecidableEq, Repr

namespace ResetDomain

/-- What an event does. -/
def next (s : ResetDomain) : ResetEvent → ResetDomain
  | .plResetn0 level =>
      -- the falling edge
      if s.plResetn0 && !level then
        { plResetn0 := level
          rstNS1 := false
          rstNSync := false
          pl := if s.rstNSync then s.pl.asyncReset else s.pl }
      else { s with plResetn0 := level }
  | .plClk1 i =>
      let rstNSync := s.plResetn0 && s.rstNS1
      -- the edge finds the synchronised reset as it was before
      let pl := if s.rstNSync then s.pl.next i else .reset s.pl.dp.engine
      { plResetn0 := s.plResetn0
        rstNS1 := s.plResetn0
        rstNSync := rstNSync
        pl := if s.rstNSync && !rstNSync then pl.asyncReset else pl }

/-- Some events from any power-up state on. -/
def after (powerUp : ResetDomain) (events : List ResetEvent) : ResetDomain :=
  events.foldl next powerUp

theorem after_concat (powerUp : ResetDomain) (events : List ResetEvent) (e : ResetEvent) :
    powerUp.after (events ++ [e]) = (powerUp.after events).next e :=
  List.foldl_append

end ResetDomain

/-! ### What the pin asks for -/

/-- Where a run stands. -/
inductive ResetPhase
  /-- no clock edge has found the pin low yet -/
  | unknown (level : Bool)
  /-- the pin is low -/
  | held
  /-- the pin is high again, and since then these clock edges have come -/
  | released (edges : List AxisIn)
  deriving DecidableEq, Repr

namespace ResetPhase

def next : ResetPhase → ResetEvent → ResetPhase
  | unknown _, .plResetn0 level => unknown level
  | unknown true, .plClk1 _ => unknown true
  | unknown false, .plClk1 _ => held
  | held, .plResetn0 true => released []
  | held, .plResetn0 false => held
  | held, .plClk1 _ => held
  | released _, .plResetn0 false => held
  | released edges, .plResetn0 true => released edges
  | released edges, .plClk1 i => released (edges ++ [i])

/-- The phase behind some events. -/
def after (level : Bool) (events : List ResetEvent) : ResetPhase :=
  events.foldl next (unknown level)

theorem after_concat (level : Bool) (events : List ResetEvent) (e : ResetEvent) :
    after level (events ++ [e]) = (after level events).next e :=
  List.foldl_append

end ResetPhase

/-- The stream port behind the edges of a list. -/
def streamOf (edges : List AxisIn) (t : ℕ) : AxisIn := edges.getD t ⟨0, false⟩

/-- The registers with an asynchronous reset are cleared. -/
def PlDomain.Cleared (s : PlDomain) : Prop := s.asyncReset = s

theorem PlDomain.cleared_asyncReset (s : PlDomain) : s.asyncReset.Cleared := rfl

theorem PlDomain.cleared_reset (powerUp : OrderBookEngine) : (reset powerUp).Cleared := rfl

/-- The domain does what the phase asks for. -/
def ResetDomain.Obeys (s : ResetDomain) : ResetPhase → Prop
  | .unknown level => s.plResetn0 = level
  | .held => s.plResetn0 = false ∧ s.rstNS1 = false ∧ s.rstNSync = false ∧ s.pl.Cleared
  | .released [] => s.plResetn0 = true ∧ s.rstNS1 = false ∧ s.rstNSync = false ∧ s.pl.Cleared
  | .released [_] =>
      s.plResetn0 = true ∧ s.rstNS1 = true ∧ s.rstNSync = false ∧ s.pl.Cleared
  | .released (_ :: _ :: edges) =>
      s.plResetn0 = true ∧ s.rstNS1 = true ∧ s.rstNSync = true ∧
        ∃ powerUp, s.pl = plDomain powerUp (streamOf edges) edges.length

namespace ResetDomain

variable {s : ResetDomain}

/-- One clock edge more of the running domain. -/
theorem plDomain_concat (powerUp : OrderBookEngine) (edges : List AxisIn) (i : AxisIn) :
    plDomain powerUp (streamOf (edges ++ [i])) (edges ++ [i]).length =
      (plDomain powerUp (streamOf edges) edges.length).next i :=
  Clocked.run_getD_concat edges i ⟨0, false⟩

/-- A falling pin. -/
theorem obeys_fall (hpin : s.plResetn0 = true)
    (hpl : s.rstNSync = false → s.pl.Cleared) : (s.next (.plResetn0 false)).Obeys .held := by
  rw [next, hpin]
  refine ⟨rfl, rfl, rfl, ?_⟩
  cases hsync : s.rstNSync with
  | true => exact s.pl.cleared_asyncReset
  | false => exact hpl hsync

/-- A clock edge while the pin is low. -/
theorem obeys_low_edge (hpin : s.plResetn0 = false) (i : AxisIn) :
    (s.next (.plClk1 i)).Obeys .held := by
  rw [next, hpin]
  refine ⟨rfl, rfl, rfl, ?_⟩
  cases s.rstNSync with
  | true => exact PlDomain.cleared_asyncReset _
  | false => exact PlDomain.cleared_reset _

/-- What one event does to a domain that obeys. -/
theorem Obeys.next {phase : ResetPhase} (h : s.Obeys phase) (e : ResetEvent) :
    (s.next e).Obeys (phase.next e) := by
  match phase, e, h with
  | .unknown level, .plResetn0 level', h =>
    rw [ResetDomain.next]
    split_ifs <;> rfl
  | .unknown true, .plClk1 i, h => exact h
  | .unknown false, .plClk1 i, h => exact obeys_low_edge h i
  | .held, .plResetn0 true, ⟨hpin, hs1, hsync, hpl⟩ =>
    rw [ResetDomain.next, hpin]
    exact ⟨rfl, hs1, hsync, hpl⟩
  | .held, .plResetn0 false, ⟨hpin, hs1, hsync, hpl⟩ =>
    rw [ResetDomain.next, hpin]
    exact ⟨rfl, hs1, hsync, hpl⟩
  | .held, .plClk1 i, ⟨hpin, _⟩ => exact obeys_low_edge hpin i
  | .released [], .plResetn0 true, ⟨hpin, h⟩ =>
    rw [ResetDomain.next, hpin]
    exact ⟨rfl, h⟩
  | .released [_], .plResetn0 true, ⟨hpin, h⟩ =>
    rw [ResetDomain.next, hpin]
    exact ⟨rfl, h⟩
  | .released (_ :: _ :: _), .plResetn0 true, ⟨hpin, h⟩ =>
    rw [ResetDomain.next, hpin]
    exact ⟨rfl, h⟩
  | .released [], .plResetn0 false, ⟨hpin, _, _, hpl⟩ => exact obeys_fall hpin fun _ => hpl
  | .released [_], .plResetn0 false, ⟨hpin, _, _, hpl⟩ => exact obeys_fall hpin fun _ => hpl
  -- a fall in the middle of a run clears whatever the run has left
  | .released (_ :: _ :: _), .plResetn0 false, ⟨hpin, _, hsync, _⟩ =>
    refine obeys_fall hpin fun hlow => ?_
    exact absurd (hsync.symm.trans hlow) (by decide)
  | .released [], .plClk1 i, ⟨hpin, hs1, hsync, hpl⟩ =>
    rw [ResetDomain.next, hpin, hs1, hsync]
    exact ⟨rfl, rfl, rfl, PlDomain.cleared_reset _⟩
  | .released [j], .plClk1 i, ⟨hpin, hs1, hsync, hpl⟩ =>
    -- the second edge still finds the reset low
    rw [ResetDomain.next, hpin, hs1, hsync]
    exact ⟨rfl, rfl, rfl, s.pl.dp.engine, rfl⟩
  | .released (j :: j' :: edges), .plClk1 i, ⟨hpin, hs1, hsync, powerUp, hpl⟩ =>
    rw [ResetDomain.next, hpin, hs1, hsync]
    -- the run goes on with the same power-up state
    refine ⟨rfl, rfl, rfl, powerUp, ?_⟩
    have hrun := plDomain_concat powerUp edges i
    rw [← hpl] at hrun
    exact hrun.symm

theorem obeys_after (powerUp : ResetDomain) (events : List ResetEvent) :
    (powerUp.after events).Obeys (ResetPhase.after powerUp.plResetn0 events) := by
  induction events using List.reverseRecOn with
  | nil => exact rfl
  | append_singleton events e ih =>
    rw [after_concat, ResetPhase.after_concat]
    exact ih.next e

/-- **Every reset restarts the domain**, from any power-up state and however the pin moves. Once
the pin has been found low by a clock edge, the synchronised reset is high exactly from the
second clock edge behind the last rise of the pin on; until then the registers are cleared, and
from then on datapath and LEDs run as from reset on the stream of the edges that follow. -/
theorem reset_restarts (powerUp : ResetDomain) (events : List ResetEvent) :
    (powerUp.after events).Obeys (ResetPhase.after powerUp.plResetn0 events) :=
  obeys_after powerUp events

/-! ### What survives -/

theorem after_append (powerUp : ResetDomain) (events events' : List ResetEvent) :
    powerUp.after (events ++ events') = (powerUp.after events).after events' :=
  List.foldl_append

/-- The reset is held over some clock edges and released. -/
def holdReset (low : List AxisIn) : List ResetEvent :=
  .plResetn0 false :: low.map .plClk1 ++ [.plResetn0 true]

/-- In reset, with what is left of the engine's registers. -/
structure HeldWith (s : ResetDomain) (e : OrderBookEngine) : Prop where
  pin : s.plResetn0 = false
  s1 : s.rstNS1 = false
  sync : s.rstNSync = false
  engine : PlDomain.reset s.pl.dp.engine = .reset e

theorem heldWith_fall (hpin : s.plResetn0 = true) (hsync : s.rstNSync = true) :
    (s.next (.plResetn0 false)).HeldWith s.pl.dp.engine := by
  rw [next, hpin, hsync]
  exact ⟨rfl, rfl, rfl, rfl⟩

theorem HeldWith.edges {e : OrderBookEngine} (h : s.HeldWith e) (low : List AxisIn) :
    (s.after (low.map .plClk1)).HeldWith e := by
  induction low generalizing s with
  | nil => exact h
  | cons i low ih =>
    refine ih (s := s.next (.plClk1 i)) ?_
    rw [next, h.pin, h.sync]
    exact ⟨rfl, rfl, rfl, h.engine⟩

/-- The rise, and the two edges that still find the reset low. -/
theorem HeldWith.release {e : OrderBookEngine} (h : s.HeldWith e) (i j : AxisIn) :
    ((s.next (.plResetn0 true)).next (.plClk1 i)).next (.plClk1 j) =
      { plResetn0 := true, rstNS1 := true, rstNSync := true, pl := .reset e } := by
  -- the rise alone changes nothing but the pin
  have hrise : s.next (.plResetn0 true) = { s with plResetn0 := true } := by
    rw [next, h.pin]
    rfl
  -- the first edge passes the pin on to the first flip-flop
  have hfirst : (s.next (.plResetn0 true)).next (.plClk1 i) =
      { plResetn0 := true, rstNS1 := true, rstNSync := false, pl := .reset e } := by
    rw [hrise, next, h.s1, h.sync, ← h.engine]
    rfl
  rw [hfirst]
  rfl

/-- The edges of a domain that runs. -/
theorem after_edges (e : OrderBookEngine) (edges : List AxisIn) :
    (ResetDomain.mk true true true (.reset e)).after (edges.map .plClk1) =
      ⟨true, true, true, plDomain e (streamOf edges) edges.length⟩ := by
  induction edges using List.reverseRecOn with
  | nil => rfl
  | append_singleton edges i ih =>
    rw [List.map_append, after_append, ih, plDomain_concat]
    rfl

/-- Behind a reset of a running domain it runs as from power-up with the registers it had. -/
theorem pl_after_reset (hpin : s.plResetn0 = true) (hsync : s.rstNSync = true)
    (low : List AxisIn) (i j : AxisIn) (edges : List AxisIn) :
    (s.after (holdReset low ++ (i :: j :: edges).map .plClk1)).pl =
      plDomain s.pl.dp.engine (streamOf edges) edges.length := by
  have hheld := (heldWith_fall hpin hsync).edges low
  have hsplit : s.after (holdReset low ++ (i :: j :: edges).map .plClk1) =
      (((((s.next (.plResetn0 false)).after (low.map .plClk1)).next
        (.plResetn0 true)).next (.plClk1 i)).next (.plClk1 j)).after (edges.map .plClk1) := by
    rw [after_append, holdReset, after_append]
    rfl
  -- what is left of the old run is the engine's registers without a reset
  rw [hsplit, hheld.release, after_edges]

/-- **The crossed-book LED behind a reset** of a running domain, however long the reset is held:
it is on if the best prices have crossed since, and also if `crossed_book` was up when the reset
fell, whatever the new book holds. -/
theorem led2_after_reset (s : ResetDomain) (hpin : s.plResetn0 = true) (hsync : s.rstNSync = true)
    (low : List AxisIn) (i j : AxisIn) (edges : List AxisIn) :
    (s.after (holdReset low ++ (i :: j :: edges).map .plClk1)).pl.plLed 2 = true ↔
      (edges ≠ [] ∧ s.pl.dp.engine.crossedBook = true) ∨
        ∃ c, c + 2 < edges.length ∧ Crosses (engine s.pl.dp.engine (streamOf edges) c) := by
  rw [pl_after_reset hpin hsync, led2_iff, List.length_pos_iff]

/-- A domain that runs with `crossed_book` up. -/
def runningCrossed : ResetDomain where
  plResetn0 := true
  rstNS1 := true
  rstNSync := true
  pl := .reset { (default : OrderBookEngine) with crossedBook := true }

/-- The LED comes on at the third edge behind the reset, over an empty book. -/
theorem led2_after_reset_crossed :
    (runningCrossed.after
        (holdReset [] ++ [⟨0, false⟩, ⟨0, false⟩, ⟨0, false⟩].map .plClk1)).pl.plLed 2 = true ↔
      ([(⟨0, false⟩ : AxisIn)] ≠ [] ∧ runningCrossed.pl.dp.engine.crossedBook = true) ∨
        ∃ c, c + 2 < [(⟨0, false⟩ : AxisIn)].length ∧
          Crosses (engine runningCrossed.pl.dp.engine (streamOf [⟨0, false⟩]) c) :=
  led2_after_reset runningCrossed rfl rfl [] ⟨0, false⟩ ⟨0, false⟩ [⟨0, false⟩]

end ResetDomain

end HftKr260
