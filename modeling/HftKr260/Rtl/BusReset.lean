import HftKr260.Foundation.AsyncReset
import HftKr260.Rtl.BoardReset
import HftKr260.Rtl.Kr260Board

/-!
# kr260_top: both resets

The `s_axi_aclk` domain has a reset pin of its own, which takes effect at once in both directions.
It clears the flip-flops of the crossing and the slave, but neither the captured prices,
quantities and spread nor the count, which have no reset. So the two domains restart on their own:
a reset of the bus leaves the book alone, and a reset of the book leaves its old prices on the bus.

## Main results

* `resets_separate` — the board under any movements of both reset pins
-/

set_option autoImplicit false

namespace HftKr260

open Foundation AsyncReset Synchroniser

/-- The registers clocked by `s_axi_aclk`. -/
structure BusDomain where
  axi : AxiDomain
  slave : TobAxiLite

namespace BusDomain

/-- What a falling reset clears. -/
def asyncReset (s : BusDomain) : BusDomain where
  axi := s.axi.reset
  slave := .reset

/-- One edge of `s_axi_aclk` outside reset, with the datapath it finds and the ports. -/
def next (s : BusDomain) (q : Kr260Top × AxiMasterIn) : BusDomain where
  axi := s.axi.next q.1
  slave := s.slave.next (q.2.withStatus s.axi.status)

/-- The registers without a reset: prices and spread, and the quantities. -/
def captured (s : BusDomain) : TopPrices × BitVec 32 × BitVec 32 :=
  (s.axi.published, s.axi.bestBidQtyAxi, s.axi.bestAskQtyAxi)

end BusDomain

/-- What the engine shows a capture. -/
def OrderBookEngine.offered (s : OrderBookEngine) : TopPrices × BitVec 32 × BitVec 32 :=
  (s.outputs, s.bestBidQty, s.bestAskQty)

/-- The board with both reset pins. -/
structure PinnedBoard where
  pl : ResetDomain
  bus : Pinned BusDomain

/-- A reset pin takes a level, or an edge of one of the clocks comes. -/
inductive PinnedEvent
  | plResetn0 (level : Bool)
  | sAxiAresetn (level : Bool)
  | plClk1 (i : AxisIn)
  | sAxiAclk (m : AxiMasterIn)
  deriving DecidableEq, Repr

namespace PinnedBoard

def next (s : PinnedBoard) : PinnedEvent → PinnedBoard
  | .plResetn0 level => { s with pl := s.pl.next (.plResetn0 level) }
  | .plClk1 i => { s with pl := s.pl.next (.plClk1 i) }
  | .sAxiAresetn level =>
      { s with bus := s.bus.next BusDomain.asyncReset BusDomain.next (.pin level) }
  -- in reset the captured registers and the count are clocked all the same
  | .sAxiAclk m =>
      { s with bus := s.bus.next BusDomain.asyncReset BusDomain.next (.edge (s.pl.pl.dp, m)) }

/-- Some events from any power-up state on. -/
def after (powerUp : PinnedBoard) (events : List PinnedEvent) : PinnedBoard :=
  events.foldl next powerUp

/-! ### Each domain for itself -/

/-- What an event is to the datapath. -/
def plEvent : PinnedEvent → Option ResetEvent
  | .plResetn0 level => some (.plResetn0 level)
  | .plClk1 i => some (.plClk1 i)
  | _ => none

/-- What an event is to the bus. -/
def busEvent (s : PinnedBoard) : PinnedEvent → Option (Event (Kr260Top × AxiMasterIn))
  | .sAxiAresetn level => some (.pin level)
  | .sAxiAclk m => some (.edge (s.pl.pl.dp, m))
  | _ => none

/-- The events of the bus, each with the datapath it finds. -/
def busEvents (s : PinnedBoard) : List PinnedEvent → List (Event (Kr260Top × AxiMasterIn))
  | [] => []
  | e :: events => (s.busEvent e).toList ++ (s.next e).busEvents events

theorem pl_after (powerUp : PinnedBoard) (events : List PinnedEvent) :
    (powerUp.after events).pl = powerUp.pl.after (events.filterMap plEvent) := by
  induction events generalizing powerUp with
  | nil => rfl
  | cons e events ih =>
    change ((powerUp.next e).after events).pl = _
    rw [ih, List.filterMap_cons]
    cases e <;> rfl

theorem bus_after (powerUp : PinnedBoard) (events : List PinnedEvent) :
    (powerUp.after events).bus =
      powerUp.bus.after BusDomain.asyncReset BusDomain.next (powerUp.busEvents events) := by
  induction events generalizing powerUp with
  | nil => rfl
  | cons e events ih =>
    change ((powerUp.next e).after events).bus = _
    rw [ih, busEvents]
    cases e <;> rfl

/-- Without the pins. -/
def board (s : PinnedBoard) : Kr260Board where
  pl := s.pl.pl
  axi := s.bus.core.axi
  slave := s.bus.core.slave

/-- Where the bus stands. -/
def busPhase (powerUp : PinnedBoard) (events : List PinnedEvent) :
    Phase (Kr260Top × AxiMasterIn) := Phase.after powerUp.bus.pin (powerUp.busEvents events)

end PinnedBoard

/-! ### A run of the bus -/

namespace BusDomain

variable {start : BusDomain} {edges : List (Kr260Top × AxiMasterIn)}

theorem asyncReset_asyncReset (s : BusDomain) : s.asyncReset.asyncReset = s.asyncReset := rfl

/-- The first flip-flops hold what the last edge found, the second ones what the edge before it
did. -/
theorem bits_of_run (hstart : start.asyncReset = start) (bit : StatusBit)
    (edges : List (Kr260Top × AxiMasterIn)) :
    bit.sampled (edges.foldl next start).axi = edges.getLast?.any (fun q => bit.sent q.1) ∧
      bit.shown (edges.foldl next start).axi =
        edges.dropLast.getLast?.any (fun q => bit.sent q.1) := by
  induction edges using List.reverseRecOn with
  | nil =>
    rw [List.foldl_nil, ← hstart]
    cases bit <;> exact ⟨rfl, rfl⟩
  | append_singleton edges q ih =>
    rw [List.foldl_append, List.foldl_cons, List.foldl_nil, List.getLast?_concat,
      List.dropLast_concat, ← ih.1]
    cases bit <;> exact ⟨rfl, rfl⟩

theorem shown_eq_false_of_run (hstart : start.asyncReset = start) (bit : StatusBit)
    (hnone : ∀ q ∈ edges, bit.sent q.1 = false) :
    bit.shown (edges.foldl next start).axi = false := by
  rw [(bits_of_run hstart bit edges).2]
  cases hlast : edges.dropLast.getLast? with
  | none => rfl
  | some q => exact hnone q (List.mem_of_mem_dropLast (List.mem_of_getLast? hlast))

/-- Without an announcement nothing is latched, and without a report neither. -/
theorem latches_of_run (hstart : start.asyncReset = start)
    (edges : List (Kr260Top × AxiMasterIn)) :
    ((∀ q ∈ edges, q.1.engine.tobChanged = false) →
        (edges.foldl next start).slave.tobChangedLatch = false) ∧
      ((∀ q ∈ edges, q.1.parser.outError = false) →
        (edges.foldl next start).slave.parseErrorLatch = false) := by
  induction edges using List.reverseRecOn with
  | nil =>
    rw [List.foldl_nil, ← hstart]
    exact ⟨fun _ => rfl, fun _ => rfl⟩
  | append_singleton edges q ih =>
    rw [List.foldl_append, List.foldl_cons, List.foldl_nil]
    constructor
    · intro hnone
      have hbefore : ∀ q ∈ edges, q.1.engine.tobChanged = false := fun q hq =>
        hnone q (List.mem_append_left _ hq)
      have hshown : (edges.foldl next start).axi.tobChangedAxi = false :=
        shown_eq_false_of_run hstart .tobChanged hbefore
      change (if _ then false else (edges.foldl next start).axi.tobChangedAxi ||
        (edges.foldl next start).slave.tobChangedLatch) = false
      rw [hshown, ih.1 hbefore, Bool.or_false, ite_self]
    · intro hnone
      have hbefore : ∀ q ∈ edges, q.1.parser.outError = false := fun q hq =>
        hnone q (List.mem_append_left _ hq)
      have hshown : (edges.foldl next start).axi.parseErrorAxi = false :=
        shown_eq_false_of_run hstart .parseError hbefore
      change (if _ then false else (edges.foldl next start).axi.parseErrorAxi ||
        (edges.foldl next start).slave.parseErrorLatch) = false
      rw [hshown, ih.2 hbefore, Bool.or_false, ite_self]

/-- Prices, quantities and spread survive a reset. -/
theorem captured_retained :
    Retained asyncReset next captured (fun s => s.axi.tobChangedAxi) (fun q => q.1.engine.offered)
    where
  clear := fun _ => rfl
  step := by
    intro s q
    rw [captured, next, AxiDomain.published_next]
    cases hcaptures : s.axi.tobChangedAxi <;>
      simp [AxiDomain.next, hcaptures, captured, OrderBookEngine.offered]

/-- The count is taken at every edge. -/
theorem msgCount_retained :
    Retained asyncReset next (fun s => s.axi.msgCountAxi) (fun _ => true)
      (fun q => q.1.msgCountDp) where
  clear := fun _ => rfl
  step := fun _ _ => rfl

end BusDomain

/-! ### Edges in a list -/

/-- Whose edge comes when in a list of edges. -/
def scheduleOf (edges : List BoardEdge) : Schedule := fun n =>
  match edges[n]? with
  | some (.sAxiAclk m) => some m
  | _ => none

/-- What the stream port shows at the edges of `pl_clk1` in a list. -/
def portsOf (edges : List BoardEdge) : List AxisIn :=
  edges.filterMap fun
    | .plClk1 i => some i
    | .sAxiAclk _ => none

section Edges

variable {edges : List BoardEdge} {n : ℕ}

theorem plBefore_scheduleOf (h : n ≤ edges.length) :
    (scheduleOf edges).plBefore n = (portsOf (edges.take n)).length := by
  induction n with
  | zero => rfl
  | succ n ih =>
    have hlast : edges[n]? = some edges[n] := List.getElem?_eq_getElem h
    rw [List.take_succ_eq_append_getElem h, portsOf, List.filterMap_append, List.length_append]
    cases hedge : edges[n] with
    | plClk1 i =>
      have hpl : (scheduleOf edges).isPl n = true := by
        rw [Schedule.isPl, scheduleOf, hlast, hedge]
        rfl
      rw [Schedule.plBefore, edgesBefore_succ_of_edge hpl]
      exact congrArg (· + 1) (ih (Nat.le_of_succ_le h))
    | sAxiAclk m =>
      have hpl : (scheduleOf edges).isPl n = false := by
        rw [Schedule.isPl, scheduleOf, hlast, hedge]
        rfl
      rw [Schedule.plBefore, edgesBefore_succ_of_other hpl]
      exact ih (Nat.le_of_succ_le h)

theorem edge_scheduleOf (h : n < edges.length) :
    (scheduleOf edges).edge (streamOf (portsOf edges)) n = edges[n] := by
  have hlast : edges[n]? = some edges[n] := List.getElem?_eq_getElem h
  rw [Schedule.edge, scheduleOf, hlast]
  cases hedge : edges[n] with
  | sAxiAclk m => rfl
  | plClk1 i =>
    -- the ports before this edge, its own, and those behind
    have hsplit : portsOf edges = portsOf (edges.take n) ++ i :: portsOf (edges.drop (n + 1)) := by
      conv_lhs => rw [← List.take_append_drop n edges, List.drop_eq_getElem_cons h, hedge]
      rw [portsOf, List.filterMap_append]
      rfl
    have hport : streamOf (portsOf edges) ((scheduleOf edges).plBefore n) = i := by
      rw [plBefore_scheduleOf h.le, streamOf, hsplit, List.getD_append_right _ _ _ _ le_rfl,
        Nat.sub_self]
      rfl
    exact congrArg BoardEdge.plClk1 hport

/-- The board behind the edges of a list. -/
theorem kr260Board_scheduleOf (powerUp : OrderBookEngine) (axiPowerUp : AxiDomain)
    (edges : List BoardEdge) :
    kr260Board powerUp axiPowerUp (streamOf (portsOf edges)) (scheduleOf edges) edges.length =
      edges.foldl Kr260Board.next (.reset powerUp axiPowerUp) := by
  have hrun (n : ℕ) (h : n ≤ edges.length) :
      kr260Board powerUp axiPowerUp (streamOf (portsOf edges)) (scheduleOf edges) n =
        (edges.take n).foldl Kr260Board.next (.reset powerUp axiPowerUp) := by
    induction n with
    | zero => rfl
    | succ n ih =>
      rw [List.take_succ_eq_append_getElem h, List.foldl_append, ← ih (Nat.le_of_succ_le h),
        ← edge_scheduleOf h]
      rfl
  rw [hrun edges.length le_rfl, List.take_length]

end Edges
namespace PinnedBoard

/-! ### Behind both resets -/

/-- The edges of a schedule, while the pins stay where they are. -/
def clocks (input : ℕ → AxisIn) (sched : Schedule) (n : ℕ) : List PinnedEvent :=
  (List.range n).map fun c =>
    match sched.edge input c with
    | .plClk1 i => .plClk1 i
    | .sAxiAclk m => .sAxiAclk m

/-- Out of reset. -/
structure Running (s : PinnedBoard) : Prop where
  sync : s.pl.rstNSync = true
  s1 : s.pl.rstNS1 = true
  plPin : s.pl.plResetn0 = true
  busPin : s.bus.pin = true

variable {s : PinnedBoard}

theorem Running.plClk1 (h : s.Running) (i : AxisIn) :
    (s.next (.plClk1 i)).Running ∧ (s.next (.plClk1 i)).board = s.board.next (.plClk1 i) := by
  have hpl : s.pl.next (.plClk1 i) = ⟨true, true, true, s.pl.pl.next i⟩ := by
    rw [ResetDomain.next, h.sync, h.s1, h.plPin]
    rfl
  rw [next, hpl]
  exact ⟨⟨rfl, rfl, rfl, h.busPin⟩, rfl⟩

theorem Running.sAxiAclk (h : s.Running) (m : AxiMasterIn) :
    (s.next (.sAxiAclk m)).Running ∧ (s.next (.sAxiAclk m)).board = s.board.next (.sAxiAclk m) := by
  have hbus : s.bus.next BusDomain.asyncReset BusDomain.next (.edge (s.pl.pl.dp, m)) =
      ⟨true, s.bus.core.next (s.pl.pl.dp, m)⟩ := by
    rw [Pinned.next, h.busPin]
    rfl
  rw [next, hbus]
  exact ⟨⟨h.sync, h.s1, h.plPin, rfl⟩, rfl⟩

/-- While both pins stay high, the board is the one without pins. -/
theorem Running.clocks {powerUp : OrderBookEngine} {axiPowerUp : AxiDomain} (h : s.Running)
    (hboard : s.board = .reset powerUp axiPowerUp) (input : ℕ → AxisIn) (sched : Schedule) (n : ℕ) :
    (s.after (clocks input sched n)).Running ∧
      (s.after (clocks input sched n)).board = kr260Board powerUp axiPowerUp input sched n := by
  induction n with
  | zero => exact ⟨h, hboard⟩
  | succ n ih =>
    obtain ⟨hrunning, hnow⟩ := ih
    have hsplit : s.after (PinnedBoard.clocks input sched (n + 1)) =
        (s.after (PinnedBoard.clocks input sched n)).next
          (match sched.edge input n with
            | .plClk1 i => .plClk1 i
            | .sAxiAclk m => .sAxiAclk m) := by
      rw [PinnedBoard.clocks, List.range_succ, List.map_append, after, List.foldl_append]
      rfl
    have hnext : kr260Board powerUp axiPowerUp input sched (n + 1) =
        (kr260Board powerUp axiPowerUp input sched n).next (sched.edge input n) := rfl
    rw [hsplit, hnext, ← hnow]
    cases sched.edge input n with
    | plClk1 i => exact hrunning.plClk1 i
    | sAxiAclk m => exact hrunning.sAxiAclk m

theorem after_append (powerUp : PinnedBoard) (events events' : List PinnedEvent) :
    powerUp.after (events ++ events') = (powerUp.after events).after events' :=
  List.foldl_append

/-- Two edges behind the rise of its pin the datapath starts, and the bus at the rise of its own. -/
theorem restarts_of_obeys {i j : AxisIn} (hpl : s.pl.Obeys (.released [i, j]))
    (hbus : AsyncReset.Obeys BusDomain.asyncReset BusDomain.next s.bus (.released [])) :
    s.Running ∧ ∃ powerUp axiPowerUp, s.board = .reset powerUp axiPowerUp := by
  obtain ⟨hpin, hs1, hsync, powerUp, hrun⟩ := hpl
  obtain ⟨hbusPin, start, hstart, hcore⟩ := hbus
  refine ⟨⟨hsync, hs1, hpin, hbusPin⟩, powerUp, start.axi, ?_⟩
  rw [board, hrun, hcore, List.foldl_nil, ← hstart]
  rfl

section Restarts

/-- The edge an event is to the board: one of `pl_clk1` outside the synchronised reset, or one of
`s_axi_aclk` while the pin is high. -/
def boardEdge (s : PinnedBoard) : PinnedEvent → Option BoardEdge
  | .plClk1 i => if s.pl.rstNSync then some (.plClk1 i) else none
  | .sAxiAclk m => if s.bus.pin then some (.sAxiAclk m) else none
  | _ => none

def boardEdges (s : PinnedBoard) : List PinnedEvent → List BoardEdge
  | [] => []
  | e :: events => (s.boardEdge e).toList ++ (s.next e).boardEdges events

/-- A pin falls. -/
def Falls (e : PinnedEvent) : Prop := e = .plResetn0 false ∨ e = .sAxiAresetn false

/-- Behind resets of both domains, with the edges that have come outside of them. -/
structure Restarted (s : PinnedBoard) (powerUp : OrderBookEngine) (edges : List BoardEdge) :
    Prop where
  runs : ∃ axiPowerUp, s.board = edges.foldl Kr260Board.next (.reset powerUp axiPowerUp)
  pl : s.pl.rstNSync = false → s.pl.pl = .reset powerUp
  sync : s.pl.rstNSync = true → s.pl.plResetn0 = true ∧ s.pl.rstNS1 = true
  bus : s.bus.pin = false → ∀ edge ∈ edges, ∃ i, edge = .plClk1 i

variable {powerUp : OrderBookEngine} {edges : List BoardEdge}

/-- Edges of `pl_clk1` leave the bus alone. -/
theorem foldl_plClk1 (h : ∀ edge ∈ edges, ∃ i, edge = .plClk1 i) (b : Kr260Board) :
    edges.foldl Kr260Board.next b =
      { b with pl := (portsOf edges).foldl PlDomain.next b.pl } := by
  induction edges generalizing b with
  | nil => rfl
  | cons edge edges ih =>
    obtain ⟨i, rfl⟩ := h edge List.mem_cons_self
    exact ih (fun e he => h e (List.mem_cons_of_mem _ he)) (b.next (.plClk1 i))

theorem Restarted.plClk1 (h : s.Restarted powerUp edges) (i : AxisIn) :
    (s.next (.plClk1 i)).Restarted powerUp (edges ++ (s.boardEdge (.plClk1 i)).toList) := by
  obtain ⟨axiPowerUp, hboard⟩ := h.runs
  cases hsync : s.pl.rstNSync with
  | false =>
    -- the edge still finds the reset low, and leaves the domain as it is
    have hpl : (s.next (.plClk1 i)).pl.pl = .reset powerUp := by
      rw [next, ResetDomain.next, hsync]
      change PlDomain.reset s.pl.pl.dp.engine = _
      rw [h.pl hsync]
      rfl
    rw [boardEdge, hsync, if_neg Bool.false_ne_true, Option.toList_none, List.append_nil]
    refine ⟨⟨axiPowerUp, ?_⟩, fun _ => hpl, fun hrises => ?_, h.bus⟩
    · rw [← hboard, board, board, hpl, h.pl hsync]
      rfl
    · rw [next, ResetDomain.next] at hrises ⊢
      exact ⟨(Bool.and_eq_true_iff.mp hrises).1, (Bool.and_eq_true_iff.mp hrises).1⟩
  | true =>
    obtain ⟨hpin, hs1⟩ := h.sync hsync
    have hpl : s.pl.next (.plClk1 i) = ⟨true, true, true, s.pl.pl.next i⟩ := by
      rw [ResetDomain.next, hsync, hs1, hpin]
      rfl
    rw [boardEdge, hsync, if_pos rfl, Option.toList_some, next, hpl]
    refine ⟨⟨axiPowerUp, ?_⟩, fun hlow => absurd hlow.symm Bool.false_ne_true,
      fun _ => ⟨rfl, rfl⟩, ?_⟩
    · rw [List.foldl_append, ← hboard]
      rfl
    · intro hlow edge hedge
      rcases List.mem_append.mp hedge with hold | hnew
      · exact h.bus hlow edge hold
      · exact ⟨i, List.mem_singleton.mp hnew⟩

theorem Restarted.sAxiAclk (h : s.Restarted powerUp edges) (m : AxiMasterIn) :
    (s.next (.sAxiAclk m)).Restarted powerUp (edges ++ (s.boardEdge (.sAxiAclk m)).toList) := by
  obtain ⟨axiPowerUp, hboard⟩ := h.runs
  cases hpin : s.bus.pin with
  | false =>
    -- in reset only the registers without one move, so the run starts from those
    rw [boardEdge, hpin, if_neg Bool.false_ne_true, Option.toList_none, List.append_nil]
    refine ⟨⟨s.bus.core.axi.next s.pl.pl.dp, ?_⟩, h.pl, h.sync, fun _ => h.bus hpin⟩
    have hpl := congrArg Kr260Board.pl hboard
    rw [foldl_plClk1 (h.bus hpin)] at hpl ⊢
    rw [board, next, Pinned.next, hpin]
    exact congrArg (Kr260Board.mk · _ _) hpl
  | true =>
    rw [boardEdge, hpin, if_pos rfl, Option.toList_some]
    have hbus : s.bus.next BusDomain.asyncReset BusDomain.next (.edge (s.pl.pl.dp, m)) =
        ⟨true, s.bus.core.next (s.pl.pl.dp, m)⟩ := by
      rw [Pinned.next, hpin]
      rfl
    rw [next, hbus]
    refine ⟨⟨axiPowerUp, ?_⟩, h.pl, h.sync, fun hlow => absurd hlow.symm Bool.false_ne_true⟩
    rw [List.foldl_append, ← hboard]
    rfl

theorem Restarted.next (h : s.Restarted powerUp edges) {e : PinnedEvent} (he : ¬ Falls e) :
    (s.next e).Restarted powerUp (edges ++ (s.boardEdge e).toList) := by
  cases e with
  | plClk1 i => exact h.plClk1 i
  | sAxiAclk m => exact h.sAxiAclk m
  -- a rise alone changes nothing but the pin
  | plResetn0 level =>
    cases level with
    | false => exact absurd (.inl rfl) he
    | true =>
      have hpl : s.pl.next (.plResetn0 true) = { s.pl with plResetn0 := true } := by
        rw [ResetDomain.next, Bool.not_true, Bool.and_false]
        rfl
      have hnone : s.boardEdge (.plResetn0 true) = none := rfl
      rw [hnone, Option.toList_none, List.append_nil, PinnedBoard.next, hpl]
      exact ⟨h.runs, h.pl, fun hsync => ⟨rfl, (h.sync hsync).2⟩, h.bus⟩
  | sAxiAresetn level =>
    cases level with
    | false => exact absurd (.inr rfl) he
    | true =>
      have hbus : s.bus.next BusDomain.asyncReset BusDomain.next (.pin true) =
          ⟨true, s.bus.core⟩ := by
        rw [Pinned.next, Bool.not_true, Bool.and_false]
        rfl
      have hnone : s.boardEdge (.sAxiAresetn true) = none := rfl
      rw [hnone, Option.toList_none, List.append_nil, PinnedBoard.next, hbus]
      exact ⟨h.runs, h.pl, h.sync, fun hlow => absurd hlow.symm Bool.false_ne_true⟩

theorem Restarted.after (h : s.Restarted powerUp edges) (events : List PinnedEvent)
    (hrise : ∀ e ∈ events, ¬ Falls e) :
    (s.after events).Restarted powerUp (edges ++ s.boardEdges events) := by
  induction events generalizing s edges with
  | nil =>
    rw [boardEdges, List.append_nil]
    exact h
  | cons e events ih =>
    rw [boardEdges, ← List.append_assoc]
    exact ih (h.next (hrise e List.mem_cons_self)) fun e' he' =>
      hrise e' (List.mem_cons_of_mem _ he')

/-- An edge of `pl_clk1` while both are in reset. -/
theorem restarted_of_held (hpl : s.pl.Obeys .held)
    (hbus : AsyncReset.Obeys BusDomain.asyncReset BusDomain.next s.bus .held) (i : AxisIn) :
    (s.next (.plClk1 i)).Restarted s.pl.pl.dp.engine [] := by
  obtain ⟨hpin, -, hsync, -⟩ := hpl
  obtain ⟨-, hcleared⟩ := hbus
  have hnext : s.pl.next (.plClk1 i) = ⟨false, false, false, .reset s.pl.pl.dp.engine⟩ := by
    rw [ResetDomain.next, hpin, hsync]
    rfl
  rw [PinnedBoard.next, hnext]
  refine ⟨⟨s.bus.core.axi, ?_⟩, fun _ => rfl, fun hhigh => absurd hhigh Bool.false_ne_true, ?_⟩
  · rw [board, ← hcleared]
    rfl
  · exact fun _ edge hedge => absurd hedge List.not_mem_nil

end Restarts

/-! ### What survives -/

/-- What an event writes to prices, quantities and spread. -/
def takesTop (s : PinnedBoard) : PinnedEvent → Option (TopPrices × BitVec 32 × BitVec 32)
  | .sAxiAclk _ => if s.bus.core.axi.tobChangedAxi then some s.pl.pl.dp.engine.offered else none
  | _ => none

/-- What an event writes to the count. -/
def takesCount (s : PinnedBoard) : PinnedEvent → Option (BitVec 64)
  | .sAxiAclk _ => some s.pl.pl.dp.msgCountDp
  | _ => none

theorem captured_next (s : PinnedBoard) (e : PinnedEvent) :
    (s.next e).bus.core.captured = (s.takesTop e).getD s.bus.core.captured := by
  cases e with
  | sAxiAclk m =>
    refine (BusDomain.captured_retained.next_edge s.bus _).trans ?_
    rw [takesTop]
    split_ifs <;> rfl
  | sAxiAresetn level => exact BusDomain.captured_retained.next_pin s.bus level
  | _ => rfl

theorem msgCount_next (s : PinnedBoard) (e : PinnedEvent) :
    (s.next e).bus.core.axi.msgCountAxi = (s.takesCount e).getD s.bus.core.axi.msgCountAxi := by
  cases e with
  | sAxiAclk m => exact BusDomain.msgCount_retained.next_edge s.bus _
  | sAxiAresetn level => exact BusDomain.msgCount_retained.next_pin s.bus level
  | _ => rfl

/-- The board behind some events of clocks and resets. -/
structure ResetsSeparate (powerUp : PinnedBoard) (events : List PinnedEvent) : Prop where
  /-- the datapath does what its own pin asks for -/
  pl : (powerUp.after events).pl.Obeys
    (ResetPhase.after powerUp.pl.plResetn0 (events.filterMap plEvent))
  /-- and so does the bus: cleared, or a run from reset on its edges since, each with the datapath
  it finds -/
  bus : AsyncReset.Obeys BusDomain.asyncReset BusDomain.next (powerUp.after events).bus
    (powerUp.busPhase events)
  /-- behind resets of both, the board is the one without pins -/
  restarts : ∀ i j, ResetPhase.after powerUp.pl.plResetn0 (events.filterMap plEvent) =
      .released [i, j] → powerUp.busPhase events = .released [] →
    ∃ engine axi, ∀ input sched n,
      (powerUp.after (events ++ clocks input sched n)).board = kr260Board engine axi input sched n
  /-- so it is if both were in reset at an edge of `pl_clk1` and no pin has fallen since, whenever
  the pins rose: on the edges that have come outside the resets -/
  rises : ∀ before i since, events = before ++ .plClk1 i :: since →
    ResetPhase.after powerUp.pl.plResetn0 (before.filterMap plEvent) = .held →
    powerUp.busPhase before = .held → (∀ e ∈ since, ¬ Falls e) →
    ∃ engine axi, ∀ edges, edges = (powerUp.after (before ++ [.plClk1 i])).boardEdges since →
      (powerUp.after events).board =
        kr260Board engine axi (streamOf (portsOf edges)) (scheduleOf edges) edges.length
  /-- prices, quantities and spread are those of the last capture, before a reset or behind it -/
  top : LastTaken next takesTop powerUp events powerUp.bus.core.captured
    (powerUp.after events).bus.core.captured
  /-- nothing is captured in reset -/
  held : powerUp.busPhase events = .held → (powerUp.after events).bus.core.axi.tobChangedAxi = false
  /-- and otherwise what the engine announces two edges of the bus earlier, if the reset was up
  by then -/
  captures : ∀ edges, powerUp.busPhase events = .released edges →
    ((powerUp.after events).bus.core.axi.tobChangedAxi = true ↔
      ∃ q, edges.dropLast.getLast? = some q ∧ q.1.engine.tobChanged = true)
  /-- the count goes on in reset -/
  count : LastTaken next takesCount powerUp events powerUp.bus.core.axi.msgCountAxi
    (powerUp.after events).bus.core.axi.msgCountAxi
  /-- what was latched before a reset is lost -/
  lost : ∀ edges, powerUp.busPhase events = .released edges →
    ((∀ q ∈ edges, q.1.engine.tobChanged = false) →
        (powerUp.after events).bus.core.slave.tobChangedLatch = false) ∧
      ((∀ q ∈ edges, q.1.parser.outError = false) →
        (powerUp.after events).bus.core.slave.parseErrorLatch = false)

/-- **The two resets are independent**, from any power-up state, however both pins move and in
whatever order the edges of both clocks come. -/
theorem resets_separate (powerUp : PinnedBoard) (events : List PinnedEvent) :
    ResetsSeparate powerUp events := by
  have hbusObeys (events : List PinnedEvent) : AsyncReset.Obeys BusDomain.asyncReset BusDomain.next
      (powerUp.after events).bus (powerUp.busPhase events) := by
    rw [bus_after]
    exact AsyncReset.obeys_after BusDomain.asyncReset_asyncReset powerUp.bus
      (powerUp.busEvents events)
  have hplObeys (events : List PinnedEvent) : (powerUp.after events).pl.Obeys
      (ResetPhase.after powerUp.pl.plResetn0 (events.filterMap plEvent)) := by
    rw [pl_after]
    exact ResetDomain.obeys_after powerUp.pl (events.filterMap plEvent)
  have hbus := hbusObeys events
  have hpl := hplObeys events
  have htop := lastTaken_foldl (fun s : PinnedBoard => s.bus.core.captured) captured_next powerUp
    events
  have hcount := lastTaken_foldl (fun s : PinnedBoard => s.bus.core.axi.msgCountAxi) msgCount_next
    powerUp events
  refine ⟨hpl, hbus, fun i j hplReleased hbusReleased => ?_,
    fun before i since hevents hplHeld hbusHeld hrise => ?_, htop, fun hheld => ?_,
    fun edges hedges => ?_, hcount, fun edges hedges => ?_⟩
  · rw [hplReleased] at hpl
    rw [hbusReleased] at hbus
    obtain ⟨hrunning, engine, axi, hboard⟩ := restarts_of_obeys hpl hbus
    refine ⟨engine, axi, fun input sched n => ?_⟩
    rw [after_append]
    exact (hrunning.clocks hboard input sched n).2
  · have hplBefore := hplHeld ▸ hplObeys before
    have hbusBefore := hbusHeld ▸ hbusObeys before
    have hrestarted := (restarted_of_held hplBefore hbusBefore i).after since hrise
    obtain ⟨axi, hboard⟩ := hrestarted.runs
    refine ⟨(powerUp.after before).pl.pl.dp.engine, axi, fun edges hedges => ?_⟩
    have hsplit : powerUp.after events = ((powerUp.after before).next (.plClk1 i)).after since := by
      rw [hevents, after_append]
      rfl
    have hstart : powerUp.after (before ++ [.plClk1 i]) =
        (powerUp.after before).next (.plClk1 i) := after_append _ _ _
    rw [kr260Board_scheduleOf, hsplit, hboard, hedges, hstart, List.nil_append]
  · rw [hheld] at hbus
    rw [← hbus.2]
    rfl
  · rw [hedges] at hbus
    obtain ⟨-, start, hstart, hcore⟩ := hbus
    have hshown : (powerUp.after events).bus.core.axi.tobChangedAxi = _ :=
      hcore ▸ (BusDomain.bits_of_run hstart .tobChanged edges).2
    rw [hshown, Option.any_eq_true]
    rfl
  · rw [hedges] at hbus
    obtain ⟨-, start, hstart, hcore⟩ := hbus
    rw [hcore]
    exact BusDomain.latches_of_run hstart edges

end PinnedBoard

end HftKr260
