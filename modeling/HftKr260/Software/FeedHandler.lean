import HftKr260.Software.Wire
import Mathlib.Data.List.AList

/-!
# The feed handler

Decodes message buffers, tracks resting orders by reference and writes the aggregated
book. The handlers read their fields straight out of the buffer at fixed offsets, after a
check of the buffer length against the struct size.

A registered callback is an external function; what the handler does to it is call it, so
the handler carries the list of calls it has made.

`OrderEvent` names what a buffer asks for once it is decoded, and `Core` is the part of
the handler that events change: the order map and the book. `process_core` says that
`process` is one decoded event on the core, whatever the buffer holds.
-/

set_option autoImplicit false

namespace HftKr260

open Foundation

/-- A resting order as the handler tracks it. -/
structure RestingOrder where
  price : ℤ
  quantity : ℤ
  side : Side
  deriving DecidableEq, Repr

/-- The order map: order reference to resting order. -/
abbrev OrderMap := AList fun _ : BitVec 64 => RestingOrder

/-- Message counters. -/
structure Stats where
  addMsgs : BitVec 64 := 0
  updateMsgs : BitVec 64 := 0
  deleteMsgs : BitVec 64 := 0
  executeMsgs : BitVec 64 := 0
  tradeMsgs : BitVec 64 := 0
  unknownMsgs : BitVec 64 := 0
  tobChanges : BitVec 64 := 0
  deriving DecidableEq, Repr

/-- A call of a registered callback, with its arguments. -/
inductive CallbackCall
  | topOfBook (snapshot : Option TopOfBook) (tsNs : BitVec 64)
  | trade (price : ℤ) (qty : ℤ) (side : Side) (tsNs : BitVec 64)
  deriving DecidableEq, Repr

/-- The handler and the book it writes. -/
structure FeedHandler (k : Fin 64) where
  book : OrderBook k := OrderBook.fresh
  orders : OrderMap := ∅
  tobCb : Bool := false
  tradeCb : Bool := false
  stats : Stats := {}
  lastTsNs : BitVec 64 := 0
  calls : List CallbackCall := []

/-- `'B'` is a bid, every other side byte an ask. -/
def sideOf (sideC : Byte) : Side := if sideC = charB then .bid else .ask

namespace FeedHandler

variable {k : Fin 64}

def handleAdd (h : FeedHandler k) (m : Buffer) (len : ℕ) : FeedHandler k × Bool :=
  if len < MsgAddOrder.size then (h, false)
  else
    -- a re-used reference overwrites the resting order; its level stays as it is
    let orderRef := be64 m 9
    let sideC := m 17
    let qty : ℤ := (be32 m 18).toNat
    let price := be64s m 22
    let side := sideOf sideC
    ({ h with
        stats :=
          { h.stats with
            addMsgs := h.stats.addMsgs + 1, tobChanges := h.stats.tobChanges + 1 }
        lastTsNs := be64 m 1
        orders := h.orders.insert orderRef { price := price, quantity := qty, side := side }
        book := h.book.updateLevel side price qty 1 },
      true)

def handleUpdate (h : FeedHandler k) (m : Buffer) (len : ℕ) : FeedHandler k × Bool :=
  if len < MsgOrderUpdate.size then (h, false)
  else
    let orderRef := be64 m 9
    let newQty : ℤ := (be32 m 17).toNat
    let seen : FeedHandler k :=
      { h with
        stats := { h.stats with updateMsgs := h.stats.updateMsgs + 1 }
        lastTsNs := be64 m 1 }
    match h.orders.lookup orderRef with
    | none => (seen, false)
    | some o =>
        let delta := int64 (newQty - o.quantity)
        let counted : FeedHandler k :=
          { seen with stats := { seen.stats with tobChanges := seen.stats.tobChanges + 1 } }
        -- the whole level goes, whoever else rests there
        if newQty ≤ 0 then
          ({ counted with
              book := h.book.removeLevel o.side o.price
              orders := h.orders.erase orderRef },
            true)
        else
          ({ counted with
              book := h.book.updateLevel o.side o.price delta 0
              orders := h.orders.insert orderRef { o with quantity := newQty } },
            true)

def handleDelete (h : FeedHandler k) (m : Buffer) (len : ℕ) : FeedHandler k × Bool :=
  if len < MsgDeleteOrder.size then (h, false)
  else
    let orderRef := be64 m 9
    let seen : FeedHandler k :=
      { h with
        stats := { h.stats with deleteMsgs := h.stats.deleteMsgs + 1 }
        lastTsNs := be64 m 1 }
    match h.orders.lookup orderRef with
    | none => (seen, false)
    | some o =>
        -- one order leaves its level, the others stay
        ({ seen with
            stats := { seen.stats with tobChanges := seen.stats.tobChanges + 1 }
            book := h.book.updateLevel o.side o.price (int64 (-o.quantity)) (-1)
            orders := h.orders.erase orderRef },
          true)

def handleExecute (h : FeedHandler k) (m : Buffer) (len : ℕ) : FeedHandler k × Bool :=
  if len < MsgExecute.size then (h, false)
  else
    let orderRef := be64 m 9
    let executed : ℤ := (be32 m 17).toNat
    let seen : FeedHandler k :=
      { h with
        stats := { h.stats with executeMsgs := h.stats.executeMsgs + 1 }
        lastTsNs := be64 m 1 }
    match h.orders.lookup orderRef with
    | none => (seen, false)
    | some o =>
        let quantity := int64 (o.quantity - executed)
        let counted : FeedHandler k :=
          { seen with stats := { seen.stats with tobChanges := seen.stats.tobChanges + 1 } }
        -- used up: again the whole level goes
        if quantity ≤ 0 then
          ({ counted with
              book := h.book.removeLevel o.side o.price
              orders := h.orders.erase orderRef },
            true)
        else
          ({ counted with
              book := h.book.updateLevel o.side o.price (int64 (-executed)) 0
              orders := h.orders.insert orderRef { o with quantity := quantity } },
            true)

def handleTrade (h : FeedHandler k) (m : Buffer) (len : ℕ) : FeedHandler k :=
  if len < MsgTrade.size then h
  else
    let sideC := m 9
    let qty : ℤ := (be32 m 10).toNat
    let price := be64s m 14
    let seen : FeedHandler k :=
      { h with
        stats := { h.stats with tradeMsgs := h.stats.tradeMsgs + 1 }
        lastTsNs := be64 m 1 }
    -- trades do not touch the book
    if h.tradeCb then
      { seen with calls := h.calls ++ [.trade price qty (sideOf sideC) seen.lastTsNs] }
    else seen

/-- Dispatch on the type byte. -/
def dispatch (h : FeedHandler k) (msg : Buffer) (msgLen : ℕ) : FeedHandler k × Bool :=
  if msg 0 = charA then h.handleAdd msg msgLen
  else if msg 0 = charU then h.handleUpdate msg msgLen
  else if msg 0 = charD then h.handleDelete msg msgLen
  else if msg 0 = charE then h.handleExecute msg msgLen
  else if msg 0 = charP then (h.handleTrade msg msgLen, false)
  else ({ h with stats := { h.stats with unknownMsgs := h.stats.unknownMsgs + 1 } }, false)

/-- Process one message buffer of `msgLen` bytes. -/
def process (h : FeedHandler k) (msg : Buffer) (msgLen : ℕ) : FeedHandler k × Bool :=
  if msgLen < 1 then (h, false)
  else
    let (h', tobChanged) := h.dispatch msg msgLen
    -- the callback is called on every message that wrote the book
    if tobChanged && h'.tobCb then
      ({ h' with calls := h'.calls ++ [.topOfBook h'.book.topOfBookSnapshot h'.lastTsNs] },
        tobChanged)
    else (h', tobChanged)

/-- Feed a list of byte buffers to `process`, one after the other. -/
def processAll (h : FeedHandler k) (bufs : List (List Byte)) : FeedHandler k :=
  bufs.foldl (fun h buf => (h.process (bufferOf buf) buf.length).1) h

@[simp] theorem processAll_nil (h : FeedHandler k) : h.processAll [] = h := rfl

@[simp] theorem processAll_cons (h : FeedHandler k) (buf : List Byte) (bufs : List (List Byte)) :
    h.processAll (buf :: bufs) =
      (h.process (bufferOf buf) buf.length).1.processAll bufs := rfl

theorem processAll_append (h : FeedHandler k) (bufs bufs' : List (List Byte)) :
    h.processAll (bufs ++ bufs') = (h.processAll bufs).processAll bufs' :=
  List.foldl_append

end FeedHandler

/-! ### Decoded events -/

/-- What a decoded message asks of the order map and the book. -/
inductive OrderEvent
  | add (orderRef : BitVec 64) (side : Side) (price : ℤ) (qty : BitVec 32)
  | update (orderRef : BitVec 64) (newQty : BitVec 32)
  | delete (orderRef : BitVec 64)
  | execute (orderRef : BitVec 64) (executed : BitVec 32)
  deriving DecidableEq, Repr

/-- The event a buffer decodes to; short, unknown and trade buffers ask for nothing. -/
def decodeEvent (m : Buffer) (len : ℕ) : Option OrderEvent :=
  if len < 1 then none
  else if m 0 = charA then
    if len < MsgAddOrder.size then none
    else some (.add (be64 m 9) (sideOf (m 17)) (be64s m 22) (be32 m 18))
  else if m 0 = charU then
    if len < MsgOrderUpdate.size then none else some (.update (be64 m 9) (be32 m 17))
  else if m 0 = charD then
    if len < MsgDeleteOrder.size then none else some (.delete (be64 m 9))
  else if m 0 = charE then
    if len < MsgExecute.size then none else some (.execute (be64 m 9) (be32 m 17))
  else none

/-- The order map and the book. -/
structure Core (k : Fin 64) where
  book : OrderBook k := OrderBook.fresh
  orders : OrderMap := ∅

/-- One event on the order map and the book. -/
def Core.step {k : Fin 64} (c : Core k) : OrderEvent → Core k
  | .add ref side price qty =>
      { book := c.book.updateLevel side price qty.toNat 1
        orders := c.orders.insert ref { price := price, quantity := qty.toNat, side := side } }
  | .update ref newQty =>
      match c.orders.lookup ref with
      | none => c
      | some o =>
          if (newQty.toNat : ℤ) ≤ 0 then
            { book := c.book.removeLevel o.side o.price, orders := c.orders.erase ref }
          else
            { book := c.book.updateLevel o.side o.price (int64 (newQty.toNat - o.quantity)) 0
              orders := c.orders.insert ref { o with quantity := newQty.toNat } }
  | .delete ref =>
      match c.orders.lookup ref with
      | none => c
      | some o =>
          { book := c.book.updateLevel o.side o.price (int64 (-o.quantity)) (-1)
            orders := c.orders.erase ref }
  | .execute ref executed =>
      match c.orders.lookup ref with
      | none => c
      | some o =>
          if int64 (o.quantity - executed.toNat) ≤ 0 then
            { book := c.book.removeLevel o.side o.price, orders := c.orders.erase ref }
          else
            { book := c.book.updateLevel o.side o.price (int64 (-(executed.toNat : ℤ))) 0
              orders :=
                c.orders.insert ref { o with quantity := int64 (o.quantity - executed.toNat) } }

namespace FeedHandler

variable {k : Fin 64}

/-- The order map and the book of a handler. -/
def core (h : FeedHandler k) : Core k := { book := h.book, orders := h.orders }

private theorem core_handleUpdate (h : FeedHandler k) (m : Buffer) {len : ℕ}
    (hlen : ¬ len < MsgOrderUpdate.size) :
    (h.handleUpdate m len).1.core = h.core.step (.update (be64 m 9) (be32 m 17)) := by
  simp only [handleUpdate, hlen, if_false, Core.step, core]
  cases h.orders.lookup (be64 m 9) with
  | none => rfl
  | some o => dsimp only; split_ifs <;> rfl

private theorem core_handleDelete (h : FeedHandler k) (m : Buffer) {len : ℕ}
    (hlen : ¬ len < MsgDeleteOrder.size) :
    (h.handleDelete m len).1.core = h.core.step (.delete (be64 m 9)) := by
  simp only [handleDelete, hlen, if_false, Core.step, core]
  cases h.orders.lookup (be64 m 9) <;> rfl

private theorem core_handleExecute (h : FeedHandler k) (m : Buffer) {len : ℕ}
    (hlen : ¬ len < MsgExecute.size) :
    (h.handleExecute m len).1.core = h.core.step (.execute (be64 m 9) (be32 m 17)) := by
  simp only [handleExecute, hlen, if_false, Core.step, core]
  cases h.orders.lookup (be64 m 9) with
  | none => rfl
  | some o => dsimp only; split_ifs <;> rfl

private theorem core_handleTrade (h : FeedHandler k) (m : Buffer) (len : ℕ) :
    (h.handleTrade m len).core = h.core := by
  unfold handleTrade
  dsimp only
  split_ifs <;> rfl

private theorem core_dispatch (h : FeedHandler k) (m : Buffer) {len : ℕ} (hlen : ¬ len < 1) :
    (h.dispatch m len).1.core = (decodeEvent m len).elim h.core h.core.step := by
  unfold dispatch decodeEvent
  rw [if_neg hlen]
  split_ifs with hA hshort hU hshort hD hshort hE hshort hP
  · simp [handleAdd, hshort]
  · simp [handleAdd, hshort, core, Core.step]
  · simp [handleUpdate, hshort]
  · exact core_handleUpdate h m hshort
  · simp [handleDelete, hshort]
  · exact core_handleDelete h m hshort
  · simp [handleExecute, hshort]
  · exact core_handleExecute h m hshort
  · exact core_handleTrade h m len
  · rfl

/-- `process` does to the order map and the book what the decoded event does. -/
theorem process_core (h : FeedHandler k) (m : Buffer) (len : ℕ) :
    (h.process m len).1.core = (decodeEvent m len).elim h.core h.core.step := by
  unfold process
  by_cases hlen : len < 1
  · simp [hlen, decodeEvent]
  · rw [← core_dispatch h m hlen]
    simp only [hlen, if_false]
    split_ifs <;> rfl

end FeedHandler

/-! ### Encoded messages -/

/-- The event an encoded message decodes to. -/
def Msg.event : Msg → Option OrderEvent
  | .add m => some (.add m.orderRef (sideOf m.side) m.price.toInt m.quantity)
  | .update m => some (.update m.orderRef m.newQuantity)
  | .delete m => some (.delete m.orderRef)
  | .execute m => some (.execute m.orderRef m.executedQty)
  | .trade _ => none

/-- The event of what is found in a buffer. -/
def Received.event : Received → Option OrderEvent
  | .message m => m.event
  | _ => none

/-- A buffer decodes to the event of what is found in it. -/
theorem decodeEvent_eq (p : Buffer) (len : ℕ) :
    decodeEvent p len = (receive p len).bind Received.event := by
  by_cases hlen : len < 1
  · rw [decodeEvent, receive, if_pos hlen, if_pos hlen]
    rfl
  · rw [decodeEvent, receive_eq hlen, if_neg hlen]
    split_ifs with hA hshort hU hshort hD hshort hE hshort hP
    · rw [receiveAdd, if_pos hshort]
      rfl
    · rw [receiveAdd_eq hshort]
      rfl
    · rw [receiveUpdate, if_pos hshort]
      rfl
    · rw [receiveUpdate_eq hshort]
      rfl
    · rw [receiveDelete, if_pos hshort]
      rfl
    · rw [receiveDelete_eq hshort]
      rfl
    · rw [receiveExecute, if_pos hshort]
      rfl
    · rw [receiveExecute_eq hshort]
      rfl
    · by_cases hshort : len < MsgTrade.size
      · rw [receiveTrade, if_pos hshort]
        rfl
      · rw [receiveTrade_eq hshort]
        rfl
    · rfl

/-- Encoded messages decode to their own fields. -/
theorem decodeEvent_encode (m : Msg) :
    decodeEvent (bufferOf m.encode) m.encode.length = m.event := by
  have hreceive := receive_encode [] m
  rw [List.append_nil] at hreceive
  rw [decodeEvent_eq, hreceive]
  rfl

end HftKr260
