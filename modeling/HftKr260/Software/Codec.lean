import HftKr260.Software.TopChanges

/-!
# The codec of the feed

Encoder, decoder and struct sizes are three lists of offsets. `receive` is the decoder as a
function to messages, with every load refused that would leave the buffer; `process` is
`receive` followed by the transition of the message it finds, and nothing is ever refused.
On an encoding, with anything behind it, `receive` finds the message; on a strict prefix it
finds nothing.

## Main results

* `process_receive` — `process` reads inside the buffer and does what it has read
* `receive_encode`, `receive_front` — what is read from encodings and their prefixes
* `codec_round_trip` — the same for `process` and the builders
-/

set_option autoImplicit false

namespace HftKr260

open Foundation

/-! ### Transitions -/

/-- The message counter of a message's type. -/
def Stats.count (s : Stats) : Msg → Stats
  | .add _ => { s with addMsgs := s.addMsgs + 1 }
  | .update _ => { s with updateMsgs := s.updateMsgs + 1 }
  | .delete _ => { s with deleteMsgs := s.deleteMsgs + 1 }
  | .execute _ => { s with executeMsgs := s.executeMsgs + 1 }
  | .trade _ => { s with tradeMsgs := s.tradeMsgs + 1 }

def Msg.timestampNs : Msg → BitVec 64
  | .add m => m.timestampNs
  | .update m => m.timestampNs
  | .delete m => m.timestampNs
  | .execute m => m.timestampNs
  | .trade m => m.timestampNs

namespace FeedHandler

variable {k : Fin 64}

/-- A message is counted and its time taken. -/
def seen (h : FeedHandler k) (m : Msg) : FeedHandler k :=
  { h with stats := h.stats.count m, lastTsNs := m.timestampNs }

/-- An event on the order map and the book, reported if it calls the book. -/
def write (h : FeedHandler k) (e : OrderEvent) : FeedHandler k × Bool :=
  match e.bookCall h.orders with
  | none => (h, false)
  | some _ =>
      ({ h with
          orders := (h.core.step e).orders
          book := (h.core.step e).book
          stats := { h.stats with tobChanges := h.stats.tobChanges + 1 } },
        true)

/-- The transition of a message before the top-of-book callback. -/
def accept (h : FeedHandler k) (m : Msg) : FeedHandler k × Bool :=
  match m with
  | .add a =>
      (h.seen m).write (.add a.orderRef (sideOf a.side) a.price.toInt a.quantity)
  | .update u => (h.seen m).write (.update u.orderRef u.newQuantity)
  | .delete d => (h.seen m).write (.delete d.orderRef)
  | .execute x => (h.seen m).write (.execute x.orderRef x.executedQty)
  | .trade t =>
      ({ h.seen m with
          calls :=
            if h.tradeCb then
              h.calls ++ [.trade t.price.toInt t.quantity.toNat (sideOf t.side) t.timestampNs]
            else h.calls },
        false)

/-- The callback for a reported change. -/
def notify (r : FeedHandler k × Bool) : FeedHandler k × Bool :=
  if r.2 && r.1.tobCb then
    ({ r.1 with calls := r.1.calls ++ [.topOfBook r.1.book.topOfBookSnapshot r.1.lastTsNs] }, r.2)
  else r

/-- The transition for what is found in a buffer. -/
def transition (h : FeedHandler k) : Received → FeedHandler k × Bool
  | .ignored => (h, false)
  | .unknown =>
      ({ h with stats := { h.stats with unknownMsgs := h.stats.unknownMsgs + 1 } }, false)
  | .message m => notify (h.accept m)

variable (h : FeedHandler k) (p : Buffer) {len : ℕ}

theorem handleAdd_eq (hlen : ¬ len < MsgAddOrder.size) :
    h.handleAdd p len =
      h.accept (.add ⟨be64 p 1, be64 p 9, p 17, be32 p 18, be64 p 22⟩) := by
  rw [handleAdd, if_neg hlen]
  rfl

theorem handleUpdate_eq (hlen : ¬ len < MsgOrderUpdate.size) :
    h.handleUpdate p len = h.accept (.update ⟨be64 p 1, be64 p 9, be32 p 17⟩) := by
  rw [handleUpdate, if_neg hlen]
  simp only [accept, write, OrderEvent.bookCall, seen, core, Core.step]
  cases h.orders.lookup (be64 p 9) with
  | none => rfl
  | some o => dsimp only [Option.map_some]; split_ifs <;> rfl

theorem handleDelete_eq (hlen : ¬ len < MsgDeleteOrder.size) :
    h.handleDelete p len = h.accept (.delete ⟨be64 p 1, be64 p 9⟩) := by
  rw [handleDelete, if_neg hlen]
  simp only [accept, write, OrderEvent.bookCall, seen, core, Core.step]
  cases h.orders.lookup (be64 p 9) <;> rfl

theorem handleExecute_eq (hlen : ¬ len < MsgExecute.size) :
    h.handleExecute p len = h.accept (.execute ⟨be64 p 1, be64 p 9, be32 p 17⟩) := by
  rw [handleExecute, if_neg hlen]
  simp only [accept, write, OrderEvent.bookCall, seen, core, Core.step]
  cases h.orders.lookup (be64 p 9) with
  | none => rfl
  | some o => dsimp only [Option.map_some]; split_ifs <;> rfl

theorem handleTrade_eq (hlen : ¬ len < MsgTrade.size) :
    (h.handleTrade p len, false) =
      h.accept (.trade ⟨be64 p 1, p 9, be32 p 10, be64 p 14⟩) := by
  rw [handleTrade, if_neg hlen]
  simp only [accept, seen]
  split_ifs <;> rfl

/-- `process` is a handler and the callback. -/
theorem process_eq_notify (hlen : ¬ len < 1) : h.process p len = notify (h.dispatch p len) := by
  rw [process, if_neg hlen]
  rfl

/-- A handler that ignores a short buffer, and takes the message it reads from any other, makes
the transition of what is received. -/
private theorem transition_of_handler {size : ℕ} {received : Option Received}
    {r : FeedHandler k × Bool} {m : Msg}
    (hshort : len < size → received = some .ignored ∧ r = (h, false))
    (hlong : ¬ len < size → received = some (.message m) ∧ r = h.accept m) :
    ∃ x, received = some x ∧ notify r = h.transition x := by
  by_cases hlen : len < size
  · obtain ⟨hreceived, hr⟩ := hshort hlen
    refine ⟨.ignored, hreceived, ?_⟩
    rw [hr]
    rfl
  · obtain ⟨hreceived, hr⟩ := hlong hlen
    refine ⟨.message m, hreceived, ?_⟩
    rw [hr]
    rfl

/-- What a received message does, behind the type byte. -/
private theorem dispatch_receive (len : ℕ) (hlen : ¬ len < 1) :
    ∃ r, receive p len = some r ∧ notify (h.dispatch p len) = h.transition r := by
  rw [receive_eq hlen, dispatch]
  split_ifs with hA hU hD hE hP
  · exact h.transition_of_handler (fun hshort => ⟨if_pos hshort, if_pos hshort⟩)
      fun hlong => ⟨receiveAdd_eq hlong, handleAdd_eq h p hlong⟩
  · exact h.transition_of_handler (fun hshort => ⟨if_pos hshort, if_pos hshort⟩)
      fun hlong => ⟨receiveUpdate_eq hlong, handleUpdate_eq h p hlong⟩
  · exact h.transition_of_handler (fun hshort => ⟨if_pos hshort, if_pos hshort⟩)
      fun hlong => ⟨receiveDelete_eq hlong, handleDelete_eq h p hlong⟩
  · exact h.transition_of_handler (fun hshort => ⟨if_pos hshort, if_pos hshort⟩)
      fun hlong => ⟨receiveExecute_eq hlong, handleExecute_eq h p hlong⟩
  · refine h.transition_of_handler (fun hshort => ⟨if_pos hshort, ?_⟩)
      fun hlong => ⟨receiveTrade_eq hlong, handleTrade_eq h p hlong⟩
    rw [handleTrade, if_pos hshort]
  · exact ⟨.unknown, rfl, rfl⟩

/-- **`process` reads inside the buffer**: no load is refused, and what it does is the
transition of what has been read. -/
theorem process_receive (len : ℕ) :
    ∃ r, receive p len = some r ∧ h.process p len = h.transition r := by
  by_cases hlen : len < 1
  · refine ⟨.ignored, if_pos hlen, ?_⟩
    rw [process, if_pos hlen]
    rfl
  · rw [h.process_eq_notify p hlen]
    exact h.dispatch_receive p len hlen

/-- A buffer in which something is found. -/
theorem process_of_receive {p : Buffer} {r : Received} (hr : receive p len = some r) :
    h.process p len = h.transition r := by
  obtain ⟨r', hr', hprocess⟩ := h.process_receive p len
  rw [hprocess, Option.some.inj (hr'.symm.trans hr)]

/-- **The codec**: the encoding of a message, with anything behind it, makes the transition
of the message's fields; a strict prefix makes none; and no load leaves the buffer. -/
theorem codec_round_trip :
    (∀ (m : Msg) (rest : List Byte),
        h.process (bufferOf (m.encode ++ rest)) (m.encode ++ rest).length =
          h.transition (.message m)) ∧
      (∀ tsNs orderRef side qty priceTicks,
        buildAdd tsNs orderRef side qty priceTicks =
          (Msg.add ⟨tsNs, orderRef, side, qty, priceTicks⟩).encode) ∧
      (∀ tsNs orderRef,
        buildDelete tsNs orderRef = (Msg.delete ⟨tsNs, orderRef⟩).encode) ∧
      (∀ tsNs orderRef execQty,
        buildExecute tsNs orderRef execQty =
          (Msg.execute ⟨tsNs, orderRef, execQty⟩).encode) ∧
      (∀ (m : Msg) (front : List Byte), front <+: m.encode → front ≠ m.encode →
        h.process (bufferOf front) front.length = (h, false)) ∧
      ∀ (p : Buffer) (len : ℕ),
        ∃ r, receive p len = some r ∧ h.process p len = h.transition r := by
  refine ⟨fun m rest => h.process_of_receive (receive_encode rest m), buildAdd_eq_encode,
    buildDelete_eq_encode, buildExecute_eq_encode, ?_, h.process_receive⟩
  intro m front hfront hne
  exact h.process_of_receive (receive_front hfront hne)

end FeedHandler

end HftKr260
