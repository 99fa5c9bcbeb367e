import HftKr260.Foundation.KeyedRuns
import HftKr260.Software.Codec
import HftKr260.Software.RestingOrders

/-!
# Orders, counters and callbacks over a run

What a feed handler has done to a list of buffers, whatever they hold. An order is a machine of
its own: it lives from an Add to the message that deletes it or uses it up, and only messages
that name its reference matter to it. A message is reported exactly if it adds an order or finds
its order alive; the callbacks are called for those and for the trades, in the order of the
messages. The counters count the messages of each type.

## Main results

* `lookup_foldl_step` — each tracked order is what its own messages have made of it
* `handlerStep_transition` — all that one buffer changes
* `handler_run` — the whole state of a handler after any list of buffers
-/

set_option autoImplicit false

namespace HftKr260

open Foundation KeyedRuns

/-! ### The life of an order -/

/-- The reference an event names. -/
def OrderEvent.orderRef : OrderEvent → BitVec 64
  | .add ref _ _ _ => ref
  | .update ref _ => ref
  | .delete ref => ref
  | .execute ref _ => ref

/-- One event of an order. -/
def lifeStep : Option RestingOrder → OrderEvent → Option RestingOrder
  | _, .add _ side price qty => some { price := price, quantity := qty.toNat, side := side }
  | none, _ => none
  | some o, .update _ newQty =>
      if newQty.toNat = 0 then none else some { o with quantity := newQty.toNat }
  | some _, .delete _ => none
  | some o, .execute _ executed =>
      if o.quantity ≤ executed.toNat then none
      else some { o with quantity := o.quantity - executed.toNat }

/-- What the messages of a run have made of an order. -/
def life (ref : BitVec 64) (evs : List OrderEvent) : Option RestingOrder :=
  (eventsOf OrderEvent.orderRef ref evs).foldl lifeStep none

theorem lifeStep_add (x : Option RestingOrder) (ref : BitVec 64) (side : Side) (price : ℤ)
    (qty : BitVec 32) :
    lifeStep x (.add ref side price qty) =
      some { price := price, quantity := qty.toNat, side := side } := by
  cases x <;> rfl

/-- One more event concerns the order it names. -/
theorem life_concat (ref : BitVec 64) (evs : List OrderEvent) (e : OrderEvent) :
    life ref (evs ++ [e]) =
      if e.orderRef = ref then lifeStep (life ref evs) e else life ref evs := by
  rw [life, eventsOf, List.filter_append, List.foldl_append]
  split_ifs with href
  · rw [show [e].filter _ = [e] from eventsOf_cons_self href]
    rfl
  · rw [show [e].filter _ = [] from eventsOf_cons_other href]
    rfl

variable {k : Fin 64}

/-- Every quantity that is tracked fits its field. -/
def Core.QtysFit (c : Core k) : Prop := ∀ ref o, c.orders.lookup ref = some o → QtyFits o.quantity

theorem lifeStep_fits {x : Option RestingOrder} (hx : ∀ o, x = some o → QtyFits o.quantity)
    {e : OrderEvent} {o : RestingOrder} (ho : lifeStep x e = some o) : QtyFits o.quantity := by
  cases e with
  | add ref side price qty =>
    cases x <;> exact Option.some.inj ho ▸ qtyFits_toNat qty
  | update ref newQty =>
    cases x with
    | none => exact absurd ho (by simp [lifeStep])
    | some old =>
      simp only [lifeStep, Option.ite_none_left_eq_some, Option.some.injEq] at ho
      exact ho.2 ▸ qtyFits_toNat newQty
  | delete ref =>
    cases x <;> exact absurd ho (by simp [lifeStep])
  | execute ref executed =>
    cases x with
    | none => exact absurd ho (by simp [lifeStep])
    | some old =>
      simp only [lifeStep, Option.ite_none_left_eq_some, Option.some.injEq] at ho
      obtain ⟨hmore, rfl⟩ := ho
      obtain ⟨hnonneg, hlt⟩ := hx old rfl
      constructor <;> dsimp only <;> omega

/-- What an event writes under a reference, read under any other. -/
theorem lookup_settle {r : OrderMap} {ref : BitVec 64} {o : RestingOrder} {used : Prop}
    [Decidable used] (ref' : BitVec 64) :
    (if used then r.erase ref else r.insert ref o).lookup ref' =
      if ref = ref' then (if used then none else some o) else r.lookup ref' := by
  by_cases href : ref = ref'
  · subst href
    rw [if_pos rfl]
    split_ifs
    · -- removed, or written
      rw [lookup_erase_eq, if_pos rfl]
    · rw [lookup_insert_eq, if_pos rfl]
  · rw [if_neg href]
    split_ifs
    · rw [lookup_erase_eq, if_neg (Ne.symm href)]
    · rw [lookup_insert_eq, if_neg (Ne.symm href)]

theorem lifeStep_none {e : OrderEvent} (he : ∀ ref side price qty, e ≠ .add ref side price qty) :
    lifeStep none e = none := by
  cases e with
  | add ref side price qty => exact absurd rfl (he ref side price qty)
  | _ => rfl

/-- An event changes what is tracked under its reference, and as the order's own machine does. -/
theorem Core.lookup_orders_step {c : Core k} (hfits : c.QtysFit) (e : OrderEvent)
    (ref : BitVec 64) :
    (c.step e).orders.lookup ref =
      if e.orderRef = ref then lifeStep (c.orders.lookup ref) e else c.orders.lookup ref := by
  -- an event of an order that is not tracked
  have hunknown (he : ∀ ref side price qty, e ≠ .add ref side price qty)
      (hnone : c.orders.lookup e.orderRef = none) :
      c.orders.lookup ref =
        if e.orderRef = ref then lifeStep (c.orders.lookup ref) e else c.orders.lookup ref := by
    split_ifs with href
    · subst href
      rw [hnone, lifeStep_none he]
    · rfl
  cases e with
  | add ref' side price qty =>
    rw [step, lookup_insert_eq]
    by_cases href : ref' = ref
    · subst href
      cases c.orders.lookup ref' <;> simp [OrderEvent.orderRef, lifeStep]
    · simp [OrderEvent.orderRef, href, Ne.symm href]
  | update ref' newQty =>
    simp only [step]
    cases ho : c.orders.lookup ref' with
    | none => exact hunknown (by simp) ho
    | some o =>
      -- a quantity that is not positive is zero
      have hzero : (newQty.toNat : ℤ) ≤ 0 ↔ newQty.toNat = 0 := by omega
      dsimp only
      rw [apply_ite Core.orders, lookup_settle]
      by_cases href : ref' = ref
      · subst href
        simp only [OrderEvent.orderRef, if_true, ho, lifeStep, hzero]
      · rw [if_neg href, OrderEvent.orderRef, if_neg href]
  | delete ref' =>
    simp only [step]
    cases ho : c.orders.lookup ref' with
    | none => exact hunknown (by simp) ho
    | some o =>
      dsimp only
      rw [lookup_erase_eq]
      by_cases href : ref' = ref
      · subst href
        simp [OrderEvent.orderRef, ho, lifeStep]
      · simp [OrderEvent.orderRef, href, Ne.symm href]
  | execute ref' executed =>
    simp only [step]
    cases ho : c.orders.lookup ref' with
    | none => exact hunknown (by simp) ho
    | some o =>
      -- the difference of two 32-bit quantities does not overflow
      have hexact : int64 (o.quantity - executed.toNat) = o.quantity - executed.toNat :=
        int64_sub_of_qtyFits (hfits ref' o ho) (qtyFits_toNat executed)
      dsimp only
      rw [apply_ite Core.orders, lookup_settle, hexact]
      by_cases href : ref' = ref
      · subst href
        simp only [OrderEvent.orderRef, if_true, ho, lifeStep, sub_nonpos]
      · rw [if_neg href, OrderEvent.orderRef, if_neg href]

theorem Core.step_local :
    Local (Core.QtysFit (k := k)) (fun c ref => c.orders.lookup ref) OrderEvent.orderRef Core.step
      lifeStep where
  keeps := by
    intro c e hfits ref o ho
    rw [Core.lookup_orders_step hfits] at ho
    split_ifs at ho
    · exact lifeStep_fits (hfits ref) ho
    · exact hfits ref o ho
  self := fun c e hfits => by
    rw [Core.lookup_orders_step hfits, if_pos rfl]
  other := fun c e ref hfits hne => by
    rw [Core.lookup_orders_step hfits, if_neg hne]

theorem lookup_foldl_step (evs : List OrderEvent) (ref : BitVec 64) :
    (evs.foldl Core.step ({} : Core k)).orders.lookup ref = life ref evs :=
  Core.step_local.foldl (fun ref o ho => absurd ho (by simp)) evs ref

/-! ### What is reported -/

/-- An event is reported if it adds an order or finds its order alive. -/
def reports (evs : List OrderEvent) : OrderEvent → Bool
  | .add _ _ _ _ => true
  | .update ref _ => (life ref evs).isSome
  | .delete ref => (life ref evs).isSome
  | .execute ref _ => (life ref evs).isSome

/-- Those are the events that call the book. -/
theorem isSome_bookCall (evs : List OrderEvent) (e : OrderEvent) :
    (e.bookCall (evs.foldl Core.step ({} : Core k)).orders).isSome = reports evs e := by
  cases e with
  | add ref side price qty => rfl
  | update ref newQty => rw [OrderEvent.bookCall, Option.isSome_map, lookup_foldl_step, reports]
  | delete ref => rw [OrderEvent.bookCall, Option.isSome_map, lookup_foldl_step, reports]
  | execute ref executed =>
    rw [OrderEvent.bookCall, Option.isSome_map, lookup_foldl_step, reports]

theorem Core.step_of_bookCall_none {c : Core k} {e : OrderEvent}
    (h : e.bookCall c.orders = none) : c.step e = c := by
  cases e with
  | add ref side price qty => exact absurd h (by simp [OrderEvent.bookCall])
  | update ref newQty =>
    rw [OrderEvent.bookCall, Option.map_eq_none_iff] at h
    simp only [step, h]
  | delete ref =>
    rw [OrderEvent.bookCall, Option.map_eq_none_iff] at h
    simp only [step, h]
  | execute ref executed =>
    rw [OrderEvent.bookCall, Option.map_eq_none_iff] at h
    simp only [step, h]

/-- The callback for what is received behind some events, registered or not. -/
def callback (k : Fin 64) (evs : List OrderEvent) : Received → Option CallbackCall
  | .message (.trade t) =>
      some (.trade t.price.toInt t.quantity.toNat (sideOf t.side) t.timestampNs)
  | .message m =>
      m.event.bind fun e =>
        if reports evs e then
          some (.topOfBook ((evs ++ [e]).foldl Core.step ({} : Core k)).book.topOfBookSnapshot
            m.timestampNs)
        else none
  | _ => none

/-- The callbacks of a run. -/
def callbacks (k : Fin 64) (evs : List OrderEvent) : List Received → List CallbackCall
  | [] => []
  | r :: rs => (callback k evs r).toList ++ callbacks k (evs ++ r.event.toList) rs

theorem callbacks_concat (evs : List OrderEvent) (rs : List Received) (r : Received) :
    callbacks k evs (rs ++ [r]) =
      callbacks k evs rs ++ (callback k (evs ++ rs.filterMap Received.event) r).toList := by
  induction rs generalizing evs with
  | nil => simp [callbacks]
  | cons r' rs ih =>
    rw [List.cons_append, callbacks, ih, callbacks, List.append_assoc, List.append_assoc]
    cases hev : r'.event <;> simp [hev]

/-- The callbacks that are registered. -/
def CallbackCall.registered (onTop onTrade : Bool) : CallbackCall → Bool
  | .topOfBook _ _ => onTop
  | .trade _ _ _ _ => onTrade

def CallbackCall.isTopOfBook : CallbackCall → Bool
  | .topOfBook _ _ => true
  | .trade _ _ _ _ => false

/-! ### The counters -/

/-- The message counters. -/
inductive MsgCounter
  | add
  | update
  | delete
  | execute
  | trade
  | unknown
  deriving DecidableEq, Repr

def Stats.counter (s : Stats) : MsgCounter → BitVec 64
  | .add => s.addMsgs
  | .update => s.updateMsgs
  | .delete => s.deleteMsgs
  | .execute => s.executeMsgs
  | .trade => s.tradeMsgs
  | .unknown => s.unknownMsgs

/-- The counter that what is received goes to, unless it is too short. -/
def Received.counter : Received → Option MsgCounter
  | .ignored => none
  | .unknown => some .unknown
  | .message (.add _) => some .add
  | .message (.update _) => some .update
  | .message (.delete _) => some .delete
  | .message (.execute _) => some .execute
  | .message (.trade _) => some .trade

theorem counter_count (s : Stats) (m : Msg) (c : MsgCounter) :
    (s.count m).counter c =
      s.counter c + if (Received.message m).counter = some c then 1 else 0 := by
  cases m <;> cases c <;> simp [Stats.count, Stats.counter, Received.counter]

theorem tobChanges_count (s : Stats) (m : Msg) : (s.count m).tobChanges = s.tobChanges := by
  cases m <;> rfl

/-! ### One buffer -/

/-- The time of what is received, if it has one. -/
def Received.timestampNs : Received → Option (BitVec 64)
  | .message m => some m.timestampNs
  | _ => none

/-- What is received changes a handler, behind some events, in its own counter, and in whatever
its event and its callback say. -/
structure HandlerStep (evs : List OrderEvent) (r : Received) (now next : FeedHandler k) :
    Prop where
  tobCb : next.tobCb = now.tobCb
  tradeCb : next.tradeCb = now.tradeCb
  core : next.core = r.event.toList.foldl Core.step now.core
  counters : ∀ c,
    next.stats.counter c = now.stats.counter c + if r.counter = some c then 1 else 0
  tobChanges : next.stats.tobChanges =
    now.stats.tobChanges +
      BitVec.ofNat 64 ((callback k evs r).toList.countP CallbackCall.isTopOfBook)
  calls : next.calls =
    now.calls ++ (callback k evs r).toList.filter (CallbackCall.registered now.tobCb now.tradeCb)
  lastTsNs : next.lastTsNs = r.timestampNs.getD now.lastTsNs

section Step

variable {now : FeedHandler k} {evs : List OrderEvent}

theorem handlerStep_ignored : HandlerStep evs .ignored now (now.transition .ignored).1 where
  tobCb := rfl
  tradeCb := rfl
  core := rfl
  counters := fun c => by simp [FeedHandler.transition, Received.counter]
  tobChanges := (BitVec.add_zero _).symm
  calls := (List.append_nil _).symm
  lastTsNs := rfl

theorem handlerStep_unknown : HandlerStep evs .unknown now (now.transition .unknown).1 where
  tobCb := rfl
  tradeCb := rfl
  core := rfl
  counters := fun c => by
    cases c <;> simp [FeedHandler.transition, Stats.counter, Received.counter]
  tobChanges := (BitVec.add_zero _).symm
  calls := (List.append_nil _).symm
  lastTsNs := rfl

theorem handlerStep_trade (t : MsgTrade) :
    HandlerStep evs (.message (.trade t)) now (now.transition (.message (.trade t))).1 where
  tobCb := rfl
  tradeCb := rfl
  core := rfl
  counters := counter_count now.stats (.trade t)
  tobChanges := (BitVec.add_zero _).symm
  calls := by
    show (if now.tradeCb then _ else now.calls) = _
    cases htrade : now.tradeCb <;>
      simp [callback, List.filter_singleton, CallbackCall.registered]
  lastTsNs := rfl

/-- A message with an event is that event, behind its counter and its time. -/
theorem FeedHandler.accept_event (now : FeedHandler k) {m : Msg} {e : OrderEvent}
    (he : m.event = some e) : now.accept m = (now.seen m).write e := by
  cases m with
  | trade t => exact absurd he (by simp [Msg.event])
  | _ => exact Option.some.inj he ▸ rfl

theorem callback_event {m : Msg} {e : OrderEvent} (he : m.event = some e) :
    callback k evs (.message m) =
      if reports evs e then
        some (.topOfBook ((evs ++ [e]).foldl Core.step ({} : Core k)).book.topOfBookSnapshot
          m.timestampNs)
      else none := by
  cases m with
  | trade t => exact absurd he (by simp [Msg.event])
  | _ => rw [callback, he, Option.bind_some]; simp

/-- A message that calls the book is reported behind the call, one that does not is only
counted. -/
theorem handlerStep_event (hcore : now.core = evs.foldl Core.step {}) {m : Msg} {e : OrderEvent}
    (he : m.event = some e) :
    HandlerStep evs (.message m) now (now.transition (.message m)).1 := by
  have hreports : (e.bookCall now.orders).isSome = reports evs e := by
    rw [← isSome_bookCall (k := k), ← hcore, FeedHandler.core]
  have hevent : (Received.message m).event = some e := he
  -- an event of an order that is not tracked is counted and makes no call
  cases hcall : e.bookCall now.orders with
  | none =>
    have hcallback : callback k evs (.message m) = none := by
      rw [callback_event he, ← hreports, hcall]
      rfl
    have hnext : (now.transition (.message m)).1 = now.seen m := by
      rw [FeedHandler.transition, now.accept_event he, FeedHandler.write]
      simp [FeedHandler.seen, hcall, FeedHandler.notify]
    rw [hnext]
    exact
      { tobCb := rfl
        tradeCb := rfl
        core := by
          rw [hevent]
          exact (Core.step_of_bookCall_none hcall).symm
        counters := counter_count now.stats m
        tobChanges := by
          rw [hcallback]
          exact (tobChanges_count now.stats m).trans (BitVec.add_zero _).symm
        calls := by
          rw [hcallback]
          exact (List.append_nil _).symm
        lastTsNs := rfl }
  | some call =>
    have hcallback : callback k evs (.message m) =
        some (.topOfBook (now.core.step e).book.topOfBookSnapshot m.timestampNs) := by
      rw [callback_event he, ← hreports, hcall, List.foldl_concat, ← hcore]
      rfl
    -- the change is counted apart from the messages
    have hcounter (c : MsgCounter) :
        ({ now.stats.count m with tobChanges := (now.stats.count m).tobChanges + 1 } :
          Stats).counter c = (now.stats.count m).counter c := by
      cases c <;> rfl
    have hnext : (now.transition (.message m)).1 =
        { book := (now.core.step e).book
          orders := (now.core.step e).orders
          tobCb := now.tobCb
          tradeCb := now.tradeCb
          stats := { now.stats.count m with tobChanges := (now.stats.count m).tobChanges + 1 }
          lastTsNs := m.timestampNs
          calls :=
            if now.tobCb then
              now.calls ++ [.topOfBook (now.core.step e).book.topOfBookSnapshot m.timestampNs]
            else now.calls } := by
      rw [FeedHandler.transition, now.accept_event he, FeedHandler.write]
      cases htob : now.tobCb <;>
        simp [FeedHandler.seen, hcall, FeedHandler.notify, FeedHandler.core, htob]
    rw [hnext]
    exact
      { tobCb := rfl
        tradeCb := rfl
        core := by
          rw [hevent]
          rfl
        counters := fun c => (hcounter c).trans (counter_count now.stats m c)
        tobChanges := by
          rw [hcallback]
          exact congrArg (· + 1) (tobChanges_count now.stats m)
        calls := by
          rw [hcallback]
          cases htob : now.tobCb <;> simp [List.filter_singleton, CallbackCall.registered]
        lastTsNs := rfl }

/-- Every transition is such a step. -/
theorem handlerStep_transition (hcore : now.core = evs.foldl Core.step {}) (r : Received) :
    HandlerStep evs r now (now.transition r).1 := by
  cases r with
  | ignored => exact handlerStep_ignored
  | unknown => exact handlerStep_unknown
  | message m =>
    cases he : m.event with
    | some e => exact handlerStep_event hcore he
    | none =>
      cases m with
      | trade t => exact handlerStep_trade t
      | _ => exact absurd he (by simp [Msg.event])

end Step

/-! ### Runs -/

/-- A fresh handler with these registrations, behind what it has received. -/
structure HandlerRun (onTop onTrade : Bool) (now : FeedHandler k) (rs : List Received) :
    Prop where
  tobCb : now.tobCb = onTop
  tradeCb : now.tradeCb = onTrade
  core : now.core = (rs.filterMap Received.event).foldl Core.step {}
  /-- each message that is not too short is counted once, under its type -/
  counters : ∀ c, now.stats.counter c =
    BitVec.ofNat 64 (rs.countP fun r => r.counter = some c)
  /-- the reported changes are counted -/
  tobChanges : now.stats.tobChanges =
    BitVec.ofNat 64 ((callbacks k [] rs).countP CallbackCall.isTopOfBook)
  /-- the callbacks have been called once for each, in order -/
  calls : now.calls = (callbacks k [] rs).filter (CallbackCall.registered onTop onTrade)
  lastTsNs : now.lastTsNs = (rs.filterMap Received.timestampNs).getLast?.getD 0

section Run

variable {onTop onTrade : Bool} {now next : FeedHandler k} {rs : List Received} {r : Received}

theorem HandlerRun.start (onTop onTrade : Bool) :
    HandlerRun onTop onTrade ({ tobCb := onTop, tradeCb := onTrade } : FeedHandler k) [] where
  tobCb := rfl
  tradeCb := rfl
  core := rfl
  counters := fun c => by cases c <;> rfl
  tobChanges := rfl
  calls := rfl
  lastTsNs := rfl

/-- A run and one more step. -/
theorem HandlerRun.concat (h : HandlerRun onTop onTrade now rs)
    (hstep : HandlerStep (rs.filterMap Received.event) r now next) :
    HandlerRun onTop onTrade next (rs ++ [r]) where
  tobCb := hstep.tobCb.trans h.tobCb
  tradeCb := hstep.tradeCb.trans h.tradeCb
  core := by
    rw [hstep.core, h.core, List.filterMap_append, List.foldl_append]
    cases hev : r.event <;> simp [hev]
  counters := fun c => by
    rw [hstep.counters, h.counters, List.countP_append, List.countP_singleton, BitVec.ofNat_add]
    by_cases hc : r.counter = some c <;> simp [hc]
  tobChanges := by
    rw [hstep.tobChanges, h.tobChanges, callbacks_concat, List.countP_append, BitVec.ofNat_add,
      List.nil_append]
  calls := by
    rw [hstep.calls, h.calls, h.tobCb, h.tradeCb, callbacks_concat, List.filter_append,
      List.nil_append]
  lastTsNs := by
    rw [hstep.lastTsNs, h.lastTsNs, List.filterMap_append]
    cases hts : r.timestampNs <;> simp [hts]

end Run

/-- What a buffer is received as. -/
def Received.ofBuffer (buf : List Byte) : Received :=
  (receive (bufferOf buf) buf.length).getD .ignored

theorem FeedHandler.process_received (h : FeedHandler k) (buf : List Byte) :
    h.process (bufferOf buf) buf.length = h.transition (Received.ofBuffer buf) := by
  obtain ⟨r, hr, hprocess⟩ := h.process_receive (bufferOf buf) buf.length
  rw [hprocess, Received.ofBuffer, hr, Option.getD_some]

/-- **A run of the handler.** Behind any buffers, a fresh handler holds what the events in them
make of book and orders; each order is what its own messages have made of it; every counter
counts the messages of its type; and the registered callbacks have been called once for each
trade and for each message that adds an order or finds its order alive, in that order. -/
theorem handler_run (k : Fin 64) (onTop onTrade : Bool) (bufs : List (List Byte)) :
    let now := ({ tobCb := onTop, tradeCb := onTrade } : FeedHandler k).processAll bufs
    let rs := bufs.map Received.ofBuffer
    HandlerRun onTop onTrade now rs ∧
      ∀ ref, now.orders.lookup ref = life ref (rs.filterMap Received.event) := by
  intro now rs
  have hrun : HandlerRun onTop onTrade now rs := by
    induction bufs using List.reverseRecOn with
    | nil => exact HandlerRun.start onTop onTrade
    | append_singleton bufs buf ih =>
      simp only [now, rs, FeedHandler.processAll_append, FeedHandler.processAll_cons,
        FeedHandler.processAll_nil, FeedHandler.process_received, List.map_append,
        List.map_singleton]
      exact ih.concat (handlerStep_transition ih.core _)
  refine ⟨hrun, fun ref => ?_⟩
  have hcore : now.core.orders.lookup ref = life ref (rs.filterMap Received.event) := by
    rw [hrun.core, lookup_foldl_step]
  exact hcore

end HftKr260
