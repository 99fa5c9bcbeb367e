import HftKr260.Foundation.Interleaving
import HftKr260.Software.OrderBook
import Mathlib.Data.BitVec

/-!
# Lock-free snapshots

The writer thread's seqlock sections and the readers' snapshots, step by step: every load or
store of the sequence number and of a field of `tob_` is one step, and the steps of the writer
and of any number of readers come in any order.

A reader copies the six fields one by one and may be overtaken by the writer at every one of
them. `Reading` is what keeps its copy right: while the sequence number is still the one it
started from, no write section has begun since, and what it has copied is what is there.

## Main results

* `Consistent.step` — every atomic step keeps the invariant
* `snapshots_never_torn` — a snapshot is the complete value between two calls of the writer
-/

set_option autoImplicit false

namespace HftKr260

open Foundation

/-! ### Fields of the top of book -/

inductive LevelField
  | price
  | quantity
  | orders
  deriving DecidableEq, Repr

/-- A field of `tob_`, loaded and stored on its own. -/
abbrev TobField := Side × LevelField

/-- The order in which a `TopOfBook` is copied. -/
def tobFields : List TobField :=
  [(.bid, .price), (.bid, .quantity), (.bid, .orders),
    (.ask, .price), (.ask, .quantity), (.ask, .orders)]

def PriceLevel.get (lv : PriceLevel) : LevelField → ℤ
  | .price => lv.price
  | .quantity => lv.quantity
  | .orders => lv.orders

def PriceLevel.set (lv : PriceLevel) (f : LevelField) (x : ℤ) : PriceLevel :=
  match f with
  | .price => { lv with price := x }
  | .quantity => { lv with quantity := x }
  | .orders => { lv with orders := x }

namespace TopOfBook

def get (t : TopOfBook) (f : TobField) : ℤ := (t.level f.1).get f.2

def set (t : TopOfBook) (f : TobField) (x : ℤ) : TopOfBook :=
  match f.1 with
  | .bid => { t with bid := t.bid.set f.2 x }
  | .ask => { t with ask := t.ask.set f.2 x }

theorem get_set (t : TopOfBook) (f f' : TobField) (x : ℤ) :
    (t.set f x).get f' = if f' = f then x else t.get f' := by
  obtain ⟨side, field⟩ := f
  obtain ⟨side', field'⟩ := f'
  cases side <;> cases side' <;> cases field <;> cases field' <;> rfl

theorem mem_tobFields (f : TobField) : f ∈ tobFields := by
  obtain ⟨side, field⟩ := f
  cases side <;> cases field <;> decide

/-- A top of book is its six fields. -/
theorem eq_of_get_eq {t t' : TopOfBook} (h : ∀ f ∈ tobFields, t.get f = t'.get f) : t = t' := by
  obtain ⟨⟨bp, bq, bo⟩, ⟨ap, aq, ao⟩⟩ := t
  obtain ⟨⟨bp', bq', bo'⟩, ⟨ap', aq', ao'⟩⟩ := t'
  simpa [tobFields, get, level, PriceLevel.get, and_assoc] using h

end TopOfBook

/-! ### The threads -/

/-- A call of the writer. The scan before the section reads only what the writer owns; its
result `best` is what the section stores. -/
inductive WriteCall
  | refreshTop (side : Side) (best : PriceLevel)
  | reset
  deriving DecidableEq, Repr

/-- The field stores of a call's write section, in order. -/
def WriteCall.stores : WriteCall → List (TobField × ℤ)
  | .refreshTop side best =>
      [((side, .price), best.price), ((side, .quantity), best.quantity),
        ((side, .orders), best.orders)]
  | .reset => tobFields.map fun f => (f, TopOfBook.get {} f)

/-- What a completed call does to `tob_`. -/
def WriteCall.apply (t : TopOfBook) : WriteCall → TopOfBook
  | .refreshTop .bid best => { t with bid := best }
  | .refreshTop .ask best => { t with ask := best }
  | .reset => {}

/-- The sections of the book's own operations are those of the writer's calls. -/
theorem OrderBook.tob_refreshTop {k : Fin 64} (b : OrderBook k) (side : Side) :
    ∃ best, (b.refreshTop side).tob = (WriteCall.refreshTop side best).apply b.tob ∧
      (b.refreshTop side).tobLock = b.tobLock.writeBegin.writeEnd := by
  cases side
  · exact ⟨_, rfl, rfl⟩
  · exact ⟨_, rfl, rfl⟩

theorem OrderBook.tob_reset {k : Fin 64} (b : OrderBook k) :
    b.reset.tob = WriteCall.reset.apply b.tob ∧
      b.reset.tobLock = b.tobLock.writeBegin.writeEnd := ⟨rfl, rfl⟩

/-- Where the writer is; inside a section it has the stores to go. -/
inductive Writer
  | idle
  | writing (call : WriteCall) (pending : List (TobField × ℤ))

/-- Where a reader is in `top_of_book_snapshot()`. -/
inductive Reader
  | idle
  /-- in `read_begin`, about to load the sequence number -/
  | begin
  /-- copying `tob_`, with the fields to go -/
  | copy (seq : BitVec 64) (snapshot : TopOfBook) (pending : List TobField)
  deriving DecidableEq

/-- The seqlock and what it protects, with the writer and the readers. -/
structure TobSystem (ι : Type*) where
  tobLock : Seqlock
  tob : TopOfBook
  writer : Writer
  readers : ι → Reader

/-- One step of one thread. A writer between two calls starts with `next`. -/
inductive TobAction (ι : Type*)
  | writer (next : WriteCall)
  | reader (r : ι)

/-- A reader called or returned, or the writer completed a call. -/
inductive TobEvent (ι : Type*)
  | called (r : ι)
  | returned (r : ι) (snapshot : TopOfBook)
  | wrote (call : WriteCall)

namespace TobSystem

variable {ι : Type*} [DecidableEq ι]

/-- A constructed book, no thread in a call. -/
def start (ι : Type*) : TobSystem ι where
  tobLock := (OrderBook.fresh : OrderBook 0).tobLock
  tob := (OrderBook.fresh : OrderBook 0).tob
  writer := .idle
  readers := fun _ => .idle

/-- The writer's next step: `write_begin`, the field stores, `write_end`. -/
def write (s : TobSystem ι) (next : WriteCall) : TobSystem ι × List (TobEvent ι) :=
  match s.writer with
  | .idle =>
      ({ s with tobLock := s.tobLock.writeBegin, writer := .writing next next.stores }, [])
  | .writing call ((f, x) :: pending) =>
      ({ s with tob := s.tob.set f x, writer := .writing call pending }, [])
  | .writing call [] =>
      ({ s with tobLock := s.tobLock.writeEnd, writer := .idle }, [.wrote call])

/-- A reader's next step: the load of `read_begin`, the field loads, the load of
`read_retry`. -/
def read (s : TobSystem ι) (r : ι) : TobSystem ι × List (TobEvent ι) :=
  let goto (next : Reader) := { s with readers := Function.update s.readers r next }
  match s.readers r with
  | .idle => (goto .begin, [.called r])
  | .begin =>
      match s.tobLock.readBegin with
      | none => (s, [])
      | some seq => (goto (.copy seq {} tobFields), [])
  | .copy seq snapshot (f :: pending) =>
      (goto (.copy seq (snapshot.set f (s.tob.get f)) pending), [])
  | .copy seq snapshot [] =>
      if s.tobLock.readRetry seq then (goto .begin, [])
      else (goto .idle, [.returned r snapshot])

def step (s : TobSystem ι) : TobAction ι → TobSystem ι × List (TobEvent ι)
  | .writer next => s.write next
  | .reader r => s.read r

/-- The system after an interleaving, and what the threads announced on the way. -/
def run (actions : List (TobAction ι)) : TobSystem ι × List (TobEvent ι) :=
  Interleaving.run step (start ι) actions

end TobSystem

/-! ### Histories -/

/-- The calls the writer has completed, in order. -/
def writeCalls {ι : Type*} (es : List (TobEvent ι)) : List WriteCall :=
  es.filterMap fun
    | .wrote call => some call
    | _ => none

/-- The complete value of `tob_` after some calls of the writer. -/
def tobAfter (calls : List WriteCall) : TopOfBook := calls.foldl WriteCall.apply {}

theorem writeCalls_wrote {ι : Type*} (es : List (TobEvent ι)) (call : WriteCall) :
    writeCalls (es ++ [.wrote call]) = writeCalls es ++ [call] := by
  simp [writeCalls]

theorem writeCalls_called {ι : Type*} (es : List (TobEvent ι)) (r : ι) :
    writeCalls (es ++ [.called r]) = writeCalls es := by
  simp [writeCalls]

theorem writeCalls_returned {ι : Type*} (es : List (TobEvent ι)) (r : ι) (t : TopOfBook) :
    writeCalls (es ++ [.returned r t]) = writeCalls es := by
  simp [writeCalls]

theorem tobAfter_concat (calls : List WriteCall) (call : WriteCall) :
    tobAfter (calls ++ [call]) = call.apply (tobAfter calls) := by
  rw [tobAfter, List.foldl_append]
  rfl

/-- A finished snapshot, with how many calls the writer had completed when the reader called
and when it returned. -/
structure TobRead where
  snapshot : TopOfBook
  started : ℕ
  finished : ℕ

/-- What an observer of reader `r` writes down. -/
structure ReadLog where
  completed : ℕ := 0
  started : ℕ := 0
  reads : List TobRead := []

section Log

variable {ι : Type*} [DecidableEq ι]

def ReadLog.next (r : ι) (l : ReadLog) : TobEvent ι → ReadLog
  | .wrote _ => { l with completed := l.completed + 1 }
  | .called r' => if r' = r then { l with started := l.completed } else l
  | .returned r' snapshot =>
      if r' = r then { l with reads := l.reads ++ [⟨snapshot, l.started, l.completed⟩] } else l

def readLog (r : ι) (es : List (TobEvent ι)) : ReadLog := es.foldl (ReadLog.next r) {}

/-- The snapshots of reader `r`, in order. -/
def readsOf (r : ι) (es : List (TobEvent ι)) : List TobRead := (readLog r es).reads

theorem readLog_concat (r : ι) (es : List (TobEvent ι)) (e : TobEvent ι) :
    readLog r (es ++ [e]) = (readLog r es).next r e := by
  rw [readLog, List.foldl_append]
  rfl

end Log

/-! ### The sequence number -/

/-- The sequence number after `n` completed calls; the constructor's reset is one more. -/
def seqAfter (n : ℕ) : Writer → BitVec 64
  | .idle => BitVec.ofNat 64 (2 * (n + 1))
  | .writing _ _ => BitVec.ofNat 64 (2 * (n + 1) + 1)

theorem and_one_eq_zero_iff (m : ℕ) : BitVec.ofNat 64 m &&& 1 = 0 ↔ m % 2 = 0 := by
  rw [← BitVec.toNat_inj, BitVec.toNat_and, BitVec.toNat_ofNat]
  show m % 2 ^ 64 &&& 1 = 0 ↔ m % 2 = 0
  rw [Nat.and_one_is_mod]
  omega

/-- A reader goes on only between two write sections. -/
theorem idle_of_even {n : ℕ} {w : Writer} (h : seqAfter n w &&& 1 = 0) : w = .idle := by
  cases w with
  | idle => rfl
  | writing call pending =>
    have heven := (and_one_eq_zero_iff _).mp h
    omega

/-- Within `2 ^ 63` calls the number comes back to an old value only if nothing was written. -/
theorem idle_of_seq_eq {n m : ℕ} {w : Writer} (hle : n ≤ m) (hlt : m < 2 ^ 63)
    (h : seqAfter m w = seqAfter n .idle) : m = n ∧ w = .idle := by
  have hseq := congrArg BitVec.toNat h
  cases w with
  | idle =>
    simp only [seqAfter, BitVec.toNat_ofNat] at hseq
    exact ⟨by omega, rfl⟩
  | writing call pending =>
    simp only [seqAfter, BitVec.toNat_ofNat] at hseq
    omega

/-! ### The invariant -/

/-- Some stores on top of a value. -/
def applyStores (t : TopOfBook) (stores : List (TobField × ℤ)) : TopOfBook :=
  stores.foldl (fun t p => t.set p.1 p.2) t

/-- The stores of a call make up the call. -/
theorem applyStores_stores (t : TopOfBook) (call : WriteCall) :
    applyStores t call.stores = call.apply t := by
  cases call with
  | refreshTop side best => cases side <;> rfl
  | reset => rfl

/-- What `tob_` holds: the value after the completed calls, or on the way to the next. -/
def TobReady (tob : TopOfBook) (calls : List WriteCall) : Writer → Prop
  | .idle => tob = tobAfter calls
  | .writing call pending => applyStores tob pending = call.apply (tobAfter calls)

/-- What a reader has copied: as long as the sequence number is the one it started from, the
fields copied so far are those of `tob_`. -/
def Reading (tob : TopOfBook) (completed : ℕ) (w : Writer) : Reader → Prop
  | .idle => True
  | .begin => True
  | .copy seq snapshot pending => ∃ n ≤ completed, seq = seqAfter n .idle ∧
      (n = completed → w = .idle → ∀ f, f ∉ pending → snapshot.get f = tob.get f)

/-- A log of snapshots that are all complete: each is the value after the calls completed when
it returned. -/
structure ReadLog.Complete (calls : List WriteCall) (l : ReadLog) : Prop where
  completed : l.completed = calls.length
  started : l.started ≤ calls.length
  complete : ∀ rd ∈ l.reads, rd.started ≤ rd.finished ∧ rd.finished ≤ calls.length ∧
    rd.snapshot = tobAfter (calls.take rd.finished)
  ordered : l.reads.Pairwise fun rd rd' => rd.finished ≤ rd'.finished

section Complete

variable {ι : Type*} [DecidableEq ι] {calls : List WriteCall} {l : ReadLog} {r : ι}

theorem ReadLog.Complete.wrote (h : l.Complete calls) (call : WriteCall) :
    (l.next r (.wrote call)).Complete (calls ++ [call]) where
  completed := by rw [List.length_append, ← h.completed]; rfl
  started := by rw [List.length_append]; exact Nat.le_add_right_of_le h.started
  complete := by
    intro rd hrd
    obtain ⟨hstarted, hfinished, hvalue⟩ := h.complete rd hrd
    refine ⟨hstarted, by rw [List.length_append]; exact Nat.le_add_right_of_le hfinished, ?_⟩
    rw [List.take_append_of_le_length hfinished]
    exact hvalue
  ordered := h.ordered

theorem ReadLog.Complete.called (h : l.Complete calls) (r' : ι) :
    (l.next r (.called r')).Complete calls := by
  rw [ReadLog.next]
  split_ifs
  · exact { h with started := h.completed.le }
  · exact h

theorem ReadLog.Complete.returned (h : l.Complete calls) (r' : ι) {snapshot : TopOfBook}
    (hsnapshot : snapshot = tobAfter calls) :
    (l.next r (.returned r' snapshot)).Complete calls := by
  rw [ReadLog.next]
  split_ifs
  · refine { h with complete := ?_, ordered := ?_ }
    · intro rd hrd
      rcases List.mem_append.mp hrd with hold | hnew
      · exact h.complete rd hold
      · obtain rfl := List.mem_singleton.mp hnew
        refine ⟨h.started.trans h.completed.ge, h.completed.le, ?_⟩
        rw [h.completed, List.take_length]
        exact hsnapshot
    · refine List.pairwise_append.mpr ⟨h.ordered, List.pairwise_singleton _ _, ?_⟩
      intro rd hrd rd' hrd'
      obtain rfl := List.mem_singleton.mp hrd'
      exact (h.complete rd hrd).2.1.trans h.completed.ge
  · exact h

end Complete

namespace TobSystem

variable {ι : Type*} [DecidableEq ι]

/-- The system after the events `es`. -/
structure Consistent (s : TobSystem ι) (es : List (TobEvent ι)) : Prop where
  seq : s.tobLock.seq = seqAfter (writeCalls es).length s.writer
  tob : TobReady s.tob (writeCalls es) s.writer
  reader : ∀ r, Reading s.tob (writeCalls es).length s.writer (s.readers r)
  log : ∀ r, (readLog r es).Complete (writeCalls es)

namespace Consistent

variable {s : TobSystem ι} {es : List (TobEvent ι)}

theorem start : Consistent (TobSystem.start ι) [] where
  seq := rfl
  tob := rfl
  reader := fun _ => trivial
  log := fun _ => ⟨rfl, le_rfl, by simp [readLog], List.Pairwise.nil⟩

/-- Once the writer is in a section, or has been through one, a copy says nothing. -/
theorem reading_of_ne {tob tob' : TopOfBook} {n n' : ℕ} {w w' : Writer} {rd : Reader}
    (h : Reading tob n w rd) (hle : n ≤ n') (hmoved : n < n' ∨ w' ≠ .idle) :
    Reading tob' n' w' rd := by
  cases rd with
  | idle => trivial
  | begin => trivial
  | copy seq snapshot pending =>
    obtain ⟨m, hm, hseq, -⟩ := h
    refine ⟨m, hm.trans hle, hseq, fun heq hidle => ?_⟩
    rcases hmoved with hlt | hne
    · omega
    · exact absurd hidle hne

/-- Every step of the writer keeps the invariant. -/
theorem write (h : Consistent s es) (next : WriteCall) :
    Consistent (s.write next).1 (es ++ (s.write next).2) := by
  have htob := h.tob
  have hseq := h.seq
  cases hw : s.writer with
  | idle =>
    rw [hw] at htob hseq
    simp only [TobSystem.write, hw, List.append_nil]
    refine { h with seq := ?_, tob := ?_, reader := fun r => ?_ }
    · show s.tobLock.seq + 1 = _
      rw [hseq]
      exact (BitVec.ofNat_add _ _).symm
    · exact (applyStores_stores s.tob next).trans (congrArg (WriteCall.apply · next) htob)
    · exact reading_of_ne (h.reader r) le_rfl (.inr (by simp))
  | writing call pending =>
    rw [hw] at htob hseq
    cases pending with
    | cons p pending =>
      simp only [TobSystem.write, hw, List.append_nil]
      exact { h with
        seq := hseq
        tob := htob
        reader := fun r => reading_of_ne (h.reader r) le_rfl (.inr (by simp)) }
    | nil =>
      simp only [TobSystem.write, hw]
      have hlen : (writeCalls (es ++ [.wrote call])).length = (writeCalls es).length + 1 := by
        rw [writeCalls_wrote, List.length_append]
        rfl
      refine { seq := ?_, tob := ?_, reader := fun r => ?_, log := fun r => ?_ }
      · show s.tobLock.seq + 1 = _
        rw [hseq, hlen]
        exact (BitVec.ofNat_add _ _).symm
      · show s.tob = _
        rw [writeCalls_wrote, tobAfter_concat]
        exact htob
      · rw [hlen]
        exact reading_of_ne (h.reader r) (Nat.le_succ _) (.inl (Nat.lt_succ_self _))
      · rw [readLog_concat, writeCalls_wrote]
        exact (h.log r).wrote call

/-- A reader's step that touches only what it has in hand. -/
theorem goto (h : Consistent s es) {r : ι} {rd : Reader}
    (hrd : Reading s.tob (writeCalls es).length s.writer rd) :
    Consistent { s with readers := Function.update s.readers r rd } es := by
  refine { h with reader := fun r' => ?_ }
  show Reading s.tob _ s.writer (Function.update s.readers r rd r')
  by_cases hr : r' = r
  · subst hr
    rwa [Function.update_self]
  · rw [Function.update_of_ne hr]
    exact h.reader r'

/-- A copy checked against an unmoved sequence number is the value after the completed
calls. -/
theorem snapshot_eq (h : Consistent s es) (hlt : (writeCalls es).length < 2 ^ 63) {r : ι}
    {seq : BitVec 64} {snapshot : TopOfBook} (hr : s.readers r = .copy seq snapshot [])
    (hretry : s.tobLock.readRetry seq = false) : snapshot = tobAfter (writeCalls es) := by
  have hreading := h.reader r
  rw [hr] at hreading
  obtain ⟨n, hn, rfl, hcopied⟩ := hreading
  have hsame : s.tobLock.seq = seqAfter n .idle := by simpa [Seqlock.readRetry] using hretry
  rw [h.seq] at hsame
  obtain ⟨hcompleted, hidle⟩ := idle_of_seq_eq hn hlt hsame
  have htob := h.tob
  rw [hidle] at htob
  rw [← show s.tob = _ from htob]
  exact TopOfBook.eq_of_get_eq fun f _ =>
    hcopied hcompleted.symm hidle f List.not_mem_nil

/-- Every step of a reader keeps the invariant, short of `2 ^ 63` completed calls. -/
theorem read (h : Consistent s es) (hlt : (writeCalls es).length < 2 ^ 63) (r : ι) :
    Consistent (s.read r).1 (es ++ (s.read r).2) := by
  cases hr : s.readers r with
  | idle =>
    simp only [TobSystem.read, hr]
    have hcalled : Consistent { s with readers := Function.update s.readers r .begin } es :=
      h.goto trivial
    refine
      { seq := by rw [writeCalls_called]; exact hcalled.seq
        tob := by rw [writeCalls_called]; exact hcalled.tob
        reader := by rw [writeCalls_called]; exact hcalled.reader
        log := fun r' => ?_ }
    rw [readLog_concat, writeCalls_called]
    exact (h.log r').called r
  | begin =>
    simp only [TobSystem.read, hr]
    by_cases heven : s.tobLock.seq &&& 1 = 0
    · -- no section is open, so the number is that of the completed calls
      have hseq := h.seq
      rw [hseq] at heven
      rw [idle_of_even heven] at hseq
      rw [← h.seq] at heven
      simp only [Seqlock.readBegin, heven, if_true, List.append_nil]
      refine h.goto ⟨_, le_rfl, hseq, fun _ _ f hf => ?_⟩
      exact absurd (TopOfBook.mem_tobFields f) hf
    · simp only [Seqlock.readBegin, heven, if_false, List.append_nil]
      exact h
  | copy seq snapshot pending =>
    have hreading := h.reader r
    rw [hr] at hreading
    cases pending with
    | cons f pending =>
      obtain ⟨n, hn, hseq, hcopied⟩ := hreading
      simp only [TobSystem.read, hr, List.append_nil]
      refine h.goto ⟨n, hn, hseq, fun heq hidle f' hf' => ?_⟩
      rw [TopOfBook.get_set]
      split_ifs with hff
      · rw [hff]
      · exact hcopied heq hidle f' fun hmem => (List.mem_cons.mp hmem).elim hff hf'
    | nil =>
      cases hretry : s.tobLock.readRetry seq with
      | true =>
        simp only [TobSystem.read, hr, hretry, if_true, List.append_nil]
        exact h.goto trivial
      | false =>
        simp only [TobSystem.read, hr, hretry, Bool.false_eq_true, if_false]
        have hidle : Consistent { s with readers := Function.update s.readers r .idle } es :=
          h.goto trivial
        refine
          { seq := by rw [writeCalls_returned]; exact hidle.seq
            tob := by rw [writeCalls_returned]; exact hidle.tob
            reader := by rw [writeCalls_returned]; exact hidle.reader
            log := fun r' => ?_ }
        rw [readLog_concat, writeCalls_returned]
        exact (h.log r').returned r (h.snapshot_eq hlt hr hretry)

/-- Every atomic step keeps the invariant, short of `2 ^ 63` completed calls. -/
theorem step (h : Consistent s es) (hlt : (writeCalls es).length < 2 ^ 63) (a : TobAction ι) :
    Consistent (s.step a).1 (es ++ (s.step a).2) := by
  cases a with
  | writer next => exact h.write next
  | reader r => exact h.read hlt r

end Consistent

/-- The system stays consistent as long as the calls are fewer than `2 ^ 63`. -/
theorem run_consistent (actions : List (TobAction ι))
    (hwrites : (writeCalls (run actions).2).length < 2 ^ 63) :
    Consistent (run actions).1 (run actions).2 := by
  refine Interleaving.run_invariant
    (P := fun s es => (writeCalls es).length < 2 ^ 63 → Consistent s es)
    (fun _ => Consistent.start) (fun s es a ih hlt => ?_) actions hwrites
  have hless : (writeCalls es).length < 2 ^ 63 := by
    rw [writeCalls, List.filterMap_append, List.length_append] at hlt
    exact Nat.lt_of_le_of_lt (Nat.le_add_right _ _) hlt
  exact (ih hless).step hless a

end TobSystem

/-- **No torn snapshot.** In any interleaving of the writer's calls with any readers, short of
`2 ^ 63` calls, the snapshots of one reader are the complete values of `tob_` after prefixes of
the completed calls. The prefix of a snapshot contains what was completed when the reader
called and is completed when it returns, and the prefixes never go backwards. -/
theorem snapshots_never_torn {ι : Type*} [DecidableEq ι] (actions : List (TobAction ι))
    (hwrites : (writeCalls (TobSystem.run actions).2).length < 2 ^ 63) (r : ι) :
    ∃ prefixes : List ℕ,
      List.Forall₂ (fun rd n => rd.started ≤ n ∧ n ≤ rd.finished ∧
          rd.snapshot = tobAfter ((writeCalls (TobSystem.run actions).2).take n))
        (readsOf r (TobSystem.run actions).2) prefixes ∧
      prefixes.Pairwise (· ≤ ·) := by
  have hlog := (TobSystem.run_consistent actions hwrites).log r
  refine ⟨(readsOf r (TobSystem.run actions).2).map TobRead.finished, ?_, ?_⟩
  · rw [List.forall₂_map_right_iff, List.forall₂_same]
    intro rd hrd
    obtain ⟨hle, -, hvalue⟩ := hlog.complete rd hrd
    exact ⟨hle, le_rfl, hvalue⟩
  · exact List.pairwise_map.mpr hlog.ordered

/-- A reader overtaken while it copies: it starts over, and the second copy is not torn. -/
def overtakenRead : List (TobAction (Fin 1)) :=
  -- call, load the number, copy the bid price
  List.replicate 3 (.reader 0) ++
  -- a whole call of the writer
  List.replicate 5 (.writer (.refreshTop .bid { price := 100, quantity := 10, orders := 1 })) ++
  -- the other fields, the failed check, and one more round
  List.replicate 14 (.reader 0)

theorem overtakenRead_not_torn :
    ∃ prefixes : List ℕ,
      List.Forall₂ (fun rd n => rd.started ≤ n ∧ n ≤ rd.finished ∧
          rd.snapshot = tobAfter ((writeCalls (TobSystem.run overtakenRead).2).take n))
        (readsOf 0 (TobSystem.run overtakenRead).2) prefixes ∧
      prefixes.Pairwise (· ≤ ·) :=
  snapshots_never_torn overtakenRead (by decide) 0

example : (readsOf 0 (TobSystem.run overtakenRead).2).map TobRead.snapshot =
    [{ bid := { price := 100, quantity := 10, orders := 1 } }] := by decide

end HftKr260
