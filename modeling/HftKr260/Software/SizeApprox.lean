import HftKr260.Foundation.CircularGap
import HftKr260.Software.RingBuffer

/-!
# The size seen from outside

A third thread runs `size_approx` beside the producer and the consumer: it loads `head_`, loads
`tail_` and subtracts the second from the first modulo `Capacity`. Whatever is pushed and popped
between the two loads is missing from the result, and once the consumer has passed the head that
was loaded the difference wraps.

## Main results

* `Observed.step` — every atomic step of the three threads keeps the invariant
* `size_approx_accurate_iff` — when a size is within one of the number of unread items
-/

set_option autoImplicit false

namespace HftKr260

open Foundation

variable {k : Fin 64} {α : Type*}

/-- `(h - t) & MASK` on `std::size_t`. -/
def maskedDifference (h t : Fin (2 ^ k.val)) : BitVec 64 :=
  (BitVec.ofNat 64 h.val - BitVec.ofNat 64 t.val) &&& BitVec.ofNat 64 (2 ^ k.val - 1)

/-- Where the third thread is in `size_approx()`; the local `h` is the head it loaded. -/
inductive Observer (k : Fin 64)
  | idle
  | loadTail (h : Fin (2 ^ k.val))

/-- The buffer with its two threads and the third. -/
structure ObservedRing (k : Fin 64) (α : Type*) extends RingSystem k α where
  observer : Observer k

/-- One step of one of the three threads. -/
inductive ObservedAction (α : Type*)
  | ring (a : RingAction α)
  | observer

/-- What a finished `push` or `pop` returned, the load of `head_` in `size_approx`, and the size
it returned when it had loaded `tail_`. -/
inductive ObservedEvent (α : Type*)
  | ring (e : RingEvent α)
  | loadedHead
  | size (size : BitVec 64)
  deriving DecidableEq

namespace ObservedRing

def start (k : Fin 64) (α : Type*) [Inhabited α] : ObservedRing k α where
  toRingSystem := .start k α
  observer := .idle

/-- The next atomic step of `size_approx`. -/
def sizeApprox (s : ObservedRing k α) : ObservedRing k α × List (ObservedEvent α) :=
  match s.observer with
  | .idle => ({ s with observer := .loadTail s.ring.head }, [.loadedHead])
  | .loadTail h => ({ s with observer := .idle }, [.size (maskedDifference h s.ring.tail)])

def step (s : ObservedRing k α) : ObservedAction α → ObservedRing k α × List (ObservedEvent α)
  | .ring a =>
      ({ s with toRingSystem := (s.toRingSystem.step a).1 },
        (s.toRingSystem.step a).2.map .ring)
  | .observer => s.sizeApprox

/-- The system after an interleaving of the three threads, and the events on the way. -/
def run (k : Fin 64) {α : Type*} [Inhabited α] (actions : List (ObservedAction α)) :
    ObservedRing k α × List (ObservedEvent α) :=
  Interleaving.run step (start k α) actions

end ObservedRing

/-! ### Histories -/

/-- What the producer's and the consumer's calls returned, in order. -/
def ringEvents (es : List (ObservedEvent α)) : List (RingEvent α) :=
  es.filterMap fun
    | .ring e => some e
    | _ => none

/-- How many items have been pushed after the first `n` returns. -/
def pushedBy (es : List (RingEvent α)) (n : ℕ) : ℕ := (pushedItems (es.take n)).length

/-- How many have been popped. -/
def poppedBy (es : List (RingEvent α)) (n : ℕ) : ℕ := (poppedItems (es.take n)).length

/-- The number of unread items after the first `n` returns. -/
def unreadAt (es : List (RingEvent α)) (n : ℕ) : ℕ := pushedBy es n - poppedBy es n

/-- A finished `size_approx`, with how many calls of the producer and the consumer had returned
when it loaded `head_` and when it loaded `tail_`. -/
structure SizeCall where
  size : BitVec 64
  started : ℕ
  finished : ℕ
  deriving DecidableEq, Repr

/-- What is written down about the third thread. -/
structure SizeLog where
  returns : ℕ := 0
  started : ℕ := 0
  calls : List SizeCall := []

def SizeLog.next (l : SizeLog) : ObservedEvent α → SizeLog
  | .ring _ => { l with returns := l.returns + 1 }
  | .loadedHead => { l with started := l.returns }
  | .size size => { l with calls := l.calls ++ [⟨size, l.started, l.returns⟩] }

def sizeLog (es : List (ObservedEvent α)) : SizeLog := es.foldl SizeLog.next {}

/-- The calls of `size_approx` that have returned, in order. -/
def sizeCalls (es : List (ObservedEvent α)) : List SizeCall := (sizeLog es).calls

namespace SizeCall

/-- The size differs by at most one from the number of unread items at some moment between the
two loads. -/
def Accurate (c : SizeCall) (es : List (RingEvent α)) : Prop :=
  ∃ n, n ≤ c.finished ∧ c.started ≤ n ∧
    c.size.toNat ≤ unreadAt es n + 1 ∧ unreadAt es n ≤ c.size.toNat + 1

/-- The items pushed from the load of `head_` up to a moment, and those popped from there to the
load of `tail_`. -/
def drift (c : SizeCall) (es : List (RingEvent α)) (n : ℕ) : ℕ :=
  (pushedBy es n - pushedBy es c.started) + (poppedBy es c.finished - poppedBy es n)

/-- At some moment between the loads the drift is a multiple of `Capacity`, or one more and the
buffer is not empty, or one less and it is not full. -/
def DriftsLittle (c : SizeCall) (k : Fin 64) (es : List (RingEvent α)) : Prop :=
  ∃ n, n ≤ c.finished ∧ c.started ≤ n ∧
    (c.drift es n % 2 ^ k.val = 0 ∨ (c.drift es n % 2 ^ k.val = 1 ∧ 0 < unreadAt es n) ∨
      (c.drift es n % 2 ^ k.val + 1 = 2 ^ k.val ∧ unreadAt es n + 1 < 2 ^ k.val))

instance (c : SizeCall) (es : List (RingEvent α)) : Decidable (c.Accurate es) :=
  inferInstanceAs (Decidable (∃ n, n ≤ c.finished ∧ _))

instance (c : SizeCall) (k : Fin 64) (es : List (RingEvent α)) : Decidable (c.DriftsLittle k es) :=
  inferInstanceAs (Decidable (∃ n, n ≤ c.finished ∧ _))

end SizeCall

/-! ### Counting -/

section Counting

variable {es es' : List (RingEvent α)} {m n : ℕ}

theorem pushedBy_mono (h : m ≤ n) : pushedBy es m ≤ pushedBy es n :=
  ((List.take_prefix_take_left h).filterMap _).length_le

theorem poppedBy_mono (h : m ≤ n) : poppedBy es m ≤ poppedBy es n :=
  ((List.take_prefix_take_left h).filterMap _).length_le

/-- What returns later does not change what has been pushed before. -/
theorem pushedBy_append (h : n ≤ es.length) : pushedBy (es ++ es') n = pushedBy es n := by
  rw [pushedBy, List.take_append_of_le_length h, pushedBy]

theorem poppedBy_append (h : n ≤ es.length) : poppedBy (es ++ es') n = poppedBy es n := by
  rw [poppedBy, List.take_append_of_le_length h, poppedBy]

theorem pushedBy_of_length_le (h : es.length ≤ n) : pushedBy es n = (pushedItems es).length := by
  rw [pushedBy, List.take_of_length_le h]

theorem poppedBy_of_length_le (h : es.length ≤ n) : poppedBy es n = (poppedItems es).length := by
  rw [poppedBy, List.take_of_length_le h]

end Counting

/-- The masked difference is the distance on the ring. -/
theorem toNat_maskedDifference (p q : ℕ) :
    (maskedDifference (ringSlot k p) (ringSlot k q)).toNat = gap (2 ^ k.val) p q := by
  have hpos : 0 < 2 ^ k.val := Nat.two_pow_pos _
  have hdvd : 2 ^ k.val ∣ 2 ^ 64 := Nat.pow_dvd_pow 2 k.isLt.le
  have hle : 2 ^ k.val ≤ 2 ^ 64 := Nat.le_of_dvd (by decide) hdvd
  have hp : p % 2 ^ k.val < 2 ^ k.val := Nat.mod_lt _ hpos
  have hq : q % 2 ^ k.val < 2 ^ k.val := Nat.mod_lt _ hpos
  have hvalue : (maskedDifference (ringSlot k p) (ringSlot k q)).toNat =
      (2 ^ 64 - q % 2 ^ k.val + p % 2 ^ k.val) % 2 ^ k.val := by
    have hmask : (2 ^ k.val - 1) % 2 ^ 64 = 2 ^ k.val - 1 := Nat.mod_eq_of_lt (by omega)
    rw [maskedDifference, BitVec.toNat_and, BitVec.toNat_sub, BitVec.toNat_ofNat,
      BitVec.toNat_ofNat, BitVec.toNat_ofNat, hmask, Nat.and_two_pow_sub_one_eq_mod,
      Nat.mod_mod_of_dvd _ hdvd, ringSlot, ringSlot, Nat.mod_eq_of_lt (hq.trans_le hle),
      Nat.mod_eq_of_lt (hp.trans_le hle)]
  rw [hvalue]
  refine (gap_unique (Nat.mod_lt _ hpos) ?_).symm
  calc (2 ^ 64 - q % 2 ^ k.val + p % 2 ^ k.val) % 2 ^ k.val + q
      ≡ 2 ^ 64 - q % 2 ^ k.val + p % 2 ^ k.val + q % 2 ^ k.val [MOD 2 ^ k.val] :=
        (Nat.mod_modEq _ _).add (Nat.mod_modEq q _).symm
    _ = 2 ^ 64 + p % 2 ^ k.val := by omega
    _ ≡ 0 + p [MOD 2 ^ k.val] := (Nat.modEq_zero_iff_dvd.mpr hdvd).add (Nat.mod_modEq p _)
    _ = p := Nat.zero_add p

/-! ### The log -/

section Log

variable {es : List (ObservedEvent α)}

@[simp] theorem ringEvents_append_ring (l : List (RingEvent α)) :
    ringEvents (es ++ l.map .ring) = ringEvents es ++ l := by
  induction l using List.reverseRecOn with
  | nil => simp
  | append_singleton l e ih =>
    rw [List.map_append, ← List.append_assoc, ← List.append_assoc, ← ih, ringEvents,
      List.filterMap_append]
    rfl

@[simp] theorem ringEvents_loadedHead : ringEvents (es ++ [.loadedHead]) = ringEvents es := by
  simp [ringEvents]

@[simp] theorem ringEvents_size (size : BitVec 64) :
    ringEvents (es ++ [.size size]) = ringEvents es := by
  simp [ringEvents]

theorem sizeLog_concat (e : ObservedEvent α) : sizeLog (es ++ [e]) = (sizeLog es).next e := by
  rw [sizeLog, List.foldl_append]
  rfl

/-- Returns of the producer and the consumer are counted only. -/
theorem sizeLog_append_ring (es : List (ObservedEvent α)) (l : List (RingEvent α)) :
    sizeLog (es ++ l.map .ring) =
      { sizeLog es with returns := (sizeLog es).returns + l.length } := by
  induction l using List.reverseRecOn with
  | nil => simp
  | append_singleton l e ih =>
    rw [List.map_append, ← List.append_assoc, List.map_singleton, sizeLog_concat, ih,
      List.length_append]
    rfl

end Log

/-! ### The invariant -/

/-- At every moment at most `Capacity - 1` of the items pushed are unread. -/
def WithinCapacity (k : Fin 64) (es : List (RingEvent α)) : Prop :=
  ∀ n, poppedBy es n ≤ pushedBy es n ∧ pushedBy es n < poppedBy es n + 2 ^ k.val

theorem withinCapacity_nil : WithinCapacity k ([] : List (RingEvent α)) := by
  intro n
  rw [pushedBy_of_length_le (Nat.zero_le n), poppedBy_of_length_le (Nat.zero_le n)]
  exact ⟨le_rfl, Nat.lt_add_of_pos_right (Nat.two_pow_pos _)⟩

/-- A step returns from one call at most. -/
theorem RingSystem.length_step_le (s : RingSystem k α) (a : RingAction α) :
    (s.step a).2.length ≤ 1 := by
  cases a with
  | producer next =>
    cases hp : s.producer with
    | loadTail item h =>
      simp only [step, push, hp]
      split_ifs <;> simp
    | _ => simp [step, push, hp]
  | consumer =>
    cases hc : s.consumer with
    | loadHead t =>
      simp only [step, pop, hc]
      split_ifs <;> simp
    | _ => simp [step, pop, hc]

/-- One more return adds one more moment. -/
theorem WithinCapacity.append {es l : List (RingEvent α)} (h : WithinCapacity k es)
    (hl : l.length ≤ 1) {s : RingSystem k α}
    (htracks : s.Tracks (pushedItems (es ++ l)) (poppedItems (es ++ l))) :
    WithinCapacity k (es ++ l) := by
  intro n
  rcases Nat.le_total n es.length with hn | hn
  · rw [pushedBy_append hn, poppedBy_append hn]
    exact h n
  · rcases hn.eq_or_lt with rfl | hlt
    · rw [pushedBy_append le_rfl, poppedBy_append le_rfl]
      exact h es.length
    · have hall : (es ++ l).length ≤ n := by
        rw [List.length_append]
        omega
      rw [pushedBy_of_length_le hall, poppedBy_of_length_le hall]
      exact ⟨htracks.popped_prefix.length_le, htracks.bounded⟩

/-- A finished call has subtracted the slots of the items next to pop and next to push, each as
it was when it was loaded. -/
structure SizeCall.Loads (c : SizeCall) (k : Fin 64) (es : List (RingEvent α)) : Prop where
  ordered : c.started ≤ c.finished
  returned : c.finished ≤ es.length
  size : c.size =
    maskedDifference (ringSlot k (pushedBy es c.started)) (ringSlot k (poppedBy es c.finished))

theorem SizeCall.Loads.append {c : SizeCall} {es : List (RingEvent α)} (h : c.Loads k es)
    (l : List (RingEvent α)) : c.Loads k (es ++ l) where
  ordered := h.ordered
  returned := by
    rw [List.length_append]
    exact Nat.le_add_right_of_le h.returned
  size := by
    rw [pushedBy_append (h.ordered.trans h.returned), poppedBy_append h.returned]
    exact h.size

/-- The three threads after some events: the buffer tracks what has been pushed and popped, at
every moment so far it was within its capacity, and the third thread has in hand the head of
the moment at which it started. -/
structure Observed (s : ObservedRing k α) (es : List (ObservedEvent α)) : Prop where
  tracks : s.toRingSystem.Tracks (pushedItems (ringEvents es)) (poppedItems (ringEvents es))
  bounded : WithinCapacity k (ringEvents es)
  returns : (sizeLog es).returns = (ringEvents es).length
  started : (sizeLog es).started ≤ (ringEvents es).length
  loaded : ∀ h, s.observer = .loadTail h →
    h = ringSlot k (pushedBy (ringEvents es) (sizeLog es).started)
  calls : ∀ c ∈ sizeCalls es, c.Loads k (ringEvents es)

namespace Observed

variable {s : ObservedRing k α} {es : List (ObservedEvent α)}

theorem start [Inhabited α] : Observed (ObservedRing.start k α) [] where
  tracks := RingSystem.Tracks.start
  bounded := withinCapacity_nil
  returns := rfl
  started := le_rfl
  loaded := fun h hidle => by cases hidle
  calls := fun c hc => absurd hc List.not_mem_nil

/-- A step of the producer or the consumer leaves the third thread where it is. -/
theorem ring (h : Observed s es) (a : RingAction α) :
    Observed (s.step (.ring a)).1 (es ++ (s.step (.ring a)).2) := by
  have hl := s.toRingSystem.length_step_le a
  have htracks := h.tracks.step a
  show Observed { s with toRingSystem := (s.toRingSystem.step a).1 }
    (es ++ (s.toRingSystem.step a).2.map .ring)
  generalize (s.toRingSystem.step a).2 = l at hl htracks ⊢
  rw [← pushedItems_append, ← poppedItems_append] at htracks
  have hlog := sizeLog_append_ring es l
  constructor
  · rw [ringEvents_append_ring]
    exact htracks
  · rw [ringEvents_append_ring]
    exact h.bounded.append hl htracks
  · rw [hlog, ringEvents_append_ring, List.length_append, ← h.returns]
  · rw [hlog, ringEvents_append_ring, List.length_append]
    exact Nat.le_add_right_of_le h.started
  · intro i hi
    rw [hlog, ringEvents_append_ring, pushedBy_append h.started]
    exact h.loaded i hi
  · intro c hc
    rw [sizeCalls, hlog] at hc
    rw [ringEvents_append_ring]
    exact (h.calls c hc).append l

/-- A step of the third thread touches nothing of the buffer. -/
theorem observer (h : Observed s es) :
    Observed (s.step .observer).1 (es ++ (s.step .observer).2) := by
  cases ho : s.observer with
  | idle =>
    simp only [ObservedRing.step, ObservedRing.sizeApprox, ho]
    refine
      { tracks := by rw [ringEvents_loadedHead]; exact h.tracks
        bounded := by rw [ringEvents_loadedHead]; exact h.bounded
        returns := by rw [ringEvents_loadedHead, sizeLog_concat]; exact h.returns
        started := by rw [ringEvents_loadedHead, sizeLog_concat]; exact h.returns.le
        loaded := ?_
        calls := ?_ }
    · intro i hi
      have hhead : s.ring.head = i := by simpa using hi
      rw [ringEvents_loadedHead, sizeLog_concat, ← hhead, h.tracks.head]
      exact congrArg _ (pushedBy_of_length_le h.returns.ge).symm
    · rw [sizeCalls, sizeLog_concat, ringEvents_loadedHead]
      exact h.calls
  | loadTail i =>
    simp only [ObservedRing.step, ObservedRing.sizeApprox, ho]
    refine
      { tracks := by rw [ringEvents_size]; exact h.tracks
        bounded := by rw [ringEvents_size]; exact h.bounded
        returns := by rw [ringEvents_size, sizeLog_concat]; exact h.returns
        started := by rw [ringEvents_size, sizeLog_concat]; exact h.started
        loaded := fun i hi => by cases hi
        calls := ?_ }
    rw [sizeCalls, sizeLog_concat, ringEvents_size]
    intro c hc
    rcases List.mem_append.mp hc with hold | hnew
    · exact h.calls c hold
    · -- the call that returns in this step
      obtain rfl := List.mem_singleton.mp hnew
      refine ⟨h.started.trans h.returns.ge, h.returns.le, ?_⟩
      rw [h.loaded i ho, h.tracks.tail, poppedBy_of_length_le h.returns.ge]

/-- Every atomic step of the three threads keeps the invariant. -/
theorem step (h : Observed s es) (a : ObservedAction α) :
    Observed (s.step a).1 (es ++ (s.step a).2) := by
  cases a with
  | ring a => exact h.ring a
  | observer => exact h.observer

end Observed

theorem run_observed [Inhabited α] (k : Fin 64) (actions : List (ObservedAction α)) :
    Observed (ObservedRing.run k actions).1 (ObservedRing.run k actions).2 :=
  Interleaving.run_invariant (P := Observed) Observed.start (fun _ _ a h => h.step a) actions

/-! ### Sizes -/

namespace SizeCall

variable {c : SizeCall} {es : List (RingEvent α)}

/-- The distance of the indices loaded against the number of unread items at a moment between
the loads. -/
theorem Loads.near_iff (h : c.Loads k es) (hbounded : WithinCapacity k es) {n : ℕ}
    (hfinished : n ≤ c.finished) (hstarted : c.started ≤ n) :
    c.size.toNat ≤ unreadAt es n + 1 ∧ unreadAt es n ≤ c.size.toNat + 1 ↔
      c.drift es n % 2 ^ k.val = 0 ∨ (c.drift es n % 2 ^ k.val = 1 ∧ 0 < unreadAt es n) ∨
        (c.drift es n % 2 ^ k.val + 1 = 2 ^ k.val ∧ unreadAt es n + 1 < 2 ^ k.val) := by
  obtain ⟨hpopped, hpushed⟩ := hbounded n
  rw [h.size, toNat_maskedDifference]
  exact gap_near_iff hpopped hpushed (pushedBy_mono hstarted) (poppedBy_mono hfinished)

/-- Between loads without a push, or without a pop, the size is right at one of them. -/
theorem driftsLittle_of_still (hle : c.started ≤ c.finished)
    (hstill : pushedBy es c.finished = pushedBy es c.started ∨
      poppedBy es c.finished = poppedBy es c.started) : c.DriftsLittle k es := by
  rcases hstill with hpushed | hpopped
  · refine ⟨c.finished, le_rfl, hle, .inl ?_⟩
    rw [drift, hpushed, Nat.sub_self, Nat.sub_self]
    exact Nat.zero_mod _
  · refine ⟨c.started, hle, le_rfl, .inl ?_⟩
    rw [drift, hpopped, Nat.sub_self, Nat.sub_self]
    exact Nat.zero_mod _

/-- With `Capacity` 2 no size is off by more: at most one item is unread. -/
theorem driftsLittle_of_two_slots (hle : c.started ≤ c.finished) (hk : k.val = 1) :
    c.DriftsLittle k es := by
  refine ⟨c.started, hle, le_rfl, ?_⟩
  rw [hk]
  omega

end SizeCall

/-- **The size seen from outside** is within one of the number of unread items at some moment
between its two loads, exactly if at some moment between them what had been pushed since the
first and what was popped before the second make up a multiple of `Capacity`, or one more while
the buffer is not empty, or one less while it is not full. -/
theorem size_approx_accurate_iff [Inhabited α] (k : Fin 64)
    (actions : List (ObservedAction α)) :
    ∀ c ∈ sizeCalls (ObservedRing.run k actions).2,
      c.Accurate (ringEvents (ObservedRing.run k actions).2) ↔
        c.DriftsLittle k (ringEvents (ObservedRing.run k actions).2) := by
  intro c hc
  have h := run_observed k actions
  -- moment by moment, for what is subtracted is what the indices were when they were loaded
  refine exists_congr fun n => and_congr_right fun hfinished => and_congr_right fun hstarted => ?_
  exact (h.calls c hc).near_iff h.bounded hfinished hstarted

/-- One item is pushed, and popped between the two loads: the size is right in the end. -/
theorem size_approx_popped :
    let es := (ObservedRing.run 3 (List.replicate 4 (.ring (.producer 7)) ++ [.observer] ++
      List.replicate 4 (.ring .consumer) ++ [.observer] : List (ObservedAction ℕ))).2
    ⟨0, 1, 2⟩ ∈ sizeCalls es ∧ SizeCall.Accurate ⟨0, 1, 2⟩ (ringEvents es) := by
  intro es
  have hcall : (⟨0, 1, 2⟩ : SizeCall) ∈ sizeCalls es := by decide
  refine ⟨hcall, (size_approx_accurate_iff 3 _ _ hcall).mpr ?_⟩
  exact SizeCall.driftsLittle_of_still (by decide) (.inl (by decide))

/-- One item is pushed and popped between the two loads of an empty buffer of 8 slots: the size
is 7, and at no moment is more than one item unread. -/
theorem size_approx_overtaken :
    let es := (ObservedRing.run 3 ([.observer] ++ List.replicate 4 (.ring (.producer 7)) ++
      List.replicate 4 (.ring .consumer) ++ [.observer] : List (ObservedAction ℕ))).2
    sizeCalls es = [⟨7, 0, 2⟩] ∧ (∀ n ≤ 2, unreadAt (ringEvents es) n ≤ 1) ∧
      ¬ ∀ c ∈ sizeCalls es, c.Accurate (ringEvents es) := by
  refine ⟨by decide, by decide, fun h => ?_⟩
  exact absurd (h ⟨7, 0, 2⟩ (by decide)) (by decide)

end HftKr260
