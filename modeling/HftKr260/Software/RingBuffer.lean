import HftKr260.Foundation.Interleaving
import Mathlib.Data.Fin.Basic
import Mathlib.Data.Nat.Bitwise
import Mathlib.Data.Nat.ModEq
import Mathlib.Logic.Function.Basic

/-!
# The ring buffer

A bounded queue between one producer thread and one consumer thread. Each thread loads its
own index, loads the other's, touches one slot and stores its own index; the loads and stores
are the atomic steps, and the two threads' steps come in any order.

The indices keep only the low bits of how many items have gone in and out, and each side
decides by a value of the other's index that may be stale by the time it acts. `Tracks` ties
the indices, the slots and what each side has in hand to the items pushed and popped so far.

## Main results

* `Tracks.step` — every atomic step keeps the invariant
* `ring_buffer_fifo` — a lossless bounded first-in first-out queue, in any interleaving
-/

set_option autoImplicit false

namespace HftKr260

open Foundation

variable {k : Fin 64} {α : Type*}

/-- A ring buffer with `Capacity = 2 ^ k` slots. -/
structure RingBuffer (k : Fin 64) (α : Type*) where
  head : Fin (2 ^ k.val)
  tail : Fin (2 ^ k.val)
  buf : Fin (2 ^ k.val) → α

/-- `(i + 1) & MASK`. -/
def nextIndex (i : Fin (2 ^ k.val)) : Fin (2 ^ k.val) :=
  ⟨(i.val + 1) &&& (2 ^ k.val - 1),
    Nat.lt_of_le_of_lt Nat.and_le_right (Nat.sub_lt (Nat.two_pow_pos _) Nat.one_pos)⟩

/-- Where the producer is in `push(item)`; the local `h` is the head it loaded. -/
inductive Producer (k : Fin 64) (α : Type*)
  | idle
  | loadTail (item : α) (h : Fin (2 ^ k.val))
  | storeItem (item : α) (h : Fin (2 ^ k.val))
  | storeHead (item : α) (h : Fin (2 ^ k.val))

/-- Where the consumer is in `pop()`; the local `t` is the tail it loaded. -/
inductive Consumer (k : Fin 64) (α : Type*)
  | idle
  | loadHead (t : Fin (2 ^ k.val))
  | loadItem (t : Fin (2 ^ k.val))
  | storeTail (t : Fin (2 ^ k.val)) (item : α)

/-- The buffer and its two threads. -/
structure RingSystem (k : Fin 64) (α : Type*) where
  ring : RingBuffer k α
  producer : Producer k α
  consumer : Consumer k α

/-- One step of one thread. A producer between two calls starts to push `next`. -/
inductive RingAction (α : Type*)
  | producer (next : α)
  | consumer

/-- What a finished call returned: `push` true or false, `pop` an item or `nullopt`. -/
inductive RingEvent (α : Type*)
  | pushed (item : α)
  | full
  | popped (item : α)
  | empty
  deriving DecidableEq

namespace RingSystem

/-- Default-constructed, both threads between calls. -/
def start (k : Fin 64) (α : Type*) [Inhabited α] : RingSystem k α where
  ring :=
    { head := ⟨0, Nat.two_pow_pos _⟩
      tail := ⟨0, Nat.two_pow_pos _⟩
      buf := fun _ => default }
  producer := .idle
  consumer := .idle

/-- The next atomic step of `push`. -/
def push (s : RingSystem k α) (next : α) : RingSystem k α × List (RingEvent α) :=
  match s.producer with
  | .idle => ({ s with producer := .loadTail next s.ring.head }, [])
  | .loadTail item h =>
      if nextIndex h = s.ring.tail then ({ s with producer := .idle }, [.full])
      else ({ s with producer := .storeItem item h }, [])
  | .storeItem item h =>
      ({ s with
          ring := { s.ring with buf := Function.update s.ring.buf h item }
          producer := .storeHead item h }, [])
  | .storeHead item h =>
      ({ s with
          ring := { s.ring with head := nextIndex h }
          producer := .idle }, [.pushed item])

/-- The next atomic step of `pop`. -/
def pop (s : RingSystem k α) : RingSystem k α × List (RingEvent α) :=
  match s.consumer with
  | .idle => ({ s with consumer := .loadHead s.ring.tail }, [])
  | .loadHead t =>
      if t = s.ring.head then ({ s with consumer := .idle }, [.empty])
      else ({ s with consumer := .loadItem t }, [])
  | .loadItem t => ({ s with consumer := .storeTail t (s.ring.buf t) }, [])
  | .storeTail t item =>
      ({ s with
          ring := { s.ring with tail := nextIndex t }
          consumer := .idle }, [.popped item])

def step (s : RingSystem k α) : RingAction α → RingSystem k α × List (RingEvent α)
  | .producer next => s.push next
  | .consumer => s.pop

/-- The system after an interleaving, and the calls that returned on the way. -/
def run (k : Fin 64) {α : Type*} [Inhabited α] (actions : List (RingAction α)) :
    RingSystem k α × List (RingEvent α) :=
  Interleaving.run step (start k α) actions

end RingSystem

/-- The items of the successful pushes, in order. -/
def pushedItems (es : List (RingEvent α)) : List α :=
  es.filterMap fun
    | .pushed item => some item
    | _ => none

/-- The items the successful pops returned, in order. -/
def poppedItems (es : List (RingEvent α)) : List α :=
  es.filterMap fun
    | .popped item => some item
    | _ => none

theorem pushedItems_append (es es' : List (RingEvent α)) :
    pushedItems (es ++ es') = pushedItems es ++ pushedItems es' := List.filterMap_append

theorem poppedItems_append (es es' : List (RingEvent α)) :
    poppedItems (es ++ es') = poppedItems es ++ poppedItems es' := List.filterMap_append

/-! ### Slots of numbered items -/

/-- The slot of item number `n`. -/
def ringSlot (k : Fin 64) (n : ℕ) : Fin (2 ^ k.val) :=
  ⟨n % 2 ^ k.val, Nat.mod_lt _ (Nat.two_pow_pos _)⟩

theorem nextIndex_ringSlot (n : ℕ) : nextIndex (ringSlot k n) = ringSlot k (n + 1) := by
  refine Fin.ext ?_
  show (n % 2 ^ k.val + 1) &&& (2 ^ k.val - 1) = (n + 1) % 2 ^ k.val
  rw [Nat.and_two_pow_sub_one_eq_mod, Nat.mod_add_mod]

/-- Fewer than `Capacity` apart, items with one slot are the same item. -/
theorem eq_of_ringSlot_eq {m n : ℕ} (h : ringSlot k m = ringSlot k n) (hle : m ≤ n)
    (hlt : n < m + 2 ^ k.val) : m = n := by
  have hmod : m ≡ n [MOD 2 ^ k.val] := congrArg Fin.val h
  have hdvd : 2 ^ k.val ∣ n - m := (Nat.modEq_iff_dvd' hle).mp hmod
  have hzero : n - m = 0 := Nat.eq_zero_of_dvd_of_lt hdvd (by omega)
  omega

/-- The slots of items `Capacity` apart are the same, and no others between. -/
theorem ringSlot_succ_eq_iff {m n : ℕ} (hle : m ≤ n) (hlt : n < m + 2 ^ k.val) :
    ringSlot k (n + 1) = ringSlot k m ↔ n + 1 = m + 2 ^ k.val := by
  constructor
  · intro h
    by_contra hne
    have heq := eq_of_ringSlot_eq h.symm (by omega) (by omega)
    omega
  · intro h
    rw [h]
    exact Fin.ext (Nat.add_mod_right m _)

/-! ### The invariant -/

namespace RingSystem

/-- What the producer has in hand is still right: its head is the head, and the slot it is
about to fill or has filled is free. -/
def ProducerReady (head : Fin (2 ^ k.val)) (buf : Fin (2 ^ k.val) → α) (pushed popped : ℕ) :
    Producer k α → Prop
  | .idle => True
  | .loadTail _ h => h = head
  | .storeItem _ h => h = head ∧ pushed + 1 < popped + 2 ^ k.val
  | .storeHead item h => h = head ∧ pushed + 1 < popped + 2 ^ k.val ∧ buf h = item

/-- What the consumer has in hand is still right: its tail is the tail, and the item it is
about to take or has taken is the oldest unread one. -/
def ConsumerReady (tail : Fin (2 ^ k.val)) (pushed : List α) (popped : ℕ) :
    Consumer k α → Prop
  | .idle => True
  | .loadHead t => t = tail
  | .loadItem t => t = tail ∧ popped < pushed.length
  | .storeTail t item => t = tail ∧ pushed[popped]? = some item

/-- A further push leaves the consumer's item where it was. -/
theorem ConsumerReady.pushed {tail : Fin (2 ^ k.val)} {pushed : List α} {popped : ℕ}
    {c : Consumer k α} (h : ConsumerReady tail pushed popped c) (item : α) :
    ConsumerReady tail (pushed ++ [item]) popped c := by
  cases c with
  | idle => exact h
  | loadHead t => exact h
  | loadItem t => exact ⟨h.1, by rw [List.length_append]; exact Nat.lt_add_right _ h.2⟩
  | storeTail t x =>
    have hlt : popped < pushed.length := (List.getElem?_eq_some_iff.mp h.2).1
    exact ⟨h.1, by rw [List.getElem?_append_left hlt]; exact h.2⟩

/-- A further pop leaves the producer's slot free. -/
theorem ProducerReady.popped {head : Fin (2 ^ k.val)} {buf : Fin (2 ^ k.val) → α}
    {pushed popped : ℕ} {p : Producer k α} (h : ProducerReady head buf pushed popped p) :
    ProducerReady head buf pushed (popped + 1) p := by
  cases p with
  | idle => exact h
  | loadTail item i => exact h
  | storeItem item i => exact ⟨h.1, h.2.trans (by omega)⟩
  | storeHead item i => exact ⟨h.1, h.2.1.trans (by omega), h.2.2⟩

/-- The system after these items have been pushed and popped. The indices are the slots of
the next item to push and of the next item to pop, and the slots between hold the unread
items. -/
structure Tracks (s : RingSystem k α) (pushed popped : List α) : Prop where
  popped_prefix : popped <+: pushed
  bounded : pushed.length < popped.length + 2 ^ k.val
  head : s.ring.head = ringSlot k pushed.length
  tail : s.ring.tail = ringSlot k popped.length
  unread : ∀ n item, popped.length ≤ n → pushed[n]? = some item →
    s.ring.buf (ringSlot k n) = item
  producer : ProducerReady s.ring.head s.ring.buf pushed.length popped.length s.producer
  consumer : ConsumerReady s.ring.tail pushed popped.length s.consumer

namespace Tracks

variable {s : RingSystem k α} {pushed popped : List α}

theorem start [Inhabited α] : Tracks (RingSystem.start k α) [] [] where
  popped_prefix := List.prefix_rfl
  bounded := Nat.lt_add_of_pos_right (Nat.two_pow_pos _)
  head := rfl
  tail := rfl
  unread := by simp
  producer := trivial
  consumer := trivial

/-- The producer finds the buffer full exactly when `Capacity - 1` items are unread. -/
theorem full_iff (h : Tracks s pushed popped) :
    nextIndex s.ring.head = s.ring.tail ↔ pushed.length + 1 = popped.length + 2 ^ k.val := by
  rw [h.head, h.tail, nextIndex_ringSlot]
  exact ringSlot_succ_eq_iff h.popped_prefix.length_le h.bounded

/-- The consumer finds the buffer empty exactly when no item is unread. -/
theorem empty_iff (h : Tracks s pushed popped) :
    s.ring.tail = s.ring.head ↔ popped.length = pushed.length := by
  rw [h.head, h.tail]
  exact ⟨fun heq => eq_of_ringSlot_eq heq h.popped_prefix.length_le h.bounded,
    fun heq => by rw [heq]⟩

/-- No unread item sits where the next one will go. -/
theorem free_slot (h : Tracks s pushed popped) {n : ℕ} (hpopped : popped.length ≤ n)
    (hpushed : n < pushed.length) : ringSlot k n ≠ s.ring.head := by
  rw [h.head]
  intro heq
  have hbound := h.bounded
  have hn := eq_of_ringSlot_eq heq hpushed.le (by omega)
  omega

/-- `push` stores its item: no unread item is overwritten. -/
theorem storeItem (h : Tracks s pushed popped) {item : α} {i : Fin (2 ^ k.val)}
    (hp : s.producer = .storeItem item i) :
    Tracks { s with
      ring := { s.ring with buf := Function.update s.ring.buf i item }
      producer := .storeHead item i } pushed popped := by
  have hready := h.producer
  rw [hp] at hready
  obtain ⟨rfl, hroom⟩ := hready
  refine { h with unread := ?_, producer := ⟨rfl, hroom, Function.update_self _ _ _⟩ }
  intro n x hn hx
  have hlt : n < pushed.length := (List.getElem?_eq_some_iff.mp hx).1
  show Function.update s.ring.buf s.ring.head item (ringSlot k n) = x
  rw [Function.update_of_ne (h.free_slot hn hlt)]
  exact h.unread n x hn hx

/-- `push` publishes its item. -/
theorem storeHead (h : Tracks s pushed popped) {item : α} {i : Fin (2 ^ k.val)}
    (hp : s.producer = .storeHead item i) :
    Tracks { s with ring := { s.ring with head := nextIndex i }, producer := .idle }
      (pushed ++ [item]) popped := by
  have hready := h.producer
  rw [hp] at hready
  obtain ⟨rfl, hroom, hitem⟩ := hready
  refine
    { popped_prefix := h.popped_prefix.trans (List.prefix_append _ _)
      bounded := by rw [List.length_append]; exact hroom
      head := ?_
      tail := h.tail
      unread := ?_
      producer := trivial
      consumer := h.consumer.pushed item }
  · rw [List.length_append, h.head, nextIndex_ringSlot]
    rfl
  · intro n x hn hx
    rcases Nat.lt_or_ge n pushed.length with hlt | hge
    · rw [List.getElem?_append_left hlt] at hx
      exact h.unread n x hn hx
    · -- the item just published
      have hlast : n = pushed.length := by
        have hlt := (List.getElem?_eq_some_iff.mp hx).1
        rw [List.length_append, List.length_singleton] at hlt
        omega
      subst hlast
      rw [List.getElem?_concat_length] at hx
      show s.ring.buf _ = x
      rw [← h.head, ← Option.some.inj hx]
      exact hitem

/-- `pop` copies the oldest unread item. -/
theorem loadItem (h : Tracks s pushed popped) {i : Fin (2 ^ k.val)}
    (hc : s.consumer = .loadItem i) :
    Tracks { s with consumer := .storeTail i (s.ring.buf i) } pushed popped := by
  have hready := h.consumer
  rw [hc] at hready
  obtain ⟨rfl, hlt⟩ := hready
  have hget := List.getElem?_eq_getElem hlt
  have hitem := h.unread _ _ le_rfl hget
  rw [← h.tail] at hitem
  exact { h with consumer := ⟨rfl, hget.trans (congrArg some hitem.symm)⟩ }

/-- `pop` releases the slot of the item it returns. -/
theorem storeTail (h : Tracks s pushed popped) {item : α} {i : Fin (2 ^ k.val)}
    (hc : s.consumer = .storeTail i item) :
    Tracks { s with ring := { s.ring with tail := nextIndex i }, consumer := .idle }
      pushed (popped ++ [item]) := by
  have hready := h.consumer
  rw [hc] at hready
  obtain ⟨rfl, hget⟩ := hready
  have hlen : (popped ++ [item]).length = popped.length + 1 := List.length_append
  refine
    { popped_prefix := ?_
      bounded := by have hbound := h.bounded; omega
      head := h.head
      tail := by rw [hlen, h.tail, nextIndex_ringSlot]
      unread := fun n x hn => h.unread n x (by omega)
      producer := by rw [hlen]; exact h.producer.popped
      consumer := trivial }
  -- the item popped is the next one pushed
  obtain ⟨rest, rfl⟩ := h.popped_prefix
  rw [List.getElem?_append_right le_rfl, Nat.sub_self] at hget
  cases rest with
  | nil => exact absurd hget (by simp)
  | cons x rest =>
    obtain rfl : x = item := Option.some.inj hget
    exact ⟨rest, by rw [List.append_assoc, List.singleton_append]⟩

/-- Every step of the producer keeps the invariant. -/
theorem push (h : Tracks s pushed popped) (next : α) :
    Tracks (s.push next).1 (pushed ++ pushedItems (s.push next).2)
      (popped ++ poppedItems (s.push next).2) := by
  cases hp : s.producer with
  | idle => simpa [RingSystem.push, hp, pushedItems, poppedItems] using { h with producer := rfl }
  | loadTail item i =>
    have hready := h.producer
    rw [hp] at hready
    obtain rfl : i = s.ring.head := hready
    by_cases hfull : nextIndex s.ring.head = s.ring.tail
    · simpa [RingSystem.push, hp, hfull, pushedItems, poppedItems] using
        { h with producer := trivial }
    · -- room was seen, and the consumer can only make more
      have hne := mt h.full_iff.mpr hfull
      have hbound := h.bounded
      have hroom : pushed.length + 1 < popped.length + 2 ^ k.val := by omega
      simpa [RingSystem.push, hp, hfull, pushedItems, poppedItems] using
        { h with producer := ⟨rfl, hroom⟩ }
  | storeItem item i =>
    simpa [RingSystem.push, hp, pushedItems, poppedItems] using h.storeItem hp
  | storeHead item i =>
    simpa [RingSystem.push, hp, pushedItems, poppedItems] using h.storeHead hp

/-- Every step of the consumer keeps the invariant. -/
theorem pop (h : Tracks s pushed popped) :
    Tracks s.pop.1 (pushed ++ pushedItems s.pop.2) (popped ++ poppedItems s.pop.2) := by
  cases hc : s.consumer with
  | idle => simpa [RingSystem.pop, hc, pushedItems, poppedItems] using { h with consumer := rfl }
  | loadHead i =>
    have hready := h.consumer
    rw [hc] at hready
    obtain rfl : i = s.ring.tail := hready
    by_cases hempty : s.ring.tail = s.ring.head
    · simpa [RingSystem.pop, hc, hempty, pushedItems, poppedItems] using
        { h with consumer := trivial }
    · -- an item was seen, and the producer can only add more
      have hne := mt h.empty_iff.mpr hempty
      have hlt : popped.length < pushed.length :=
        lt_of_le_of_ne h.popped_prefix.length_le hne
      simpa [RingSystem.pop, hc, hempty, pushedItems, poppedItems] using
        { h with consumer := ⟨rfl, hlt⟩ }
  | loadItem i => simpa [RingSystem.pop, hc, pushedItems, poppedItems] using h.loadItem hc
  | storeTail i item =>
    simpa [RingSystem.pop, hc, pushedItems, poppedItems] using h.storeTail hc

/-- Every atomic step keeps the invariant. -/
theorem step (h : Tracks s pushed popped) (a : RingAction α) :
    Tracks (s.step a).1 (pushed ++ pushedItems (s.step a).2)
      (popped ++ poppedItems (s.step a).2) := by
  cases a with
  | producer next => exact h.push next
  | consumer => exact h.pop

/-- `push` returns false in the step that loads `tail_`, and only when the buffer is full. -/
theorem full_of_mem (h : Tracks s pushed popped) {a : RingAction α}
    (hfull : .full ∈ (s.step a).2) : pushed.length + 1 = popped.length + 2 ^ k.val := by
  cases a with
  | producer next =>
    cases hp : s.producer with
    | loadTail item i =>
      have hready := h.producer
      rw [hp] at hready
      obtain rfl : i = s.ring.head := hready
      by_contra hne
      simp [RingSystem.step, RingSystem.push, hp, mt h.full_iff.mp hne] at hfull
    | _ => simp [RingSystem.step, RingSystem.push, hp] at hfull
  | consumer =>
    cases hc : s.consumer <;>
      simp [RingSystem.step, RingSystem.pop, hc, apply_ite Prod.snd] at hfull

/-- `pop` returns `nullopt` in the step that loads `head_`, and only when it is empty. -/
theorem empty_of_mem (h : Tracks s pushed popped) {a : RingAction α}
    (hempty : .empty ∈ (s.step a).2) : popped.length = pushed.length := by
  cases a with
  | producer next =>
    cases hp : s.producer <;>
      simp [RingSystem.step, RingSystem.push, hp, apply_ite Prod.snd] at hempty
  | consumer =>
    cases hc : s.consumer with
    | loadHead i =>
      have hready := h.consumer
      rw [hc] at hready
      obtain rfl : i = s.ring.tail := hready
      by_contra hne
      simp [RingSystem.step, RingSystem.pop, hc, mt h.empty_iff.mp hne] at hempty
    | _ => simp [RingSystem.step, RingSystem.pop, hc] at hempty

end Tracks

end RingSystem

section Run

open RingSystem

variable [Inhabited α] (k)

theorem ring_tracks (actions : List (RingAction α)) :
    Tracks (RingSystem.run k actions).1 (pushedItems (RingSystem.run k actions).2)
      (poppedItems (RingSystem.run k actions).2) := by
  refine Interleaving.run_invariant
    (P := fun s es => Tracks s (pushedItems es) (poppedItems es)) Tracks.start
    (fun s es a h => ?_) actions
  rw [pushedItems_append, poppedItems_append]
  exact h.step a

/-- **A lossless bounded first-in first-out queue.** After any interleaving of the two
threads the items popped are a prefix of the items pushed, at most `Capacity - 1` items are
unread, and each of them is in its slot, which is never the slot the producer is about to
store to. A step that makes `push` return false meets `Capacity - 1` unread items, and one
that makes `pop` return `nullopt` meets none. -/
theorem ring_buffer_fifo (actions : List (RingAction α)) :
    let s := (RingSystem.run k actions).1
    let pushed := pushedItems (RingSystem.run k actions).2
    let popped := poppedItems (RingSystem.run k actions).2
    popped <+: pushed ∧
    pushed.length - popped.length ≤ 2 ^ k.val - 1 ∧
    (∀ n item, popped.length ≤ n → pushed[n]? = some item →
      s.ring.buf (ringSlot k n) = item ∧
        ∀ new h, s.producer = .storeItem new h → ringSlot k n ≠ h) ∧
    ∀ a, (.full ∈ (s.step a).2 → pushed.length - popped.length = 2 ^ k.val - 1) ∧
      (.empty ∈ (s.step a).2 → pushed.length - popped.length = 0) := by
  intro s pushed popped
  have h : Tracks s pushed popped := ring_tracks k actions
  have hbound := h.bounded
  refine ⟨h.popped_prefix, by omega, fun n item hn hitem => ⟨h.unread n item hn hitem, ?_⟩,
    fun a => ⟨fun hfull => ?_, fun hempty => ?_⟩⟩
  · intro new i hstore
    have hready := h.producer
    rw [hstore] at hready
    obtain ⟨rfl, -⟩ := hready
    exact h.free_slot hn (List.getElem?_eq_some_iff.mp hitem).1
  · have hlen := h.full_of_mem hfull
    omega
  · rw [h.empty_of_mem hempty, Nat.sub_self]

end Run

end HftKr260
