import HftKr260.Rtl.LevelMap
import Mathlib.Data.Finset.Card
import Mathlib.Data.Fintype.Basic

/-!
# Allocation of levels

An ADD that matches no level takes the free slot that was found a cycle before it. That slot is
still free unless another message has arrived in that cycle, and between two messages of at
least seventeen bytes there are at least sixteen cycles without one, whatever the gaps.

## Main results

* `not_endsSegment_succ` — segments of known types do not end in consecutive cycles
* `new_level_in_free_slot` — a new level never overwrites an occupied one
-/

set_option autoImplicit false

namespace HftKr260

open Foundation

/-! ### Streams of known messages -/

/-- A complete frame that opens with a known type byte. -/
structure KnownFrame (s : List Byte) : Prop where
  complete : Segmentation.Complete frameLen s
  known : ∃ b t, s = b :: t ∧ (b = MsgFramer.typeAdd ∨ b = MsgFramer.typeUpdate ∨
    b = MsgFramer.typeDelete ∨ b = MsgFramer.typeExec ∨ b = MsgFramer.typeTrade)

theorem KnownFrame.le_length {s : List Byte} (h : KnownFrame s) : 17 ≤ s.length := by
  obtain ⟨b, t, hs, hb⟩ := h.known
  obtain ⟨b', t', hs', hlen⟩ := h.complete
  obtain ⟨rfl, -⟩ := List.cons.inj (hs.symm.trans hs')
  rw [hlen]
  rcases hb with rfl | rfl | rfl | rfl | rfl <;> decide

/-- Whatever has been accepted is the beginning of a concatenation of known frames. -/
def KnownStream (input : ℕ → AxisIn) : Prop :=
  ∀ t, ∃ segs : List (List Byte), (∀ s ∈ segs, KnownFrame s) ∧ accepted input t <+: segs.flatten

section Streams

variable {input : ℕ → AxisIn}

/-- A segment that ends in such a stream is a known frame. -/
theorem KnownStream.of_mem_frames (h : KnownStream input) {t : ℕ} {s : List Byte}
    (hs : s ∈ (frames (accepted input t)).1) : KnownFrame s := by
  obtain ⟨segs, hsegs, hprefix⟩ := h t
  have hcut : (frames (accepted input t)).1 <+: segs :=
    Segmentation.segment_of_front frameLen_pos (fun s hs => (hsegs s hs).complete) hprefix
  exact hsegs s (hcut.subset hs)

/-- Segments do not end in consecutive cycles. -/
theorem not_endsSegment_succ (h : KnownStream input) {c : ℕ} (hends : EndsSegment input c) :
    ¬ EndsSegment input (c + 1) := by
  intro hends'
  rcases frames_accepted_succ input (c + 1) with ⟨-, hcut⟩ | ⟨hnot, -⟩
  · -- the segment that ends second has one byte
    rw [hends.2, List.nil_append] at hcut
    have hmem : [(input (c + 1)).tdata] ∈ (frames (accepted input (c + 1 + 1))).1 := by
      rw [hcut]
      exact List.mem_append_right _ List.mem_cons_self
    have hlen := (h.of_mem_frames hmem).le_length
    rw [List.length_singleton] at hlen
    omega
  · exact hnot hends'

/-- So no message arrives right behind another. -/
theorem not_inValid_pred (h : KnownStream input) {t : ℕ}
    (hvalid : (parsedOf input (t + 1)).inValid = true) : (parsedOf input t).inValid = false := by
  refine Bool.eq_false_of_not_eq_true fun hbefore => ?_
  have hpulse (u : ℕ) : (parsedOf input u).inValid = true ↔
      ∃ c, u = c + 4 ∧ EndsSegment input c := by
    rw [← parsedValid_iff default input u, parser_kr260Top]
    rfl
  -- a message arrives four cycles behind the last byte of its segment
  obtain ⟨c, hc, hends⟩ := (hpulse t).mp hbefore
  obtain ⟨c', hc', hends'⟩ := (hpulse (t + 1)).mp hvalid
  obtain rfl : c' = c + 1 := by omega
  exact not_endsSegment_succ h hends hends'

end Streams

/-! ### Filling a slot -/

namespace LevelArray

/-- The number of valid levels. -/
def validCount (l : LevelArray) : ℕ := (Finset.univ.filter fun i => l.valid i = true).card

variable {l : LevelArray} {j : Fin 8} {q : BitVec 32} {p : BitVec 64}

/-- A new level at `j` of `l` makes `l'`. -/
structure NewLevel (l l' : LevelArray) (j : Fin 8) : Prop where
  free : l.valid j = false
  count : l'.validCount = l.validCount + 1
  others : ∀ i, l.valid i = true → l'.valid i = true ∧ l'.price i = l.price i ∧ l'.qty i = l.qty i

theorem validCount_fill (h : l.valid j = false) :
    (l.fill j q p).validCount = l.validCount + 1 := by
  have hfill : (Finset.univ.filter fun i => (l.fill j q p).valid i = true) =
      insert j (Finset.univ.filter fun i => l.valid i = true) := by
    ext i
    simp only [Finset.mem_insert, Finset.mem_filter, Finset.mem_univ, true_and]
    by_cases hij : i = j
    · subst hij
      simp [fill]
    · simp [fill, hij]
  rw [validCount, hfill, Finset.card_insert_of_notMem, validCount]
  simp [h]

theorem newLevel_fill (h : l.valid j = false) : NewLevel l (l.fill j q p) j := by
  refine ⟨h, validCount_fill h, fun i hi => ?_⟩
  have hij : i ≠ j := by
    rintro rfl
    exact Bool.false_ne_true (h.symm.trans hi)
  simp [fill, Function.update_of_ne hij, hi]

end LevelArray

namespace OrderBookEngine

/-- The engine executes the allocating branch of ADD for a side. -/
structure Allocates (s : OrderBookEngine) (i : EngineIn) (side : Side) : Prop where
  arrives : i.inValid = true
  add : i.inMsgType = 0
  forSide : sideIn i.inSide = side
  miss : ¬ s.matchR side < 8
  room : s.emptyR side < 8

/-- The slot found free in a cycle without a message is free in the next. -/
theorem newLevel_of_idle {s : OrderBookEngine} {late now : EngineIn} {side : Side}
    (hlate : late.inValid = false) (h : (s.next late).Allocates now side) :
    LevelArray.NewLevel ((s.next late).levels side) (((s.next late).next now).levels side)
      (LevelArray.slotOf ((s.next late).emptyR side)) := by
  -- the index was registered in a cycle that wrote no level
  have hsame := s.levels_next_of_idle side hlate
  have hempty : (s.next late).emptyR side = (s.levels side).emptyIdx := by cases side <;> rfl
  have hfree : (s.levels side).valid (LevelArray.slotOf (s.levels side).emptyIdx) = false := by
    rcases (s.levels side).emptyIdx_spec with ⟨-, hnone⟩ | ⟨hfull, -⟩
    · exact LevelArray.held_eq_none_iff.mp hnone
    · have hroom := h.room
      rw [hempty, hfull] at hroom
      exact absurd hroom (by decide)
  rw [levels_next_of_valid _ side h.arrives, if_pos h.forSide, LevelArray.write_of_miss h.miss,
    if_pos ⟨h.add, h.room⟩, hempty, hsame]
  exact LevelArray.newLevel_fill hfree

end OrderBookEngine

/-- **A new level never overwrites an occupied one.** Whatever the gaps of a stream of known
frames and the bytes in them, an ADD that allocates takes a free slot: the side has one valid
level more, and the others keep their prices and quantities. -/
theorem new_level_in_free_slot (powerUp : OrderBookEngine) (input : ℕ → AxisIn)
    (hstream : KnownStream input) (t : ℕ) (side : Side)
    (halloc : (kr260Top powerUp input t).engine.Allocates
      (kr260Top powerUp input t).parser.parsed side) :
    LevelArray.NewLevel ((kr260Top powerUp input t).engine.levels side)
      ((kr260Top powerUp input (t + 1)).engine.levels side)
      (LevelArray.slotOf ((kr260Top powerUp input t).engine.emptyR side)) := by
  have hengine : ∀ u, (kr260Top powerUp input u).engine = engine powerUp input u :=
    engine_kr260Top powerUp input
  have hparsed : (kr260Top powerUp input t).parser.parsed = parsedOf input t := by
    rw [parser_kr260Top]
    rfl
  rw [hengine, hparsed] at halloc
  rw [hengine, hengine]
  cases t with
  | zero => exact absurd halloc.arrives Bool.false_ne_true
  | succ t =>
    exact OrderBookEngine.newLevel_of_idle (not_inValid_pred hstream halloc.arrives) halloc

/-- Two bids at different prices, without gaps. -/
def newBids : List Msg := [.add ⟨0, 1, charB, 10, 100⟩, .add ⟨0, 2, charB, 5, 200⟩]

theorem knownStream_newBids : KnownStream (playback (stream newBids)) := by
  intro t
  refine ⟨newBids.map Msg.encode, fun s hs => ?_, ?_⟩
  · obtain ⟨m, hm, rfl⟩ := List.mem_map.mp hs
    rcases List.mem_pair.mp hm with rfl | rfl
    · exact ⟨⟨charA, _, rfl, by decide⟩, charA, _, rfl, .inl rfl⟩
    · exact ⟨⟨charA, _, rfl, by decide⟩, charA, _, rfl, .inl rfl⟩
  · rw [accepted_playback]
    exact List.take_prefix t _

/-- The second takes the slot next to that of the first. -/
theorem new_level_newBids :
    (kr260Top default (playback (stream newBids)) 63).engine.Allocates
        (kr260Top default (playback (stream newBids)) 63).parser.parsed .bid ∧
      LevelArray.NewLevel ((kr260Top default (playback (stream newBids)) 63).engine.levels .bid)
        ((kr260Top default (playback (stream newBids)) 64).engine.levels .bid) 6 := by
  have halloc : (kr260Top default (playback (stream newBids)) 63).engine.Allocates
      (kr260Top default (playback (stream newBids)) 63).parser.parsed .bid :=
    ⟨by decide +kernel, by decide +kernel, by decide +kernel, by decide +kernel,
      by decide +kernel⟩
  have hslot : LevelArray.slotOf
      ((kr260Top default (playback (stream newBids)) 63).engine.emptyR .bid) = 6 := by
    decide +kernel
  have hnew := new_level_in_free_slot default _ knownStream_newBids 63 .bid halloc
  rw [hslot] at hnew
  exact ⟨halloc, hnew⟩

end HftKr260
