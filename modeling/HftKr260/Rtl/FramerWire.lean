import HftKr260.Rtl.MsgFramer
import HftKr260.Software.Wire

/-!
# The framer on the wire protocol

The framer finds message boundaries by its own table of lengths. Against the packed
structs of the software the table is right for four of the five messages; a trade is 22
bytes on the wire and 23 in the table, so the framer takes the byte behind it along.

`frames_encode_iff` states exactly when the boundaries come out: when there is no trade.
-/

set_option autoImplicit false

namespace HftKr260

open Foundation

/-- Trades, whose length the two sides disagree on. -/
def Msg.IsTrade : Msg → Prop
  | .trade _ => True
  | _ => False

instance : DecidablePred Msg.IsTrade
  | .add _ => inferInstanceAs (Decidable False)
  | .update _ => inferInstanceAs (Decidable False)
  | .delete _ => inferInstanceAs (Decidable False)
  | .execute _ => inferInstanceAs (Decidable False)
  | .trade _ => inferInstanceAs (Decidable True)

/-- The framer's table agrees with `sizeof` except on trades. -/
theorem frameLen_typeByte (m : Msg) :
    frameLen m.typeByte = if m.IsTrade then m.size + 1 else m.size := by
  cases m <;> rfl

/-- An encoded message is a complete frame exactly if it is no trade. -/
theorem complete_encode_iff (m : Msg) :
    Segmentation.Complete frameLen m.encode ↔ ¬ m.IsTrade := by
  have hlen := frameLen_typeByte m
  obtain ⟨body, hbody⟩ := m.encode_eq_cons
  have hsize := m.length_encode
  constructor
  · rintro ⟨b, t, hbt, heq⟩ htrade
    rw [hbody] at hbt
    obtain ⟨rfl, -⟩ := List.cons.inj hbt
    rw [if_pos htrade] at hlen
    omega
  · intro htrade
    rw [if_neg htrade] at hlen
    exact ⟨m.typeByte, body, hbody, by omega⟩

/-- The boundaries of a stream of encoded messages are recovered exactly if none of them
is a trade. -/
theorem frames_encode_iff (ms : List Msg) :
    frames (ms.map Msg.encode).flatten = (ms.map Msg.encode, []) ↔ ∀ m ∈ ms, ¬ m.IsTrade := by
  constructor
  · intro hframes m hm
    rw [← complete_encode_iff]
    refine Segmentation.complete_of_mem_segment frameLen_pos
      (l := (ms.map Msg.encode).flatten) ?_
    change m.encode ∈ (frames (ms.map Msg.encode).flatten).1
    rw [hframes]
    exact List.mem_map_of_mem hm
  · intro htrade
    have hcomplete : ∀ s ∈ ms.map Msg.encode, Segmentation.Complete frameLen s := by
      intro s hs
      obtain ⟨m, hm, rfl⟩ := List.mem_map.mp hs
      exact (complete_encode_iff m).mpr (htrade m hm)
    have hcut := Segmentation.segment_eq hcomplete Segmentation.incomplete_nil
    rwa [List.append_nil] at hcut

/-- **The framer recovers the message boundaries exactly on streams without trades.** -/
theorem framer_recovers_encodings_iff (ms : List Msg) (input : ℕ → AxisIn) (t : ℕ)
    (hinput : accepted input t = (ms.map Msg.encode).flatten) :
    Segmentation.cutAfter
        (Clocked.transferred (fun c => (framer input c).mTvalid)
          (fun c => ((framer input c).mTdata, (framer input c).mTlast)) (t + 1)) =
      (ms.map Msg.encode, []) ↔ ∀ m ∈ ms, ¬ m.IsTrade := by
  rw [cutAfter_framer, hinput, frames_encode_iff]

/-- An Add and a Delete, sent without gaps. -/
def addThenDelete : List Msg := [.add ⟨0, 1, charB, 10, 100⟩, .delete ⟨0, 1⟩]

theorem framer_recovers_addThenDelete :
    Segmentation.cutAfter
        (Clocked.transferred
          (fun c => (framer (playback (addThenDelete.map Msg.encode).flatten) c).mTvalid)
          (fun c => ((framer (playback (addThenDelete.map Msg.encode).flatten) c).mTdata,
            (framer (playback (addThenDelete.map Msg.encode).flatten) c).mTlast)) 48) =
      (addThenDelete.map Msg.encode, []) := by
  refine (framer_recovers_encodings_iff addThenDelete _ 47 ?_).mpr (by decide)
  exact accepted_playback_of_le (by decide)

/-- A trade, then a Delete. -/
def tradeThenDelete : List Msg := [.trade ⟨0, charB, 10, 100⟩, .delete ⟨0, 1⟩]

/-- The trade's frame comes out with the first byte of the Delete. -/
theorem framer_loses_tradeThenDelete :
    accepted (playback (tradeThenDelete.map Msg.encode).flatten) 39 =
        (tradeThenDelete.map Msg.encode).flatten ∧
      Segmentation.cutAfter
        (Clocked.transferred
          (fun c => (framer (playback (tradeThenDelete.map Msg.encode).flatten) c).mTvalid)
          (fun c => ((framer (playback (tradeThenDelete.map Msg.encode).flatten) c).mTdata,
            (framer (playback (tradeThenDelete.map Msg.encode).flatten) c).mTlast)) 40) ≠
      (tradeThenDelete.map Msg.encode, []) := by
  have hall : accepted (playback (tradeThenDelete.map Msg.encode).flatten) 39 =
      (tradeThenDelete.map Msg.encode).flatten := accepted_playback_of_le (by decide)
  refine ⟨hall, ?_⟩
  rw [cutAfter_framer, hall, Ne, frames_encode_iff]
  decide

end HftKr260
