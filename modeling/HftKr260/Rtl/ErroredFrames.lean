import HftKr260.Rtl.EngineFeed
import HftKr260.Rtl.ParserFrames
import Mathlib.Data.BitVec

/-!
# Frames in error

The parser flags a frame that is of no known type or too short for its type, and hands its
type to the engine all the same; the engine does not look at the flag. The type is read
thirty places before the frame's end, so a frame shorter than thirty bytes is read as what an
earlier frame has left there: it is then too short for an Add, or for an Update or an Execute
when it has a single byte, and carried out nevertheless.

## Main results

* `outError_iff` — which frames are flagged
* `errored_frames_ignored_iff` — the streams of which no flagged frame changes the book
-/

set_option autoImplicit false

namespace HftKr260

open Foundation MarketDataParser

/-! ### Updates without effect -/

attribute [ext] LevelArray

namespace LevelArray

variable (l : LevelArray)

/-- The update finds what it writes, or nothing to write to. -/
def Unaffected (matchR emptyR inMsgType : BitVec 4) (inQuantity : BitVec 32)
    (inPrice : BitVec 64) : Prop :=
  if inMsgType = 0 then
    if matchR < 8 then inQuantity = 0
    else if emptyR < 8 then
      l.valid (slotOf emptyR) = true ∧ l.price (slotOf emptyR) = inPrice ∧
        l.qty (slotOf emptyR) = inQuantity
    else True
  else if inMsgType = 1 ∨ inMsgType = 3 then
    if matchR < 8 then
      if l.qty (slotOf matchR) ≤ inQuantity then l.valid (slotOf matchR) = false
      else inQuantity = 0
    else True
  else if inMsgType = 2 then
    if matchR < 8 then l.valid (slotOf matchR) = false else True
  else True

variable {l}

theorem setValid_eq_self_iff (i : Fin 8) (v : Bool) :
    { l with valid := Function.update l.valid i v } = l ↔ l.valid i = v := by
  rw [LevelArray.ext_iff, Function.update_eq_self_iff]
  exact ⟨fun h => h.1.symm, fun h => ⟨h.symm, rfl, rfl⟩⟩

theorem setQty_eq_self_iff (i : Fin 8) (q : BitVec 32) :
    { l with qty := Function.update l.qty i q } = l ↔ q = l.qty i := by
  rw [LevelArray.ext_iff, Function.update_eq_self_iff]
  exact ⟨fun h => h.2.2, fun h => ⟨rfl, rfl, h⟩⟩

theorem write_eq_self_iff {matchR emptyR inMsgType : BitVec 4} {q : BitVec 32} {p : BitVec 64} :
    l.write matchR emptyR inMsgType q p = l ↔ l.Unaffected matchR emptyR inMsgType q p := by
  rw [write, Unaffected]
  split_ifs
  -- an Add to the slot found, to a free slot, and without a slot
  · rw [setQty_eq_self_iff]
    exact BitVec.add_right_eq_self
  · rw [LevelArray.ext_iff, Function.update_eq_self_iff, Function.update_eq_self_iff,
      Function.update_eq_self_iff, eq_comm, @eq_comm _ p, @eq_comm _ q]
  · exact iff_of_true rfl trivial
  -- an Update or Execute that empties the slot, that does not, and without a slot
  · exact setValid_eq_self_iff _ _
  · rw [setQty_eq_self_iff]
    exact sub_eq_self (a := l.qty (slotOf matchR))
  · exact iff_of_true rfl trivial
  -- a Delete
  · exact setValid_eq_self_iff _ _
  · exact iff_of_true rfl trivial
  · exact iff_of_true rfl trivial

end LevelArray

/-- A message changes nothing on the side it is for. -/
def OrderBookEngine.Ignores (s : OrderBookEngine) (i : EngineIn) : Prop :=
  let side := sideIn i.inSide
  (s.levels side).Unaffected (s.matchR side) (s.emptyR side) i.inMsgType i.inQuantity i.inPrice

theorem OrderBookEngine.levels_next_eq_iff (s : OrderBookEngine) {i : EngineIn}
    (h : i.inValid = true) :
    (∀ side, (s.next i).levels side = s.levels side) ↔ s.Ignores i := by
  rw [Ignores, ← LevelArray.write_eq_self_iff]
  constructor
  · intro hsame
    have hside := hsame (sideIn i.inSide)
    rwa [levels_next_of_valid _ _ h, if_pos rfl] at hside
  · intro hsame side
    rw [levels_next_of_valid _ _ h]
    split_ifs with hside
    · rw [← hside]
      exact hsame
    · rfl

/-- The types the engine knows are those of the four order messages. -/
theorem OrderBookEngine.ignores_of_other (s : OrderBookEngine) {i : EngineIn}
    (h : i.inMsgType = typeTrade ∨ i.inMsgType = typeUnkn) : s.Ignores i := by
  rw [Ignores, ← LevelArray.write_eq_self_iff]
  exact LevelArray.write_ignored h _ _ _ _

/-! ### The frames flagged -/

/-- A byte that opens a message which changes the book. -/
def OpensOrder (b : Byte) : Prop := b = msgAdd ∨ b = msgUpdate ∨ b = msgDelete ∨ b = msgExec

instance : DecidablePred OpensOrder := fun _ => inferInstanceAs (Decidable (_ ∨ _))

theorem decodeType_of_not_opensOrder {b : Byte} (h : ¬OpensOrder b) :
    decodeType b = typeTrade ∨ decodeType b = typeUnkn := by
  obtain ⟨hadd, hupdate, hdelete, hexec⟩ : b ≠ msgAdd ∧ b ≠ msgUpdate ∧ b ≠ msgDelete ∧
      b ≠ msgExec := by
    simpa [OpensOrder] using h
  rw [decodeType, if_neg hadd, if_neg hupdate, if_neg hdelete, if_neg hexec]
  split_ifs
  · exact .inl rfl
  · exact .inr rfl

theorem decodeType_ne_unkn {b : Byte} (h : OpensOrder b) : decodeType b ≠ typeUnkn := by
  rcases h with rfl | rfl | rfl | rfl <;> decide

section Flagged

variable (powerUp : OrderBookEngine) (input : ℕ → AxisIn)

/-- The frame open at cycle `c`, with the byte accepted in it. -/
def frameAt (c : ℕ) : List Byte := (frames (accepted input c)).2 ++ [(input c).tdata]

/-- The byte thirty places before the end of what is accepted up to cycle `c`. -/
def typeByteRead (c : ℕ) : Byte := recent (accepted input (c + 1)) 29

theorem length_frameAt (c : ℕ) : (frameAt input c).length ≤ 30 := by
  have hopen : (frames (accepted input c)).2.length < 30 := by
    have hrest := Segmentation.incomplete_rest frameLen_pos (accepted input c)
    change Segmentation.Incomplete frameLen (frames (accepted input c)).2 at hrest
    cases hframe : (frames (accepted input c)).2 with
    | nil => exact Nat.succ_pos 29
    | cons b t =>
      have hshort := hrest b t hframe
      rw [hframe] at hshort
      exact Nat.lt_of_lt_of_le hshort (frameLen_le b)
  rw [frameAt, List.length_append]
  exact hopen

/-- **The frames flagged**: of no known type, or too short for the type read. -/
theorem outError_iff {c : ℕ} (hends : EndsSegment input c) :
    (parser (framedOf input) (c + 4)).outError = true ↔
      decodeType (typeByteRead input c) = typeUnkn ∨
        (frameAt input c).length < minLength (typeByteRead input c) := by
  have hpulse : ((framedOf input (c + 1)).tvalid && (framedOf input (c + 1)).tlast) = true :=
    (outValid_succ_iff input c).mpr hends
  obtain ⟨-, herror⟩ := parser_class (framedOf input) (c + 1) hpulse
  have hcount : (parser (framedOf input) (c + 1)).byteCnt + 1 =
      BitVec.ofNat 6 (frameAt input c).length := by
    rw [parser_byteCnt, frameAt, List.length_append, BitVec.ofNat_add]
    have hcut : Segmentation.cutAfter (beats (framedOf input) (c + 1)) =
        frames (accepted input c) := cutAfter_framer input c
    rw [hcut]
    rfl
  have hbytes : seen (framedOf input) (c + 1) = accepted input (c + 1) := by
    rw [seen_framedOf]
    exact (accepted_succ_of_valid hends.1).symm
  rw [hcount, hbytes] at herror
  rw [herror]
  exact decodeError_iff _ (Nat.lt_of_le_of_lt (length_frameAt input c) (by decide))

/-- A type of an order that the frame is too short for is flagged, and no other type the
engine knows is. -/
theorem outError_of_opensOrder {c : ℕ} (hends : EndsSegment input c)
    (hopens : OpensOrder (typeByteRead input c)) :
    (parser (framedOf input) (c + 4)).outError = true ↔
      (frameAt input c).length < minLength (typeByteRead input c) := by
  rw [outError_iff input hends]
  exact or_iff_right (decodeType_ne_unkn hopens)

/-- What the flagged frames of a stream leave alone. -/
def ErroredIgnored : Prop :=
  ∀ t, (kr260Top powerUp input t).parser.outValid = true →
    (kr260Top powerUp input t).parser.outError = true →
    ∀ side, (kr260Top powerUp input (t + 1)).engine.levels side =
      (kr260Top powerUp input t).engine.levels side

/-- **Flagged frames and the book.** No flagged frame of a stream changes the book exactly if
each frame too short for the order read thirty places before its end asks for an update
without effect. -/
theorem errored_frames_ignored_iff :
    ErroredIgnored powerUp input ↔
      ∀ c, EndsSegment input c → OpensOrder (typeByteRead input c) →
        (frameAt input c).length < minLength (typeByteRead input c) →
        (engine powerUp input (c + 4)).Ignores (parsedOf input (c + 4)) := by
  have hstep (c : ℕ) (hends : EndsSegment input c) :
      (∀ side, (kr260Top powerUp input (c + 4 + 1)).engine.levels side =
        (kr260Top powerUp input (c + 4)).engine.levels side) ↔
        (engine powerUp input (c + 4)).Ignores (parsedOf input (c + 4)) := by
    rw [engine_kr260Top, engine_kr260Top]
    exact (engine powerUp input (c + 4)).levels_next_eq_iff ((outValid_succ_iff input c).mpr hends)
  constructor
  · intro hsame c hends hopens hshort
    refine (hstep c hends).mp (hsame (c + 4) ?_ ?_)
    · exact (parsedValid_iff powerUp input (c + 4)).mpr ⟨c, rfl, hends⟩
    · rw [parser_kr260Top]
      exact (outError_of_opensOrder input hends hopens).mpr hshort
  · intro hignores t hvalid herror
    obtain ⟨c, rfl, hends⟩ := (parsedValid_iff powerUp input t).mp hvalid
    refine (hstep c hends).mpr ?_
    by_cases hopens : OpensOrder (typeByteRead input c)
    · rw [parser_kr260Top] at herror
      exact hignores c hends hopens ((outError_of_opensOrder input hends hopens).mp herror)
    · -- read as a trade or as unknown
      refine OrderBookEngine.ignores_of_other _ ?_
      have htype : (parsedOf input (c + 4)).inMsgType = decodeType (typeByteRead input c) := by
        rw [typeByteRead, accepted_succ_of_valid hends.1]
        exact outMsgType_of_ends input hends
      rw [htype]
      exact decodeType_of_not_opensOrder hopens

end Flagged

/-- An Add whose second byte is the type byte of an Add, and a byte of no known type. -/
def strayByte : List Byte := msgAdd :: msgAdd :: List.replicate 28 1 ++ [0x58]

/-- The stray byte is flagged and carried out as an Add. -/
theorem strayByte_added :
    ((kr260Top default (playback strayByte) 34).parser.outValid = true ∧
      (kr260Top default (playback strayByte) 34).parser.outError = true) ∧
    ¬∀ powerUp input, ErroredIgnored powerUp input := by
  have hflagged : (kr260Top default (playback strayByte) 34).parser.outValid = true ∧
      (kr260Top default (playback strayByte) 34).parser.outError = true := by decide +kernel
  refine ⟨hflagged, fun h => ?_⟩
  have hsame : ((kr260Top default (playback strayByte) 35).engine.levels .bid).price 7 =
      ((kr260Top default (playback strayByte) 34).engine.levels .bid).price 7 := by
    rw [h default (playback strayByte) 34 hflagged.1 hflagged.2 .bid]
  exact absurd hsame (by decide +kernel)

end HftKr260
