import HftKr260.Rtl.AddDecode
import HftKr260.Rtl.BookFill

/-!
# The engine behind a message stream

What the engine's book holds while messages stream through the datapath. At the end of a
message the engine is told the type, the side and the price found in the window of the last
thirty bytes, and the match index it uses was registered a cycle earlier, for the price found
then. An `EngineReading` is all that the levels depend on.

What is read as an Add arrives at its side, unless the price it was looked up by has arrived
there before. As long as nothing is read as taking from a level that is there (`Undisturbed`),
a side holds its arrivals: `levels_hold` says so for every stream, whatever the gaps between
the bytes.
-/

set_option autoImplicit false

namespace HftKr260

open Foundation MarketDataParser

/-! ### Two cycles of the engine -/

/-- The levels of a side. -/
def OrderBookEngine.levels (s : OrderBookEngine) : Side → LevelArray
  | .bid => s.bids
  | .ask => s.asks

/-- The best price shown for a side. -/
def OrderBookEngine.bestPrice (s : OrderBookEngine) : Side → BitVec 64
  | .bid => s.bestBidPrice
  | .ask => s.bestAskPrice

/-- The comparison in the selection tree of a side. -/
def Side.beats : Side → BitVec 64 → BitVec 64 → Bool
  | .bid => fun x y => decide (y < x)
  | .ask => fun x y => decide (x < y)

/-- The value that stands for an invalid slot in it. -/
def Side.absent : Side → BitVec 64
  | .bid => 0
  | .ask => BitVec.allOnes 64

theorem Side.beats_absent (side : Side) (x : BitVec 64) :
    side.beats side.absent x = false := by
  cases side with
  | bid => exact decide_eq_false (BitVec.not_lt_zero (x := x))
  | ask =>
    refine decide_eq_false fun hlt => ?_
    rw [Side.absent, BitVec.lt_def, BitVec.toNat_allOnes] at hlt
    have hbound := x.isLt
    omega

namespace OrderBookEngine

variable (s : OrderBookEngine) (side : Side)

/-- The side a message is for. -/
def sideIn (inSide : Bool) : Side := if inSide then .ask else .bid

/-- Between messages the levels stay as they are. -/
theorem levels_next_of_idle {i : EngineIn} (h : i.inValid = false) :
    (s.next i).levels side = s.levels side := by
  cases side with
  | bid => exact if_neg (by simp [h])
  | ask => exact if_neg (by simp [h])

/-- The match index registered for a side. -/
def matchR : Side → BitVec 4
  | .bid => s.bidMatchR
  | .ask => s.askMatchR

/-- The free slot registered for a side. -/
def emptyR : Side → BitVec 4
  | .bid => s.bidEmptyR
  | .ask => s.askEmptyR

/-- A message updates its side by the indices registered. -/
theorem levels_next_of_valid {i : EngineIn} (h : i.inValid = true) :
    (s.next i).levels side =
      if sideIn i.inSide = side then
        (s.levels side).write (s.matchR side) (s.emptyR side) i.inMsgType i.inQuantity i.inPrice
      else s.levels side := by
  cases side <;> cases hside : i.inSide <;> simp [levels, next, sideIn, h, hside, matchR, emptyR]

/-- A message is looked up by the price of the cycle before it. -/
theorem levels_next_next {late now : EngineIn} (hlate : late.inValid = false)
    (hnow : now.inValid = true) :
    ((s.next late).next now).levels side =
      if sideIn now.inSide = side then
        (s.levels side).write ((s.levels side).matchIdx late.inPrice) (s.levels side).emptyIdx
          now.inMsgType now.inQuantity now.inPrice
      else s.levels side := by
  cases side <;> cases hside : now.inSide <;> simp [levels, next, sideIn, hlate, hnow, hside]

/-- Two cycles later the outputs show the best of each side, if there is one. -/
theorem next_next_outputs (i i' : EngineIn) :
    (((s.next i).next i').tobValid = true ↔ ∀ side, (s.levels side).anyValid = true) ∧
      ∀ side, ((s.next i).next i').bestPrice side =
        (s.levels side).tree side.beats side.absent := by
  constructor
  · have hvalid : ((s.next i).next i').tobValid = (s.bids.anyValid && s.asks.anyValid) := rfl
    rw [hvalid, Bool.and_eq_true]
    constructor
    · rintro ⟨hbid, hask⟩ side
      cases side with
      | bid => exact hbid
      | ask => exact hask
    · exact fun hall => ⟨hall .bid, hall .ask⟩
  · intro side
    cases side <;> rfl

end OrderBookEngine

/-! ### What a message is read as -/

/-- The message type in the window at the end of a stream. -/
def typeRead (bytes : List Byte) : BitVec 4 := decodeType (recent bytes 29)

/-- The side in it. -/
def sideRead (bytes : List Byte) : Side := if recent bytes 12 = charS then .ask else .bid

/-- The price in it. -/
def priceRead (bytes : List Byte) : BitVec 64 := word64 (recent bytes) 0

/-- The bytes of a list of messages. -/
def stream (ms : List Msg) : List Byte := (ms.map Msg.encode).flatten

/-- What the engine is told of a message: the type, the side and the price in the window at
its end, and the price in the window a cycle before, by which it has been looked up. -/
structure EngineReading where
  msgType : BitVec 4
  side : Side
  price : BitVec 64
  lookup : BitVec 64
  deriving DecidableEq

/-- The reading of a window at the end of a message and of the window a cycle before. -/
def reading (bytes late : List Byte) : EngineReading where
  msgType := typeRead bytes
  side := sideRead bytes
  price := priceRead bytes
  lookup := priceRead late

/-- The bytes in the window a cycle before the one at the end of cycle `c`. The data lines count
in idle cycles too. -/
def lateBytes (input : ℕ → AxisIn) : ℕ → List Byte
  | 0 => []
  | c + 1 => accepted input c ++ [(input c).tdata]

/-- The readings of the segments that have ended in the first `t` cycles. -/
def readings (input : ℕ → AxisIn) : ℕ → List EngineReading :=
  Clocked.transferred (fun c => decide (EndsSegment input c)) fun c =>
    reading (accepted input (c + 1)) (lateBytes input c)

/-- What a reading adds to the arrivals of a side: the price of an Add, unless that of its
lookup has arrived or eight prices have. -/
def EngineReading.arrive (side : Side) (xs : List (BitVec 64)) (r : EngineReading) :
    List (BitVec 64) :=
  if r.msgType = typeAdd ∧ r.side = side ∧ r.lookup ∉ xs then (xs ++ [r.price]).take 8 else xs

/-- What arrives at one side of the engine. -/
def arrivals (side : Side) (rs : List EngineReading) : List (BitVec 64) :=
  rs.foldl (EngineReading.arrive side) []

/-- A reading that takes from a level: an Update, a Delete or an Execute of a price that has
arrived. -/
def EngineReading.Takes (r : EngineReading) (before : List EngineReading) : Prop :=
  (r.msgType = typeUpdate ∨ r.msgType = typeDelete ∨ r.msgType = typeExec) ∧
    r.lookup ∈ arrivals r.side before

instance (r : EngineReading) (before : List EngineReading) : Decidable (r.Takes before) :=
  inferInstanceAs (Decidable (_ ∧ _))

/-- Nothing is read as taking from a level. -/
def Undisturbed (rs : List EngineReading) : Prop :=
  ∀ i (r : EngineReading), rs[i]? = some r → ¬ r.Takes (rs.take i)

section Arrivals

variable {side : Side} {rs : List EngineReading} {r : EngineReading}

theorem arrivals_concat :
    arrivals side (rs ++ [r]) = EngineReading.arrive side (arrivals side rs) r := by
  rw [arrivals, arrivals, List.foldl_append]
  rfl

/-- What has arrived stays. -/
theorem arrivals_concat_ne_nil (h : arrivals side rs ≠ []) : arrivals side (rs ++ [r]) ≠ [] := by
  rw [arrivals_concat, EngineReading.arrive]
  split_ifs
  · simp
  · exact h

/-- A side that is read an Add has an arrival. -/
theorem arrivals_add_ne_nil (htype : r.msgType = typeAdd) (hside : r.side = side) :
    arrivals side (rs ++ [r]) ≠ [] := by
  rw [arrivals_concat, EngineReading.arrive]
  split_ifs with harrive
  · simp
  · -- its lookup was found
    have hfound : r.lookup ∈ arrivals side rs := by
      by_contra hfresh
      exact harrive ⟨htype, hside, hfresh⟩
    exact List.ne_nil_of_mem hfound

theorem Undisturbed.init (h : Undisturbed (rs ++ [r])) : Undisturbed rs := by
  intro i r' hr'
  obtain ⟨hi, -⟩ := List.getElem?_eq_some_iff.mp hr'
  have hall := h i r' (by rw [List.getElem?_append_left hi, hr'])
  rwa [List.take_append_of_le_length hi.le] at hall

theorem Undisturbed.last (h : Undisturbed (rs ++ [r])) : ¬ r.Takes rs := by
  have hlast := h rs.length r List.getElem?_concat_length
  rwa [List.take_left] at hlast

instance (rs : List EngineReading) : Decidable (Undisturbed rs) :=
  decidable_of_iff (∀ i : Fin rs.length, ¬ (rs.get i).Takes (rs.take i))
    ⟨fun h i r hr => by
      obtain ⟨hi, rfl⟩ := List.getElem?_eq_some_iff.mp hr
      exact h ⟨i, hi⟩,
    fun h i => h i _ (List.getElem?_eq_getElem i.isLt)⟩

end Arrivals

/-- The update of a side by a reading. -/
def LevelArray.receive (l : LevelArray) (side : Side) (r : EngineReading) (q : BitVec 32) :
    LevelArray :=
  if r.side = side then l.write (l.matchIdx r.lookup) l.emptyIdx r.msgType q r.price else l

/-- A reading takes a side from the arrivals before it to those with it. -/
theorem LevelArray.Holds.receive {l : LevelArray} {side : Side} {rs : List EngineReading}
    {r : EngineReading} (hl : l.Holds (arrivals side rs)) (hkeep : ¬ r.Takes rs) (q : BitVec 32) :
    (l.receive side r q).Holds (arrivals side (rs ++ [r])) := by
  rw [arrivals_concat, LevelArray.receive]
  unfold EngineReading.arrive
  by_cases hside : r.side = side
  · rw [if_pos hside]
    by_cases hfound : r.lookup ∈ arrivals side rs
    · rw [if_neg fun harrive => harrive.2.2 hfound]
      by_cases hadd : r.msgType = typeAdd
      · rw [hadd]
        exact hl.join (hl.matchIdx_lt hfound) _ q _
      · -- it takes nothing, so its type is none of the others
        have hother : ¬ (r.msgType = typeUpdate ∨ r.msgType = typeDelete ∨ r.msgType = typeExec) :=
          fun htype => hkeep ⟨htype, by rwa [hside]⟩
        rw [LevelArray.write_of_other hadd hother]
        exact hl
    · rw [hl.matchIdx hfound]
      by_cases hadd : r.msgType = typeAdd
      · rw [if_pos ⟨hadd, hside, hfound⟩, hadd]
        exact hl.arrive q _
      · rw [if_neg fun harrive => hadd harrive.1, LevelArray.write_of_no_match hadd]
        exact hl
  · rw [if_neg hside, if_neg fun harrive => hside harrive.2.1]
    exact hl

/-! ### The engine's run -/

/-- The engine's registers behind a byte stream. -/
def engine (powerUp : OrderBookEngine) (input : ℕ → AxisIn) : ℕ → OrderBookEngine :=
  Clocked.run OrderBookEngine.next powerUp.reset (parsedOf input)

section Run

variable (powerUp : OrderBookEngine) (input : ℕ → AxisIn)

theorem seen_framedOf (c : ℕ) :
    seen (framedOf input) (c + 1) = accepted input c ++ [(input c).tdata] := by
  rw [seen, received_framedOf, framedOf_succ_tdata]

/-- The parser's outputs four cycles behind an input cycle, pulse or not. -/
theorem shows_behind (c : ℕ) :
    Shows (parser (framedOf input) (c + 4)) (accepted input c ++ [(input c).tdata]) := by
  have hshows := parser_shows (framedOf input) (c + 1)
  rwa [seen_framedOf] at hshows

/-- The type of a pulse. -/
theorem outMsgType_of_ends {c : ℕ} (h : EndsSegment input c) :
    (parser (framedOf input) (c + 4)).outMsgType =
      typeRead (accepted input c ++ [(input c).tdata]) := by
  have hvalid := parser_outValid (framedOf input) (c + 1)
  have hpulse := (outValid_succ_iff input c).mpr h
  obtain ⟨htype, -⟩ := parser_class (framedOf input) (c + 1) (hvalid.symm.trans hpulse)
  rwa [seen_framedOf] at htype

variable (side : Side)

/-- The levels before the first message can have reached the engine. -/
theorem levels_start : (engine powerUp input 4).levels side = .cleared := by
  have hidle (t : ℕ) (ht : t < 4) :
      (engine powerUp input (t + 1)).levels side = (engine powerUp input t).levels side :=
    OrderBookEngine.levels_next_of_idle _ side (outValid_early input ht)
  rw [hidle 3 (by omega), hidle 2 (by omega), hidle 1 (by omega), hidle 0 (by omega)]
  cases side <;> rfl

/-- The levels in a cycle in which no segment ends. -/
theorem levels_of_not_ends {c : ℕ} (h : ¬ EndsSegment input c) :
    (engine powerUp input (c + 5)).levels side = (engine powerUp input (c + 4)).levels side := by
  apply OrderBookEngine.levels_next_of_idle
  exact Bool.eq_false_iff.mpr fun hvalid => h ((outValid_succ_iff input c).mp hvalid)

/-- The levels in a cycle in which a segment ends that is longer than a byte. -/
theorem levels_of_ends {c : ℕ} (hends : EndsSegment input (c + 1)) (hopen : ¬ EndsSegment input c) :
    ∃ q, (engine powerUp input (c + 6)).levels side =
      ((engine powerUp input (c + 5)).levels side).receive side
        (reading (accepted input (c + 2)) (lateBytes input (c + 1))) q := by
  have hlate : (parsedOf input (c + 4)).inValid = false :=
    Bool.eq_false_iff.mpr fun hvalid => hopen ((outValid_succ_iff input c).mp hvalid)
  have hnow : (parsedOf input (c + 5)).inValid = true :=
    (outValid_succ_iff input (c + 1)).mpr hends
  have hbytes : accepted input (c + 2) = accepted input (c + 1) ++ [(input (c + 1)).tdata] :=
    accepted_succ_of_valid hends.1
  have hshows := shows_behind input (c + 1)
  have htype := outMsgType_of_ends input hends
  rw [← hbytes] at hshows htype
  have hside : OrderBookEngine.sideIn (parsedOf input (c + 5)).inSide =
      sideRead (accepted input (c + 2)) := by
    have hout : (parsedOf input (c + 5)).inSide = _ := hshows.side
    rw [hout]
    simp only [OrderBookEngine.sideIn, decide_eq_true_iff]
    rfl
  have hstep := (engine powerUp input (c + 4)).levels_next_next side hlate hnow
  rw [hside] at hstep
  refine ⟨(parsedOf input (c + 5)).inQuantity, ?_⟩
  rw [levels_of_not_ends powerUp input side hopen]
  have hlatePrice : (parsedOf input (c + 4)).inPrice = _ := (shows_behind input c).price
  have hnowPrice : (parsedOf input (c + 5)).inPrice = _ := hshows.price
  have hnowType : (parsedOf input (c + 5)).inMsgType = _ := htype
  rw [hlatePrice, hnowPrice, hnowType] at hstep
  exact hstep

end Run

/-! ### What the levels hold -/

section Readings

variable {input : ℕ → AxisIn} {c : ℕ}

theorem readings_succ_of_ends (h : EndsSegment input c) :
    readings input (c + 1) =
      readings input c ++ [reading (accepted input (c + 1)) (lateBytes input c)] :=
  Clocked.transferred_succ_of_valid (decide_eq_true h)

theorem readings_succ_of_not_ends (h : ¬ EndsSegment input c) :
    readings input (c + 1) = readings input c :=
  Clocked.transferred_succ_of_idle (decide_eq_false h)

/-- No segment of a single byte has ended. -/
def LongSegments (input : ℕ → AxisIn) (t : ℕ) : Prop :=
  ∀ f ∈ (frames (accepted input t)).1, 1 < f.length

/-- A segment of more than one byte ends in a cycle behind one in which none ends. -/
theorem LongSegments.exists_pred (h : LongSegments input (c + 1)) (hends : EndsSegment input c) :
    ∃ c', c = c' + 1 ∧ ¬ EndsSegment input c' := by
  rcases frames_accepted_succ input c with ⟨-, hcut⟩ | ⟨hnot, -⟩
  · have hlong := h ((frames (accepted input c)).2 ++ [(input c).tdata]) (by rw [hcut]; simp)
    have hrest : (frames (accepted input c)).2 ≠ [] := by
      intro hnil
      rw [hnil] at hlong
      exact absurd hlong (by simp)
    cases c with
    | zero => exact absurd (by rw [accepted_zero, frames_nil]) hrest
    | succ c' => exact ⟨c', rfl, fun hopen => hrest hopen.2⟩
  · exact absurd hends hnot

theorem LongSegments.pred (h : LongSegments input (c + 1)) : LongSegments input c := by
  intro f hf
  apply h
  rcases frames_accepted_succ input c with ⟨-, hcut⟩ | ⟨-, hcut⟩
  · rw [hcut]
    exact List.mem_append_left _ hf
  · rw [hcut]
    exact hf

/-- **What the engine holds.** While nothing is read as taking from a level, each side holds
the arrivals of the segments whose last byte was accepted at least four cycles before. -/
theorem levels_hold (powerUp : OrderBookEngine) (hlong : LongSegments input c)
    (hquiet : Undisturbed (readings input c)) (side : Side) :
    ((engine powerUp input (c + 4)).levels side).Holds (arrivals side (readings input c)) := by
  induction c with
  | zero =>
    rw [levels_start]
    exact LevelArray.holds_cleared
  | succ c ih =>
    by_cases hends : EndsSegment input c
    · obtain ⟨c, rfl, hopen⟩ := hlong.exists_pred hends
      obtain ⟨q, hlevels⟩ := levels_of_ends powerUp input side hends hopen
      rw [readings_succ_of_ends hends] at hquiet ⊢
      rw [show c + 1 + 1 + 4 = c + 6 from rfl, hlevels]
      exact (ih hlong.pred hquiet.init).receive hquiet.last q
    · rw [readings_succ_of_not_ends hends] at hquiet ⊢
      rw [show c + 1 + 4 = c + 5 from rfl, levels_of_not_ends powerUp input side hends]
      exact ih hlong.pred hquiet

end Readings

/-! ### Streams of messages -/

/-- Sides named on the wire as the protocol has them. -/
def SidesOk (ms : List Msg) : Prop :=
  ∀ a, Msg.add a ∈ ms → a.side = charB ∨ a.side = charS

/-- An Add is read as one, to its side. -/
theorem reading_add (sent : List Byte) {a : MsgAddOrder} (hside : a.side = charB ∨ a.side = charS)
    (late : List Byte) :
    (reading (sent ++ (Msg.add a).encode) late).msgType = typeAdd ∧
      (reading (sent ++ (Msg.add a).encode) late).side = sideOf a.side := by
  have hwindow := addWindow_encode sent a
  constructor
  · rw [reading, typeRead, hwindow.msgType]
    rfl
  · rw [reading, sideRead, hwindow.side]
    rcases hside with hB | hS
    · rw [hB]
      rfl
    · rw [hS]
      rfl

/-- The last message of the bytes accepted when a segment has ended. -/
theorem accepted_of_ends {input : ℕ → AxisIn} {c : ℕ} {before : List Msg}
    (hends : EndsSegment input c)
    (hframes : (frames (accepted input (c + 1))).1 = before.map Msg.encode) :
    ∃ done m, before = done ++ [m] ∧ accepted input (c + 1) = stream done ++ m.encode ∧
      (frames (accepted input c)).1 = done.map Msg.encode := by
  have hflat : (frames (accepted input (c + 1))).1.flatten ++
      (frames (accepted input (c + 1))).2 = accepted input (c + 1) :=
    Segmentation.segment_flatten frameLen_pos (accepted input (c + 1))
  rcases frames_accepted_succ input c with ⟨-, hcut⟩ | ⟨hnot, -⟩
  · rw [hframes, hends.2, List.append_nil] at hflat
    rw [hcut] at hframes
    obtain ⟨done, last, rfl, hdone, hlast⟩ := List.map_eq_append_iff.mp hframes.symm
    obtain ⟨m, rfl, -⟩ := List.map_eq_singleton_iff.mp hlast
    refine ⟨done, m, rfl, ?_, hdone.symm⟩
    rw [← hflat, List.map_append, List.flatten_append, List.map_singleton, List.flatten_singleton]
    rfl
  · exact absurd hends hnot

/-- A side that an Add has been sent for has an arrival. -/
theorem arrivals_ne_nil_of_add {input : ℕ → AxisIn} {c : ℕ} {before : List Msg}
    (hsides : SidesOk before)
    (hframes : (frames (accepted input c)).1 = before.map Msg.encode) {a : MsgAddOrder}
    (ha : Msg.add a ∈ before) : arrivals (sideOf a.side) (readings input c) ≠ [] := by
  induction c generalizing before with
  | zero =>
    rw [accepted_zero, frames_nil] at hframes
    rw [List.map_eq_nil_iff.mp hframes.symm] at ha
    exact absurd ha List.not_mem_nil
  | succ c ih =>
    by_cases hends : EndsSegment input c
    · obtain ⟨done, m, rfl, hbytes, hdone⟩ := accepted_of_ends hends hframes
      rw [readings_succ_of_ends hends, hbytes]
      rcases List.mem_append.mp ha with hearlier | hlast
      · exact arrivals_concat_ne_nil
          (ih (fun a' ha' => hsides a' (List.mem_append_left _ ha')) hdone hearlier)
      · obtain rfl := List.mem_singleton.mp hlast
        obtain ⟨htype, hside⟩ := reading_add (stream done) (hsides a ha) (lateBytes input c)
        exact arrivals_add_ne_nil htype hside
    · rw [readings_succ_of_not_ends hends]
      rcases frames_accepted_succ input c with ⟨hyes, -⟩ | ⟨-, hcut⟩
      · exact absurd hyes hends
      · exact ih hsides (hcut.symm.trans hframes) ha

/-! ### After the stream -/

/-- The bytes of the messages have been accepted in the first `t₀` cycles, and at least
eight idle cycles have followed up to cycle `t`. -/
structure Streamed (ms : List Msg) (input : ℕ → AxisIn) (t₀ t : ℕ) : Prop where
  sent : accepted input t₀ = stream ms
  idle : ∀ c, t₀ ≤ c → c < t → (input c).tvalid = false
  wait : t₀ + 8 ≤ t

section Streamed

variable {ms : List Msg} {input : ℕ → AxisIn} {t₀ t : ℕ} (h : Streamed ms input t₀ t)
include h

theorem Streamed.frames_eq (htrade : ∀ m ∈ ms, ¬ m.IsTrade) :
    (frames (accepted input t₀)).1 = ms.map Msg.encode := by
  rw [h.sent, stream, (frames_encode_iff ms).mpr htrade]

/-- Once a stream has been sent, `tob_valid` says that both sides had arrivals, and the best
price of a side is the arrival that is shown. -/
theorem Streamed.outputs (powerUp : OrderBookEngine) (htrade : ∀ m ∈ ms, ¬ m.IsTrade)
    (hquiet : Undisturbed (readings input t₀)) :
    ((engine powerUp input t).tobValid = true ↔ ∀ side, arrivals side (readings input t₀) ≠ []) ∧
      ∀ side m, arrivals side (readings input t₀) ≠ [] →
        ((engine powerUp input t).bestPrice side = m ↔
          LevelArray.Shown side.beats (arrivals side (readings input t₀)) m) := by
  obtain ⟨c, rfl⟩ := Nat.exists_eq_add_of_le' (show 6 ≤ t by have := h.wait; omega)
  have hwait := h.wait
  -- nothing has been sent since
  have hidle (c' : ℕ) (hfrom : t₀ ≤ c') (hto : c' < c) : (input c').tvalid = false :=
    h.idle c' hfrom (by omega)
  have hall : accepted input c = accepted input t₀ :=
    Clocked.transferred_of_idle (by omega) hidle
  have hread : readings input c = readings input t₀ :=
    Clocked.transferred_of_idle (by omega) fun c' hfrom hto => decide_eq_false fun hends =>
      Bool.false_ne_true ((hidle c' hfrom hto).symm.trans hends.1)
  have hlong : LongSegments input c := by
    intro f hf
    rw [hall, h.frames_eq htrade] at hf
    obtain ⟨m, -, rfl⟩ := List.mem_map.mp hf
    rw [Msg.length_encode]
    exact m.one_lt_size
  rw [← hread] at hquiet ⊢
  have hl (side : Side) := levels_hold powerUp hlong hquiet side
  obtain ⟨hvalid, hbest⟩ := (engine powerUp input (c + 4)).next_next_outputs
    (parsedOf input (c + 4)) (parsedOf input (c + 5))
  constructor
  · exact hvalid.trans (forall_congr' fun side => (hl side).anyValid)
  · intro side m harrived
    have hshown := (hl side).tree_eq_iff (m := m) side.beats_absent harrived
    rw [← hbest side] at hshown
    exact hshown

end Streamed

/-! ### Streams without gaps -/

theorem streamed_playback (ms : List Msg) :
    Streamed ms (playback (stream ms)) (stream ms).length ((stream ms).length + 8) where
  sent := accepted_playback_of_le le_rfl
  idle := fun c hc _ => Bool.eq_false_iff.mpr fun hvalid =>
    absurd ((tvalid_playback_iff _ c).mp hvalid) (by omega)
  wait := le_rfl

/-- The readings of messages sent without gaps: the window of the cycle before is the one
without the last byte. -/
def gaplessReadings (sent : List Byte) : List Msg → List EngineReading
  | [] => []
  | m :: ms =>
    reading (sent ++ m.encode) (sent ++ m.encode).dropLast :: gaplessReadings (sent ++ m.encode) ms

theorem gaplessReadings_concat (sent : List Byte) (ms : List Msg) (m : Msg) :
    gaplessReadings sent (ms ++ [m]) =
      gaplessReadings sent ms ++
        [reading (sent ++ (stream ms ++ m.encode)) (sent ++ (stream ms ++ m.encode)).dropLast] := by
  induction ms generalizing sent with
  | nil => rfl
  | cons m' ms ih =>
    rw [List.cons_append, gaplessReadings, gaplessReadings, ih]
    simp [stream]

theorem readings_gapless {bytes : List Byte} {c : ℕ} {before : List Msg} (hc : c ≤ bytes.length)
    (hframes : (frames (accepted (playback bytes) c)).1 = before.map Msg.encode) :
    readings (playback bytes) c = gaplessReadings [] before := by
  induction c generalizing before with
  | zero =>
    rw [accepted_zero, frames_nil] at hframes
    rw [List.map_eq_nil_iff.mp hframes.symm]
    rfl
  | succ c ih =>
    by_cases hends : EndsSegment (playback bytes) c
    · obtain ⟨done, m, rfl, hbytes, hdone⟩ := accepted_of_ends hends hframes
      have hlate : lateBytes (playback bytes) c = (stream done ++ m.encode).dropLast := by
        rw [← hbytes, accepted_succ_of_valid hends.1, List.dropLast_concat]
        cases c with
        | zero => rfl
        | succ c =>
          exact (accepted_succ_of_valid ((tvalid_playback_iff bytes c).mpr (by omega))).symm
      rw [readings_succ_of_ends hends, ih (by omega) hdone, hbytes, hlate,
        gaplessReadings_concat]
      rfl
    · rw [readings_succ_of_not_ends hends]
      rcases frames_accepted_succ (playback bytes) c with ⟨hyes, -⟩ | ⟨-, hcut⟩
      · exact absurd hyes hends
      · exact ih (by omega) (hcut.symm.trans hframes)

theorem readings_playback {ms : List Msg} (htrade : ∀ m ∈ ms, ¬ m.IsTrade) :
    readings (playback (stream ms)) (stream ms).length = gaplessReadings [] ms :=
  readings_gapless le_rfl ((streamed_playback ms).frames_eq htrade)

end HftKr260
