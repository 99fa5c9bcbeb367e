import HftKr260.Rtl.FramerWire
import HftKr260.Rtl.Kr260Top
import HftKr260.Rtl.ParserFrames
import HftKr260.Software.FeedHandler

/-!
# Hardware decode of an encoded Add

An Add fills the parser's window completely, so its pulse is decoded from its own bytes:
type, error flag and side come out as they should. The wire carries words most significant
byte first and the shift register keeps them that way round, so the reversal of stage 3
is one too many, and every word comes out with its bytes reversed.

`addFields_iff_palindromes` says which Adds are decoded to the fields the software reads:
those whose four words read the same in both directions.
-/

set_option autoImplicit false

namespace HftKr260

open Foundation MarketDataParser

/-- The frames of the accepted bytes and their pulses, one for one. -/
theorem datapath_pulses (input : ℕ → AxisIn) (t : ℕ) :
    PulsesOf (pulses (framedOf input) (t + 4)) (frames (accepted input t)).1 := by
  have hpulses := parser_pulses (framedOf input) (t + 1)
  have hcut : Segmentation.cutAfter (beats (framedOf input) (t + 1)) = frames (accepted input t) :=
    cutAfter_framer input t
  rwa [hcut] at hpulses

/-! ### The window of a full frame -/

section Window

variable {frame : List Byte} (hlen : frame.length = 30) (before : List Byte)
include hlen

/-- Byte `i` of a frame of thirty bytes, found from its end. -/
theorem recent_full {i : ℕ} (hi : i < 30) :
    recent (before ++ frame) (29 - i) = bufferOf frame i := by
  rw [recent_append_of_lt before (by omega), recent_eq_getD (by omega), hlen]
  congr 1
  omega

/-- An eight-byte field of the window is a little-endian load from the frame. -/
theorem word64_full {i : ℕ} (hi : i + 8 ≤ 30) :
    word64 (recent (before ++ frame)) (22 - i) = load64 (bufferOf frame) i := by
  refine eq_of_byte_eq (n := 8) rfl fun j hj => ?_
  rw [byte_word64 _ _ j hj, byte_load64 _ _ _ hj, ← recent_full hlen before (by omega)]
  congr 1
  omega

theorem word32_full {i : ℕ} (hi : i + 8 ≤ 30) :
    word32 (recent (before ++ frame)) (26 - i) = load32 (bufferOf frame) i := by
  refine eq_of_byte_eq (n := 4) rfl fun j hj => ?_
  rw [byte_word32 _ _ j hj, byte_load32 _ _ _ hj, ← recent_full hlen before (by omega)]
  congr 1
  omega

end Window

/-- A little-endian load is the network-order value with its bytes reversed. -/
theorem load64_eq_bswap64 (p : Buffer) (off : ℕ) : load64 p off = bswap64 (be64 p off) := by
  rw [be64, bswap64_bswap64]

theorem load32_eq_bswap32 (p : Buffer) (off : ℕ) : load32 p off = bswap32 (be32 p off) := by
  rw [be32, bswap32_bswap32]

/-! ### The pulse of an Add -/

/-- A pulse showing the fields of an Add. -/
structure AddFields (p : MarketDataParser) (ts orderRef : BitVec 64) (side : Byte)
    (qty : BitVec 32) (price : BitVec 64) : Prop where
  msgType : p.outMsgType = typeAdd
  error : p.outError = false
  timestamp : p.outTimestamp = ts
  orderRef : p.outOrderRef = orderRef
  side : p.outSide = true ↔ side = charS
  quantity : p.outQuantity = qty
  price : p.outPrice = price

/-- The window at the end of an encoded Add: the message's own bytes, and its words with
their bytes reversed. -/
structure AddWindow (bytes : List Byte) (m : MsgAddOrder) : Prop where
  msgType : recent bytes 29 = msgAdd
  timestamp : word64 (recent bytes) 21 = bswap64 m.timestampNs
  orderRef : word64 (recent bytes) 13 = bswap64 m.orderRef
  side : recent bytes 12 = m.side
  quantity : word32 (recent bytes) 8 = bswap32 m.quantity
  price : word64 (recent bytes) 0 = bswap64 m.price

theorem addWindow_encode (before : List Byte) (m : MsgAddOrder) :
    AddWindow (before ++ (Msg.add m).encode) m := by
  have hlen : (Msg.add m).encode.length = 30 := Msg.length_encode _
  have hreads := add_reads [] m
  rw [List.append_nil] at hreads
  obtain ⟨hts, href, hside, hqty, hprice⟩ := hreads
  refine ⟨?_, ?_, ?_, ?_, ?_, ?_⟩
  · exact recent_full hlen before (i := 0) (by omega)
  · rw [← hts, ← load64_eq_bswap64]
    exact word64_full hlen before (i := 1) (by omega)
  · rw [← href, ← load64_eq_bswap64]
    exact word64_full hlen before (i := 9) (by omega)
  · rw [← hside]
    exact recent_full hlen before (i := 17) (by omega)
  · rw [← hqty, ← load32_eq_bswap32]
    exact word32_full hlen before (i := 18) (by omega)
  · rw [← hprice, ← load64_eq_bswap64]
    exact word64_full hlen before (i := 22) (by omega)

/-- The pulse of an encoded Add shows its words byte-reversed, and all else as it is. -/
theorem PulseOf.add {p : MarketDataParser} {before : List Byte} {m : MsgAddOrder}
    (h : PulseOf p before (Msg.add m).encode) :
    AddFields p (bswap64 m.timestampNs) (bswap64 m.orderRef) m.side (bswap32 m.quantity)
      (bswap64 m.price) := by
  have hlen : (Msg.add m).encode.length = 30 := Msg.length_encode _
  have hwindow := addWindow_encode before m
  refine ⟨?_, ?_, ?_, ?_, ?_, ?_, ?_⟩
  · rw [h.msgType, hwindow.msgType]
    rfl
  · rw [h.error, hwindow.msgType, hlen]
    rfl
  · exact h.shows.timestamp.trans hwindow.timestamp
  · exact h.shows.orderRef.trans hwindow.orderRef
  · rw [h.shows.side, decide_eq_true_iff, hwindow.side]
    rfl
  · exact h.shows.quantity.trans hwindow.quantity
  · exact h.shows.price.trans hwindow.price

/-- Behind complete Adds an encoded Add has one pulse, the last. -/
theorem exists_addPulse (earlier : List MsgAddOrder) (m : MsgAddOrder) {input : ℕ → AxisIn} {t : ℕ}
    (hinput : accepted input t =
      (earlier.map fun a => (Msg.add a).encode).flatten ++ (Msg.add m).encode) :
    (pulses (framedOf input) (t + 4)).length = earlier.length + 1 ∧
      ∃ p, (pulses (framedOf input) (t + 4))[earlier.length]? = some p ∧
        AddFields p (bswap64 m.timestampNs) (bswap64 m.orderRef) m.side (bswap32 m.quantity)
          (bswap64 m.price) := by
  have hmsgs : accepted input t =
      (((earlier ++ [m]).map Msg.add).map Msg.encode).flatten := by
    rw [hinput]
    simp [Function.comp_def]
  have hframes : frames (accepted input t) =
      (((earlier ++ [m]).map Msg.add).map Msg.encode, []) := by
    rw [hmsgs, frames_encode_iff]
    intro m' hm'
    obtain ⟨a, -, rfl⟩ := List.mem_map.mp hm'
    exact id
  have hpulses := datapath_pulses input t
  rw [hframes] at hpulses
  have hlength : (pulses (framedOf input) (t + 4)).length = earlier.length + 1 := by
    simpa using hpulses.length
  have hp := List.getElem?_eq_getElem (l := pulses (framedOf input) (t + 4))
    (i := earlier.length) (by omega)
  exact ⟨hlength, _, hp, (hpulses.pulse _ _ _ hp (by simp)).add⟩

/-- **When hardware decode inverts the software encoder.** Behind complete Adds, the bytes
of `build_add` give one more pulse, and it shows the encoded fields, which are those
`handle_add` reads, exactly if each of the four words is a byte palindrome. -/
theorem addFields_iff_palindromes (earlier : List MsgAddOrder) (ts orderRef : BitVec 64)
    (side : Byte) (qty : BitVec 32) (price : BitVec 64) (hside : side = charB ∨ side = charS)
    (input : ℕ → AxisIn) (t : ℕ)
    (hinput : accepted input t = (earlier.map fun a => (Msg.add a).encode).flatten ++
      buildAdd ts orderRef side qty price) :
    (be64 (bufferOf (buildAdd ts orderRef side qty price)) 1 = ts ∧
      be64 (bufferOf (buildAdd ts orderRef side qty price)) 9 = orderRef ∧
      (sideOf (bufferOf (buildAdd ts orderRef side qty price) 17) = .ask ↔ side = charS) ∧
      be32 (bufferOf (buildAdd ts orderRef side qty price)) 18 = qty ∧
      be64s (bufferOf (buildAdd ts orderRef side qty price)) 22 = price.toInt) ∧
    (((pulses (framedOf input) (t + 4)).length = earlier.length + 1 ∧
        ∃ p, (pulses (framedOf input) (t + 4))[earlier.length]? = some p ∧
          AddFields p ts orderRef side qty price) ↔
      bswap64 ts = ts ∧ bswap64 orderRef = orderRef ∧ bswap32 qty = qty ∧
        bswap64 price = price) := by
  rw [buildAdd_eq_encode] at hinput ⊢
  have hreads := add_reads [] ⟨ts, orderRef, side, qty, price⟩
  rw [List.append_nil] at hreads
  obtain ⟨hts, href, hside', hqty, hprice⟩ := hreads
  obtain ⟨hlength, p, hp, hfields⟩ := exists_addPulse earlier _ hinput
  refine ⟨⟨hts, href, ?_, hqty, congrArg BitVec.toInt hprice⟩, ?_⟩
  · rw [hside']
    dsimp only
    rcases hside with rfl | rfl <;> decide
  · constructor
    · rintro ⟨-, p', hp', h⟩
      obtain rfl := Option.some.inj (hp.symm.trans hp')
      exact ⟨hfields.timestamp.symm.trans h.timestamp, hfields.orderRef.symm.trans h.orderRef,
        hfields.quantity.symm.trans h.quantity, hfields.price.symm.trans h.price⟩
    · rintro ⟨hts', href', hqty', hprice'⟩
      dsimp only at hfields
      rw [hts', href', hqty', hprice'] at hfields
      exact ⟨hlength, p, hp, hfields⟩

/-- An Add of palindromes behind another Add. -/
theorem addFields_palindromes :
    ∃ p, (pulses (framedOf (playback ((Msg.add ⟨1, 2, charB, 3, 4⟩).encode ++
        buildAdd 0 0x0100000000000001 charS 0x01000001 0x0000010000010000))) 64)[1]? = some p ∧
      AddFields p 0 0x0100000000000001 charS 0x01000001 0x0000010000010000 :=
  ((addFields_iff_palindromes [⟨1, 2, charB, 3, 4⟩] 0 0x0100000000000001 charS 0x01000001
    0x0000010000010000 (.inr rfl) _ 60 (accepted_playback_of_le (by decide))).2.mpr
      (by decide)).2

/-- An order reference of 1 comes out as `2 ^ 56`. -/
theorem addFields_reversed :
    ∃ p, (pulses (framedOf (playback (buildAdd 0 1 charB 10 100))) 34)[0]? = some p ∧
      p.outMsgType = typeAdd ∧ p.outOrderRef = 0x0100000000000000 ∧
      ¬ AddFields p 0 1 charB 10 100 := by
  have hinput : accepted (playback (buildAdd 0 1 charB 10 100)) 30 =
      (([] : List MsgAddOrder).map fun a => (Msg.add a).encode).flatten ++
        (Msg.add ⟨0, 1, charB, 10, 100⟩).encode := by
    rw [← buildAdd_eq_encode]
    exact accepted_playback_of_le (by decide)
  obtain ⟨-, p, hp, hfields⟩ := exists_addPulse [] _ hinput
  refine ⟨p, hp, hfields.msgType, hfields.orderRef.trans (by decide), fun h => ?_⟩
  exact absurd (hfields.orderRef.symm.trans h.orderRef) (by decide)

end HftKr260
