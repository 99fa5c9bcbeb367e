import HftKr260.Foundation.Segmentation
import HftKr260.Rtl.ByteStream
import Mathlib.Data.List.GetD

/-!
# market_data_parser

The second stage of the datapath: framed bytes come in, decoded fields go out, three
cycles behind the last byte of a frame. The frame is collected in a 30-byte shift
register and its fields are read at fixed places of it, in pipeline registers of their
own.

Registers keep their Verilog widths and their fixed bit ranges. `recent bytes i` is the
`i`-th last byte received; the shift register holds the last thirty of them, and
`parser_output` says what the output registers show in terms of that window: the fields
of the window, most significant byte last.
-/

set_option autoImplicit false

namespace HftKr260

open Foundation

/-- One cycle of the framed byte port. -/
structure FramedIn where
  tdata : Byte
  tvalid : Bool
  tlast : Bool
  deriving DecidableEq, Repr

/-- The registers of `market_data_parser`. -/
structure MarketDataParser where
  frameSr : BitVec 240
  byteCnt : BitVec 6
  p1Frame : BitVec 240
  p1ByteCnt : BitVec 6
  p1Valid : Bool
  p2Type : Byte
  p2Ts : BitVec 64
  p2Ref : BitVec 64
  p2SideByte : Byte
  p2Qty : BitVec 32
  p2Price : BitVec 64
  p2ByteCnt : BitVec 6
  p2Valid : Bool
  outValid : Bool
  outMsgType : BitVec 4
  outTimestamp : BitVec 64
  outOrderRef : BitVec 64
  outSide : Bool
  outQuantity : BitVec 32
  outPrice : BitVec 64
  outError : Bool
  deriving DecidableEq, Repr

namespace MarketDataParser

def msgAdd : Byte := 0x41
def msgUpdate : Byte := 0x55
def msgDelete : Byte := 0x44
def msgExec : Byte := 0x45
def msgTrade : Byte := 0x50

def typeAdd : BitVec 4 := 0
def typeUpdate : BitVec 4 := 1
def typeDelete : BitVec 4 := 2
def typeExec : BitVec 4 := 3
def typeTrade : BitVec 4 := 4
def typeUnkn : BitVec 4 := 15

/-- `{frame_sr[231:0], s_tdata}`. -/
def shiftIn (frameSr : BitVec 240) (sTdata : Byte) : BitVec 240 :=
  frameSr.extractLsb 231 0 ++ sTdata

/-- `{x[7:0], x[15:8], x[23:16], x[31:24], x[39:32], x[47:40], x[55:48], x[63:56]}`. -/
def le64 (x : BitVec 64) : BitVec 64 :=
  x.extractLsb 7 0 ++ x.extractLsb 15 8 ++ x.extractLsb 23 16 ++ x.extractLsb 31 24 ++
    x.extractLsb 39 32 ++ x.extractLsb 47 40 ++ x.extractLsb 55 48 ++ x.extractLsb 63 56

/-- `{x[7:0], x[15:8], x[23:16], x[31:24]}`. -/
def le32 (x : BitVec 32) : BitVec 32 :=
  x.extractLsb 7 0 ++ x.extractLsb 15 8 ++ x.extractLsb 23 16 ++ x.extractLsb 31 24

/-- The message type `case (p2_type)` assigns. -/
def decodeType (p2Type : Byte) : BitVec 4 :=
  if p2Type = msgAdd then typeAdd
  else if p2Type = msgUpdate then typeUpdate
  else if p2Type = msgDelete then typeDelete
  else if p2Type = msgExec then typeExec
  else if p2Type = msgTrade then typeTrade
  else typeUnkn

/-- The error flag `case (p2_type)` assigns. -/
def decodeError (p2Type : Byte) (p2ByteCnt : BitVec 6) : Bool :=
  if p2Type = msgAdd then p2ByteCnt < 30
  else if p2Type = msgUpdate then p2ByteCnt < 21
  else if p2Type = msgDelete then p2ByteCnt < 17
  else if p2Type = msgExec then p2ByteCnt < 21
  else if p2Type = msgTrade then p2ByteCnt < 23
  else true

def reset : MarketDataParser where
  frameSr := 0
  byteCnt := 0
  p1Frame := 0
  p1ByteCnt := 0
  p1Valid := false
  p2Type := 0
  p2Ts := 0
  p2Ref := 0
  p2SideByte := 0
  p2Qty := 0
  p2Price := 0
  p2ByteCnt := 0
  p2Valid := false
  outValid := false
  outMsgType := typeUnkn
  outTimestamp := 0
  outOrderRef := 0
  outSide := false
  outQuantity := 0
  outPrice := 0
  outError := false

/-- `s_tready`: the parser is always ready. -/
def sTready : Bool := true

/-- The clocked blocks outside reset. -/
def next (s : MarketDataParser) (sTdata : Byte) (sTvalid sTlast : Bool) : MarketDataParser where
  -- stage 1
  frameSr := if sTvalid then shiftIn s.frameSr sTdata else s.frameSr
  byteCnt := if sTvalid then (if sTlast then 0 else s.byteCnt + 1) else s.byteCnt
  -- stage 1 to 2: the frame is taken along in every cycle, valid or not
  p1Valid := sTvalid && sTlast
  p1ByteCnt := s.byteCnt + 1
  p1Frame := shiftIn s.frameSr sTdata
  -- stage 2
  p2Valid := s.p1Valid
  p2ByteCnt := s.p1ByteCnt
  p2Type := s.p1Frame.extractLsb 239 232
  p2Ts := s.p1Frame.extractLsb 231 168
  p2Ref := s.p1Frame.extractLsb 167 104
  p2SideByte := s.p1Frame.extractLsb 103 96
  p2Qty := s.p1Frame.extractLsb 95 64
  p2Price := s.p1Frame.extractLsb 63 0
  -- stage 3
  outValid := s.p2Valid
  outTimestamp := le64 s.p2Ts
  outOrderRef := le64 s.p2Ref
  outSide := s.p2SideByte = 0x53
  outQuantity := le32 s.p2Qty
  outPrice := le64 s.p2Price
  outMsgType := if s.p2Valid then decodeType s.p2Type else s.outMsgType
  outError := if s.p2Valid then decodeError s.p2Type s.p2ByteCnt else false

end MarketDataParser

/-- The parser's registers from reset on. -/
def parser (input : ℕ → FramedIn) : ℕ → MarketDataParser :=
  Clocked.run (fun s i => s.next i.tdata i.tvalid i.tlast) MarketDataParser.reset input

/-- The marked bytes a framed port has transferred in the first `t` cycles. -/
def beats (input : ℕ → FramedIn) : ℕ → List (Byte × Bool) :=
  Clocked.transferred (fun c => (input c).tvalid) (fun c => ((input c).tdata, (input c).tlast))

/-- The bytes a framed port has transferred in the first `t` cycles. -/
def received (input : ℕ → FramedIn) : ℕ → List Byte :=
  Clocked.transferred (fun c => (input c).tvalid) (fun c => (input c).tdata)

/-! ### The window of recent bytes -/

/-- The `i`-th last byte of a stream; the reset value of the shift register lies before
the first byte. -/
def recent (bytes : List Byte) (i : ℕ) : Byte := bytes.reverse.getD i 0

@[simp] theorem recent_concat_zero (bytes : List Byte) (b : Byte) :
    recent (bytes ++ [b]) 0 = b := by
  simp [recent]

@[simp] theorem recent_concat_succ (bytes : List Byte) (b : Byte) (i : ℕ) :
    recent (bytes ++ [b]) (i + 1) = recent bytes i := by
  simp [recent]

/-- Inside the last part of a stream, counted from its end. -/
theorem recent_append_of_lt (front : List Byte) {frame : List Byte} {i : ℕ}
    (h : i < frame.length) : recent (front ++ frame) i = recent frame i := by
  unfold recent
  rw [List.reverse_append, List.getD_append _ _ _ _ (by simpa using h)]

/-- Before the last part of a stream. -/
theorem recent_append_of_le (front : List Byte) {frame : List Byte} {i : ℕ}
    (h : frame.length ≤ i) : recent (front ++ frame) i = recent front (i - frame.length) := by
  unfold recent
  rw [List.reverse_append, List.getD_append_right _ _ _ _ (by simpa using h), List.length_reverse]

/-- The bytes of a frame in its own order. -/
theorem recent_eq_getD {frame : List Byte} {i : ℕ} (h : i < frame.length) :
    recent frame i = frame.getD (frame.length - 1 - i) 0 := by
  rw [recent, List.getD_eq_getElem?_getD, List.getElem?_reverse h, List.getD_eq_getElem?_getD]

namespace MarketDataParser

/-- Byte `i` of a word of eight bytes of a window, the newest of them on top. -/
def word64 (w : ℕ → Byte) (i : ℕ) : BitVec 64 :=
  w i ++ w (i + 1) ++ w (i + 2) ++ w (i + 3) ++ w (i + 4) ++ w (i + 5) ++ w (i + 6) ++ w (i + 7)

def word32 (w : ℕ → Byte) (i : ℕ) : BitVec 32 :=
  w i ++ w (i + 1) ++ w (i + 2) ++ w (i + 3)

theorem byte_word64 (w : ℕ → Byte) (i j : ℕ) (hj : j < 8) :
    byte (word64 w i) j = w (i + (7 - j)) := by
  interval_cases j <;> simp [word64]

theorem byte_word32 (w : ℕ → Byte) (i j : ℕ) (hj : j < 4) :
    byte (word32 w i) j = w (i + (3 - j)) := by
  interval_cases j <;> simp [word32]

/-- The concatenations of stage 3 reverse the bytes. -/
theorem le64_eq (x : BitVec 64) : le64 x = bswap64 x := rfl

theorem le32_eq (x : BitVec 32) : le32 x = bswap32 x := rfl

theorem byte_shiftIn_zero (x : BitVec 240) (b : Byte) : byte (shiftIn x b) 0 = b :=
  byte_append_zero _ b

theorem byte_shiftIn_succ (x : BitVec 240) (b : Byte) {i : ℕ} (hi : i < 29) :
    byte (shiftIn x b) (i + 1) = byte x i := by
  have hcut := byte_extractLsb' x 0 29 i hi
  rw [Nat.zero_add] at hcut
  exact (byte_append_succ _ b i).trans hcut

/-- A shift register that holds the last thirty bytes of a stream. -/
def Holds (x : BitVec 240) (bytes : List Byte) : Prop := ∀ i < 30, byte x i = recent bytes i

theorem holds_zero : Holds 0 [] := by
  intro i _
  simp [byte, recent]

theorem Holds.shiftIn {x : BitVec 240} {bytes : List Byte} (h : Holds x bytes) (b : Byte) :
    Holds (shiftIn x b) (bytes ++ [b]) := by
  -- the new byte is the most recent, every other one moves up a place
  intro i hi
  cases i with
  | zero => rw [byte_shiftIn_zero, recent_concat_zero]
  | succ i => rw [byte_shiftIn_succ x b (by omega), recent_concat_succ, h i (by omega)]

section Fields

variable {x : BitVec 240} {bytes : List Byte} (h : Holds x bytes)
include h

/-- A byte field of the window. -/
theorem Holds.field8 {i : ℕ} (hi : i < 30) : x.extractLsb' (8 * i) 8 = recent bytes i := h i hi

/-- An eight-byte field of the window, byte-reversed. -/
theorem Holds.field64 {i : ℕ} (hi : i + 8 ≤ 30) :
    le64 (x.extractLsb' (8 * i) (8 * 8)) = word64 (recent bytes) i := by
  refine eq_of_byte_eq (n := 8) rfl fun j hj => ?_
  have hcut := byte_extractLsb' x i 8 (7 - j) (by omega)
  rw [le64_eq, byte_bswap64 _ j hj, byte_word64 _ _ j hj, ← h (i + (7 - j)) (by omega)]
  exact hcut

/-- A four-byte field of the window, byte-reversed. -/
theorem Holds.field32 {i : ℕ} (hi : i + 4 ≤ 30) :
    le32 (x.extractLsb' (8 * i) (8 * 4)) = word32 (recent bytes) i := by
  refine eq_of_byte_eq (n := 4) rfl fun j hj => ?_
  have hcut := byte_extractLsb' x i 4 (3 - j) (by omega)
  rw [le32_eq, byte_bswap32 _ j hj, byte_word32 _ _ j hj, ← h (i + (3 - j)) (by omega)]
  exact hcut

end Fields

end MarketDataParser

/-! ### The pipeline -/

section Pipeline

open MarketDataParser

variable (input : ℕ → FramedIn)

theorem parser_succ (t : ℕ) :
    parser input (t + 1) =
      (parser input t).next (input t).tdata (input t).tvalid (input t).tlast := rfl

/-- The bytes received before cycle `t`, and the byte on the data lines in it. -/
def seen (t : ℕ) : List Byte := received input t ++ [(input t).tdata]

theorem received_succ_of_valid {t : ℕ} (h : (input t).tvalid = true) :
    received input (t + 1) = seen input t :=
  Clocked.transferred_succ_of_valid h

theorem parser_frameSr (t : ℕ) : Holds (parser input t).frameSr (received input t) := by
  refine Clocked.run_invariant
    (P := fun t (s : MarketDataParser) => Holds s.frameSr (received input t))
    holds_zero (fun t s ih => ?_) t
  cases hv : (input t).tvalid with
  | false =>
    have hsame : received input (t + 1) = received input t :=
      Clocked.transferred_succ_of_idle hv
    rw [hsame]
    exact ih
  | true =>
    rw [received_succ_of_valid input hv]
    exact ih.shiftIn _

theorem parser_p1Frame (t : ℕ) : Holds (parser input (t + 1)).p1Frame (seen input t) :=
  (parser_frameSr input t).shiftIn _

/-- The byte counter is the length of the open frame. -/
theorem parser_byteCnt (t : ℕ) :
    (parser input t).byteCnt =
      BitVec.ofNat 6 (Segmentation.cutAfter (beats input t)).2.length := by
  induction t with
  | zero => rfl
  | succ t ih =>
    rw [parser_succ]
    cases hv : (input t).tvalid with
    | false =>
      have hsame : beats input (t + 1) = beats input t := Clocked.transferred_succ_of_idle hv
      rw [hsame]
      exact ih
    | true =>
      have hmore : beats input (t + 1) = beats input t ++ [((input t).tdata, (input t).tlast)] :=
        Clocked.transferred_succ_of_valid hv
      rw [hmore]
      cases hl : (input t).tlast with
      | true =>
        rw [Segmentation.cutAfter_concat_true]
        rfl
      | false =>
        rw [Segmentation.cutAfter_concat_false, List.length_append, BitVec.ofNat_add, ← ih]
        rfl

/-- `out_valid` is up three cycles after the last byte of a frame. -/
theorem parser_outValid (t : ℕ) :
    (parser input (t + 3)).outValid = ((input t).tvalid && (input t).tlast) := rfl

theorem parser_outValid_early {t : ℕ} (h : t < 3) : (parser input t).outValid = false := by
  interval_cases t <;> rfl

/-- What the output registers show three cycles later, in terms of the bytes seen. The
fields are there in every cycle; type and error only change with `out_valid`. -/
structure Shows (s : MarketDataParser) (bytes : List Byte) : Prop where
  timestamp : s.outTimestamp = word64 (recent bytes) 21
  orderRef : s.outOrderRef = word64 (recent bytes) 13
  side : s.outSide = decide (recent bytes 12 = 0x53)
  quantity : s.outQuantity = word32 (recent bytes) 8
  price : s.outPrice = word64 (recent bytes) 0

theorem parser_shows (t : ℕ) : Shows (parser input (t + 3)) (seen input t) where
  timestamp := (parser_p1Frame input t).field64 (i := 21) (by omega)
  orderRef := (parser_p1Frame input t).field64 (i := 13) (by omega)
  side := by
    have hside := (parser_p1Frame input t).field8 (i := 12) (by omega)
    rw [← hside]
    rfl
  quantity := (parser_p1Frame input t).field32 (i := 8) (by omega)
  price := (parser_p1Frame input t).field64 (i := 0) (by omega)

/-- Type and error flag of a pulse. -/
theorem parser_class (t : ℕ) (hlast : ((input t).tvalid && (input t).tlast) = true) :
    (parser input (t + 3)).outMsgType = decodeType (recent (seen input t) 29) ∧
      (parser input (t + 3)).outError =
        decodeError (recent (seen input t) 29) ((parser input t).byteCnt + 1) := by
  have htype := (parser_p1Frame input t).field8 (i := 29) (by omega)
  have hp2 : (parser input (t + 2)).p2Valid = true := hlast
  have hbyte : (parser input (t + 2)).p2Type = recent (seen input t) 29 := htype
  rw [parser_succ input (t + 2)]
  simp only [next, hp2, if_true, hbyte]
  exact ⟨trivial, rfl⟩

end Pipeline

end HftKr260
