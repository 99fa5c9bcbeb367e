import HftKr260.Foundation.Bytes
import HftKr260.Software.OrderBook

/-!
# The wire format

The five packed message structs, their network encoding, the builders of test messages
and the byte-order helpers of the decoder. A message buffer is the memory a `const
uint8_t*` points at: a function from offsets to bytes. The length is passed beside it.
The host is little-endian.
-/

set_option autoImplicit false

namespace HftKr260

open Foundation

/-- `'A'`, `'U'`, `'D'`, `'E'`, `'P'`: the message type bytes. -/
def charA : Byte := 0x41
def charU : Byte := 0x55
def charD : Byte := 0x44
def charE : Byte := 0x45
def charP : Byte := 0x50

/-- `'B'` and `'S'`: the side bytes. -/
def charB : Byte := 0x42
def charS : Byte := 0x53

/-! ### Packed structs -/

structure MsgAddOrder where
  timestampNs : BitVec 64
  orderRef : BitVec 64
  side : Byte
  quantity : BitVec 32
  price : BitVec 64
  deriving DecidableEq, Repr

structure MsgOrderUpdate where
  timestampNs : BitVec 64
  orderRef : BitVec 64
  newQuantity : BitVec 32
  deriving DecidableEq, Repr

structure MsgDeleteOrder where
  timestampNs : BitVec 64
  orderRef : BitVec 64
  deriving DecidableEq, Repr

structure MsgExecute where
  timestampNs : BitVec 64
  orderRef : BitVec 64
  executedQty : BitVec 32
  deriving DecidableEq, Repr

structure MsgTrade where
  timestampNs : BitVec 64
  side : Byte
  quantity : BitVec 32
  price : BitVec 64
  deriving DecidableEq, Repr

/-! `sizeof` of each struct: one type byte and the fields, without padding. -/

def MsgAddOrder.size : ℕ := 1 + 8 + 8 + 1 + 4 + 8
def MsgOrderUpdate.size : ℕ := 1 + 8 + 8 + 4
def MsgDeleteOrder.size : ℕ := 1 + 8 + 8
def MsgExecute.size : ℕ := 1 + 8 + 8 + 4
def MsgTrade.size : ℕ := 1 + 8 + 1 + 4 + 8

/-- A message of the protocol. -/
inductive Msg
  | add (m : MsgAddOrder)
  | update (m : MsgOrderUpdate)
  | delete (m : MsgDeleteOrder)
  | execute (m : MsgExecute)
  | trade (m : MsgTrade)
  deriving DecidableEq, Repr

namespace Msg

/-- The packed big-endian encoding. -/
def encode : Msg → List Byte
  | add m =>
      [charA] ++ beBytes 8 m.timestampNs ++ beBytes 8 m.orderRef ++ [m.side] ++
        beBytes 4 m.quantity ++ beBytes 8 m.price
  | update m =>
      [charU] ++ beBytes 8 m.timestampNs ++ beBytes 8 m.orderRef ++ beBytes 4 m.newQuantity
  | delete m => [charD] ++ beBytes 8 m.timestampNs ++ beBytes 8 m.orderRef
  | execute m =>
      [charE] ++ beBytes 8 m.timestampNs ++ beBytes 8 m.orderRef ++ beBytes 4 m.executedQty
  | trade m =>
      [charP] ++ beBytes 8 m.timestampNs ++ [m.side] ++ beBytes 4 m.quantity ++
        beBytes 8 m.price

/-- The type byte of a message. -/
def typeByte : Msg → Byte
  | add _ => charA
  | update _ => charU
  | delete _ => charD
  | execute _ => charE
  | trade _ => charP

/-- `sizeof` of the message's struct. -/
def size : Msg → ℕ
  | add _ => MsgAddOrder.size
  | update _ => MsgOrderUpdate.size
  | delete _ => MsgDeleteOrder.size
  | execute _ => MsgExecute.size
  | trade _ => MsgTrade.size

@[simp] theorem length_encode (m : Msg) : m.encode.length = m.size := by
  cases m <;> simp [encode, size, MsgAddOrder.size, MsgOrderUpdate.size, MsgDeleteOrder.size,
    MsgExecute.size, MsgTrade.size]

theorem one_lt_size (m : Msg) : 1 < m.size := by
  cases m <;> simp [size, MsgAddOrder.size, MsgOrderUpdate.size, MsgDeleteOrder.size,
    MsgExecute.size, MsgTrade.size]

/-- Every encoding starts with the type byte. -/
theorem encode_eq_cons (m : Msg) : ∃ body, m.encode = m.typeByte :: body := by
  cases m <;> exact ⟨_, rfl⟩

end Msg

/-! ### Builders -/

/-- Swap, then store little-endian. -/
def writeBe64 (v : BitVec 64) : List Byte := leBytes 8 (bswap64 v)

def writeBe32 (v : BitVec 32) : List Byte := leBytes 4 (bswap32 v)

/-- The 30 bytes `build_add` writes, each at the offset it has in the list. -/
def buildAdd (tsNs orderRef : BitVec 64) (side : Byte) (qty : BitVec 32)
    (priceTicks : BitVec 64) : List Byte :=
  [charA] ++ writeBe64 tsNs ++ writeBe64 orderRef ++ [side] ++ writeBe32 qty ++
    writeBe64 priceTicks

def buildDelete (tsNs orderRef : BitVec 64) : List Byte :=
  [charD] ++ writeBe64 tsNs ++ writeBe64 orderRef

def buildExecute (tsNs orderRef : BitVec 64) (execQty : BitVec 32) : List Byte :=
  [charE] ++ writeBe64 tsNs ++ writeBe64 orderRef ++ writeBe32 execQty

/-- The builders write the network encoding. -/
theorem buildAdd_eq_encode (tsNs orderRef : BitVec 64) (side : Byte) (qty : BitVec 32)
    (priceTicks : BitVec 64) :
    buildAdd tsNs orderRef side qty priceTicks =
      (Msg.add ⟨tsNs, orderRef, side, qty, priceTicks⟩).encode := by
  simp only [buildAdd, Msg.encode, writeBe64, writeBe32, leBytes_bswap64, leBytes_bswap32]

theorem buildDelete_eq_encode (tsNs orderRef : BitVec 64) :
    buildDelete tsNs orderRef = (Msg.delete ⟨tsNs, orderRef⟩).encode := by
  simp only [buildDelete, Msg.encode, writeBe64, leBytes_bswap64]

theorem buildExecute_eq_encode (tsNs orderRef : BitVec 64) (execQty : BitVec 32) :
    buildExecute tsNs orderRef execQty = (Msg.execute ⟨tsNs, orderRef, execQty⟩).encode := by
  simp only [buildExecute, Msg.encode, writeBe64, writeBe32, leBytes_bswap64, leBytes_bswap32]

/-! ### Reading fields -/

/-- The memory a message pointer points at. -/
abbrev Buffer := ℕ → Byte

/-- A message buffer holding the given bytes. -/
def bufferOf (bytes : List Byte) : Buffer := fun i => bytes.getD i 0

/-- A little-endian load of eight bytes. -/
def load64 (p : Buffer) (off : ℕ) : BitVec 64 :=
  p (off + 7) ++ p (off + 6) ++ p (off + 5) ++ p (off + 4) ++ p (off + 3) ++ p (off + 2) ++
    p (off + 1) ++ p off

/-- A little-endian load of four bytes. -/
def load32 (p : Buffer) (off : ℕ) : BitVec 32 :=
  p (off + 3) ++ p (off + 2) ++ p (off + 1) ++ p off

/-- Network to host order, 64 bits. -/
def be64 (p : Buffer) (off : ℕ) : BitVec 64 := bswap64 (load64 p off)

/-- Network to host order, 32 bits. -/
def be32 (p : Buffer) (off : ℕ) : BitVec 32 := bswap32 (load32 p off)

/-- The signed reading of `be64`. -/
def be64s (p : Buffer) (off : ℕ) : ℤ := (be64 p off).toInt

theorem byte_load64 (p : Buffer) (off i : ℕ) (hi : i < 8) :
    byte (load64 p off) i = p (off + i) := by
  interval_cases i <;> simp [load64]

theorem byte_load32 (p : Buffer) (off i : ℕ) (hi : i < 4) :
    byte (load32 p off) i = p (off + i) := by
  interval_cases i <;> simp [load32]

/-- Reading back a field stored in network order. -/
theorem be64_eq {p : Buffer} {off : ℕ} {v : BitVec 64}
    (h : ∀ i < 8, p (off + i) = byte v (7 - i)) : be64 p off = v := by
  refine eq_of_byte_eq (n := 8) rfl fun i hi => ?_
  rw [be64, byte_bswap64 _ i hi, byte_load64 _ _ _ (by omega), h _ (by omega)]
  congr 1
  omega

theorem be32_eq {p : Buffer} {off : ℕ} {v : BitVec 32}
    (h : ∀ i < 4, p (off + i) = byte v (3 - i)) : be32 p off = v := by
  refine eq_of_byte_eq (n := 4) rfl fun i hi => ?_
  rw [be32, byte_bswap32 _ i hi, byte_load32 _ _ _ (by omega), h _ (by omega)]
  congr 1
  omega

/-- A byte behind a known front of a buffer. -/
theorem bufferOf_append (front bytes rest : List Byte) (i : ℕ) (hi : i < bytes.length) :
    bufferOf (front ++ (bytes ++ rest)) (front.length + i) = bytes[i] := by
  unfold bufferOf
  rw [List.getD_eq_getElem?_getD, List.getElem?_append_right (by omega),
    Nat.add_sub_cancel_left, List.getElem?_append_left hi, List.getElem?_eq_getElem hi]
  rfl

/-- A field in the middle of a buffer is read back. -/
theorem be64_bufferOf (front rest : List Byte) (v : BitVec 64) :
    be64 (bufferOf (front ++ (beBytes 8 v ++ rest))) front.length = v := by
  apply be64_eq
  intro i hi
  rw [bufferOf_append _ _ _ _ (by simpa using hi)]
  simp [beBytes]

theorem be32_bufferOf (front rest : List Byte) (v : BitVec 32) :
    be32 (bufferOf (front ++ (beBytes 4 v ++ rest))) front.length = v := by
  apply be32_eq
  intro i hi
  rw [bufferOf_append _ _ _ _ (by simpa using hi)]
  simp [beBytes]

/-! ### Reads inside the buffer -/

section Reads

variable (p : Buffer) (len : ℕ)

/-- The byte at an offset, refused outside the buffer. -/
def byteWithin (off : ℕ) : Option Byte := if off + 1 ≤ len then some (p off) else none

/-- A big-endian load of four bytes, refused if one of them is outside the buffer. -/
def be32Within (off : ℕ) : Option (BitVec 32) :=
  if off + 4 ≤ len then some (be32 p off) else none

/-- A big-endian load of eight bytes. -/
def be64Within (off : ℕ) : Option (BitVec 64) :=
  if off + 8 ≤ len then some (be64 p off) else none

/-- What is found in a message buffer. -/
inductive Received
  | ignored
  | unknown
  | message (m : Msg)
  deriving DecidableEq, Repr

/-! The length check of each handler and the loads behind it. -/

def receiveAdd : Option Received :=
  if len < MsgAddOrder.size then some .ignored
  else do
    let orderRef ← be64Within p len 9
    let side ← byteWithin p len 17
    let quantity ← be32Within p len 18
    let price ← be64Within p len 22
    let timestampNs ← be64Within p len 1
    some (.message (.add { timestampNs, orderRef, side, quantity, price }))

def receiveUpdate : Option Received :=
  if len < MsgOrderUpdate.size then some .ignored
  else do
    let orderRef ← be64Within p len 9
    let newQuantity ← be32Within p len 17
    let timestampNs ← be64Within p len 1
    some (.message (.update { timestampNs, orderRef, newQuantity }))

def receiveDelete : Option Received :=
  if len < MsgDeleteOrder.size then some .ignored
  else do
    let orderRef ← be64Within p len 9
    let timestampNs ← be64Within p len 1
    some (.message (.delete { timestampNs, orderRef }))

def receiveExecute : Option Received :=
  if len < MsgExecute.size then some .ignored
  else do
    let orderRef ← be64Within p len 9
    let executedQty ← be32Within p len 17
    let timestampNs ← be64Within p len 1
    some (.message (.execute { timestampNs, orderRef, executedQty }))

def receiveTrade : Option Received :=
  if len < MsgTrade.size then some .ignored
  else do
    let side ← byteWithin p len 9
    let quantity ← be32Within p len 10
    let price ← be64Within p len 14
    let timestampNs ← be64Within p len 1
    some (.message (.trade { timestampNs, side, quantity, price }))

/-- The type byte selects the handler. -/
def receive : Option Received :=
  if len < 1 then some .ignored
  else do
    let type ← byteWithin p len 0
    if type = charA then receiveAdd p len
    else if type = charU then receiveUpdate p len
    else if type = charD then receiveDelete p len
    else if type = charE then receiveExecute p len
    else if type = charP then receiveTrade p len
    else some .unknown

variable {p len}

theorem byteWithin_of_le {off : ℕ} (h : off + 1 ≤ len) : byteWithin p len off = some (p off) :=
  if_pos h

theorem be32Within_of_le {off : ℕ} (h : off + 4 ≤ len) :
    be32Within p len off = some (be32 p off) := if_pos h

theorem be64Within_of_le {off : ℕ} (h : off + 8 ≤ len) :
    be64Within p len off = some (be64 p off) := if_pos h

/-! Behind its length check no handler's load is refused. -/

theorem receiveAdd_eq (h : ¬ len < MsgAddOrder.size) :
    receiveAdd p len =
      some (.message (.add ⟨be64 p 1, be64 p 9, p 17, be32 p 18, be64 p 22⟩)) := by
  have hsize : 30 ≤ len := Nat.not_lt.mp h
  rw [receiveAdd, if_neg h, be64Within_of_le (by omega), byteWithin_of_le (by omega),
    be32Within_of_le (by omega), be64Within_of_le (by omega), be64Within_of_le (by omega)]
  rfl

theorem receiveUpdate_eq (h : ¬ len < MsgOrderUpdate.size) :
    receiveUpdate p len = some (.message (.update ⟨be64 p 1, be64 p 9, be32 p 17⟩)) := by
  have hsize : 21 ≤ len := Nat.not_lt.mp h
  rw [receiveUpdate, if_neg h, be64Within_of_le (by omega), be32Within_of_le (by omega),
    be64Within_of_le (by omega)]
  rfl

theorem receiveDelete_eq (h : ¬ len < MsgDeleteOrder.size) :
    receiveDelete p len = some (.message (.delete ⟨be64 p 1, be64 p 9⟩)) := by
  have hsize : 17 ≤ len := Nat.not_lt.mp h
  rw [receiveDelete, if_neg h, be64Within_of_le (by omega), be64Within_of_le (by omega)]
  rfl

theorem receiveExecute_eq (h : ¬ len < MsgExecute.size) :
    receiveExecute p len = some (.message (.execute ⟨be64 p 1, be64 p 9, be32 p 17⟩)) := by
  have hsize : 21 ≤ len := Nat.not_lt.mp h
  rw [receiveExecute, if_neg h, be64Within_of_le (by omega), be32Within_of_le (by omega),
    be64Within_of_le (by omega)]
  rfl

theorem receiveTrade_eq (h : ¬ len < MsgTrade.size) :
    receiveTrade p len =
      some (.message (.trade ⟨be64 p 1, p 9, be32 p 10, be64 p 14⟩)) := by
  have hsize : 22 ≤ len := Nat.not_lt.mp h
  rw [receiveTrade, if_neg h, byteWithin_of_le (by omega), be32Within_of_le (by omega),
    be64Within_of_le (by omega), be64Within_of_le (by omega)]
  rfl

/-- A non-empty buffer is received by its first byte. -/
theorem receive_eq (h : ¬ len < 1) :
    receive p len =
      if p 0 = charA then receiveAdd p len
      else if p 0 = charU then receiveUpdate p len
      else if p 0 = charD then receiveDelete p len
      else if p 0 = charE then receiveExecute p len
      else if p 0 = charP then receiveTrade p len
      else some .unknown := by
  rw [receive, if_neg h, byteWithin_of_le (Nat.not_lt.mp h)]
  rfl

end Reads

/-! ### Reading encodings -/

/-- A field behind a known front of the buffer is read back. -/
theorem be64_at {bytes : List Byte} {off : ℕ} {v : BitVec 64} (front rest : List Byte)
    (h : bytes = front ++ (beBytes 8 v ++ rest)) (hoff : front.length = off) :
    be64 (bufferOf bytes) off = v := by
  rw [h, ← hoff]
  exact be64_bufferOf front rest v

theorem be32_at {bytes : List Byte} {off : ℕ} {v : BitVec 32} (front rest : List Byte)
    (h : bytes = front ++ (beBytes 4 v ++ rest)) (hoff : front.length = off) :
    be32 (bufferOf bytes) off = v := by
  rw [h, ← hoff]
  exact be32_bufferOf front rest v

theorem byte_at {bytes : List Byte} {off : ℕ} {v : Byte} (front rest : List Byte)
    (h : bytes = front ++ ([v] ++ rest)) (hoff : front.length = off) :
    bufferOf bytes off = v := by
  rw [h, ← hoff]
  exact bufferOf_append front [v] rest 0 (by simp)

section Encodings

variable (rest : List Byte)

/-- The timestamp and the order reference of a message that has both. -/
private theorem header_reads {bytes tail : List Byte} {c : Byte} {ts ref : BitVec 64}
    (h : bytes = [c] ++ (beBytes 8 ts ++ (beBytes 8 ref ++ tail))) :
    be64 (bufferOf bytes) 1 = ts ∧ be64 (bufferOf bytes) 9 = ref := by
  refine ⟨be64_at [c] _ h rfl, be64_at ([c] ++ beBytes 8 ts) tail ?_ (by simp)⟩
  rw [h, List.append_assoc]

/-- The quantity behind them. -/
private theorem quantity_read {bytes tail : List Byte} {c : Byte} {ts ref : BitVec 64}
    {qty : BitVec 32}
    (h : bytes = [c] ++ (beBytes 8 ts ++ (beBytes 8 ref ++ (beBytes 4 qty ++ tail)))) :
    be32 (bufferOf bytes) 17 = qty := by
  refine be32_at ([c] ++ beBytes 8 ts ++ beBytes 8 ref) tail ?_ (by simp)
  rw [h]
  simp

/-- The fields the Add handler reads out of an encoded Add. -/
theorem add_reads (m : MsgAddOrder) :
    be64 (bufferOf ((Msg.add m).encode ++ rest)) 1 = m.timestampNs ∧
      be64 (bufferOf ((Msg.add m).encode ++ rest)) 9 = m.orderRef ∧
      bufferOf ((Msg.add m).encode ++ rest) 17 = m.side ∧
      be32 (bufferOf ((Msg.add m).encode ++ rest)) 18 = m.quantity ∧
      be64 (bufferOf ((Msg.add m).encode ++ rest)) 22 = m.price := by
  have hencode : (Msg.add m).encode ++ rest =
      [charA] ++ (beBytes 8 m.timestampNs ++ (beBytes 8 m.orderRef ++ ([m.side] ++
        (beBytes 4 m.quantity ++ (beBytes 8 m.price ++ rest))))) := by
    simp [Msg.encode]
  obtain ⟨hts, href⟩ := header_reads hencode
  refine ⟨hts, href, ?_, ?_, ?_⟩
  · refine byte_at ([charA] ++ beBytes 8 m.timestampNs ++ beBytes 8 m.orderRef)
      (beBytes 4 m.quantity ++ (beBytes 8 m.price ++ rest)) ?_ (by simp)
    rw [hencode]
    simp only [List.append_assoc]
  · refine be32_at ([charA] ++ beBytes 8 m.timestampNs ++ beBytes 8 m.orderRef ++ [m.side])
      (beBytes 8 m.price ++ rest) ?_ (by simp)
    rw [hencode]
    simp only [List.append_assoc]
  · refine be64_at ([charA] ++ beBytes 8 m.timestampNs ++ beBytes 8 m.orderRef ++ [m.side] ++
      beBytes 4 m.quantity) rest ?_ (by simp)
    rw [hencode]
    simp only [List.append_assoc]

/-- The fields the trade handler reads out of an encoded trade. -/
theorem trade_reads (m : MsgTrade) :
    be64 (bufferOf ((Msg.trade m).encode ++ rest)) 1 = m.timestampNs ∧
      bufferOf ((Msg.trade m).encode ++ rest) 9 = m.side ∧
      be32 (bufferOf ((Msg.trade m).encode ++ rest)) 10 = m.quantity ∧
      be64 (bufferOf ((Msg.trade m).encode ++ rest)) 14 = m.price := by
  have hencode : (Msg.trade m).encode ++ rest =
      [charP] ++ (beBytes 8 m.timestampNs ++ ([m.side] ++
        (beBytes 4 m.quantity ++ (beBytes 8 m.price ++ rest)))) := by
    simp [Msg.encode]
  refine ⟨be64_at [charP] _ hencode rfl, ?_, ?_, ?_⟩
  · refine byte_at ([charP] ++ beBytes 8 m.timestampNs)
      (beBytes 4 m.quantity ++ (beBytes 8 m.price ++ rest)) ?_ (by simp)
    rw [hencode]
    simp only [List.append_assoc]
  · refine be32_at ([charP] ++ beBytes 8 m.timestampNs ++ [m.side]) (beBytes 8 m.price ++ rest) ?_
      (by simp)
    rw [hencode]
    simp only [List.append_assoc]
  · refine be64_at ([charP] ++ beBytes 8 m.timestampNs ++ [m.side] ++ beBytes 4 m.quantity) rest ?_
      (by simp)
    rw [hencode]
    simp only [List.append_assoc]

/-- The message is found in its encoding, whatever stands behind it. -/
theorem receive_encode (m : Msg) :
    receive (bufferOf (m.encode ++ rest)) (m.encode ++ rest).length = some (.message m) := by
  have hsize : m.size ≤ (m.encode ++ rest).length := by
    rw [List.length_append, m.length_encode]
    exact Nat.le_add_right _ _
  have hlen : ¬ (m.encode ++ rest).length < 1 := by
    have hone := m.one_lt_size
    omega
  have htype : bufferOf (m.encode ++ rest) 0 = m.typeByte := by
    obtain ⟨body, hbody⟩ := m.encode_eq_cons
    simp [hbody, bufferOf]
  rw [receive_eq hlen, htype]
  cases m with
  | add m =>
    obtain ⟨hts, href, hside, hqty, hprice⟩ := add_reads rest m
    rw [Msg.typeByte, if_pos rfl, receiveAdd_eq (Nat.not_lt.mpr hsize), hts, href, hside, hqty,
      hprice]
  | update m =>
    have hencode : (Msg.update m).encode ++ rest = [charU] ++ (beBytes 8 m.timestampNs ++
        (beBytes 8 m.orderRef ++ (beBytes 4 m.newQuantity ++ rest))) := by
      simp [Msg.encode]
    obtain ⟨hts, href⟩ := header_reads hencode
    rw [Msg.typeByte, if_neg (by decide), if_pos rfl, receiveUpdate_eq (Nat.not_lt.mpr hsize), hts,
      href, quantity_read hencode]
  | delete m =>
    have hencode : (Msg.delete m).encode ++ rest = [charD] ++ (beBytes 8 m.timestampNs ++
        (beBytes 8 m.orderRef ++ rest)) := by
      simp [Msg.encode]
    obtain ⟨hts, href⟩ := header_reads hencode
    rw [Msg.typeByte, if_neg (by decide), if_neg (by decide), if_pos rfl,
      receiveDelete_eq (Nat.not_lt.mpr hsize), hts, href]
  | execute m =>
    have hencode : (Msg.execute m).encode ++ rest = [charE] ++ (beBytes 8 m.timestampNs ++
        (beBytes 8 m.orderRef ++ (beBytes 4 m.executedQty ++ rest))) := by
      simp [Msg.encode]
    obtain ⟨hts, href⟩ := header_reads hencode
    rw [Msg.typeByte, if_neg (by decide), if_neg (by decide), if_neg (by decide), if_pos rfl,
      receiveExecute_eq (Nat.not_lt.mpr hsize), hts, href, quantity_read hencode]
  | trade m =>
    obtain ⟨hts, hside, hqty, hprice⟩ := trade_reads rest m
    rw [Msg.typeByte, if_neg (by decide), if_neg (by decide), if_neg (by decide),
      if_neg (by decide), if_pos rfl, receiveTrade_eq (Nat.not_lt.mpr hsize), hts, hside, hqty,
      hprice]

/-- In a strict prefix of an encoding nothing is found. -/
theorem receive_front {m : Msg} {front : List Byte} (hfront : front <+: m.encode)
    (hne : front ≠ m.encode) : receive (bufferOf front) front.length = some .ignored := by
  cases front with
  | nil => rfl
  | cons b front =>
    have hlen : ¬ (b :: front).length < 1 := by simp
    have hshort : (b :: front).length < m.size := by
      rw [← m.length_encode]
      exact lt_of_le_of_ne hfront.length_le fun heq => hne (hfront.eq_of_length heq)
    have hb : bufferOf (b :: front) 0 = m.typeByte := by
      obtain ⟨body, hbody⟩ := m.encode_eq_cons
      rw [hbody] at hfront
      exact (List.cons_prefix_cons.mp hfront).1
    rw [receive_eq hlen, hb]
    cases m with
    | add m =>
      rw [Msg.typeByte, if_pos rfl, receiveAdd]
      exact if_pos hshort
    | update m =>
      rw [Msg.typeByte, if_neg (by decide), if_pos rfl, receiveUpdate]
      exact if_pos hshort
    | delete m =>
      rw [Msg.typeByte, if_neg (by decide), if_neg (by decide), if_pos rfl, receiveDelete]
      exact if_pos hshort
    | execute m =>
      rw [Msg.typeByte, if_neg (by decide), if_neg (by decide), if_neg (by decide), if_pos rfl,
        receiveExecute]
      exact if_pos hshort
    | trade m =>
      rw [Msg.typeByte, if_neg (by decide), if_neg (by decide), if_neg (by decide),
        if_neg (by decide), if_pos rfl, receiveTrade]
      exact if_pos hshort

end Encodings

end HftKr260
