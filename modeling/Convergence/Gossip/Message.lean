import Convergence.Crdt.CrdtOrderBook
import Convergence.Library.BigEndian
import Convergence.Library.ByteReader
import Mathlib.Data.Rat.Floor

/-!
# Messages on the wire

The codec of `message.cpp` and of `vector_clock.cpp`. A `std::vector<uint8_t>` that is written to is
a list of bytes, to which every writer appends. Reading goes through two readers: the class
`Reader`, which checks every read against the length of the datagram, and
`VectorClock::deserialize`, which is handed a pointer into the datagram and a length that it does
not look at. Here the length only marks its reads with the window they were meant for.

A `double` is the rational number it stands for, and an operation on doubles is the exact operation
followed by `rnd`. Fixed-width integers are natural numbers and integers; casts to a narrower or
to an unsigned type reduce them. A cast of a `double` to `int64_t` truncates.

## Main definitions

* `MessageType`, `Message`, `Message.serialize`, `Message.deserialize`.
* `VectorClock.serialize`, `VectorClock.deserialize`.
* `writeDouble`, `readDouble`, `writeOperation`, `readOperation`.
-/

namespace Convergence

open ByteReader

/-- `enum class MessageType : uint8_t`. -/
structure MessageType where
  /-- The underlying byte. -/
  code : UInt8
  deriving DecidableEq

namespace MessageType

/-- `MessageType::GOSSIP_PUSH`. -/
def gossipPush : MessageType := ⟨0x01⟩

/-- `MessageType::GOSSIP_PULL`. -/
def gossipPull : MessageType := ⟨0x02⟩

/-- `MessageType::GOSSIP_PUSH_PULL`. -/
def gossipPushPull : MessageType := ⟨0x03⟩

/-- `MessageType::HEARTBEAT`. -/
def heartbeat : MessageType := ⟨0x04⟩

/-- `MessageType::ANTI_ENTROPY_REQ`. -/
def antiEntropyReq : MessageType := ⟨0x05⟩

/-- `MessageType::ANTI_ENTROPY_RES`. -/
def antiEntropyRes : MessageType := ⟨0x06⟩

end MessageType

/-- A gossip message. -/
structure Message where
  type : MessageType
  senderId : Str
  senderClock : VectorClock
  operations : List (Operation ℚ)

/-! ### Casts -/

/-- `static_cast<uint64_t>` of a signed integer. -/
def toUInt64 (i : ℤ) : ℕ := (i % 2 ^ 64).toNat

/-- `static_cast<int64_t>` of an unsigned 64-bit integer. -/
def toInt64 (v : ℕ) : ℤ := if v < 2 ^ 63 then v else v - 2 ^ 64

/-- `static_cast<int64_t>` of a `double` in range: towards zero. -/
def truncate (v : ℚ) : ℤ := if 0 ≤ v then ⌊v⌋ else ⌈v⌉

/-! ### Writing -/

/-- `write_u8`. -/
def writeU8 (buf : List UInt8) (v : UInt8) : List UInt8 := buf ++ [v]

/-- `write_u16`. -/
def writeU16 (buf : List UInt8) (v : ℕ) : List UInt8 := buf ++ BigEndian.encode 2 v

/-- `write_u32`. -/
def writeU32 (buf : List UInt8) (v : ℕ) : List UInt8 := buf ++ BigEndian.encode 4 v

/-- `write_u64`. -/
def writeU64 (buf : List UInt8) (v : ℕ) : List UInt8 :=
  writeU32 (writeU32 buf (v >>> 32)) (v &&& 0xFFFFFFFF)

/-- `write_string`. -/
def writeString (buf : List UInt8) (s : Str) : List UInt8 := writeU16 buf s.length ++ s

/-- `write_double`. -/
def writeDouble (rnd : ℚ → ℚ) (buf : List UInt8) (v : ℚ) : List UInt8 :=
  writeU64 buf (toUInt64 (truncate (rnd (v * 10000))))

/-- `write_order`. -/
def writeOrder (rnd : ℚ → ℚ) (buf : List UInt8) (o : Order ℚ) : List UInt8 :=
  let buf := writeString buf o.orderId
  let buf := writeString buf o.nodeId
  let buf := writeU8 buf o.side.code
  let buf := writeDouble rnd buf o.price
  let buf := writeU64 buf (toUInt64 o.quantity)
  let buf := writeU64 buf (toUInt64 o.remaining)
  let buf := writeU64 buf o.timestamp
  writeU8 buf (if o.isCancelled then 1 else 0)

/-- `VectorClock::serialize`. -/
def VectorClock.serialize (c : VectorClock) : List UInt8 :=
  let buf := BigEndian.encode 2 c.nodeId.length ++ c.nodeId
  let buf := buf ++ BigEndian.encode 4 c.clock.entries.length
  c.clock.entries.foldl (fun buf e =>
    let buf := buf ++ BigEndian.encode 2 e.1.length ++ e.1
    buf ++ BigEndian.encode 4 (e.2 >>> 32) ++ BigEndian.encode 4 (e.2 &&& 0xFFFFFFFF)) buf

/-- `write_operation`. -/
def writeOperation (rnd : ℚ → ℚ) (buf : List UInt8) (op : Operation ℚ) : List UInt8 :=
  let buf := writeU8 buf op.type.code
  let buf := writeOrder rnd buf op.order
  let buf := writeString buf op.cancelOrderId
  let buf := writeString buf op.originNode
  let clockBytes := op.clock.serialize
  let buf := writeU32 buf clockBytes.length
  let buf := buf ++ clockBytes
  writeString buf op.opId

/-- `Message::serialize`. The length field is filled in at the end. -/
def Message.serialize (rnd : ℚ → ℚ) (m : Message) : List UInt8 :=
  let buf := writeU8 [] m.type.code
  let lenPos := buf.length
  let buf := writeU32 buf 0
  let buf := writeString buf m.senderId
  let clockBytes := m.senderClock.serialize
  let buf := writeU32 buf clockBytes.length
  let buf := buf ++ clockBytes
  let buf := writeU32 buf m.operations.length
  let buf := m.operations.foldl (writeOperation rnd) buf
  buf.take lenPos ++ BigEndian.encode 4 buf.length ++ buf.drop (lenPos + 4)

/-! ### Reading with checks -/

/-- `Reader::check`, and the read of `k` bytes that follows it in every method of `Reader`. -/
def readBytes (len k : ℕ) : Reader (List UInt8) := do
  check "Message deserialization: buffer overrun" len k
  take len k

/-- `Reader::read_u8`. -/
def readU8 (len : ℕ) : Reader UInt8 := do
  let bytes ← readBytes len 1
  return bytes.headD 0

/-- `Reader::read_u16`. -/
def readU16 (len : ℕ) : Reader ℕ := do
  let bytes ← readBytes len 2
  return BigEndian.decode bytes

/-- `Reader::read_u32`. -/
def readU32 (len : ℕ) : Reader ℕ := do
  let bytes ← readBytes len 4
  return BigEndian.decode bytes

/-- `Reader::read_u64`. -/
def readU64 (len : ℕ) : Reader ℕ := do
  let high ← readU32 len
  let low ← readU32 len
  return high <<< 32 ||| low

/-- `Reader::read_string`. -/
def readString (len : ℕ) : Reader Str := do
  let n ← readU16 len
  readBytes len n

/-- `Reader::read_double`: the cast of the integer to `double` and the division both round. -/
def readDouble (rnd : ℚ → ℚ) (len : ℕ) : Reader ℚ := do
  let iv ← readU64 len
  return rnd (rnd (toInt64 iv) / 10000)

/-- `Reader::read_order`. -/
def readOrder (rnd : ℚ → ℚ) (len : ℕ) : Reader (Order ℚ) := do
  let orderId ← readString len
  let nodeId ← readString len
  let side ← readU8 len
  let price ← readDouble rnd len
  let quantity ← readU64 len
  let remaining ← readU64 len
  let timestamp ← readU64 len
  let isCancelled ← readU8 len
  return {
    orderId := orderId
    nodeId := nodeId
    side := ⟨side⟩
    price := price
    quantity := toInt64 quantity
    remaining := toInt64 remaining
    timestamp := timestamp
    isCancelled := isCancelled != 0 }

/-! ### Reading a clock without checks -/

namespace VectorClock

/-- The lambda `read_u16`. -/
def takeU16 (window : ℕ) : Reader ℕ := do
  let bytes ← take window 2
  return BigEndian.decode bytes

/-- The lambda `read_u32`. -/
def takeU32 (window : ℕ) : Reader ℕ := do
  let bytes ← take window 4
  return BigEndian.decode bytes

/-- `vc.clock_[key] = val`. -/
def set (c : VectorClock) (key : Str) (val : ℕ) : VectorClock :=
  { c with
    clock := c.clock.set key val
    owned := ClockMap.mem_set.mpr (Or.inr c.owned) }

/-- The loop of `VectorClock::deserialize`. -/
def deserializeEntries (window : ℕ) : ℕ → VectorClock → Reader VectorClock
  | 0, c => return c
  | n + 1, c => do
    let klen ← takeU16 window
    let key ← take window klen
    let high ← takeU32 window
    let low ← takeU32 window
    deserializeEntries window n (c.set key (high <<< 32 ||| low))

/-- `VectorClock::deserialize`, on the `len` bytes from the position on. -/
def deserialize (len : ℕ) : Reader VectorClock := do
  let start ← position
  let window := start + len
  let nidLen ← takeU16 window
  let nodeId ← take window nidLen
  let count ← takeU32 window
  deserializeEntries window count (new nodeId)

end VectorClock

/-! ### Reading a message -/

/-- `Reader::read_operation`. -/
def readOperation (rnd : ℚ → ℚ) (len : ℕ) : Reader (Operation ℚ) := do
  let type ← readU8 len
  let order ← readOrder rnd len
  let cancelOrderId ← readString len
  let originNode ← readString len
  let clockLen ← readU32 len
  check "Message deserialization: buffer overrun" len clockLen
  let clock ← peek (VectorClock.deserialize clockLen)
  skip clockLen
  let opId ← readString len
  return {
    type := ⟨type⟩
    order := order
    cancelOrderId := cancelOrderId
    originNode := originNode
    clock := clock
    opId := opId }

/-- `Message::deserialize`. The clock of the sender is read before the bytes it takes up are
checked. -/
def Message.deserialize (rnd : ℚ → ℚ) (len : ℕ) : Reader Message := do
  let type ← readU8 len
  let _msgLen ← readU32 len
  let senderId ← readString len
  let clockLen ← readU32 len
  let senderClock ← peek (VectorClock.deserialize clockLen)
  let _clockBytes ← times clockLen (readU8 len)
  let opCount ← readU32 len
  let operations ← times opCount (readOperation rnd len)
  return {
    type := ⟨type⟩
    senderId := senderId
    senderClock := senderClock
    operations := operations }

/-- `Message::deserialize(data.data(), data.size())`, in a memory that goes on with `beyond`. -/
def Message.decode (rnd : ℚ → ℚ) (data : List UInt8) (beyond : ℕ → UInt8) : Outcome Message :=
  Message.deserialize rnd data.length (memory data beyond) 0

end Convergence
