import YTorrent.Net.Transcoder

/-!
# Messages and message buffers

Models of `IncomingMessage` and `OutgoingMessage` (`src/net/incomingmessage.hpp`,
`src/net/outgoingmessage.hpp`), of the `MessageID` enumeration of
`src/torrent/peer.hpp`, and of the buffers the senders of
`src/torrent/peer.cpp` (lines 325–423) build.

`Message` is what one call of a sender puts on the wire, `Message.bytes` the
buffer it passes to `Connection::write`. The fields of a message are
`uint32_t` in the source; the senders truncate them (`u32`) before they build
the message.
-/

namespace YTorrent

/-- `Peer::MessageID`. -/
inductive MessageID
  | choke | unchoke | interested | notInterested | havePiece | bitfield | request | pieceBlock
  | cancel
  deriving DecidableEq, Repr

/-- The value of the enumerator. -/
def MessageID.toByte : MessageID → Byte
  | choke => 0
  | unchoke => 1
  | interested => 2
  | notInterested => 3
  | havePiece => 4
  | bitfield => 5
  | request => 6
  | pieceBlock => 7
  | cancel => 8

/-- The case of `switch (messageID)` a byte of the wire selects; there is no
    `default` case, so a byte above 8 selects none. -/
def MessageID.ofByte (b : Byte) : Option MessageID :=
  match b.val with
  | 0 => some choke
  | 1 => some unchoke
  | 2 => some interested
  | 3 => some notInterested
  | 4 => some havePiece
  | 5 => some bitfield
  | 6 => some request
  | 7 => some pieceBlock
  | 8 => some cancel
  | _ => none

@[simp] theorem MessageID.ofByte_toByte (m : MessageID) : ofByte m.toByte = some m := by
  cases m <;> rfl

/-! ## `IncomingMessage` -/

/-- `IncomingMessage`: the buffer, its size being the length of the list, and
    the read position. `overrun` is not in the source: it records that a read
    went past the end of the buffer. -/
structure IncomingMessage where
  dataBuffer : List Byte
  readIndex : ℕ := 0
  overrun : Bool := false
  deriving DecidableEq, Repr

namespace IncomingMessage

/-- `getSize` (line 32). -/
def getSize (m : IncomingMessage) : ℕ := m.dataBuffer.length

/-- `readIndex += n`, behind a read of `n` bytes. -/
def advance (m : IncomingMessage) (n : ℕ) : IncomingMessage :=
  { m with
    readIndex := u32 (m.readIndex + n)
    overrun := m.overrun || decide (m.dataBuffer.length < m.readIndex + n) }

section
variable (m : IncomingMessage) (n : ℕ)

@[simp] theorem advance_dataBuffer : (m.advance n).dataBuffer = m.dataBuffer := rfl
@[simp] theorem advance_readIndex : (m.advance n).readIndex = u32 (m.readIndex + n) := rfl
@[simp] theorem advance_overrun : (m.advance n).overrun =
    (m.overrun || decide (m.dataBuffer.length < m.readIndex + n)) := rfl

end

/-- `extractNextByte` (lines 50–53). -/
def extractNextByte (m : IncomingMessage) : ℕ × IncomingMessage :=
  (readU8 m.dataBuffer m.readIndex, m.advance 1)

/-- `extractNextU16` (lines 54–59). -/
def extractNextU16 (m : IncomingMessage) : ℕ × IncomingMessage :=
  (readAsBE16 (m.dataBuffer.drop m.readIndex), m.advance 2)

/-- `extractNextU32` (lines 61–66). -/
def extractNextU32 (m : IncomingMessage) : ℕ × IncomingMessage :=
  (readAsBE32 (m.dataBuffer.drop m.readIndex), m.advance 4)

/-- `extractNextU64` (lines 67–72). -/
def extractNextU64 (m : IncomingMessage) : ℕ × IncomingMessage :=
  (readAsBE64 (m.dataBuffer.drop m.readIndex), m.advance 8)

/-- `cpyBuffer` (lines 35–43); `none` is `nullptr`. -/
def cpyBuffer (m : IncomingMessage) (size : ℕ) : Option (List Byte) :=
  if m.readIndex + size > m.getSize then none
  else some ((m.dataBuffer.drop m.readIndex).take size)

/-- `getBuffer` (lines 45–48), as the bytes from the read position on. -/
def getBuffer (m : IncomingMessage) : List Byte := m.dataBuffer.drop m.readIndex

/-- The two reads at the start of the PIECE_BLOCK case (peer.cpp lines 242–244). -/
def indexBegin (m : IncomingMessage) : (ℕ × ℕ) × IncomingMessage :=
  let (index, m) := m.extractNextU32
  let (begin, m) := m.extractNextU32
  ((index, begin), m)

/-- The three reads of the REQUEST and CANCEL cases (peer.cpp lines 220–223
    and 305–308). -/
def indexBeginLength (m : IncomingMessage) : (ℕ × ℕ × ℕ) × IncomingMessage :=
  let (index, m) := m.extractNextU32
  let (begin, m) := m.extractNextU32
  let (length, m) := m.extractNextU32
  ((index, begin, length), m)

end IncomingMessage

/-! ## `OutgoingMessage` and the senders' buffers -/

/-- `OutgoingMessage`: the bytes appended so far. -/
abbrev OutgoingMessage := List Byte

namespace OutgoingMessage

/-- `addCustom` (lines 23–26). -/
def addCustom (out : OutgoingMessage) (bytes : List Byte) : OutgoingMessage := out ++ bytes

/-- `addU8` (lines 28–31). -/
def addU8 (out : OutgoingMessage) (b : Byte) : OutgoingMessage := out ++ [b]

/-- `addU16` (lines 32–38). -/
def addU16 (out : OutgoingMessage) (val : ℕ) : OutgoingMessage := out.addCustom (writeAsBE16 val)

/-- `addU32` (lines 39–45). -/
def addU32 (out : OutgoingMessage) (val : ℕ) : OutgoingMessage := out.addCustom (writeAsBE32 val)

/-- `addU64` (lines 46–52). -/
def addU64 (out : OutgoingMessage) (val : ℕ) : OutgoingMessage := out.addCustom (writeAsBE64 val)

/-- `data` (line 53), as the bytes from the pointer on; `at(0)` throws when there are none. -/
def data (out : OutgoingMessage) : Option (List Byte) := if out = [] then none else some out

end OutgoingMessage

/-- What a single call of a sender of `Peer` puts on the wire. -/
inductive Message
  | handshake (bytes : List Byte)
  | interested
  | unchoke
  | havePiece (index : ℕ)
  | bitfield (rBitfield : List Byte)
  | request (index begin length : ℕ)
  | pieceBlock (index begin : ℕ) (block : List Byte)
  | cancel (index begin length : ℕ)
  deriving DecidableEq, Repr

/-- A message that tells the remote which pieces we have. -/
def Message.isAnnouncement : Message → Bool
  | havePiece _ => true
  | bitfield _ => true
  | _ => false

open OutgoingMessage in
/-- The buffer passed to `Connection::write`: the 68 handshake bytes
    (lines 46, 79), the two hard-coded frames (lines 151, 395) and the
    buffers of `sendHave`, `sendBitfield`, `sendRequest`, `sendPieceBlock` and
    `sendCancel`. The lengths are `unsigned long` sums, truncated by `addU32`. -/
def Message.bytes : Message → List Byte
  | handshake bytes => bytes
  | interested => [0, 0, 0, 1, MessageID.interested.toByte]
  | unchoke => [0, 0, 0, 1, MessageID.unchoke.toByte]
  | havePiece index => addU32 (addU8 (addU32 [] 5) MessageID.havePiece.toByte) index
  | bitfield rBitfield =>
    addCustom (addU8 (addU32 [] (1 + rBitfield.length)) MessageID.bitfield.toByte) rBitfield
  | request index begin length =>
    addU32 (addU32 (addU32 (addU8 (addU32 [] 13) MessageID.request.toByte) index) begin) length
  | pieceBlock index begin block =>
    addCustom (addU32 (addU32 (addU8 (addU32 [] (9 + block.length)) MessageID.pieceBlock.toByte)
      index) begin) block
  | cancel index begin length =>
    addU32 (addU32 (addU32 (addU8 (addU32 [] 13) MessageID.cancel.toByte) index) begin) length

end YTorrent
