import YTorrent.Torrent.Pieces

/-!
# `Peer::handleMessage`

The message handler of `src/torrent/peer.cpp` lines 108–315, one definition for
each `case`. A case either returns early, after `handleError` or with an
exception (`Flow.ret`), or breaks out of the `switch`, and then the next read is
issued (`Flow.brk`).

The debug output (`handlePeerDebug`) goes to the log file and is left out.
-/

namespace YTorrent

open World

namespace Peer

/-- How a case of `handleMessage` ends. -/
inductive Flow
  | ret (w : World)
  | brk (w : World)

/-- Record a read of the payload that went past its end. -/
def checkReads (w : World) (inMsg : IncomingMessage) : World :=
  if inMsg.overrun then w.log [.fault .payload inMsg.readIndex inMsg.getSize] else w

/-- The test of the messages without a payload: CHOKE, UNCHOKE, INTERESTED and
    NOT_INTERESTED. -/
def expectEmpty (messageID : MessageID) (w : World) (p : PeerId) (inMsg : IncomingMessage)
    (rest : World) : Flow :=
  if inMsg.getSize ≠ 0 then .ret (handleError w p (.invalidSize messageID)) else .brk rest

/-- CHOKE (lines 114–122). -/
def handleChoke (w : World) (p : PeerId) (inMsg : IncomingMessage) : Flow :=
  expectEmpty .choke w p inMsg (w.setPeer p { w.peers p with peerChoking := true })

/-- UNCHOKE (lines 123–140): every queued piece is requested. -/
def handleUnchoke (w : World) (p : PeerId) (inMsg : IncomingMessage) : Flow :=
  let w' := w.setPeer p { w.peers p with peerChoking := false }
  expectEmpty .unchoke w p inMsg
    ((w'.peers p).pieceQueue.foldl (fun w piece => requestPiece w p piece.index) w')

/-- INTERESTED (lines 141–158). -/
def handleInterested (w : World) (p : PeerId) (inMsg : IncomingMessage) : Flow :=
  let w' := w.setPeer p { w.peers p with peerInterested := true }
  expectEmpty .interested w p inMsg
    (if (w'.peers p).amChoking then
      let w' := Connection.write w' p .unchoke
      w'.setPeer p { w'.peers p with amChoking := false }
    else w')

/-- NOT_INTERESTED (lines 159–167). -/
def handleNotInterested (w : World) (p : PeerId) (inMsg : IncomingMessage) : Flow :=
  expectEmpty .notInterested w p inMsg (w.setPeer p { w.peers p with peerInterested := false })

/-- HAVE (lines 168–180). -/
def handleHave (w : World) (p : PeerId) (inMsg : IncomingMessage) : Flow :=
  if inMsg.getSize ≠ 4 then .ret (handleError w p (.invalidSize .havePiece))
  else
    let (index, inMsg) := inMsg.extractNextU32
    let w := checkReads w inMsg
    if !(w.peers p).hasPiece index then
      .brk (w.setPeer p
        { w.peers p with hasPieceIndexes := (w.peers p).hasPieceIndexes ++ [index] })
    else .brk w

/-- The indexes the loops of the BITFIELD case (lines 187–201) push, in order:
    `8·i + j` for the bits `1 << (7 - j)` set in `raw[i]`, below `totalPieces`. -/
def bitfieldIndexes (raw : List Byte) (totalPieces : ℕ) : List ℕ :=
  (List.range raw.length).flatMap fun i =>
    (List.range 8).filterMap fun j =>
      if (readU8 raw i).testBit (7 - j) && decide (i * 8 + j < totalPieces) then some (i * 8 + j)
      else none

/-- BITFIELD (lines 181–208). -/
def handleBitfield (w : World) (p : PeerId) (inMsg : IncomingMessage) : Flow :=
  if inMsg.getSize < 1 then .ret (handleError w p (.invalidSize .bitfield))
  else
    let w := w.setPeer p { w.peers p with
      hasPieceIndexes := (w.peers p).hasPieceIndexes ++
        bitfieldIndexes inMsg.getBuffer w.torrent.getTotalPieces }
    .brk (if !w.torrent.isFullyDownloaded then Torrent.selectPieceAndRequest w p else w)

/-- REQUEST (lines 209–236). -/
def handleRequest (w : World) (p : PeerId) (env : Env) (inMsg : IncomingMessage) : Flow :=
  if inMsg.getSize ≠ 12 then .ret (handleError w p (.invalidSize .request))
  else if !(w.peers p).peerInterested then .ret (handleError w p .requestWithoutInterest)
  else if (w.peers p).amChoking then .ret (handleError w p .requestWhileChoked)
  else
    let ((index, begin, length), inMsg) := inMsg.indexBeginLength
    let w := checkReads w inMsg
    if length > maxBlockRequestSize then .ret (handleError w p (.requestTooBig length))
    else
      let (done, w) := Torrent.pieceDone w env index
      if !done then .brk w
      else .brk (Torrent.handleBlockRequest w p env index begin length)

/-- The `find_if` of the PIECE_BLOCK case (lines 250–252): the position of the
    first queue entry for the index, and the entry. -/
def findPiece (pieceQueue : List Peer.Piece) (index : ℕ) : Option (ℕ × Peer.Piece) :=
  (pieceQueue.findIdx? fun piece => piece.index == index).bind fun it =>
    pieceQueue[it]?.map fun piece => (it, piece)

/-- Lines 270–272: the slot is overwritten and the counter goes up. -/
def Piece.store (piece : Peer.Piece) (blockIndex msgSize : ℕ) (data : Option (List Byte)) :
    Peer.Piece :=
  { piece with
    haveBlocks := piece.haveBlocks + 1
    blocks := piece.blocks.set blockIndex { size := msgSize, data := data }
    length_blocks := by rw [List.length_set, piece.length_blocks] }

/-- The bytes collected from the blocks (lines 276–284). -/
def Piece.pieceData (piece : Peer.Piece) : List Byte := piece.blocks.flatMap Block.bytes

/-- Record a use of `blocks[blockIndex]` out of range. -/
def checkBlock (w : World) (piece : Peer.Piece) (blockIndex : ℕ) : World :=
  if blockIndex < piece.blocks.length then w
  else w.log [.fault .blocks blockIndex piece.blocks.length]

/-- `pieceQueue.erase(it)`. -/
def erasePiece (w : World) (p : PeerId) (it : ℕ) : World :=
  w.setPeer p { w.peers p with pieceQueue := (w.peers p).pieceQueue.eraseIdx it }

/-- PIECE_BLOCK (lines 237–299). -/
def handlePieceBlock (sha1 : List Byte → List ℕ) (w : World) (p : PeerId) (env : Env)
    (inMsg : IncomingMessage) : Flow :=
  if inMsg.getSize < 9 then .ret (handleError w p (.invalidSize .pieceBlock))
  else
    let msgSize := inMsg.getSize - 8
    let ((index, begin), inMsg) := inMsg.indexBegin
    let w := checkReads w inMsg
    if msgSize ≤ 0 || msgSize > maxBlockRequestSize then
      .ret (handleError w p (.tooBigBlock msgSize))
    else
      match findPiece (w.peers p).pieceQueue index with
      | none => .ret (handleError w p (.notAskedFor index))
      | some (it, piece) =>
        let blockIndex := begin / maxBlockRequestSize
        if blockIndex ≥ piece.totalBlocks then .ret (handleError w p .tooBigBlockIndex)
        else
          let (done, w) := Torrent.pieceDone w env index
          if done then .brk (erasePiece (sendCancelRequest w p piece) p it)
          else
            let w := checkBlock w piece blockIndex
            let piece := piece.store blockIndex msgSize (inMsg.cpyBuffer msgSize)
            let w := w.setPeer p { w.peers p with pieceQueue := (w.peers p).pieceQueue.set it piece }
            if piece.haveBlocks = piece.totalBlocks then
              let w := Torrent.handlePieceCompleted sha1 w p env piece index piece.pieceData
              if !w.running then .ret w
              else
                let w := erasePiece w p it
                .brk (if w.torrent.completedPieces ≠ w.torrent.getTotalPieces then
                  Torrent.selectPieceAndRequest w p else w)
            else .brk w

/-- CANCEL (lines 300–312): the fields are read and not used. -/
def handleCancel (w : World) (p : PeerId) (inMsg : IncomingMessage) : Flow :=
  if inMsg.getSize ≠ 12 then .ret (handleError w p (.invalidSize .cancel))
  else .brk (checkReads w inMsg.indexBeginLength.2)

/-- The `switch` of `handleMessage`; a byte above 8 selects no case. -/
def dispatch (sha1 : List Byte → List ℕ) (w : World) (p : PeerId) (env : Env) (messageID : Byte)
    (inMsg : IncomingMessage) : Flow :=
  match MessageID.ofByte messageID with
  | some .choke => handleChoke w p inMsg
  | some .unchoke => handleUnchoke w p inMsg
  | some .interested => handleInterested w p inMsg
  | some .notInterested => handleNotInterested w p inMsg
  | some .havePiece => handleHave w p inMsg
  | some .bitfield => handleBitfield w p inMsg
  | some .request => handleRequest w p env inMsg
  | some .pieceBlock => handlePieceBlock sha1 w p env inMsg
  | some .cancel => handleCancel w p inMsg
  | none => .brk w

/-- `Peer::handleMessage` (lines 108–315) for the payload `payload`. -/
def handleMessage (sha1 : List Byte → List ℕ) (w : World) (p : PeerId) (env : Env)
    (messageID : Byte) (payload : List Byte) : World :=
  match dispatch sha1 w p env messageID { dataBuffer := payload } with
  | .ret w => w
  | .brk w => Connection.read w p .message

/-! ## Reads stay inside the payload -/

theorem checkReads_of_not_overrun {inMsg : IncomingMessage} (h : inMsg.overrun = false)
    (w : World) :
    checkReads w inMsg = w := by
  simp [checkReads, h]

/-- The index read by the HAVE case. -/
def haveField (payload : List Byte) : ℕ := readAsBE32 payload

/-- The fields `index` and `begin` read by the PIECE_BLOCK case. -/
def blockFields (payload : List Byte) : ℕ × ℕ := (readAsBE32 payload, readAsBE32 (payload.drop 4))

/-- The fields `index`, `begin`, `length` read by the REQUEST case. -/
def requestFields (payload : List Byte) : ℕ × ℕ × ℕ :=
  (readAsBE32 payload, readAsBE32 (payload.drop 4), readAsBE32 (payload.drop 8))

theorem indexBegin_eq {payload : List Byte} (h : 8 ≤ payload.length) :
    IncomingMessage.indexBegin { dataBuffer := payload } =
      (blockFields payload, { dataBuffer := payload, readIndex := 8, overrun := false }) := by
  simp [IncomingMessage.indexBegin, IncomingMessage.extractNextU32, IncomingMessage.advance, u32,
    blockFields]
  omega

theorem indexBeginLength_eq {payload : List Byte} (h : 12 ≤ payload.length) :
    IncomingMessage.indexBeginLength { dataBuffer := payload } =
      (requestFields payload, { dataBuffer := payload, readIndex := 12, overrun := false }) := by
  simp [IncomingMessage.indexBeginLength, IncomingMessage.extractNextU32, IncomingMessage.advance, u32,
    requestFields]
  omega

/-- `find_if` finds an entry for the index at the position it returns. -/
theorem findPiece_some {queue : List Peer.Piece} {index it : ℕ} {piece : Peer.Piece}
    (h : findPiece queue index = some (it, piece)) :
    queue[it]? = some piece ∧ piece.index = index := by
  unfold findPiece at h
  rw [Option.bind_eq_some_iff] at h
  obtain ⟨k, hk, h⟩ := h
  rw [Option.map_eq_some_iff] at h
  obtain ⟨e, he, h⟩ := h
  obtain ⟨rfl, rfl⟩ := Prod.mk.inj h
  refine ⟨he, ?_⟩
  obtain ⟨hlt, hp, -⟩ := List.findIdx?_eq_some_iff_getElem.mp hk
  rw [List.getElem?_eq_getElem hlt] at he
  cases he
  simpa using hp

theorem findPiece_none {queue : List Peer.Piece} {index : ℕ} (h : findPiece queue index = none)
    {piece : Peer.Piece} (hp : piece ∈ queue) : piece.index ≠ index := by
  unfold findPiece at h
  rw [Option.bind_eq_none_iff] at h
  intro heq
  cases hk : queue.findIdx? fun piece => piece.index == index with
  | none =>
    have := List.findIdx?_eq_none_iff.mp hk piece hp
    simp [heq] at this
  | some k =>
    obtain ⟨hlt, -, -⟩ := List.findIdx?_eq_some_iff_getElem.mp hk
    have := h k hk
    rw [List.getElem?_eq_getElem hlt] at this
    cases this

end Peer

end YTorrent
