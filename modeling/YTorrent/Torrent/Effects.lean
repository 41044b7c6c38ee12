import YTorrent.Torrent.Step

/-!
# What one handler execution can do

Every invariant of the client is derived from the statements of this module:
what `handlePieceCompleted` does (`CompletionEffect`), what
`selectPieceAndRequest` does (`SelectEffect`), and what the handling of a whole
frame does (`FrameEffect`), with all guards of the source and the state that
results. `handleMessage_effect` shows that the frame handler does one of these
things; no later proof unfolds it.
-/

namespace YTorrent

open World

/-! ## `handlePieceCompleted` -/

/-- The HAVE messages of the broadcast: none to a peer we are choking. -/
def haveEvents (w : World) (index : ℕ) : List Event :=
  w.torrent.activePeers.flatMap fun q =>
    if (w.peers q).amChoking then [] else sentEvents (w.peers q).conn q [.havePiece (u32 index)]

theorem sendHave_eq (w : World) (p : PeerId) (index : ℕ) : Peer.sendHave w p index =
    w.log (if (w.peers p).amChoking then []
      else sentEvents (w.peers p).conn p [.havePiece (u32 index)]) := by
  unfold Peer.sendHave
  split
  · simp
  · exact write_eq w p _

theorem broadcastHave_eq (w : World) (index : ℕ) :
    Torrent.broadcastHave w index = w.log (haveEvents w index) := by
  unfold Torrent.broadcastHave haveEvents
  generalize w.torrent.activePeers = l
  induction l generalizing w with
  | nil => simp
  | cons q l ih => rw [List.foldl_cons, ih, sendHave_eq, log_log, List.flatMap_cons]; rfl

theorem mem_haveEvents {w : World} {index : ℕ} {e : Event} : e ∈ haveEvents w index ↔
    ∃ q ∈ w.torrent.activePeers, (w.peers q).amChoking = false ∧
      (w.peers q).conn.isOpen = true ∧ e = .sent q (.havePiece (u32 index)) := by
  simp only [haveEvents, List.mem_flatMap]
  refine exists_congr fun q => and_congr_right fun _ => ?_
  cases (w.peers q).amChoking <;> simp [mem_sentEvents]

/-- The fault of `bitfield.set(index)` out of range. -/
def bitFault (t : Torrent) (index : ℕ) : List Event :=
  if index < t.bitfield.length then [] else [.fault .bitfield index t.bitfield.length]

theorem setBit_eq (w : World) (i : ℕ) : Torrent.setBit w i =
    (w.setTorrent { w.torrent with bitfield := w.torrent.bitfield.set i true }).log
      (bitFault w.torrent i) := by
  unfold Torrent.setBit bitFault
  split_ifs with h
  · simp
  · rw [List.set_eq_of_length_le (by omega)]; rfl

/-- The torrent after piece `index` has been written and finished. -/
def Torrent.stored (t : Torrent) (index : ℕ) (pieceData : List Byte) : Torrent :=
  { t with
    file := Slice.overwrite 0 t.file (u64 (index * t.pieceLength)) pieceData
    bitfield := t.bitfield.set index true
    pieces := t.pieces.modify index ({ · with finished := true })
    downloadedBytes := t.downloadedBytes + pieceData.length
    completedPieces := t.completedPieces + 1 }

/-- The torrent after a buffer has failed the hash check. -/
def Torrent.missed (t : Torrent) (pieceData : List Byte) : Torrent :=
  { t with
    pieceHashMisses := t.pieceHashMisses + 1
    wastedBytes := t.wastedBytes + pieceData.length }

/-- What a failed write leaves in the file: its contents, or those with an
    initial part of the data at `pos`. -/
def PartlyWritten (file : List Byte) (pos : ℕ) (data file' : List Byte) : Prop :=
  file' = file ∨ pos < 2 ^ 63 ∧ ∃ n, file' = Slice.overwrite 0 file pos (data.take n)

/-- What `handlePieceCompleted` does, for the queue entry `piece` of `p`. -/
inductive CompletionEffect (sha1 : List Byte → List ℕ) (w : World) (p : PeerId)
    (piece : Peer.Piece) (index : ℕ) (pieceData : List Byte) : World → Prop
  | mismatch (hash : Torrent.checkPieceHash sha1 w.torrent pieceData index = false) :
    CompletionEffect sha1 w p piece index pieceData
      ((w.setTorrent (w.torrent.missed pieceData)).log
        [.pieceCompleted p piece pieceData .mismatch])
  | ioFailed (hash : Torrent.checkPieceHash sha1 w.torrent pieceData index = true)
    (file : List Byte)
    (hfile : PartlyWritten w.torrent.file (u64 (index * w.torrent.pieceLength)) pieceData file) :
    CompletionEffect sha1 w p piece index pieceData
      { (w.setTorrent { w.torrent with file := file }).log
          [.pieceCompleted p piece pieceData .ioFailed] with running := false }
  | stored (hash : Torrent.checkPieceHash sha1 w.torrent pieceData index = true)
    (hpos : u64 (index * w.torrent.pieceLength) < 2 ^ 63) :
    CompletionEffect sha1 w p piece index pieceData
      ((w.setTorrent (w.torrent.stored index pieceData)).log (bitFault w.torrent index ++
        .pieceCompleted p piece pieceData .stored :: haveEvents w index))

theorem checkPieceHash_true {sha1 : List Byte → List ℕ} {t : Torrent} {data : List Byte} {index : ℕ}
    (h : Torrent.checkPieceHash sha1 t data index = true) :
    ∃ piece, t.pieces[index]? = some piece ∧ Torrent.pieceHash sha1 data = piece.hash := by
  unfold Torrent.checkPieceHash at h
  split at h
  · cases h
  · rename_i piece hp; exact ⟨piece, hp, by simpa using h⟩

theorem handlePieceCompleted_effect (sha1 : List Byte → List ℕ) (w : World) (p : PeerId) (env : Env)
    (piece : Peer.Piece) (index : ℕ) (pieceData : List Byte) :
    CompletionEffect sha1 w p piece index pieceData
      (Torrent.handlePieceCompleted sha1 w p env piece index pieceData) := by
  unfold Torrent.handlePieceCompleted
  by_cases hash : Torrent.checkPieceHash sha1 w.torrent pieceData index = true
  · simp only [hash, Bool.not_true, Bool.false_eq_true, if_false]
    split_ifs with hseek hwrote
    · exact .ioFailed hash w.torrent.file (.inl rfl)
    · -- `fwrite` wrote less than the whole buffer
      have hpos : u64 (index * w.torrent.pieceLength) < 2 ^ 63 := by
        simp only [Bool.or_eq_true, decide_eq_true_eq, not_or] at hseek; omega
      exact .ioFailed hash _ (.inr ⟨hpos, _, rfl⟩)
    · have hpos : u64 (index * w.torrent.pieceLength) < 2 ^ 63 := by
        simp only [Bool.or_eq_true, decide_eq_true_eq, not_or] at hseek; omega
      have hall : min pieceData.length env.fwriteLimit = pieceData.length := not_not.mp hwrote
      obtain ⟨x, hx, -⟩ := checkPieceHash_true hash
      have hlt : index < w.torrent.pieces.length := (List.getElem?_eq_some_iff.mp hx).1
      have h : CompletionEffect sha1 w p piece index pieceData _ := .stored hash hpos
      simpa [hall, setBit_eq, Torrent.modifyPiece, hlt, broadcastHave_eq, setTorrent, log,
        haveEvents, bitFault, Torrent.stored] using h
  · have hash : Torrent.checkPieceHash sha1 w.torrent pieceData index = false := by simpa using hash
    simp only [hash, Bool.not_false, if_true]
    exact .mismatch hash

/-! ## `selectPieceAndRequest` -/

/-- What a call of `selectPieceAndRequest` for `p`, made unless the download is
    complete, does. -/
inductive SelectEffect (w : World) (p : PeerId) : World → Prop
  | none (h : w.torrent.isFullyDownloaded = true ∨ Torrent.selected w.torrent (w.peers p) = .none) :
    SelectEffect w p w
  | requested (i : ℕ) (hfull : w.torrent.isFullyDownloaded = false)
    (h : Torrent.selected w.torrent (w.peers p) = some i) :
    SelectEffect w p
      (((w.setTorrent (w.torrent.raisePriority i)).setPeer p
        ((w.peers p).queuePiece w.torrent (u32 i))).log
          (sentEvents (w.peers p).conn p (pieceRequestMessages (w.peers p) w.torrent (u32 i))))

theorem pieceSize_raisePriority (t : Torrent) (i k : ℕ) :
    (t.raisePriority i).pieceSize k = t.pieceSize k := by
  apply pieceSize_congr
  · exact List.length_modify ..
  · rfl
  · rfl

theorem select_effect (w : World) (p : PeerId) :
    SelectEffect w p
      (if !w.torrent.isFullyDownloaded then Torrent.selectPieceAndRequest w p else w) := by
  by_cases hfull : w.torrent.isFullyDownloaded = true
  · simpa [hfull] using SelectEffect.none (p := p) (.inl hfull)
  · have hfull : w.torrent.isFullyDownloaded = false := by simpa using hfull
    simp only [hfull, Bool.not_false, if_true, Torrent.selectPieceAndRequest_eq]
    cases h : Torrent.selected w.torrent (w.peers p) with
    | none => exact .none (.inr h)
    | some i =>
      have hq : (w.peers p).queuePiece (w.torrent.raisePriority i) (u32 i) =
          (w.peers p).queuePiece w.torrent (u32 i) := by
        simp [Peer.queuePiece, pieceSize_raisePriority]
      have hm : pieceRequestMessages (w.peers p) (w.torrent.raisePriority i) (u32 i) =
          pieceRequestMessages (w.peers p) w.torrent (u32 i) := by
        simp [pieceRequestMessages, requests, pieceSize_raisePriority]
      simpa [sendPieceRequest_eq, hq, hm] using SelectEffect.requested i hfull h

/-- The same for the test at the end of the PIECE_BLOCK case. -/
theorem select_effect_of_ne (w : World) (p : PeerId) :
    SelectEffect w p (if w.torrent.completedPieces ≠ w.torrent.getTotalPieces then
      Torrent.selectPieceAndRequest w p else w) := by
  have h := select_effect w p
  by_cases hc : w.torrent.completedPieces = w.torrent.pieces.length
  · simpa [Torrent.isFullyDownloaded, Torrent.getTotalPieces, hc] using h
  · simpa [Torrent.isFullyDownloaded, Torrent.getTotalPieces, hc] using h

/-! ## `handleBlockRequest` -/

/-- What `handleBlockRequest` does: it drops the peer, or sends nothing, or
    sends one block. -/
inductive ServeEffect (w : World) (p : PeerId) (pIndex begin length : ℕ) : World → Prop
  | refused (h : w.torrent.pieces.length ≤ pIndex ∨
      w.torrent.pieceSize pIndex < u32 (begin + length)) :
    ServeEffect w p pIndex begin length (w.setConn p (w.peers p).conn.closed)
  | silent (fp : Bool) :
    ServeEffect w p pIndex begin length (w.setTorrent { w.torrent with fp := fp })
  | sent (block : List Byte) :
    ServeEffect w p pIndex begin length
      ((w.setTorrent { w.torrent with
        fp := true
        uploadedBytes := w.torrent.uploadedBytes + length }).log
        (sentEvents (w.peers p).conn p [.pieceBlock (u32 pIndex) (u32 begin) block]))

theorem handleBlockRequest_effect (w : World) (p : PeerId) (env : Env) (pIndex begin length : ℕ) :
    ServeEffect w p pIndex begin length
      (Torrent.handleBlockRequest w p env pIndex begin length) := by
  simp only [Torrent.handleBlockRequest, disconnect_eq]
  split_ifs with hindex hend hopen hread
  · exact .refused (.inl hindex)
  · exact .refused (.inr hend)
  · exact .silent w.torrent.fp
  · exact .silent true
  · rw [Peer.sendPieceBlock, write_eq]
    exact .sent _

/-! ## `handleMessage` -/

/-- The value of `pieceDone(i)`. -/
def Torrent.doneValue (t : Torrent) (env : Env) (i : ℕ) : Bool :=
  match t.pieces[i]? with
  | some piece => piece.finished
  | none => env.stray

/-- The fault of `pieceDone(i)` out of range. -/
def doneFault (t : Torrent) (i : ℕ) : List Event :=
  if i < t.pieces.length then [] else [.fault .pieces i t.pieces.length]

theorem pieceDone_eq (w : World) (env : Env) (i : ℕ) :
    Torrent.pieceDone w env i = (w.torrent.doneValue env i, w.log (doneFault w.torrent i)) := by
  unfold Torrent.pieceDone Torrent.doneValue doneFault
  cases h : w.torrent.pieces[i]? with
  | none => rw [if_neg (by simpa using h)]
  | some piece => rw [if_pos (List.getElem?_eq_some_iff.mp h).1]; simp

theorem doneFault_of_lt {t : Torrent} {i : ℕ} (h : i < t.pieces.length) : doneFault t i = [] :=
  if_pos h

theorem doneValue_of_lt {t : Torrent} {i : ℕ} (h : i < t.pieces.length) (env : Env) :
    t.doneValue env i = t.isFinished i := by
  simp [Torrent.doneValue, Torrent.isFinished, List.getElem?_eq_getElem h]

namespace Peer

/-- The slot a PIECE_BLOCK frame addresses. -/
def slotOf (payload : List Byte) : ℕ := (blockFields payload).2 / maxBlockRequestSize

/-- The block a PIECE_BLOCK frame carries. -/
def blockData (payload : List Byte) : List Byte := payload.drop 8

/-- The queue entry with the block of the frame stored in it. -/
def Piece.put (piece : Peer.Piece) (payload : List Byte) : Peer.Piece :=
  piece.store (slotOf payload) (blockData payload).length (some (blockData payload))

/-- The PIECE_BLOCK frame `payload` passes every check, and `find_if` finds
    `piece` at position `it` of the queue of `p`. -/
structure Accepts (w : World) (p : PeerId) (payload : List Byte) (it : ℕ) (piece : Peer.Piece) :
    Prop where
  size_ge : 9 ≤ payload.length
  size_le : (blockData payload).length ≤ maxBlockRequestSize
  found : findPiece (w.peers p).pieceQueue (blockFields payload).1 = some (it, piece)
  slot_lt : slotOf payload < piece.totalBlocks

/-- The client after the block of the frame has been stored. -/
def storeBlock (w : World) (p : PeerId) (payload : List Byte) (it : ℕ) (piece : Peer.Piece) :
    World :=
  (w.log (doneFault w.torrent (blockFields payload).1)).setPeer p { w.peers p with
    pieceQueue := (w.peers p).pieceQueue.set it (piece.put payload) }

/-- The peer with more indexes announced. -/
def announce (x : Peer) (indexes : List ℕ) : Peer :=
  { x with hasPieceIndexes := x.hasPieceIndexes ++ indexes }

end Peer

/-- The payload sizes that pass the size check of a message. -/
def MessageID.SizeOk : MessageID → ℕ → Prop
  | choke, n | unchoke, n | interested, n | notInterested, n => n = 0
  | havePiece, n => n = 4
  | bitfield, n => 1 ≤ n
  | request, n | cancel, n => n = 12
  | pieceBlock, n => 9 ≤ n

open Peer in
/-- The frames that have no effect: an id no case handles, a HAVE that repeats
    what is known, a CANCEL. -/
inductive Ignorable (w : World) (p : PeerId) (messageID : Byte) (payload : List Byte) : Prop
  | unknown (hid : MessageID.ofByte messageID = none)
  | havePiece (hid : MessageID.ofByte messageID = some .havePiece) (hsize : payload.length = 4)
    (hold : (w.peers p).hasPiece (haveField payload) = true)
  | cancel (hid : MessageID.ofByte messageID = some .cancel) (hsize : payload.length = 12)

open Peer in
/-- Why a frame of `p` is answered with `handleError`. -/
inductive Refusal (w : World) (p : PeerId) (messageID : Byte) (payload : List Byte) :
    PeerError → Prop
  | invalidSize (m : MessageID) (hid : MessageID.ofByte messageID = some m)
    (h : ¬ m.SizeOk payload.length) : Refusal w p messageID payload (.invalidSize m)
  | requestWithoutInterest (hid : MessageID.ofByte messageID = some .request)
    (h : (w.peers p).peerInterested = false) :
    Refusal w p messageID payload .requestWithoutInterest
  | requestWhileChoked (hid : MessageID.ofByte messageID = some .request)
    (h : (w.peers p).amChoking = true) : Refusal w p messageID payload .requestWhileChoked
  | requestTooBig (hid : MessageID.ofByte messageID = some .request)
    (h : maxBlockRequestSize < (requestFields payload).2.2) :
    Refusal w p messageID payload (.requestTooBig (requestFields payload).2.2)
  | tooBigBlock (hid : MessageID.ofByte messageID = some .pieceBlock)
    (h : maxBlockRequestSize < (blockData payload).length) :
    Refusal w p messageID payload (.tooBigBlock (blockData payload).length)
  | notAskedFor (hid : MessageID.ofByte messageID = some .pieceBlock)
    (h : findPiece (w.peers p).pieceQueue (blockFields payload).1 = none) :
    Refusal w p messageID payload (.notAskedFor (blockFields payload).1)
  | tooBigBlockIndex (hid : MessageID.ofByte messageID = some .pieceBlock) (it : ℕ)
    (piece : Peer.Piece)
    (hfind : findPiece (w.peers p).pieceQueue (blockFields payload).1 = some (it, piece))
    (h : piece.totalBlocks ≤ slotOf payload) : Refusal w p messageID payload .tooBigBlockIndex

open Peer in
/-- What the handling of a frame of `p` does. The world is the one before the
    handler; `Connection.read … .message` is the read issued after the `switch`. -/
inductive FrameEffect (sha1 : List Byte → List ℕ) (w : World) (p : PeerId) (env : Env)
    (messageID : Byte) (payload : List Byte) : World → Prop
  | ignored (h : Ignorable w p messageID payload) :
    FrameEffect sha1 w p env messageID payload (Connection.read w p .message)
  | refused (e : PeerError) (h : Refusal w p messageID payload e) :
    FrameEffect sha1 w p env messageID payload (handleError w p e)
  | choke (hid : MessageID.ofByte messageID = some .choke) :
    FrameEffect sha1 w p env messageID payload
      (Connection.read (w.setPeer p { w.peers p with peerChoking := true }) p .message)
  | unchoke (hid : MessageID.ofByte messageID = some .unchoke) :
    FrameEffect sha1 w p env messageID payload
      (Connection.read ((w.setPeer p { w.peers p with peerChoking := false }).log
        (sentEvents (w.peers p).conn p
          ((w.peers p).pieceQueue.flatMap fun e => requests w.torrent e.index))) p .message)
  | interested (hid : MessageID.ofByte messageID = some .interested) :
    FrameEffect sha1 w p env messageID payload
      (Connection.read
        ((w.setPeer p { w.peers p with peerInterested := true, amChoking := false }).log
          (sentEvents (w.peers p).conn p (if (w.peers p).amChoking then [.unchoke] else [])))
        p .message)
  | notInterested (hid : MessageID.ofByte messageID = some .notInterested) :
    FrameEffect sha1 w p env messageID payload
      (Connection.read (w.setPeer p { w.peers p with peerInterested := false }) p .message)
  | havePiece (hid : MessageID.ofByte messageID = some .havePiece) (hsize : payload.length = 4)
    (hnew : (w.peers p).hasPiece (haveField payload) = false) :
    FrameEffect sha1 w p env messageID payload
      (Connection.read (w.setPeer p ((w.peers p).announce [haveField payload])) p .message)
  | bitfield (hid : MessageID.ofByte messageID = some .bitfield) (w' : World)
    (hsel : SelectEffect (w.setPeer p
      ((w.peers p).announce (bitfieldIndexes payload w.torrent.getTotalPieces))) p w') :
    FrameEffect sha1 w p env messageID payload (Connection.read w' p .message)
  | request (hid : MessageID.ofByte messageID = some .request) (hsize : payload.length = 12)
    (hint : (w.peers p).peerInterested = true) (hchoke : (w.peers p).amChoking = false)
    (hlen : (requestFields payload).2.2 ≤ maxBlockRequestSize) (w' : World)
    (hserve : w.torrent.doneValue env (requestFields payload).1 = false ∧
        w' = w.log (doneFault w.torrent (requestFields payload).1) ∨
      w.torrent.doneValue env (requestFields payload).1 = true ∧
        ServeEffect (w.log (doneFault w.torrent (requestFields payload).1)) p
          (requestFields payload).1 (requestFields payload).2.1 (requestFields payload).2.2 w') :
    FrameEffect sha1 w p env messageID payload (Connection.read w' p .message)
  | cancelled (hid : MessageID.ofByte messageID = some .pieceBlock) (it : ℕ) (piece : Peer.Piece)
    (hacc : Accepts w p payload it piece)
    (hdone : w.torrent.doneValue env (blockFields payload).1 = true) :
    FrameEffect sha1 w p env messageID payload
      (Connection.read (erasePiece (w.log (doneFault w.torrent (blockFields payload).1 ++
        sentEvents (w.peers p).conn p (cancels w.torrent piece.index))) p it) p .message)
  | stored (hid : MessageID.ofByte messageID = some .pieceBlock) (it : ℕ) (piece : Peer.Piece)
    (hacc : Accepts w p payload it piece)
    (hdone : w.torrent.doneValue env (blockFields payload).1 = false)
    (hmore : piece.haveBlocks + 1 ≠ piece.totalBlocks) :
    FrameEffect sha1 w p env messageID payload
      (Connection.read (storeBlock w p payload it piece) p .message)
  | ioFailed (hid : MessageID.ofByte messageID = some .pieceBlock) (it : ℕ) (piece : Peer.Piece)
    (hacc : Accepts w p payload it piece)
    (hdone : w.torrent.doneValue env (blockFields payload).1 = false)
    (hlast : piece.haveBlocks + 1 = piece.totalBlocks) (w' : World)
    (hcomp : CompletionEffect sha1 (storeBlock w p payload it piece) p (piece.put payload)
      (blockFields payload).1 (piece.put payload).pieceData w') (hrun : w'.running = false) :
    FrameEffect sha1 w p env messageID payload w'
  | completed (hid : MessageID.ofByte messageID = some .pieceBlock) (it : ℕ) (piece : Peer.Piece)
    (hacc : Accepts w p payload it piece)
    (hdone : w.torrent.doneValue env (blockFields payload).1 = false)
    (hlast : piece.haveBlocks + 1 = piece.totalBlocks) (w' w'' : World)
    (hcomp : CompletionEffect sha1 (storeBlock w p payload it piece) p (piece.put payload)
      (blockFields payload).1 (piece.put payload).pieceData w') (hrun : w'.running = true)
    (hsel : SelectEffect (erasePiece w' p it) p w'') :
    FrameEffect sha1 w p env messageID payload (Connection.read w'' p .message)

namespace Peer

variable {sha1 : List Byte → List ℕ} {w : World} {p : PeerId} {env : Env} {messageID : Byte}
  {payload : List Byte}

/-- Where a case of the `switch` leads: to `w` itself after an early return, to
    the next read otherwise. -/
def Flow.next (p : PeerId) : Flow → World
  | .ret w => w
  | .brk w => Connection.read w p .message

@[simp] theorem Flow.next_ret : (Flow.ret w).next p = w := rfl

@[simp] theorem Flow.next_brk : (Flow.brk w).next p = Connection.read w p .message := rfl

theorem handleMessage_eq : handleMessage sha1 w p env messageID payload =
    (dispatch sha1 w p env messageID { dataBuffer := payload }).next p := by
  unfold handleMessage Flow.next
  split <;> simp_all

/-- The messages without a payload. -/
theorem expectEmpty_effect {m : MessageID} {rest : World}
    (hid : MessageID.ofByte messageID = some m) (hm : ∀ n, m.SizeOk n → n = 0)
    (h : FrameEffect sha1 w p env messageID payload (Connection.read rest p .message)) :
    FrameEffect sha1 w p env messageID payload
      ((expectEmpty m w p { dataBuffer := payload } rest).next p) := by
  unfold expectEmpty
  split
  · rename_i hsize
    exact .refused _ (.invalidSize m hid fun hok => hsize (hm _ hok))
  · exact h

/-- The loop over the queue only writes when the peer is not choking us. -/
theorem foldl_requestPiece (l : List Peer.Piece) (hw : (w.peers p).peerChoking = false) :
    l.foldl (fun w piece => requestPiece w p piece.index) w =
      w.log (sentEvents (w.peers p).conn p (l.flatMap fun e => requests w.torrent e.index)) := by
  induction l generalizing w with
  | nil => simp
  | cons e l ih =>
    rw [List.foldl_cons, requestPiece_eq hw, ih (by simpa using hw)]
    simp [sentEvents_append]

theorem handleUnchoke_effect (hid : MessageID.ofByte messageID = some .unchoke) :
    FrameEffect sha1 w p env messageID payload
      ((handleUnchoke w p { dataBuffer := payload }).next p) := by
  refine expectEmpty_effect hid (fun _ h => h) ?_
  rw [foldl_requestPiece _ (by simp)]
  simpa using FrameEffect.unchoke hid

theorem handleInterested_effect (hid : MessageID.ofByte messageID = some .interested) :
    FrameEffect sha1 w p env messageID payload
      ((handleInterested w p { dataBuffer := payload }).next p) := by
  refine expectEmpty_effect hid (fun _ h => h) ?_
  have h : FrameEffect sha1 w p env messageID payload _ := .interested hid
  by_cases hc : (w.peers p).amChoking = true
  · simpa [hc, write_eq, setPeer, log] using h
  · simpa [hc, setPeer, log] using h

theorem handleHave_effect (hid : MessageID.ofByte messageID = some .havePiece) :
    FrameEffect sha1 w p env messageID payload
      ((handleHave w p { dataBuffer := payload }).next p) := by
  unfold handleHave
  split_ifs with hsize
  · exact .refused _ (.invalidSize _ hid hsize)
  · have hsize : payload.length = 4 := not_not.mp hsize
    simp only [IncomingMessage.extractNextU32, List.drop_zero]
    rw [checkReads_of_not_overrun (by simp [hsize])]
    split_ifs with hnew
    · exact .havePiece hid hsize (by simpa [haveField] using hnew)
    · exact .ignored (.havePiece hid hsize (by simpa [haveField] using hnew))

theorem handleBitfield_effect (hid : MessageID.ofByte messageID = some .bitfield) :
    FrameEffect sha1 w p env messageID payload
      ((handleBitfield w p { dataBuffer := payload }).next p) := by
  unfold handleBitfield
  split_ifs with hsize
  · exact .refused _ (.invalidSize _ hid (not_le.mpr hsize))
  · exact .bitfield hid _ (select_effect _ p)

theorem handleRequest_effect (hid : MessageID.ofByte messageID = some .request) :
    FrameEffect sha1 w p env messageID payload
      ((handleRequest w p env { dataBuffer := payload }).next p) := by
  unfold handleRequest
  split_ifs with hsize hint hchoke
  · exact .refused _ (.invalidSize _ hid hsize)
  · exact .refused _ (.requestWithoutInterest hid (by simpa using hint))
  · exact .refused _ (.requestWhileChoked hid hchoke)
  · have hsize : payload.length = 12 := not_not.mp hsize
    rw [indexBeginLength_eq hsize.ge]
    simp only [pieceDone_eq, checkReads_of_not_overrun]
    have hint : (w.peers p).peerInterested = true := by simpa using hint
    have hchoke : (w.peers p).amChoking = false := by simpa using hchoke
    split_ifs with hlen hdone
    · exact .refused _ (.requestTooBig hid hlen)
    · exact .request hid hsize hint hchoke (not_lt.mp hlen) _ (.inl ⟨by simpa using hdone, rfl⟩)
    · exact .request hid hsize hint hchoke (not_lt.mp hlen) _
        (.inr ⟨by simpa using hdone, handleBlockRequest_effect _ p env _ _ _⟩)

theorem cpyBuffer_eq (h : 8 ≤ payload.length) :
    IncomingMessage.cpyBuffer { dataBuffer := payload, readIndex := 8, overrun := false }
      (payload.length - 8) = some (blockData payload) := by
  unfold IncomingMessage.cpyBuffer IncomingMessage.getSize blockData
  rw [if_neg (by simp only; omega), List.take_of_length_le (by simp)]

/-- The PIECE_BLOCK case for a block that is accepted. -/
theorem handlePieceBlock_accepts {it : ℕ} {piece : Peer.Piece}
    (hacc : Accepts w p payload it piece) :
    handlePieceBlock sha1 w p env { dataBuffer := payload } =
      if w.torrent.doneValue env (blockFields payload).1 = true then
        .brk (erasePiece (w.log (doneFault w.torrent (blockFields payload).1 ++
          sentEvents (w.peers p).conn p (cancels w.torrent piece.index))) p it)
      else if (piece.put payload).haveBlocks = (piece.put payload).totalBlocks then
        let v := Torrent.handlePieceCompleted sha1 (storeBlock w p payload it piece) p env
          (piece.put payload) (blockFields payload).1 (piece.put payload).pieceData
        if !v.running then .ret v
        else .brk (if (erasePiece v p it).torrent.completedPieces ≠
            (erasePiece v p it).torrent.getTotalPieces then
          Torrent.selectPieceAndRequest (erasePiece v p it) p else erasePiece v p it)
      else .brk (storeBlock w p payload it piece) := by
  have hge : ¬ IncomingMessage.getSize { dataBuffer := payload } < 9 := not_lt.mpr hacc.size_ge
  have hlen : 8 ≤ payload.length := Nat.le_trans (by decide) hacc.size_ge
  have hpos : ¬ payload.length - 8 ≤ 0 := by
    have h9 := hacc.size_ge
    omega
  have hmax : ¬ payload.length - 8 > maxBlockRequestSize := by
    have hle := hacc.size_le
    simpa [blockData] using hle
  have hslot : ¬ (blockFields payload).2 / maxBlockRequestSize ≥ piece.totalBlocks :=
    not_le.mpr hacc.slot_lt
  have hblock : ∀ v, checkBlock v piece ((blockFields payload).2 / maxBlockRequestSize) = v :=
    fun v => if_pos (by rw [piece.length_blocks]; exact hacc.slot_lt)
  have hput : piece.store ((blockFields payload).2 / maxBlockRequestSize)
      (payload.length - 8) (some (blockData payload)) = piece.put payload := by
    simp [Piece.put, slotOf, blockData]
  unfold handlePieceBlock
  rw [if_neg hge, indexBegin_eq hlen]
  simp only [pieceDone_eq, checkReads_of_not_overrun, IncomingMessage.getSize, hpos,
    cpyBuffer_eq hlen, decide_false, Bool.false_or, hmax,
    Bool.false_eq_true, if_false, hacc.found, if_neg hslot, hblock, hput]
  by_cases hdone : w.torrent.doneValue env (blockFields payload).1 = true
  · rw [if_pos hdone, if_pos hdone, sendCancelRequest_eq]
    simp
  · rw [if_neg hdone, if_neg hdone]
    rfl

/-- The PIECE_BLOCK case for a block that fails one of the checks. -/
theorem handlePieceBlock_refuses (hid : MessageID.ofByte messageID = some .pieceBlock)
    (hacc : ¬ ∃ it piece, Accepts w p payload it piece) :
    ∃ e, Refusal w p messageID payload e ∧
      handlePieceBlock sha1 w p env { dataBuffer := payload } = .ret (handleError w p e) := by
  unfold handlePieceBlock
  by_cases hshort : IncomingMessage.getSize { dataBuffer := payload } < 9
  · rw [if_pos hshort]
    exact ⟨_, .invalidSize _ hid (not_le.mpr hshort), rfl⟩
  have hsize : 9 ≤ payload.length := not_lt.mp hshort
  rw [if_neg hshort, indexBegin_eq (by omega : 8 ≤ payload.length)]
  have hlen : payload.length - 8 = (blockData payload).length := by simp [blockData]
  have hpos : ¬ (blockData payload).length ≤ 0 := by omega
  simp only [checkReads_of_not_overrun, IncomingMessage.getSize, hpos, hlen, decide_false,
    Bool.false_or]
  by_cases hmax : (blockData payload).length > maxBlockRequestSize
  · simp only [hmax, decide_true, if_true]
    exact ⟨_, .tooBigBlock hid hmax, rfl⟩
  simp only [hmax, decide_false, Bool.false_eq_true, if_false]
  cases hfind : findPiece (w.peers p).pieceQueue (blockFields payload).1 with
  | none => exact ⟨_, .notAskedFor hid hfind, rfl⟩
  | some found =>
    obtain ⟨it, piece⟩ := found
    by_cases hslot : (blockFields payload).2 / maxBlockRequestSize ≥ piece.totalBlocks
    · simp only [if_pos hslot]
      exact ⟨_, .tooBigBlockIndex hid it piece hfind hslot, rfl⟩
    · exact absurd ⟨it, piece, hsize, not_lt.mp hmax, hfind, not_le.mp hslot⟩ hacc

theorem handlePieceBlock_effect (hid : MessageID.ofByte messageID = some .pieceBlock) :
    FrameEffect sha1 w p env messageID payload
      ((handlePieceBlock sha1 w p env { dataBuffer := payload }).next p) := by
  by_cases hacc : ∃ it piece, Accepts w p payload it piece
  · obtain ⟨it, piece, hacc⟩ := hacc
    rw [handlePieceBlock_accepts hacc]
    split_ifs with hdone hlast
    · exact .cancelled hid it piece hacc hdone
    · have heff := handlePieceCompleted_effect sha1 (storeBlock w p payload it piece) p env
        (piece.put payload) (blockFields payload).1 (piece.put payload).pieceData
      simp only
      split
      · rename_i hrun
        exact .ioFailed hid it piece hacc (by simpa using hdone) hlast _ heff (by simpa using hrun)
      · rename_i hrun
        exact .completed hid it piece hacc (by simpa using hdone) hlast _ _ heff
          (by simpa using hrun) (select_effect_of_ne _ p)
    · exact .stored hid it piece hacc (by simpa using hdone) hlast
  · obtain ⟨e, href, heq⟩ := handlePieceBlock_refuses hid hacc
    rw [heq]
    exact .refused e href

theorem handleCancel_effect (hid : MessageID.ofByte messageID = some .cancel) :
    FrameEffect sha1 w p env messageID payload
    ((handleCancel w p { dataBuffer := payload }).next p) := by
  unfold handleCancel
  split_ifs with hsize
  · exact .refused _ (.invalidSize _ hid hsize)
  · have hsize : payload.length = 12 := not_not.mp hsize
    rw [indexBeginLength_eq hsize.ge, checkReads_of_not_overrun rfl]
    exact .ignored (.cancel hid hsize)

/-- The handling of a frame does one of the things `FrameEffect` lists. -/
theorem handleMessage_effect (sha1 : List Byte → List ℕ) (w : World) (p : PeerId) (env : Env)
    (messageID : Byte) (payload : List Byte) : FrameEffect sha1 w p env messageID payload
      (handleMessage sha1 w p env messageID payload) := by
  rw [handleMessage_eq, dispatch]
  cases hid : MessageID.ofByte messageID with
  | none => exact .ignored (.unknown hid)
  | some m =>
    cases m with
    | choke => exact expectEmpty_effect hid (fun _ h => h) (.choke hid)
    | unchoke => exact handleUnchoke_effect hid
    | interested => exact handleInterested_effect hid
    | notInterested => exact expectEmpty_effect hid (fun _ h => h) (.notInterested hid)
    | havePiece => exact handleHave_effect hid
    | bitfield => exact handleBitfield_effect hid
    | request => exact handleRequest_effect hid
    | pieceBlock => exact handlePieceBlock_effect hid
    | cancel => exact handleCancel_effect hid

end Peer

/-! ## The other steps -/

/-- What closing the connection of an active peer preserves holds after `disconnectPeers`. -/
theorem disconnectPeers_induction {I : World → Prop} {w : World} (h : I w)
    (hstep : ∀ p ∈ w.torrent.activePeers, ∀ v, I v → I (v.setConn p (v.peers p).conn.closed)) :
    I (Torrent.disconnectPeers w) := by
  have hfold : ∀ l : List PeerId, (∀ p ∈ l, p ∈ w.torrent.activePeers) → ∀ v, I v →
      I (l.foldl Peer.disconnect v) := by
    intro l
    induction l with
    | nil =>
      intro _ v hv
      exact hv
    | cons p l ih =>
      intro hl v hv
      refine ih (fun q hq => hl q (List.mem_cons_of_mem p hq)) _ ?_
      rw [disconnect_eq]
      exact hstep p (hl p List.mem_cons_self) v hv
  exact hfold _ (fun _ hp => hp) w h

/-- An entry that the steps other than frames can add to the record. -/
def Event.IsJoin : Event → Prop
  | .sent _ (.handshake _) => True
  | .sent _ (.bitfield _) => True
  | .error _ e => e = .handshakeMismatch ∨ e = .socket
  | _ => False

/-- What the steps other than frames do: the download is left alone. In the
    torrent they change the containers of peers only, of a peer its connection
    only, unless they create it. -/
structure Outside (w w' : World) : Prop where
  torrent : w'.torrent = { w.torrent with
    activePeers := w'.torrent.activePeers, blackListed := w'.torrent.blackListed }
  running : w'.running = w.running
  peerCount : w.peerCount ≤ w'.peerCount
  peers : ∀ q, ∃ c, w'.peers q = { w.peers q with conn := c } ∨
    w.peerCount ≤ q ∧ w'.peers q = { conn := c }
  trace : w.Adds w' Event.IsJoin

namespace Outside

theorem refl (w : World) : Outside w w :=
  ⟨rfl, rfl, le_rfl, fun q => ⟨(w.peers q).conn, .inl rfl⟩, .of_eq rfl⟩

theorem trans {u v w : World} (h : Outside u v) (h' : Outside v w) : Outside u w := by
  refine ⟨by rw [h'.torrent, h.torrent], h'.running.trans h.running,
    h.peerCount.trans h'.peerCount, fun q => ?_, h.trace.trans h'.trace⟩
  obtain ⟨c, hc⟩ := h.peers q
  obtain ⟨c', hc' | ⟨hq, hc'⟩⟩ := h'.peers q
  · refine ⟨c', ?_⟩
    rcases hc with hc | ⟨hq, hc⟩
    · exact .inl (by rw [hc', hc])
    · exact .inr ⟨hq, by rw [hc', hc]⟩
  · exact ⟨c', .inr ⟨h.peerCount.trans hq, hc'⟩⟩

theorem setConn (w : World) (p : PeerId) (c : Connection) : Outside w (w.setConn p c) := by
  refine ⟨rfl, rfl, le_rfl, fun q => ?_, .of_eq rfl⟩
  by_cases hq : q = p
  · subst hq; exact ⟨c, .inl (by simp [setConn_peers])⟩
  · exact ⟨(w.peers q).conn, .inl (by simp [setConn_peers, hq])⟩

theorem setTorrent (w : World) (active : List PeerId) (black : List ℕ) :
    Outside w (w.setTorrent { w.torrent with activePeers := active, blackListed := black }) :=
  ⟨rfl, rfl, le_rfl, fun q => ⟨(w.peers q).conn, .inl rfl⟩, .of_eq rfl⟩

theorem log (w : World) {es : List Event} (h : ∀ e ∈ es, e.IsJoin) : Outside w (w.log es) :=
  ⟨rfl, rfl, le_rfl, fun q => ⟨(w.peers q).conn, .inl rfl⟩, .log w h⟩

theorem newPeer (w : World) (c : Connection) : Outside w (newPeer w c) := by
  refine ⟨rfl, rfl, Nat.le_succ _, fun q => ?_, .of_eq rfl⟩
  by_cases hq : q = w.peerCount
  · exact ⟨c, .inr ⟨hq.ge, by simp [YTorrent.newPeer, hq]⟩⟩
  · exact ⟨(w.peers q).conn, .inl (by simp [YTorrent.newPeer, setPeer_peers, hq])⟩

theorem read (w : World) (p : PeerId) (rc : Pending) : Outside w (Connection.read w p rc) := by
  unfold Connection.read
  split
  · exact setConn w p _
  · exact refl w

theorem handleError (w : World) (p : PeerId) {e : PeerError} (he : (Event.error p e).IsJoin) :
    Outside w (Peer.handleError w p e) := by
  rw [handleError_eq]
  refine ((setTorrent w _ w.torrent.blackListed).trans (setConn _ p _)).trans (log _ ?_)
  simpa using he

theorem disconnectPeers (w : World) : Outside w (Torrent.disconnectPeers w) :=
  disconnectPeers_induction (I := Outside w) (refl w) fun q _ v hv => hv.trans (setConn v q _)

theorem handshaked (w : World) (p : PeerId) : Outside w (Torrent.handshaked w p) :=
  setTorrent w _ _

end Outside

/-! ## Steps -/

/-- The connect callback writes our handshake and waits for the answer. -/
theorem connected_eq (w : World) (p : PeerId) (ip : ℕ) : Peer.connected (takeRead w p) p ip =
    (w.setConn p { (w.peers p).conn with
      isOpen := true, remote := some ip, pending := .handshakeOut }).log
      [.sent p (.handshake w.torrent.handshake)] := by
  simp [Peer.connected, Connection.write, Connection.read, takeRead, World.setConn,
    World.setPeer, World.log]

/-- The accept callback creates a peer that waits for a handshake. -/
theorem accepted_eq (w : World) (remote : Option ℕ) : Torrent.accepted w remote =
    (newPeer w
      { isOpen := true, remote := remote, errorCB := true, pending := .handshakeIn }).setTorrent
        { w.torrent with blackListed := w.torrent.blackListed.insert (remote.getD 0) } := by
  simp [Torrent.accepted, newPeer, World.setConn, World.setPeer, World.setTorrent, Connection.read,
    Connection.getIP]

/-- An accepted incoming handshake: ours is written back, the peer becomes
    active and is sent the bitfield. -/
theorem authenticateHandshake_eq {w : World} {p : PeerId} {peerHandshake : List Byte}
    (h : handshakeRefused w.torrent.handshake peerHandshake = false) :
    Peer.authenticateHandshake w p peerHandshake =
      Connection.read ((Torrent.handshaked w p).log (sentEvents (w.peers p).conn p
        [.handshake w.torrent.handshake, .bitfield w.torrent.getRawBitfield])) p .message := by
  unfold Peer.authenticateHandshake
  rw [h, if_neg (by simp)]
  simp only [write_eq, Peer.sendBitfield, Torrent.handshaked, Torrent.getRawBitfield]
  congr 1
  have happ := sentEvents_append (w.peers p).conn p [.handshake w.torrent.handshake]
    [.bitfield ((Torrent.toBlockRange w.torrent.bitfield).map
      fun b => byte (Torrent.reverseBits b))]
  simpa [World.log, World.setTorrent] using happ

/-- A socket error on a connection that still has its callback drops the peer. -/
theorem connectionHandleError_of_errorCB {w : World} {p : PeerId}
    (h : (w.peers p).conn.errorCB = true) :
    Connection.handleError w p = Peer.handleError w p .socket := by
  have hclosed : ((Peer.handleError w p .socket).peers p).conn.isOpen = false := by
    rw [handleError_eq]
    simp
  unfold Connection.handleError
  simp only [if_pos h, hclosed, Bool.false_eq_true, if_false]

/-- Without its callback the connection is closed. -/
theorem connectionHandleError_of_no_errorCB {w : World} {p : PeerId}
    (h : (w.peers p).conn.errorCB = false) : Connection.handleError (takeRead w p) p =
      w.setConn p { (w.peers p).conn with isOpen := false, pending := .none } := by
  have hcb : ((takeRead w p).peers p).conn.errorCB = false := by simpa [takeRead] using h
  unfold Connection.handleError
  simp only [hcb, Bool.false_eq_true, if_false]
  by_cases hopen : (w.peers p).conn.isOpen = true
  · simp [Connection.close, takeRead, hopen, World.setConn, World.setPeer]
  · simp [takeRead, hopen]

/-- The addresses `connectToPeers` does not dial. -/
def Torrent.Skips (w : World) (ip : ℕ) : Prop :=
  ip = 0 ∨ ip ∈ w.torrent.blackListed ∨ ∃ p ∈ w.torrent.activePeers, (w.peers p).conn.getIP = ip

/-- An address is dialled unless it is skipped. -/
theorem dial_eq (w : World) (ip : ℕ) : (Torrent.Skips w ip ∧ Torrent.dial w ip = w) ∨
    ¬ Torrent.Skips w ip ∧ Torrent.dial w ip =
      newPeer (w.setTorrent { w.torrent with blackListed := w.torrent.blackListed.insert ip })
        { errorCB := true, pending := .connect ip } := by
  unfold Torrent.dial Torrent.Skips
  split_ifs with hip hact
  · refine .inl ⟨?_, rfl⟩
    simp only [Bool.or_eq_true, decide_eq_true_eq, List.contains_iff_mem] at hip
    tauto
  · refine .inl ⟨.inr (.inr ?_), rfl⟩
    simpa using hact
  · refine .inr ⟨?_, rfl⟩
    simp only [Bool.or_eq_true, decide_eq_true_eq, List.contains_iff_mem] at hip
    simp only [List.any_eq_true, beq_iff_eq] at hact
    rintro (h | h | h)
    · exact hip (.inl h)
    · exact hip (.inr h)
    · exact hact h

/-- What a step does, with the guards of the handlers and the state that results. -/
inductive StepEffect (sha1 : List Byte → List ℕ) (w : World) : Label → World → Prop
  | frame (p : PeerId) (messageID : Byte) (payload : List Byte) (env : Env) (hready : w.Ready p)
    (w' : World) (heff : FrameEffect sha1 (takeRead w p) p env messageID payload w') :
    StepEffect sha1 w (.frame p messageID payload env) w'
  | socketError (p : PeerId) (hp : p < w.peerCount) (hcb : (w.peers p).conn.errorCB = true) :
    StepEffect sha1 w (.socketError p) (Peer.handleError (takeRead w p) p .socket)
  | socketClosed (p : PeerId) (hp : p < w.peerCount) (hcb : (w.peers p).conn.errorCB = false) :
    StepEffect sha1 w (.socketError p)
      (w.setConn p { (w.peers p).conn with isOpen := false, pending := .none })
  | endpointLost (p : PeerId) (hp : p < w.peerCount) :
    StepEffect sha1 w (.endpointLost p) (loseEndpoint w p)
  | skipped (ip : ℕ) (hskip : Torrent.Skips w ip) : StepEffect sha1 w (.dial ip) w
  | dialled (ip : ℕ) (hskip : ¬ Torrent.Skips w ip) :
    StepEffect sha1 w (.dial ip)
      (newPeer (w.setTorrent { w.torrent with blackListed := w.torrent.blackListed.insert ip })
        { errorCB := true, pending := .connect ip })
  | connected (p : PeerId) (ip : ℕ) (hpend : (w.peers p).conn.pending = .connect ip) :
    StepEffect sha1 w (.connected p)
      ((w.setConn p { (w.peers p).conn with
        isOpen := true, remote := some ip, pending := .handshakeOut }).log
        [.sent p (.handshake w.torrent.handshake)])
  | accepted (remote : Option ℕ) :
    StepEffect sha1 w (.accepted remote)
      ((newPeer w
        { isOpen := true, remote := remote, errorCB := true, pending := .handshakeIn }).setTorrent
          { w.torrent with blackListed := w.torrent.blackListed.insert (remote.getD 0) })
  | refused (p : PeerId) (peerHandshake : List Byte) (hopen : (w.peers p).conn.isOpen = true)
    (hpend : (w.peers p).conn.pending = .handshakeOut ∨ (w.peers p).conn.pending = .handshakeIn)
    (href : handshakeRefused w.torrent.handshake peerHandshake = true) :
    StepEffect sha1 w (.handshake p peerHandshake)
      (Peer.handleError (takeRead w p) p .handshakeMismatch)
  | connectHandshake (p : PeerId) (peerHandshake : List Byte)
    (hopen : (w.peers p).conn.isOpen = true) (hpend : (w.peers p).conn.pending = .handshakeOut)
    (href : handshakeRefused w.torrent.handshake peerHandshake = false) :
    StepEffect sha1 w (.handshake p peerHandshake)
      (Connection.read (Torrent.handshaked (takeRead w p) p) p .message)
  | authenticateHandshake (p : PeerId) (peerHandshake : List Byte)
    (hopen : (w.peers p).conn.isOpen = true) (hpend : (w.peers p).conn.pending = .handshakeIn)
    (href : handshakeRefused w.torrent.handshake peerHandshake = false) :
    StepEffect sha1 w (.handshake p peerHandshake)
      (Connection.read ((Torrent.handshaked (takeRead w p) p).log
        (sentEvents ((takeRead w p).peers p).conn p
          [.handshake w.torrent.handshake, .bitfield w.torrent.getRawBitfield])) p .message)
  | disconnectPeers : StepEffect sha1 w .disconnectPeers (Torrent.disconnectPeers w)

/-- Every step does one of these things; no later proof unfolds `step`. -/
theorem step_effect {sha1 : List Byte → List ℕ} {w w' : World} {l : Label}
    (h : step sha1 w l = some w') : w.running = true ∧ StepEffect sha1 w l w' := by
  unfold step at h
  split at h
  · cases h
  rename_i hrun
  refine ⟨by simpa using hrun, ?_⟩
  cases l with
  | frame p messageID payload env =>
    simp only at h
    split_ifs at h with hready
    cases h
    exact .frame p messageID payload env hready _ (Peer.handleMessage_effect ..)
  | socketError p =>
    simp only at h
    split_ifs at h with hp
    cases h
    cases hcb : (w.peers p).conn.errorCB with
    | true =>
      rw [connectionHandleError_of_errorCB (by simpa [takeRead] using hcb)]
      exact .socketError p hp hcb
    | false =>
      rw [connectionHandleError_of_no_errorCB hcb]
      exact .socketClosed p hp hcb
  | endpointLost p =>
    simp only at h
    split_ifs at h with hp
    cases h
    exact .endpointLost p hp
  | dial ip =>
    cases h
    rcases dial_eq w ip with ⟨hskip, heq⟩ | ⟨hskip, heq⟩ <;> rw [heq]
    · exact .skipped ip hskip
    · exact .dialled ip hskip
  | connected p =>
    simp only at h
    split at h
    · rename_i ip hpend
      cases h
      rw [connected_eq]
      exact .connected p ip hpend
    · cases h
  | accepted remote =>
    cases h
    rw [accepted_eq]
    exact .accepted remote
  | handshake p peerHandshake =>
    simp only at h
    split_ifs at h with hready
    obtain ⟨hopen, -⟩ := (Bool.and_eq_true _ _).mp hready
    split at h
    · rename_i hpend
      cases h
      unfold Peer.connectHandshake
      split
      · rename_i href
        exact .refused p peerHandshake hopen (.inl hpend) href
      · rename_i href
        exact .connectHandshake p peerHandshake hopen hpend (Bool.eq_false_of_not_eq_true href)
    · rename_i hpend
      cases h
      cases href : handshakeRefused (takeRead w p).torrent.handshake peerHandshake with
      | true =>
        rw [Peer.authenticateHandshake, href, if_pos rfl]
        exact .refused p peerHandshake hopen (.inr hpend) href
      | false =>
        rw [authenticateHandshake_eq href]
        exact .authenticateHandshake p peerHandshake hopen hpend href
    · cases h
  | disconnectPeers =>
    cases h
    exact .disconnectPeers

/-- A frame step handles a message of a peer whose next message is awaited. -/
theorem step_frame {sha1 : List Byte → List ℕ} {w w' : World} {p : PeerId} {messageID : Byte}
    {payload : List Byte} {env : Env} (h : step sha1 w (.frame p messageID payload env) = some w') :
    w.running = true ∧ w.Ready p ∧
      FrameEffect sha1 (takeRead w p) p env messageID payload w' := by
  obtain ⟨hrun, heff⟩ := step_effect h
  cases heff with
  | frame _ _ _ _ hready _ heff => exact ⟨hrun, hready, heff⟩

theorem step_frame_eq {sha1 : List Byte → List ℕ} {w w' : World} {p : PeerId} {messageID : Byte}
    {payload : List Byte} {env : Env} (h : step sha1 w (.frame p messageID payload env) = some w') :
    Peer.handleMessage sha1 (takeRead w p) p env messageID payload = w' := by
  unfold step at h
  split at h
  · cases h
  · simp only at h
    split_ifs at h
    exact Option.some.inj h

/-- Every other step leaves the download alone. -/
theorem step_outside {sha1 : List Byte → List ℕ} {w w' : World} {l : Label}
    (h : step sha1 w l = some w')
    (hl : ∀ p messageID payload env, l ≠ .frame p messageID payload env) :
    w.running = true ∧ Outside w w' := by
  have htake : ∀ p, Outside w (takeRead w p) := fun p => .setConn w p _
  obtain ⟨hrun, heff⟩ := step_effect h
  refine ⟨hrun, ?_⟩
  cases heff with
  | frame p messageID payload env => exact absurd rfl (hl p messageID payload env)
  | socketError p => exact (htake p).trans (.handleError _ p (.inr rfl))
  | socketClosed p => exact .setConn w p _
  | endpointLost p => exact .setConn w p _
  | skipped => exact .refl w
  | dialled => exact (Outside.setTorrent w w.torrent.activePeers _).trans (.newPeer _ _)
  | connected p =>
    refine (Outside.setConn w p _).trans (.log _ fun v hv => ?_)
    rw [List.mem_singleton.mp hv]
    trivial
  | accepted => exact (Outside.newPeer w _).trans (.setTorrent _ w.torrent.activePeers _)
  | refused p => exact (htake p).trans (.handleError _ p (.inl rfl))
  | connectHandshake p => exact ((htake p).trans (.handshaked _ p)).trans (.read _ p _)
  | authenticateHandshake p =>
    refine (((htake p).trans (.handshaked _ p)).trans (.log _ fun v hv => ?_)).trans (.read _ p _)
    obtain ⟨-, m, hm, rfl⟩ := mem_sentEvents.mp hv
    rcases List.mem_pair.mp hm with rfl | rfl <;> trivial
  | disconnectPeers => exact .disconnectPeers w

/-- A step handles a frame or leaves the download alone. -/
theorem step_cases {sha1 : List Byte → List ℕ} {w w' : World} {l : Label}
    (h : step sha1 w l = some w') :
    (∃ p messageID payload env, l = .frame p messageID payload env ∧ w.Ready p ∧
      FrameEffect sha1 (takeRead w p) p env messageID payload w') ∨ Outside w w' := by
  by_cases hl : ∀ p messageID payload env, l ≠ .frame p messageID payload env
  · exact .inr (step_outside h hl).2
  · simp only [not_forall, not_not] at hl
    obtain ⟨p, messageID, payload, env, rfl⟩ := hl
    exact .inl ⟨p, messageID, payload, env, rfl, (step_frame h).2⟩

end YTorrent
