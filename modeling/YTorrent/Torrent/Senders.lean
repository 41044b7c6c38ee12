import YTorrent.Torrent.Layout

/-!
# Writing, dropping and requesting

Models of `Connection::write`, `read` and `close` (`src/net/connection.cpp`),
of the two ways a peer is dropped (`Peer::disconnect`, `Peer::handleError` with
`Torrent::removePeer`) and of the senders of `src/torrent/peer.cpp` lines
325–441. A function of a `Peer` or `Torrent` object is a function on `World`
that takes the `PeerId`s of the objects it touches.

The senders only write, so each is an update of the record of the run:
`sendAll_eq` for a sequence of writes on one connection, `sendPieceRequest_eq`
for the whole of `sendPieceRequest`.
-/

namespace YTorrent

open World

/-! ## `Connection` -/

/-- `Connection::write` (connection.cpp lines 105–119): nothing happens on a
    closed socket. -/
def Connection.write (w : World) (p : PeerId) (m : Message) : World :=
  if (w.peers p).conn.isOpen then w.log [.sent p m] else w

/-- `Connection::read` (lines 75–103): installs the next read unless the
    socket is closed. -/
def Connection.read (w : World) (p : PeerId) (rc : Pending) : World :=
  if (w.peers p).conn.isOpen then
    w.setConn p { (w.peers p).conn with pending := rc }
  else w

/-- `Connection::close` (lines 62–73): the pending read ends with
    `operation_aborted`, which `Connection::handleError` ignores. -/
def Connection.close (w : World) (p : PeerId) : World :=
  if (w.peers p).conn.isOpen then
    w.setConn p { (w.peers p).conn with isOpen := false, pending := .none }
  else w

/-! ## Dropping a peer -/

/-- `Peer::disconnect` (peer.cpp lines 33–37). -/
def Peer.disconnect (w : World) (p : PeerId) : World :=
  let w := Connection.close w p
  w.setConn p { (w.peers p).conn with errorCB := false }

/-- `Torrent::removePeer` (torrent.cpp lines 347–363): erases the first active
    peer whose socket reports the same address. -/
def Torrent.removePeer (w : World) (p : PeerId) : World :=
  w.setTorrent { w.torrent with
    activePeers := w.torrent.activePeers.eraseP fun current =>
      (w.peers p).conn.getIP == (w.peers current).conn.getIP }

/-- `Peer::handleError` (peer.cpp lines 317–323). -/
def Peer.handleError (w : World) (p : PeerId) (e : PeerError) : World :=
  Peer.disconnect (Torrent.removePeer (w.log [.error p e]) p) p

/-! ## The senders -/

namespace Peer

/-- `Peer::sendHave` (lines 325–336). -/
def sendHave (w : World) (p : PeerId) (index : ℕ) : World :=
  if (w.peers p).amChoking then w else Connection.write w p (.havePiece (u32 index))

/-- `Peer::sendBitfield` (lines 338–347). -/
def sendBitfield (w : World) (p : PeerId) (rBitfield : List Byte) : World :=
  Connection.write w p (.bitfield rBitfield)

/-- `Peer::sendPieceBlock` (lines 368–378). -/
def sendPieceBlock (w : World) (p : PeerId) (index begin : ℕ) (block : List Byte) : World :=
  Connection.write w p (.pieceBlock (u32 index) (u32 begin) block)

/-- `Peer::sendRequest` (lines 380–390). -/
def sendRequest (w : World) (p : PeerId) (index begin length : ℕ) : World :=
  Connection.write w p (.request (u32 index) (u32 begin) (u32 length))

/-- `Peer::sendInterested` (lines 392–398). -/
def sendInterested (w : World) (p : PeerId) : World :=
  let w := Connection.write w p .interested
  w.setPeer p { w.peers p with amInterested := true }

/-- `Peer::sendCancel` (lines 413–423). -/
def sendCancel (w : World) (p : PeerId) (index begin length : ℕ) : World :=
  Connection.write w p (.cancel (u32 index) (u32 begin) (u32 length))

/-- `Peer::sendCancelRequest` (lines 400–411). -/
def sendCancelRequest (w : World) (p : PeerId) (piece : Peer.Piece) : World :=
  (blockPairs (w.torrent.pieceSize piece.index)).foldl
    (fun w bl => sendCancel w p piece.index bl.1 bl.2) w

/-- `Peer::requestPiece` (lines 425–441). -/
def requestPiece (w : World) (p : PeerId) (pieceIndex : ℕ) : World :=
  if (w.peers p).peerChoking then handleError w p .remotelyChoked
  else (blockPairs (w.torrent.pieceSize pieceIndex)).foldl
    (fun w bl => sendRequest w p pieceIndex bl.1 bl.2) w

/-- The `Piece` that `sendPieceRequest` queues. -/
def Piece.new (index numBlocks : ℕ) : Peer.Piece where
  index := index
  haveBlocks := 0
  totalBlocks := numBlocks
  blocks := List.replicate numBlocks {}
  length_blocks := List.length_replicate

/-- `Peer::sendPieceRequest` (lines 349–366). -/
def sendPieceRequest (w : World) (p : PeerId) (index : ℕ) : World :=
  let w := sendInterested w p
  let pieceLength := u32 (w.torrent.pieceSize index)
  let w := w.setPeer p { w.peers p with
    pieceQueue := (w.peers p).pieceQueue ++ [Piece.new index (numBlocks pieceLength)] }
  if (w.peers p).peerChoking then w else requestPiece w p index

end Peer

/-! ## What a write does -/

/-- What a sequence of `Connection::write` calls on the connection `c` of `p`
    adds to the record. -/
def sentEvents (c : Connection) (p : PeerId) (ms : List Message) : List Event :=
  if c.isOpen then ms.map (.sent p) else []

theorem write_eq (w : World) (p : PeerId) (m : Message) :
    Connection.write w p m = w.log (sentEvents (w.peers p).conn p [m]) := by
  unfold Connection.write sentEvents
  split <;> simp

theorem mem_sentEvents {c : Connection} {p : PeerId} {ms : List Message} {e : Event} :
    e ∈ sentEvents c p ms ↔ c.isOpen = true ∧ ∃ m ∈ ms, e = .sent p m := by
  unfold sentEvents
  split_ifs with h
  · simp [h, eq_comm]
  · simp [h]

@[simp] theorem sentEvents_nil (c : Connection) (p : PeerId) : sentEvents c p [] = [] := by
  simp [sentEvents]

theorem messages_sentEvents (c : Connection) (p q : PeerId) (ms : List Message) :
    (sentEvents c p ms).filterMap (Event.message? q) =
      if p = q ∧ c.isOpen = true then ms else [] := by
  have hmap : (ms.map (Event.sent p)).filterMap (Event.message? q) = if p = q then ms else [] := by
    induction ms with
    | nil => simp
    | cons m ms ih =>
      rw [List.map_cons, List.filterMap_cons, ih]
      by_cases hpq : p = q <;> simp [Event.message?, hpq]
  unfold sentEvents
  by_cases hopen : c.isOpen = true
  · simp only [hopen, if_true, hmap, and_true]
  · simp [hopen]

theorem sentEvents_append (c : Connection) (p : PeerId) (ms ms' : List Message) :
    sentEvents c p ms ++ sentEvents c p ms' = sentEvents c p (ms ++ ms') := by
  unfold sentEvents
  split <;> simp

/-- A sequence of writes on one connection is one update of the record. -/
theorem sendAll_eq {β : Type*} (w : World) (p : PeerId) (f : β → Message) (l : List β) :
    l.foldl (fun w b => Connection.write w p (f b)) w =
      w.log (sentEvents (w.peers p).conn p (l.map f)) := by
  induction l generalizing w with
  | nil => simp
  | cons b l ih =>
    rw [List.foldl_cons, ih, write_eq, log_log, log_peers, sentEvents_append]
    rfl

/-- The REQUESTs of `requestPiece`. -/
def requests (t : Torrent) (index : ℕ) : List Message :=
  (blockPairs (t.pieceSize index)).map fun bl => .request (u32 index) (u32 bl.1) (u32 bl.2)

/-- The CANCELs of `sendCancelRequest`. -/
def cancels (t : Torrent) (index : ℕ) : List Message :=
  (blockPairs (t.pieceSize index)).map fun bl => .cancel (u32 index) (u32 bl.1) (u32 bl.2)

theorem sendCancelRequest_eq (w : World) (p : PeerId) (piece : Peer.Piece) :
    Peer.sendCancelRequest w p piece =
      w.log (sentEvents (w.peers p).conn p (cancels w.torrent piece.index)) :=
  sendAll_eq w p (fun bl : ℕ × ℕ => .cancel (u32 piece.index) (u32 bl.1) (u32 bl.2)) _

/-- While the peer is not choking us, `requestPiece` only writes. -/
theorem requestPiece_eq {w : World} {p : PeerId} (h : (w.peers p).peerChoking = false) (i : ℕ) :
    Peer.requestPiece w p i = w.log (sentEvents (w.peers p).conn p (requests w.torrent i)) := by
  rw [Peer.requestPiece, if_neg (by simp [h])]
  exact sendAll_eq w p (fun bl : ℕ × ℕ => .request (u32 i) (u32 bl.1) (u32 bl.2)) _

/-- The peer after `sendPieceRequest` has queued `index`. -/
def Peer.queuePiece (x : Peer) (t : Torrent) (index : ℕ) : Peer :=
  { x with
    amInterested := true
    pieceQueue := x.pieceQueue ++ [Piece.new index (numBlocks (u32 (t.pieceSize index)))] }

/-- The messages `sendPieceRequest` writes. -/
def pieceRequestMessages (x : Peer) (t : Torrent) (index : ℕ) : List Message :=
  .interested :: if x.peerChoking then [] else requests t index

/-- `sendPieceRequest` queues the piece, tells the peer that we are interested
    and, unless the peer is choking us, requests every block. -/
theorem sendPieceRequest_eq (w : World) (p : PeerId) (index : ℕ) :
    Peer.sendPieceRequest w p index =
      (w.setPeer p ((w.peers p).queuePiece w.torrent index)).log
        (sentEvents (w.peers p).conn p (pieceRequestMessages (w.peers p) w.torrent index)) := by
  unfold Peer.sendPieceRequest Peer.sendInterested pieceRequestMessages
  simp only [write_eq, log_peers, log_torrent, setPeer_torrent, setPeer_peers_self]
  by_cases hc : (w.peers p).peerChoking = true
  · simp [hc, setPeer, log, Peer.queuePiece]
  · have happ := sentEvents_append (w.peers p).conn p [.interested] (requests w.torrent index)
    rw [if_neg hc, requestPiece_eq (by simpa using hc)]
    simpa [hc, setPeer, log, Peer.queuePiece] using happ

/-! ## What dropping a peer does -/

/-- The connection after `Peer::disconnect`. -/
def Connection.closed (c : Connection) : Connection :=
  { c with isOpen := false, errorCB := false, pending := if c.isOpen then .none else c.pending }

@[simp] theorem Connection.closed_isOpen (c : Connection) : c.closed.isOpen = false := rfl

theorem disconnect_eq (w : World) (p : PeerId) :
    Peer.disconnect w p = w.setConn p (w.peers p).conn.closed := by
  by_cases h : (w.peers p).conn.isOpen = true
  · simp [Peer.disconnect, Connection.close, setConn, setPeer, Connection.closed, h]
  · have hc : Connection.close w p = w := if_neg h
    simp only [Peer.disconnect, hc, Connection.closed, if_neg h]
    simp [Bool.eq_false_of_not_eq_true h]

/-- The list of active peers after `removePeer`. -/
def activeWithout (w : World) (p : PeerId) : List PeerId :=
  w.torrent.activePeers.eraseP fun current =>
    (w.peers p).conn.getIP == (w.peers current).conn.getIP

theorem handleError_eq (w : World) (p : PeerId) (e : PeerError) :
    Peer.handleError w p e =
      ((w.setTorrent { w.torrent with activePeers := activeWithout w p }).setConn p
        (w.peers p).conn.closed).log [.error p e] := by
  simp [Peer.handleError, disconnect_eq, Torrent.removePeer, activeWithout, setConn, setPeer,
    setTorrent, log]

/-! ## Reads change only what is pending -/

section

variable (w : World) (p q : PeerId) (rc : Pending)

@[simp] theorem read_torrent : (Connection.read w p rc).torrent = w.torrent := by
  unfold Connection.read; split <;> rfl

@[simp] theorem read_running : (Connection.read w p rc).running = w.running := by
  unfold Connection.read; split <;> rfl

@[simp] theorem read_peerCount : (Connection.read w p rc).peerCount = w.peerCount := by
  unfold Connection.read; split <;> rfl

@[simp] theorem read_trace : (Connection.read w p rc).trace = w.trace := by
  unfold Connection.read; split <;> rfl

@[simp] theorem messages_read : (Connection.read w p rc).messages q = w.messages q := by
  unfold Connection.read; split <;> rfl

theorem read_peers_of_ne {p q : PeerId} (h : q ≠ p) :
    (Connection.read w p rc).peers q = w.peers q := by
  unfold Connection.read
  split
  · exact setConn_peers_of_ne w _ h
  · rfl

theorem read_conn : ((Connection.read w p rc).peers p).conn =
    if (w.peers p).conn.isOpen then { (w.peers p).conn with pending := rc }
    else (w.peers p).conn := by
  unfold Connection.read
  split <;> simp

@[simp] theorem read_hasPieceIndexes :
    ((Connection.read w p rc).peers q).hasPieceIndexes = (w.peers q).hasPieceIndexes := by
  unfold Connection.read; split <;> simp

@[simp] theorem read_hasPiece (i : ℕ) :
    ((Connection.read w p rc).peers q).hasPiece i = (w.peers q).hasPiece i := by
  simp [Peer.hasPiece]

@[simp] theorem read_pieceQueue :
    ((Connection.read w p rc).peers q).pieceQueue = (w.peers q).pieceQueue := by
  unfold Connection.read; split <;> simp

@[simp] theorem read_amChoking :
    ((Connection.read w p rc).peers q).amChoking = (w.peers q).amChoking := by
  unfold Connection.read; split <;> simp

@[simp] theorem read_peerChoking :
    ((Connection.read w p rc).peers q).peerChoking = (w.peers q).peerChoking := by
  unfold Connection.read; split <;> simp

@[simp] theorem read_peerInterested :
    ((Connection.read w p rc).peers q).peerInterested = (w.peers q).peerInterested := by
  unfold Connection.read; split <;> simp

@[simp] theorem read_isOpen :
    ((Connection.read w p rc).peers q).conn.isOpen = (w.peers q).conn.isOpen := by
  unfold Connection.read
  split
  · rw [setConn_peers]; split <;> simp_all
  · rfl

@[simp] theorem read_getIP :
    ((Connection.read w p rc).peers q).conn.getIP = (w.peers q).conn.getIP := by
  unfold Connection.read
  split
  · rw [setConn_peers]; split <;> simp_all [Connection.getIP]
  · rfl

end

end YTorrent
