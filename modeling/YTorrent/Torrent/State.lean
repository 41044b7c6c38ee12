import Mathlib.Logic.Function.Basic
import YTorrent.Net.Message

/-!
# The state of the client

The data model of `Torrent` (`src/torrent/torrent.hpp`), `Peer`
(`src/torrent/peer.hpp`) and `Connection` (`src/net/connection.hpp`), and the
state `World` of a running client: the torrent, every `Peer` object created so
far, and the record of what the run has done.

Conventions:
* A `Peer` object is named by its `PeerId`, the number of objects created
  before it. `activePeers` is a list of such names, as the source's is a vector
  of `shared_ptr`.
* `std::vector` is `List`. `size_t` counters and offsets are `ℕ`; a conversion
  or sum that can leave its type is written with `u32` or `u64`.
* `World.trace` is not part of the program's memory. It records, in order, the
  buffers written, the errors raised, the pieces handed on and every container
  access out of range; no function reads it.
-/

namespace YTorrent

abbrev PeerId := ℕ

/-- `MAX_BLOCK_REQUEST_SIZE` (torrent.cpp line 9). -/
def maxBlockRequestSize : ℕ := 16384

/-- `std::numeric_limits<int32_t>::max()`. -/
def int32Max : ℤ := 2 ^ 31 - 1

/-! ## `Peer` -/

/-- `Peer::Block`; `data = none` is the null pointer. -/
structure Block where
  size : ℕ := 0
  data : Option (List Byte) := none
  deriving DecidableEq, Repr

/-- The bytes `data[0] … data[size - 1]`. -/
def Block.bytes (b : Block) : List Byte := (b.data.getD []).take b.size

/-- `Peer::Piece`. The length of the array `blocks` is `totalBlocks`. -/
structure Peer.Piece where
  index : ℕ
  haveBlocks : ℕ
  totalBlocks : ℕ
  blocks : List Block
  length_blocks : blocks.length = totalBlocks
  deriving DecidableEq, Repr

/-- What the read pending on a connection waits for: nothing is pending, the
    connection is still being established (to the address given), the 68 bytes
    of a handshake on a connection we opened (`Peer::connect`) or accepted
    (`Peer::authenticate`), or the next message (`Peer::handle`). -/
inductive Pending
  | none
  | connect (ip : ℕ)
  | handshakeOut
  | handshakeIn
  | message
  deriving DecidableEq, Repr

/-- `Connection`: whether the socket is open, the address `remote_endpoint`
    reports (`none` when the call fails), whether `errorCB` is set, and the
    pending operation. -/
structure Connection where
  isOpen : Bool := false
  remote : Option ℕ := none
  errorCB : Bool := false
  pending : Pending := .none
  deriving DecidableEq, Repr

/-- `Connection::getIP` (connection.cpp lines 138–152). -/
def Connection.getIP (c : Connection) : ℕ := if c.isOpen then c.remote.getD 0 else 0

/-- `Peer`. The four bits of `state` are separate fields. -/
structure Peer where
  hasPieceIndexes : List ℕ := []
  pieceQueue : List Peer.Piece := []
  amChoking : Bool := true
  amInterested : Bool := false
  peerChoking : Bool := true
  peerInterested : Bool := false
  conn : Connection := {}
  deriving DecidableEq, Repr

/-- `Peer::hasPiece` (peer.hpp line 86). -/
def Peer.hasPiece (x : Peer) (index : ℕ) : Bool := x.hasPieceIndexes.contains index

/-! ## `Torrent` -/

/-- `Torrent::Piece`. -/
structure Torrent.Piece where
  finished : Bool := false
  priority : ℤ := 0
  hash : List Byte
  deriving DecidableEq, Repr

/-- `Torrent`. `fp` tells whether `file.fp` is not null and `file` is what the
    stream reads back: the contents of the file it writes together with what the
    stream still buffers, which is written out when it is flushed. An error of
    that later write is left out. `file.begin` is 0 in every `File` the code
    makes. -/
structure Torrent where
  pieces : List Torrent.Piece
  bitfield : List Bool
  completedPieces : ℕ := 0
  uploadedBytes : ℕ := 0
  downloadedBytes : ℕ := 0
  wastedBytes : ℕ := 0
  pieceHashMisses : ℕ := 0
  pieceLength : ℕ
  totalSize : ℕ
  fp : Bool := true
  file : List Byte
  activePeers : List PeerId := []
  blackListed : List ℕ := []
  handshake : List Byte
  deriving DecidableEq, Repr

/-- `Torrent::getTotalPieces`. -/
def Torrent.getTotalPieces (t : Torrent) : ℕ := t.pieces.length

/-- `Torrent::isFullyDownloaded`. -/
def Torrent.isFullyDownloaded (t : Torrent) : Bool := t.completedPieces == t.pieces.length

/-- `pieces[i].finished` for an index in range, `false` beyond. -/
def Torrent.isFinished (t : Torrent) (i : ℕ) : Bool := (t.pieces[i]?.map (·.finished)).getD false

/-! ## The record of a run -/

/-- The calls of `Peer::handleError`, by the message they pass. -/
inductive PeerError
  /-- `"info hash/protocol type mismatch"` -/
  | handshakeMismatch
  /-- `"invalid choke-message size"` and the like for the other messages -/
  | invalidSize (messageID : MessageID)
  /-- `"peer requested piece block without showing interest"` -/
  | requestWithoutInterest
  /-- `"peer requested piece while choked"` -/
  | requestWhileChoked
  /-- `"peer requested piece of size … which is beyond our max request size"` -/
  | requestTooBig (length : ℕ)
  /-- `"received too big piece block of size …"` -/
  | tooBigBlock (size : ℕ)
  /-- `"received piece … which wasn't asked for"` -/
  | notAskedFor (index : ℕ)
  /-- `"received too big block index"` -/
  | tooBigBlockIndex
  /-- `"Attempt to request piece from a peer that is remotely choked"` -/
  | remotelyChoked
  /-- the message of a socket error, from `Connection::handleError` -/
  | socket
  deriving DecidableEq, Repr

/-- How a call of `handlePieceCompleted` ended: hash mismatch, an exception
    from a failed `fseek` or `fwrite`, or the piece written and finished. -/
inductive Completion
  | mismatch
  | ioFailed
  | stored
  deriving DecidableEq, Repr

/-- The containers of the source that are indexed by number. -/
inductive Container
  | payload
  | pieces
  | bitfield
  | blocks
  deriving DecidableEq, Repr

/-- An entry of the record of a run. -/
inductive Event
  /-- a buffer was passed to `async_write` on the connection of `p` -/
  | sent (p : PeerId) (m : Message)
  /-- `Peer::handleError` was called for `p` -/
  | error (p : PeerId) (e : PeerError)
  /-- `handlePieceCompleted` was called for the queue entry `piece` of `p` -/
  | pieceCompleted (p : PeerId) (piece : Peer.Piece) (pieceData : List Byte) (r : Completion)
  /-- a container of the given size was indexed out of range -/
  | fault (c : Container) (index size : ℕ)
  deriving DecidableEq, Repr

/-- The message the entry writes to `p`, if any. -/
def Event.message? (p : PeerId) : Event → Option Message
  | .sent q m => if q = p then some m else none
  | _ => none

theorem sent_of_message? {p : PeerId} {m : Message} {v : Event} (h : v.message? p = some m) :
    v = .sent p m := by
  cases v with
  | sent q m' =>
    simp only [Event.message?] at h
    split at h
    · rename_i hq
      rw [hq, Option.some.inj h]
    · cases h
  | error | pieceCompleted | fault => cases h

/-- The state of the client. `running` is false once an exception has left a
    handler, which ends the process. -/
structure World where
  torrent : Torrent
  peers : PeerId → Peer := fun _ => {}
  peerCount : ℕ := 0
  running : Bool := true
  trace : List Event := []

namespace World

/-- Append to the record of the run. -/
def log (w : World) (es : List Event) : World := { w with trace := w.trace ++ es }

/-- Replace the `Peer` object `p`. -/
def setPeer (w : World) (p : PeerId) (x : Peer) : World :=
  { w with peers := Function.update w.peers p x }

/-- Replace the connection of the `Peer` object `p`. -/
def setConn (w : World) (p : PeerId) (c : Connection) : World :=
  w.setPeer p { w.peers p with conn := c }

/-- Replace the torrent. -/
def setTorrent (w : World) (t : Torrent) : World := { w with torrent := t }

variable (w : World) (es es' : List Event) (p q : PeerId) (x : Peer) (c : Connection) (t : Torrent)

@[simp] theorem log_torrent : (w.log es).torrent = w.torrent := rfl
@[simp] theorem log_peers : (w.log es).peers = w.peers := rfl
@[simp] theorem log_peerCount : (w.log es).peerCount = w.peerCount := rfl
@[simp] theorem log_running : (w.log es).running = w.running := rfl
@[simp] theorem log_trace : (w.log es).trace = w.trace ++ es := rfl
@[simp] theorem log_nil : w.log [] = w := by simp [log]
@[simp] theorem log_log : (w.log es).log es' = w.log (es ++ es') := by simp [log]

@[simp] theorem setPeer_torrent : (w.setPeer p x).torrent = w.torrent := rfl
@[simp] theorem setPeer_peerCount : (w.setPeer p x).peerCount = w.peerCount := rfl
@[simp] theorem setPeer_running : (w.setPeer p x).running = w.running := rfl
@[simp] theorem setPeer_trace : (w.setPeer p x).trace = w.trace := rfl

@[simp] theorem setPeer_peers_self : (w.setPeer p x).peers p = x := by simp [setPeer]

theorem setPeer_peers_of_ne {p q : PeerId} (h : q ≠ p) : (w.setPeer p x).peers q = w.peers q := by
  simp [setPeer, h]

theorem setPeer_peers : (w.setPeer p x).peers q = if q = p then x else w.peers q :=
  Function.update_apply w.peers p x q

@[simp] theorem setConn_torrent : (w.setConn p c).torrent = w.torrent := rfl
@[simp] theorem setConn_peerCount : (w.setConn p c).peerCount = w.peerCount := rfl
@[simp] theorem setConn_running : (w.setConn p c).running = w.running := rfl
@[simp] theorem setConn_trace : (w.setConn p c).trace = w.trace := rfl

theorem setConn_peers :
    (w.setConn p c).peers q = if q = p then { w.peers p with conn := c } else w.peers q :=
  setPeer_peers w p q _

@[simp] theorem setConn_conn_self : ((w.setConn p c).peers p).conn = c := by simp [setConn]

theorem setConn_peers_of_ne {p q : PeerId} (h : q ≠ p) : (w.setConn p c).peers q = w.peers q :=
  setPeer_peers_of_ne w _ h

/-- Replacing a connection changes no other part of a peer. -/
@[simp] theorem setConn_hasPieceIndexes :
    ((w.setConn p c).peers q).hasPieceIndexes = (w.peers q).hasPieceIndexes := by
  rw [setConn_peers]; split <;> simp_all

@[simp] theorem setConn_pieceQueue :
    ((w.setConn p c).peers q).pieceQueue = (w.peers q).pieceQueue := by
  rw [setConn_peers]; split <;> simp_all

@[simp] theorem setConn_amChoking :
    ((w.setConn p c).peers q).amChoking = (w.peers q).amChoking := by
  rw [setConn_peers]; split <;> simp_all

@[simp] theorem setConn_peerChoking :
    ((w.setConn p c).peers q).peerChoking = (w.peers q).peerChoking := by
  rw [setConn_peers]; split <;> simp_all

@[simp] theorem setConn_peerInterested :
    ((w.setConn p c).peers q).peerInterested = (w.peers q).peerInterested := by
  rw [setConn_peers]; split <;> simp_all

@[simp] theorem setConn_hasPiece (i : ℕ) :
    ((w.setConn p c).peers q).hasPiece i = (w.peers q).hasPiece i := by
  simp [Peer.hasPiece]

@[simp] theorem setTorrent_torrent : (w.setTorrent t).torrent = t := rfl
@[simp] theorem setTorrent_peers : (w.setTorrent t).peers = w.peers := rfl
@[simp] theorem setTorrent_peerCount : (w.setTorrent t).peerCount = w.peerCount := rfl
@[simp] theorem setTorrent_running : (w.setTorrent t).running = w.running := rfl
@[simp] theorem setTorrent_trace : (w.setTorrent t).trace = w.trace := rfl

/-- The messages written to `q`, in order. -/
def messages (w : World) (q : PeerId) : List Message := w.trace.filterMap (Event.message? q)

@[simp] theorem messages_log :
    (w.log es).messages q = w.messages q ++ es.filterMap (Event.message? q) :=
  List.filterMap_append

@[simp] theorem messages_setPeer : (w.setPeer p x).messages q = w.messages q := rfl
@[simp] theorem messages_setConn : (w.setConn p c).messages q = w.messages q := rfl
@[simp] theorem messages_setTorrent : (w.setTorrent t).messages q = w.messages q := rfl

/-- What was added to the record between `w` and `w'`. -/
def newEvents (w w' : World) : List Event := w'.trace.drop w.trace.length

/-- Only entries with `P` were added to the record between `w` and `w'`. -/
def Adds (w w' : World) (P : Event → Prop) : Prop :=
  ∃ es, w'.trace = w.trace ++ es ∧ ∀ v ∈ es, P v

section

variable {u w w' : World} {P Q : Event → Prop}

theorem newEvents_of_trace {es : List Event} (h : w'.trace = w.trace ++ es) :
    w.newEvents w' = es := by
  rw [newEvents, h, List.drop_left]

theorem Adds.of_eq (h : w'.trace = w.trace) : w.Adds w' P := ⟨[], by simp [h], by simp⟩

theorem Adds.log (w : World) {es : List Event} (h : ∀ v ∈ es, P v) : w.Adds (w.log es) P :=
  ⟨es, rfl, h⟩

theorem Adds.trans (h : u.Adds w P) (h' : w.Adds w' P) : u.Adds w' P := by
  obtain ⟨es, hes, hp⟩ := h
  obtain ⟨es', hes', hp'⟩ := h'
  refine ⟨es ++ es', by rw [hes', hes, List.append_assoc], fun v hv => ?_⟩
  exact (List.mem_append.mp hv).elim (hp v) (hp' v)

theorem Adds.mono (h : w.Adds w' P) (hpq : ∀ v, P v → Q v) : w.Adds w' Q := by
  obtain ⟨es, hes, hp⟩ := h
  exact ⟨es, hes, fun v hv => hpq v (hp v hv)⟩

theorem Adds.mem_newEvents (h : w.Adds w' P) {v : Event} (hv : v ∈ w.newEvents w') : P v := by
  obtain ⟨es, hes, hp⟩ := h
  rw [newEvents_of_trace hes] at hv
  exact hp v hv

theorem Adds.messages (h : w.Adds w' P) (q : PeerId) : ∃ ms,
    w'.messages q = w.messages q ++ ms ∧ ∀ m ∈ ms, P (.sent q m) := by
  obtain ⟨es, hes, hp⟩ := h
  refine ⟨es.filterMap (Event.message? q), by rw [World.messages, hes, List.filterMap_append]; rfl,
    fun m hm => ?_⟩
  obtain ⟨v, hv, hm⟩ := List.mem_filterMap.mp hm
  cases v with
  | sent p m' =>
    simp only [Event.message?] at hm
    split at hm
    · rename_i hpq
      obtain rfl := Option.some.inj hm
      exact hpq ▸ hp _ hv
    · cases hm
  | error | pieceCompleted | fault => cases hm

theorem Adds.mem (h : w.Adds w' P) {v : Event} (hv : v ∈ w'.trace) : v ∈ w.trace ∨ P v := by
  obtain ⟨es, hes, hp⟩ := h
  rw [hes] at hv
  exact (List.mem_append.mp hv).imp_right (hp v)

end

end World

end YTorrent
