import YTorrent.Net.Receiver
import YTorrent.Torrent.Wire

/-!
# The reads of a peer

The callbacks that `Peer::connect`, `Peer::authenticate` and `Peer::handle`
(`src/torrent/peer.cpp`) pass to `Connection::read`, on the receiving half of the connection
of one peer, while the rest of the client goes on.

* `dispatch_conn`: the `switch` of `handleMessage` leaves the connection alone or closes it.
* `callBack_effect`: a callback issues one read, or the connection is closed.
* `Reception.Inv.step`: what happens on the connection is a run of the `Receiver`.
* `Reception.Inv.step_world`: on an open connection it is a run of the client.
* `Reception.reads_exact`: no byte is lost or repeated, and on an open connection one read is
  pending.
-/

namespace YTorrent

open World

namespace Peer

/-! ## The callbacks -/

/-- What `readCB` holds: the callbacks of `connect` (peer.cpp lines 47–59) and
    `authenticate` (lines 67–85), `Peer::handle`, and the callback of its second read. -/
inductive ReadCallback
  | connectHandshake
  | authenticateHandshake
  | handle
  | handleData
  deriving DecidableEq, Repr

/-- The client and the receiving half of the connection of a peer. -/
structure Reception (B : Type*) where
  world : World
  receiver : Receiver B ReadCallback

variable {B : Type*} (sb : Streambuf B Byte)

namespace Reception

/-- The client goes on to `w`, in which the connection of `p` may be closed. -/
def enter (s : Reception B) (p : PeerId) (w : World) : Reception B where
  world := w
  receiver := if (w.peers p).conn.isOpen then s.receiver else s.receiver.close

/-- `conn->read`. -/
def read (s : Reception B) (rc : ReadCallback) (bytes : ℕ) : Reception B :=
  { s with receiver := s.receiver.read sb rc bytes }

/-- `Peer::handle` (lines 88–106). The size is 4, since the callback is called with as
    many bytes as it has asked for. -/
def handle (s : Reception B) (data : List Byte) : Reception B :=
  if readAsBE32 data = 0 then s.read sb .handle 4 else s.read sb .handleData (readAsBE32 data)

/-- The callback of the second read of `handle` (lines 100–104), with `handleMessage`. -/
def handleData (sha1 : List Byte → List ℕ) (env : Env) (s : Reception B) (p : PeerId)
    (data : List Byte) : Reception B :=
  match dispatch sha1 (takeRead s.world p) p env (data.headD 0) { dataBuffer := data.tail } with
  | .ret w => s.enter p w
  | .brk w => (s.enter p (Connection.read w p .message)).read sb .handle 4

/-- A callback for the bytes `data`. -/
def callBack (sha1 : List Byte → List ℕ) (env : Env) (s : Reception B) (p : PeerId)
    (data : List Byte) : ReadCallback → Reception B
  | .connectHandshake =>
    let s' := s.enter p (Peer.connectHandshake (takeRead s.world p) p data)
    if handshakeRefused s.world.torrent.handshake data then s' else s'.read sb .handle 4
  | .authenticateHandshake =>
    let s' := s.enter p (Peer.authenticateHandshake (takeRead s.world p) p data)
    if handshakeRefused s.world.torrent.handshake data then s' else s'.read sb .handle 4
  | .handle => s.handle sb data
  | .handleData => s.handleData sb sha1 env p data

/-- What happens next: bytes arrive on the connection, the pending read ends without error,
    it ends with one, or something else happens to the client. -/
inductive Label
  | arrive (bytes : List Byte)
  | complete (env : Env)
  | fail (aborted : Bool)
  | other (l : YTorrent.Label)
  deriving DecidableEq, Repr

/-- The steps of the client that stand for the end of a read or of the connecting of `p`. -/
def reads (p : PeerId) : YTorrent.Label → Bool
  | .frame q _ _ _ => q == p
  | .connected q => q == p
  | .handshake q _ => q == p
  | _ => false

def step (sha1 : List Byte → List ℕ) (p : PeerId) (s : Reception B) : Label → Option (Reception B)
  | .arrive bytes =>
    (s.receiver.step sb (.arrive bytes)).map fun r => { s with receiver := r }
  | .complete env =>
    if !s.world.running then none
    else
      (s.receiver.step sb .complete).bind fun r => r.handler.bind fun a => r.readCB.map fun rc =>
        let s' := { s with receiver := r }.callBack sb sha1 env p (r.data sb a.readSize) rc
        { s' with receiver := s'.receiver.consume sb a }
  | .fail aborted =>
    if !s.world.running then none
    else
      (s.receiver.step sb (.fail aborted)).map fun r =>
        { world := if aborted then s.world else Connection.handleError (takeRead s.world p) p
          receiver := r }
  | .other l =>
    if reads p l then none else (YTorrent.step sha1 s.world l).map (s.enter p)

/-- The first read has been issued: by the callback of `Peer::connect` or by
    `Peer::authenticate`. -/
inductive Starts (sha1 : List Byte → List ℕ) (p : PeerId) (w : World) : Reception B → Prop
  | connected (w' : World) (h : YTorrent.step sha1 w (.connected p) = some w') :
    Starts sha1 p w { world := w', receiver := (Receiver.start sb).read sb .connectHandshake 68 }
  | accepted (remote : Option ℕ) (w' : World) (hp : p = w.peerCount)
    (h : YTorrent.step sha1 w (.accepted remote) = some w') :
    Starts sha1 p w
      { world := w', receiver := (Receiver.start sb).read sb .authenticateHandshake 68 }

end Reception

/-! ## The switch issues no read -/

/-- The client at the end of a case of the `switch`. -/
def Flow.world : Flow → World
  | .ret w => w
  | .brk w => w

variable {sha1 : List Byte → List ℕ} {w w' : World} {p : PeerId} {env : Env} {messageID : Byte}
  {payload : List Byte}

/-- The connection of `p` is the one it has in `w`, or it has been closed. -/
def LeavesConn (p : PeerId) (w w' : World) : Prop :=
  (w'.peers p).conn = (w.peers p).conn ∨ (w'.peers p).conn = (w.peers p).conn.closed

theorem leavesConn_handleError {u : World} (hu : u.peers = w.peers) (e : PeerError) :
    LeavesConn p w (handleError u p e) := by
  rw [handleError_eq, hu]
  exact .inr (setConn_conn_self ..)

theorem checkReads_peers (w : World) (inMsg : IncomingMessage) :
    (checkReads w inMsg).peers = w.peers := by
  unfold checkReads
  split <;> rfl

theorem expectEmpty_conn {m : MessageID} {inMsg : IncomingMessage} {rest : World}
    (h : LeavesConn p w rest) : LeavesConn p w (expectEmpty m w p inMsg rest).world := by
  unfold expectEmpty
  split
  · exact leavesConn_handleError rfl _
  · exact h

theorem handleHave_conn (inMsg : IncomingMessage) :
    LeavesConn p w (handleHave w p inMsg).world := by
  unfold handleHave
  split
  · exact leavesConn_handleError rfl _
  · left
    simp only
    split <;> simp [Flow.world, checkReads_peers]

theorem handleBitfield_conn (inMsg : IncomingMessage) :
    LeavesConn p w (handleBitfield w p inMsg).world := by
  unfold handleBitfield
  split
  · exact leavesConn_handleError rfl _
  · left
    show ((if _ then _ else _ : World).peers p).conn = _
    rw [(select_effect _ p).conn]
    simp

theorem handleRequest_conn (inMsg : IncomingMessage) :
    LeavesConn p w (handleRequest w p env inMsg).world := by
  unfold handleRequest
  split_ifs with hsize hint hchoke
  · exact leavesConn_handleError rfl _
  · exact leavesConn_handleError rfl _
  · exact leavesConn_handleError rfl _
  obtain ⟨⟨index, begin, length⟩, inMsg⟩ := inMsg.indexBeginLength
  have hpeers : ∀ es, ((checkReads w inMsg).log es).peers = w.peers := fun _ => checkReads_peers w inMsg
  simp only [pieceDone_eq]
  split_ifs with hlen hdone
  · exact leavesConn_handleError (checkReads_peers w inMsg) _
  · exact .inl (by rw [Flow.world, hpeers])
  · generalize hu : (checkReads w inMsg).log _ = u
    have hu : u.peers = w.peers := hu ▸ hpeers _
    show LeavesConn p w (Torrent.handleBlockRequest u p env index begin length)
    unfold LeavesConn
    rw [← hu]
    have hserve := handleBlockRequest_effect u p env index begin length
    generalize Torrent.handleBlockRequest u p env index begin length = u' at hserve
    cases hserve with
    | refused => exact .inr (setConn_conn_self ..)
    | silent fp => exact .inl rfl
    | sent block => exact .inl rfl

theorem handlePieceBlock_conn (hid : MessageID.ofByte messageID = some .pieceBlock) :
    LeavesConn p w (handlePieceBlock sha1 w p env { dataBuffer := payload }).world := by
  by_cases hacc : ∃ it piece, Accepts w p payload it piece
  · obtain ⟨it, piece, hacc⟩ := hacc
    left
    rw [handlePieceBlock_accepts hacc]
    split_ifs with hdone hlast
    · simp [Flow.world, erasePiece]
    · have hcomp := handlePieceCompleted_effect sha1 (storeBlock w p payload it piece) p env
        (piece.put payload) (blockFields payload).1 (piece.put payload).pieceData
      generalize Torrent.handlePieceCompleted sha1 (storeBlock w p payload it piece) p env
        (piece.put payload) (blockFields payload).1 (piece.put payload).pieceData = v at hcomp
      have hconn : (v.peers p).conn = (w.peers p).conn := by
        rw [hcomp.peers]
        simp [storeBlock]
      simp only
      split
      · exact hconn
      · show ((if _ then _ else _ : World).peers p).conn = _
        rw [(select_effect_of_ne _ p).conn, ← hconn]
        simp [erasePiece]
    · simp [Flow.world, storeBlock]
  · obtain ⟨e, -, heq⟩ := handlePieceBlock_refuses hid hacc
    rw [heq]
    exact leavesConn_handleError rfl e

theorem handleCancel_conn (inMsg : IncomingMessage) :
    LeavesConn p w (handleCancel w p inMsg).world := by
  unfold handleCancel
  split
  · exact leavesConn_handleError rfl _
  · left
    simp [Flow.world, checkReads_peers]

theorem dispatch_conn : LeavesConn p w
    (dispatch sha1 w p env messageID { dataBuffer := payload }).world := by
  unfold dispatch
  cases hid : MessageID.ofByte messageID with
  | none => exact .inl rfl
  | some m =>
    cases m with
    | choke | notInterested => exact expectEmpty_conn (.inl (by simp))
    | unchoke =>
      refine expectEmpty_conn (.inl ?_)
      rw [foldl_requestPiece _ (by simp)]
      simp
    | interested =>
      refine expectEmpty_conn (.inl ?_)
      split <;> simp [write_eq]
    | havePiece => exact handleHave_conn _
    | bitfield => exact handleBitfield_conn _
    | request => exact handleRequest_conn _
    | pieceBlock => exact handlePieceBlock_conn hid
    | cancel => exact handleCancel_conn _

/-- A case of the `switch` that returns early has closed the connection or ended the process. -/
theorem dispatch_ret (hpend : (w.peers p).conn.pending ≠ .message)
    (h : dispatch sha1 w p env messageID { dataBuffer := payload } = .ret w')
    (hopen : (w'.peers p).conn.isOpen = true) : w'.running = false := by
  by_contra hrun
  have heff := handleMessage_effect sha1 w p env messageID payload
  have hconn : LeavesConn p w (dispatch sha1 w p env messageID { dataBuffer := payload }).world :=
    dispatch_conn
  rw [handleMessage_eq, h, Flow.next_ret] at heff
  rw [h] at hconn
  have hmessage := heff.pending hopen (Bool.eq_true_of_not_eq_false hrun)
  rcases hconn with hsame | hclosed
  · exact hpend (hsame ▸ hmessage)
  · rw [show (w'.peers p).conn = _ from hclosed] at hopen
    exact absurd hopen Bool.false_ne_true

/-! ## What else happens to the connection -/

/-- The connection of `p` waits for the same, or it has been closed. -/
def KeepsRead (p : PeerId) (w w' : World) : Prop :=
  (w'.peers p).conn.isOpen = true →
    (w.peers p).conn.isOpen = true ∧ (w'.peers p).conn.pending = (w.peers p).conn.pending

theorem KeepsRead.of_peers (h : w'.peers p = w.peers p) : KeepsRead p w w' := by
  intro hopen
  rw [h] at hopen ⊢
  exact ⟨hopen, rfl⟩

theorem KeepsRead.trans {u : World} (h : KeepsRead p u w) (h' : KeepsRead p w w') :
    KeepsRead p u w' := by
  intro hopen
  obtain ⟨hw, hpend⟩ := h' hopen
  obtain ⟨hu, hpend'⟩ := h hw
  exact ⟨hu, hpend.trans hpend'⟩

/-- The connection of `q` is closed. -/
theorem KeepsRead.setConn {q : PeerId} {c : Connection} (hc : c.isOpen = false) :
    KeepsRead p w (w.setConn q c) := by
  by_cases hp : p = q
  · subst hp
    intro hopen
    rw [setConn_conn_self, hc] at hopen
    exact absurd hopen Bool.false_ne_true
  · exact .of_peers (setConn_peers_of_ne _ _ hp)

theorem KeepsRead.handleError (q : PeerId) (e : PeerError) :
    KeepsRead p w (Peer.handleError w q e) := by
  rw [handleError_eq]
  exact KeepsRead.setConn (w := w.setTorrent _) rfl

theorem KeepsRead.disconnectPeers (w : World) : KeepsRead p w (Torrent.disconnectPeers w) :=
  disconnectPeers_induction (I := KeepsRead p w) (.of_peers rfl) fun _ _ _ hv =>
    hv.trans (.setConn rfl)

theorem takeRead_peers_of_ne {q : PeerId} (h : p ≠ q) : (takeRead w q).peers p = w.peers p :=
  setConn_peers_of_ne _ _ h

/-- A step that is not the end of a read of `p` or of its connecting. -/
theorem step_keepsRead {l : YTorrent.Label} (hs : YTorrent.step sha1 w l = some w')
    (hl : Reception.reads p l = false) (hp : p < w.peerCount) : KeepsRead p w w' := by
  have hne : ∀ {q}, (q == p) = false → p ≠ q := fun hq => Ne.symm (beq_eq_false_iff_ne.mp hq)
  cases (step_effect hs).2 with
  | frame q messageID payload env hready _ heff =>
    have hq := hne hl
    exact .of_peers ((heff.peers_of_ne hq).trans (takeRead_peers_of_ne hq))
  | socketError q =>
    by_cases hq : p = q
    · subst hq
      intro hopen
      rw [handleError_eq, log_peers, setConn_conn_self] at hopen
      exact absurd hopen Bool.false_ne_true
    · exact KeepsRead.trans (.of_peers (takeRead_peers_of_ne hq)) (.handleError q _)
  | socketClosed q => exact .setConn rfl
  | endpointLost q =>
    by_cases hq : p = q
    · subst hq
      intro hopen
      rw [loseEndpoint, setConn_conn_self] at hopen ⊢
      exact ⟨hopen, rfl⟩
    · exact .of_peers (setConn_peers_of_ne _ _ hq)
  | skipped => exact .of_peers rfl
  | dialled | accepted => exact .of_peers (setPeer_peers_of_ne _ _ hp.ne)
  | connected q ip => exact .of_peers (setConn_peers_of_ne _ _ (hne hl))
  | refused q =>
    have hq := hne hl
    exact KeepsRead.trans (.of_peers (takeRead_peers_of_ne hq)) (.handleError q _)
  | connectHandshake q | authenticateHandshake q =>
    have hq := hne hl
    exact .of_peers ((read_peers_of_ne _ _ hq).trans (takeRead_peers_of_ne hq))
  | disconnectPeers => exact .disconnectPeers w

/-! ## What a callback leads to -/

/-- What the read of a callback waits for. -/
def ReadCallback.pending : ReadCallback → Pending
  | .connectHandshake => .handshakeOut
  | .authenticateHandshake => .handshakeIn
  | .handle | .handleData => .message

/-- The numbers of bytes a callback asks for. -/
def ReadCallback.Takes : ReadCallback → ℕ → Prop
  | .connectHandshake, n | .authenticateHandshake, n => n = 68
  | .handle, n => n = 4
  | .handleData, n => n ≠ 0

namespace Reception

/-- The connection of `p` is open. -/
abbrev Open (w : World) (p : PeerId) : Prop := (w.peers p).conn.isOpen = true

/-- A callback issues one read, unless it has closed the connection or ended the process. -/
inductive CallBackEffect (p : PeerId) (s : Reception B) : Reception B → Prop
  | drops (w : World) (hcount : w.peerCount = s.world.peerCount)
    (hopen : Open w p → Open s.world p) (hdropped : Open w p → w.running = false) :
    CallBackEffect p s (s.enter p w)
  | reads (w : World) (hcount : w.peerCount = s.world.peerCount)
    (hopen : Open w p → Open s.world p) (rc : ReadCallback) (bytes : ℕ) (htakes : rc.Takes bytes)
    (hpend : Open w p → (w.peers p).conn.pending = rc.pending) :
    CallBackEffect p s ((s.enter p w).read sb rc bytes)

variable {sb} {s s' : Reception B} {rc : ReadCallback} {data : List Byte}

theorem open_takeRead : Open (takeRead w p) p ↔ Open w p := by
  rw [Open, isOpen_takeRead]

theorem not_open_handleError (w : World) (p : PeerId) (e : PeerError) :
    ¬ Open (handleError w p e) p := by
  rw [Open, handleError_eq, log_peers, setConn_conn_self]
  exact Bool.false_ne_true

theorem pending_read (h : Open (Connection.read w p .message) p) :
    ((Connection.read w p .message).peers p).conn.pending = .message := by
  rw [Open, read_isOpen] at h
  rw [read_conn, if_pos h]

theorem enter_world (h : s.receiver.isOpen = (s.world.peers p).conn.isOpen) :
    s.enter p s.world = s := by
  unfold enter
  split
  · rfl
  · rename_i hclosed
    have heq : s.receiver.close = s.receiver := by
      rw [Bool.eq_false_of_not_eq_true hclosed] at h
      rw [Receiver.close, ← h]
    rw [heq]

/-- A handshake that is refused closes the connection, after another one the next message is
    awaited. -/
theorem handshake_effect {refused : Bool}
    (hrefused : refused = true → w = handleError (takeRead s.world p) p .handshakeMismatch)
    (haccepted : refused = false → ∃ es,
      w = Connection.read ((Torrent.handshaked (takeRead s.world p) p).log es) p .message) :
    CallBackEffect sb p s
      (if refused then s.enter p w else (s.enter p w).read sb .handle 4) := by
  cases refused with
  | true =>
    have hclosed : ¬ Open w p := hrefused rfl ▸ not_open_handleError _ p _
    refine .drops w ?_ (fun ho => absurd ho hclosed) fun ho => absurd ho hclosed
    rw [hrefused rfl, handleError_eq]
    rfl
  | false =>
    obtain ⟨es, rfl⟩ := haccepted rfl
    refine .reads _ ?_ (fun ho => ?_) .handle 4 rfl pending_read
    · rw [read_peerCount]
      rfl
    · rw [Open, read_isOpen] at ho
      exact open_takeRead.mp ho

theorem callBack_effect (hopen : s.receiver.isOpen = (s.world.peers p).conn.isOpen)
    (hpend : Open s.world p → (s.world.peers p).conn.pending = rc.pending) :
    CallBackEffect sb p s (s.callBack sb sha1 env p data rc) := by
  cases rc with
  | connectHandshake =>
    refine handshake_effect (fun href => if_pos href) fun href => ⟨[], ?_⟩
    rw [World.log_nil]
    exact if_neg (ne_true_of_eq_false href)
  | authenticateHandshake =>
    exact handshake_effect (fun href => if_pos href) fun href => ⟨_, authenticateHandshake_eq href⟩
  | handle =>
    show CallBackEffect sb p s (s.handle sb data)
    have hself := enter_world hopen
    unfold handle
    split_ifs with hzero
    · have heff : CallBackEffect sb p s ((s.enter p s.world).read sb .handle 4) :=
        .reads s.world rfl id .handle 4 rfl hpend
      rwa [hself] at heff
    · have heff : CallBackEffect sb p s
          ((s.enter p s.world).read sb .handleData (readAsBE32 data)) :=
        .reads s.world rfl id .handleData _ hzero hpend
      rwa [hself] at heff
  | handleData =>
    have hnone : ((takeRead s.world p).peers p).conn.pending ≠ .message := by
      rw [takeRead, setConn_conn_self]
      exact Pending.noConfusion
    have heff := handleMessage_effect sha1 (takeRead s.world p) p env (data.headD 0) data.tail
    show CallBackEffect sb p s (s.handleData sb sha1 env p data)
    unfold handleData
    rw [handleMessage_eq] at heff
    cases hflow : dispatch sha1 (takeRead s.world p) p env (data.headD 0)
        { dataBuffer := data.tail } with
    | ret w =>
      rw [hflow] at heff
      exact .drops w heff.peerCount (fun ho => open_takeRead.mp (heff.isOpen ho))
        (dispatch_ret hnone hflow)
    | brk w =>
      rw [hflow] at heff
      exact .reads _ heff.peerCount (fun ho => open_takeRead.mp (heff.isOpen ho)) .handle 4 rfl
        pending_read

/-! ## The receiver -/

theorem enter_isOpen (hself : s.receiver.isOpen = (s.world.peers p).conn.isOpen)
    (hopen : Open w p → Open s.world p) :
    (s.enter p w).receiver.isOpen = (w.peers p).conn.isOpen := by
  unfold enter
  cases hw : (w.peers p).conn.isOpen with
  | false => rfl
  | true => exact hself.trans (hopen hw)

/-- The socket is closed or nothing happens. -/
theorem enter_reaches (s : Reception B) (p : PeerId) (w : World) :
    Runs.Reaches (Receiver.step sb) s.receiver (s.enter p w).receiver := by
  unfold enter
  split
  · exact .refl _
  · exact .single (a := .close) rfl

theorem enter_handler (s : Reception B) (p : PeerId) (w : World) :
    (s.enter p w).receiver.handler = s.receiver.handler := by
  unfold enter
  split <;> rfl

theorem enter_pending (s : Reception B) (p : PeerId) (w : World) :
    (s.enter p w).receiver.pending = s.receiver.pending := by
  unfold enter
  split <;> rfl

/-- A callback and the end of its read handler are a run of the receiver. -/
theorem CallBackEffect.reaches (h : CallBackEffect sb p s s') {a : Activation}
    (hhandler : s.receiver.handler = some a) (hzero : a.reads = 0) :
    Runs.Reaches (Receiver.step sb) s.receiver (s'.receiver.consume sb a) := by
  cases h with
  | drops w =>
    refine (enter_reaches s p w).tail (a := .handled) ?_
    rw [Receiver.step, enter_handler, hhandler]
    rfl
  | reads w _ _ rc bytes =>
    have hread : (s.enter p w).receiver.step sb (.read rc bytes) =
        some ((s.enter p w).receiver.read sb rc bytes) := by
      rw [Receiver.step, enter_handler, hhandler]
      exact if_pos hzero
    refine ((enter_reaches s p w).tail hread).tail (a := .handled) ?_
    rw [Receiver.step, Receiver.read_handler, enter_handler, hhandler]
    rfl

/-! ## The client -/

theorem world_handshake {w : World} {refused : Bool} :
    (if refused then s.enter p w else (s.enter p w).read sb .handle 4).world = w := by
  split <;> rfl

theorem world_handle (s : Reception B) (data : List Byte) : (s.handle sb data).world = s.world := by
  unfold handle
  split <;> rfl

theorem world_handleData (s : Reception B) (data : List Byte) :
    (s.handleData sb sha1 env p data).world =
      handleMessage sha1 (takeRead s.world p) p env (data.headD 0) data.tail := by
  unfold handleData handleMessage
  split <;> simp_all [enter, read]

theorem step_handshake_eq {data : List Byte} (hrun : w.running = true) (ho : Open w p)
    (hlen : data.length = 68) (h : World → World)
    (hpend : (w.peers p).conn.pending = .handshakeOut ∧ h = (Peer.connectHandshake · p data) ∨
      (w.peers p).conn.pending = .handshakeIn ∧ h = (Peer.authenticateHandshake · p data)) :
    YTorrent.step sha1 w (.handshake p data) = some (h (takeRead w p)) := by
  unfold YTorrent.step
  rw [hrun, Bool.not_true, if_neg Bool.false_ne_true]
  simp only [show (w.peers p).conn.isOpen = true from ho, hlen, beq_self_eq_true, Bool.and_true,
    if_true]
  rcases hpend with ⟨hpend, rfl⟩ | ⟨hpend, rfl⟩
  · rw [hpend]
  · rw [hpend]

/-- A callback is a step of the client, or it only reads a header. -/
theorem callBack_world {bytes : ℕ} (hrun : s.world.running = true) (ho : Open s.world p)
    (hpend : (s.world.peers p).conn.pending = rc.pending) (htakes : rc.Takes bytes)
    (hlen : data.length = bytes) : Runs.Reaches (YTorrent.step sha1) s.world
      (s.callBack sb sha1 env p data rc).world := by
  cases rc with
  | connectHandshake =>
    unfold callBack
    rw [world_handshake]
    exact .single (step_handshake_eq hrun ho (hlen.trans htakes) _ (.inl ⟨hpend, rfl⟩))
  | authenticateHandshake =>
    unfold callBack
    rw [world_handshake]
    exact .single (step_handshake_eq hrun ho (hlen.trans htakes) _ (.inr ⟨hpend, rfl⟩))
  | handle =>
    unfold callBack
    rw [world_handle]
    exact .refl _
  | handleData =>
    unfold callBack
    rw [world_handleData]
    refine .single (a := .frame p (data.headD 0) data.tail env) ?_
    unfold YTorrent.step
    rw [hrun, Bool.not_true, if_neg Bool.false_ne_true]
    exact if_pos ⟨ho, hpend⟩

theorem not_open_connectionHandleError (w : World) (p : PeerId) :
    ¬ Open (Connection.handleError (takeRead w p) p) p := by
  cases hcb : (w.peers p).conn.errorCB with
  | true =>
    have hcb : ((takeRead w p).peers p).conn.errorCB = true := by
      rwa [takeRead, setConn_conn_self]
    rw [connectionHandleError_of_errorCB hcb]
    exact not_open_handleError _ p _
  | false =>
    rw [connectionHandleError_of_no_errorCB hcb, Open, setConn_conn_self]
    exact Bool.false_ne_true

theorem peerCount_connectionHandleError (w : World) (p : PeerId) :
    (Connection.handleError (takeRead w p) p).peerCount = w.peerCount := by
  cases hcb : (w.peers p).conn.errorCB with
  | true =>
    have hcb : ((takeRead w p).peers p).conn.errorCB = true := by
      rwa [takeRead, setConn_conn_self]
    rw [connectionHandleError_of_errorCB hcb, handleError_eq]
    rfl
  | false =>
    rw [connectionHandleError_of_no_errorCB hcb]
    rfl

/-- The number of peers never goes down. -/
theorem peerCount_le {l : YTorrent.Label} (hs : YTorrent.step sha1 w l = some w') :
    w.peerCount ≤ w'.peerCount := by
  rcases step_cases hs with ⟨q, messageID, payload, env, -, -, heff⟩ | hout
  · exact heff.peerCount.ge
  · exact hout.peerCount

/-! ## Steps -/

/-- What a step does. -/
inductive StepEffect (sb : Streambuf B Byte) (sha1 : List Byte → List ℕ) (p : PeerId)
    (s : Reception B) : Label → Reception B → Prop
  | arrive (bytes : List Byte) (r : Receiver B ReadCallback)
    (hr : s.receiver.step sb (.arrive bytes) = some r) :
    StepEffect sb sha1 p s (.arrive bytes) { s with receiver := r }
  | complete (env : Env) (hrun : s.world.running = true) (op : AsyncRead) (ops : List AsyncRead)
    (hr : s.receiver.step sb .complete = some (s.receiver.callBack sb op ops))
    (hp : s.receiver.pending = op :: ops) (hfull : op.transferred = op.size) (rc : ReadCallback)
    (hcb : s.receiver.readCB = some rc) (s' : Reception B)
    (hs' : s' = { s with receiver := s.receiver.callBack sb op ops }.callBack sb sha1 env p
      ((s.receiver.callBack sb op ops).data sb op.transferred) rc) :
    StepEffect sb sha1 p s (.complete env)
      { s' with receiver := s'.receiver.consume sb { readSize := op.transferred } }
  | aborted (r : Receiver B ReadCallback) (hr : s.receiver.step sb (.fail true) = some r) :
    StepEffect sb sha1 p s (.fail true) { s with receiver := r }
  | failed (hrun : s.world.running = true) (r : Receiver B ReadCallback)
    (hr : s.receiver.step sb (.fail false) = some r) :
    StepEffect sb sha1 p s (.fail false)
      { world := Connection.handleError (takeRead s.world p) p, receiver := r }
  | other (l : YTorrent.Label) (hl : reads p l = false) (w : World)
    (hw : YTorrent.step sha1 s.world l = some w) : StepEffect sb sha1 p s (.other l) (s.enter p w)

/-- Every step does one of these things; no later proof unfolds `step`. -/
theorem step_effect {l : Label} (hs : s.step sb sha1 p l = some s') :
    StepEffect sb sha1 p s l s' := by
  cases l with
  | arrive bytes =>
    obtain ⟨r, hr, rfl⟩ := Option.map_eq_some_iff.mp hs
    exact .arrive bytes r hr
  | complete env =>
    rw [Reception.step] at hs
    split at hs
    · cases hs
    rename_i hrun
    simp only [Option.bind_eq_some_iff, Option.map_eq_some_iff] at hs
    obtain ⟨r, hr, a, ha, rc, hcb, rfl⟩ := hs
    obtain ⟨op, ops, hp, -, hfull, rfl⟩ := Receiver.step_complete hr
    obtain rfl := Option.some.inj ha
    exact .complete env (by simpa using hrun) op ops hr hp hfull rc hcb _ rfl
  | fail aborted =>
    rw [Reception.step] at hs
    split at hs
    · cases hs
    rename_i hrun
    obtain ⟨r, hr, rfl⟩ := Option.map_eq_some_iff.mp hs
    cases aborted with
    | true => exact .aborted r hr
    | false => exact .failed (by simpa using hrun) r hr
  | other l =>
    rw [Reception.step] at hs
    split at hs
    · cases hs
    rename_i hl
    obtain ⟨w, hw, rfl⟩ := Option.map_eq_some_iff.mp hs
    exact .other l (Bool.eq_false_of_not_eq_true hl) w hw

/-! ## The invariant -/

/-- Between the handlers of the connection. On an open connection one read is pending, for a
    callback that has asked for as many bytes as it takes, unless an exception has ended the
    process. -/
structure Inv (sb : Streambuf B Byte) (p : PeerId) (s : Reception B) : Prop where
  receiver : s.receiver.Inv sb
  handler : s.receiver.handler = none
  isOpen : s.receiver.isOpen = (s.world.peers p).conn.isOpen
  lt : p < s.world.peerCount
  waits : Open s.world p → s.world.running = true → ∃ op rc, s.receiver.pending = [op] ∧
    s.receiver.readCB = some rc ∧ rc.Takes op.size ∧
      (s.world.peers p).conn.pending = rc.pending

section

variable (hsb : sb.Documented)

include hsb

/-- What a callback and the end of its read handler lead to. -/
theorem CallBackEffect.inv (h : CallBackEffect sb p s s') {a : Activation}
    (hinv : s.receiver.Inv sb) (hhandler : s.receiver.handler = some a) (hzero : a.reads = 0)
    (hopen : s.receiver.isOpen = (s.world.peers p).conn.isOpen) (hlt : p < s.world.peerCount) :
    Inv sb p { s' with receiver := s'.receiver.consume sb a } := by
  have hreceiver : (s'.receiver.consume sb a).Inv sb :=
    (h.reaches hhandler hzero).invariant (fun _ _ _ hs hr => hr.step hsb hs) hinv
  cases h with
  | drops w hcount hmono hdropped =>
    refine ⟨hreceiver, rfl, enter_isOpen hopen hmono, hlt.trans_eq hcount.symm, ?_⟩
    intro ho hrun
    exact absurd (hrun.symm.trans (hdropped ho)) (by decide)
  | reads w hcount hmono rc bytes htakes hpend =>
    have hisOpen := enter_isOpen hopen hmono
    refine ⟨hreceiver, rfl, ?_, hlt.trans_eq hcount.symm, ?_⟩
    · exact (Receiver.read_isOpen sb _ rc bytes).trans hisOpen
    · intro ho _
      have hread := Receiver.read_of_open sb (hisOpen.trans ho) rc bytes
      refine ⟨{ size := bytes }, rc, ?_, ?_, htakes, hpend ho⟩
      · show (Receiver.read sb (s.enter p w).receiver rc bytes).pending = _
        rw [hread, enter_pending, hinv.pending_nil hhandler hzero, List.nil_append]
      · show (Receiver.read sb (s.enter p w).receiver rc bytes).readCB = _
        rw [hread]

/-- A step keeps the invariant, and is a run of the receiver. -/
theorem Inv.step {l : Label} (h : Inv sb p s) (hs : s.step sb sha1 p l = some s') :
    Inv sb p s' ∧ Runs.Reaches (Receiver.step sb) s.receiver s'.receiver := by
  cases step_effect hs with
  | arrive bytes r hr =>
    refine ⟨?_, .single hr⟩
    have hinv := h.receiver.step hsb hr
    obtain ⟨op, ops, hp, -, rfl⟩ := Receiver.step_arrive hr
    refine ⟨hinv, h.handler, h.isOpen, h.lt, fun ho hrun => ?_⟩
    obtain ⟨op', rc, hp', hcb, htakes, hpend⟩ := h.waits ho hrun
    obtain ⟨rfl, rfl⟩ := List.cons.inj (hp.symm.trans hp')
    exact ⟨_, rc, rfl, hcb, htakes, hpend⟩
  | complete env hrun op ops hr hp hfull rc hcb s' hs' =>
    have hinv := h.receiver.step hsb hr
    have hpend : Open s.world p → (s.world.peers p).conn.pending = rc.pending := by
      intro ho
      obtain ⟨op', rc', -, hcb', -, hpend⟩ := h.waits ho hrun
      rw [hpend, Option.some.inj (hcb'.symm.trans hcb)]
    have heff : CallBackEffect sb p { s with receiver := s.receiver.callBack sb op ops } s' := by
      rw [hs']
      exact callBack_effect h.isOpen hpend
    refine ⟨heff.inv hsb hinv rfl rfl h.isOpen h.lt, ?_⟩
    exact (Runs.Reaches.single hr).trans (heff.reaches rfl rfl)
  | aborted r hr =>
    refine ⟨?_, .single hr⟩
    have hinv := h.receiver.step hsb hr
    obtain ⟨op, ops, -, -, hclosed, rfl⟩ := Receiver.step_fail hr
    refine ⟨hinv, h.handler, h.isOpen, h.lt, fun ho => ?_⟩
    exact absurd (ho.symm.trans (h.isOpen.symm.trans (hclosed rfl))) (by decide)
  | failed hrun r hr =>
    refine ⟨?_, .single hr⟩
    have hinv := h.receiver.step hsb hr
    obtain ⟨op, ops, -, -, -, rfl⟩ := Receiver.step_fail hr
    have hnot := not_open_connectionHandleError s.world p
    refine ⟨hinv, h.handler, (Bool.eq_false_of_not_eq_true hnot).symm, ?_,
      fun ho => absurd ho hnot⟩
    exact h.lt.trans_eq (peerCount_connectionHandleError s.world p).symm
  | other l hl w hw =>
    have hkeeps := step_keepsRead hw hl h.lt
    have hreaches : Runs.Reaches (Receiver.step sb) _ _ := enter_reaches s p w
    refine ⟨⟨hreaches.invariant (fun _ _ _ hs hr => hr.step hsb hs) h.receiver, ?_,
      enter_isOpen h.isOpen fun ho => (hkeeps ho).1, h.lt.trans_le (peerCount_le hw),
      fun ho _ => ?_⟩, hreaches⟩
    · rw [enter_handler, h.handler]
    · obtain ⟨hold, hpend⟩ := hkeeps ho
      obtain ⟨op, rc, hp, hcb, htakes, hwait⟩ := h.waits hold (YTorrent.step_effect hw).1
      have henter : (s.enter p w).receiver = s.receiver := if_pos ho
      exact ⟨op, rc, henter ▸ hp, henter ▸ hcb, htakes, hpend.trans hwait⟩

/-- On an open connection what happens is a step of the client: a handshake, a frame, an
    error of the socket or another step; a header and a keep-alive are none. -/
theorem Inv.step_world {l : Label} (h : Inv sb p s) (ho : Open s.world p)
    (hs : s.step sb sha1 p l = some s') :
    Runs.Reaches (YTorrent.step sha1) s.world s'.world := by
  cases step_effect hs with
  | arrive | aborted => exact .refl _
  | complete env hrun op ops hr hp hfull rc hcb s' hs' =>
    obtain ⟨op', rc', hp', hcb', htakes, hpend⟩ := h.waits ho hrun
    obtain ⟨rfl, rfl⟩ := List.cons.inj (hp.symm.trans hp')
    obtain rfl := Option.some.inj (hcb.symm.trans hcb')
    have hlen := (h.receiver.step hsb hr).length_data rfl
    subst hs'
    exact callBack_world (s := { s with receiver := s.receiver.callBack sb op [] }) hrun ho hpend
      htakes (hlen.trans hfull)
  | failed hrun r hr =>
    refine .single (a := .socketError p) ?_
    unfold YTorrent.step
    rw [hrun, Bool.not_true, if_neg Bool.false_ne_true]
    exact if_pos h.lt
  | other l hl w hw => exact .single hw

/-- The first read of a connection. -/
theorem inv_start (hlt : p < w.peerCount) (hopen : Open w p)
    (hpend : (w.peers p).conn.pending = rc.pending) (htakes : rc.Takes 68) :
    Inv sb p { world := w, receiver := (Receiver.start sb).read sb rc 68 } ∧
      Runs.Reaches (Receiver.step sb) (Receiver.start sb)
        ((Receiver.start sb).read sb rc 68) := by
  have hread : (Receiver.start sb).step sb (.read rc 68) =
      some ((Receiver.start sb).read sb rc 68) := rfl
  refine ⟨⟨(Receiver.inv_start hsb).step hsb hread, rfl, hopen.symm, hlt, fun _ _ => ?_⟩,
    .single hread⟩
  exact ⟨{ size := 68 }, rc, rfl, rfl, htakes, hpend⟩

theorem Starts.inv {f : ParsedFile} (hr : Reachable sha1 f w) (h : Starts sb sha1 p w s) :
    Inv sb p s ∧ Runs.Reaches (Receiver.step sb) (Receiver.start sb) s.receiver := by
  cases h with
  | connected w' hs =>
    cases (YTorrent.step_effect hs).2 with
    | connected _ ip hwait =>
      have hne : (w.peers p).conn ≠ {} := by
        intro heq
        rw [heq] at hwait
        exact Pending.noConfusion hwait
      refine inv_start hsb (hr.newcomers.lt_of_conn hne) ?_ ?_ rfl
      · rw [Open, log_peers, setConn_conn_self]
      · rw [log_peers, setConn_conn_self]
        rfl
  | accepted remote w' hp hs =>
    subst hp
    cases (YTorrent.step_effect hs).2 with
    | accepted =>
      refine inv_start hsb (Nat.lt_succ_self w.peerCount) ?_ ?_ rfl
      · rw [Open, setTorrent_peers, newPeer]
        simp
      · rw [setTorrent_peers, newPeer]
        simp [ReadCallback.pending]

/-- Whatever happens to the client after the first read. -/
theorem inv_of_reaches (h : Inv sb p s) (hs : Runs.Reaches (Reception.step sb sha1 p) s s') :
    Inv sb p s' ∧ Runs.Reaches (Receiver.step sb) s.receiver s'.receiver := by
  refine hs.invariant (I := fun t => Inv sb p t ∧ Runs.Reaches (Receiver.step sb) s.receiver t.receiver)
    ?_ ⟨h, .refl _⟩
  rintro t l t' hstep ⟨ht, hreaches⟩
  obtain ⟨hinv, hmore⟩ := ht.step hsb hstep
  exact ⟨hinv, hreaches.trans hmore⟩

end

/-- The callbacks of every connection are called with the bytes of the stream, as many as
    they asked for, and as long as the connection of a peer is open one read is pending on
    it between its handlers. -/
theorem reads_exact {B : Type*} {sb : Streambuf B Byte} (hsb : sb.Documented) :
    (∀ (κ : Type) (r : Receiver B κ),
      Runs.Reaches (Receiver.step sb) (Receiver.start sb) r → r.Exact) ∧
    ∀ (sha1 : List Byte → List ℕ) (f : ParsedFile) (w : World) (p : PeerId) (s s' : Reception B),
      Reachable sha1 f w → Starts sb sha1 p w s →
        Runs.Reaches (Reception.step sb sha1 p) s s' →
          s'.receiver.Exact ∧ (Open s'.world p → s'.world.running = true →
            s'.receiver.pending.length = 1) := by
  refine ⟨fun κ r => Receiver.exact_of_reaches hsb, fun sha1 f w p s s' hr hstart hs => ?_⟩
  obtain ⟨hinv, hfirst⟩ := hstart.inv hsb hr
  obtain ⟨hinv', hmore⟩ := inv_of_reaches hsb hinv hs
  refine ⟨Receiver.exact_of_reaches hsb (hfirst.trans hmore), fun ho hrun => ?_⟩
  obtain ⟨op, rc, hp, -⟩ := hinv'.waits ho hrun
  rw [hp, List.length_singleton]

/-- A handshake, a keep-alive and an INTERESTED, on two lists as the buffer. -/
theorem reads_exact_oneByte : ∃ s : Reception (List Byte × List Byte),
    s.receiver.calls.length = 4 ∧ s.receiver.Exact ∧ s.receiver.pending.length = 1 := by
  have hrun : ((YTorrent.step sha1OfA oneByteFile.start (.accepted (some 1))).bind fun w =>
      (Runs.exec (Reception.step Streambuf.fifo sha1OfA 0)
        { world := w
          receiver := (Receiver.start Streambuf.fifo).read Streambuf.fifo .authenticateHandshake 68 }
        [.arrive (zeroHandshake.take 30), .arrive (zeroHandshake.drop 30), .complete {},
          .arrive [0, 0, 0, 0], .complete {}, .arrive [0, 0, 0, 1], .complete {}, .arrive [2],
          .complete {}]).map fun s => decide (s.receiver.calls.length = 4 ∧ Open s.world 0 ∧
            s.world.running = true)) = some true := by
    decide +kernel
  obtain ⟨w, hw, hrun⟩ := Option.bind_eq_some_iff.mp hrun
  obtain ⟨s, hs, hend⟩ := Option.map_eq_some_iff.mp hrun
  obtain ⟨hcalls, hopen, hrunning⟩ := of_decide_eq_true hend
  have hexact := (reads_exact Streambuf.fifo_documented).2 sha1OfA oneByteFile oneByteFile.start 0 _ s
    (.refl _) (.accepted (some 1) w rfl hw) ⟨_, hs⟩
  exact ⟨s, hcalls, hexact.1, hexact.2 hopen hrunning⟩

end Reception

end Peer

end YTorrent
