import YTorrent.Common.Runs
import YTorrent.Torrent.HandleMessage

/-!
# The client as a transition system

The handlers by which a peer joins (`Torrent::connectToPeers`, `Peer::connect`,
the accept callback of `Torrent::download`, `Peer::authenticate`,
`Torrent::handshaked`), the socket errors (`Connection::handleError`) and
`Torrent::disconnectPeers`; and `step`, one execution of any of them or of
`Peer::handleMessage`. The handlers run one at a time on the thread of the
`io_context`, and the body of `connectToPeers` and the containers of peers are
guarded by one mutex, so a run of the client is a sequence of steps
(`Runs.exec`), in any order the environment chooses.

A `frame` step is the handling of a whole message. The 4-byte header and
keep-alives of `Peer::handle` change nothing but the pending read.

The steps are those of open connections. The read handler of `Connection::read`
does not look whether the socket is still open, so a read that is complete when
its connection is closed is handled afterwards. That is no `step`;
`Peer.Reception.step` has it for the connection of one peer and `lateStep` for
all of them.
-/

namespace YTorrent

open World

/-! ## Joining -/

/-- The characters of `"BitTorrent protocol"`. -/
def protocolName : List Byte := "BitTorrent protocol".toList.map fun c => byte c.toNat

/-- The bytes 28 to 47 of a handshake. -/
def infoHashOf (handshake : List Byte) : List Byte := (handshake.drop 28).take 20

/-- The condition under which a handshake is refused (peer.cpp lines 50, 70). -/
def handshakeRefused (myHandshake peerHandshake : List Byte) : Bool :=
  peerHandshake.length != 68 ||
    (readU8 peerHandshake 0 != 19 && (peerHandshake.drop 1).take 19 != protocolName) ||
    (peerHandshake.drop 28).take 20 != (myHandshake.drop 28).take 20

/-- `Torrent::handshaked` with `addPeer` (torrent.cpp lines 330–345). -/
def Torrent.handshaked (w : World) (p : PeerId) : World :=
  w.setTorrent { w.torrent with
    activePeers := w.torrent.activePeers ++ [p]
    blackListed := w.torrent.blackListed.erase (w.peers p).conn.getIP }

/-- A new `Peer` object. -/
def newPeer (w : World) (conn : Connection) : World :=
  { w.setPeer w.peerCount { conn := conn } with peerCount := w.peerCount + 1 }

/-- The body of the loop of `Torrent::connectToPeers` for one address
    (torrent.cpp lines 299–326). -/
def Torrent.dial (w : World) (ip : ℕ) : World :=
  if ip = 0 || w.torrent.blackListed.contains ip then w
  else if w.torrent.activePeers.any fun p => (w.peers p).conn.getIP == ip then w
  else newPeer (w.setTorrent { w.torrent with blackListed := w.torrent.blackListed.insert ip })
    { errorCB := true, pending := .connect ip }

/-- The connect callback of `Peer::connect` (peer.cpp lines 43–47). -/
def Peer.connected (w : World) (p : PeerId) (ip : ℕ) : World :=
  let w := w.setConn p { (w.peers p).conn with isOpen := true, remote := some ip }
  Connection.read (Connection.write w p (.handshake w.torrent.handshake)) p .handshakeOut

/-- The handshake callback of `Peer::connect` (lines 48–59). -/
def Peer.connectHandshake (w : World) (p : PeerId) (peerHandshake : List Byte) : World :=
  if handshakeRefused w.torrent.handshake peerHandshake then
    Peer.handleError w p .handshakeMismatch
  else Connection.read (Torrent.handshaked w p) p .message

/-- The accept callback of `Torrent::download` (torrent.cpp lines 192–198) with
    the start of `Peer::authenticate` (peer.cpp lines 65–67). -/
def Torrent.accepted (w : World) (remote : Option ℕ) : World :=
  let p := w.peerCount
  let w := newPeer w { isOpen := true, remote := remote }
  let w := w.setTorrent { w.torrent with
    blackListed := w.torrent.blackListed.insert (w.peers p).conn.getIP }
  let w := w.setConn p { (w.peers p).conn with errorCB := true }
  Connection.read w p .handshakeIn

/-- The handshake callback of `Peer::authenticate` (lines 68–85). -/
def Peer.authenticateHandshake (w : World) (p : PeerId) (peerHandshake : List Byte) : World :=
  if handshakeRefused w.torrent.handshake peerHandshake then
    Peer.handleError w p .handshakeMismatch
  else
    let w := Connection.write w p (.handshake w.torrent.handshake)
    let w := Torrent.handshaked w p
    let w := Peer.sendBitfield w p (Torrent.getRawBitfield w.torrent)
    Connection.read w p .message

/-! ## Errors and the end of the download -/

/-- `Connection::handleError` for an error other than `operation_aborted`
    (connection.cpp lines 121–136). -/
def Connection.handleError (w : World) (p : PeerId) : World :=
  let w := if (w.peers p).conn.errorCB then Peer.handleError w p .socket else w
  if (w.peers p).conn.isOpen then Connection.close w p else w

/-- `Torrent::disconnectPeers` (torrent.cpp lines 365–376). -/
def Torrent.disconnectPeers (w : World) : World :=
  w.torrent.activePeers.foldl Peer.disconnect w

/-! ## The transition system -/

/-- What happens next: a whole message arrives, a socket operation fails, the
    remote end is lost (from then on `remote_endpoint` fails), an address of a
    tracker reply is dialled, a dialled connection is established, an incoming
    one is accepted, a handshake arrives, or the download ends. -/
inductive Label
  | frame (p : PeerId) (messageID : Byte) (payload : List Byte) (env : Env)
  | socketError (p : PeerId)
  | endpointLost (p : PeerId)
  | dial (ip : ℕ)
  | connected (p : PeerId)
  | accepted (remote : Option ℕ)
  | handshake (p : PeerId) (peerHandshake : List Byte)
  | disconnectPeers
  deriving DecidableEq, Repr

/-- The operation pending on the connection of `p` has completed. -/
def takeRead (w : World) (p : PeerId) : World :=
  w.setConn p { (w.peers p).conn with pending := .none }

/-- The remote end of the connection of `p` is gone. -/
def loseEndpoint (w : World) (p : PeerId) : World :=
  w.setConn p { (w.peers p).conn with remote := none }

/-- A message of `p` can be handled, and its connection is open. -/
def World.Ready (w : World) (p : PeerId) : Prop :=
  (w.peers p).conn.isOpen = true ∧ (w.peers p).conn.pending = .message

instance (w : World) (p : PeerId) : Decidable (w.Ready p) := by
  unfold World.Ready; infer_instance

/-- One step of the client, `none` where the event cannot happen. -/
def step (sha1 : List Byte → List ℕ) (w : World) (l : Label) : Option World :=
  if !w.running then none
  else match l with
  | .frame p messageID payload env =>
    if w.Ready p then some (Peer.handleMessage sha1 (takeRead w p) p env messageID payload)
    else none
  | .socketError p =>
    if p < w.peerCount then some (Connection.handleError (takeRead w p) p) else none
  | .endpointLost p => if p < w.peerCount then some (loseEndpoint w p) else none
  | .dial ip => some (Torrent.dial w ip)
  | .connected p =>
    match (w.peers p).conn.pending with
    | .connect ip => some (Peer.connected (takeRead w p) p ip)
    | _ => none
  | .accepted remote => some (Torrent.accepted w remote)
  | .handshake p peerHandshake =>
    if (w.peers p).conn.isOpen && peerHandshake.length == 68 then
      match (w.peers p).conn.pending with
      | .handshakeOut => some (Peer.connectHandshake (takeRead w p) p peerHandshake)
      | .handshakeIn => some (Peer.authenticateHandshake (takeRead w p) p peerHandshake)
      | _ => none
    else none
  | .disconnectPeers => some (Torrent.disconnectPeers w)

/-- What `Torrent::parseFile` leaves in the object: the hashes of the pieces,
    the two sizes, the contents of the target file and our handshake. -/
structure ParsedFile where
  hashes : List (List Byte)
  pieceLength : ℕ
  totalSize : ℕ
  file : List Byte
  handshake : List Byte
  deriving DecidableEq, Repr

/-- The state after `parseFile`, with no peers. -/
def ParsedFile.start (f : ParsedFile) : World where
  torrent :=
    { pieces := f.hashes.map fun hash => { hash := hash }
      bitfield := List.replicate f.hashes.length false
      pieceLength := f.pieceLength
      totalSize := f.totalSize
      file := f.file
      handshake := f.handshake }

/-- The states a client that has parsed `f` can reach. -/
def Reachable (sha1 : List Byte → List ℕ) (f : ParsedFile) (w : World) : Prop :=
  Runs.Reaches (step sha1) f.start w

theorem Reachable.step {sha1 : List Byte → List ℕ} {f : ParsedFile} {w w' : World} {l : Label}
    (h : Reachable sha1 f w) (hs : YTorrent.step sha1 w l = some w') : Reachable sha1 f w' :=
  h.tail hs

/-- What holds at the start and is preserved by every step holds in every reachable state. -/
theorem Reachable.invariant {sha1 : List Byte → List ℕ} {f : ParsedFile} {I : World → Prop}
    (hstep : ∀ w l w', YTorrent.step sha1 w l = some w' → I w → I w') (h0 : I f.start) {w : World}
    (h : Reachable sha1 f w) : I w :=
  Runs.Reaches.invariant hstep h h0

/-! ## A short run

The download of a file that holds the one byte `a`, from a peer that connects
to us, announces the piece and stops choking us. -/

/-- The digest of the byte `a`, and another value everywhere else. -/
def sha1OfA (data : List Byte) : List ℕ :=
  if data = [97] then [0x86f7e437, 0xfaa5a7fc, 0xe15d1ddc, 0xb9eaeaea, 0x377667b8]
  else [0, 0, 0, 0, 0]

/-- A handshake for an info hash of zeros. -/
def zeroHandshake : List Byte := 19 :: protocolName ++ List.replicate 48 0

def oneByteFile : ParsedFile where
  hashes := [Torrent.pieceHash sha1OfA [97]]
  pieceLength := 32768
  totalSize := 1
  file := []
  handshake := zeroHandshake

def oneByteRun : List Label :=
  [.accepted (some 1), .handshake 0 zeroHandshake, .frame 0 5 [128] {}, .frame 0 1 [] {},
    .frame 0 7 [0, 0, 0, 0, 0, 0, 0, 0, 97] {}]

theorem oneByteRun_isSome :
    (Runs.exec (step sha1OfA) oneByteFile.start oneByteRun).isSome = true := by
  decide +kernel

/-- The client after the run. -/
def oneByteDone : World :=
  (Runs.exec (step sha1OfA) oneByteFile.start oneByteRun).get oneByteRun_isSome

theorem oneByteRun_exec :
    Runs.exec (step sha1OfA) oneByteFile.start oneByteRun = some oneByteDone := by
  rw [oneByteDone, Option.some_get]

theorem oneByteDone_reachable : Reachable sha1OfA oneByteFile oneByteDone :=
  ⟨oneByteRun, oneByteRun_exec⟩

/-- The one-byte download, after which the peer is interested. -/
def servingRun : List Label := oneByteRun ++ [.frame 0 2 [] {}]

theorem servingRun_isSome :
    (Runs.exec (step sha1OfA) oneByteFile.start servingRun).isSome = true := by
  decide +kernel

/-- The client after the run, which can serve the piece. -/
def serving : World := (Runs.exec (step sha1OfA) oneByteFile.start servingRun).get servingRun_isSome

theorem servingRun_exec :
    Runs.exec (step sha1OfA) oneByteFile.start servingRun = some serving := by
  rw [serving, Option.some_get]

theorem serving_reachable : Reachable sha1OfA oneByteFile serving :=
  ⟨servingRun, servingRun_exec⟩

end YTorrent
