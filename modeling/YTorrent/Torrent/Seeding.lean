import YTorrent.Torrent.Bitfield
import YTorrent.Torrent.FileBytes
import YTorrent.Torrent.Swarm
import YTorrent.Torrent.Upload

/-!
# Seeding

The upload side of one connection. A client that has every piece and awaits a
message of `q` (`Seeding`) is ready for the next one after each of these:

* `Seeding.unchokes`: an INTERESTED is answered with an UNCHOKE, once;
* `Seeding.serves`: then a REQUEST for a block of a piece is answered with the
  block of the content;
* `welcoming_accepted`, `Welcoming.greets`: a client that has accepted a connection
  answers the handshake with its own and a BITFIELD, and is seeding then.
-/

namespace YTorrent

open World Peer Slice

/-- An environment in which the disk works. -/
structure Env.Works (env : Env) : Prop where
  seek : env.fseekFails = false
  write : 2 ^ 32 ≤ env.fwriteLimit
  read : maxBlockRequestSize ≤ env.freadLimit
  opened : env.fopenFails = false

instance (env : Env) : Decidable env.Works :=
  decidable_of_iff (env.fseekFails = false ∧ 2 ^ 32 ≤ env.fwriteLimit ∧
    maxBlockRequestSize ≤ env.freadLimit ∧ env.fopenFails = false)
    ⟨fun h => ⟨h.1, h.2.1, h.2.2.1, h.2.2.2⟩, fun h => ⟨h.seek, h.write, h.read, h.opened⟩⟩

/-- Every position of the file and of the content is a file offset. -/
structure OffsetsFit (f : ParsedFile) (C : List Byte) : Prop where
  file : f.file.length < 2 ^ 63
  content : C.length < 2 ^ 63

/-- The step by which a message of `p` is handled. -/
def Message.label (p : PeerId) (env : Env) : Message → Label
  | .handshake bytes => .handshake p bytes
  | m => .frame p m.call.messageID m.call.payload env

/-- The client handles the message `m` of `p`, is `w'` then, and has written `ms` to `p`. -/
structure Handled (sha1 : List Byte → List ℕ) (w : World) (p : PeerId) (env : Env) (m : Message)
    (w' : World) (ms : List Message) : Prop where
  step : YTorrent.step sha1 w (m.label p env) = some w'
  messages : w'.messages p = w.messages p ++ ms

/-- The client has every piece and awaits a message of `q`, which it is choking or not. -/
structure Seeding (sha1 : List Byte → List ℕ) (f : ParsedFile) (w : World) (q : PeerId)
    (choked : Bool) : Prop where
  reachable : Reachable sha1 f w
  awaits : Awaits w q
  full : ∀ i < f.hashes.length, w.torrent.isFinished i = true
  choking : (w.peers q).amChoking = choked
  interested : choked = false → (w.peers q).peerInterested = true

variable {sha1 : List Byte → List ℕ} {f : ParsedFile} {C : List Byte} {w w' : World}
  {p q : PeerId} {env : Env} {payload : List Byte} {choked : Bool} {i k : ℕ}

/-- A message of `p` is handled when it is awaited. -/
theorem Awaits.handles (h : Awaits w p) (sha1 : List Byte → List ℕ) (env : Env) (messageID : Byte)
    (payload : List Byte) : step sha1 w (.frame p messageID payload env) =
      some (Peer.handleMessage sha1 (takeRead w p) p env messageID payload) :=
  h.step_frame messageID

/-! ## INTERESTED -/

theorem handleMessage_interested : Peer.handleMessage sha1 w p env MessageID.interested.toByte [] =
    Connection.read
      ((w.setPeer p { w.peers p with peerInterested := true, amChoking := false }).log
        (sentEvents (w.peers p).conn p (if (w.peers p).amChoking then [.unchoke] else [])))
      p .message := by
  have hmsg : Peer.handleMessage sha1 w p env MessageID.interested.toByte [] =
      (handleInterested w p { dataBuffer := [] }).next p := by
    rw [handleMessage_eq]
    rfl
  have hsize : ¬ IncomingMessage.getSize { dataBuffer := [] } ≠ 0 := not_not.mpr rfl
  rw [hmsg, handleInterested, expectEmpty, if_neg hsize, Flow.next_brk]
  by_cases hc : (w.peers p).amChoking = true
  · simp [hc, write_eq, setPeer, log]
  · simp [hc, setPeer, log]

/-- An INTERESTED is answered with an UNCHOKE by a client that is choking the peer. -/
theorem Seeding.unchokes (h : Seeding sha1 f w q choked) (env : Env) :
    ∃ w', Handled sha1 w q env .interested w' (if choked then [.unchoke] else []) ∧
      Seeding sha1 f w' q false := by
  have hstep := h.awaits.handles sha1 env MessageID.interested.toByte []
  rw [handleMessage_interested] at hstep
  have hopen : ((takeRead w q).peers q).conn.isOpen = true := by
    simpa [takeRead] using h.awaits.ready.1
  refine ⟨_, ⟨hstep, ?_⟩, ⟨h.reachable.step hstep, awaits_read h.awaits.running ?_, ?_, ?_, ?_⟩⟩
  · rw [messages_read, messages_log, messages_sentEvents, if_pos ⟨rfl, hopen⟩]
    simp [takeRead, h.choking]
  · simpa using hopen
  · exact fun j hj => isFinished_mono (.single hstep) (h.full j hj)
  · simp
  · simp

/-! ## REQUEST -/

/-- The blocks of a piece can be read from a file that has the piece. -/
theorem Seeding.reads (h : Seeding sha1 f w q choked) (hd : Describes sha1 f C)
    (hfree : CollisionFree sha1 f C) (hfit : OffsetsFit f C) (hworks : env.Works)
    (hi : i < f.hashes.length) (hk : k < numBlocks (f.start.torrent.pieceSize i)) :
    ReadsSucceed w.torrent env i (k * maxBlockRequestSize)
        (blockLength (f.start.torrent.pieceSize i) k) ∧
      slice w.torrent.file (i * w.torrent.pieceLength + k * maxBlockRequestSize)
          (blockLength (f.start.torrent.pieceSize i) k) =
        trueData C f.pieceLength (blockId f.start.torrent.pieceSize i k) := by
  have hend := block_end_le hk
  have hfile : w.torrent.file.length < 2 ^ 63 :=
    (h.reachable.length_file_le hd hfree).trans_lt (max_lt hfit.file hfit.content)
  have hpl : w.torrent.pieceLength = f.pieceLength := h.reachable.layout.2.1
  have hlen : (chunk C f.pieceLength i).length = f.start.torrent.pieceSize i := by
    rw [hd.pieceSize_eq hi, length_chunk]
  have hdata : slice w.torrent.file (i * f.pieceLength) (chunk C f.pieceLength i).length =
      chunk C f.pieceLength i :=
    (h.reachable.holds hd hfree).data i ((isFinished_iff w i).mp (h.full i hi))
  have hcontent : slice C (i * f.pieceLength) (chunk C f.pieceLength i).length =
      chunk C f.pieceLength i := slice_length_slice ..
  have hpos : 0 < (chunk C f.pieceLength i).length := by
    rw [hlen]
    exact pieceSize_pos hd.pieceLength_pos i
  have hinside : i * f.pieceLength + (chunk C f.pieceLength i).length ≤ w.torrent.file.length := by
    have hall := congrArg List.length hdata
    rw [length_slice] at hall
    omega
  rw [hpl]
  refine ⟨⟨?_, hfile, hworks.seek, (blockLength_le _ _).trans hworks.read, .inr hworks.opened⟩, ?_⟩
  · rw [hpl]
    omega
  · exact slice_inside (hdata.trans hcontent.symm) (by omega)

/-- A REQUEST for a block is answered with the block of the content. -/
theorem Seeding.serves (h : Seeding sha1 f w q false) (hd : Describes sha1 f C)
    (hfree : CollisionFree sha1 f C) (hfit : OffsetsFit f C) (hn : f.hashes.length ≤ 2 ^ 32)
    (hsize : f.start.torrent.pieceSize i < 2 ^ 32) (hworks : env.Works) (hi : i < f.hashes.length)
    (hk : k < numBlocks (f.start.torrent.pieceSize i)) :
    ∃ w', Handled sha1 w q env
        (.request i (k * maxBlockRequestSize) (blockLength (f.start.torrent.pieceSize i) k)) w'
        [.pieceBlock i (k * maxBlockRequestSize)
          (trueData C f.pieceLength (blockId f.start.torrent.pieceSize i k))] ∧
      Seeding sha1 f w' q false := by
  have hend := block_end_le hk
  have hlt : i < 2 ^ 32 := hi.trans_le hn
  have hfields := requestFields_write hlt (show k * maxBlockRequestSize < 2 ^ 32 by omega)
    (show blockLength (f.start.torrent.pieceSize i) k < 2 ^ 32 by omega)
  have hsizes := h.reachable.pieceSize
  have hi' : i < w.torrent.pieces.length := h.reachable.length_pieces ▸ hi
  obtain ⟨hreads, hblock⟩ := h.reads hd hfree hfit hworks hi hk
  have hstep := h.awaits.handles sha1 env MessageID.request.toByte
    (Message.request i (k * maxBlockRequestSize)
      (blockLength (f.start.torrent.pieceSize i) k)).payload
  obtain ⟨hopen, heq⟩ := step_request hstep rfl hfields hi' (h.full i hi)
  have hserved := @handleBlockRequest_served (takeRead w q) q env _ _ _ hi' (blockLength_pos hk)
    (hsizes ▸ hend) hreads
  have hlen := blockLength_le (f.start.torrent.pieceSize i) k
  have hblock' : slice (takeRead w q).torrent.file
      (i * (takeRead w q).torrent.pieceLength + k * maxBlockRequestSize)
        (blockLength (f.start.torrent.pieceSize i) k) =
      trueData C f.pieceLength (blockId f.start.torrent.pieceSize i k) := hblock
  rw [if_neg (by simp [h.interested rfl]), if_neg (by simp [h.choking]), if_neg (by omega),
    hserved, hblock', u32_of_lt hlt, u32_of_lt (show k * maxBlockRequestSize < 2 ^ 32 by omega)]
    at heq
  rw [heq] at hstep
  refine ⟨_, ⟨hstep, ?_⟩, ⟨h.reachable.step hstep, awaits_read h.awaits.running ?_, ?_, ?_, ?_⟩⟩
  · simp [messages_sentEvents, takeRead, hopen]
  · simpa [takeRead] using hopen
  · exact fun j hj => isFinished_mono (.single hstep) (h.full j hj)
  · simp [takeRead, h.choking]
  · simp [takeRead, h.interested]

/-! ## The handshake -/

/-- The client has every piece, has accepted the connection of `q` and awaits the
    handshake on it. -/
structure Welcoming (sha1 : List Byte → List ℕ) (f : ParsedFile) (w : World) (q : PeerId) :
    Prop where
  reachable : Reachable sha1 f w
  running : w.running = true
  full : ∀ i < f.hashes.length, w.torrent.isFinished i = true
  isOpen : (w.peers q).conn.isOpen = true
  pending : (w.peers q).conn.pending = .handshakeIn
  choking : (w.peers q).amChoking = true

/-- A client that has every piece accepts a connection. -/
theorem welcoming_accepted {remote : Option ℕ} (h : Reachable sha1 f w)
    (hfull : ∀ i < f.hashes.length, w.torrent.isFinished i = true)
    (hs : step sha1 w (.accepted remote) = some w') : Welcoming sha1 f w' w.peerCount ∧
      w'.messages w.peerCount = w.messages w.peerCount := by
  obtain ⟨hrun, heff⟩ := step_effect hs
  have hmono : ∀ i < f.hashes.length, w'.torrent.isFinished i = true := fun i hi =>
    isFinished_mono (.single hs) (hfull i hi)
  cases heff with
  | accepted =>
    exact ⟨⟨h.step hs, hrun, hmono, by simp [newPeer], by simp [newPeer], by simp [newPeer]⟩, rfl⟩

/-- It answers the handshake with its own and a BITFIELD that announces every piece. -/
theorem Welcoming.greets (h : Welcoming sha1 f w q) (env : Env) {bytes : List Byte}
    (hlen : bytes.length = 68) (href : handshakeRefused f.handshake bytes = false) :
    ∃ w', Handled sha1 w q env (.handshake bytes) w'
        [.handshake f.handshake, .bitfield w.torrent.getRawBitfield] ∧
      (∀ i < f.hashes.length, i ∈ bitfieldIndexes w.torrent.getRawBitfield f.hashes.length) ∧
      Seeding sha1 f w' q true := by
  have hhand : (takeRead w q).torrent.handshake = f.handshake := h.reachable.handshake
  have hstep : step sha1 w (.handshake q bytes) =
      some (Peer.authenticateHandshake (takeRead w q) q bytes) := by
    simp [step, h.running, h.isOpen, hlen, h.pending]
  have hopen : ((takeRead w q).peers q).conn.isOpen = true := by simpa [takeRead] using h.isOpen
  rw [authenticateHandshake_eq (hhand ▸ href), hhand] at hstep
  refine ⟨_, ⟨hstep, ?_⟩, fun i hi => ?_,
    ⟨h.reachable.step hstep, awaits_read h.running ?_, ?_, ?_, ?_⟩⟩
  · rw [messages_read, messages_log, messages_sentEvents, if_pos ⟨rfl, hopen⟩]
    rfl
  · have hlen : w.torrent.bitfield.length = f.hashes.length :=
      (bitfield_length h.reachable).trans h.reachable.length_pieces
    have hbits : w.torrent.bitfield = w.ledger.finished := h.reachable.consistent.bits
    rw [mem_bitfieldIndexes_getRawBitfield hlen, hbits]
    exact (isFinished_iff w i).mp (h.full i hi)
  · simpa [Torrent.handshaked] using hopen
  · exact fun j hj => isFinished_mono (.single hstep) (h.full j hj)
  · simp [Torrent.handshaked, takeRead, h.choking]
  · intro hno
    cases hno

end YTorrent
