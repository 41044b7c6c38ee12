import YTorrent.Torrent.Seeding

/-!
# Fetching

The download side of one connection, with a peer that has every piece and answers
every REQUEST. The client has at most one piece queued for it (`Leech`, `Fetching`).

* `Leech.greeted`, `Fetching.bitfield`: after the handshake and the BITFIELD a piece
  is selected, unless every piece is finished (`Selected`);
* `Fetching.unchoke`: an UNCHOKE requests its blocks;
* `Fetching.stores`: a block that is not the last is stored;
* `Fetching.completes`: the last one finishes the piece, and the next is selected.
-/

namespace YTorrent

open World Peer Slice

/-- The REQUEST for a block. -/
def ask (b : BlockId) : Message := .request b.1 b.2.1 b.2.2

/-- The PIECE frame for a block. -/
def answer (truth : BlockId → List Byte) (b : BlockId) : Message := .pieceBlock b.1 b.2.1 (truth b)

/-- The client is choking `p`, is choked by it or not, has `entries` queued for it, and
    can select every other piece that is not finished. -/
structure Leech (w : World) (p : PeerId) (entries : List Peer.Piece) (choked : Bool) : Prop where
  running : w.running = true
  isOpen : (w.peers p).conn.isOpen = true
  amChoking : (w.peers p).amChoking = true
  peerChoking : (w.peers p).peerChoking = choked
  queue : (w.peers p).pieceQueue = entries
  room : ∀ (i : ℕ) piece, w.torrent.pieces[i]? = some piece → piece.finished = false →
    (∀ e ∈ entries, e.index ≠ i) → piece.priority < int32Max

/-- The client awaits a message of `p`, which has announced every piece. -/
structure Fetching (sha1 : List Byte → List ℕ) (f : ParsedFile) (w : World) (p : PeerId)
    (entries : List Peer.Piece) (choked : Bool) : Prop extends Leech w p entries choked where
  reachable : Reachable sha1 f w
  pending : (w.peers p).conn.pending = .message
  has : ∀ i < f.hashes.length, (w.peers p).hasPiece i = true

/-- The client has selected its next piece from `p` and has written `ms`, or every
    piece is finished. -/
inductive Selected (sha1 : List Byte → List ℕ) (f : ParsedFile) (w : World) (p : PeerId)
    (choked : Bool) : List Message → Prop
  | done (h : Fetching sha1 f w p [] choked)
    (hall : ∀ i < f.hashes.length, w.torrent.isFinished i = true) : Selected sha1 f w p choked []
  | next (i : ℕ) (hi : i < f.hashes.length) (hopen : w.torrent.isFinished i = false)
    (h : Fetching sha1 f w p [Piece.new i (numBlocks (f.start.torrent.pieceSize i))] choked) :
    Selected sha1 f w p choked
      (.interested :: if choked then [] else (pieceBlocks f.start.torrent.pieceSize i).map ask)

variable {sha1 : List Byte → List ℕ} {f : ParsedFile} {C : List Byte} {u v w w' : World}
  {p : PeerId} {env : Env} {payload raw : List Byte} {choked : Bool} {i k n : ℕ} {e : Peer.Piece}
  {entries : List Peer.Piece} {size : ℕ → ℕ} {truth : BlockId → List Byte} {b : BlockId}
  {live : List BlockId}

theorem Fetching.awaits (h : Fetching sha1 f w p entries choked) : Awaits w p :=
  ⟨h.running, h.isOpen, h.pending⟩

/-- The read behind the handling of a message. -/
theorem Leech.read (h : Leech v p entries choked)
    (hhas : ∀ i < f.hashes.length, (v.peers p).hasPiece i = true)
    (hw : Reachable sha1 f (Connection.read v p .message)) :
    Fetching sha1 f (Connection.read v p .message) p entries choked where
  running := by rw [read_running, h.running]
  isOpen := by rw [read_isOpen, h.isOpen]
  amChoking := by rw [read_amChoking, h.amChoking]
  peerChoking := by rw [read_peerChoking, h.peerChoking]
  queue := by rw [read_pieceQueue, h.queue]
  room := by
    rw [read_torrent]
    exact h.room
  reachable := hw
  pending := by rw [read_conn, if_pos h.isOpen]
  has i hi := by rw [read_hasPiece, hhas i hi]

/-! ## Selecting a piece -/

theorem Sized.requests_eq {t : Torrent} (hz : Sized n t.pieceSize truth) (hi : i < n) :
    YTorrent.requests t i = (pieceBlocks t.pieceSize i).map ask := by
  have hu : u32 i = i := u32_of_lt (hi.trans_le hz.count)
  rw [← hz.pairs hi, List.map_map]
  rfl

/-- Where no piece can be selected every piece is finished. -/
theorem Leech.all_finished (h : Leech u p [] choked) (hcons : u.ledger.Consistent)
    (hhas : ∀ i < u.torrent.pieces.length, (u.peers p).hasPiece i = true)
    (hnone : u.torrent.isFullyDownloaded = true ∨
      Torrent.selected u.torrent (u.peers p) = none) (hi : i < u.torrent.pieces.length) :
    u.torrent.isFinished i = true := by
  have hlen : i < u.ledger.finished.length := by simpa [World.ledger] using hi
  rcases hnone with hfull | hsel
  · rw [isFinished_iff]
    exact all_finished_of_completed hcons (by simpa [Torrent.isFullyDownloaded] using hfull) hlen
  · by_contra hopen
    have hpiece := List.getElem?_eq_getElem hi
    have hfin : (u.torrent.pieces[i]).finished = false := by
      simpa [Torrent.isFinished, hpiece] using hopen
    have hlow := h.room i _ hpiece hfin (by simp)
    have hhigh := Torrent.selected_none hsel hpiece hfin (hhas i hi)
    omega

/-- After a selection the client fetches a piece, or every piece is finished. -/
theorem Leech.select (h : Leech u p [] choked)
    (hz : Sized f.hashes.length f.start.torrent.pieceSize truth)
    (hhas : ∀ i < f.hashes.length, (u.peers p).hasPiece i = true) (hsel : SelectEffect u p v)
    (hw : Reachable sha1 f (Connection.read v p .message)) :
    ∃ ms, (Connection.read v p .message).messages p = u.messages p ++ ms ∧
      Selected sha1 f (Connection.read v p .message) p choked ms := by
  have hn := hw.length_pieces
  have hsize := hw.pieceSize
  have hcons := hw.consistent
  rw [read_torrent] at hn hsize
  rw [ledger_read, ledger_select p hsel] at hcons
  cases hsel with
  | none hnone =>
    refine ⟨[], by simp, .done (h.read hhas hw) fun i hi => ?_⟩
    rw [read_torrent]
    exact h.all_finished hcons (hn ▸ hhas) hnone (hn ▸ hi)
  | requested i hfull hi =>
    obtain ⟨piece, hpiece, hopen, -⟩ := Torrent.selected_some hi
    have hlen : u.torrent.pieces.length = f.hashes.length := by
      simpa [Torrent.raisePriority] using hn
    have hlt : i < f.hashes.length := hlen ▸ (List.getElem?_eq_some_iff.mp hpiece).1
    have hu : u32 i = i := u32_of_lt (hlt.trans_le hz.count)
    have hu' : u32 (f.start.torrent.pieceSize i) = f.start.torrent.pieceSize i :=
      u32_of_lt (hz.size_lt i hlt)
    have hps : u.torrent.pieceSize = f.start.torrent.pieceSize := by
      rw [← hsize]
      funext k
      exact (pieceSize_raisePriority u.torrent i k).symm
    have hms : pieceRequestMessages (u.peers p) u.torrent (u32 i) = .interested ::
        if choked then [] else (pieceBlocks f.start.torrent.pieceSize i).map ask := by
      rw [hu, pieceRequestMessages, h.peerChoking, ← hps]
      rw [← hps] at hz
      rw [hz.requests_eq hlt]
    refine ⟨_, ?_, .next i hlt ?_ (Leech.read ⟨?_, ?_, ?_, ?_, ?_, ?_⟩ ?_ hw)⟩
    · rw [messages_read, messages_log, messages_sentEvents, if_pos ⟨rfl, h.isOpen⟩, hms]
      rfl
    · rw [read_torrent, log_torrent, setPeer_torrent, setTorrent_torrent,
        isFinished_raisePriority]
      simp [Torrent.isFinished, hpiece, hopen]
    · exact h.running
    · simpa [queuePiece] using h.isOpen
    · simpa [queuePiece] using h.amChoking
    · simpa [queuePiece] using h.peerChoking
    · simp [queuePiece, h.queue, hu, hu', hps]
    · intro j piece hj hfin hne
      have hji : i ≠ j := hne _ (List.mem_singleton_self _)
      refine h.room j piece ?_ hfin (by simp)
      simpa [Torrent.raisePriority, List.getElem?_modify, hji] using hj
    · simpa [queuePiece, hasPiece] using hhas

/-! ## The handshake and the BITFIELD -/

/-- The operation pending on the connection of `p` has completed. -/
theorem Leech.takeRead (h : Leech w p entries choked) :
    Leech (takeRead w p) p entries choked where
  running := h.running
  isOpen := by simpa [YTorrent.takeRead] using h.isOpen
  amChoking := by simpa [YTorrent.takeRead] using h.amChoking
  peerChoking := by simpa [YTorrent.takeRead] using h.peerChoking
  queue := by simpa [YTorrent.takeRead] using h.queue
  room := h.room

/-- The handshake on a connection we opened is accepted. -/
theorem Leech.greeted (h : Leech w p entries choked) (hw : Reachable sha1 f w)
    (hpend : (w.peers p).conn.pending = .handshakeOut) (env : Env) {bytes : List Byte}
    (hlen : bytes.length = 68) (href : handshakeRefused f.handshake bytes = false) :
    ∃ w', Handled sha1 w p env (.handshake bytes) w' [] ∧ Reachable sha1 f w' ∧
      Leech w' p entries choked ∧ (w'.peers p).conn.pending = .message ∧
      w'.torrent.isFinished = w.torrent.isFinished := by
  have hstep : step sha1 w (.handshake p bytes) =
      some (Connection.read (Torrent.handshaked (YTorrent.takeRead w p) p) p .message) := by
    have hhand : handshakeRefused (YTorrent.takeRead w p).torrent.handshake bytes = false :=
      hw.handshake ▸ href
    simp [step, h.running, h.isOpen, hlen, hpend, Peer.connectHandshake, hhand]
  have htake := h.takeRead
  refine ⟨_, ⟨hstep, ?_⟩, hw.step hstep, ⟨?_, ?_, ?_, ?_, ?_, ?_⟩, ?_, ?_⟩
  · rw [messages_read, List.append_nil]
    rfl
  · rw [read_running]
    exact h.running
  · rw [read_isOpen]
    exact htake.isOpen
  · rw [read_amChoking]
    exact htake.amChoking
  · rw [read_peerChoking]
    exact htake.peerChoking
  · rw [read_pieceQueue]
    exact htake.queue
  · rw [read_torrent]
    exact h.room
  · rw [read_conn]
    exact congrArg Connection.pending (if_pos htake.isOpen)
  · rw [read_torrent]
    rfl

/-- A BITFIELD that announces every piece leads to a selection. -/
theorem Leech.bitfield (h : Leech w p [] choked) (hw : Reachable sha1 f w)
    (hpend : (w.peers p).conn.pending = .message) (env : Env)
    (hz : Sized f.hashes.length f.start.torrent.pieceSize truth) (hraw : 1 ≤ raw.length)
    (hall : ∀ i < f.hashes.length, i ∈ bitfieldIndexes raw f.hashes.length) :
    ∃ w' ms, Handled sha1 w p env (.bitfield raw) w' ms ∧ Selected sha1 f w' p choked ms ∧
      w'.torrent.isFinished = w.torrent.isFinished := by
  have hawaits : Awaits w p := ⟨h.running, h.isOpen, hpend⟩
  obtain ⟨v, heq, hsel⟩ : ∃ v, Peer.handleMessage sha1 (YTorrent.takeRead w p) p env
    MessageID.bitfield.toByte raw = _ ∧ SelectEffect _ p v := handleMessage_bitfield hraw
  have hstep := hawaits.handles sha1 env MessageID.bitfield.toByte raw
  rw [heq] at hstep
  have htake := h.takeRead
  have hann : Leech ((YTorrent.takeRead w p).setPeer p (((YTorrent.takeRead w p).peers p).announce
      (bitfieldIndexes raw (YTorrent.takeRead w p).torrent.getTotalPieces))) p [] choked :=
    ⟨h.running, by simpa [announce] using htake.isOpen,
      by simpa [announce] using htake.amChoking, by simpa [announce] using htake.peerChoking,
      by simpa [announce] using htake.queue, h.room⟩
  have hn : (YTorrent.takeRead w p).torrent.getTotalPieces = f.hashes.length := hw.length_pieces
  obtain ⟨ms, hms, hsel'⟩ := hann.select hz (fun i hi => by
    rw [setPeer_peers_self, hn, hasPiece, announce, List.contains_iff_mem]
    exact List.mem_append_right _ (hall i hi)) hsel (hw.step hstep)
  refine ⟨_, ms, ⟨hstep, hms⟩, hsel', ?_⟩
  rw [read_torrent]
  exact hsel.isFinished

/-! ## UNCHOKE -/

theorem handleMessage_unchoke : Peer.handleMessage sha1 w p env MessageID.unchoke.toByte [] =
    Connection.read ((w.setPeer p { w.peers p with peerChoking := false }).log
      (sentEvents (w.peers p).conn p
        ((w.peers p).pieceQueue.flatMap fun e => requests w.torrent e.index))) p .message := by
  have hmsg : Peer.handleMessage sha1 w p env MessageID.unchoke.toByte [] =
      (handleUnchoke w p { dataBuffer := [] }).next p := by
    rw [handleMessage_eq]
    rfl
  have hsize : ¬ IncomingMessage.getSize { dataBuffer := [] } ≠ 0 := not_not.mpr rfl
  rw [hmsg, handleUnchoke, expectEmpty, if_neg hsize, Flow.next_brk,
    foldl_requestPiece _ (by simp)]
  simp

/-- An UNCHOKE requests the blocks of the piece queued. -/
theorem Fetching.unchoke (h : Fetching sha1 f w p [e] choked) (env : Env)
    (hz : Sized f.hashes.length f.start.torrent.pieceSize truth) (hi : e.index < f.hashes.length) :
    ∃ w', Handled sha1 w p env .unchoke w'
        ((pieceBlocks f.start.torrent.pieceSize e.index).map ask) ∧
      Fetching sha1 f w' p [e] false ∧ w'.torrent.isFinished = w.torrent.isFinished := by
  have hstep := h.awaits.handles sha1 env MessageID.unchoke.toByte []
  rw [handleMessage_unchoke] at hstep
  have htake := h.takeRead
  have hms : ((YTorrent.takeRead w p).peers p).pieceQueue.flatMap
      (fun e => requests (YTorrent.takeRead w p).torrent e.index) =
        (pieceBlocks f.start.torrent.pieceSize e.index).map ask := by
    have hps : (YTorrent.takeRead w p).torrent.pieceSize = f.start.torrent.pieceSize :=
      h.reachable.pieceSize
    rw [htake.queue, List.flatMap_singleton, ← hps]
    rw [← hps] at hz
    exact hz.requests_eq hi
  rw [hms] at hstep
  refine ⟨_, ⟨hstep, ?_⟩, Leech.read ⟨h.running, ?_, ?_, ?_, ?_, h.room⟩ ?_
    (h.reachable.step hstep), ?_⟩
  · rw [messages_read, messages_log, messages_sentEvents, if_pos ⟨rfl, htake.isOpen⟩]
    rfl
  · simpa using htake.isOpen
  · simpa using htake.amChoking
  · simp
  · simpa using htake.queue
  · simpa [YTorrent.takeRead, hasPiece] using h.has
  · rw [read_torrent]
    rfl

/-! ## Blocks -/

/-- What the answer for a block on its way carries. -/
theorem answer_fields (hs : Sound size truth [e] (b :: live)) (hz : Sized n size truth)
    (hi : e.index < n) : ∃ k < numBlocks (size e.index), b = blockId size e.index k ∧
      blockFields (answer truth b).payload = (e.index, k * maxBlockRequestSize) ∧
      slotOf (answer truth b).payload = k ∧
      (blockData (answer truth b).payload).length = blockLength (size e.index) k := by
  obtain ⟨e', he', k, hk, rfl, -⟩ := hs.lacked b List.mem_cons_self
  obtain rfl := List.mem_singleton.mp he'
  obtain ⟨hi', hk', -⟩ := hz.fields_lt hi hk
  have hfields : blockFields (answer truth (blockId size e'.index k)).payload =
      (e'.index, k * maxBlockRequestSize) := blockFields_write hi' hk' _
  refine ⟨k, hk, rfl, hfields, ?_, hz.length _ hi k hk⟩
  rw [slotOf, hfields, block_div]

/-- It is accepted. -/
theorem accepts_answer (hs : Sound size truth [e] (b :: live)) (hz : Sized n size truth)
    (hi : e.index < n) (hq : (w.peers p).pieceQueue = [e]) :
    Accepts w p (answer truth b).payload 0 e := by
  obtain ⟨k, hk, hb, hfields, hslot, hlen⟩ := answer_fields hs hz hi
  have hpos := blockLength_pos hk
  refine ⟨?_, hlen ▸ blockLength_le .., ?_, ?_⟩
  · rw [blockData, List.length_drop] at hlen
    omega
  · simp [hq, hfields, findPiece, List.findIdx?_cons]
  · rw [hslot, (hs.genuine _ (List.mem_singleton_self _)).total, u32_of_lt (hz.size_lt _ hi)]
    exact hk

/-- The slot it goes to is the one of the block. -/
theorem Sound.put_answer (hs : Sound size truth [e] (b :: live)) (hz : Sized n size truth)
    (hi : e.index < n) : Sound size truth [e.put (answer truth b).payload] live := by
  obtain ⟨k, hk, hb, -, hslot, hlen⟩ := answer_fields hs hz hi
  have hit : [e][0]? = some e := rfl
  exact hs.put hit (hz.size_lt _ hi) (by rw [hslot, hb]) rfl (by rw [hslot, hlen])

theorem handleMessage_pieceBlock : Peer.handleMessage sha1 w p env MessageID.pieceBlock.toByte
    payload = (handlePieceBlock sha1 w p env { dataBuffer := payload }).next p := by
  rw [handleMessage_eq]
  rfl

/-- The client after a block has been stored. -/
theorem Leech.storeBlock (h : Leech w p [e] choked) (payload : List Byte) :
    Leech (Peer.storeBlock w p payload 0 e) p [e.put payload] choked where
  running := h.running
  isOpen := by simpa [Peer.storeBlock] using h.isOpen
  amChoking := by simpa [Peer.storeBlock] using h.amChoking
  peerChoking := by simpa [Peer.storeBlock] using h.peerChoking
  queue := by simp [Peer.storeBlock, h.queue]
  room i piece hi hfin hne := by
    have hindex : (e.put payload).index ≠ i := hne _ (List.mem_singleton_self _)
    have hindex : e.index ≠ i := hindex
    exact h.room i piece hi hfin (by simpa using hindex)

/-- A block that is not the last of its piece is stored. -/
theorem Fetching.stores (h : Fetching sha1 f w p [e] choked) (env : Env)
    (hz : Sized f.hashes.length f.start.torrent.pieceSize truth) (hi : e.index < f.hashes.length)
    (hs : Sound f.start.torrent.pieceSize truth [e] (b :: live))
    (hopen : w.torrent.isFinished e.index = false) (hmore : e.haveBlocks + 1 ≠ e.totalBlocks) :
    ∃ w', Handled sha1 w p env (answer truth b) w' [] ∧
      Fetching sha1 f w' p [e.put (answer truth b).payload] choked ∧
      w'.torrent.isFinished = w.torrent.isFinished := by
  have hstep := h.awaits.handles sha1 env MessageID.pieceBlock.toByte (answer truth b).payload
  have htake := h.takeRead
  have hacc := accepts_answer hs hz hi htake.queue
  have hlt : (blockFields (answer truth b).payload).1 <
      (YTorrent.takeRead w p).torrent.pieces.length := by
    rw [← hacc.index_eq]
    exact h.reachable.length_pieces ▸ hi
  have hdone : (YTorrent.takeRead w p).torrent.doneValue env
      (blockFields (answer truth b).payload).1 = false := by
    rw [doneValue_of_lt hlt, ← hacc.index_eq]
    exact hopen
  rw [handleMessage_pieceBlock, handlePieceBlock_accepts hacc, if_neg (by simp [hdone]),
    if_neg (show ¬ (e.put _).haveBlocks = (e.put _).totalBlocks from hmore), Flow.next_brk] at hstep
  refine ⟨_, ⟨hstep, ?_⟩, (htake.storeBlock _).read ?_ (h.reachable.step hstep), ?_⟩
  · rw [messages_read, Peer.storeBlock, doneFault_of_lt hlt]
    simp [YTorrent.takeRead]
  · simpa [Peer.storeBlock, YTorrent.takeRead, hasPiece] using h.has
  · rw [read_torrent]
    rfl

/-- A buffer with the right hash is written when the disk works. -/
theorem handlePieceCompleted_stored (w : World) (p : PeerId) (piece : Peer.Piece) {index : ℕ}
    {data : List Byte}
    (hash : Torrent.checkPieceHash sha1 w.torrent data index = true) (hworks : env.Works)
    (hpos : u64 (index * w.torrent.pieceLength) < 2 ^ 63) (hlen : data.length ≤ 2 ^ 32) :
    Torrent.handlePieceCompleted sha1 w p env piece index data =
      (w.setTorrent (w.torrent.stored index data)).log (bitFault w.torrent index ++
        .pieceCompleted p piece data .stored :: haveEvents w index) := by
  have hseek :
      (decide (u64 (index * w.torrent.pieceLength) ≥ 2 ^ 63) || env.fseekFails) = false := by
    rw [hworks.seek, Bool.or_false, decide_eq_false (not_le.mpr hpos)]
  have hall : min data.length env.fwriteLimit = data.length :=
    Nat.min_eq_left (hlen.trans hworks.write)
  obtain ⟨x, hx, -⟩ := checkPieceHash_true hash
  have hlt : index < w.torrent.pieces.length := (List.getElem?_eq_some_iff.mp hx).1
  unfold Torrent.handlePieceCompleted
  simp only [hash, Bool.not_true, Bool.false_eq_true, if_false, hseek]
  simp [hall, setBit_eq, Torrent.modifyPiece, hlt, broadcastHave_eq, setTorrent, log,
    haveEvents, bitFault, Torrent.stored]

theorem isFinished_stored {t : Torrent} {data : List Byte} (hi : i < t.pieces.length) {j : ℕ} :
    (t.stored i data).isFinished j = true ↔ j = i ∨ t.isFinished j = true := by
  have hmap : (t.stored i data).pieces.map (·.finished) = (t.pieces.map (·.finished)).set i true :=
    finished_modify ..
  rw [isFinished_eq, isFinished_eq, hmap, List.getElem?_set]
  by_cases hij : i = j
  · subst hij
    simp [hi]
  · simp [hij, Ne.symm hij]

/-- The client after the last block has been stored, the piece finished and its entry
    erased. -/
theorem Leech.completed (h : Leech w p [e] choked) (data : List Byte) (es : List Event) :
    Leech (erasePiece ((w.setTorrent (w.torrent.stored e.index data)).log es) p 0) p [] choked where
  running := h.running
  isOpen := by simpa [erasePiece] using h.isOpen
  amChoking := by simpa [erasePiece] using h.amChoking
  peerChoking := by simpa [erasePiece] using h.peerChoking
  queue := by simp [erasePiece, h.queue]
  room i piece hi hfin hne := by
    have hi : (w.torrent.pieces.modify e.index ({ · with finished := true }))[i]? = some piece := hi
    rw [List.getElem?_modify] at hi
    obtain ⟨x, hx, hpiece⟩ := Option.map_eq_some_iff.mp hi
    by_cases hei : e.index = i
    · -- the piece that has just been finished
      rw [if_pos hei] at hpiece
      subst hpiece
      cases hfin
    · rw [if_neg hei] at hpiece
      subst hpiece
      exact h.room i x hx hfin (by simpa using hei)

/-- What a completion writes to a peer that we are choking. -/
theorem messages_completion (h : (w.peers p).amChoking = true) (i : ℕ) (piece : Peer.Piece)
    (data : List Byte) (r : Completion) :
    (bitFault w.torrent i ++ .pieceCompleted p piece data r :: haveEvents w i).filterMap
      (Event.message? p) = [] := by
  refine List.filterMap_eq_nil_iff.mpr fun v hv => ?_
  rcases List.mem_append.mp hv with hv | hv
  · rw [(mem_bitFault hv).2]
    rfl
  · rcases List.mem_cons.mp hv with rfl | hv
    · rfl
    · obtain ⟨q, -, hq, -, rfl⟩ := mem_haveEvents.mp hv
      have hqp : q ≠ p := by
        rintro rfl
        rw [h] at hq
        cases hq
      exact if_neg hqp

/-- The step that handles the last block of a piece. -/
theorem Fetching.step_last (h : Fetching sha1 f w p [e] choked)
    (hacc : Accepts (YTorrent.takeRead w p) p payload 0 e)
    (hopen : w.torrent.isFinished e.index = false) (hi : e.index < f.hashes.length)
    (hlast : e.haveBlocks + 1 = e.totalBlocks)
    (hash : Torrent.checkPieceHash sha1 w.torrent (e.put payload).pieceData e.index = true)
    (hworks : env.Works) (hpos : u64 (e.index * w.torrent.pieceLength) < 2 ^ 63)
    (hlen : (e.put payload).pieceData.length ≤ 2 ^ 32) :
    ∃ es v, es.filterMap (Event.message? p) = [] ∧
      SelectEffect (erasePiece (((Peer.storeBlock (YTorrent.takeRead w p) p payload 0 e).setTorrent
        (w.torrent.stored e.index (e.put payload).pieceData)).log es) p 0) p v ∧
      step sha1 w (.frame p MessageID.pieceBlock.toByte payload env) =
        some (Connection.read v p .message) := by
  have hlt : e.index < (YTorrent.takeRead w p).torrent.pieces.length :=
    h.reachable.length_pieces ▸ hi
  have hdone : ¬ (YTorrent.takeRead w p).torrent.doneValue env e.index = true := by
    rw [doneValue_of_lt hlt]
    exact Bool.eq_false_iff.mp hopen
  have hstored := handlePieceCompleted_stored
    (Peer.storeBlock (YTorrent.takeRead w p) p payload 0 e) p (e.put payload) hash hworks hpos hlen
  have hmsgs := messages_completion (h.takeRead.storeBlock payload).amChoking e.index
    (e.put payload) (e.put payload).pieceData .stored
  have hstep := h.awaits.handles sha1 env MessageID.pieceBlock.toByte payload
  rw [handleMessage_pieceBlock, handlePieceBlock_accepts hacc, ← hacc.index_eq, if_neg hdone,
    if_pos (show (e.put _).haveBlocks = (e.put _).totalBlocks from hlast), hstored] at hstep
  refine ⟨_, _, hmsgs, select_effect_of_ne _ p, hstep.trans ?_⟩
  have hrun : (YTorrent.takeRead w p).running = true := h.running
  simp [Peer.storeBlock, hrun]
  rfl

/-- The last block of a piece finishes it, and leads to a selection. -/
theorem Fetching.completes (h : Fetching sha1 f w p [e] choked) (hd : Describes sha1 f C)
    (hC : C.length < 2 ^ 63) (hworks : env.Works)
    (hz : Sized f.hashes.length f.start.torrent.pieceSize (trueData C f.pieceLength))
    (hi : e.index < f.hashes.length)
    (hs : Sound f.start.torrent.pieceSize (trueData C f.pieceLength) [e] (b :: live))
    (hopen : w.torrent.isFinished e.index = false) (hlast : e.haveBlocks + 1 = e.totalBlocks) :
    ∃ w' ms, Handled sha1 w p env (answer (trueData C f.pieceLength) b) w' ms ∧
      Selected sha1 f w' p choked ms ∧
      ∀ j, w'.torrent.isFinished j = true ↔ j = e.index ∨ w.torrent.isFinished j = true := by
  have hdata : (e.put (answer (trueData C f.pieceLength) b).payload).pieceData =
      (pieceBlocks f.start.torrent.pieceSize e.index).flatMap (trueData C f.pieceLength) :=
    ((hs.put_answer hz hi).genuine _ (List.mem_singleton_self _)).pieceData_eq
      (hz.size_lt _ hi) hlast
  have hlen : ((pieceBlocks f.start.torrent.pieceSize e.index).flatMap
      (trueData C f.pieceLength)).length ≤ 2 ^ 32 := by
    rw [hd.chunk_eq hi, length_chunk, ← hd.pieceSize_eq hi]
    exact (hz.size_lt _ hi).le
  have hpos : u64 (e.index * w.torrent.pieceLength) < 2 ^ 63 := by
    have hbegin := hd.begin_lt hi
    have hpl : w.torrent.pieceLength = f.pieceLength := h.reachable.layout.2.1
    rw [hpl, hd.u64_begin hi]
    omega
  obtain ⟨es, v, hes, hsel, hstep⟩ := h.step_last (accepts_answer hs hz hi h.takeRead.queue) hopen
    hi hlast (hdata ▸ hd.check h.reachable hi) hworks hpos (hdata ▸ hlen)
  have hstore := (h.takeRead.storeBlock (answer (trueData C f.pieceLength) b).payload).completed
    (e.put (answer (trueData C f.pieceLength) b).payload).pieceData es
  obtain ⟨ms, hms, hsel'⟩ := hstore.select hz (fun i hi => by
    simpa [erasePiece, Peer.storeBlock, YTorrent.takeRead, hasPiece] using h.has i hi)
    hsel (h.reachable.step hstep)
  refine ⟨_, ms, ⟨hstep, ?_⟩, hsel', fun j => ?_⟩
  · rw [hms]
    simp [erasePiece, Peer.storeBlock, hes, YTorrent.takeRead]
  · have hlt : e.index < w.torrent.pieces.length := h.reachable.length_pieces ▸ hi
    rw [read_torrent, hsel.isFinished]
    exact isFinished_stored hlt

end YTorrent
