import YTorrent.Torrent.Ledger

/-!
# Where queue entries and events come from

* `step_queue`: an entry of a `pieceQueue` was there before the step, or was
  queued by `selectPieceAndRequest`, or is an entry with the block of the frame
  stored in it.
* `step_trace`: what a step can add to the record of the run.
* `step_completed`: `handlePieceCompleted` is called only for an entry that the
  frame has completed.
-/

namespace YTorrent

open World Peer

variable {sha1 : List Byte → List ℕ} {w w' : World} {p q : PeerId} {env : Env} {messageID : Byte}
  {payload : List Byte}

theorem accepts_takeRead {it : ℕ} {piece : Peer.Piece} :
    Accepts (takeRead w p) p payload it piece ↔ Accepts w p payload it piece := by
  constructor <;> intro h
  · exact ⟨h.size_ge, h.size_le, by simpa [takeRead] using h.found, h.slot_lt⟩
  · exact ⟨h.size_ge, h.size_le, by simpa [takeRead] using h.found, h.slot_lt⟩

/-- The entry a block is stored in is in the queue. -/
theorem Peer.Accepts.mem {it : ℕ} {piece : Peer.Piece} (h : Accepts w p payload it piece) :
    piece ∈ (w.peers p).pieceQueue :=
  List.mem_of_getElem? (findPiece_some h.found).1

theorem Peer.Accepts.lt_length {it : ℕ} {piece : Peer.Piece} (h : Accepts w p payload it piece) :
    it < (w.peers p).pieceQueue.length :=
  (List.getElem?_eq_some_iff.mp (findPiece_some h.found).1).1

theorem Peer.Accepts.index_eq {it : ℕ} {piece : Peer.Piece} (h : Accepts w p payload it piece) :
    piece.index = (blockFields payload).1 :=
  (findPiece_some h.found).2

/-- The frame stores its block in `piece`: it is a PIECE_BLOCK for an entry of
    the queue, and the piece is not done. -/
structure Stores (w : World) (p : PeerId) (env : Env) (messageID : Byte) (payload : List Byte)
    (it : ℕ) (piece : Peer.Piece) : Prop where
  id : MessageID.ofByte messageID = some .pieceBlock
  accepts : Accepts w p payload it piece
  unfinished : w.torrent.doneValue env (blockFields payload).1 = false

instance (it : ℕ) (piece : Peer.Piece) : Decidable (Accepts w p payload it piece) :=
  decidable_of_iff (9 ≤ payload.length ∧ (blockData payload).length ≤ maxBlockRequestSize ∧
      findPiece (w.peers p).pieceQueue (blockFields payload).1 = some (it, piece) ∧
      slotOf payload < piece.totalBlocks)
    ⟨fun h => ⟨h.1, h.2.1, h.2.2.1, h.2.2.2⟩,
      fun h => ⟨h.size_ge, h.size_le, h.found, h.slot_lt⟩⟩

instance (it : ℕ) (piece : Peer.Piece) :
    Decidable (Stores w p env messageID payload it piece) :=
  decidable_of_iff (MessageID.ofByte messageID = some .pieceBlock ∧
      Accepts w p payload it piece ∧ w.torrent.doneValue env (blockFields payload).1 = false)
    ⟨fun h => ⟨h.1, h.2.1, h.2.2⟩, fun h => ⟨h.id, h.accepts, h.unfinished⟩⟩

/-- The entry `selectPieceAndRequest` queues for piece `i`. -/
def freshPiece (t : Torrent) (i : ℕ) : Peer.Piece :=
  Piece.new (u32 i) (numBlocks (u32 (t.pieceSize (u32 i))))

/-- Where an entry `e` of the queue of `q` comes from after a frame of `p`. -/
inductive QueueOrigin (w : World) (p : PeerId) (env : Env) (messageID : Byte) (payload : List Byte)
    (q : PeerId) (e : Peer.Piece) : Prop
  | kept (h : e ∈ (w.peers q).pieceQueue) : QueueOrigin w p env messageID payload q e
  | fresh (i : ℕ) (hi : i < w.torrent.pieces.length) (he : e = freshPiece w.torrent i) :
    QueueOrigin w p env messageID payload q e
  | updated (it : ℕ) (piece : Peer.Piece) (hq : q = p)
    (hst : Stores w p env messageID payload it piece) (he : e = piece.put payload) :
    QueueOrigin w p env messageID payload q e

/-! ## Queues after each effect -/

/-- The completion of a piece touches no peer. -/
theorem CompletionEffect.peers {piece : Peer.Piece} {i : ℕ} {data : List Byte}
    (h : CompletionEffect sha1 w p piece i data w') : w'.peers = w.peers := by
  cases h <;> rfl

theorem CompletionEffect.pieceSize {piece : Peer.Piece} {i : ℕ} {data : List Byte}
    (h : CompletionEffect sha1 w p piece i data w') :
    w'.torrent.pieces.length = w.torrent.pieces.length ∧
      w'.torrent.pieceSize = w.torrent.pieceSize := by
  cases h with
  | mismatch => exact ⟨rfl, rfl⟩
  | ioFailed => exact ⟨rfl, rfl⟩
  | stored =>
    have hlen : (w.torrent.stored i data).pieces.length = w.torrent.pieces.length :=
      List.length_modify ..
    exact ⟨hlen, funext fun k => pieceSize_congr hlen rfl rfl k⟩

/-- A selection keeps the queues of the other peers and appends at most one
    entry to that of `p`. -/
theorem SelectEffect.queue (h : SelectEffect w p w') (q : PeerId) :
    (w'.peers q).pieceQueue = (w.peers q).pieceQueue ∨
      q = p ∧ ∃ i < w.torrent.pieces.length,
        (w'.peers q).pieceQueue = (w.peers q).pieceQueue ++ [freshPiece w.torrent i] := by
  cases h with
  | none => exact .inl rfl
  | requested i hfull hsel =>
    by_cases hq : q = p
    · subst hq
      obtain ⟨x, hx, -⟩ := Torrent.selected_some hsel
      exact .inr ⟨rfl, i, (List.getElem?_eq_some_iff.mp hx).1, by simp [queuePiece, freshPiece]⟩
    · exact .inl (by simp [setPeer_peers_of_ne _ _ hq])

@[simp] theorem handleError_pieceQueue (w : World) (p q : PeerId) (e : PeerError) :
    ((handleError w p e).peers q).pieceQueue = (w.peers q).pieceQueue := by
  rw [handleError_eq]
  simp

theorem ServeEffect.queue {i begin length : ℕ} (h : ServeEffect w p i begin length w')
    (q : PeerId) : (w'.peers q).pieceQueue = (w.peers q).pieceQueue := by
  cases h <;> simp

theorem storeBlock_queue (it : ℕ) (piece : Peer.Piece) (q : PeerId) :
    ((storeBlock w p payload it piece).peers q).pieceQueue =
      if q = p then (w.peers p).pieceQueue.set it (piece.put payload)
      else (w.peers q).pieceQueue := by
  by_cases hq : q = p
  · subst hq; simp [storeBlock]
  · simp [storeBlock, setPeer_peers, hq]

theorem erasePiece_queue (w : World) (it : ℕ) (q : PeerId) :
    ((erasePiece w p it).peers q).pieceQueue =
      if q = p then (w.peers p).pieceQueue.eraseIdx it else (w.peers q).pieceQueue := by
  by_cases hq : q = p
  · subst hq; simp [erasePiece]
  · simp [erasePiece, setPeer_peers, hq]

theorem mem_storeBlock_queue {it : ℕ} {piece e : Peer.Piece}
    (hst : Stores w p env messageID payload it piece)
    (he : e ∈ ((storeBlock w p payload it piece).peers q).pieceQueue) :
    QueueOrigin w p env messageID payload q e := by
  rw [storeBlock_queue] at he
  by_cases hq : q = p
  · rw [if_pos hq] at he
    rcases List.mem_or_eq_of_mem_set he with h | rfl
    · exact .kept (hq ▸ h)
    · exact .updated it piece hq hst rfl
  · rw [if_neg hq] at he
    exact .kept he

/-- Where the queue entries come from after a frame. -/
theorem frame_queue (h : FrameEffect sha1 w p env messageID payload w') {e : Peer.Piece}
    (he : e ∈ (w'.peers q).pieceQueue) : QueueOrigin w p env messageID payload q e := by
  cases h with
  | ignored => exact .kept (by simpa using he)
  | refused => exact .kept (by simpa using he)
  | choke | unchoke | interested | notInterested | havePiece =>
    refine .kept ?_
    simp only [read_pieceQueue, log_peers, setPeer_peers] at he
    split at he
    · subst q; exact he
    · exact he
  | bitfield hid v hsel =>
    rw [read_pieceQueue] at he
    have hann : ((w.setPeer p ((w.peers p).announce
        (bitfieldIndexes payload w.torrent.getTotalPieces))).peers q).pieceQueue =
          (w.peers q).pieceQueue := by
      rw [setPeer_peers]
      split
      · subst q; rfl
      · rfl
    rcases hsel.queue q with hv | ⟨-, i, hi, hv⟩
    · exact .kept (by rwa [hv, hann] at he)
    · rw [hv, hann] at he
      rcases List.mem_append.mp he with he | he
      · exact .kept he
      · exact .fresh i hi (List.mem_singleton.mp he)
  | request hid hsize hint hchoke hlen v hserve =>
    refine .kept ?_
    rw [read_pieceQueue] at he
    rcases hserve with ⟨-, rfl⟩ | ⟨-, hserve⟩
    · simpa using he
    · rw [hserve.queue] at he
      simpa using he
  | cancelled hid it piece =>
    rw [read_pieceQueue, erasePiece_queue] at he
    refine .kept ?_
    split at he
    · subst q; exact List.mem_of_mem_eraseIdx he
    · exact he
  | stored hid it piece hacc hdone =>
    rw [read_pieceQueue] at he
    exact mem_storeBlock_queue ⟨hid, hacc, hdone⟩ he
  | ioFailed hid it piece hacc hdone hlast _ hcomp =>
    rw [hcomp.peers] at he
    exact mem_storeBlock_queue ⟨hid, hacc, hdone⟩ he
  | completed hid it piece hacc hdone hlast v v' hcomp hrun hsel =>
    obtain ⟨hlen, hsize⟩ := hcomp.pieceSize
    have herase : ∀ e ∈ ((erasePiece v p it).peers q).pieceQueue,
        QueueOrigin w p env messageID payload q e := by
      intro e' he'
      rw [erasePiece_queue, hcomp.peers] at he'
      refine mem_storeBlock_queue ⟨hid, hacc, hdone⟩ ?_
      split at he'
      · subst q; exact List.mem_of_mem_eraseIdx he'
      · exact he'
    rw [read_pieceQueue] at he
    rcases hsel.queue q with hv | ⟨-, i, hi, hv⟩
    · exact herase e (hv ▸ he)
    · rw [hv] at he
      rcases List.mem_append.mp he with he | he
      · exact herase e he
      · have hfresh : freshPiece (erasePiece v p it).torrent i = freshPiece w.torrent i := by
          simp only [freshPiece, erasePiece, setPeer_torrent, hsize]
          rfl
        exact .fresh i (hlen ▸ hi) (hfresh ▸ List.mem_singleton.mp he)

theorem Outside.queue (h : Outside w w') {e : Peer.Piece} (he : e ∈ (w'.peers q).pieceQueue) :
    e ∈ (w.peers q).pieceQueue := by
  obtain ⟨c, hc | ⟨-, hc⟩⟩ := h.peers q
  · rwa [hc] at he
  · rw [hc] at he
    cases he

/-! ## What a frame adds to the record -/

/-- The frame completes `piece`: it stores its block there and
    `handlePieceCompleted` is called. -/
structure Completes (w : World) (p : PeerId) (env : Env) (messageID : Byte) (payload : List Byte)
    (it : ℕ) (piece : Peer.Piece) : Prop extends Stores w p env messageID payload it piece where
  last : piece.haveBlocks + 1 = piece.totalBlocks

/-- The frame is a REQUEST of `p` that reaches the test whether the piece is done. -/
structure AsksPiece (w : World) (p : PeerId) (messageID : Byte) (payload : List Byte) : Prop where
  id : MessageID.ofByte messageID = some .request
  size : payload.length = 12
  interested : (w.peers p).peerInterested = true
  unchoked : (w.peers p).amChoking = false
  length_le : (requestFields payload).2.2 ≤ maxBlockRequestSize

/-- What the handling of a frame of `p` can add to the record. -/
inductive FrameEvent (w : World) (p : PeerId) (env : Env) (messageID : Byte) (payload : List Byte) :
    Event → Prop
  | reply (m : Message) (hm : m.isAnnouncement = false) :
    FrameEvent w p env messageID payload (.sent p m)
  | announce (q : PeerId) (it : ℕ) (piece : Peer.Piece)
    (h : Completes w p env messageID payload it piece) (hq : q ∈ w.torrent.activePeers)
    (hchoke : (w.peers q).amChoking = false) :
    FrameEvent w p env messageID payload (.sent q (.havePiece (u32 piece.index)))
  | error (e : PeerError) (h : Refusal w p messageID payload e) :
    FrameEvent w p env messageID payload (.error p e)
  | completed (it : ℕ) (piece : Peer.Piece) (r : Completion)
    (h : Completes w p env messageID payload it piece) :
    FrameEvent w p env messageID payload
      (.pieceCompleted p (piece.put payload) (piece.put payload).pieceData r)
  | requestFault (h : AsksPiece w p messageID payload)
    (hi : w.torrent.pieces.length ≤ (requestFields payload).1) :
    FrameEvent w p env messageID payload
      (.fault .pieces (requestFields payload).1 w.torrent.pieces.length)
  | blockFault (it : ℕ) (piece : Peer.Piece) (h : Accepts w p payload it piece)
    (hi : w.torrent.pieces.length ≤ piece.index) :
    FrameEvent w p env messageID payload (.fault .pieces piece.index w.torrent.pieces.length)
  | bitFault (it : ℕ) (piece : Peer.Piece) (h : Completes w p env messageID payload it piece)
    (hi : w.torrent.bitfield.length ≤ piece.index) :
    FrameEvent w p env messageID payload (.fault .bitfield piece.index w.torrent.bitfield.length)

theorem mem_doneFault {t : Torrent} {i : ℕ} {v : Event} (h : v ∈ doneFault t i) :
    t.pieces.length ≤ i ∧ v = .fault .pieces i t.pieces.length := by
  unfold doneFault at h
  split at h
  · cases h
  · exact ⟨by omega, List.mem_singleton.mp h⟩

theorem mem_bitFault {t : Torrent} {i : ℕ} {v : Event} (h : v ∈ bitFault t i) :
    t.bitfield.length ≤ i ∧ v = .fault .bitfield i t.bitfield.length := by
  unfold bitFault at h
  split at h
  · cases h
  · exact ⟨by omega, List.mem_singleton.mp h⟩

theorem not_announcement_of_mem_requests {t : Torrent} {i : ℕ} {m : Message}
    (h : m ∈ requests t i) : m.isAnnouncement = false := by
  obtain ⟨bl, -, rfl⟩ := List.mem_map.mp h
  rfl

theorem not_announcement_of_mem_cancels {t : Torrent} {i : ℕ} {m : Message}
    (h : m ∈ cancels t i) : m.isAnnouncement = false := by
  obtain ⟨bl, -, rfl⟩ := List.mem_map.mp h
  rfl

theorem not_announcement_of_mem_pieceRequest {x : Peer} {t : Torrent} {i : ℕ} {m : Message}
    (h : m ∈ pieceRequestMessages x t i) : m.isAnnouncement = false := by
  rcases List.mem_cons.mp h with rfl | h
  · rfl
  · split at h
    · cases h
    · exact not_announcement_of_mem_requests h

/-- Messages written to `p` that announce nothing. -/
theorem frameEvent_sent {c : Connection} {ms : List Message}
    (hms : ∀ m ∈ ms, m.isAnnouncement = false) :
    ∀ v ∈ sentEvents c p ms, FrameEvent w p env messageID payload v := by
  intro v h
  obtain ⟨-, m, hm, rfl⟩ := mem_sentEvents.mp h
  exact .reply m (hms m hm)

theorem SelectEffect.trace {u : World} (h : SelectEffect u p w') :
    u.Adds w' (FrameEvent w p env messageID payload) := by
  cases h with
  | none => exact .of_eq rfl
  | requested i hfull hsel =>
    exact .log _ (frameEvent_sent fun m hm => not_announcement_of_mem_pieceRequest hm)

theorem ServeEffect.trace {u : World} {i begin length : ℕ} (h : ServeEffect u p i begin length w') :
    u.Adds w' (FrameEvent w p env messageID payload) := by
  cases h with
  | refused => exact .of_eq rfl
  | silent => exact .of_eq rfl
  | sent block =>
    refine .log _ (frameEvent_sent fun m hm => ?_)
    rw [List.mem_singleton.mp hm]
    rfl

/-- What a completion adds to the record. -/
theorem CompletionEffect.trace {it : ℕ} {piece : Peer.Piece}
    (hc : Completes w p env messageID payload it piece)
    (h : CompletionEffect sha1 (storeBlock w p payload it piece) p (piece.put payload)
      (blockFields payload).1 (piece.put payload).pieceData w') :
    (storeBlock w p payload it piece).Adds w' (FrameEvent w p env messageID payload) := by
  have hindex := hc.accepts.index_eq
  have hcomp : ∀ r, FrameEvent w p env messageID payload
      (.pieceCompleted p (piece.put payload) (piece.put payload).pieceData r) :=
    fun r => .completed it piece r hc
  cases h with
  | mismatch hash => exact .log _ (by simpa using hcomp _)
  | ioFailed hash file hfile => exact ⟨_, rfl, by simpa using hcomp _⟩
  | stored hash hpos =>
    refine .log _ fun v hv => ?_
    simp only [List.mem_append, List.mem_cons] at hv
    rcases hv with hv | rfl | hv
    · obtain ⟨hi, rfl⟩ := mem_bitFault hv
      rw [← hindex] at hi ⊢
      exact .bitFault it piece hc hi
    · exact hcomp _
    · obtain ⟨q, hq, hchoke, -, rfl⟩ := mem_haveEvents.mp hv
      rw [← hindex]
      refine .announce q it piece hc hq ?_
      by_cases hqp : q = p
      · subst hqp
        simpa [storeBlock] using hchoke
      · simpa [storeBlock, setPeer_peers, hqp] using hchoke

theorem blockFault_trace {it : ℕ} {piece : Peer.Piece} (h : Accepts w p payload it piece) :
    ∀ v ∈ doneFault w.torrent (blockFields payload).1,
      FrameEvent w p env messageID payload v := by
  intro v hv
  obtain ⟨hi, rfl⟩ := mem_doneFault hv
  rw [← h.index_eq] at hi ⊢
  exact .blockFault it piece h hi

/-- What the handling of a frame adds to the record. -/
theorem FrameEffect.trace (h : FrameEffect sha1 w p env messageID payload w') :
    w.Adds w' (FrameEvent w p env messageID payload) := by
  cases h with
  | ignored => exact .of_eq (by simp)
  | refused e href =>
    rw [handleError_eq]
    exact ⟨_, rfl, by simpa using FrameEvent.error e href⟩
  | choke | notInterested | havePiece => exact .of_eq (by simp)
  | unchoke =>
    refine ⟨_, read_trace .., frameEvent_sent fun m hm => ?_⟩
    obtain ⟨e, -, hm⟩ := List.mem_flatMap.mp hm
    exact not_announcement_of_mem_requests hm
  | interested =>
    refine ⟨_, read_trace .., frameEvent_sent fun m hm => ?_⟩
    split at hm
    · rw [List.mem_singleton.mp hm]
      rfl
    · cases hm
  | bitfield hid u hsel =>
    have hu : w.Adds u (FrameEvent w p env messageID payload) := hsel.trace
    exact hu.trans (.of_eq (read_trace ..))
  | request hid hsize hint hchoke hlen u hserve =>
    have hfault : w.Adds (w.log (doneFault w.torrent (requestFields payload).1))
        (FrameEvent w p env messageID payload) := by
      refine .log _ fun v hv => ?_
      obtain ⟨hi, rfl⟩ := mem_doneFault hv
      exact .requestFault ⟨hid, hsize, hint, hchoke, hlen⟩ hi
    rcases hserve with ⟨-, rfl⟩ | ⟨-, hserve⟩
    · exact hfault.trans (.of_eq (read_trace ..))
    · exact (hfault.trans hserve.trace).trans (.of_eq (read_trace ..))
  | cancelled hid it piece hacc =>
    refine ⟨_, read_trace .., fun v hv => ?_⟩
    exact (List.mem_append.mp hv).elim (blockFault_trace hacc v)
      (frameEvent_sent (fun m hm => not_announcement_of_mem_cancels hm) v)
  | stored hid it piece hacc => exact ⟨_, read_trace .., blockFault_trace hacc⟩
  | ioFailed hid it piece hacc hdone hlast _ hcomp =>
    have hstore : w.Adds (storeBlock w p payload it piece)
        (FrameEvent w p env messageID payload) := .log _ (blockFault_trace hacc)
    exact hstore.trans (CompletionEffect.trace ⟨⟨hid, hacc, hdone⟩, hlast⟩ hcomp)
  | completed hid it piece hacc hdone hlast u u' hcomp hrun hsel =>
    have hstore : w.Adds (storeBlock w p payload it piece)
        (FrameEvent w p env messageID payload) := .log _ (blockFault_trace hacc)
    have hu := hstore.trans (CompletionEffect.trace ⟨⟨hid, hacc, hdone⟩, hlast⟩ hcomp)
    have hu' : u.Adds u' (FrameEvent w p env messageID payload) := hsel.trace
    exact (hu.trans hu').trans (.of_eq (read_trace ..))

/-! ## Steps -/

theorem Stores.of_takeRead {it : ℕ} {piece : Peer.Piece}
    (h : Stores (takeRead w p) p env messageID payload it piece) :
    Stores w p env messageID payload it piece :=
  ⟨h.id, accepts_takeRead.mp h.accepts, h.unfinished⟩

theorem Completes.of_takeRead {it : ℕ} {piece : Peer.Piece}
    (h : Completes (takeRead w p) p env messageID payload it piece) :
    Completes w p env messageID payload it piece :=
  ⟨h.toStores.of_takeRead, h.last⟩

/-- Where the queue entries come from after a step. -/
theorem step_queue {l : Label} (h : step sha1 w l = some w') {e : Peer.Piece}
    (he : e ∈ (w'.peers q).pieceQueue) :
    e ∈ (w.peers q).pieceQueue ∨ (∃ i < w.torrent.pieces.length, e = freshPiece w.torrent i) ∨
      ∃ messageID payload env it piece, l = .frame q messageID payload env ∧
        Stores w q env messageID payload it piece ∧ e = piece.put payload := by
  rcases step_cases h with ⟨p, messageID, payload, env, rfl, -, hf⟩ | hout
  · cases frame_queue hf he with
    | kept h => exact .inl (by simpa [takeRead] using h)
    | fresh i hi he => exact .inr (.inl ⟨i, hi, he⟩)
    | updated it piece hq hst he =>
      subst hq
      exact .inr (.inr ⟨messageID, payload, env, it, piece, rfl, hst.of_takeRead, he⟩)
  · exact .inl (hout.queue he)

theorem AsksPiece.of_takeRead (h : AsksPiece (takeRead w p) p messageID payload) :
    AsksPiece w p messageID payload :=
  ⟨h.id, h.size, by simpa [takeRead] using h.interested, by simpa [takeRead] using h.unchoked,
    h.length_le⟩

theorem Refusal.of_takeRead {e : PeerError} (h : Refusal (takeRead w p) p messageID payload e) :
    Refusal w p messageID payload e := by
  cases h with
  | invalidSize m hid h => exact .invalidSize m hid h
  | requestWithoutInterest hid h => exact .requestWithoutInterest hid (by simpa [takeRead] using h)
  | requestWhileChoked hid h => exact .requestWhileChoked hid (by simpa [takeRead] using h)
  | requestTooBig hid h => exact .requestTooBig hid h
  | tooBigBlock hid h => exact .tooBigBlock hid h
  | notAskedFor hid h => exact .notAskedFor hid (by simpa [takeRead] using h)
  | tooBigBlockIndex hid it piece hfind h =>
    exact .tooBigBlockIndex hid it piece (by simpa [takeRead] using hfind) h

theorem FrameEvent.of_takeRead {v : Event}
    (h : FrameEvent (takeRead w p) p env messageID payload v) :
    FrameEvent w p env messageID payload v := by
  cases h with
  | reply m hm => exact .reply m hm
  | announce q it piece h hq hchoke =>
    exact .announce q it piece h.of_takeRead hq (by simpa [takeRead] using hchoke)
  | error e h => exact .error e h.of_takeRead
  | completed it piece r h => exact .completed it piece r h.of_takeRead
  | requestFault h hi => exact .requestFault h.of_takeRead hi
  | blockFault it piece h hi => exact .blockFault it piece (accepts_takeRead.mp h) hi
  | bitFault it piece h hi => exact .bitFault it piece h.of_takeRead hi

/-- What a step adds to the record. -/
theorem step_trace {l : Label} (h : step sha1 w l = some w') :
    w.Adds w' fun v => v.IsJoin ∨ ∃ p messageID payload env,
      l = .frame p messageID payload env ∧ FrameEvent w p env messageID payload v := by
  rcases step_cases h with ⟨p, messageID, payload, env, rfl, -, hf⟩ | hout
  · exact Adds.mono hf.trace fun v hv => .inr ⟨p, messageID, payload, env, rfl, hv.of_takeRead⟩
  · exact hout.trace.mono fun v hv => .inl hv

/-- The steps that call `handlePieceCompleted`. -/
theorem step_completed {l : Label} (h : step sha1 w l = some w') {e : Peer.Piece} {data : List Byte}
    {r : Completion} (hv : .pieceCompleted p e data r ∈ w'.trace) :
    .pieceCompleted p e data r ∈ w.trace ∨ ∃ messageID payload env it piece,
      l = .frame p messageID payload env ∧ Completes w p env messageID payload it piece ∧
      e = piece.put payload ∧ data = (piece.put payload).pieceData := by
  rcases (step_trace h).mem hv with hv | hv | ⟨q, messageID, payload, env, rfl, hv⟩
  · exact .inl hv
  · exact hv.elim
  · cases hv with
    | completed it piece r hc => exact .inr ⟨messageID, payload, env, it, piece, rfl, hc, rfl, rfl⟩

end YTorrent
