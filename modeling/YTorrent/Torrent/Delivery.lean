import YTorrent.Torrent.Idle
import YTorrent.Torrent.Remote

/-!
# The client's end of a connection with a conformant remote

The client gets into trouble with a conformant remote in three ways: it requests a
block again that it has received or that is on its way (UNCHOKE requests every
queued piece in full, a selection can pick a piece that is queued), and it erases
the queue entry of a cancelled piece although blocks of it can still arrive.
`Careful` says that the handling of a frame does none of this.

* `Delivery.frame`: then the handling of a frame keeps the link.
* `Delivery.not_refused`, `Delivery.misses`: no PIECE frame of the remote is refused,
  and no buffer put together from its blocks misses its hash.
-/

namespace YTorrent

open World Peer Slice

/-- The errors the PIECE_BLOCK case raises, `requestPiece` included, which it leads to. -/
def PeerError.ofPieceBlock : PeerError → Bool
  | invalidSize m => m == .pieceBlock
  | tooBigBlock _ | notAskedFor _ | tooBigBlockIndex | remotelyChoked => true
  | _ => false

/-- The piece `selectPieceAndRequest` would pick is not in the queue. -/
def SelectsNew (t : Torrent) (x : Peer) (queue : List Peer.Piece) : Prop :=
  ∀ i ∈ Torrent.selected t x, ∀ e ∈ queue, e.index ≠ i

instance (t : Torrent) (x : Peer) (queue : List Peer.Piece) : Decidable (SelectsNew t x queue) := by
  unfold SelectsNew; infer_instance

/-- The client does not request a block again, nor erase an entry too early, when it
    handles the frame `c`, the next one of the remote `r` of `p`:
    * UNCHOKE finds no queued piece of which a block has been received or is on
      its way;
    * BITFIELD and the end of the PIECE_BLOCK case select no queued piece;
    * when a block of a finished piece arrives, no other block of it has been sent. -/
def Careful (sha1 : List Byte → List ℕ) (w : World) (p : PeerId) (r : Remote) (c : Call) : Prop :=
  match MessageID.ofByte c.messageID with
  | some .unchoke =>
    ∀ e ∈ (w.peers p).pieceQueue, e.filledSlots = 0 ∧ ∀ b ∈ r.live, b.1 ≠ e.index
  | some .bitfield =>
    SelectsNew w.torrent
      ((w.peers p).announce (bitfieldIndexes c.payload w.torrent.getTotalPieces))
      (w.peers p).pieceQueue
  | some .pieceBlock =>
    ∀ found ∈ findPiece (w.peers p).pieceQueue (blockFields c.payload).1,
      if w.torrent.isFinished found.2.index then
        ∀ c' ∈ r.taken.outbox, ∀ b ∈ c'.block?, b.1 ≠ found.2.index
      else
        found.2.haveBlocks + 1 = found.2.totalBlocks →
          SelectsNew (w.torrent.afterCompletion sha1 found.2.index
            (found.2.put c.payload).pieceData) (w.peers p)
              ((w.peers p).pieceQueue.eraseIdx found.1)
  | _ => True

instance (sha1 : List Byte → List ℕ) (w : World) (p : PeerId) (r : Remote) (c : Call) :
    Decidable (Careful sha1 w p r c) := by
  unfold Careful; split <;> infer_instance

variable {sha1 : List Byte → List ℕ} {w w' : World} {p q : PeerId} {env : Env} {r : Remote}
  {c : Call} {n : ℕ} {size : ℕ → ℕ} {truth : BlockId → List Byte} {i : ℕ}

/-! ## What the client writes -/

@[simp] theorem messages_doneFault (t : Torrent) (i : ℕ) :
    (doneFault t i).filterMap (Event.message? q) = [] := by
  unfold doneFault
  split <;> rfl

/-- A message that neither requests nor cancels a block. -/
def Message.Quiet (m : Message) : Prop := m.request? = none ∧ m.cancel? = none

theorem quiet_filterMap {ms : List Message} (h : ∀ m ∈ ms, m.Quiet) :
    ms.filterMap Message.cancel? = [] ∧ ms.filterMap Message.request? = [] :=
  ⟨List.filterMap_eq_nil_iff.mpr fun m hm => (h m hm).2,
    List.filterMap_eq_nil_iff.mpr fun m hm => (h m hm).1⟩

/-- The messages of a completion are announcements. -/
theorem CompletionEffect.messages {piece : Peer.Piece} {data : List Byte}
    (h : CompletionEffect sha1 w p piece i data w') (q : PeerId) :
    ∃ ms, w'.messages q = w.messages q ++ ms ∧ ∀ m ∈ ms, m.Quiet := by
  have hadds : w.Adds w' fun v => ∀ q m, v = .sent q m → m.Quiet := by
    cases h with
    | mismatch hash => exact .log _ (by simp)
    | ioFailed hash file => exact ⟨_, rfl, by simp⟩
    | stored hash hpos =>
      refine .log _ fun v hv q m hm => ?_
      subst hm
      simp only [List.mem_append, List.mem_cons] at hv
      rcases hv with hv | hv | hv
      · cases (mem_bitFault hv).2
      · cases hv
      · obtain ⟨q', -, -, -, heq⟩ := mem_haveEvents.mp hv
        cases heq
        exact ⟨rfl, rfl⟩
  obtain ⟨ms, hms, hq⟩ := hadds.messages q
  exact ⟨ms, hms, fun m hm => hq m hm q m rfl⟩

/-- The messages to other peers are announcements. -/
theorem FrameEffect.messages_of_ne {messageID : Byte} {payload : List Byte}
    (h : FrameEffect sha1 w p env messageID payload w') (hq : q ≠ p) :
    ∃ ms, w'.messages q = w.messages q ++ ms ∧ ∀ m ∈ ms, m.Quiet := by
  obtain ⟨ms, hms, hnew⟩ := h.trace.messages q
  refine ⟨ms, hms, fun m hm => ?_⟩
  cases hnew m hm with
  | reply => exact absurd rfl hq
  | announce => exact ⟨rfl, rfl⟩

/-- The steps other than frames request and cancel nothing. -/
theorem Outside.messages (h : Outside w w') (q : PeerId) :
    ∃ ms, w'.messages q = w.messages q ++ ms ∧ ∀ m ∈ ms, m.Quiet := by
  obtain ⟨ms, hms, hnew⟩ := h.trace.messages q
  refine ⟨ms, hms, fun m hm => ?_⟩
  have hjoin := hnew m hm
  cases m with
  | handshake | bitfield => exact ⟨rfl, rfl⟩
  | interested | unchoke | havePiece | request | pieceBlock | cancel => exact hjoin.elim

/-- What `handleBlockRequest` writes requests and cancels nothing. -/
theorem ServeEffect.messages {begin length : ℕ} (h : ServeEffect w p i begin length w') :
    ∃ ms, w'.messages p = w.messages p ++ ms ∧ ∀ m ∈ ms, m.Quiet := by
  cases h with
  | refused => exact ⟨[], by simp, by simp⟩
  | silent => exact ⟨[], by simp, by simp⟩
  | sent block =>
    refine ⟨_, messages_log .., fun m hm => ?_⟩
    rw [messages_sentEvents] at hm
    split at hm
    · rw [List.mem_singleton.mp hm]
      exact ⟨rfl, rfl⟩
    · cases hm

theorem selected_congr {t : Torrent} {x x' : Peer} (h : x'.hasPieceIndexes = x.hasPieceIndexes) :
    Torrent.selected t x' = Torrent.selected t x := by
  have hfun : x'.hasPiece = x.hasPiece := by
    funext i
    rw [hasPiece, hasPiece, h]
  rw [Torrent.selected, Torrent.selected, hfun]

theorem isFinished_raisePriority (t : Torrent) (i : ℕ) :
    (t.raisePriority i).isFinished = t.isFinished := by
  funext k
  rw [isFinished_eq, isFinished_eq, finished_raisePriority]

theorem SelectEffect.isFinished (h : SelectEffect w p w') :
    w'.torrent.isFinished = w.torrent.isFinished := by
  cases h with
  | none => rfl
  | requested i => exact isFinished_raisePriority ..

/-! ## The connection of the peer whose message is handled -/

/-- The client has gone from `w` to `w'`, and the remote `r` of `p`, told what has been
    written to it, is linked to its queue. -/
def LinkKept (size : ℕ → ℕ) (truth : BlockId → List Byte) (w w' : World) (p : PeerId)
    (r : Remote) : Prop :=
  ∃ ms, w'.messages p = w.messages p ++ ms ∧
    Link size truth w'.torrent.isFinished (w'.peers p).pieceQueue (r.tell ms)

/-- A selection requests a new piece or does nothing. -/
theorem Link.select (h : Link size truth w.torrent.isFinished (w.peers p).pieceQueue r)
    (hz : Sized n size truth) (hn : w.torrent.pieces.length = n)
    (hsize : w.torrent.pieceSize = size)
    (hnew : SelectsNew w.torrent (w.peers p) (w.peers p).pieceQueue) (hsel : SelectEffect w p w') :
    LinkKept size truth w w' p r := by
  subst hsize
  cases hsel with
  | none => exact ⟨[], by simp, h.quiet rfl rfl⟩
  | requested i hfull hi =>
    obtain ⟨piece, hpiece, hopen, -⟩ := Torrent.selected_some hi
    have hlt : i < n := hn ▸ (List.getElem?_eq_some_iff.mp hpiece).1
    have hu : u32 i = i := u32_of_lt (hlt.trans_le hz.count)
    have hu' : u32 (w.torrent.pieceSize i) = w.torrent.pieceSize i :=
      u32_of_lt (hz.size_lt i hlt)
    have hfin : w.torrent.isFinished i = false := by simp [Torrent.isFinished, hpiece, hopen]
    refine ⟨_, messages_log .., ?_⟩
    simp only [messages_sentEvents, log_peers, setPeer_peers_self, log_torrent, setPeer_torrent,
      setTorrent_torrent, isFinished_raisePriority, Peer.queuePiece, hu, hu', true_and]
    refine h.fresh hz hlt hfin (hnew i hi) ?_ ?_
    · split
      · rw [pieceRequestMessages, List.filterMap_cons_none rfl]
        split
        · rfl
        · exact cancel?_requests ..
      · rfl
    · split
      · rw [pieceRequestMessages, List.filterMap_cons_none rfl]
        split
        · exact .inl rfl
        · exact .inr (hz.requests hlt)
      · exact .inl rfl

/-- The client is about to handle `c`, the first message of the remote `r` of `p`. -/
structure Delivery (n : ℕ) (size : ℕ → ℕ) (truth : BlockId → List Byte) (w : World) (p : PeerId)
    (r : Remote) (c : Call) : Prop where
  sized : Sized n size truth
  count : w.torrent.pieces.length = n
  pieceSize : w.torrent.pieceSize = size
  index_lt : ∀ e ∈ (w.peers p).pieceQueue, e.index < n
  isOpen : (w.peers p).conn.isOpen = true
  outbox : ∃ rest, r.outbox = c :: rest
  link : Link size truth w.torrent.isFinished (w.peers p).pieceQueue r

namespace Delivery

variable {it : ℕ} {piece : Peer.Piece} (h : Delivery n size truth w p r c)
include h

theorem taken : Link size truth w.torrent.isFinished (w.peers p).pieceQueue r.taken := by
  obtain ⟨rest, hout⟩ := h.outbox
  exact h.link.taken hout

/-- A block is accepted. -/
theorem accepts (hid : MessageID.ofByte c.messageID = some .pieceBlock) :
    ∃ it e, Accepts w p c.payload it e ∧
      c.block? = some (blockId size e.index (slotOf c.payload)) := by
  obtain ⟨rest, hout⟩ := h.outbox
  obtain ⟨it, e, hfind, hb, hslot, hpos, hle⟩ :=
    h.link.arrives h.sized h.index_lt (hout ▸ List.mem_cons_self) (if_pos hid)
  have hlen : 9 ≤ c.payload.length := by
    rw [blockData, List.length_drop] at hpos
    omega
  exact ⟨it, e, ⟨hlen, hle, hfind, hslot⟩, hb ▸ if_pos hid⟩

/-- The block is stored in its slot. -/
theorem storeBlock (hid : MessageID.ofByte c.messageID = some .pieceBlock)
    (hacc : Accepts w p c.payload it piece) : Link size truth w.torrent.isFinished
      ((w.peers p).pieceQueue.set it (piece.put c.payload)) r.taken := by
  obtain ⟨it', e, hacc', hb⟩ := h.accepts hid
  obtain ⟨rfl, rfl⟩ := Prod.mk.inj (Option.some.inj (hacc.found.symm.trans hacc'.found))
  obtain ⟨rest, hout⟩ := h.outbox
  exact h.link.put hout hb (findPiece_some hacc.found).1
    (h.sized.size_lt _ (h.index_lt _ hacc.mem))

/-- The block that completes a piece completes the true data, and nothing of the
    piece is on its way then. -/
theorem complete (hid : MessageID.ofByte c.messageID = some .pieceBlock)
    (hacc : Accepts w p c.payload it piece) (hlast : piece.haveBlocks + 1 = piece.totalBlocks) :
    (piece.put c.payload).pieceData = (pieceBlocks size piece.index).flatMap truth ∧
      ∀ b ∈ r.taken.live, b.1 ≠ piece.index := by
  have hs := (h.storeBlock hid hacc).sound
  have hmem : piece.put c.payload ∈ (w.peers p).pieceQueue.set it (piece.put c.payload) :=
    List.mem_set hacc.lt_length _
  have hgen := hs.genuine _ hmem
  have hlt : size (piece.put c.payload).index < 2 ^ 32 :=
    h.sized.size_lt piece.index (h.index_lt piece hacc.mem)
  refine ⟨hgen.pieceData_eq hlt hlast, fun b hb heq => ?_⟩
  obtain ⟨e, he, hl⟩ := hs.lacked b hb
  obtain rfl := hs.eq_of_mem he hmem (hl.index_eq.symm.trans heq)
  exact hgen.toCounted.not_lacks hlt hlast hl

/-- Then its entry is erased. -/
theorem erase (hid : MessageID.ofByte c.messageID = some .pieceBlock)
    (hacc : Accepts w p c.payload it piece) (hlast : piece.haveBlocks + 1 = piece.totalBlocks) :
    Link size truth w.torrent.isFinished ((w.peers p).pieceQueue.eraseIdx it) r.taken := by
  have hit : ((w.peers p).pieceQueue.set it (piece.put c.payload))[it]? =
      some (piece.put c.payload) := List.getElem?_set_self hacc.lt_length
  have herased := (h.storeBlock hid hacc).erase hit (h.complete hid hacc hlast).2
  rwa [List.eraseIdx_set_eq] at herased

/-- What `pieceDone` says of the piece of an accepted block. -/
theorem doneValue_eq (hacc : Accepts w p c.payload it piece) :
    w.torrent.doneValue env (blockFields c.payload).1 = w.torrent.isFinished piece.index := by
  rw [← hacc.index_eq]
  exact doneValue_of_lt (h.count ▸ h.index_lt _ hacc.mem) env

/-- The frame writes `ms`, of which nothing is a request or a CANCEL, and leaves the
    queue alone. -/
theorem quiet (ms : List Message) (hms : ∀ m ∈ ms, m.Quiet)
    (hmono : ∀ i, w.torrent.isFinished i = true → w'.torrent.isFinished i = true)
    (heq : w'.messages p = w.messages p ++ ms)
    (hqueue : (w'.peers p).pieceQueue = (w.peers p).pieceQueue) :
    LinkKept size truth w w' p r.taken := by
  obtain ⟨hc, hm⟩ := quiet_filterMap hms
  exact ⟨ms, heq, hqueue ▸ (h.taken.mono hmono).quiet hc hm⟩

/-- UNCHOKE requests the queue. -/
theorem unchoke (hnone : ∀ e ∈ (w.peers p).pieceQueue,
      e.filledSlots = 0 ∧ ∀ b ∈ r.live, b.1 ≠ e.index) :
    Link size truth w.torrent.isFinished (w.peers p).pieceQueue
      (r.taken.tell ((w.peers p).pieceQueue.flatMap fun e => requests w.torrent e.index)) := by
  obtain ⟨rest, hout⟩ := h.outbox
  have hrest : ∀ b ∈ r.taken.live, b ∈ r.live := by
    intro b hb
    rw [Remote.live_taken hout]
    exact List.mem_append_right _ hb
  refine h.taken.request (fun e he => ⟨(hnone e he).1, fun b hb =>
    (hnone e he).2 b (hrest b hb)⟩) ?_ ?_
  · rw [List.filterMap_flatMap]
    exact List.flatMap_eq_nil_iff.mpr fun e _ => cancel?_requests ..
  · rw [List.filterMap_flatMap]
    refine List.flatMap_congr fun e he => ?_
    have hz := h.sized
    rw [← h.pieceSize] at hz ⊢
    exact hz.requests (h.index_lt e he)

/-- BITFIELD announces pieces and selects one. -/
theorem bitfield {indexes : List ℕ}
    (hnew : SelectsNew w.torrent ((w.peers p).announce indexes) (w.peers p).pieceQueue)
    (hsel : SelectEffect (w.setPeer p ((w.peers p).announce indexes)) p w') :
    LinkKept size truth w w' p r.taken := by
  generalize hv : w.setPeer p ((w.peers p).announce indexes) = v at hsel
  have htorrent : v.torrent = w.torrent := by rw [← hv, setPeer_torrent]
  have hmsgs : v.messages p = w.messages p := by rw [← hv, messages_setPeer]
  have hann : Link size truth v.torrent.isFinished (v.peers p).pieceQueue r.taken := by
    rw [htorrent, ← hv, setPeer_peers_self]
    exact h.taken
  have hnew' : SelectsNew v.torrent (v.peers p) (v.peers p).pieceQueue := by
    rw [htorrent, ← hv, setPeer_peers_self]
    exact hnew
  obtain ⟨ms, hms, hl⟩ :=
    hann.select h.sized (htorrent ▸ h.count) (htorrent ▸ h.pieceSize) hnew' hsel
  exact ⟨ms, hmsgs ▸ hms, hl⟩

/-- The block that completes a piece: the entry is erased and another piece selected. -/
theorem completed {u : World} (hid : MessageID.ofByte c.messageID = some .pieceBlock)
    (hacc : Accepts w p c.payload it piece) (hlast : piece.haveBlocks + 1 = piece.totalBlocks)
    (hcomp : CompletionEffect sha1 (Peer.storeBlock w p c.payload it piece) p (piece.put c.payload)
      (blockFields c.payload).1 (piece.put c.payload).pieceData u) (hrun : u.running = true)
    (hmono : ∀ i, w.torrent.isFinished i = true → u.torrent.isFinished i = true)
    (hnew : SelectsNew (w.torrent.afterCompletion sha1 piece.index (piece.put c.payload).pieceData)
      (w.peers p) ((w.peers p).pieceQueue.eraseIdx it))
    (hsel : SelectEffect (erasePiece u p it) p w') : LinkKept size truth w w' p r.taken := by
  obtain ⟨ms, hms, hm⟩ := hcomp.messages p
  obtain ⟨hc, hm⟩ := quiet_filterMap hm
  obtain ⟨hlen, hsz⟩ := hcomp.pieceSize
  have hqueue : ((erasePiece u p it).peers p).pieceQueue = (w.peers p).pieceQueue.eraseIdx it := by
    rw [erasePiece_queue, if_pos rfl, hcomp.peers, storeBlock_queue, if_pos rfl,
      List.eraseIdx_set_eq]
  have hhas : ((erasePiece u p it).peers p).hasPieceIndexes = (w.peers p).hasPieceIndexes := by
    simp [erasePiece, hcomp.peers, Peer.storeBlock]
  have htorrent : (erasePiece u p it).torrent =
      w.torrent.afterCompletion sha1 piece.index (piece.put c.payload).pieceData := by
    rw [hacc.index_eq]
    exact hcomp.torrent_eq hrun
  have htold : Link size truth (erasePiece u p it).torrent.isFinished
      ((erasePiece u p it).peers p).pieceQueue (r.taken.tell ms) := by
    rw [hqueue]
    exact ((h.erase hid hacc hlast).mono hmono).quiet hc hm
  have hnew' : SelectsNew (erasePiece u p it).torrent ((erasePiece u p it).peers p)
      ((erasePiece u p it).peers p).pieceQueue := by
    intro i hi
    rw [selected_congr hhas, htorrent] at hi
    rw [hqueue]
    exact hnew i hi
  obtain ⟨ms', hms', hl⟩ :=
    htold.select h.sized (hlen.trans h.count) (hsz.trans h.pieceSize) hnew' hsel
  refine ⟨ms ++ ms', ?_, Remote.tell_tell r.taken ms ms' ▸ hl⟩
  have herase : (erasePiece u p it).messages p = u.messages p := rfl
  rw [hms', herase, hms, ← List.append_assoc]
  simp [Peer.storeBlock]

/-- The handling of a frame keeps the link if it leads to no block being requested
    again and to no entry being erased too early. -/
theorem frame (hcare : Careful sha1 w p r c)
    (hmono : ∀ i, w.torrent.isFinished i = true → w'.torrent.isFinished i = true)
    (hf : FrameEffect sha1 w p env c.messageID c.payload w') :
    LinkKept size truth w w' p r.taken := by
  have hopen := h.isOpen
  cases hf with
  | ignored => exact h.quiet [] (by simp) hmono (by simp) (by simp)
  | refused e =>
    refine h.quiet [] (by simp) hmono ?_ (by simp)
    rw [handleError_eq]
    simp [Event.message?]
  | choke | notInterested => exact h.quiet [] (by simp) hmono (by simp) (by simp)
  | havePiece => exact h.quiet [] (by simp) hmono (by simp) (by simp [Peer.announce])
  | interested =>
    have hms : ∀ m ∈ (if (w.peers p).amChoking then [Message.unchoke] else []), m.Quiet := by
      intro m hm
      split at hm
      · rw [List.mem_singleton.mp hm]
        exact ⟨rfl, rfl⟩
      · cases hm
    exact h.quiet _ hms hmono (by simp [messages_sentEvents, hopen]) (by simp)
  | unchoke hid =>
    rw [Careful, hid] at hcare
    refine ⟨(w.peers p).pieceQueue.flatMap fun e => requests w.torrent e.index,
      by simp [messages_sentEvents, hopen], ?_⟩
    simpa using h.unchoke hcare
  | bitfield hid u hsel =>
    rw [Careful, hid] at hcare
    obtain ⟨ms, hms, hl⟩ := h.bitfield hcare hsel
    exact ⟨ms, by simpa using hms, by simpa using hl⟩
  | request hid _ _ _ _ u hserve =>
    rcases hserve with ⟨-, rfl⟩ | ⟨-, hserve⟩
    · exact h.quiet [] (by simp) hmono (by simp) (by simp)
    · obtain ⟨ms, hms, hm⟩ := hserve.messages
      exact h.quiet ms hm hmono (by simpa using hms) (by simp [hserve.queue])
  | cancelled hid it piece hacc hdone =>
    rw [Careful, hid] at hcare
    have hsent := hcare (it, piece) hacc.found
    rw [h.doneValue_eq hacc] at hdone
    rw [if_pos hdone] at hsent
    have hz := h.sized
    rw [← h.pieceSize] at hz
    have hlink := h.taken.cancel (findPiece_some hacc.found).1 hdone hsent
      (h.pieceSize ▸ hz.cancels (h.index_lt _ hacc.mem)) (request?_cancels ..)
    refine ⟨cancels w.torrent piece.index, by simp [erasePiece, messages_sentEvents, hopen], ?_⟩
    simpa [erasePiece] using hlink
  | stored hid it piece hacc =>
    refine ⟨[], by simp [Peer.storeBlock], ?_⟩
    simpa [Peer.storeBlock] using h.storeBlock hid hacc
  | ioFailed hid it piece hacc _ hlast _ hcomp =>
    obtain ⟨ms, hms, hm⟩ := hcomp.messages p
    obtain ⟨hc, hm⟩ := quiet_filterMap hm
    refine ⟨ms, by simpa [Peer.storeBlock] using hms, ?_⟩
    rw [hcomp.peers, storeBlock_queue, if_pos rfl]
    exact ((h.storeBlock hid hacc).mono hmono).quiet hc hm
  | completed hid it piece hacc hdone hlast u u' hcomp hrun hsel =>
    rw [Careful, hid] at hcare
    have hnew := hcare (it, piece) hacc.found
    rw [h.doneValue_eq hacc] at hdone
    rw [if_neg (by simp [hdone])] at hnew
    have hfin : u'.torrent.isFinished = u.torrent.isFinished := hsel.isFinished
    have hmono' : ∀ i, w.torrent.isFinished i = true → u.torrent.isFinished i = true := by
      intro i hi
      rw [← hfin]
      simpa using hmono i hi
    obtain ⟨ms, hms, hl⟩ := h.completed hid hacc hlast hcomp hrun hmono' (hnew hlast) hsel
    exact ⟨ms, by simpa using hms, by simpa using hl⟩

/-- No PIECE frame of the remote is refused. -/
theorem not_refused {e : PeerError} (href : Refusal w p c.messageID c.payload e) :
    e.ofPieceBlock = false := by
  cases href with
  | invalidSize m hid hsize =>
    by_cases hm : m = .pieceBlock
    · subst hm
      obtain ⟨it, e, hacc, -⟩ := h.accepts hid
      exact absurd hacc.size_ge hsize
    · simp [PeerError.ofPieceBlock, hm]
  | requestWithoutInterest | requestWhileChoked | requestTooBig => rfl
  | tooBigBlock hid hlen =>
    obtain ⟨it, e, hacc, -⟩ := h.accepts hid
    exact absurd hacc.size_le (not_le.mpr hlen)
  | notAskedFor hid hfind =>
    obtain ⟨it, e, hacc, -⟩ := h.accepts hid
    rw [hacc.found] at hfind
    cases hfind
  | tooBigBlockIndex hid it piece hfind hslot =>
    obtain ⟨it, e, hacc, -⟩ := h.accepts hid
    obtain ⟨-, rfl⟩ := Prod.mk.inj (Option.some.inj (hfind.symm.trans hacc.found))
    exact absurd hacc.slot_lt (not_lt.mpr hslot)

/-- No buffer put together from blocks of the remote misses its hash. -/
theorem misses (hcheck : ∀ i < n, Torrent.checkPieceHash sha1 w.torrent
      ((pieceBlocks size i).flatMap truth) i = true)
    (hf : FrameEffect sha1 w p env c.messageID c.payload w') :
    w'.torrent.pieceHashMisses = w.torrent.pieceHashMisses := by
  rcases frame_ledger hf with heq | ⟨it, piece, u, hid, hacc, -, hlast, hcomp, heq⟩
  · exact congrArg Ledger.pieceHashMisses heq
  · have hu : w'.torrent.pieceHashMisses = u.torrent.pieceHashMisses :=
      congrArg Ledger.pieceHashMisses heq
    rw [hu]
    cases hcomp with
    | mismatch hash =>
      -- the buffer is the chunk, which has the hash
      have htrue := hcheck piece.index (h.index_lt piece hacc.mem)
      rw [← (h.complete hid hacc hlast).1, hacc.index_eq] at htrue
      exact absurd htrue (Bool.eq_false_iff.mp hash)
    | ioFailed | stored => rfl

end Delivery

end YTorrent
