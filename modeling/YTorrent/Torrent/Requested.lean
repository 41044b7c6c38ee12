import YTorrent.Torrent.Bounds
import YTorrent.Torrent.Joining

/-!
# Assigned pieces have been requested

A piece that is assigned while the peer chokes us is only queued; the UNCHOKE case
requests all that is queued, and while the peer does not choke us an assigned piece is
requested at once (`Requests`).

* `step_requests`: an entry that is in the queue after a step has its blocks requested in
  that step, or it was there before and the peer did not choke us.
* `queue_requested`: whenever a peer does not choke us, every block of every piece in its
  queue has been requested since any earlier moment at which it choked us.
-/

namespace YTorrent

open World Peer

/-- Between `w` and `w'` messages are written to `p` with which every piece in its queue is
    requested, unless it was in the queue in `w` and the peer did not choke us then. -/
structure Requests (w w' : World) (p : PeerId) : Prop where
  size : w'.torrent.pieceSize = w.torrent.pieceSize
  queued : ∃ ms, w'.messages p = w.messages p ++ ms ∧
    ((w'.peers p).peerChoking = false → ∀ e ∈ (w'.peers p).pieceQueue,
      (∀ m ∈ requests w'.torrent e.index, m ∈ ms) ∨
        (w.peers p).peerChoking = false ∧ ∃ e' ∈ (w.peers p).pieceQueue, e'.index = e.index)

variable {sha1 : List Byte → List ℕ} {f : ParsedFile} {u v w w' : World} {p q : PeerId}
  {env : Env} {messageID : Byte} {payload : List Byte} {l : Label}

theorem requests_congr {t t' : Torrent} (h : t'.pieceSize = t.pieceSize) (i : ℕ) :
    requests t' i = requests t i := by
  rw [requests, requests, h]

/-! ## Updates -/

namespace Requests

theorem trans (h : Requests u v p) (h' : Requests v w p) : Requests u w p := by
  obtain ⟨ms, hms, hold⟩ := h.queued
  obtain ⟨ms', hms', hnew⟩ := h'.queued
  refine ⟨h'.size.trans h.size, ms ++ ms', by rw [hms', hms, List.append_assoc],
    fun hchoke e he => ?_⟩
  rcases hnew hchoke e he with hreq | ⟨hchoke', e', he', heq⟩
  · exact .inl fun m hm => List.mem_append_right ms (hreq m hm)
  · rcases hold hchoke' e' he' with hreq | ⟨hchoke'', e'', he'', heq'⟩
    · refine .inl fun m hm => List.mem_append_left ms' (hreq m ?_)
      rwa [heq, ← requests_congr h'.size]
    · exact .inr ⟨hchoke'', e'', he'', heq'.trans heq⟩

/-- What is queued was queued before, and the peer does not stop choking us. -/
theorem of_kept (hsize : w'.torrent.pieceSize = w.torrent.pieceSize)
    (htrace : ∃ es, w'.trace = w.trace ++ es)
    (hchoke : (w'.peers p).peerChoking = false → (w.peers p).peerChoking = false)
    (hqueue : ∀ e ∈ (w'.peers p).pieceQueue, ∃ e' ∈ (w.peers p).pieceQueue, e'.index = e.index) :
    Requests w w' p := by
  obtain ⟨es, hes⟩ := htrace
  refine ⟨hsize, es.filterMap (Event.message? p), ?_, fun hc e he => .inr ⟨hchoke hc, hqueue e he⟩⟩
  rw [World.messages, hes, List.filterMap_append]
  rfl

/-- The peer is the same, but for its connection and the flags about us. -/
theorem of_same (hsize : w'.torrent.pieceSize = w.torrent.pieceSize)
    (htrace : ∃ es, w'.trace = w.trace ++ es)
    (hchoke : (w'.peers p).peerChoking = (w.peers p).peerChoking)
    (hqueue : (w'.peers p).pieceQueue = (w.peers p).pieceQueue) : Requests w w' p :=
  of_kept hsize htrace (fun h => hchoke ▸ h) fun e he => ⟨e, hqueue ▸ he, rfl⟩

theorem refl (w : World) (p : PeerId) : Requests w w p := of_same rfl ⟨[], by simp⟩ rfl rfl

theorem log (w : World) (p : PeerId) (es : List Event) : Requests w (w.log es) p :=
  of_same rfl ⟨es, rfl⟩ rfl rfl

theorem setConn (w : World) (p q : PeerId) (c : Connection) : Requests w (w.setConn q c) p :=
  of_same rfl ⟨[], by simp⟩ (setConn_peerChoking ..) (setConn_pieceQueue ..)

theorem read (w : World) (p q : PeerId) (rc : Pending) :
    Requests w (Connection.read w q rc) p := by
  unfold Connection.read
  split
  · exact setConn w p q _
  · exact refl w p

theorem handleError (w : World) (p q : PeerId) (e : PeerError) :
    Requests w (Peer.handleError w q e) p := by
  rw [handleError_eq]
  have hactive : Requests w
      (w.setTorrent { w.torrent with activePeers := activeWithout w q }) p :=
    of_same rfl ⟨[], by simp⟩ rfl rfl
  exact (hactive.trans (setConn _ p q _)).trans (log _ p _)

theorem serve {i begin length : ℕ} (h : ServeEffect w q i begin length w') : Requests w w' p := by
  cases h with
  | refused => exact setConn w p q _
  | silent => exact of_same rfl ⟨[], by simp⟩ rfl rfl
  | sent block => exact of_same rfl ⟨_, rfl⟩ rfl rfl

/-- The peer is replaced by one with no other pieces queued that chokes us if it did. -/
theorem setPeer {x : Peer} (hchoke : x.peerChoking = false → (w.peers p).peerChoking = false)
    (hqueue : ∀ e ∈ x.pieceQueue, ∃ e' ∈ (w.peers p).pieceQueue, e'.index = e.index) :
    Requests w (w.setPeer p x) p := by
  refine of_kept rfl ⟨[], by simp⟩ ?_ ?_
  · rwa [setPeer_peers_self]
  · rwa [setPeer_peers_self]

theorem storeBlock {it : ℕ} {piece : Peer.Piece} (hacc : Accepts w p payload it piece) :
    Requests w (Peer.storeBlock w p payload it piece) p := by
  refine (log w p _).trans (setPeer (fun h => h) fun e he => ?_)
  rcases List.mem_or_eq_of_mem_set he with he | rfl
  · exact ⟨e, he, rfl⟩
  · exact ⟨piece, hacc.mem, rfl⟩

theorem erasePiece (w : World) (p : PeerId) (it : ℕ) :
    Requests w (Peer.erasePiece w p it) p :=
  setPeer (fun h => h) fun e he => ⟨e, List.mem_of_mem_eraseIdx he, rfl⟩

theorem completion {piece : Peer.Piece} {i : ℕ} {data : List Byte}
    (h : CompletionEffect sha1 w q piece i data w') : Requests w w' p := by
  refine of_same h.pieceSize.2 ?_ (by rw [h.peers]) (by rw [h.peers])
  cases h with
  | mismatch | ioFailed | stored => exact ⟨_, rfl⟩

/-- A piece that is assigned is requested at once, unless the peer chokes us. -/
theorem select (h : SelectEffect w p w') (hopen : (w.peers p).conn.isOpen = true) :
    Requests w w' p := by
  cases h with
  | none => exact refl w p
  | requested i hfull hsel =>
    refine ⟨funext fun k => pieceSize_raisePriority w.torrent i k,
      pieceRequestMessages (w.peers p) w.torrent (u32 i), ?_, fun hchoke e he => ?_⟩
    · rw [messages_log, messages_sentEvents, if_pos ⟨rfl, hopen⟩, messages_setPeer,
        messages_setTorrent]
    · rw [log_peers, setPeer_peers_self] at hchoke he
      have hnot : (w.peers p).peerChoking = false := hchoke
      rcases List.mem_append.mp he with he | he
      · exact .inr ⟨hnot, e, he, rfl⟩
      · rw [List.mem_singleton.mp he]
        refine .inl fun m hm => List.mem_cons_of_mem _ ?_
        have hsize : (w.torrent.raisePriority i).pieceSize = w.torrent.pieceSize :=
          funext fun k => pieceSize_raisePriority w.torrent i k
        rw [hnot, if_neg Bool.false_ne_true, ← requests_congr hsize]
        exact hm

theorem outside (hn : Newcomers w) (h : Outside w w') : Requests w w' p := by
  obtain ⟨es, hes, -⟩ := h.trace
  refine of_same (funext fun i => ?_) ⟨es, hes⟩ ?_ (queue_of_outside hn h p)
  · rw [h.torrent]
    rfl
  · obtain ⟨c, hc | ⟨hq, hc⟩⟩ := h.peers p
    · rw [hc]
    · rw [hc, hn.unborn p hq]

end Requests

/-! ## Steps and runs -/

/-- A frame of the peer. -/
theorem FrameEffect.requests (h : FrameEffect sha1 w p env messageID payload w')
    (hopen : (w.peers p).conn.isOpen = true) : Requests w w' p := by
  cases h with
  | ignored => exact .read w p p _
  | refused e => exact .handleError w p p e
  | choke =>
    refine (Requests.setPeer ?_ ?_).trans (.read _ p p _)
    · exact fun h => Bool.noConfusion h
    · exact fun e he => ⟨e, he, rfl⟩
  | notInterested | havePiece =>
    refine (Requests.setPeer ?_ ?_).trans (.read _ p p _)
    · exact id
    · exact fun e he => ⟨e, he, rfl⟩
  | unchoke =>
    -- all that is queued is requested
    refine Requests.trans (v := (w.setPeer p { w.peers p with peerChoking := false }).log _) ?_
      (.read _ p p _)
    refine ⟨rfl, (w.peers p).pieceQueue.flatMap fun e => YTorrent.requests w.torrent e.index, ?_,
      fun _ e he => .inl fun m hm => ?_⟩
    · rw [messages_log, messages_sentEvents, if_pos ⟨rfl, hopen⟩, messages_setPeer]
    · rw [log_peers, setPeer_peers_self] at he
      exact List.mem_flatMap.mpr ⟨e, he, hm⟩
  | interested =>
    refine ((Requests.setPeer ?_ ?_).trans (.log _ p _)).trans (.read _ p p _)
    · exact id
    · exact fun e he => ⟨e, he, rfl⟩
  | bitfield hid v hsel =>
    refine ((Requests.setPeer ?_ ?_).trans (.select hsel ?_)).trans (.read _ p p _)
    · exact id
    · exact fun e he => ⟨e, he, rfl⟩
    · rw [setPeer_peers_self]
      exact hopen
  | request _ _ _ _ _ v hserve =>
    rcases hserve with ⟨-, rfl⟩ | ⟨-, hserve⟩
    · exact (Requests.log w p _).trans (.read _ p p _)
    · exact ((Requests.log w p _).trans (.serve hserve)).trans (.read _ p p _)
  | cancelled _ it piece =>
    exact ((Requests.log w p _).trans (.erasePiece _ p it)).trans (.read _ p p _)
  | stored _ it piece hacc => exact (Requests.storeBlock hacc).trans (.read _ p p _)
  | ioFailed _ it piece hacc _ _ v hcomp =>
    exact (Requests.storeBlock hacc).trans (.completion hcomp)
  | completed _ it piece hacc _ _ v v' hcomp _ hsel =>
    have herase := ((Requests.storeBlock hacc).trans (.completion hcomp)).trans
      (.erasePiece v p it)
    refine (herase.trans (.select hsel ?_)).trans (.read _ p p _)
    rw [Peer.erasePiece, setPeer_peers_self, hcomp.peers, storeBlock, setPeer_peers_self]
    exact hopen

theorem step_requests (hn : Newcomers w) (h : step sha1 w l = some w') (p : PeerId) :
    Requests w w' p := by
  rcases step_cases h with ⟨q, messageID, payload, env, rfl, hready, hf⟩ | hout
  · have htake : Requests w (takeRead w q) p := .setConn w p q _
    refine htake.trans ?_
    by_cases hq : q = p
    · subst hq
      exact hf.requests (by simpa [takeRead] using hready.1)
    · obtain ⟨es, hes, -⟩ := hf.trace
      refine .of_same (funext fun i => ?_) ⟨es, hes⟩ ?_ ?_
      · exact congrFun (step_pieceSize h) i
      · rw [hf.peers_of_ne (Ne.symm hq)]
      · rw [hf.peers_of_ne (Ne.symm hq)]
  · exact .outside hn hout

/-- Whenever a peer does not choke us, every block of every piece in its queue has been
    requested since any earlier moment at which it choked us. An UNCHOKE that is handled
    after its connection has been closed is no step: its requests are not written. -/
theorem queue_requested (hv : Reachable sha1 f v) (h : Runs.Reaches (step sha1) v w)
    (hthen : (v.peers p).peerChoking = true) (hnow : (w.peers p).peerChoking = false) :
    ∃ ms, w.messages p = v.messages p ++ ms ∧
      ∀ e ∈ (w.peers p).pieceQueue, ∀ m ∈ requests w.torrent e.index, m ∈ ms := by
  have hrun : Reachable sha1 f w ∧ Requests v w p :=
    h.invariant (I := fun w => Reachable sha1 f w ∧ Requests v w p)
      (fun u l u' hs hu => ⟨hu.1.step hs, hu.2.trans (step_requests hu.1.newcomers hs p)⟩)
      ⟨hv, .refl v p⟩
  obtain ⟨ms, hms, hqueued⟩ := hrun.2.queued
  refine ⟨ms, hms, fun e he => (hqueued hnow e he).resolve_right ?_⟩
  rintro ⟨hchoke, -⟩
  rw [hthen] at hchoke
  cases hchoke

/-- A peer that announces the piece and then stops choking us is asked for it. -/
theorem queue_requested_oneByte : ∃ w, Runs.Reaches (step sha1OfA) oneByteFile.start w ∧
    ∃ e ∈ (w.peers 0).pieceQueue, ∀ m ∈ requests w.torrent e.index, m ∈ w.messages 0 := by
  have hrun : ((Runs.exec (step sha1OfA) oneByteFile.start (oneByteRun.take 4)).map fun w =>
      decide ((w.peers 0).peerChoking = false ∧ (w.peers 0).pieceQueue ≠ [])) = some true := by
    decide +kernel
  obtain ⟨w, hw, hend⟩ := Option.map_eq_some_iff.mp hrun
  obtain ⟨hchoke, hne⟩ := of_decide_eq_true hend
  obtain ⟨e, he⟩ := List.exists_mem_of_ne_nil _ hne
  obtain ⟨ms, hms, hall⟩ := queue_requested (.refl _) ⟨_, hw⟩ rfl hchoke
  refine ⟨w, ⟨_, hw⟩, e, he, fun m hm => ?_⟩
  rw [hms]
  exact List.mem_append_right _ (hall e he m hm)

end YTorrent
