import YTorrent.Torrent.Bounds
import YTorrent.Torrent.Joining

/-!
# A complete download is final

When every piece is finished, `selectPieceAndRequest` is not called any more and
`pieceDone` holds of every piece that is still queued; so all that can happen to the
download is that queued pieces are requested once more and cancelled.

* `complete_final`: from a reachable state with all pieces finished on, whatever peers send
  and however they come and go, the torrent keeps its pieces, its file and its counters but
  `uploadedBytes`; the queues only lose entries, no piece is handed on, and no INTERESTED
  and no HAVE is written.
-/

namespace YTorrent

open World Peer

/-- The entry is one of a client that downloads nothing: no piece is handed on, and no
    message is INTERESTED or HAVE. -/
def Event.IsFinal : Event → Prop
  | .pieceCompleted .. => False
  | .sent _ .interested => False
  | .sent _ (.havePiece _) => False
  | _ => True

/-- The download is the same in `w'` as in `w`, but for pieces that are not queued any more. -/
structure Final (w w' : World) : Prop where
  torrent : w'.torrent = { w.torrent with
    uploadedBytes := w'.torrent.uploadedBytes
    fp := w'.torrent.fp
    activePeers := w'.torrent.activePeers
    blackListed := w'.torrent.blackListed }
  queue : ∀ q, (w'.peers q).pieceQueue.Sublist (w.peers q).pieceQueue
  trace : w.Adds w' Event.IsFinal

variable {sha1 : List Byte → List ℕ} {f : ParsedFile} {u v w w' : World} {p q : PeerId}
  {env : Env} {messageID : Byte} {payload : List Byte} {l : Label}

/-! ## Updates -/

namespace Final

theorem refl (w : World) : Final w w := ⟨rfl, fun _ => .refl _, .of_eq rfl⟩

theorem trans (h : Final u v) (h' : Final v w) : Final u w :=
  ⟨by rw [h'.torrent, h.torrent], fun q => (h'.queue q).trans (h.queue q),
    h.trace.trans h'.trace⟩

theorem log {es : List Event} (hes : ∀ v ∈ es, v.IsFinal) : Final w (w.log es) :=
  ⟨rfl, fun _ => .refl _, .log w hes⟩

theorem setPeer {x : Peer} (hx : x.pieceQueue.Sublist (w.peers p).pieceQueue) :
    Final w (w.setPeer p x) := by
  refine ⟨rfl, fun q => ?_, .of_eq rfl⟩
  by_cases hq : q = p
  · rw [hq, setPeer_peers_self]
    exact hx
  · rw [setPeer_peers_of_ne _ _ hq]

theorem setConn (w : World) (p : PeerId) (c : Connection) : Final w (w.setConn p c) :=
  setPeer (.refl _)

theorem setTorrent {t : Torrent} (h : t = { w.torrent with
    uploadedBytes := t.uploadedBytes
    fp := t.fp
    activePeers := t.activePeers
    blackListed := t.blackListed }) : Final w (w.setTorrent t) :=
  ⟨h, fun _ => .refl _, .of_eq rfl⟩

theorem read (w : World) (p : PeerId) (rc : Pending) : Final w (Connection.read w p rc) := by
  unfold Connection.read
  split
  · exact setConn w p _
  · exact refl w

theorem sent {c : Connection} {ms : List Message} (hms : ∀ m ∈ ms, (Event.sent p m).IsFinal) :
    Final w (w.log (sentEvents c p ms)) := by
  refine log fun v hv => ?_
  obtain ⟨-, m, hm, rfl⟩ := mem_sentEvents.mp hv
  exact hms m hm

theorem handleError (w : World) (p : PeerId) (e : PeerError) :
    Final w (Peer.handleError w p e) := by
  rw [handleError_eq]
  refine (setTorrent (w := w) ?_).trans ((setConn _ p _).trans (log ?_))
  · rfl
  · simp [Event.IsFinal]

theorem doneFault (w : World) (i : ℕ) : Final w (w.log (doneFault w.torrent i)) := by
  refine log fun v hv => ?_
  rw [(mem_doneFault hv).2]
  trivial

theorem serve {index begin length : ℕ} (h : ServeEffect w p index begin length w') :
    Final w w' := by
  cases h with
  | refused => exact setConn w p _
  | silent => exact setTorrent rfl
  | sent block =>
    refine (setTorrent (w := w) ?_).trans (sent fun m hm => ?_)
    · rfl
    · rw [List.mem_singleton.mp hm]
      trivial

theorem outside (hn : Newcomers w) (h : Outside w w') : Final w w' := by
  refine ⟨?_, fun q => by rw [queue_of_outside hn h], h.trace.mono fun v hv => ?_⟩
  · rw [h.torrent]
  · cases v with
    | sent p m => cases m <;> trivial
    | error | fault => trivial
    | pieceCompleted => exact hv.elim

/-- Nothing is selected when all pieces are finished. -/
theorem select (h : SelectEffect w p w') (hfull : w.torrent.isFullyDownloaded = true) :
    Final w w' := by
  cases h with
  | none => exact refl w
  | requested i hmissing =>
    rw [hfull] at hmissing
    cases hmissing

end Final

/-! ## Steps and runs -/

/-- A frame in a state in which all pieces are finished. -/
theorem FrameEffect.final (h : FrameEffect sha1 w p env messageID payload w')
    (hfull : w.torrent.isFullyDownloaded = true)
    (hall : ∀ e ∈ (w.peers p).pieceQueue, ∀ env, w.torrent.doneValue env e.index = true) :
    Final w w' := by
  -- the block of a queued piece is not stored
  have hnone : ∀ {it : ℕ} {piece : Peer.Piece}, Accepts w p payload it piece →
      w.torrent.doneValue env (blockFields payload).1 ≠ false := by
    intro it piece hacc hdone
    have hdone' := hall piece hacc.mem env
    rw [hacc.index_eq, hdone] at hdone'
    cases hdone'
  cases h with
  | ignored => exact .read w p _
  | refused e => exact .handleError w p e
  | choke | notInterested | havePiece =>
    refine (Final.setPeer ?_).trans (.read _ p _)
    exact .refl _
  | unchoke =>
    refine ((Final.setPeer ?_).trans (.sent fun m hm => ?_)).trans (.read _ p _)
    · exact .refl _
    · obtain ⟨e, -, hm⟩ := List.mem_flatMap.mp hm
      obtain ⟨bl, -, rfl⟩ := List.mem_map.mp hm
      trivial
  | interested =>
    refine ((Final.setPeer ?_).trans (.sent fun m hm => ?_)).trans (.read _ p _)
    · exact .refl _
    · split at hm
      · rw [List.mem_singleton.mp hm]
        trivial
      · cases hm
  | bitfield hid v hsel =>
    refine ((Final.setPeer ?_).trans (.select hsel hfull)).trans (.read _ p _)
    exact .refl _
  | request _ _ _ _ _ v hserve =>
    rcases hserve with ⟨-, rfl⟩ | ⟨-, hserve⟩
    · exact (Final.doneFault w _).trans (.read _ p _)
    · exact ((Final.doneFault w _).trans (.serve hserve)).trans (.read _ p _)
  | cancelled _ it piece =>
    refine ((Final.log fun v hv => ?_).trans (.setPeer ?_)).trans (.read _ p _)
    · rcases List.mem_append.mp hv with hv | hv
      · rw [(mem_doneFault hv).2]
        trivial
      · obtain ⟨-, m, hm, rfl⟩ := mem_sentEvents.mp hv
        obtain ⟨bl, -, rfl⟩ := List.mem_map.mp hm
        trivial
    · exact List.eraseIdx_sublist _ _
  | stored _ it piece hacc hdone | ioFailed _ it piece hacc hdone
  | completed _ it piece hacc hdone => exact absurd hdone (hnone hacc)

theorem step_final (hr : Reachable sha1 f w) (h : step sha1 w l = some w')
    (hfull : w.torrent.isFullyDownloaded = true) : Final w w' := by
  rcases step_cases h with ⟨p, messageID, payload, env, rfl, -, hf⟩ | hout
  · refine Final.trans (.setConn w p { (w.peers p).conn with pending := .none }) ?_
    refine hf.final hfull fun e he env => ?_
    rw [takeRead, setConn_pieceQueue] at he
    have hlt : e.index < w.torrent.pieces.length := queue_index_lt hr p e he
    refine (doneValue_of_lt hlt env).trans ((isFinished_iff w _).mpr ?_)
    refine all_finished_of_completed hr.consistent (beq_iff_eq.mp hfull) ?_
    rwa [World.ledger, List.length_map]
  · exact .outside hr.newcomers hout

/-- Once all pieces are finished, the pieces, the file and the counters of the download stay
    as they are, the queues only lose entries, no piece is handed on, and no INTERESTED and
    no HAVE is written, whatever the peers do. -/
theorem complete_final (hr : Reachable sha1 f v) (hfull : v.torrent.isFullyDownloaded = true)
    (h : Runs.Reaches (step sha1) v w) : Final v w := by
  have hrun : (Reachable sha1 f w ∧ w.torrent.isFullyDownloaded = true) ∧ Final v w := by
    refine h.invariant
      (I := fun w => (Reachable sha1 f w ∧ w.torrent.isFullyDownloaded = true) ∧ Final v w) ?_
      ⟨⟨hr, hfull⟩, .refl v⟩
    rintro u l u' hs ⟨⟨hu, hufull⟩, hfinal⟩
    have hstep := step_final hu hs hufull
    refine ⟨⟨hu.step hs, ?_⟩, hfinal.trans hstep⟩
    rw [hstep.torrent]
    exact hufull
  exact hrun.2

/-- After the one-byte download the peer is interested and announces the piece once more. -/
theorem complete_final_oneByte : ∃ w, Runs.exec (step sha1OfA) oneByteDone
    [.frame 0 2 [] {}, .frame 0 5 [128] {}] = some w ∧ Final oneByteDone w := by
  have hsome : (Runs.exec (step sha1OfA) oneByteDone
      [.frame 0 2 [] {}, .frame 0 5 [128] {}]).isSome = true := by
    decide +kernel
  obtain ⟨w, hw⟩ := Option.isSome_iff_exists.mp hsome
  exact ⟨w, hw, complete_final oneByteDone_reachable (by decide +kernel) ⟨_, hw⟩⟩

end YTorrent
