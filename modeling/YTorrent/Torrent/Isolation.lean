import YTorrent.Common.Simulation
import YTorrent.Torrent.Dropped

/-!
# What other peers cannot change

What a connection is in terms of the protocol (who chokes whom, whether the peer is
interested, which pieces it has announced) is an automaton of its own (`View`) that
takes the frames of this peer one after another. The selection of pieces and the
completion of pieces, in which the peers meet, leave it alone.

* `views_isolated`: in every run the view of a peer is that of the automaton after the
  frames of this peer, whatever other peers do in between and before.
-/

namespace YTorrent

open World Peer

/-- What the frames of a peer alone decide. -/
structure View where
  hasPieceIndexes : List ℕ := []
  amChoking : Bool := true
  peerChoking : Bool := true
  peerInterested : Bool := false
  deriving DecidableEq, Repr

/-- The view a peer object is in. -/
def Peer.view (x : Peer) : View where
  hasPieceIndexes := x.hasPieceIndexes
  amChoking := x.amChoking
  peerChoking := x.peerChoking
  peerInterested := x.peerInterested

/-- The view after a frame, for a torrent of `n` pieces. -/
def View.frame (n : ℕ) (v : View) (messageID : Byte) (payload : List Byte) : View :=
  match MessageID.ofByte messageID with
  | some .choke => if payload.length = 0 then { v with peerChoking := true } else v
  | some .unchoke => if payload.length = 0 then { v with peerChoking := false } else v
  | some .interested =>
    if payload.length = 0 then { v with peerInterested := true, amChoking := false } else v
  | some .notInterested => if payload.length = 0 then { v with peerInterested := false } else v
  | some .havePiece =>
    if payload.length = 4 ∧ haveField payload ∉ v.hasPieceIndexes then
      { v with hasPieceIndexes := v.hasPieceIndexes ++ [haveField payload] }
    else v
  | some .bitfield => { v with hasPieceIndexes := v.hasPieceIndexes ++ bitfieldIndexes payload n }
  | _ => v

/-- The frame of `p` the step handles, if it handles one. -/
def Label.frameOf (p : PeerId) : Label → Option (Byte × List Byte)
  | .frame q messageID payload _ => if q = p then some (messageID, payload) else none
  | _ => none

/-- The view after the frames of `p` among the events `ls`. -/
def View.after (n : ℕ) (p : PeerId) (ls : List Label) : View :=
  (ls.filterMap (Label.frameOf p)).foldl (fun v fr => v.frame n fr.1 fr.2) {}

variable {sha1 : List Byte → List ℕ} {f : ParsedFile} {w w' : World} {p q : PeerId}
  {env : Env} {messageID : Byte} {payload : List Byte} {l : Label} {ls : List Label}

/-! ## Updates that leave the views alone -/

@[simp] theorem view_setConn (w : World) (p q : PeerId) (c : Connection) :
    ((w.setConn p c).peers q).view = (w.peers q).view := by
  rw [setConn_peers]
  split
  · rename_i hq
    rw [hq]
    rfl
  · rfl

@[simp] theorem view_read (w : World) (p q : PeerId) (rc : Pending) :
    ((Connection.read w p rc).peers q).view = (w.peers q).view := by
  unfold Connection.read
  split
  · exact view_setConn ..
  · rfl

theorem view_handleError (w : World) (p q : PeerId) (e : PeerError) :
    ((Peer.handleError w p e).peers q).view = (w.peers q).view := by
  rw [handleError_eq, log_peers, view_setConn]
  rfl

theorem view_erasePiece (w : World) (p : PeerId) (it : ℕ) :
    ((erasePiece w p it).peers p).view = (w.peers p).view := by
  rw [erasePiece, setPeer_peers_self]
  rfl

theorem view_storeBlock (w : World) (p : PeerId) (it : ℕ) (piece : Peer.Piece) :
    ((storeBlock w p payload it piece).peers p).view = (w.peers p).view := by
  rw [storeBlock, setPeer_peers_self]
  rfl

theorem SelectEffect.view (h : SelectEffect w p w') : (w'.peers p).view = (w.peers p).view := by
  cases h with
  | none => rfl
  | requested i =>
    rw [log_peers, setPeer_peers_self]
    rfl

theorem ServeEffect.view {i begin length : ℕ} (h : ServeEffect w p i begin length w') :
    (w'.peers p).view = (w.peers p).view := by
  cases h with
  | refused => exact view_setConn ..
  | silent | sent => rfl

/-! ## Frames -/

theorem bitfieldIndexes_nil (n : ℕ) : bitfieldIndexes [] n = [] := rfl

/-- A frame that is refused changes no view. -/
theorem Refused.view (h : Refused w p messageID payload) (n : ℕ) (x : View) :
    x.frame n messageID payload = x := by
  unfold Refused at h
  unfold View.frame
  split at h
  · exact h.elim
  · rename_i hid
    rw [hid]
    exact if_neg h
  · rename_i hid
    rw [hid]
    exact if_neg h
  · rename_i hid
    rw [hid]
    exact if_neg h
  · rename_i hid
    rw [hid]
    exact if_neg h
  · rename_i hid
    rw [hid]
    exact if_neg fun hok => h hok.1
  · rename_i hid
    rw [hid, List.length_eq_zero_iff.mp (Nat.lt_one_iff.mp h), bitfieldIndexes_nil]
    simp
  · rename_i hid
    rw [hid]
  · rename_i hid
    rw [hid]
  · rename_i hid
    rw [hid]

/-- The messages without a payload that are not refused have none. -/
theorem payload_eq_nil (href : ¬ Refused w p messageID payload) {m : MessageID}
    (hid : MessageID.ofByte messageID = some m)
    (hm : m = .choke ∨ m = .unchoke ∨ m = .interested ∨ m = .notInterested) :
    payload.length = 0 := by
  by_contra hne
  refine href ?_
  unfold Refused
  rw [hid]
  rcases hm with rfl | rfl | rfl | rfl <;> exact hne

theorem Ignorable.view (h : Ignorable w p messageID payload) (n : ℕ) :
    (w.peers p).view.frame n messageID payload = (w.peers p).view := by
  cases h with
  | unknown hid => rw [View.frame, hid]
  | havePiece hid hsize hold =>
    rw [View.frame, hid]
    exact if_neg fun h => h.2 (List.contains_iff_mem.mp hold)
  | cancel hid => rw [View.frame, hid]

/-- A frame that is not refused moves the view of its peer as the automaton says. -/
theorem FrameEffect.view (h : FrameEffect sha1 w p env messageID payload w')
    (href : ¬ Refused w p messageID payload) :
    (w'.peers p).view = (w.peers p).view.frame w.torrent.getTotalPieces messageID payload := by
  cases h with
  | ignored h => rw [view_read, h.view]
  | refused e h => exact absurd (refused_of_refusal h) href
  | choke hid =>
    have hsize := payload_eq_nil href hid (.inl rfl)
    rw [view_read, setPeer_peers_self, View.frame, hid]
    exact (if_pos hsize).symm
  | unchoke hid =>
    have hsize := payload_eq_nil href hid (.inr (.inl rfl))
    rw [view_read, log_peers, setPeer_peers_self, View.frame, hid]
    exact (if_pos hsize).symm
  | interested hid =>
    have hsize := payload_eq_nil href hid (.inr (.inr (.inl rfl)))
    rw [view_read, log_peers, setPeer_peers_self, View.frame, hid]
    exact (if_pos hsize).symm
  | notInterested hid =>
    have hsize := payload_eq_nil href hid (.inr (.inr (.inr rfl)))
    rw [view_read, setPeer_peers_self, View.frame, hid]
    exact (if_pos hsize).symm
  | havePiece hid hsize hnew =>
    have hno : haveField payload ∉ (w.peers p).view.hasPieceIndexes := fun hmem =>
      absurd (List.contains_iff_mem.mpr hmem) (by rw [← Bool.not_eq_true] at hnew; exact hnew)
    rw [view_read, setPeer_peers_self, View.frame, hid]
    exact (if_pos ⟨hsize, hno⟩).symm
  | bitfield hid v hsel =>
    rw [view_read, hsel.view, setPeer_peers_self, View.frame, hid]
    rfl
  | request hid _ _ _ _ v hserve =>
    rw [view_read, View.frame, hid]
    rcases hserve with ⟨-, rfl⟩ | ⟨-, hserve⟩
    · rfl
    · exact hserve.view
  | cancelled hid it piece =>
    rw [view_read, view_erasePiece, View.frame, hid]
    rfl
  | stored hid it piece =>
    rw [view_read, view_storeBlock, View.frame, hid]
  | ioFailed hid it piece _ _ _ v hcomp =>
    rw [hcomp.peers, view_storeBlock, View.frame, hid]
  | completed hid it piece _ _ _ v v' hcomp _ hsel =>
    rw [view_read, hsel.view, view_erasePiece, hcomp.peers, view_storeBlock, View.frame, hid]

/-- A step moves the view of a peer only if it handles a frame of this peer. -/
theorem step_view (hn : Newcomers w) (h : step sha1 w l = some w') (p : PeerId) :
    (w'.peers p).view = (l.frameOf p).elim (w.peers p).view
      fun fr => (w.peers p).view.frame w.torrent.getTotalPieces fr.1 fr.2 := by
  by_cases hl : ∀ q messageID payload env, l ≠ .frame q messageID payload env
  · have hnone : l.frameOf p = none := by
      cases l with
      | frame q messageID payload env => exact absurd rfl (hl q messageID payload env)
      | socketError | endpointLost | dial | connected | accepted | handshake | disconnectPeers => rfl
    rw [hnone]
    obtain ⟨c, hc | ⟨hq, hc⟩⟩ := (step_outside h hl).2.peers p
    · rw [hc]
      rfl
    · rw [hc, hn.unborn p hq]
      rfl
  · simp only [not_forall, not_not] at hl
    obtain ⟨q, messageID, payload, env, rfl⟩ := hl
    obtain ⟨-, hready, heff⟩ := step_frame h
    by_cases hq : q = p
    · subst hq
      have hbefore : ((takeRead w q).peers q).view = (w.peers q).view := view_setConn ..
      rw [Label.frameOf, if_pos rfl, Option.elim_some, ← hbefore]
      by_cases href : Refused (takeRead w q) q messageID payload
      · obtain ⟨e, he⟩ : ∃ e, handleMessage sha1 (takeRead w q) q env messageID payload =
            handleError (takeRead w q) q e := handleMessage_of_refused href
        rw [← step_frame_eq h, he, view_handleError, href.view]
      · exact heff.view href
    · rw [Label.frameOf, if_neg hq, Option.elim_none, heff.peers_of_ne (Ne.symm hq)]
      exact view_setConn ..

/-! ## Runs -/

/-- In every run the view of a peer is that of the automaton after the frames of this peer
    alone. -/
theorem views_isolated (h : Runs.exec (step sha1) f.start ls = some w) (p : PeerId) :
    (w.peers p).view = View.after f.hashes.length p ls := by
  refine Runs.exec_view (I := Reachable sha1 f) (fun w => (w.peers p).view) (Label.frameOf p)
    (fun s l s' hs hr => ⟨hr.step hs, ?_⟩) h (.refl _)
  have hstep := step_view hr.newcomers hs p
  rwa [Torrent.getTotalPieces, hr.length_pieces] at hstep

/-- After the one-byte download the peer has announced the piece and does not choke us,
    and we still choke it. -/
theorem views_isolated_oneByte : (oneByteDone.peers 0).view =
    { hasPieceIndexes := [0], amChoking := true, peerChoking := false, peerInterested := false } :=
  (views_isolated oneByteRun_exec 0).trans (by decide)

end YTorrent
