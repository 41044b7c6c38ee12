import YTorrent.Torrent.Addresses

/-!
# Who is in `activePeers`

A peer enters the list when its handshake is accepted, by `Peer::connect` or by
`Peer::authenticate` (peer.cpp lines 39–86), and leaves it through
`Torrent::removePeer` (torrent.cpp lines 347–363).

* `handshake_iff`: a handshake is treated as the protocol asks, unless exactly one
  of its length byte and its name is right and its info hash is ours.
* `removePeer_iff`: `removePeer` removes the peer it is given and no other exactly
  when no entry in front of that peer has its address.
* `handshake_fails`, `removePeer_fails`: a handshake with a wrong name, and two
  peers with one address.
-/

namespace YTorrent

open World

/-! ## Handshakes -/

/-- The handshake is one of our protocol, for our torrent. -/
structure Conforms (myHandshake peerHandshake : List Byte) : Prop where
  length_byte : readU8 peerHandshake 0 = 19
  name : (peerHandshake.drop 1).take 19 = protocolName
  infoHash : infoHashOf peerHandshake = infoHashOf myHandshake

/-- The peer is added to `activePeers`, and the read of a message is issued. -/
def Admitted (w w' : World) (p : PeerId) : Prop :=
  w'.torrent.activePeers = w.torrent.activePeers ++ [p] ∧ (w'.peers p).conn.pending = .message

/-- The peer is not added, and no read is issued. -/
def TurnedAway (w w' : World) (p : PeerId) : Prop :=
  w'.torrent.activePeers.Sublist w.torrent.activePeers ∧ (w'.peers p).conn.pending = .none

/-- The peer is admitted if its handshake conforms and turned away if not. -/
def HandshakeRule (w w' : World) (p : PeerId) (peerHandshake : List Byte) : Prop :=
  (Conforms w.torrent.handshake peerHandshake → Admitted w w' p) ∧
    (¬ Conforms w.torrent.handshake peerHandshake → TurnedAway w w' p)

/-- An admitted peer is in the list, a peer that is turned away is not added. -/
theorem Admitted.not_turnedAway {w w' : World} {p : PeerId} (h : Admitted w w' p) :
    ¬ TurnedAway w w' p := by
  intro haway
  have hlen := haway.1.length_le
  rw [h.1, List.length_append, List.length_singleton] at hlen
  omega

/-- The condition of the source: of the length byte and the name one is enough. -/
theorem handshakeRefused_eq_false {myHandshake peerHandshake : List Byte}
    (hlen : peerHandshake.length = 68) : handshakeRefused myHandshake peerHandshake = false ↔
      (readU8 peerHandshake 0 = 19 ∨ (peerHandshake.drop 1).take 19 = protocolName) ∧
        infoHashOf peerHandshake = infoHashOf myHandshake := by
  unfold handshakeRefused infoHashOf
  simp only [hlen, bne_self_eq_false, Bool.false_or, Bool.or_eq_false_iff, Bool.and_eq_false_iff,
    bne_eq_false_iff_eq]

variable {sha1 : List Byte → List ℕ} {w w' : World} {p : PeerId} {peerHandshake : List Byte}

/-- Only handshakes of 68 bytes are read. -/
theorem step_handshake_length (h : step sha1 w (.handshake p peerHandshake) = some w') :
    peerHandshake.length = 68 := by
  unfold step at h
  split at h
  · cases h
  · simp only at h
    split_ifs at h with hready
    simpa using ((Bool.and_eq_true _ _).mp hready).2

/-- A handshake that is refused turns the peer away. -/
theorem refused_turnedAway :
    TurnedAway w (Peer.handleError (takeRead w p) p .handshakeMismatch) p := by
  rw [handleError_eq]
  refine ⟨List.eraseP_sublist, ?_⟩
  simp only [log_peers, setConn_conn_self, Connection.closed, takeRead]
  split <;> rfl

/-- What a handshake does depends on the condition of the source alone. -/
theorem step_handshake (h : step sha1 w (.handshake p peerHandshake) = some w') :
    (handshakeRefused w.torrent.handshake peerHandshake = true ∧ TurnedAway w w' p) ∨
      (handshakeRefused w.torrent.handshake peerHandshake = false ∧ Admitted w w' p) := by
  have hread : ∀ v : World, (v.peers p).conn.isOpen = true →
      ((Connection.read v p .message).peers p).conn.pending = .message := by
    intro v hopen
    rw [read_conn, if_pos hopen]
  cases (step_effect h).2 with
  | refused _ _ hopen hpend href => exact .inl ⟨href, refused_turnedAway⟩
  | connectHandshake _ _ hopen hpend href =>
    refine .inr ⟨href, ?_, hread _ ?_⟩
    · rw [read_torrent]
      rfl
    · show ((takeRead w p).peers p).conn.isOpen = true
      simpa [takeRead] using hopen
  | authenticateHandshake _ _ hopen hpend href =>
    refine .inr ⟨href, ?_, hread _ ?_⟩
    · rw [read_torrent]
      rfl
    · show ((takeRead w p).peers p).conn.isOpen = true
      simpa [takeRead] using hopen

/-- A handshake that is read, on either path, admits the peer or turns it away as it
    should, exactly when, if its info hash is ours, its length byte and its name are both
    right or both wrong. -/
theorem handshake_iff (h : step sha1 w (.handshake p peerHandshake) = some w') :
    HandshakeRule w w' p peerHandshake ↔
      (infoHashOf peerHandshake = infoHashOf w.torrent.handshake →
        (readU8 peerHandshake 0 = 19 ↔ (peerHandshake.drop 1).take 19 = protocolName)) := by
  have hrefused : handshakeRefused w.torrent.handshake peerHandshake = false ↔ _ :=
    handshakeRefused_eq_false (step_handshake_length h)
  have hconf : Conforms w.torrent.handshake peerHandshake ↔ readU8 peerHandshake 0 = 19 ∧
      (peerHandshake.drop 1).take 19 = protocolName ∧
        infoHashOf peerHandshake = infoHashOf w.torrent.handshake :=
    ⟨fun hc => ⟨hc.length_byte, hc.name, hc.infoHash⟩, fun hc => ⟨hc.1, hc.2.1, hc.2.2⟩⟩
  unfold HandshakeRule
  rw [hconf]
  rcases step_handshake h with ⟨href, haway⟩ | ⟨href, hadm⟩
  · -- the peer is turned away: both sides hold
    have hcond := mt hrefused.mpr (by simp [href])
    refine iff_of_true ⟨fun hc => absurd ⟨.inl hc.1, hc.2.2⟩ hcond, fun _ => haway⟩ fun hhash => ?_
    exact iff_of_false (fun h19 => hcond ⟨.inl h19, hhash⟩) fun hname => hcond ⟨.inr hname, hhash⟩
  · -- the peer is admitted: both sides say that the handshake conforms
    obtain ⟨hor, hhash⟩ := hrefused.mp href
    constructor
    · rintro ⟨-, haway⟩ -
      obtain ⟨h19, hname, -⟩ := not_not.mp fun hn => hadm.not_turnedAway (haway hn)
      exact iff_of_true h19 hname
    · intro hsame
      refine ⟨fun _ => hadm, fun hn => absurd ?_ hn⟩
      rcases hor with h19 | hname
      · exact ⟨h19, (hsame hhash).mp h19, hhash⟩
      · exact ⟨(hsame hhash).mpr hname, hname, hhash⟩

/-- A client that has accepted a connection and waits for the handshake. -/
def waiting : World := Torrent.accepted oneByteFile.start (some 1)

/-- The handshake of a client for the same torrent. -/
theorem handshake_oneByte : HandshakeRule waiting
    (Peer.authenticateHandshake (takeRead waiting 0) 0 zeroHandshake) 0 zeroHandshake :=
  have h : step sha1OfA waiting (.handshake 0 zeroHandshake) =
    some (Peer.authenticateHandshake (takeRead waiting 0) 0 zeroHandshake) := rfl
  (handshake_iff h).mpr fun _ => by decide

/-- The length byte and the info hash are right, the name is 19 zeros. -/
def namelessHandshake : List Byte := 19 :: List.replicate 67 0

/-- The peer is admitted. -/
theorem handshake_fails : ¬ ∀ (sha1 : List Byte → List ℕ) (w w' : World) (p : PeerId)
    (peerHandshake : List Byte), step sha1 w (.handshake p peerHandshake) = some w' →
      HandshakeRule w w' p peerHandshake := by
  intro hall
  have hrun := hall sha1OfA waiting _ 0 namelessHandshake rfl
  have hconf : ¬ Conforms zeroHandshake namelessHandshake := fun h => absurd h.name (by decide)
  have haway := (hrun.2 hconf).1.length_le
  revert haway
  decide +kernel

/-! ## Removal -/

/-- `removePeer` deletes the peer it is given from the list, and leaves the others as
    they are. -/
def RemovesOnly (w : World) (p : PeerId) : Prop :=
  (Torrent.removePeer w p).torrent.activePeers = w.torrent.activePeers.erase p

/-- The entries of `activePeers` in front of `p`; all of them if `p` is not active. -/
def aheadOf (w : World) (p : PeerId) : List PeerId := w.torrent.activePeers.takeWhile (· ≠ p)

/-- Removing the first element that is like `p` removes `p` if nothing in front is like it. -/
theorem eraseP_eq_erase_iff {f : PeerId → Bool} (hp : f p = true) (l : List PeerId) :
    l.eraseP f = l.erase p ↔ ∀ q ∈ l.takeWhile (· ≠ p), f q = false := by
  induction l with
  | nil => simp
  | cons a l ih =>
    by_cases ha : a = p
    · subst ha
      simp [hp]
    · rw [List.erase_cons_tail (by simpa using ha),
        List.takeWhile_cons_of_pos (by simpa using ha), List.forall_mem_cons]
      by_cases hfa : f a = true
      · rw [List.eraseP_cons_of_pos hfa]
        refine iff_of_false (fun heq => ?_) (fun h => by simp [hfa] at h)
        -- the two lists differ in how often `p` occurs, or in length
        have hcount := congrArg (List.count p) heq
        have hlen := congrArg List.length heq
        rw [List.count_cons_of_ne ha, List.count_erase_self] at hcount
        rw [List.length_cons, List.length_erase] at hlen
        split at hlen
        · rename_i hmem
          have hpos : 0 < l.count p := List.count_pos_iff.mpr hmem
          omega
        · omega
      · rw [List.eraseP_cons_of_neg hfa, List.cons.injEq, ih]
        simp [hfa]

/-- `removePeer` removes only the peer it is given exactly when no entry in front of it
    has the same address. -/
theorem removePeer_iff (w : World) (p : PeerId) :
    RemovesOnly w p ↔ ∀ q ∈ aheadOf w p, w.rawIp q ≠ w.rawIp p := by
  have hself : ((w.peers p).conn.getIP == (w.peers p).conn.getIP) = true := beq_self_eq_true _
  have hiff := eraseP_eq_erase_iff (p := p)
    (f := fun q => (w.peers p).conn.getIP == (w.peers q).conn.getIP) hself w.torrent.activePeers
  unfold RemovesOnly aheadOf
  refine hiff.trans (forall₂_congr fun q _ => ?_)
  rw [beq_eq_false_iff_ne, ne_comm]
  rfl

/-- Two peers connect to us from one address. -/
def sharedRun : List Label :=
  [.accepted (some 1), .accepted (some 1), .handshake 0 zeroHandshake, .handshake 1 zeroHandshake]

/-- Both are active, and removing the second removes the first. -/
theorem removePeer_fails : ¬ ∀ (w : World) (p : PeerId), RemovesOnly w p := by
  intro hall
  have hrun : (Runs.exec (step sha1OfA) oneByteFile.start sharedRun).map (fun w =>
      ((Torrent.removePeer w 1).torrent.activePeers, w.torrent.activePeers)) =
        some ([1], [0, 1]) := by
    decide +kernel
  obtain ⟨w, -, hw⟩ := Option.map_eq_some_iff.mp hrun
  obtain ⟨hremoved, hactive⟩ := Prod.mk.inj hw
  have hsame := hall w 1
  rw [RemovesOnly, hremoved, hactive] at hsame
  revert hsame
  decide

end YTorrent
