import Mathlib.Data.List.Nodup
import YTorrent.Torrent.Joining

/-!
# One connection per address

The addresses of the active peers, as `Connection::getIP` reports them, and the
addresses in `blackListed`, those of connections that are being established.
`connectToPeers` dials no address of either kind; the accept callback and
`handshaked` make no such check (`Crosses`).

* `one_connection_iff`: through a run the addresses are kept apart exactly when
  none of its steps crosses.
* `one_connection_fails`: two incoming connections from one host.
-/

namespace YTorrent

open World Peer

/-- The address `p->getRawIp()`; 0 when the connection is closed or the remote
    endpoint is not known. -/
def World.rawIp (w : World) (p : PeerId) : ℕ := (w.peers p).conn.getIP

/-- No two active peers have the same address, and no active peer has one that is
    in `blackListed`. -/
structure OneConnection (w : World) : Prop where
  distinct : w.torrent.activePeers.Pairwise fun p q => w.rawIp p = w.rawIp q → w.rawIp p = 0
  apart : ∀ p ∈ w.torrent.activePeers, w.rawIp p ≠ 0 → w.rawIp p ∉ w.torrent.blackListed

/-- The steps at which a connection from an address is accepted, or completes its
    handshake, while another peer with that address is active. -/
def Crosses (w : World) : Label → Prop
  | .accepted remote =>
    remote.getD 0 ≠ 0 ∧ ∃ q ∈ w.torrent.activePeers, w.rawIp q = remote.getD 0
  | .handshake p peerHandshake =>
    handshakeRefused w.torrent.handshake peerHandshake = false ∧ w.rawIp p ≠ 0 ∧
      ∃ q ∈ w.torrent.activePeers, w.rawIp q = w.rawIp p
  | _ => False

instance (w : World) : ∀ l, Decidable (Crosses w l)
  | .accepted _ | .handshake _ _ => by unfold Crosses; infer_instance
  | .frame _ _ _ _ | .socketError _ | .endpointLost _ | .dial _ | .connected _
  | .disconnectPeers => isFalse id

variable {sha1 : List Byte → List ℕ} {f : ParsedFile} {w w' : World} {p q : PeerId} {env : Env}
  {messageID : Byte} {payload : List Byte}

/-! ## Addresses -/

theorem getIP_closed (c : Connection) : c.closed.getIP = 0 := rfl

theorem rawIp_setConn (w : World) (p : PeerId) (c : Connection) (q : PeerId) :
    (w.setConn p c).rawIp q = if q = p then c.getIP else w.rawIp q := by
  unfold World.rawIp
  split
  · rename_i hq
    rw [hq, setConn_conn_self]
  · rename_i hq
    rw [setConn_peers_of_ne _ _ hq]

@[simp] theorem rawIp_takeRead (w : World) (p q : PeerId) : (takeRead w p).rawIp q = w.rawIp q := by
  rw [takeRead, rawIp_setConn]
  split
  · rename_i hq
    rw [hq]
    rfl
  · rfl

/-- Active peers are removed at most, the others lose their address at most, and
    `blackListed` is left alone. -/
structure Fades (w w' : World) : Prop where
  active : w'.torrent.activePeers.Sublist w.torrent.activePeers
  blackListed : w'.torrent.blackListed = w.torrent.blackListed
  rawIp : ∀ q ∈ w'.torrent.activePeers, w'.rawIp q = w.rawIp q ∨ w'.rawIp q = 0

namespace Fades

theorem refl (w : World) : Fades w w := ⟨.refl _, rfl, fun _ _ => .inl rfl⟩

theorem trans {u v w : World} (h : Fades u v) (h' : Fades v w) : Fades u w where
  active := h'.active.trans h.active
  blackListed := h'.blackListed.trans h.blackListed
  rawIp q hq := by
    rcases h'.rawIp q hq with heq | hzero
    · rw [heq]
      exact h.rawIp q (h'.active.subset hq)
    · exact .inr hzero

theorem setConn {c : Connection} (hc : c.getIP = w.rawIp p ∨ c.getIP = 0) :
    Fades w (w.setConn p c) := by
  refine ⟨.refl _, rfl, fun q _ => ?_⟩
  rw [rawIp_setConn]
  split
  · rename_i hq
    rw [hq]
    exact hc
  · exact .inl rfl

theorem takeRead (w : World) (p : PeerId) : Fades w (takeRead w p) :=
  ⟨.refl _, rfl, fun q _ => .inl (rawIp_takeRead w p q)⟩

theorem handleError (w : World) (p : PeerId) (e : PeerError) :
    Fades w (Peer.handleError w p e) := by
  have hact : Fades w (w.setTorrent { w.torrent with activePeers := activeWithout w p }) :=
    ⟨List.eraseP_sublist, rfl, fun _ _ => .inl rfl⟩
  rw [handleError_eq]
  refine hact.trans (.trans (setConn (p := p) (.inr (getIP_closed (w.peers p).conn))) ?_)
  exact ⟨.refl _, rfl, fun _ _ => .inl rfl⟩

theorem disconnectPeers (w : World) : Fades w (Torrent.disconnectPeers w) :=
  disconnectPeers_induction (I := Fades w) (refl w) fun _ _ _ hv => hv.trans (setConn (.inr rfl))

theorem frame (h : FrameEffect sha1 w p env messageID payload w') : Fades w w' where
  active := by
    rcases h.active with ha | ha
    · rw [ha]
    · rw [ha]
      exact List.eraseP_sublist
  blackListed := h.blackListed
  rawIp q _ := by
    by_cases hq : q = p
    · subst hq
      unfold World.rawIp
      rcases h.conn with hc | hc | hc <;> rw [hc]
      · exact .inl rfl
      · exact .inl rfl
      · exact .inr rfl
    · unfold World.rawIp
      rw [h.peers_of_ne hq]
      exact .inl rfl

end Fades

/-- Addresses that are kept apart stay so when some are lost. -/
theorem OneConnection.fades (h : OneConnection w) (hf : Fades w w') : OneConnection w' where
  distinct := by
    refine (h.distinct.sublist hf.active).imp_of_mem fun {p q} hp hq hpq heq => ?_
    rcases hf.rawIp p hp with h1 | h1
    · rcases hf.rawIp q hq with h2 | h2
      · rw [h1] at heq ⊢
        exact hpq (heq.trans h2)
      · exact heq.trans h2
    · exact h1
  apart p hp hne := by
    rcases hf.rawIp p hp with h1 | h1
    · rw [h1] at hne ⊢
      rw [hf.blackListed]
      exact h.apart p (hf.active.subset hp) hne
    · exact absurd h1 hne

/-! ## One step -/

/-- A new peer is not active, so it does not matter which address it has. -/
theorem rawIp_newPeer (w : World) (c : Connection) (hq : q ≠ w.peerCount) :
    (newPeer w c).rawIp q = w.rawIp q := by
  unfold World.rawIp
  have hne : (newPeer w c).peers q = w.peers q := setPeer_peers_of_ne _ _ hq
  rw [hne]

/-- An address is entered in `blackListed`, for a peer that is not active yet. -/
theorem OneConnection.insert (h : OneConnection w) (ip : ℕ)
    (hactive : w'.torrent.activePeers = w.torrent.activePeers)
    (hblack : w'.torrent.blackListed = w.torrent.blackListed.insert ip)
    (hip : ∀ q ∈ w.torrent.activePeers, w'.rawIp q = w.rawIp q) :
    OneConnection w' ↔ ¬ (ip ≠ 0 ∧ ∃ q ∈ w.torrent.activePeers, w.rawIp q = ip) := by
  constructor
  · rintro h' ⟨hne, q, hq, rfl⟩
    have hsame := hip q hq
    refine h'.apart q (hactive ▸ hq) (hsame ▸ hne) ?_
    rw [hblack, hsame]
    exact List.mem_insert_self
  · intro hno
    constructor
    · rw [hactive]
      refine h.distinct.imp_of_mem fun {p q} hp hq hpq => ?_
      rw [hip p hp, hip q hq]
      exact hpq
    · intro p hp hne hmem
      rw [hactive] at hp
      rw [hip p hp] at hne hmem
      rw [hblack] at hmem
      rcases List.mem_insert_iff.mp hmem with heq | hold
      · exact hno ⟨heq ▸ hne, p, hp, heq⟩
      · exact h.apart p hp hne hold

/-- A peer becomes active, and its address leaves `blackListed`. -/
theorem OneConnection.join (h : OneConnection w) (hnodup : w.torrent.blackListed.Nodup)
    (hactive : w'.torrent.activePeers = w.torrent.activePeers ++ [p])
    (hblack : w'.torrent.blackListed = w.torrent.blackListed.erase (w.rawIp p))
    (hip : ∀ q, w'.rawIp q = w.rawIp q) :
    OneConnection w' ↔ ¬ (w.rawIp p ≠ 0 ∧ ∃ q ∈ w.torrent.activePeers, w.rawIp q = w.rawIp p) := by
  have hdistinct : (w.torrent.activePeers ++ [p]).Pairwise
      (fun p q => w'.rawIp p = w'.rawIp q → w'.rawIp p = 0) ↔
        ¬ (w.rawIp p ≠ 0 ∧ ∃ q ∈ w.torrent.activePeers, w.rawIp q = w.rawIp p) := by
    simp only [hip, List.pairwise_append, List.pairwise_singleton, List.mem_singleton, h.distinct,
      forall_eq, true_and]
    constructor
    · rintro hall ⟨hne, q, hq, heq⟩
      exact hne (heq ▸ hall q hq heq)
    · intro hno q hq heq
      by_contra hne
      exact hno ⟨heq ▸ hne, q, hq, heq⟩
  constructor
  · intro h'
    have hd := h'.distinct
    rw [hactive] at hd
    exact hdistinct.mp hd
  · intro hno
    refine ⟨by rw [hactive]; exact hdistinct.mpr hno, fun q hq hne hmem => ?_⟩
    rw [hip] at hne hmem
    rw [hblack] at hmem
    rw [hactive] at hq
    rcases List.mem_append.mp hq with hq | hq
    · exact h.apart q hq hne (List.mem_of_mem_erase hmem)
    · rw [List.mem_singleton.mp hq] at hmem
      exact hnodup.not_mem_erase hmem

/-- An address is in `blackListed` at most once. -/
theorem blackListed_nodup (h : Reachable sha1 f w) : w.torrent.blackListed.Nodup := by
  refine h.invariant (I := fun w => w.torrent.blackListed.Nodup) ?_ List.nodup_nil
  intro v l v' hs hv
  cases (step_effect hs).2 with
  | frame p messageID payload env hr _ heff => exact heff.blackListed ▸ hv
  | socketError p =>
    rw [(Fades.handleError (takeRead v p) p _).blackListed]
    exact hv
  | refused p =>
    rw [(Fades.handleError (takeRead v p) p _).blackListed]
    exact hv
  | socketClosed | endpointLost | skipped | connected => exact hv
  | dialled | accepted => exact hv.insert
  | connectHandshake | authenticateHandshake =>
    rw [read_torrent]
    exact hv.erase _
  | disconnectPeers => exact (Fades.disconnectPeers v).blackListed ▸ hv

/-- A step keeps the addresses apart exactly when it does not cross. -/
theorem OneConnection.step {l : Label} (hr : Reachable sha1 f w)
    (hs : YTorrent.step sha1 w l = some w') (h : OneConnection w) :
    OneConnection w' ↔ ¬ Crosses w l := by
  have hactive : ∀ q ∈ w.torrent.activePeers, ¬ w.Joining q := fun q hq hjoin =>
    hr.newcomers.inactive q hjoin hq
  have hnew : ∀ q ∈ w.torrent.activePeers, q ≠ w.peerCount := fun q hq heq =>
    hactive q hq (.inl heq.ge)
  have hcross : ∀ p peerHandshake, handshakeRefused w.torrent.handshake peerHandshake = false →
      (Crosses w (.handshake p peerHandshake) ↔
        (w.rawIp p ≠ 0 ∧ ∃ q ∈ w.torrent.activePeers, w.rawIp q = w.rawIp p)) := by
    intro p peerHandshake href
    simp [Crosses, href]
  cases (step_effect hs).2 with
  | frame p messageID payload env hready _ heff =>
    exact iff_of_true (h.fades ((Fades.takeRead w p).trans (.frame heff))) id
  | socketError p =>
    exact iff_of_true (h.fades ((Fades.takeRead w p).trans (.handleError _ p _))) id
  | socketClosed p => exact iff_of_true (h.fades (.setConn (.inr rfl))) id
  | endpointLost p =>
    refine iff_of_true (h.fades (.setConn (.inr ?_))) id
    simp [Connection.getIP]
  | skipped => exact iff_of_true h id
  | dialled ip hskip =>
    refine iff_of_true ?_ id
    refine (OneConnection.insert h ip ?_ ?_ ?_).mpr ?_
    · rfl
    · rfl
    · exact fun q hq => rawIp_newPeer (w.setTorrent _) _ (hnew q hq)
    · rintro ⟨-, q, hq, heq⟩
      exact hskip (.inr (.inr ⟨q, hq, heq⟩))
  | connected p ip hpend =>
    -- the peer that gets an address is not active yet
    refine iff_of_true (h.fades ⟨.refl _, rfl, fun q hq => .inl ?_⟩) id
    refine (rawIp_setConn w p _ q).trans (if_neg ?_)
    rintro rfl
    exact hactive q hq (.inr (by rw [hpend]; rfl))
  | accepted remote =>
    show OneConnection _ ↔ ¬ (remote.getD 0 ≠ 0 ∧
      ∃ q ∈ w.torrent.activePeers, w.rawIp q = remote.getD 0)
    refine OneConnection.insert h (remote.getD 0) ?_ ?_ ?_
    · rfl
    · rfl
    · exact fun q hq => rawIp_newPeer w _ (hnew q hq)
  | refused p peerHandshake hopen hpend href =>
    refine iff_of_true (h.fades ((Fades.takeRead w p).trans (.handleError _ p _))) ?_
    rintro ⟨hacc, -⟩
    rw [href] at hacc
    cases hacc
  | connectHandshake p peerHandshake hopen hpend href
  | authenticateHandshake p peerHandshake hopen hpend href =>
    rw [hcross p peerHandshake href]
    refine OneConnection.join h (blackListed_nodup hr) ?_ ?_ ?_
    · rw [read_torrent]
      rfl
    · rw [read_torrent, ← rawIp_takeRead w p p]
      rfl
    · intro q
      rw [← rawIp_takeRead w p q]
      exact read_getIP ..
  | disconnectPeers => exact iff_of_true (h.fades (.disconnectPeers w)) id

/-! ## Runs -/

/-- In every run the addresses are kept apart in all states exactly when no step
    accepts a connection, or completes a handshake, from the address of another
    active peer. -/
theorem one_connection_iff {ls : List Label}
    (h : Runs.exec (YTorrent.step sha1) f.start ls = some w) :
    Runs.Throughout (YTorrent.step sha1) OneConnection f.start ls ↔
      Runs.Guarded (YTorrent.step sha1) (fun w l => ¬ Crosses w l) f.start ls := by
  refine Runs.throughout_iff (I := Reachable sha1 f) ?_ ?_ h (.refl _) ⟨.nil, nofun⟩
  · intro v l v' hs hv
    exact hv.step hs
  · intro v v' l _ hs hv hone
    exact hone.step hv hs

/-- In the one-byte download the addresses are kept apart. -/
theorem one_connection_oneByte :
    Runs.Throughout (YTorrent.step sha1OfA) OneConnection oneByteFile.start oneByteRun :=
  (one_connection_iff oneByteRun_exec).mpr (by decide +kernel)

/-! ## Two connections from one host -/

/-- A host connects to us, and connects again while the first connection is up. -/
def twiceConnected : List Label :=
  [.accepted (some 1), .handshake 0 zeroHandshake, .accepted (some 1), .handshake 1 zeroHandshake]

/-- Both connections are in `activePeers`. -/
theorem one_connection_fails : ¬ ∀ (sha1 : List Byte → List ℕ) (f : ParsedFile) (w : World),
    Reachable sha1 f w → OneConnection w := by
  intro hall
  have hrun : ((Runs.exec (YTorrent.step sha1OfA) oneByteFile.start twiceConnected).map fun w =>
      decide (w.torrent.activePeers = [0, 1] ∧ w.rawIp 0 = 1 ∧ w.rawIp 1 = 1)) = some true := by
    decide +kernel
  obtain ⟨w, hw, htwo⟩ := Option.map_eq_some_iff.mp hrun
  obtain ⟨hactive, h0, h1⟩ := of_decide_eq_true htwo
  have hd := (hall sha1OfA oneByteFile w ⟨twiceConnected, hw⟩).distinct
  rw [hactive] at hd
  have hzero := (List.pairwise_cons.mp hd).1 1 (by simp) (h0.trans h1.symm)
  omega

end YTorrent
