import YTorrent.Torrent.Queue

/-!
# Joining the active peers

What the handling of a frame leaves alone (`FrameEffect.peers_of_ne`,
`FrameEffect.active`, `FrameEffect.conn`), and the peers whose handshake is not
done: they are not active, have announced nothing and have been told nothing.

* `Reachable.newcomers`: this in every reachable state.
-/

namespace YTorrent

open World Peer

variable {sha1 : List Byte → List ℕ} {w w' : World} {p q : PeerId} {env : Env} {messageID : Byte}
  {payload : List Byte}

/-! ## What a frame leaves alone -/

theorem SelectEffect.peers_of_ne (h : SelectEffect w p w') (hq : q ≠ p) :
    w'.peers q = w.peers q := by
  cases h with
  | none => rfl
  | requested => exact setPeer_peers_of_ne _ _ hq

theorem SelectEffect.conn (h : SelectEffect w p w') (q : PeerId) :
    (w'.peers q).conn = (w.peers q).conn := by
  by_cases hq : q = p
  · subst hq
    cases h with
    | none => rfl
    | requested => simp [queuePiece]
  · rw [h.peers_of_ne hq]

theorem SelectEffect.active (h : SelectEffect w p w') :
    w'.torrent.activePeers = w.torrent.activePeers := by
  cases h <;> rfl

theorem SelectEffect.peerCount (h : SelectEffect w p w') : w'.peerCount = w.peerCount := by
  cases h <;> rfl

theorem CompletionEffect.active {piece : Peer.Piece} {i : ℕ} {data : List Byte}
    (h : CompletionEffect sha1 w p piece i data w') :
    w'.torrent.activePeers = w.torrent.activePeers := by
  cases h <;> rfl

theorem CompletionEffect.peerCount {piece : Peer.Piece} {i : ℕ} {data : List Byte}
    (h : CompletionEffect sha1 w p piece i data w') : w'.peerCount = w.peerCount := by
  cases h <;> rfl

/-- A frame of `p` changes no other peer. -/
theorem FrameEffect.peers_of_ne (h : FrameEffect sha1 w p env messageID payload w') (hq : q ≠ p) :
    w'.peers q = w.peers q := by
  cases h with
  | refused e =>
    rw [handleError_eq]
    exact setConn_peers_of_ne _ _ hq
  | ioFailed hid it piece hacc hdone hlast _ hcomp =>
    rw [hcomp.peers]
    exact setPeer_peers_of_ne _ _ hq
  | ignored => exact read_peers_of_ne _ _ hq
  | choke | unchoke | interested | notInterested | havePiece | stored | cancelled =>
    rw [read_peers_of_ne _ _ hq]
    exact setPeer_peers_of_ne _ _ hq
  | bitfield hid u hsel =>
    rw [read_peers_of_ne _ _ hq, hsel.peers_of_ne hq]
    exact setPeer_peers_of_ne _ _ hq
  | request hid hsize hint hchoke hlen u hserve =>
    rw [read_peers_of_ne _ _ hq]
    rcases hserve with ⟨-, rfl⟩ | ⟨-, hserve⟩
    · rfl
    · cases hserve with
      | refused => exact setConn_peers_of_ne _ _ hq
      | silent => rfl
      | sent => rfl
  | completed hid it piece hacc hdone hlast u u' hcomp hrun hsel =>
    rw [read_peers_of_ne _ _ hq, hsel.peers_of_ne hq, erasePiece, setPeer_peers_of_ne _ _ hq,
      hcomp.peers]
    exact setPeer_peers_of_ne _ _ hq

theorem FrameEffect.peerCount (h : FrameEffect sha1 w p env messageID payload w') :
    w'.peerCount = w.peerCount := by
  cases h with
  | refused e =>
    rw [handleError_eq]
    rfl
  | ioFailed hid it piece hacc hdone hlast _ hcomp => exact hcomp.peerCount
  | ignored | choke | unchoke | interested | notInterested | havePiece | stored | cancelled =>
    exact read_peerCount ..
  | bitfield hid u hsel =>
    rw [read_peerCount, hsel.peerCount]
    rfl
  | request hid hsize hint hchoke hlen u hserve =>
    rw [read_peerCount]
    rcases hserve with ⟨-, rfl⟩ | ⟨-, hserve⟩
    · rfl
    · cases hserve <;> rfl
  | completed hid it piece hacc hdone hlast u u' hcomp hrun hsel =>
    rw [read_peerCount, hsel.peerCount]
    exact hcomp.peerCount

/-- A frame removes active peers at most. -/
theorem FrameEffect.active (h : FrameEffect sha1 w p env messageID payload w') :
    w'.torrent.activePeers = w.torrent.activePeers ∨
      w'.torrent.activePeers = activeWithout w p := by
  cases h with
  | refused e =>
    rw [handleError_eq]
    exact .inr rfl
  | ioFailed hid it piece hacc hdone hlast _ hcomp => exact .inl hcomp.active
  | ignored | choke | unchoke | interested | notInterested | havePiece | stored | cancelled =>
    rw [read_torrent]
    exact .inl rfl
  | bitfield hid u hsel =>
    rw [read_torrent, hsel.active]
    exact .inl rfl
  | request hid hsize hint hchoke hlen u hserve =>
    rw [read_torrent]
    rcases hserve with ⟨-, rfl⟩ | ⟨-, hserve⟩
    · exact .inl rfl
    · cases hserve <;> exact .inl rfl
  | completed hid it piece hacc hdone hlast u u' hcomp hrun hsel =>
    rw [read_torrent, hsel.active]
    exact .inl hcomp.active

theorem SelectEffect.blackListed (h : SelectEffect w p w') :
    w'.torrent.blackListed = w.torrent.blackListed := by
  cases h <;> rfl

theorem CompletionEffect.blackListed {piece : Peer.Piece} {i : ℕ} {data : List Byte}
    (h : CompletionEffect sha1 w p piece i data w') :
    w'.torrent.blackListed = w.torrent.blackListed := by
  cases h <;> rfl

/-- A frame leaves the addresses in `blackListed` alone. -/
theorem FrameEffect.blackListed (h : FrameEffect sha1 w p env messageID payload w') :
    w'.torrent.blackListed = w.torrent.blackListed := by
  cases h with
  | refused e =>
    rw [handleError_eq]
    rfl
  | ioFailed hid it piece hacc hdone hlast _ hcomp => exact hcomp.blackListed
  | ignored | choke | unchoke | interested | notInterested | havePiece | stored | cancelled =>
    exact congrArg Torrent.blackListed (read_torrent ..)
  | bitfield hid u hsel =>
    rw [read_torrent, hsel.blackListed]
    rfl
  | request hid hsize hint hchoke hlen u hserve =>
    rw [read_torrent]
    rcases hserve with ⟨-, rfl⟩ | ⟨-, hserve⟩
    · rfl
    · cases hserve <;> rfl
  | completed hid it piece hacc hdone hlast u u' hcomp hrun hsel =>
    rw [read_torrent, hsel.blackListed]
    exact hcomp.blackListed

theorem FrameEffect.mem_active (h : FrameEffect sha1 w p env messageID payload w')
    (hq : q ∈ w'.torrent.activePeers) : q ∈ w.torrent.activePeers := by
  rcases h.active with ha | ha
  · rwa [ha] at hq
  · rw [ha] at hq
    exact List.mem_of_mem_eraseP hq

/-- After a frame the next message is awaited, or nothing is, or the connection is closed. -/
theorem FrameEffect.conn (h : FrameEffect sha1 w p env messageID payload w') :
    (w'.peers p).conn = (w.peers p).conn ∨
      (w'.peers p).conn = { (w.peers p).conn with pending := .message } ∨
      (w'.peers p).conn = (w.peers p).conn.closed := by
  have hread : ∀ {u : World}, (u.peers p).conn = (w.peers p).conn →
      ((Connection.read u p .message).peers p).conn = (w.peers p).conn ∨
        ((Connection.read u p .message).peers p).conn =
          { (w.peers p).conn with pending := .message } := by
    intro u hu
    rw [read_conn, hu]
    split
    · exact .inr rfl
    · exact .inl rfl
  have hkeep : ∀ {u : World}, (u.peers p).conn = (w.peers p).conn →
      ((Connection.read u p .message).peers p).conn = (w.peers p).conn ∨
        ((Connection.read u p .message).peers p).conn =
          { (w.peers p).conn with pending := .message } ∨
        ((Connection.read u p .message).peers p).conn = (w.peers p).conn.closed :=
    fun hu => (hread hu).imp_right .inl
  cases h with
  | refused e =>
    rw [handleError_eq]
    exact .inr (.inr (by simp))
  | ioFailed hid it piece hacc hdone hlast _ hcomp =>
    rw [hcomp.peers]
    exact .inl (by simp [storeBlock])
  | ignored => exact hkeep rfl
  | choke | unchoke | interested | notInterested | havePiece | stored | cancelled =>
    exact hkeep (by simp [announce, storeBlock, erasePiece])
  | bitfield hid u hsel => exact hkeep (by rw [hsel.conn]; simp [announce])
  | request hid hsize hint hchoke hlen u hserve =>
    rcases hserve with ⟨-, rfl⟩ | ⟨-, hserve⟩
    · exact hkeep rfl
    · cases hserve with
      | refused =>
        refine .inr (.inr ?_)
        rw [read_conn, setConn_conn_self]
        rfl
      | silent => exact hkeep rfl
      | sent => exact hkeep rfl
  | completed hid it piece hacc hdone hlast u u' hcomp hrun hsel =>
    exact hkeep (by rw [hsel.conn]; simp [erasePiece, hcomp.peers, storeBlock])

/-! ## Joining -/

/-- The handshake of the connection is not done. -/
def Pending.isJoining : Pending → Bool
  | .connect _ | .handshakeOut | .handshakeIn => true
  | _ => false

/-- The peer does not exist yet, or its handshake is not done. -/
def World.Joining (w : World) (q : PeerId) : Prop :=
  w.peerCount ≤ q ∨ (w.peers q).conn.pending.isJoining = true

theorem isJoining_closed {c : Connection} (h : c.closed.pending.isJoining = true) :
    c.pending.isJoining = true := by
  unfold Connection.closed at h
  cases hc : c.isOpen <;> simp_all [Pending.isJoining]

/-! ### Nobody joins twice -/

/-- Every peer that is joining in `w'` is joining in `w`. -/
def Settles (w w' : World) : Prop := ∀ q, w'.Joining q → w.Joining q

theorem Settles.trans {u v w : World} (h : Settles u v) (h' : Settles v w) : Settles u w :=
  fun q hq => h q (h' q hq)

/-- The same peers, of which `p` alone has another connection. -/
theorem Settles.of_conn (hcount : w'.peerCount = w.peerCount)
    (hne : ∀ q, q ≠ p → (w'.peers q).conn = (w.peers q).conn)
    (hp : (w'.peers p).conn.pending.isJoining = true →
      (w.peers p).conn.pending.isJoining = true) : Settles w w' := by
  rintro q (hq | hq)
  · exact .inl (hcount ▸ hq)
  · by_cases hqp : q = p
    · subst hqp
      exact .inr (hp hq)
    · rw [hne q hqp] at hq
      exact .inr hq

theorem Settles.setConn {c : Connection}
    (hc : c.pending.isJoining = true → (w.peers p).conn.pending.isJoining = true) :
    Settles w (w.setConn p c) := by
  refine .of_conn (p := p) rfl (fun q hq => by rw [setConn_peers_of_ne _ _ hq]) fun h => ?_
  rw [setConn_conn_self] at h
  exact hc h

theorem Settles.takeRead (w : World) (p : PeerId) : Settles w (takeRead w p) :=
  .setConn (by simp [Pending.isJoining])

theorem Settles.read {rc : Pending} (hrc : rc.isJoining = true →
    (w.peers p).conn.pending.isJoining = true) : Settles w (Connection.read w p rc) := by
  unfold Connection.read
  split
  · exact .setConn hrc
  · exact fun _ h => h

theorem Settles.handleError (w : World) (p : PeerId) (e : PeerError) :
    Settles w (Peer.handleError w p e) := by
  rw [handleError_eq]
  exact Settles.setConn (w := w.setTorrent _) isJoining_closed

theorem Settles.newPeer (w : World) (c : Connection) : Settles w (newPeer w c) := by
  have hpeers : ∀ q, (YTorrent.newPeer w c).peers q =
      if q = w.peerCount then { conn := c } else w.peers q :=
    fun q => setPeer_peers w w.peerCount q _
  rintro q (hq | hq)
  · exact .inl (Nat.le_of_succ_le hq)
  · rw [hpeers] at hq
    split at hq
    · rename_i heq
      exact .inl (heq ▸ le_rfl)
    · exact .inr hq

theorem Settles.disconnectPeers (w : World) : Settles w (Torrent.disconnectPeers w) :=
  disconnectPeers_induction (I := Settles w) (fun _ h => h) fun _ _ _ hv =>
    hv.trans (.setConn isJoining_closed)

theorem Settles.frame (hf : FrameEffect sha1 w p env messageID payload w') : Settles w w' := by
  refine .of_conn (p := p) hf.peerCount (fun q hq => by rw [hf.peers_of_ne hq]) fun h => ?_
  rcases hf.conn with hc | hc | hc <;> rw [hc] at h
  · exact h
  · cases h
  · exact isJoining_closed h

/-! ## Newcomers -/

/-- A peer that is joining is not active, has announced nothing, has no piece
    queued and has been told of no piece. -/
structure Newcomers (w : World) : Prop where
  unborn : ∀ q, w.peerCount ≤ q → w.peers q = {}
  inactive : ∀ q, w.Joining q → q ∉ w.torrent.activePeers
  blank : ∀ q, w.Joining q → (w.peers q).hasPieceIndexes = [] ∧ (w.peers q).pieceQueue = []
  untold : ∀ q m, w.Joining q → m.isAnnouncement = true → .sent q m ∉ w.trace

theorem newcomers_start (f : ParsedFile) : Newcomers f.start where
  unborn q _ := rfl
  inactive q _ h := by cases h
  blank q _ := ⟨rfl, rfl⟩
  untold q m _ _ h := by cases h

/-- The steps of the client that handle no frame change no queue. -/
theorem queue_of_outside (hw : Newcomers w) (h : Outside w w') (q : PeerId) :
    (w'.peers q).pieceQueue = (w.peers q).pieceQueue := by
  obtain ⟨c, hc | ⟨hq, hc⟩⟩ := h.peers q
  · rw [hc]
  · rw [hc, hw.unborn q hq]

/-- A peer whose message can be handled is not joining. -/
theorem Newcomers.not_joining (h : Newcomers w) (hr : w.Ready p) : ¬ w.Joining p := by
  rintro (hp | hp)
  · have hopen := hr.1
    rw [h.unborn p hp] at hopen
    cases hopen
  · rw [hr.2] at hp
    cases hp

theorem Newcomers.frame (h : Newcomers w) (hr : w.Ready p)
    (hf : FrameEffect sha1 (takeRead w p) p env messageID payload w') : Newcomers w' := by
  have hp := h.not_joining hr
  have hcount : w'.peerCount = w.peerCount := hf.peerCount
  have hne : ∀ q, q ≠ p → w'.peers q = w.peers q := fun q hq => by
    rw [hf.peers_of_ne hq, takeRead, setConn_peers_of_ne _ _ hq]
  have hsettles := (Settles.takeRead w p).trans (.frame hf)
  have hjoin : ∀ q, w'.Joining q → w.Joining q ∧ q ≠ p :=
    fun q hq => ⟨hsettles q hq, fun hqp => hp (hqp ▸ hsettles q hq)⟩
  constructor
  · intro q hq
    have hqp : q ≠ p := by
      rintro rfl
      exact hp (.inl (hcount ▸ hq))
    rw [hne q hqp, h.unborn q (hcount ▸ hq)]
  · intro q hq hmem
    exact h.inactive q (hjoin q hq).1 (hf.mem_active hmem)
  · intro q hq
    rw [hne q (hjoin q hq).2]
    exact h.blank q (hjoin q hq).1
  · intro q m hq hm hmem
    rcases Adds.mem hf.trace hmem with hold | hnew
    · exact h.untold q m (hjoin q hq).1 hm hold
    · cases hnew with
      | reply m' hm' =>
        rw [hm] at hm'
        cases hm'
      | announce q' it piece hc hact => exact h.inactive q (hjoin q hq).1 hact

/-- The steps that create no peer and announce nothing to a joining one. -/
theorem Newcomers.outside (h : Newcomers w) (hcount : w'.peerCount = w.peerCount)
    (hsettles : Settles w w') (hunborn : ∀ q, w.peerCount ≤ q → w'.peers q = w.peers q)
    (hsame : ∀ q, w.Joining q → (w'.peers q).hasPieceIndexes = (w.peers q).hasPieceIndexes ∧
      (w'.peers q).pieceQueue = (w.peers q).pieceQueue ∧
      (q ∈ w'.torrent.activePeers → q ∈ w.torrent.activePeers))
    (htrace : w.Adds w' fun v => ∀ q m, v = .sent q m → m.isAnnouncement = true → ¬ w'.Joining q) :
    Newcomers w' := by
  constructor
  · intro q hq
    rw [hcount] at hq
    rw [hunborn q hq, h.unborn q hq]
  · intro q hq hmem
    exact h.inactive q (hsettles q hq) ((hsame q (hsettles q hq)).2.2 hmem)
  · intro q hq
    obtain ⟨hhas, hqueue, -⟩ := hsame q (hsettles q hq)
    rw [hhas, hqueue]
    exact h.blank q (hsettles q hq)
  · intro q m hq hm hmem
    rcases htrace.mem hmem with hold | hnew
    · exact h.untold q m (hsettles q hq) hm hold
    · exact hnew q m rfl hm hq

/-- A new peer. -/
theorem Newcomers.newPeer (h : Newcomers w) (c : Connection) : Newcomers (newPeer w c) := by
  have hpeers : ∀ q, (YTorrent.newPeer w c).peers q =
      if q = w.peerCount then { conn := c } else w.peers q :=
    fun q => setPeer_peers w w.peerCount q _
  have hjoin : Settles w (YTorrent.newPeer w c) := .newPeer w c
  constructor
  · intro q hq
    have hlt : w.peerCount + 1 ≤ q := hq
    have hne : q ≠ w.peerCount := by omega
    rw [hpeers, if_neg hne, h.unborn q (by omega)]
  · intro q hq
    exact h.inactive q (hjoin q hq)
  · intro q hq
    rw [hpeers]
    split
    · exact ⟨rfl, rfl⟩
    · exact h.blank q (hjoin q hq)
  · intro q m hq
    exact h.untold q m (hjoin q hq)

/-! ### The other steps -/

/-- Replacing the connection of `p` by one that is not joining, or only less so. -/
theorem Newcomers.setConn (h : Newcomers w) (hp : p < w.peerCount) {c : Connection}
    (hc : c.pending.isJoining = true → (w.peers p).conn.pending.isJoining = true) :
    Newcomers (w.setConn p c) := by
  refine h.outside rfl (.setConn hc) (fun q hq => ?_) (fun q _ => ?_) (.of_eq rfl)
  · exact setConn_peers_of_ne w c fun heq => absurd hp (Nat.not_lt.mpr (heq ▸ hq))
  · exact ⟨by simp, by simp, id⟩

/-- Replacing the containers of peers, with no new active peer that is joining. -/
theorem Newcomers.setTorrent (h : Newcomers w) {t : Torrent}
    (ht : ∀ q ∈ t.activePeers, q ∈ w.torrent.activePeers ∨ ¬ w.Joining q) :
    Newcomers (w.setTorrent t) := by
  refine h.outside rfl (fun _ hq => hq) (fun _ _ => rfl)
    (fun q hq => ⟨rfl, rfl, fun hmem => ?_⟩) (.of_eq rfl)
  exact (ht q hmem).elim id fun hno => absurd hq hno

theorem Newcomers.log (h : Newcomers w) {es : List Event}
    (hes : ∀ q m, .sent q m ∈ es → m.isAnnouncement = true → ¬ w.Joining q) :
    Newcomers (w.log es) :=
  h.outside rfl (fun _ hq => hq) (fun _ _ => rfl) (fun _ _ => ⟨rfl, rfl, id⟩)
    (.log w fun _ hv q m heq hm => hes q m (heq ▸ hv) hm)

/-- The peer after its handshake: the next read installed. -/
theorem Newcomers.read (h : Newcomers w) (hp : p < w.peerCount) {rc : Pending}
    (hrc : rc.isJoining = true → (w.peers p).conn.pending.isJoining = true) :
    Newcomers (Connection.read w p rc) := by
  unfold Connection.read
  split
  · exact h.setConn hp hrc
  · exact h

theorem Newcomers.handleError (h : Newcomers w) (hp : p < w.peerCount) (e : PeerError) :
    Newcomers (Peer.handleError w p e) := by
  have hact : Newcomers (w.setTorrent { w.torrent with activePeers := activeWithout w p }) :=
    h.setTorrent fun q hq => .inl (List.mem_of_mem_eraseP hq)
  rw [handleError_eq]
  exact (hact.setConn hp isJoining_closed).log (by simp)

theorem Newcomers.disconnect (h : Newcomers w) (p : PeerId) (hp : p < w.peerCount) :
    Newcomers (Peer.disconnect w p) := by
  rw [disconnect_eq]
  exact h.setConn hp isJoining_closed

theorem takeRead_not_joining (w : World) (p : PeerId) (hp : p < w.peerCount) :
    ¬ (takeRead w p).Joining p := by
  rintro (hq | hq)
  · exact absurd hp (by exact Nat.not_lt.mpr hq)
  · simp [takeRead, Pending.isJoining] at hq

theorem Newcomers.takeRead (h : Newcomers w) (hp : p < w.peerCount) : Newcomers (takeRead w p) :=
  h.setConn hp (by simp [Pending.isJoining])

theorem Newcomers.handshaked (h : Newcomers w) (hp : ¬ w.Joining p) :
    Newcomers (Torrent.handshaked w p) := by
  refine h.setTorrent fun q hq => ?_
  rcases List.mem_append.mp hq with hq | hq
  · exact .inl hq
  · rw [List.mem_singleton.mp hq]
    exact .inr hp

theorem Newcomers.disconnectPeers (h : Newcomers w) : Newcomers (Torrent.disconnectPeers w) := by
  refine (disconnectPeers_induction
    (I := fun v => Newcomers v ∧ v.peerCount = w.peerCount) ⟨h, rfl⟩ ?_).1
  rintro p hp v ⟨hv, hcount⟩
  have hlt : p < v.peerCount := by
    by_contra hge
    exact h.inactive p (.inl (hcount ▸ Nat.not_lt.mp hge)) hp
  have hclosed := hv.disconnect p hlt
  rw [disconnect_eq] at hclosed
  exact ⟨hclosed, hcount⟩

/-- A peer of which a connection is known exists. -/
theorem Newcomers.lt_of_conn (h : Newcomers w) (hp : (w.peers p).conn ≠ {}) : p < w.peerCount := by
  by_contra hge
  rw [h.unborn p (Nat.not_lt.mp hge)] at hp
  exact hp rfl

theorem Newcomers.lt_of_open (h : Newcomers w) (hopen : (w.peers p).conn.isOpen = true) :
    p < w.peerCount := by
  refine h.lt_of_conn fun hc => ?_
  rw [hc] at hopen
  cases hopen

theorem Newcomers.step {l : Label} (hs : step sha1 w l = some w') (h : Newcomers w) :
    Newcomers w' := by
  have htake : ∀ {p}, (w.peers p).conn.isOpen = true → Newcomers (YTorrent.takeRead w p) ∧
      ¬ (YTorrent.takeRead w p).Joining p :=
    fun hopen => ⟨h.takeRead (h.lt_of_open hopen), takeRead_not_joining w _ (h.lt_of_open hopen)⟩
  cases (step_effect hs).2 with
  | frame p messageID payload env hr _ heff => exact h.frame hr heff
  | socketError p hp => exact (h.takeRead hp).handleError hp _
  | socketClosed p hp => exact h.setConn hp (by simp [Pending.isJoining])
  | endpointLost p hp => exact h.setConn hp id
  | skipped => exact h
  | dialled ip =>
    refine Newcomers.newPeer (h.setTorrent ?_) _
    exact fun q hq => .inl hq
  | connected p ip hpend =>
    have hp : p < w.peerCount := by
      refine h.lt_of_conn fun hc => ?_
      rw [hc] at hpend
      cases hpend
    refine (h.setConn hp fun _ => by simp [hpend, Pending.isJoining]).log fun q m hm hann => ?_
    cases List.mem_singleton.mp hm
    cases hann
  | accepted remote => exact (h.newPeer _).setTorrent fun q hq => .inl hq
  | refused p peerHandshake hopen => exact (htake hopen).1.handleError (h.lt_of_open hopen) _
  | connectHandshake p peerHandshake hopen =>
    obtain ⟨hn, hjoin⟩ := htake hopen
    exact (hn.handshaked hjoin).read (h.lt_of_open hopen) (by simp [Pending.isJoining])
  | authenticateHandshake p peerHandshake hopen =>
    obtain ⟨hn, hjoin⟩ := htake hopen
    refine Newcomers.read ((hn.handshaked hjoin).log fun q m hm _ => ?_) (h.lt_of_open hopen)
      (by simp [Pending.isJoining])
    obtain ⟨-, m', -, heq⟩ := mem_sentEvents.mp hm
    cases heq
    exact hjoin
  | disconnectPeers => exact h.disconnectPeers

theorem Reachable.newcomers {f : ParsedFile} (h : Reachable sha1 f w) : Newcomers w :=
  h.invariant (fun _ _ _ hs => Newcomers.step hs) (newcomers_start f)

/-- No step makes a peer join that was not joining before. -/
theorem step_settles {l : Label} (hs : step sha1 w l = some w') : Settles w w' := by
  cases (step_effect hs).2 with
  | frame p messageID payload env hr _ heff => exact (Settles.takeRead w p).trans (.frame heff)
  | socketError p => exact (Settles.takeRead w p).trans (.handleError _ p _)
  | socketClosed p => exact .setConn (by simp [Pending.isJoining])
  | endpointLost p => exact .setConn id
  | skipped => exact fun _ h => h
  | dialled => exact Settles.newPeer (w.setTorrent _) _
  | connected p ip hpend =>
    exact Settles.setConn (w := w) fun _ => by simp [hpend, Pending.isJoining]
  | accepted => exact Settles.newPeer w _
  | refused p => exact (Settles.takeRead w p).trans (.handleError _ p _)
  | connectHandshake p =>
    refine (Settles.takeRead w p).trans ?_
    exact Settles.read (w := Torrent.handshaked _ p) (by simp [Pending.isJoining])
  | authenticateHandshake p =>
    refine (Settles.takeRead w p).trans ?_
    exact Settles.read (w := (Torrent.handshaked _ p).log _) (by simp [Pending.isJoining])
  | disconnectPeers => exact .disconnectPeers w

/-- A peer that is joining is as it was created, but for its connection. -/
def Fresh (w : World) : Prop := ∀ q, w.Joining q → ∃ c, w.peers q = { conn := c }

theorem Fresh.step {l : Label} (hn : Newcomers w) (hs : step sha1 w l = some w') (h : Fresh w) :
    Fresh w' := by
  intro q hq
  have hold := step_settles hs q hq
  obtain ⟨c, hc⟩ := h q hold
  rcases step_cases hs with ⟨p, messageID, payload, env, rfl, hr, heff⟩ | hout
  · have hqp : q ≠ p := fun heq => hn.not_joining hr (heq ▸ hold)
    refine ⟨c, ?_⟩
    rw [heff.peers_of_ne hqp, takeRead, setConn_peers_of_ne _ _ hqp, hc]
  · obtain ⟨c', hc' | ⟨-, hc'⟩⟩ := hout.peers q
    · exact ⟨c', by rw [hc', hc]⟩
    · exact ⟨c', hc'⟩

theorem Reachable.fresh {f : ParsedFile} (h : Reachable sha1 f w) : Fresh w := by
  have hboth : Newcomers w ∧ Fresh w := by
    refine h.invariant (I := fun w => Newcomers w ∧ Fresh w) ?_
      ⟨newcomers_start f, fun q _ => ⟨_, rfl⟩⟩
    rintro v l v' hs ⟨hn, hf⟩
    exact ⟨hn.step hs, hf.step hn hs⟩
  exact hboth.2

/-! ### Who is connected -/

theorem isOpen_setConn {c : Connection} (h : ((w.setConn p c).peers q).conn.isOpen = true) :
    (w.peers q).conn.isOpen = true ∨ q = p ∧ c.isOpen = true := by
  by_cases hq : q = p
  · subst hq
    rw [setConn_conn_self] at h
    exact .inr ⟨rfl, h⟩
  · rw [setConn_peers_of_ne _ _ hq] at h
    exact .inl h

theorem isOpen_takeRead (w : World) (p q : PeerId) :
    ((takeRead w p).peers q).conn.isOpen = (w.peers q).conn.isOpen := by
  by_cases hq : q = p
  · subst hq
    simp [takeRead]
  · rw [takeRead, setConn_peers_of_ne _ _ hq]

theorem isOpen_handleError {e : PeerError}
    (h : ((Peer.handleError w p e).peers q).conn.isOpen = true) :
    (w.peers q).conn.isOpen = true := by
  rw [handleError_eq] at h
  exact (isOpen_setConn (w := w.setTorrent _) h).elim id fun hc => nomatch hc.2

theorem isOpen_disconnectPeers (h : ((Torrent.disconnectPeers w).peers q).conn.isOpen = true) :
    (w.peers q).conn.isOpen = true := by
  refine disconnectPeers_induction
    (I := fun v => (v.peers q).conn.isOpen = true → (w.peers q).conn.isOpen = true) id ?_ h
  intro p _ v hv hopen
  exact (isOpen_setConn hopen).elim hv fun hc => absurd hc.2 Bool.false_ne_true

theorem isOpen_newPeer {c : Connection} (h : ((newPeer w c).peers q).conn.isOpen = true) :
    (w.peers q).conn.isOpen = true ∨ w.peerCount ≤ q := by
  by_cases hq : q = w.peerCount
  · exact .inr hq.ge
  · have hne : (newPeer w c).peers q = w.peers q := setPeer_peers_of_ne _ _ hq
    exact .inl (hne ▸ h)

theorem FrameEffect.isOpen (h : FrameEffect sha1 w p env messageID payload w')
    (hopen : (w'.peers q).conn.isOpen = true) : (w.peers q).conn.isOpen = true := by
  by_cases hq : q = p
  · subst hq
    rcases h.conn with hc | hc | hc <;> rw [hc] at hopen
    · exact hopen
    · exact hopen
    · cases hopen
  · rw [h.peers_of_ne hq] at hopen
    exact hopen

/-- Only a peer that is joining gets connected. -/
theorem step_open {l : Label} (hs : step sha1 w l = some w')
    (h : (w'.peers q).conn.isOpen = true) : (w.peers q).conn.isOpen = true ∨ w.Joining q := by
  have htake : ∀ {p}, ((takeRead w p).peers q).conn.isOpen = true →
      (w.peers q).conn.isOpen = true := fun ho => by rwa [isOpen_takeRead] at ho
  cases (step_effect hs).2 with
  | frame p messageID payload env hr _ heff => exact .inl (htake (heff.isOpen h))
  | socketError p => exact .inl (htake (isOpen_handleError h))
  | socketClosed p => exact .inl ((isOpen_setConn h).elim id fun hc => nomatch hc.2)
  | endpointLost p =>
    refine .inl ((isOpen_setConn h).elim id ?_)
    rintro ⟨rfl, hc⟩
    exact hc
  | skipped => exact .inl h
  | dialled => exact (isOpen_newPeer h).imp id .inl
  | connected p ip hpend =>
    refine (isOpen_setConn h).imp id ?_
    rintro ⟨rfl, -⟩
    exact .inr (by rw [hpend]; rfl)
  | accepted => exact (isOpen_newPeer h).imp id .inl
  | refused p => exact .inl (htake (isOpen_handleError h))
  | connectHandshake p =>
    rw [read_isOpen] at h
    exact .inl (htake h)
  | authenticateHandshake p =>
    rw [read_isOpen] at h
    exact .inl (htake h)
  | disconnectPeers => exact .inl (isOpen_disconnectPeers h)

/-! ### Who becomes active -/

theorem disconnectPeers_torrent (w : World) : (Torrent.disconnectPeers w).torrent = w.torrent :=
  disconnectPeers_induction (I := fun v => v.torrent = w.torrent) rfl fun _ _ _ hv => hv

theorem mem_active_handleError {e : PeerError}
    (h : q ∈ (Peer.handleError w p e).torrent.activePeers) : q ∈ w.torrent.activePeers := by
  rw [handleError_eq] at h
  exact List.mem_of_mem_eraseP h

theorem mem_active_read {rc : Pending} {es : List Event}
    (h : q ∈ (Connection.read ((Torrent.handshaked w p).log es) p rc).torrent.activePeers) :
    q ∈ w.torrent.activePeers ∨ q = p := by
  rw [read_torrent] at h
  exact (List.mem_append.mp h).imp_right List.mem_singleton.mp

/-- Only a peer whose handshake arrives becomes active. -/
theorem step_joins {l : Label} (hs : step sha1 w l = some w') (h : q ∈ w'.torrent.activePeers) :
    q ∈ w.torrent.activePeers ∨ (∃ peerHandshake, l = .handshake q peerHandshake) ∧
      (w.peers q).conn.pending.isJoining = true := by
  have htake : ∀ {p}, q ∈ (takeRead w p).torrent.activePeers → q ∈ w.torrent.activePeers := id
  cases (step_effect hs).2 with
  | frame p messageID payload env hr _ heff => exact .inl (heff.mem_active h)
  | socketError p => exact .inl (htake (mem_active_handleError h))
  | refused p => exact .inl (htake (mem_active_handleError h))
  | socketClosed | endpointLost | skipped | dialled | connected | accepted => exact .inl h
  | connectHandshake p peerHandshake hopen hpend =>
    rw [← World.log_nil (Torrent.handshaked (takeRead w p) p)] at h
    refine (mem_active_read h).imp htake fun hq => ⟨⟨peerHandshake, by rw [hq]⟩, ?_⟩
    rw [hq, hpend]
    rfl
  | authenticateHandshake p peerHandshake hopen hpend =>
    refine (mem_active_read h).imp htake fun hq => ⟨⟨peerHandshake, by rw [hq]⟩, ?_⟩
    rw [hq, hpend]
    rfl
  | disconnectPeers =>
    rw [disconnectPeers_torrent] at h
    exact .inl h

theorem step_active {l : Label} (hs : step sha1 w l = some w') (h : q ∈ w'.torrent.activePeers) :
    q ∈ w.torrent.activePeers ∨ (w.peers q).conn.pending.isJoining = true :=
  (step_joins hs h).imp_right And.right

end YTorrent
