import YTorrent.Torrent.Bitfield
import YTorrent.Torrent.Bounds
import YTorrent.Torrent.Uploads
import YTorrent.Torrent.Wire

/-!
# The handshake comes first

What is written on a connection over a whole run. A peer whose connection is not
established, or whose handshake we await, has been written nothing
(`Fresh`); the handshake is written when that changes, and everything else later.

* `step_frame_messages`: the handling of a frame writes frames whose fields fit
  (`Message.Sendable`), to its peer and to active ones.
* `handshake_first`: on every connection nothing has been written, or our handshake,
  once, and then frames whose fields fit.
-/

namespace YTorrent

open World Peer

/-- Nothing has been written, or our handshake and then frames whose fields fit. -/
def Greeting (handshake : List Byte) (ms : List Message) : Prop :=
  ms = [] ∨ ∃ rest, ms = .handshake handshake :: rest ∧ ∀ m ∈ rest, m.Sendable

/-- Nothing has been written to `q` yet: it does not exist, its connection is not
    established, or we await its handshake before we write ours. -/
def World.Fresh (w : World) (q : PeerId) : Prop :=
  w.peerCount ≤ q ∨ (∃ ip, (w.peers q).conn.pending = .connect ip) ∨
    (w.peers q).conn.pending = .handshakeIn

/-- Our handshake has been written to `q`: it is active or we await its answer or a message. -/
def World.Greeted (w : World) (q : PeerId) : Prop :=
  q ∈ w.torrent.activePeers ∨ (w.peers q).conn.pending = .handshakeOut ∨
    (w.peers q).conn.pending = .message

/-- What has been written to `q`, and how far its connection is. -/
structure Greets (f : ParsedFile) (w : World) (q : PeerId) : Prop where
  written : Greeting f.handshake (w.messages q)
  fresh : w.Fresh q → w.messages q = []
  greeted : w.Greeted q → w.messages q ≠ []

variable {sha1 : List Byte → List ℕ} {f : ParsedFile} {u v w w' : World} {p q : PeerId} {env : Env}
  {messageID : Byte} {payload : List Byte} {l : Label} {m : Message} {ms : List Message}

/-! ## Fields -/

theorem sendable_requests {t : Torrent} {i : ℕ} (h : m ∈ requests t i) : m.Sendable := by
  obtain ⟨bl, -, rfl⟩ := List.mem_map.mp h
  exact ⟨u32_lt _, u32_lt _, u32_lt _⟩

theorem sendable_cancels {t : Torrent} {i : ℕ} (h : m ∈ cancels t i) : m.Sendable := by
  obtain ⟨bl, -, rfl⟩ := List.mem_map.mp h
  exact ⟨u32_lt _, u32_lt _, u32_lt _⟩

theorem sendable_pieceRequest {x : Peer} {t : Torrent} {i : ℕ}
    (h : m ∈ pieceRequestMessages x t i) : m.Sendable := by
  rcases List.mem_cons.mp h with rfl | h
  · exact trivial
  · split at h
    · cases h
    · exact sendable_requests h

/-- The entry of the record writes a frame whose fields fit, or a block, or nothing. -/
def Event.Fits (v : Event) : Prop := ∀ q m, v = .sent q m → m.Sendable ∨ v.isPiece = true

theorem fits_sentEvents {c : Connection} (hms : ∀ m ∈ ms, m.Sendable) :
    ∀ v ∈ sentEvents c p ms, v.Fits := by
  intro v hv q m heq
  obtain ⟨-, m', hm, rfl⟩ := mem_sentEvents.mp hv
  obtain ⟨-, rfl⟩ := Event.sent.inj heq
  exact .inl (hms m' hm)

theorem fits_doneFault {t : Torrent} {i : ℕ} : ∀ v ∈ doneFault t i, v.Fits := by
  intro v hv q m heq
  rw [(mem_doneFault hv).2] at heq
  cases heq

/-- A completed piece is announced. -/
theorem CompletionEffect.fits {piece : Peer.Piece} {i : ℕ} {data : List Byte}
    (h : CompletionEffect sha1 w p piece i data w') : w.Adds w' Event.Fits := by
  have hcomp : ∀ r, (Event.pieceCompleted p piece data r).Fits := fun r q m heq => by cases heq
  cases h with
  | mismatch hash => exact .log _ (by simpa using hcomp _)
  | ioFailed hash file => exact ⟨_, rfl, by simpa using hcomp _⟩
  | stored hash hpos =>
    refine .log _ fun v hv => ?_
    simp only [List.mem_append, List.mem_cons] at hv
    rcases hv with hv | rfl | hv
    · intro q m heq
      rw [(mem_bitFault hv).2] at heq
      cases heq
    · exact hcomp _
    · obtain ⟨q, -, -, -, rfl⟩ := mem_haveEvents.mp hv
      intro q' m heq
      obtain ⟨-, rfl⟩ := Event.sent.inj heq
      exact .inl (u32_lt i)

theorem SelectEffect.fits (h : SelectEffect w p w') : w.Adds w' Event.Fits := by
  cases h with
  | none => exact .of_eq rfl
  | requested i => exact .log _ (fits_sentEvents fun m hm => sendable_pieceRequest hm)

/-- What the handling of a frame writes. -/
theorem FrameEffect.fits (h : FrameEffect sha1 w p env messageID payload w') :
    w.Adds w' Event.Fits := by
  have hread : ∀ {u : World}, w.Adds u Event.Fits →
      w.Adds (Connection.read u p .message) Event.Fits :=
    fun hu => hu.trans (.of_eq (read_trace _ p _))
  have hstore : ∀ it piece, w.Adds (storeBlock w p payload it piece) Event.Fits :=
    fun it piece => .log w fits_doneFault
  cases h with
  | ignored | choke | notInterested | havePiece => exact hread (.of_eq rfl)
  | refused e =>
    rw [handleError_eq]
    refine ⟨_, rfl, fun v hv q m heq => ?_⟩
    rw [List.mem_singleton.mp hv] at heq
    cases heq
  | unchoke =>
    refine hread (.log _ (fits_sentEvents fun m hm => ?_))
    obtain ⟨e, -, hm⟩ := List.mem_flatMap.mp hm
    exact sendable_requests hm
  | interested =>
    refine hread (.log _ (fits_sentEvents fun m hm => ?_))
    split at hm
    · rw [List.mem_singleton.mp hm]
      exact trivial
    · cases hm
  | bitfield hid u hsel => exact hread hsel.fits
  | request hid hsize hint hchoke hlen u hserve =>
    have hdone : w.Adds (w.log (doneFault w.torrent (requestFields payload).1)) Event.Fits :=
      .log w fits_doneFault
    rcases hserve with ⟨-, rfl⟩ | ⟨-, hserve⟩
    · exact hread hdone
    · refine hread (hdone.trans ?_)
      cases hserve with
      | refused => exact .of_eq rfl
      | silent => exact .of_eq rfl
      | sent block =>
        refine .log _ fun v hv q m heq => ?_
        obtain ⟨-, m', hm, rfl⟩ := mem_sentEvents.mp hv
        rw [List.mem_singleton.mp hm]
        exact .inr rfl
  | cancelled hid it piece =>
    refine hread (.log w fun v hv => ?_)
    rcases List.mem_append.mp hv with hv | hv
    · exact fits_doneFault v hv
    · exact fits_sentEvents (fun m hm => sendable_cancels hm) v hv
  | stored hid it piece => exact hread (hstore it piece)
  | ioFailed hid it piece hacc hdone hlast _ hcomp => exact (hstore it piece).trans hcomp.fits
  | completed hid it piece hacc hdone hlast u u' hcomp hrun hsel =>
    exact hread (((hstore it piece).trans hcomp.fits).trans hsel.fits)

/-- A frame is written to the peer whose frame is handled and to active peers. -/
theorem FrameEffect.sent_to (h : FrameEffect sha1 w p env messageID payload w') :
    w.Adds w' fun v => ∀ q m, v = .sent q m → q = p ∨ q ∈ w.torrent.activePeers := by
  refine Adds.mono h.trace fun v hv q m heq => ?_
  cases hv with
  | reply m' =>
    obtain ⟨rfl, -⟩ := Event.sent.inj heq
    exact .inl rfl
  | announce q' it piece hc hq =>
    obtain ⟨rfl, -⟩ := Event.sent.inj heq
    exact .inr hq
  | error | completed | requestFault | blockFault | bitFault => cases heq

/-- What the handling of a frame writes to `q`. -/
theorem step_frame_messages (hs : step sha1 w (.frame p messageID payload env) = some w')
    (q : PeerId) : ∃ ms, w'.messages q = w.messages q ++ ms ∧ (∀ m ∈ ms, m.Sendable) ∧
      (ms ≠ [] → q = p ∨ q ∈ w.torrent.activePeers) := by
  obtain ⟨-, hready, hf⟩ := step_frame hs
  obtain ⟨es, hes, hto⟩ := hf.sent_to
  have hes : w'.trace = w.trace ++ es := hes
  have hfits : ∀ v ∈ es, v.Fits := by
    obtain ⟨es', hes', hfits⟩ := hf.fits
    rw [hes] at hes'
    exact List.append_cancel_left hes' ▸ hfits
  refine ⟨es.filterMap (Event.message? q), ?_, fun m hm => ?_, fun hne => ?_⟩
  · rw [World.messages, hes, List.filterMap_append]
    rfl
  · obtain ⟨v, hv, hm⟩ := List.mem_filterMap.mp hm
    obtain rfl := sent_of_message? hm
    rcases hfits _ hv q m rfl with hm | hm
    · exact hm
    · -- a block is as long as the REQUEST it answers asks for
      rcases step_uploads hs with hno | ⟨p', payload', env', block, -, hserves, htrace, -⟩
      · rw [hno.trace.mem_newEvents (newEvents_of_trace hes ▸ hv)] at hm
        cases hm
      · rw [hes] at htrace
        rw [List.append_cancel_left htrace] at hv
        obtain ⟨-, rfl⟩ := Event.sent.inj (List.mem_singleton.mp hv)
        exact ⟨readAsBE32_lt _, readAsBE32_lt _, hserves.length_block ▸ hserves.asks.length_le⟩
  · obtain ⟨m, hm⟩ := List.exists_mem_of_ne_nil _ hne
    obtain ⟨v, hv, hm⟩ := List.mem_filterMap.mp hm
    obtain rfl := sent_of_message? hm
    exact hto _ hv q m rfl

/-! ## The other steps -/

namespace Greets

theorem start (f : ParsedFile) (q : PeerId) : Greets f f.start q where
  written := .inl rfl
  fresh _ := rfl
  greeted h := by
    rcases h with h | h | h <;> cases h

/-- Frames are written to `q`, if our handshake has been. -/
theorem append (h : Greets f w q) (hms : w'.messages q = w.messages q ++ ms)
    (hs : ∀ m ∈ ms, m.Sendable) (htold : ms ≠ [] → w.messages q ≠ [])
    (hfresh : w'.Fresh q → w.Fresh q) (hgreeted : w'.Greeted q → w.messages q ≠ []) :
    Greets f w' q where
  written := by
    rw [hms]
    rcases h.written with hnil | ⟨rest, heq, hrest⟩
    · obtain rfl : ms = [] := by
        by_contra hne
        exact htold hne hnil
      exact .inl (by rw [hnil, List.append_nil])
    · refine .inr ⟨rest ++ ms, by rw [heq, List.cons_append], fun m hm => ?_⟩
      exact (List.mem_append.mp hm).elim (hrest m) (hs m)
  fresh hf := by
    have hnil := h.fresh (hfresh hf)
    have hno : ms = [] := by
      by_contra hne
      exact htold hne hnil
    rw [hms, hnil, hno, List.append_nil]
  greeted hg := by
    rw [hms]
    exact List.append_ne_nil_of_left_ne_nil (hgreeted hg) ms

/-- Nothing is written to `q`. -/
theorem silent (h : Greets f w q) (hms : w'.messages q = w.messages q)
    (hfresh : w'.Fresh q → w.Fresh q) (hgreeted : w'.Greeted q → w.Greeted q) : Greets f w' q :=
  h.append (show w'.messages q = w.messages q ++ [] by rw [hms, List.append_nil]) (by simp)
    (fun hne => absurd rfl hne) hfresh fun hg => h.greeted (hgreeted hg)

/-- The handshake is written to `q`. -/
theorem greet (h : Greets f w q) (hfresh : w.Fresh q)
    (hms : w'.messages q = w.messages q ++ .handshake f.handshake :: ms)
    (hs : ∀ m ∈ ms, m.Sendable) (hnot : ¬ w'.Fresh q) : Greets f w' q where
  written := .inr ⟨ms, by rw [hms, h.fresh hfresh, List.nil_append], hs⟩
  fresh hf := absurd hf hnot
  greeted _ := by
    rw [hms, h.fresh hfresh]
    exact List.cons_ne_nil _ _

/-- The steps that write nothing, of a peer change the pending operation only by ending
    it, and make no peer active. -/
theorem quiet (h : Greets f w q) (hms : w'.messages q = w.messages q)
    (hcount : w.peerCount ≤ w'.peerCount)
    (hact : ∀ q ∈ w'.torrent.activePeers, q ∈ w.torrent.activePeers)
    (hpend : (w'.peers q).conn.pending = (w.peers q).conn.pending ∨
      (w'.peers q).conn.pending = .none) : Greets f w' q := by
  refine h.silent hms (fun hf => ?_) (fun hg => ?_)
  · rcases hpend with hp | hp <;> rw [World.Fresh, hp] at hf
    · exact hf.imp_left hcount.trans
    · rcases hf with hf | ⟨ip, hf⟩ | hf
      · exact .inl (hcount.trans hf)
      · cases hf
      · cases hf
  · rcases hpend with hp | hp <;> rw [World.Greeted, hp] at hg
    · exact hg.imp_left (hact q)
    · rcases hg with hg | hg | hg
      · exact .inl (hact q hg)
      · cases hg
      · cases hg

/-- A new peer. -/
theorem newPeer (h : Greets f w q) {c : Connection}
    (hfresh : (∃ ip, c.pending = .connect ip) ∨ c.pending = .handshakeIn) :
    Greets f (newPeer w c) q := by
  have hpeers : (YTorrent.newPeer w c).peers q =
      if q = w.peerCount then { conn := c } else w.peers q := setPeer_peers w w.peerCount q _
  refine h.silent rfl (fun hf => ?_) (fun hg => ?_)
  · by_cases hq : q = w.peerCount
    · exact .inl hq.ge
    · rw [World.Fresh, hpeers, if_neg hq] at hf
      refine hf.imp_left fun hle => ?_
      have hle : w.peerCount + 1 ≤ q := hle
      omega
  · by_cases hq : q = w.peerCount
    · rw [World.Greeted, hpeers, if_pos hq] at hg
      rcases hg with hg | hg
      · exact .inl hg
      · rcases hfresh with ⟨ip, hc⟩ | hc <;> rw [hc] at hg <;> rcases hg with hg | hg <;> cases hg
    · rw [World.Greeted, hpeers, if_neg hq] at hg
      exact hg

theorem frame (h : Greets f w q)
    (hs : YTorrent.step sha1 w (.frame p messageID payload env) = some w') : Greets f w' q := by
  obtain ⟨-, hready, hf⟩ := step_frame hs
  obtain ⟨ms, hms, hsend, hto⟩ := step_frame_messages hs q
  have hp : w.Greeted p := .inr (.inr hready.2)
  have hmore : w'.Greeted q → w.messages q ≠ [] := by
    intro hg
    by_cases hqp : q = p
    · subst hqp
      exact h.greeted hp
    · refine h.greeted (hg.imp hf.mem_active fun hg => ?_)
      rwa [hf.peers_of_ne hqp, takeRead, setConn_peers_of_ne _ _ hqp] at hg
  refine h.append hms hsend (fun hne => ?_) (fun hfr => ?_) hmore
  · rcases hto hne with rfl | hact
    · exact h.greeted hp
    · exact h.greeted (.inl hact)
  · by_cases hqp : q = p
    · subst hqp
      rcases hfr with hle | hfr
      · exact .inl (hf.peerCount.symm.trans_le hle)
      · exfalso
        rcases hf.conn with hc | hc | hc <;> rw [hc] at hfr
        · rcases hfr with ⟨ip, hfr⟩ | hfr <;> simp [takeRead] at hfr
        · rcases hfr with ⟨ip, hfr⟩ | hfr <;> cases hfr
        · rcases hfr with ⟨ip, hfr⟩ | hfr <;> simp [takeRead, Connection.closed] at hfr
    · have hcount : w'.peerCount = w.peerCount := hf.peerCount
      rwa [World.Fresh, hf.peers_of_ne hqp, takeRead, setConn_peers_of_ne _ _ hqp, hcount] at hfr

/-- Dropping `p` writes nothing. -/
theorem handleError (h : Greets f w q) (p : PeerId) (e : PeerError) :
    Greets f (Peer.handleError w p e) q := by
  rw [handleError_eq]
  refine h.quiet ?_ le_rfl (fun q' hq' => List.mem_of_mem_eraseP hq') ?_
  · simp [Event.message?]
  · by_cases hqp : q = p
    · subst hqp
      cases hc : (w.peers q).conn.isOpen <;> simp [Connection.closed, hc]
    · exact .inl (by simp [setConn_peers, hqp])

theorem takeRead (h : Greets f w q) (p : PeerId) : Greets f (takeRead w p) q := by
  refine h.quiet rfl le_rfl (fun _ hq => hq) ?_
  by_cases hqp : q = p
  · subst hqp
    exact .inr (by simp [YTorrent.takeRead])
  · exact .inl (by simp [YTorrent.takeRead, setConn_peers, hqp])

/-- Something has been written to a peer that has just joined. -/
theorem joined_fresh (hv : v.peers = (YTorrent.takeRead w p).peers)
    (hcount : v.peerCount = w.peerCount) (hopen : (w.peers p).conn.isOpen = true)
    (hlt : p < w.peerCount) (hf : (Connection.read v p .message).Fresh q) : q ≠ p ∧ w.Fresh q := by
  by_cases hqp : q = p
  · subst hqp
    rw [World.Fresh, read_conn, read_peerCount, hcount, hv] at hf
    simp only [YTorrent.takeRead, setConn_conn_self, hopen, if_true, reduceCtorEq, exists_false,
      or_false] at hf
    exact absurd hf (Nat.not_le.mpr hlt)
  · rw [World.Fresh, read_peers_of_ne _ _ hqp, read_peerCount, hcount, hv, YTorrent.takeRead,
      setConn_peers_of_ne _ _ hqp] at hf
    exact ⟨hqp, hf⟩

/-- The other peers are as active as they were. -/
theorem joined_greeted (hv : v.peers = (YTorrent.takeRead w p).peers)
    (hact : v.torrent.activePeers = w.torrent.activePeers ++ [p]) (hqp : q ≠ p)
    (hg : (Connection.read v p .message).Greeted q) : w.Greeted q := by
  rw [World.Greeted, read_peers_of_ne _ _ hqp, read_torrent, hact, hv, YTorrent.takeRead,
    setConn_peers_of_ne _ _ hqp] at hg
  exact hg.imp_left fun hmem => (List.mem_append.mp hmem).resolve_right (by simp [hqp])

theorem step (hr : Reachable sha1 f w) (hn : f.hashes.length ≤ 2 ^ 34)
    (hs : YTorrent.step sha1 w l = some w') (h : ∀ q, Greets f w q) : ∀ q, Greets f w' q := by
  intro q
  cases (step_effect hs).2 with
  | frame p messageID payload env => exact (h q).frame hs
  | socketError p => exact ((h q).takeRead p).handleError p _
  | refused p => exact ((h q).takeRead p).handleError p _
  | skipped => exact h q
  | socketClosed p hp =>
    refine (h q).quiet rfl le_rfl (fun _ hq => hq) ?_
    by_cases hqp : q = p
    · exact .inr (by simp [hqp])
    · exact .inl (by simp [setConn_peers, hqp])
  | endpointLost p hp =>
    refine (h q).quiet rfl le_rfl (fun _ hq => hq) (.inl ?_)
    by_cases hqp : q = p
    · simp [loseEndpoint, hqp]
    · simp [loseEndpoint, setConn_peers, hqp]
  | dialled ip hskip =>
    have hblack : Greets f (w.setTorrent { w.torrent with
        blackListed := w.torrent.blackListed.insert ip }) q := (h q).silent rfl id id
    refine hblack.newPeer (.inl ?_)
    exact ⟨ip, rfl⟩
  | accepted remote => exact ((h q).newPeer (.inr rfl)).silent rfl id id
  | connected p ip hpend =>
    have hhs := hr.handshake
    by_cases hqp : q = p
    · subst hqp
      refine (h q).greet (.inr (.inl ⟨ip, hpend⟩)) ?_ (List.forall_mem_nil _) ?_
      · simp [Event.message?, hhs]
      · have hlt := hr.newcomers.lt_of_conn (p := q) fun hc => by simp [hc] at hpend
        simp [World.Fresh, hlt]
    · refine (h q).silent ?_ ?_ ?_
      · simp [Event.message?, Ne.symm hqp]
      · simp [World.Fresh, setConn_peers, hqp]
      · simp [World.Greeted, setConn_peers, hqp]
  | connectHandshake p peerHandshake hopen hpend href =>
    have hlt := hr.newcomers.lt_of_open hopen
    refine (h q).silent (by simp [Torrent.handshaked, YTorrent.takeRead]) (fun hf => ?_)
      fun hg => ?_
    · exact (joined_fresh (v := Torrent.handshaked (YTorrent.takeRead w p) p) rfl rfl hopen hlt
        hf).2
    · by_cases hqp : q = p
      · subst hqp
        exact .inr (.inl hpend)
      · exact joined_greeted (v := Torrent.handshaked (YTorrent.takeRead w p) p) rfl rfl hqp hg
  | authenticateHandshake p peerHandshake hopen hpend href =>
    have hlt := hr.newcomers.lt_of_open hopen
    set v := (Torrent.handshaked (YTorrent.takeRead w p) p).log
      (sentEvents ((YTorrent.takeRead w p).peers p).conn p
        [.handshake w.torrent.handshake, .bitfield w.torrent.getRawBitfield]) with hv
    by_cases hqp : q = p
    · subst hqp
      have hms : (Connection.read v q .message).messages q = w.messages q ++
          .handshake f.handshake :: [.bitfield w.torrent.getRawBitfield] := by
        simp [hv, Torrent.handshaked, YTorrent.takeRead, sentEvents, hopen, Event.message?,
          hr.handshake]
      refine (h q).greet (.inr (.inr hpend)) hms ?_ ?_
      · intro m hm
        rw [List.mem_singleton.mp hm]
        show w.torrent.getRawBitfield.length + 1 < 2 ^ 32
        rw [length_getRawBitfield, bitfield_length hr, hr.length_pieces]
        omega
      · exact fun hf => (joined_fresh (v := v) rfl rfl hopen hlt hf).1 rfl
    · refine (h q).silent ?_ (fun hf => ?_) fun hg => joined_greeted (v := v) rfl rfl hqp hg
      · simp [hv, Torrent.handshaked, YTorrent.takeRead, messages_sentEvents, Ne.symm hqp]
      · exact (joined_fresh (v := v) rfl rfl hopen hlt hf).2
  | disconnectPeers =>
    refine disconnectPeers_induction (I := fun v => Greets f v q) (h q) fun p hp v hv => ?_
    refine hv.quiet rfl le_rfl (fun _ hq => hq) ?_
    by_cases hqp : q = p
    · subst hqp
      cases hc : (v.peers q).conn.isOpen <;> simp [Connection.closed, hc]
    · exact .inl (by simp [setConn_peers, hqp])

end Greets

/-- On every connection nothing has been written, or our handshake, once, and then
    frames whose fields fit, if the torrent has at most `2^34` pieces. -/
theorem handshake_first (h : Reachable sha1 f w) (hn : f.hashes.length ≤ 2 ^ 34) (p : PeerId) :
    Greeting f.handshake (w.messages p) := by
  have hinv : Reachable sha1 f w ∧ ∀ q, Greets f w q :=
    Reachable.invariant (I := fun w => Reachable sha1 f w ∧ ∀ q, Greets f w q)
      (fun _ _ _ hs hw => ⟨hw.1.step hs, Greets.step hw.1 hn hs hw.2⟩)
      ⟨.refl _, Greets.start f⟩ h
  exact (hinv.2 p).written

/-- What the client of the one-byte download has written. -/
theorem handshake_first_oneByte : ∃ rest, serving.messages 0 = .handshake zeroHandshake :: rest ∧
    ∀ m ∈ rest, m.Sendable := by
  have hne : serving.messages 0 ≠ [] := by decide +kernel
  exact (handshake_first serving_reachable (by decide) 0).resolve_left hne

end YTorrent
