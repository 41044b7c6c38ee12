import YTorrent.Torrent.Bitfield
import YTorrent.Torrent.Bounds

/-!
# What the peers are told we have

A peer is told which pieces we have by the bitfield `Peer::authenticate` sends
and by the HAVE messages of `handlePieceCompleted`; `sendHave` skips the peers
we are choking.

* `step_announced`: the pieces a step announces to a peer (`News`).
* `announced_exact`: an active peer is told of finished pieces only; after an
  incoming handshake, of every piece that was finished then; and of a piece that
  is finished later exactly if we are not choking it at that moment.
-/

namespace YTorrent

open World Peer

/-! ## Announcements -/

/-- The message tells a remote that knows of `n` pieces that we have piece `i`. -/
def Message.announces (n i : ℕ) : Message → Bool
  | .havePiece index => index == i
  | .bitfield rBitfield => (bitfieldIndexes rBitfield n).contains i
  | _ => false

/-- The peer `p` has been told that we have piece `i`. -/
def World.announced (w : World) (p : PeerId) (i : ℕ) : Prop :=
  ∃ m, .sent p m ∈ w.trace ∧ m.announces w.torrent.pieces.length i = true

/-- The entry of the record tells `p` that we have piece `i`. -/
def Event.announces (n : ℕ) (p : PeerId) (i : ℕ) : Event → Bool
  | .sent q m => decide (q = p) && m.announces n i
  | _ => false

instance (w : World) (p : PeerId) (i : ℕ) : Decidable (w.announced p i) :=
  decidable_of_iff (w.trace.any (Event.announces w.torrent.pieces.length p i) = true) <| by
    rw [List.any_eq_true]
    constructor
    · rintro ⟨v, hv, ha⟩
      cases v with
      | sent q m =>
        obtain ⟨hq, hm⟩ := (Bool.and_eq_true _ _).mp ha
        obtain rfl := of_decide_eq_true hq
        exact ⟨m, hv, hm⟩
      | error | pieceCompleted | fault => cases ha
    · rintro ⟨m, hm, ha⟩
      exact ⟨_, hm, by simpa [Event.announces] using ha⟩

/-- The step from `w` to `w'` has news for `q`: it finishes piece `i` while `q` is
    active, connected and not choked by us, or it accepts the incoming handshake
    of `q` and piece `i` is finished. -/
def News (w w' : World) (q : PeerId) (i : ℕ) : Prop :=
  (q ∈ w.torrent.activePeers ∧ (w.peers q).conn.isOpen = true ∧ (w.peers q).amChoking = false ∧
      w.torrent.isFinished i = false ∧ w'.torrent.isFinished i = true) ∨
    ((w.peers q).conn.pending = .handshakeIn ∧ q ∈ w'.torrent.activePeers ∧
      w.torrent.isFinished i = true)

/-- The entry of the record is no announcement. -/
def Event.Silent (v : Event) : Prop := ∀ p m, v = .sent p m → m.isAnnouncement = false

/-- Nothing is announced and nothing is finished between `w` and `w'`. -/
structure Quiet (w w' : World) : Prop where
  trace : w.Adds w' Event.Silent
  finished : w'.ledger.finished = w.ledger.finished

variable {sha1 : List Byte → List ℕ} {f : ParsedFile} {u v w w' : World} {p q : PeerId} {env : Env}
  {messageID : Byte} {payload : List Byte} {l : Label} {i : ℕ}

theorem Message.isAnnouncement_of_announces {n : ℕ} {m : Message} (h : m.announces n i = true) :
    m.isAnnouncement = true := by
  cases m <;> first | rfl | cases h

theorem silent_sentEvents {c : Connection} {ms : List Message}
    (hms : ∀ m ∈ ms, m.isAnnouncement = false) : ∀ v ∈ sentEvents c p ms, v.Silent := by
  intro v hv q m heq
  obtain ⟨-, m', hm, rfl⟩ := mem_sentEvents.mp hv
  obtain ⟨-, rfl⟩ := Event.sent.inj heq
  exact hms m' hm

theorem length_finished (w : World) : w.ledger.finished.length = w.torrent.pieces.length :=
  List.length_map ..

theorem isFinished_of_ledger (h : w'.ledger.finished = w.ledger.finished) (i : ℕ) :
    w'.torrent.isFinished i = w.torrent.isFinished i := by
  rw [isFinished_eq, isFinished_eq]
  exact congrArg (fun fs => (fs[i]?).getD false) h

namespace Quiet

theorem refl (w : World) : Quiet w w := ⟨.of_eq rfl, rfl⟩

theorem trans (h : Quiet u v) (h' : Quiet v w) : Quiet u w :=
  ⟨h.trace.trans h'.trace, h'.finished.trans h.finished⟩

theorem of_ledger (h : w'.ledger = w.ledger) (ht : w.Adds w' Event.Silent) : Quiet w w' :=
  ⟨ht, by rw [h]⟩

theorem log {es : List Event} (hes : ∀ v ∈ es, v.Silent) : Quiet w (w.log es) :=
  ⟨.log w hes, rfl⟩

theorem setPeer (w : World) (p : PeerId) (x : Peer) : Quiet w (w.setPeer p x) :=
  of_ledger rfl (.of_eq rfl)

theorem read (w : World) (p : PeerId) (rc : Pending) : Quiet w (Connection.read w p rc) :=
  of_ledger (ledger_read w p rc) (.of_eq (read_trace w p rc))

theorem handleError (w : World) (p : PeerId) (e : PeerError) :
    Quiet w (Peer.handleError w p e) := by
  refine of_ledger (ledger_handleError w p e) ?_
  rw [handleError_eq]
  exact ⟨_, rfl, fun v hv q m heq => by rw [List.mem_singleton.mp hv] at heq; cases heq⟩

theorem select (h : SelectEffect w p w') : Quiet w w' := by
  refine of_ledger (ledger_select p h) ?_
  cases h with
  | none => exact .of_eq rfl
  | requested k hfull hsel =>
    exact .log _ (silent_sentEvents fun m hm => not_announcement_of_mem_pieceRequest hm)

theorem serve {k begin length : ℕ} (h : ServeEffect w p k begin length w') : Quiet w w' := by
  refine of_ledger (ledger_serve p h) ?_
  cases h with
  | refused => exact .of_eq rfl
  | silent => exact .of_eq rfl
  | sent block => exact .log _ (silent_sentEvents fun m hm => by rw [List.mem_singleton.mp hm]; rfl)

theorem isFinished (h : Quiet w w') (i : ℕ) : w'.torrent.isFinished i = w.torrent.isFinished i :=
  isFinished_of_ledger h.finished i

/-- A quiet step tells nobody anything. -/
theorem announced (h : Quiet w w') : w'.announced q i ↔ w.announced q i := by
  have hlen : w'.torrent.pieces.length = w.torrent.pieces.length := by
    rw [← length_finished, ← length_finished, h.finished]
  obtain ⟨es, hes, hsilent⟩ := h.trace
  simp only [World.announced, hlen, hes, List.mem_append]
  constructor
  · rintro ⟨m, hm | hm, ha⟩
    · exact ⟨m, hm, ha⟩
    · have hno := hsilent _ hm q m rfl
      rw [Message.isAnnouncement_of_announces ha] at hno
      cases hno
  · rintro ⟨m, hm, ha⟩
    exact ⟨m, .inl hm, ha⟩

/-- A quiet step has no news. -/
theorem news (h : Quiet w w') : w'.announced q i ↔ w.announced q i ∨
    q ∈ w.torrent.activePeers ∧ (w.peers q).conn.isOpen = true ∧ (w.peers q).amChoking = false ∧
      w.torrent.isFinished i = false ∧ w'.torrent.isFinished i = true := by
  rw [h.announced, h.isFinished]
  constructor
  · exact .inl
  · rintro (h | ⟨-, -, -, hno, hyes⟩)
    · exact h
    · rw [hno] at hyes
      cases hyes

end Quiet

theorem silent_doneFault (t : Torrent) (k : ℕ) : ∀ v ∈ doneFault t k, v.Silent := by
  intro v hv q m heq
  rw [(mem_doneFault hv).2] at heq
  cases heq

/-! ## One step -/

/-- A completed piece is announced to the peers that are not choked. -/
theorem CompletionEffect.announced {piece : Peer.Piece} {k : ℕ} {data : List Byte}
    (h : CompletionEffect sha1 w p piece k data w') (hk : k < 2 ^ 32)
    (hdone : w.torrent.doneValue env k = false) : w'.announced q i ↔ w.announced q i ∨
      q ∈ w.torrent.activePeers ∧ (w.peers q).conn.isOpen = true ∧ (w.peers q).amChoking = false ∧
        w.torrent.isFinished i = false ∧ w'.torrent.isFinished i = true := by
  have hcomp : ∀ r, Event.Silent (.pieceCompleted p piece data r) := fun r q m heq => by cases heq
  cases h with
  | mismatch hash => exact Quiet.news ⟨.log _ (by simpa using hcomp _), rfl⟩
  | ioFailed hash file hfile => exact Quiet.news ⟨⟨_, rfl, by simpa using hcomp _⟩, rfl⟩
  | stored hash hpos =>
    obtain ⟨x, hx, -⟩ := checkPieceHash_true hash
    have hlt : k < w.torrent.pieces.length := (List.getElem?_eq_some_iff.mp hx).1
    have hopen : w.torrent.isFinished k = false := by rw [← doneValue_of_lt hlt env, hdone]
    -- piece `k` is the one piece finished by the step
    have hfin : ∀ j, (w.torrent.stored k data).isFinished j =
        if k = j then true else w.torrent.isFinished j := by
      intro j
      rw [isFinished_eq, isFinished_eq, Torrent.stored, finished_modify, List.getElem?_set]
      split
      · rw [if_pos (by simpa using hlt)]
        rfl
      · rfl
    have hlen : (w.torrent.stored k data).pieces.length = w.torrent.pieces.length :=
      List.length_modify ..
    have hnews : (w.torrent.isFinished i = false ∧ (w.torrent.stored k data).isFinished i = true) ↔
        k = i := by
      rw [hfin]
      constructor
      · rintro ⟨hno, hyes⟩
        by_contra hne
        rw [if_neg hne, hno] at hyes
        cases hyes
      · rintro rfl
        exact ⟨hopen, if_pos rfl⟩
    simp only [World.announced, log_torrent, setTorrent_torrent, hlen, hnews, log_trace,
      setTorrent_trace, List.mem_append, List.mem_cons]
    constructor
    · rintro ⟨m, hm | hm | hm | hm, ha⟩
      · exact .inl ⟨m, hm, ha⟩
      · cases (mem_bitFault hm).2
      · cases hm
      · obtain ⟨q', hq', hchoke, hopen', heq⟩ := mem_haveEvents.mp hm
        cases heq
        rw [u32_of_lt hk] at ha
        exact .inr ⟨hq', hopen', hchoke, by simpa [Message.announces] using ha⟩
    · rintro (⟨m, hm, ha⟩ | ⟨hact, hopen', hchoke, rfl⟩)
      · exact ⟨m, .inl hm, ha⟩
      · refine ⟨.havePiece (u32 k), .inr (.inr (.inr ?_)),
          by simp [Message.announces, u32_of_lt hk]⟩
        exact mem_haveEvents.mpr ⟨q, hact, hchoke, hopen', rfl⟩

theorem storeBlock_conn (w : World) (p q : PeerId) (payload : List Byte) (it : ℕ)
    (piece : Peer.Piece) : ((storeBlock w p payload it piece).peers q).conn = (w.peers q).conn ∧
      ((storeBlock w p payload it piece).peers q).amChoking = (w.peers q).amChoking := by
  by_cases hq : q = p
  · subst hq
    simp [storeBlock]
  · simp [storeBlock, setPeer_peers, hq]

/-- What a frame announces: the piece it finishes. -/
theorem FrameEffect.announced (h : FrameEffect sha1 w p env messageID payload w') :
    w'.announced q i ↔ w.announced q i ∨
      q ∈ w.torrent.activePeers ∧ (w.peers q).conn.isOpen = true ∧ (w.peers q).amChoking = false ∧
        w.torrent.isFinished i = false ∧ w'.torrent.isFinished i = true := by
  have hread : ∀ {u}, Quiet w u → Quiet w (Connection.read u p .message) :=
    fun h => h.trans (.read _ p _)
  have hset : ∀ x, Quiet w (w.setPeer p x) := .setPeer w p
  have hindex : (blockFields payload).1 < 2 ^ 32 := readAsBE32_lt payload
  -- the completion, between the storing of the block and the next selection
  have hcompleted : ∀ {it : ℕ} {piece : Peer.Piece} {v : World},
      w.torrent.doneValue env (blockFields payload).1 = false →
      CompletionEffect sha1 (storeBlock w p payload it piece) p (piece.put payload)
        (blockFields payload).1 (piece.put payload).pieceData v → Quiet v w' →
      (w'.announced q i ↔ w.announced q i ∨
        q ∈ w.torrent.activePeers ∧ (w.peers q).conn.isOpen = true ∧
          (w.peers q).amChoking = false ∧ w.torrent.isFinished i = false ∧
          w'.torrent.isFinished i = true) := by
    intro it piece v hdone hcomp hv
    have hstore : Quiet w (storeBlock w p payload it piece) :=
      (Quiet.log (silent_doneFault _ _)).trans (.setPeer _ p _)
    obtain ⟨hconn, hchoke⟩ := storeBlock_conn w p q payload it piece
    rw [hv.announced, hv.isFinished, hcomp.announced hindex hdone, hstore.announced, hconn, hchoke]
    rfl
  cases h with
  | ignored => exact (Quiet.read w p _).news
  | refused e => exact (Quiet.handleError w p e).news
  | choke | notInterested | havePiece => exact (hread (hset _)).news
  | unchoke =>
    refine (hread ((hset _).trans (.log (silent_sentEvents fun m hm => ?_)))).news
    obtain ⟨e, -, hm⟩ := List.mem_flatMap.mp hm
    exact not_announcement_of_mem_requests hm
  | interested =>
    refine (hread ((hset _).trans (.log (silent_sentEvents fun m hm => ?_)))).news
    split at hm
    · rw [List.mem_singleton.mp hm]
      rfl
    · cases hm
  | bitfield hid u hsel => exact (hread ((hset _).trans (.select hsel))).news
  | request hid hsize hint hchoke hlen u hserve =>
    have hlog : Quiet w (w.log (doneFault w.torrent (requestFields payload).1)) :=
      .log (silent_doneFault _ _)
    rcases hserve with ⟨-, rfl⟩ | ⟨-, hserve⟩
    · exact (hread hlog).news
    · exact (hread (hlog.trans (.serve hserve))).news
  | cancelled hid it piece =>
    refine (hread (Quiet.trans (.log fun v hv => ?_) (.setPeer _ p _))).news
    exact (List.mem_append.mp hv).elim (silent_doneFault _ _ v)
      (silent_sentEvents (fun m hm => not_announcement_of_mem_cancels hm) v)
  | stored hid it piece =>
    exact (hread ((Quiet.log (silent_doneFault _ _)).trans (.setPeer _ p _))).news
  | ioFailed hid it piece hacc hdone hlast _ hcomp =>
    exact hcompleted hdone hcomp (.refl _)
  | completed hid it piece hacc hdone hlast u u' hcomp hrun hsel =>
    exact hcompleted hdone hcomp
      (((Quiet.setPeer u p _).trans (.select hsel)).trans (.read u' p _))

/-! ## Joining -/

theorem disconnectPeers_trace (w : World) : (Torrent.disconnectPeers w).trace = w.trace :=
  disconnectPeers_induction (I := fun v => v.trace = w.trace) rfl fun _ _ _ hv => hv

/-- The step accepts the incoming handshake of `p`. -/
structure Authenticates (w : World) (p : PeerId) (w' : World) : Prop where
  pending : (w.peers p).conn.pending = .handshakeIn
  isOpen : (w.peers p).conn.isOpen = true
  eq : w' = Connection.read ((Torrent.handshaked (takeRead w p) p).log (sentEvents
    ((takeRead w p).peers p).conn p
      [.handshake w.torrent.handshake, .bitfield w.torrent.getRawBitfield])) p .message

/-- A step other than a frame accepts an incoming handshake or announces nothing. -/
theorem step_silent (hs : step sha1 w l = some w')
    (hl : ∀ p messageID payload env, l ≠ .frame p messageID payload env) :
    (∃ p, Authenticates w p w') ∨ w.Adds w' Event.Silent ∧
      ∀ q, (w.peers q).conn.pending = .handshakeIn → q ∈ w'.torrent.activePeers →
        q ∈ w.torrent.activePeers := by
  have hjoins := fun q => step_joins (q := q) hs
  -- apart from a handshake nobody becomes active
  have hother : (∀ p peerHandshake, l ≠ .handshake p peerHandshake) → w.Adds w' Event.Silent →
      (∃ p, Authenticates w p w') ∨ w.Adds w' Event.Silent ∧
        ∀ q, (w.peers q).conn.pending = .handshakeIn → q ∈ w'.torrent.activePeers →
          q ∈ w.torrent.activePeers := by
    intro hne ht
    refine .inr ⟨ht, fun q _ hq => (hjoins q hq).elim id ?_⟩
    rintro ⟨⟨peerHandshake, rfl⟩, -⟩
    exact absurd rfl (hne q peerHandshake)
  cases (step_effect hs).2 with
  | frame p messageID payload env => exact absurd rfl (hl p messageID payload env)
  | socketError p => exact hother nofun (Quiet.handleError (takeRead w p) p _).trace
  | socketClosed | endpointLost | skipped | dialled | accepted => exact hother nofun (.of_eq rfl)
  | connected p =>
    refine hother nofun (.log (w.setConn p _) fun v hv q m heq => ?_)
    rw [List.mem_singleton.mp hv] at heq
    cases heq
    rfl
  | refused p =>
    refine .inr ⟨(Quiet.handleError (takeRead w p) p _).trace, fun q _ hmem => ?_⟩
    have hmem : q ∈ (takeRead w p).torrent.activePeers := mem_active_handleError hmem
    exact hmem
  | connectHandshake p peerHandshake hopen hpend =>
    -- the answer to our handshake
    refine .inr ⟨.of_eq (read_trace ..), fun q hq hmem => ?_⟩
    rw [← World.log_nil (Torrent.handshaked (takeRead w p) p)] at hmem
    refine (mem_active_read hmem).elim id fun heq => ?_
    rw [heq, hpend] at hq
    cases hq
  | authenticateHandshake p peerHandshake hopen hpend => exact .inl ⟨p, hpend, hopen, rfl⟩
  | disconnectPeers => exact hother nofun (.of_eq (disconnectPeers_trace w))

/-- The bitfield sent after an incoming handshake announces the finished pieces. -/
theorem Authenticates.announced (hr : Reachable sha1 f w) (h : Authenticates w p w') :
    w'.announced q i ↔ w.announced q i ∨ q = p ∧ w.torrent.isFinished i = true := by
  have hlen := bitfield_length hr
  have hbits : w.torrent.bitfield[i]? = some true ↔ w.torrent.isFinished i = true := by
    rw [isFinished_iff]
    exact iff_of_eq (congrArg (fun bs : List Bool => bs[i]? = some true) hr.consistent.bits)
  have hsent : ∀ m, .sent q m ∈ sentEvents ((takeRead w p).peers p).conn p
      [.handshake w.torrent.handshake, .bitfield w.torrent.getRawBitfield] ∧
        m.announces w.torrent.pieces.length i = true ↔
          q = p ∧ m = .bitfield w.torrent.getRawBitfield ∧ w.torrent.isFinished i = true := by
    intro m
    rw [mem_sentEvents]
    constructor
    · rintro ⟨⟨-, m', hm, heq⟩, ha⟩
      cases heq
      rcases List.mem_cons.mp hm with rfl | hm
      · cases ha
      · obtain rfl := List.mem_singleton.mp hm
        refine ⟨rfl, rfl, hbits.mp ((mem_bitfieldIndexes_getRawBitfield hlen).mp ?_)⟩
        simpa [Message.announces] using ha
    · rintro ⟨rfl, rfl, hfin⟩
      refine ⟨⟨by simpa [takeRead] using h.isOpen, _, by simp, rfl⟩, ?_⟩
      have hmem := (mem_bitfieldIndexes_getRawBitfield hlen).mpr (hbits.mpr hfin)
      simpa [Message.announces] using hmem
  rw [h.eq]
  simp only [World.announced, read_torrent, read_trace, log_torrent, log_trace, List.mem_append]
  constructor
  · rintro ⟨m, hm | hm, ha⟩
    · exact .inl ⟨m, hm, ha⟩
    · obtain ⟨hq, -, hfin⟩ := (hsent m).mp ⟨hm, ha⟩
      exact .inr ⟨hq, hfin⟩
  · rintro (⟨m, hm, ha⟩ | ⟨hq, hfin⟩)
    · exact ⟨m, .inl hm, ha⟩
    · obtain ⟨hm, ha⟩ := (hsent _).mpr ⟨hq, rfl, hfin⟩
      exact ⟨_, .inr hm, ha⟩

/-- The pieces announced to a peer by one step. -/
theorem step_announced (hr : Reachable sha1 f w) (hs : step sha1 w l = some w') :
    w'.announced q i ↔ w.announced q i ∨ News w w' q i := by
  have hin : (w.peers q).conn.pending = .handshakeIn → q ∉ w.torrent.activePeers :=
    fun hq => hr.newcomers.inactive q (.inr (by rw [hq]; rfl))
  by_cases hl : ∀ p messageID payload env, l ≠ .frame p messageID payload env
  · have hledger := (step_outside hs hl).2.ledger
    have hfin : w'.torrent.isFinished i = w.torrent.isFinished i :=
      isFinished_of_ledger (by rw [hledger]) i
    have hnews : News w w' q i ↔ (w.peers q).conn.pending = .handshakeIn ∧
        q ∈ w'.torrent.activePeers ∧ w.torrent.isFinished i = true := by
      rw [News, hfin]
      refine or_iff_right ?_
      rintro ⟨-, -, -, hno, hyes⟩
      rw [hno] at hyes
      cases hyes
    rw [hnews]
    rcases step_silent hs hl with ⟨p, hauth⟩ | ⟨hsilent, hact⟩
    · rw [hauth.announced hr]
      have hactive : w'.torrent.activePeers = w.torrent.activePeers ++ [p] := by
        rw [hauth.eq, read_torrent]
        rfl
      refine or_congr_right ⟨?_, ?_⟩
      · rintro ⟨rfl, hi⟩
        exact ⟨hauth.pending, by rw [hactive]; exact List.mem_append_right _ (by simp), hi⟩
      · rintro ⟨hpend, hmem, hi⟩
        rw [hactive] at hmem
        rcases List.mem_append.mp hmem with hmem | hmem
        · exact absurd hmem (hin hpend)
        · exact ⟨List.mem_singleton.mp hmem, hi⟩
    · rw [(Quiet.of_ledger hledger hsilent).announced]
      refine (or_iff_left ?_).symm
      rintro ⟨hpend, hmem, -⟩
      exact hin hpend (hact q hpend hmem)
  · simp only [not_forall, not_not] at hl
    obtain ⟨p, messageID, payload, env, rfl⟩ := hl
    have heff := (step_frame hs).2.2
    have hsame : ((takeRead w p).peers q).conn.isOpen = (w.peers q).conn.isOpen := by
      rw [takeRead, setConn_peers]
      split
      · rename_i hqp
        rw [hqp]
      · rfl
    have hann := heff.announced (q := q) (i := i)
    rw [hsame] at hann
    have hnews : News w w' q i ↔ q ∈ w.torrent.activePeers ∧ (w.peers q).conn.isOpen = true ∧
        (w.peers q).amChoking = false ∧ w.torrent.isFinished i = false ∧
          w'.torrent.isFinished i = true := by
      refine or_iff_left ?_
      rintro ⟨hpend, hmem, -⟩
      exact hin hpend (heff.mem_active hmem)
    rw [hnews]
    simpa [takeRead, World.announced] using hann

/-! ## Runs -/

/-- What `p` has been told in `w`. -/
structure Told (sha1 : List Byte → List ℕ) (f : ParsedFile) (w : World) (p : PeerId) :
    Prop where
  /-- only finished pieces -/
  finished : ∀ i, w.announced p i → w.torrent.isFinished i = true
  /-- after an incoming handshake, every piece finished at that time -/
  authenticated : ∀ u v l i, Reachable sha1 f u → step sha1 u l = some v →
    Runs.Reaches (step sha1) v w → (u.peers p).conn.pending = .handshakeIn →
    p ∈ v.torrent.activePeers → u.torrent.isFinished i = true → w.announced p i
  /-- a piece that is finished while `p` is active, exactly if we are not choking `p` -/
  completed : ∀ u v l i, Reachable sha1 f u → step sha1 u l = some v →
    Runs.Reaches (step sha1) v w → p ∈ u.torrent.activePeers →
    u.torrent.isFinished i = false → v.torrent.isFinished i = true →
    (w.announced p i ↔ (u.peers p).conn.isOpen = true ∧ (u.peers p).amChoking = false)

/-- What has been announced stays announced. -/
theorem announced_mono (hr : Reachable sha1 f v) (h : Runs.Reaches (step sha1) v w)
    (hv : v.announced p i) : w.announced p i := by
  have hw : Reachable sha1 f w ∧ w.announced p i := by
    refine h.invariant (I := fun w => Reachable sha1 f w ∧ w.announced p i) ?_ ⟨hr, hv⟩
    rintro x l y hs ⟨hx, ha⟩
    exact ⟨hx.step hs, (step_announced hx hs).mpr (.inl ha)⟩
  exact hw.2

/-- Only finished pieces are announced. -/
theorem finished_of_announced (hr : Reachable sha1 f w) (h : w.announced p i) :
    w.torrent.isFinished i = true := by
  have hw : Reachable sha1 f w ∧ (w.announced p i → w.torrent.isFinished i = true) := by
    refine Reachable.invariant (I := fun w => Reachable sha1 f w ∧
      (w.announced p i → w.torrent.isFinished i = true)) ?_ ?_ hr
    · rintro x l y hs ⟨hx, hfin⟩
      have hmono := isFinished_mono (i := i) (.single hs)
      refine ⟨hx.step hs, fun ha => ?_⟩
      rcases (step_announced hx hs).mp ha with hold | ⟨-, -, -, -, hnew⟩ | ⟨-, -, hnew⟩
      · exact hmono (hfin hold)
      · exact hnew
      · exact hmono hnew
    · refine ⟨.refl _, ?_⟩
      rintro ⟨m, hm, -⟩
      cases hm
  exact hw.2 h

/-- A finished piece is no news to a peer that has joined. -/
theorem announced_of_later (hr : Reachable sha1 f v) (h : Runs.Reaches (step sha1) v w)
    (hjoin : ¬ v.Joining p) (hfin : v.torrent.isFinished i = true) (hw : w.announced p i) :
    v.announced p i := by
  have hback : Reachable sha1 f w ∧ ¬ w.Joining p ∧ w.torrent.isFinished i = true ∧
      (w.announced p i → v.announced p i) := by
    refine h.invariant (I := fun w => Reachable sha1 f w ∧ ¬ w.Joining p ∧
      w.torrent.isFinished i = true ∧ (w.announced p i → v.announced p i)) ?_ ⟨hr, hjoin, hfin, id⟩
    rintro x l y hs ⟨hx, hj, hf, hold⟩
    refine ⟨hx.step hs, fun hy => hj (step_settles hs p hy), isFinished_mono (.single hs) hf, ?_⟩
    intro ha
    rcases (step_announced hx hs).mp ha with ha | ⟨-, -, -, hno, -⟩ | ⟨hpend, -, -⟩
    · exact hold ha
    · rw [hf] at hno
      cases hno
    · exact absurd (.inr (by rw [hpend]; rfl)) hj
  exact hback.2.2.2 hw

/-- In every reachable state this is what a peer has been told. -/
theorem announced_exact (hr : Reachable sha1 f w) (p : PeerId) : Told sha1 f w p where
  finished i h := finished_of_announced hr h
  authenticated u v l i hu hs hv hpend hmem hfin :=
    announced_mono (hu.step hs) hv ((step_announced hu hs).mpr (.inr (.inr ⟨hpend, hmem, hfin⟩)))
  completed u v l i hu hs hv hact hno hyes := by
    have hjoin : ¬ u.Joining p := fun hj => hu.newcomers.inactive p hj hact
    have hold : ¬ u.announced p i := fun ha => by
      rw [finished_of_announced hu ha] at hno
      cases hno
    constructor
    · intro hw
      have hann :=
        announced_of_later (hu.step hs) hv (fun hj => hjoin (step_settles hs p hj)) hyes hw
      rcases (step_announced hu hs).mp hann with ha | ⟨-, hopen, hchoke, -⟩ | ⟨hpend, -, -⟩
      · exact absurd ha hold
      · exact ⟨hopen, hchoke⟩
      · exact absurd (.inr (by rw [hpend]; rfl)) hjoin
    · rintro ⟨hopen, hchoke⟩
      exact announced_mono (hu.step hs) hv
        ((step_announced hu hs).mpr (.inr (.inl ⟨hact, hopen, hchoke, hno, hyes⟩)))

/-- The download of the piece from a peer that has shown interest, and is told of it. -/
theorem announced_exact_oneByte : ∃ w, Runs.exec (step sha1OfA) oneByteFile.start
    (oneByteRun.take 4 ++ [.frame 0 2 [] {}, .frame 0 7 [0, 0, 0, 0, 0, 0, 0, 0, 97] {}]) =
      some w ∧ w.announced 0 0 := by
  have hbefore : ((Runs.exec (step sha1OfA) oneByteFile.start
      (oneByteRun.take 4 ++ [.frame 0 2 [] {}])).map fun u =>
        decide (0 ∈ u.torrent.activePeers ∧ u.torrent.isFinished 0 = false ∧
          (u.peers 0).conn.isOpen = true ∧ (u.peers 0).amChoking = false)) = some true := by
    decide +kernel
  have hafter : ((Runs.exec (step sha1OfA) oneByteFile.start
      (oneByteRun.take 4 ++ [.frame 0 2 [] {}, .frame 0 7 [0, 0, 0, 0, 0, 0, 0, 0, 97] {}])).map
        fun w => w.torrent.isFinished 0) = some true := by
    decide +kernel
  obtain ⟨u, hu, hbefore⟩ := Option.map_eq_some_iff.mp hbefore
  obtain ⟨w, hw, hfin⟩ := Option.map_eq_some_iff.mp hafter
  obtain ⟨hact, hno, hopen, hchoke⟩ := of_decide_eq_true hbefore
  have hs : step sha1OfA u (.frame 0 7 [0, 0, 0, 0, 0, 0, 0, 0, 97] {}) = some w := by
    obtain ⟨u', hu', hs⟩ := Runs.exec_snoc.mp
      (show Runs.exec (step sha1OfA) oneByteFile.start ((oneByteRun.take 4 ++ [.frame 0 2 [] {}]) ++
        [.frame 0 7 [0, 0, 0, 0, 0, 0, 0, 0, 97] {}]) = some w from hw)
    obtain rfl : u = u' := Option.some.inj (hu.symm.trans hu')
    exact hs
  have htold := announced_exact (f := oneByteFile) ⟨_, hw⟩ 0
  exact ⟨w, hw, (htold.completed u w _ 0 ⟨_, hu⟩ hs (.refl w) hact hno hfin).mpr ⟨hopen, hchoke⟩⟩

/-! ## A peer we are choking -/

/-- Not every active peer is told of every finished piece: the peer that gave us
    the piece has not shown interest, so we are choking it. -/
theorem announced_exact_fails : ¬ ∀ (sha1 : List Byte → List ℕ) (f : ParsedFile) (w : World),
    Reachable sha1 f w → ∀ p ∈ w.torrent.activePeers, ∀ i,
      w.announced p i ↔ w.torrent.isFinished i = true := by
  intro h
  have hact : 0 ∈ oneByteDone.torrent.activePeers := by decide +kernel
  have hfin : oneByteDone.torrent.isFinished 0 = true := by decide +kernel
  have htold : ¬ oneByteDone.announced 0 0 := by decide +kernel
  exact htold ((h sha1OfA oneByteFile oneByteDone oneByteDone_reachable 0 hact 0).mpr hfin)

end YTorrent
