import YTorrent.Common.Totals
import YTorrent.Torrent.Addresses
import YTorrent.Torrent.Tracker
import YTorrent.Torrent.Uploads

/-!
# What bounds a run

Bounds on whole runs, whatever the peers and the tracker do.

* `queue_bounded`: a peer never has more pieces queued than it has sent BITFIELDs, for a
  piece that leaves the queue makes place for one selection at most. To a peer that has
  sent none, which need not send one if it has no piece, nothing about the download is
  ever written, whatever it announces by HAVE.
* `uploads_bounded`: a peer is sent at most one block of at most `MAX_BLOCK_REQUEST_SIZE`
  bytes for each REQUEST it has sent.
* `dials_bounded`: however often trackers return an address, it is dialled at most once
  more than handshakes from it are accepted.
-/

namespace YTorrent

open World Peer

/-- The step handles a message of `p` with this id. -/
def Label.brings (p : PeerId) (m : MessageID) : Label → Bool
  | .frame q messageID _ _ => q == p && MessageID.ofByte messageID == some m
  | _ => false

/-- INTERESTED, REQUEST and CANCEL, which are about the download from the peer. -/
def Message.isDownload : Message → Bool
  | .interested | .request .. | .cancel .. => true
  | _ => false

/-- The length of the block, if the message is a PIECE. -/
def Message.blockLength? : Message → Option ℕ
  | .pieceBlock _ _ block => some block.length
  | _ => none

/-- The lengths of the blocks that have been written to `p`. -/
def World.served (w : World) (p : PeerId) : List ℕ :=
  (w.messages p).filterMap Message.blockLength?

/-- A connection to `ip` is started by the step. -/
def dials (ip : ℕ) (w : World) : Label → ℕ
  | .dial ip' => if ip' = ip ∧ ¬ Torrent.Skips w ip then 1 else 0
  | _ => 0

/-- The handshake of a peer at `ip` is accepted by the step. -/
def joins (ip : ℕ) (w : World) : Label → ℕ
  | .handshake p peerHandshake =>
    if w.rawIp p = ip ∧ handshakeRefused w.torrent.handshake peerHandshake = false then 1 else 0
  | _ => 0

variable {sha1 : List Byte → List ℕ} {f : ParsedFile} {u v w w' : World} {p q : PeerId}
  {env : Env} {messageID : Byte} {payload : List Byte} {l : Label} {ls : List Label} {ip : ℕ}

/-! ## The queue of a peer -/

theorem SelectEffect.length_queue (h : SelectEffect w p w') :
    (w'.peers p).pieceQueue.length ≤ (w.peers p).pieceQueue.length + 1 := by
  rcases h.queue p with heq | ⟨-, i, -, heq⟩
  · rw [heq]
    exact Nat.le_succ _
  · rw [heq, List.length_append, List.length_singleton]

/-- A frame of a peer makes its queue longer only if it is a BITFIELD. -/
theorem FrameEffect.length_queue (h : FrameEffect sha1 w p env messageID payload w') :
    (w'.peers p).pieceQueue.length ≤
      (if MessageID.ofByte messageID = some .bitfield then 1 else 0) +
        (w.peers p).pieceQueue.length := by
  have hsame : ∀ {n : ℕ}, n ≤ (w.peers p).pieceQueue.length → n ≤
      (if MessageID.ofByte messageID = some .bitfield then 1 else 0) +
        (w.peers p).pieceQueue.length := fun hn => hn.trans (Nat.le_add_left _ _)
  cases h with
  | ignored => exact hsame (by rw [read_pieceQueue])
  | refused e => exact hsame (by rw [handleError_pieceQueue])
  | choke | unchoke | interested | notInterested | havePiece =>
    exact hsame (by simp [announce])
  | bitfield hid v hsel =>
    have hle := hsel.length_queue
    rw [setPeer_peers_self] at hle
    rw [read_pieceQueue, if_pos hid, Nat.add_comm]
    exact hle
  | request hid hsize hint hchoke hlen v hserve =>
    rcases hserve with ⟨-, rfl⟩ | ⟨-, hserve⟩
    · exact hsame (by simp)
    · exact hsame (by rw [read_pieceQueue, hserve.queue, log_peers])
  | cancelled hid it piece =>
    refine hsame ?_
    rw [read_pieceQueue, erasePiece_queue, if_pos rfl]
    exact List.length_eraseIdx_le _ _
  | stored hid it piece =>
    exact hsame (by rw [read_pieceQueue, storeBlock_queue, if_pos rfl, List.length_set])
  | ioFailed hid it piece hacc hdone hlast v hcomp =>
    exact hsame (by rw [hcomp.peers, storeBlock_queue, if_pos rfl, List.length_set])
  | completed hid it piece hacc hdone hlast v v' hcomp hrun hsel =>
    -- the entry that is erased makes place for the one that is selected
    have hle := hsel.length_queue
    have herase : ((erasePiece v p it).peers p).pieceQueue.length + 1 =
        (w.peers p).pieceQueue.length := by
      rw [erasePiece_queue, if_pos rfl, hcomp.peers, storeBlock_queue, if_pos rfl,
        List.length_eraseIdx_of_lt (by rw [List.length_set]; exact hacc.lt_length),
        List.length_set]
      have hlt := hacc.lt_length
      omega
    exact hsame (by rw [read_pieceQueue]; omega)

/-- One step lets the queue of a peer grow only by a BITFIELD of that peer. -/
theorem step_length_queue (hn : Newcomers w) (h : step sha1 w l = some w') (p : PeerId) :
    (w'.peers p).pieceQueue.length ≤
      (if l.brings p .bitfield then 1 else 0) + (w.peers p).pieceQueue.length := by
  rcases step_cases h with ⟨q, messageID, payload, env, rfl, -, hf⟩ | hout
  · by_cases hq : p = q
    · subst hq
      have hle := hf.length_queue
      rw [takeRead, setConn_pieceQueue] at hle
      simpa [Label.brings] using hle
    · rw [hf.peers_of_ne hq, takeRead, setConn_pieceQueue]
      exact Nat.le_add_left _ _
  · rw [queue_of_outside hn hout]
    exact Nat.le_add_left _ _

/-! ## A peer that sends no BITFIELD -/

/-- Nothing about the download has been queued for the peer or written to it. -/
structure Untouched (w : World) (p : PeerId) : Prop where
  queue : (w.peers p).pieceQueue = []
  messages : ∀ m ∈ w.messages p, m.isDownload = false

/-- What a frame of another peer, or one that is no BITFIELD, leads to. -/
theorem FrameEffect.untouched (h : FrameEffect sha1 w p env messageID payload w')
    (hw : (w.peers p).pieceQueue = []) (hid : MessageID.ofByte messageID ≠ some .bitfield) :
    w.Adds w' fun v => ∀ m, v.message? p = some m → m.isDownload = false := by
  have hnone : ∀ (v : World) (es : List Event), v.trace = w.trace ++ es →
      (∀ e ∈ es, ∀ m, e.message? p = some m → m.isDownload = false) →
      w.Adds (Connection.read v p .message)
        fun e => ∀ m, e.message? p = some m → m.isDownload = false :=
    fun v es htrace hes => ⟨es, by rw [read_trace, htrace], hes⟩
  have hfault : ∀ {i : ℕ}, ∀ e ∈ doneFault w.torrent i, ∀ m, e.message? p = some m →
      m.isDownload = false := by
    intro i e he m hm
    rw [(mem_doneFault he).2] at hm
    cases hm
  have hempty : ∀ {it : ℕ} {piece : Peer.Piece}, ¬ Accepts w p payload it piece := by
    intro it piece hacc
    have hmem := hacc.mem
    rw [hw] at hmem
    cases hmem
  cases h with
  | ignored => exact hnone _ [] (by simp) (by simp)
  | refused e =>
    refine ⟨[.error p e], by rw [handleError_eq]; rfl, ?_⟩
    simp [Event.message?]
  | choke | notInterested | havePiece => exact hnone _ [] (by simp) (by simp)
  | unchoke =>
    refine hnone _ [] ?_ (by simp)
    simp [hw]
  | interested =>
    refine hnone _ (sentEvents (w.peers p).conn p
      (if (w.peers p).amChoking then [.unchoke] else [])) rfl fun e he m hm => ?_
    obtain ⟨-, m', hm', rfl⟩ := mem_sentEvents.mp he
    split at hm'
    · rw [List.mem_singleton.mp hm'] at hm
      simp only [Event.message?, if_true, Option.some.injEq] at hm
      rw [← hm]
      rfl
    · cases hm'
  | bitfield hid' => exact absurd hid' hid
  | request _ _ _ _ _ v hserve =>
    rcases hserve with ⟨-, rfl⟩ | ⟨-, hserve⟩
    · exact hnone _ _ rfl hfault
    · cases hserve with
      | refused => exact hnone _ _ rfl hfault
      | silent => exact hnone _ _ rfl hfault
      | sent block =>
        refine hnone _ (doneFault w.torrent (requestFields payload).1 ++ sentEvents _ p _)
          (List.append_assoc ..) fun e he m hm => ?_
        rcases List.mem_append.mp he with he | he
        · exact hfault e he m hm
        · obtain ⟨-, m', hm', rfl⟩ := mem_sentEvents.mp he
          rw [List.mem_singleton.mp hm'] at hm
          simp only [Event.message?, if_true, Option.some.injEq] at hm
          rw [← hm]
          rfl
  | cancelled _ _ _ hacc | stored _ _ _ hacc | ioFailed _ _ _ hacc | completed _ _ _ hacc =>
    exact absurd hacc hempty

theorem Untouched.step (hn : Newcomers w) (h : YTorrent.step sha1 w l = some w')
    (hl : l.brings p .bitfield = false) (hw : Untouched w p) : Untouched w' p := by
  have hlen := step_length_queue hn h p
  have hmessages : w.Adds w' (fun e => ∀ m, e.message? p = some m → m.isDownload = false) := by
    rcases step_cases h with ⟨q, messageID, payload, env, rfl, -, hf⟩ | hout
    · by_cases hq : p = q
      · subst hq
        refine hf.untouched ?_ ?_
        · rw [takeRead, setConn_pieceQueue, hw.queue]
        · simpa [Label.brings] using hl
      · refine Adds.mono hf.trace fun e he m hm => ?_
        obtain rfl := sent_of_message? hm
        cases he with
        | reply => exact absurd rfl hq
        | announce => rfl
    · refine hout.trace.mono fun e he m hm => ?_
      obtain rfl := sent_of_message? hm
      cases m <;> first | rfl | exact he.elim
  obtain ⟨es, hes, hnew⟩ := hmessages
  refine ⟨?_, fun m hm => ?_⟩
  · rw [hl, hw.queue] at hlen
    exact List.length_eq_zero_iff.mp (Nat.le_zero.mp hlen)
  · rw [World.messages, hes, List.filterMap_append, List.mem_append] at hm
    rcases hm with hm | hm
    · exact hw.messages m hm
    · obtain ⟨e, he, hm⟩ := List.mem_filterMap.mp hm
      exact hnew e he m hm

theorem untouched_run (hr : Reachable sha1 f v) (h : Runs.exec (step sha1) v ls = some w)
    (hls : ls.countP (Label.brings p .bitfield) = 0) (hv : Untouched v p) : Untouched w p := by
  induction ls generalizing v with
  | nil =>
    cases h
    exact hv
  | cons l ls ih =>
    obtain ⟨u, hu, h⟩ := Runs.exec_cons.mp h
    have hl : l.brings p .bitfield = false :=
      Bool.eq_false_iff.mpr (List.countP_eq_zero.mp hls l List.mem_cons_self)
    have hrest : ls.countP (Label.brings p .bitfield) = 0 :=
      List.countP_eq_zero.mpr fun l' hl' =>
        List.countP_eq_zero.mp hls l' (List.mem_cons_of_mem l hl')
    exact ih (hr.step hu) h hrest (hv.step hr.newcomers hu hl)

/-- A peer never has more pieces queued than it has sent BITFIELDs, and to a peer that has
    sent none nothing about the download is written. -/
theorem queue_bounded (h : Runs.exec (step sha1) f.start ls = some w) (p : PeerId) :
    (w.peers p).pieceQueue.length ≤ ls.countP (Label.brings p .bitfield) ∧
      (ls.countP (Label.brings p .bitfield) = 0 → ∀ m ∈ w.messages p, m.isDownload = false) := by
  constructor
  · have hle : (w.peers p).pieceQueue.length ≤
        Runs.total (step sha1) (fun _ l => if l.brings p .bitfield then 1 else 0) f.start ls +
          (f.start.peers p).pieceQueue.length :=
      Runs.potential_le (I := Reachable sha1 f) (fun w => (w.peers p).pieceQueue.length)
        (fun s l s' hs hr => ⟨hr.step hs, step_length_queue hr.newcomers hs p⟩) h (.refl _)
    rwa [Runs.total_countP (fun _ _ => rfl) h] at hle
  · intro hls
    exact (untouched_run (.refl _) h hls ⟨rfl, by simp [World.messages, ParsedFile.start]⟩).messages

/-- In the one-byte download the peer has sent one BITFIELD. -/
theorem queue_bounded_oneByte : (oneByteDone.peers 0).pieceQueue.length ≤ 1 :=
  (queue_bounded oneByteRun_exec 0).1

/-! ## The blocks that are sent -/

theorem served_of_trace {es : List Event} (h : w'.trace = w.trace ++ es) :
    w'.served p = w.served p ++
      (es.filterMap (Event.message? p)).filterMap Message.blockLength? := by
  rw [World.served, World.messages, h, List.filterMap_append, List.filterMap_append]
  rfl

theorem NoUpload.served (h : NoUpload w w') (p : PeerId) : w'.served p = w.served p := by
  obtain ⟨es, hes, hpiece⟩ := h.trace
  rw [served_of_trace hes, List.filterMap_eq_nil_iff.mpr, List.append_nil]
  intro m hm
  obtain ⟨e, he, hmess⟩ := List.mem_filterMap.mp hm
  obtain rfl := sent_of_message? hmess
  have hno := hpiece _ he
  cases m with
  | pieceBlock => cases hno
  | _ => rfl

/-- A step sends a peer at most one block, in answer to its REQUEST. -/
theorem step_served (h : step sha1 w l = some w') (p : PeerId) :
    w'.served p = w.served p ∨ l.brings p .request = true ∧
      ∃ n, w'.served p = w.served p ++ [n] ∧ 0 < n ∧ n ≤ maxBlockRequestSize := by
  rcases step_uploads h with hno | ⟨q, payload, env, block, rfl, hserves, htrace, -⟩
  · exact .inl (hno.served p)
  · by_cases hq : q = p
    · subst hq
      refine .inr ⟨by simp [Label.brings], block.length, ?_, hserves.pos, ?_⟩
      · rw [served_of_trace htrace]
        simp [Event.message?, Message.blockLength?]
      · rw [hserves.length_block]
        exact hserves.asks.length_le
    · left
      rw [served_of_trace htrace]
      simp [Event.message?, hq]

/-- A peer is sent at most one block for each of its REQUESTs, of at least one and at most
    `MAX_BLOCK_REQUEST_SIZE` bytes. -/
theorem uploads_bounded (h : Runs.exec (step sha1) f.start ls = some w) (p : PeerId) :
    (w.served p).length ≤ ls.countP (Label.brings p .request) ∧
      ∀ n ∈ w.served p, 0 < n ∧ n ≤ maxBlockRequestSize := by
  constructor
  · have hle : (w.served p).length ≤
        Runs.total (step sha1) (fun _ l => if l.brings p .request then 1 else 0) f.start ls +
          (f.start.served p).length := by
      refine Runs.potential_le (I := fun _ => True) (fun w => (w.served p).length)
        (fun s l s' hs _ => ⟨trivial, ?_⟩) h trivial
      rcases step_served hs p with heq | ⟨hl, n, heq, -⟩
      · rw [heq]
        omega
      · rw [heq, hl, if_pos rfl, List.length_append, List.length_singleton]
        omega
    rwa [Runs.total_countP (fun _ _ => rfl) h] at hle
  · refine Runs.Reaches.invariant (I := fun w => ∀ n ∈ w.served p, 0 < n ∧ n ≤ maxBlockRequestSize)
      (fun s l s' hs hall n hn => ?_) ⟨ls, h⟩ fun n hn => ?_
    · rcases step_served hs p with heq | ⟨-, m, heq, hm⟩
      · exact hall n (heq ▸ hn)
      · rw [heq] at hn
        rcases List.mem_append.mp hn with hn | hn
        · exact hall n hn
        · rw [List.mem_singleton.mp hn]
          exact hm
    · cases hn

/-- After the one-byte download the peer asks for the byte once and gets it. -/
theorem uploads_bounded_oneByte : ∃ w, Runs.exec (step sha1OfA) oneByteFile.start (servingRun ++
    [.frame 0 MessageID.request.toByte requestInside {}]) = some w ∧
      w.served 0 = [1] ∧ (w.served 0).length ≤ 1 := by
  have hrun : ((Runs.exec (step sha1OfA) oneByteFile.start (servingRun ++
      [.frame 0 MessageID.request.toByte requestInside {}])).map fun w =>
        decide (w.served 0 = [1])) = some true := by
    decide +kernel
  obtain ⟨w, hw, hserved⟩ := Option.map_eq_some_iff.mp hrun
  exact ⟨w, hw, of_decide_eq_true hserved, (uploads_bounded hw 0).1⟩

/-! ## The addresses that are dialled -/

/-- 1 while the address may be dialled. -/
def dialable (ip : ℕ) (w : World) : ℕ := if ip ∈ w.torrent.blackListed then 0 else 1

theorem dialable_le (ip : ℕ) (w : World) : dialable ip w ≤ 1 := by
  unfold dialable
  split <;> omega

theorem dialable_mono (h : ip ∈ w.torrent.blackListed → ip ∈ w'.torrent.blackListed) :
    dialable ip w' ≤ dialable ip w := by
  unfold dialable
  split
  · exact Nat.zero_le _
  · rename_i hno
    rw [if_neg fun hin => hno (h hin)]

/-- The peer that joins is the only one whose address leaves `blackListed`. -/
theorem joined_dialable {peerHandshake : List Byte}
    (hblack : w'.torrent.blackListed = w.torrent.blackListed.erase (w.rawIp p))
    (href : handshakeRefused w.torrent.handshake peerHandshake = false) :
    dialable ip w' ≤ joins ip w (.handshake p peerHandshake) + dialable ip w := by
  by_cases hip : w.rawIp p = ip
  · rw [joins, if_pos ⟨hip, href⟩]
    exact (dialable_le ip w').trans (Nat.le_add_right _ _)
  · refine (dialable_mono fun hin => ?_).trans (Nat.le_add_left _ _)
    rw [hblack]
    exact (List.mem_erase_of_ne (Ne.symm hip)).mpr hin

/-- A step that dials the address closes it; a handshake from it opens it again. -/
theorem step_dials (h : step sha1 w l = some w') (ip : ℕ) :
    dials ip w l + dialable ip w' ≤ joins ip w l + dialable ip w := by
  have hkeep : dials ip w l = 0 → w'.torrent.blackListed = w.torrent.blackListed →
      dials ip w l + dialable ip w' ≤ joins ip w l + dialable ip w := by
    intro hd hblack
    rw [hd, Nat.zero_add]
    exact (dialable_mono fun hin => hblack ▸ hin).trans (Nat.le_add_left _ _)
  cases (step_effect h).2 with
  | frame p messageID payload env hready _ heff => exact hkeep rfl heff.blackListed
  | socketError p => exact hkeep rfl (Fades.handleError _ p _).blackListed
  | socketClosed | endpointLost | connected => exact hkeep rfl rfl
  | skipped ip' hskip => exact hkeep (if_neg fun hd => hd.2 (hd.1 ▸ hskip)) rfl
  | dialled ip' hskip =>
    have hin : ∀ k, k ∈ w.torrent.blackListed.insert ip' ↔ k = ip' ∨ k ∈ w.torrent.blackListed :=
      fun k => List.mem_insert_iff
    by_cases hip : ip' = ip
    · subst hip
      have hfree : ip' ∉ w.torrent.blackListed := fun hin => hskip (.inr (.inl hin))
      have hafter : dialable ip' (newPeer (w.setTorrent { w.torrent with
          blackListed := w.torrent.blackListed.insert ip' })
            { errorCB := true, pending := .connect ip' }) = 0 := if_pos ((hin _).mpr (.inl rfl))
      have hbefore : dialable ip' w = 1 := if_neg hfree
      rw [hafter, hbefore, dials, if_pos ⟨rfl, hskip⟩]
      exact Nat.le_add_left _ _
    · rw [dials, if_neg fun hd => hip hd.1, Nat.zero_add]
      exact (dialable_mono fun hold => (hin _).mpr (.inr hold)).trans (Nat.le_add_left _ _)
  | accepted remote =>
    refine (Nat.le_of_eq (Nat.zero_add _)).trans ?_
    exact (dialable_mono fun hold => List.mem_insert_of_mem hold).trans (Nat.le_add_left _ _)
  | refused p => exact hkeep rfl (Fades.handleError _ p _).blackListed
  | connectHandshake p peerHandshake hopen hpend href
  | authenticateHandshake p peerHandshake hopen hpend href =>
    refine (Nat.le_of_eq (Nat.zero_add _)).trans (joined_dialable ?_ href)
    rw [read_torrent, ← rawIp_takeRead w p p]
    rfl
  | disconnectPeers => exact hkeep rfl (Fades.disconnectPeers w).blackListed

/-- From any state on, an address is dialled at most once more than handshakes from it are
    accepted. -/
theorem dials_bounded (h : Runs.exec (step sha1) v ls = some w) (ip : ℕ) :
    Runs.total (step sha1) (dials ip) v ls ≤ Runs.total (step sha1) (joins ip) v ls + 1 := by
  have hle : Runs.total (step sha1) (dials ip) v ls + dialable ip w ≤
      Runs.total (step sha1) (joins ip) v ls + dialable ip v :=
    Runs.total_amortised (I := fun _ => True) (dialable ip)
      (fun s l s' hs _ => ⟨trivial, step_dials hs ip⟩) h trivial
  have hone := dialable_le ip v
  omega

/-- An address is returned three times, and nobody answers there. -/
def unanswered : List Label := [.dial 1, .dial 1, .socketError 0, .dial 1]

/-- It is dialled once. -/
theorem dials_bounded_unanswered :
    Runs.total (step sha1OfA) (dials 1) oneByteFile.start unanswered ≤ 1 := by
  have hsome : (Runs.exec (step sha1OfA) oneByteFile.start unanswered).isSome = true := by
    decide +kernel
  obtain ⟨w, hw⟩ := Option.isSome_iff_exists.mp hsome
  exact dials_bounded hw 1

end YTorrent
