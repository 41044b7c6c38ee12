import YTorrent.Torrent.Bounds
import YTorrent.Torrent.Joining

/-!
# Idle peers

A peer is useful when it has announced a piece that is not finished. Work is
handed out by `selectPieceAndRequest`, which is called after a BITFIELD and after
a completed piece, but not after a HAVE and not when a piece that another peer
has finished is cancelled (`Stalls`).

* `none_idle`: in a run without a stalling step every useful active peer has a
  piece in its queue.
* `none_idle_fails`: a HAVE from a peer without work leaves it idle.
-/

namespace YTorrent

open World Peer

/-- Piece `i` is not finished and the peer has announced it. -/
def Wanted (t : Torrent) (x : Peer) (i : ℕ) (piece : Torrent.Piece) : Prop :=
  t.pieces[i]? = some piece ∧ piece.finished = false ∧ x.hasPiece i = true

/-- The peer has announced a piece that is not finished. -/
def Useful (t : Torrent) (x : Peer) : Prop := ∃ i piece, Wanted t x i piece

/-- The peer is useful, but every piece wanted from it has been requested until
    its priority was `INT32_MAX`. -/
def Exhausted (t : Torrent) (x : Peer) : Prop :=
  Useful t x ∧ ∀ i piece, Wanted t x i piece → int32Max ≤ piece.priority

/-- Every useful active peer has a piece in its queue. -/
def World.NoneIdle (w : World) : Prop :=
  ∀ p ∈ w.torrent.activePeers, Useful w.torrent (w.peers p) → (w.peers p).pieceQueue ≠ []

/-- The torrent after a completion whose write did not fail. -/
def Torrent.afterCompletion (sha1 : List Byte → List ℕ) (t : Torrent) (index : ℕ)
    (data : List Byte) : Torrent :=
  if Torrent.checkPieceHash sha1 t data index then t.stored index data else t.missed data

/-- The steps that leave a useful active peer `p` without work. -/
inductive Stalls (sha1 : List Byte → List ℕ) (w : World) : Label → Prop
  /-- a HAVE for an unfinished piece from a peer with nothing queued -/
  | havePiece (p : PeerId) (messageID : Byte) (payload : List Byte) (env : Env)
    (hp : p ∈ w.torrent.activePeers) (hq : (w.peers p).pieceQueue = [])
    (hid : MessageID.ofByte messageID = some .havePiece) (hsize : payload.length = 4)
    (piece : Torrent.Piece) (hi : w.torrent.pieces[haveField payload]? = some piece)
    (hfin : piece.finished = false) : Stalls sha1 w (.frame p messageID payload env)
  /-- a block of a piece finished meanwhile, the only one queued, from a useful peer -/
  | cancelled (p : PeerId) (messageID : Byte) (payload : List Byte) (env : Env)
    (hp : p ∈ w.torrent.activePeers) (hq : (w.peers p).pieceQueue.length = 1)
    (hid : MessageID.ofByte messageID = some .pieceBlock) (it : ℕ) (piece : Peer.Piece)
    (hacc : Accepts w p payload it piece) (hfin : w.torrent.isFinished piece.index = true)
    (hu : Useful w.torrent (w.peers p)) : Stalls sha1 w (.frame p messageID payload env)
  /-- a BITFIELD when nothing is queued and no priority can be raised -/
  | bitfield (p : PeerId) (messageID : Byte) (payload : List Byte) (env : Env)
    (hp : p ∈ w.torrent.activePeers) (hq : (w.peers p).pieceQueue = [])
    (hid : MessageID.ofByte messageID = some .bitfield)
    (hx : Exhausted w.torrent
      ((w.peers p).announce (bitfieldIndexes payload w.torrent.getTotalPieces))) :
    Stalls sha1 w (.frame p messageID payload env)
  /-- the only queued piece completes and no priority can be raised -/
  | completed (p : PeerId) (messageID : Byte) (payload : List Byte) (env : Env)
    (hp : p ∈ w.torrent.activePeers) (hq : (w.peers p).pieceQueue.length = 1) (it : ℕ)
    (piece : Peer.Piece) (hc : Completes w p env messageID payload it piece)
    (hx : Exhausted (w.torrent.afterCompletion sha1 piece.index (piece.put payload).pieceData)
      (w.peers p)) : Stalls sha1 w (.frame p messageID payload env)

variable {sha1 : List Byte → List ℕ} {f : ParsedFile} {w w' : World} {p q : PeerId} {env : Env}
  {messageID : Byte} {payload : List Byte}

/-! ## Usefulness -/

theorem useful_iff {t : Torrent} {x : Peer} :
    Useful t x ↔ ∃ i < t.pieces.length, t.isFinished i = false ∧ x.hasPiece i = true := by
  constructor
  · rintro ⟨i, piece, hi, hf, hh⟩
    exact ⟨i, (List.getElem?_eq_some_iff.mp hi).1, by simp [Torrent.isFinished, hi, hf], hh⟩
  · rintro ⟨i, hi, hf, hh⟩
    rw [Torrent.isFinished, List.getElem?_eq_getElem hi] at hf
    exact ⟨i, _, List.getElem?_eq_getElem hi, hf, hh⟩

/-- Usefulness reads only what the peer has announced. -/
theorem wanted_congr {t : Torrent} {x x' : Peer} (h : x'.hasPieceIndexes = x.hasPieceIndexes)
    {i : ℕ} {piece : Torrent.Piece} : Wanted t x' i piece ↔ Wanted t x i piece := by
  simp [Wanted, hasPiece, h]

theorem useful_congr {t : Torrent} {x x' : Peer} (h : x'.hasPieceIndexes = x.hasPieceIndexes) :
    Useful t x' ↔ Useful t x := by
  simp [Useful, wanted_congr h]

theorem exhausted_congr {t : Torrent} {x x' : Peer} (h : x'.hasPieceIndexes = x.hasPieceIndexes) :
    Exhausted t x' ↔ Exhausted t x := by
  simp [Exhausted, useful_congr h, wanted_congr h]

/-- A useful peer was useful before the step if it had announced the same pieces. -/
theorem Useful.of_step {l : Label} (hs : step sha1 w l = some w') {x x' : Peer}
    (hx : x'.hasPieceIndexes = x.hasPieceIndexes) (h : Useful w'.torrent x') :
    Useful w.torrent x := by
  obtain ⟨i, hi, hf, hh⟩ := useful_iff.mp h
  refine useful_iff.mpr ⟨i, (step_layout hs).1 ▸ hi, ?_, by simpa [hasPiece, hx] using hh⟩
  by_contra hfin
  have hdone := isFinished_mono (.single hs) (by simpa using hfin : w.torrent.isFinished i = true)
  rw [hf] at hdone
  cases hdone

/-- A useful peer is idle after a selection only if every priority is the largest. -/
theorem SelectEffect.idle (h : SelectEffect w p w') (hc : w.ledger.Consistent)
    (hu : Useful w'.torrent (w'.peers p)) (hq : (w'.peers p).pieceQueue = []) :
    (w.peers p).pieceQueue = [] ∧ Exhausted w.torrent (w.peers p) := by
  cases h with
  | none h =>
    refine ⟨hq, hu, fun i piece hw => ?_⟩
    rcases h with hfull | hsel
    · -- when every piece is completed, no piece is wanted
      obtain ⟨hi, hf, -⟩ := hw
      have hlen : i < w.ledger.finished.length := by
        have := (List.getElem?_eq_some_iff.mp hi).1
        simpa [World.ledger] using this
      have hcomp : w.torrent.completedPieces = w.torrent.pieces.length := by
        simpa [Torrent.isFullyDownloaded] using hfull
      have hdone := all_finished_of_completed hc hcomp hlen
      simp [World.ledger, hi, hf] at hdone
    · exact Torrent.selected_none hsel hw.1 hw.2.1 hw.2.2
  | requested i hfull hsel => simp [queuePiece] at hq

/-! ## One step -/

/-- A step that keeps what an active peer has announced, and does not empty its queue. -/
theorem World.NoneIdle.of_same (h : w.NoneIdle) {l : Label} (hs : step sha1 w l = some w')
    (hq : q ∈ w.torrent.activePeers)
    (hhas : (w'.peers q).hasPieceIndexes = (w.peers q).hasPieceIndexes)
    (hqueue : (w'.peers q).pieceQueue = [] → (w.peers q).pieceQueue = [])
    (hu : Useful w'.torrent (w'.peers q)) : (w'.peers q).pieceQueue ≠ [] :=
  fun hnil => h q hq (hu.of_step hs hhas) (hqueue hnil)

/-- A useful peer that was not useful before the HAVE announced an unfinished piece. -/
theorem Useful.of_announce {t : Torrent} {x : Peer} {i : ℕ} (h : Useful t (x.announce [i])) :
    Useful t x ∨ ∃ piece, t.pieces[i]? = some piece ∧ piece.finished = false := by
  obtain ⟨k, piece, hk, hf, hh⟩ := h
  simp only [announce, hasPiece, List.contains_eq_mem, List.mem_append, List.mem_singleton,
    decide_eq_true_eq] at hh
  rcases hh with hh | rfl
  · exact .inl ⟨k, piece, hk, hf, by simpa [hasPiece] using hh⟩
  · exact .inr ⟨piece, hk, hf⟩

theorem set_ne_nil {α : Type*} {l : List α} {i : ℕ} {a : α} (h : l ≠ []) : l.set i a ≠ [] := by
  intro hnil
  have hlen := congrArg List.length hnil
  rw [List.length_set] at hlen
  exact h (List.length_eq_zero_iff.mp hlen)

theorem length_of_eraseIdx_nil {α : Type*} {l : List α} {i : ℕ} (hi : i < l.length)
    (h : l.eraseIdx i = []) : l.length = 1 := by
  have hlen := congrArg List.length h
  rw [List.length_eraseIdx_of_lt hi, List.length_nil] at hlen
  omega

/-- The torrent a completion leaves, when the client goes on running. -/
theorem CompletionEffect.torrent_eq {piece : Peer.Piece} {i : ℕ} {data : List Byte}
    (h : CompletionEffect sha1 w p piece i data w') (hrun : w'.running = true) :
    w'.torrent = w.torrent.afterCompletion sha1 i data := by
  unfold Torrent.afterCompletion
  cases h with
  | mismatch hash => rw [if_neg (by simp [hash])]; rfl
  | ioFailed => cases hrun
  | stored hash => rw [if_pos hash]; rfl

/-- The peer whose frame is handled is not left idle. -/
theorem World.NoneIdle.frame_self (hr : Reachable sha1 f w) (h : w.NoneIdle)
    (hs : step sha1 w (.frame p messageID payload env) = some w')
    (hg : ¬ Stalls sha1 w (.frame p messageID payload env)) (hp : p ∈ w.torrent.activePeers)
    (hu : Useful w'.torrent (w'.peers p)) : (w'.peers p).pieceQueue ≠ [] := by
  have heff := (step_frame hs).2.2
  have hsame := fun hhas hqueue => h.of_same hs hp hhas hqueue hu
  cases heff with
  | ignored | choke | unchoke | interested | notInterested =>
    exact hsame (by simp [takeRead]) (by simp [takeRead])
  | refused e =>
    rw [handleError_eq] at hsame ⊢
    exact hsame (by simp [takeRead]) (by simp [takeRead])
  | havePiece hid hsize hnew =>
    intro hnil
    have hq : (w.peers p).pieceQueue = [] := by simpa [announce, takeRead] using hnil
    have hann : Useful w.torrent ((w.peers p).announce [haveField payload]) := by
      rw [read_torrent, useful_congr (x := (w.peers p).announce [haveField payload])
        (by simp [announce, takeRead])] at hu
      exact hu
    rcases hann.of_announce with hold | ⟨piece, hi, hf⟩
    · exact h p hp hold hq
    · exact hg (.havePiece p messageID payload env hp hq hid hsize piece hi hf)
  | bitfield hid v hsel =>
    intro hnil
    rw [read_pieceQueue] at hnil
    rw [read_torrent, useful_congr (read_hasPieceIndexes ..)] at hu
    obtain ⟨hq, hx⟩ := hsel.idle hr.consistent hu hnil
    have hq : (w.peers p).pieceQueue = [] := by simpa [announce, takeRead] using hq
    rw [exhausted_congr (x := (w.peers p).announce
      (bitfieldIndexes payload w.torrent.getTotalPieces)) (by simp [announce, takeRead])] at hx
    exact hg (.bitfield p messageID payload env hp hq hid hx)
  | request hid hsize hint hchoke hlen v hserve =>
    rcases hserve with ⟨-, rfl⟩ | ⟨-, hserve⟩
    · exact hsame (by simp [takeRead]) (by simp [takeRead])
    · cases hserve <;> exact hsame (by simp [takeRead]) (by simp [takeRead])
  | cancelled hid it piece hacc hdone =>
    intro hnil
    rw [read_pieceQueue, erasePiece_queue, if_pos rfl] at hnil
    have hacc := accepts_takeRead.mp hacc
    have hlen : (w.peers p).pieceQueue.length = 1 := by
      refine length_of_eraseIdx_nil hacc.lt_length ?_
      simpa [takeRead] using hnil
    have hlt := queue_index_lt hr p piece hacc.mem
    rw [← hacc.index_eq] at hdone
    have hfin : w.torrent.isFinished piece.index = true := by
      rw [← doneValue_of_lt hlt env]
      exact hdone
    rw [read_torrent, useful_congr (x := w.peers p) (by simp [erasePiece, takeRead])] at hu
    exact hg (.cancelled p messageID payload env hp hlen hid it piece hacc hfin hu)
  | stored hid it piece hacc hdone hmore =>
    intro hnil
    rw [read_pieceQueue, storeBlock_queue, if_pos rfl] at hnil
    exact set_ne_nil (List.ne_nil_of_mem hacc.mem) hnil
  | ioFailed hid it piece hacc hdone hlast _ hcomp hrun =>
    intro hnil
    rw [hcomp.peers, storeBlock_queue, if_pos rfl] at hnil
    exact set_ne_nil (List.ne_nil_of_mem hacc.mem) hnil
  | completed hid it piece hacc hdone hlast v v' hcomp hrun hsel =>
    intro hnil
    have hc : Completes w p env messageID payload it piece :=
      Completes.of_takeRead ⟨⟨hid, hacc, hdone⟩, hlast⟩
    rw [read_pieceQueue] at hnil
    rw [read_torrent, useful_congr (read_hasPieceIndexes ..)] at hu
    have hcons := (hr.step hs).consistent
    rw [ledger_read, ledger_select p hsel] at hcons
    obtain ⟨hq, hx⟩ := hsel.idle hcons hu hnil
    have hlen : (w.peers p).pieceQueue.length = 1 := by
      rw [erasePiece_queue, if_pos rfl, hcomp.peers, storeBlock_queue, if_pos rfl] at hq
      have hlen := length_of_eraseIdx_nil (by simpa using hacc.lt_length) hq
      simpa [takeRead] using hlen
    have ht : (erasePiece v p it).torrent =
        w.torrent.afterCompletion sha1 piece.index (piece.put payload).pieceData := by
      rw [hc.accepts.index_eq]
      exact hcomp.torrent_eq hrun
    rw [ht, exhausted_congr (x := w.peers p)
      (by simp [erasePiece, hcomp.peers, storeBlock, takeRead])] at hx
    exact hg (.completed p messageID payload env hp hlen it piece hc hx)

/-- A step that does not stall a peer leaves no useful active peer idle. -/
theorem World.NoneIdle.step {l : Label} (hr : Reachable sha1 f w) (hg : ¬ Stalls sha1 w l)
    (hs : step sha1 w l = some w') (h : w.NoneIdle) : w'.NoneIdle := by
  intro q hq hu
  rcases step_cases hs with ⟨p, messageID, payload, env, rfl, -, heff⟩ | hout
  · have hqa : q ∈ w.torrent.activePeers := heff.mem_active hq
    by_cases hqp : q = p
    · subst hqp
      exact h.frame_self hr hs hg hqa hu
    · have hsame : w'.peers q = w.peers q := by
        rw [heff.peers_of_ne hqp, takeRead, setConn_peers_of_ne _ _ hqp]
      exact h.of_same hs hqa (by rw [hsame]) (by rw [hsame]; exact id) hu
  · -- a peer that has just joined has announced nothing
    have hnone : (w'.peers q).hasPieceIndexes ≠ [] := by
      intro hnil
      obtain ⟨i, piece, -, -, hh⟩ := hu
      simp [hasPiece, hnil] at hh
    obtain ⟨c, hc | ⟨-, hc⟩⟩ := hout.peers q
    · rcases step_active hs hq with hqa | hjoin
      · exact h.of_same hs hqa (by rw [hc]) (by rw [hc]; exact id) hu
      · have hblank := (hr.newcomers.blank q (.inr hjoin)).1
        rw [hc] at hnone
        exact absurd hblank hnone
    · rw [hc] at hnone
      exact absurd rfl hnone

/-- In every run none of whose steps stalls a peer, every active peer that has
    announced an unfinished piece has a piece in its queue. -/
theorem none_idle {ls : List Label}
    (hg : Runs.Guarded (step sha1) (fun w l => ¬ Stalls sha1 w l) f.start ls)
    (h : Runs.exec (step sha1) f.start ls = some w) : w.NoneIdle := by
  have hw : Reachable sha1 f w ∧ w.NoneIdle := by
    refine hg.invariant (I := fun w => Reachable sha1 f w ∧ w.NoneIdle) ?_ h
      ⟨.refl _, fun p hp => by cases hp⟩
    rintro v l v' hstall hs ⟨hr, hv⟩
    exact ⟨hr.step hs, hv.step hr hstall hs⟩
  exact hw.2

/-- No piece is exhausted while every priority can be raised. -/
theorem not_exhausted {t : Torrent} (ht : ∀ piece ∈ t.pieces, piece.priority < int32Max)
    (x : Peer) : ¬ Exhausted t x := by
  rintro ⟨⟨i, piece, hw⟩, hx⟩
  have hlt := ht piece (List.mem_of_getElem? hw.1)
  exact absurd (hx i piece hw) (by omega)

/-- The first steps of the one-byte download assign the piece to the peer. -/
theorem none_idle_oneByte : ∃ w, Runs.exec (step sha1OfA) oneByteFile.start
    (oneByteRun.take 2 ++ [.frame 0 5 [128] {}]) = some w ∧ 0 ∈ w.torrent.activePeers ∧
      w.NoneIdle := by
  have hrun : ((Runs.exec (step sha1OfA) oneByteFile.start
      (oneByteRun.take 2 ++ [.frame 0 5 [128] {}])).map fun w =>
        decide (0 ∈ w.torrent.activePeers)) = some true := by
    decide +kernel
  have hprio : ((Runs.exec (step sha1OfA) oneByteFile.start (oneByteRun.take 2)).map fun w =>
      decide (∀ piece ∈ w.torrent.pieces, piece.priority < int32Max)) = some true := by
    decide +kernel
  obtain ⟨w, hw, hact⟩ := Option.map_eq_some_iff.mp hrun
  refine ⟨w, hw, of_decide_eq_true hact,
    none_idle (Runs.guarded_append.mpr ⟨?_, fun t ht => ?_⟩) hw⟩
  · refine ⟨nofun, fun _ _ => ⟨nofun, fun _ _ => trivial⟩⟩
  · obtain ⟨t', ht', hle⟩ := Option.map_eq_some_iff.mp hprio
    obtain rfl : t = t' := Option.some.inj (ht.symm.trans ht')
    refine ⟨fun hst => ?_, fun _ _ => trivial⟩
    cases hst with
    | havePiece => exact absurd ‹MessageID.ofByte 5 = some .havePiece› (by decide)
    | cancelled => exact absurd ‹MessageID.ofByte 5 = some .pieceBlock› (by decide)
    | bitfield => exact not_exhausted (of_decide_eq_true hle) _ ‹_›
    | completed =>
      rename_i hc
      have hid : MessageID.ofByte 5 = some .pieceBlock := hc.id
      exact absurd hid (by decide)

/-! ## A HAVE without a selection -/

/-- A peer connects and announces piece 0 with a HAVE. -/
def haveRun : List Label :=
  [.accepted (some 1), .handshake 0 zeroHandshake, .frame 0 4 [0, 0, 0, 0] {}]

/-- The peer has announced the only piece, and no piece is assigned to it. -/
theorem none_idle_fails : ¬ ∀ (sha1 : List Byte → List ℕ) (f : ParsedFile) (w : World),
    Reachable sha1 f w → w.NoneIdle := by
  intro h
  have hidle : ((Runs.exec (step sha1OfA) oneByteFile.start haveRun).map fun w =>
      decide (0 ∈ w.torrent.activePeers ∧ 0 < w.torrent.pieces.length ∧
        w.torrent.isFinished 0 = false ∧ (w.peers 0).hasPiece 0 = true ∧
        (w.peers 0).pieceQueue = [])) = some true := by
    decide +kernel
  obtain ⟨w, hw, hidle⟩ := Option.map_eq_some_iff.mp hidle
  obtain ⟨hact, hlen, hfin, hhas, hq⟩ := of_decide_eq_true hidle
  exact h sha1OfA oneByteFile w ⟨haveRun, hw⟩ 0 hact (useful_iff.mpr ⟨0, hlen, hfin, hhas⟩) hq

end YTorrent
