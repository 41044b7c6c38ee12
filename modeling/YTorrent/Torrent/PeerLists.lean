import Mathlib.Data.List.Nodup
import YTorrent.Torrent.Bitfield
import YTorrent.Torrent.Idle
import YTorrent.Torrent.Selection

/-!
# The lists of a peer

`hasPieceIndexes` is meant to hold each announced piece once, and `pieceQueue` each
requested piece once. HAVE looks for the index in the list but does not compare it
with the number of pieces, BITFIELD does the opposite, and `selectPieceAndRequest`
does not look at the queue (`Spoils`).

* `lists_wellFormed_iff`: through a run the lists of all peers are as they should be
  exactly when none of its steps spoils them.
* `lists_wellFormed_fails`: a HAVE for a piece that does not exist.
-/

namespace YTorrent

open World Peer Torrent

/-- The lists of a peer, for a torrent of `n` pieces. -/
structure Peer.WellFormed (n : ℕ) (x : Peer) : Prop where
  announced_nodup : x.hasPieceIndexes.Nodup
  announced_lt : ∀ i ∈ x.hasPieceIndexes, i < n
  queue_nodup : (x.pieceQueue.map (·.index)).Nodup

/-- The lists of every peer are well-formed. -/
def World.ListsWellFormed (w : World) : Prop :=
  ∀ p, (w.peers p).WellFormed w.torrent.getTotalPieces

/-- Pieces are missing, and the one to request next from the peer, the least requested
    one unless it was requested until its priority was `INT32_MAX`, is in its queue. -/
def Repeats (t : Torrent) (x : Peer) : Prop :=
  t.isFullyDownloaded = false ∧ ∃ i piece, LeastRequested t x i ∧ t.pieces[i]? = some piece ∧
    piece.priority < int32Max ∧ u32 i ∈ x.pieceQueue.map (·.index)

/-- The buffer of piece `index` is right, and cannot be written to the file. -/
def WriteFails (sha1 : List Byte → List ℕ) (t : Torrent) (env : Env) (index : ℕ)
    (data : List Byte) : Prop :=
  checkPieceHash sha1 t data index = true ∧ (2 ^ 63 ≤ u64 (index * t.pieceLength) ∨
    env.fseekFails = true ∨ env.fwriteLimit < data.length)

/-- The steps that put an index in a list where it does not belong: a HAVE for a piece
    that does not exist, a BITFIELD that repeats an announced piece or leads to a queued
    piece being requested, and a block that completes a piece and leads to one. -/
def Spoils (sha1 : List Byte → List ℕ) (w : World) : Label → Prop
  | .frame p messageID payload env =>
    match MessageID.ofByte messageID with
    | some .havePiece => payload.length = 4 ∧ (w.peers p).hasPiece (haveField payload) = false ∧
        w.torrent.getTotalPieces ≤ haveField payload
    | some .bitfield => 1 ≤ payload.length ∧
        ((∃ i ∈ bitfieldIndexes payload w.torrent.getTotalPieces,
          i ∈ (w.peers p).hasPieceIndexes) ∨
        Repeats w.torrent
          ((w.peers p).announce (bitfieldIndexes payload w.torrent.getTotalPieces)))
    | some .pieceBlock => ∃ it piece, Completes w p env messageID payload it piece ∧
        ¬ WriteFails sha1 w.torrent env piece.index (piece.put payload).pieceData ∧
        Repeats (w.torrent.afterCompletion sha1 piece.index (piece.put payload).pieceData)
          { w.peers p with pieceQueue := (w.peers p).pieceQueue.eraseIdx it }
    | _ => False
  | _ => False

variable {sha1 : List Byte → List ℕ} {f : ParsedFile} {w w' : World} {p q : PeerId} {env : Env}
  {messageID : Byte} {payload : List Byte} {t : Torrent} {x x' : Peer} {i n : ℕ}

/-! ## Lists -/

/-- The loops of the BITFIELD case push every index once. -/
theorem bitfieldIndexes_nodup (raw : List Byte) (n : ℕ) : (bitfieldIndexes raw n).Nodup := by
  have hbit : ∀ i j k, (if (readU8 raw i).testBit (7 - j) && decide (i * 8 + j < n) then
      some (i * 8 + j) else none) = some k → i * 8 + j = k := by
    intro i j k h
    split_ifs at h
    exact Option.some.inj h
  rw [bitfieldIndexes, List.nodup_flatMap]
  constructor
  · intro i _
    refine List.nodup_range.filterMap ?_
    intro j j' k hj hj'
    have h := hbit i j k hj
    have h' := hbit i j' k hj'
    omega
  · refine List.pairwise_lt_range.imp fun {i i'} hlt => ?_
    refine List.disjoint_left.mpr ?_
    intro k hk hk'
    obtain ⟨j, hj, hjk⟩ := List.mem_filterMap.mp hk
    obtain ⟨j', hj', hjk'⟩ := List.mem_filterMap.mp hk'
    have h := hbit i j k hjk
    have h' := hbit i' j' k hjk'
    have hlt8 := List.mem_range.mp hj
    omega

namespace Peer.WellFormed

theorem congr (hhas : x'.hasPieceIndexes = x.hasPieceIndexes)
    (hqueue : x'.pieceQueue.map (·.index) = x.pieceQueue.map (·.index)) :
    x'.WellFormed n ↔ x.WellFormed n := by
  constructor
  · intro h
    exact ⟨hhas ▸ h.announced_nodup, hhas ▸ h.announced_lt, hqueue ▸ h.queue_nodup⟩
  · intro h
    exact ⟨hhas ▸ h.announced_nodup, hhas ▸ h.announced_lt, hqueue ▸ h.queue_nodup⟩

/-- More indexes are announced. -/
theorem announce (h : x.WellFormed n) {indexes : List ℕ} (hnodup : indexes.Nodup) :
    (x.announce indexes).WellFormed n ↔
      (∀ i ∈ indexes, i < n) ∧ ∀ i ∈ indexes, i ∉ x.hasPieceIndexes := by
  constructor
  · intro h'
    refine ⟨fun i hi => h'.announced_lt i (List.mem_append_right _ hi), fun i hi hold => ?_⟩
    exact (List.nodup_append.mp h'.announced_nodup).2.2 i hold i hi rfl
  · rintro ⟨hlt, hnew⟩
    refine ⟨List.nodup_append.mpr ⟨h.announced_nodup, hnodup, ?_⟩, ?_, h.queue_nodup⟩
    · rintro i hold j hj rfl
      exact hnew i hj hold
    · intro i hi
      exact (List.mem_append.mp hi).elim (h.announced_lt i) (hlt i)

/-- A piece is queued. -/
theorem queuePiece (h : x.WellFormed n) (t : Torrent) (i : ℕ) :
    (x.queuePiece t i).WellFormed n ↔ i ∉ x.pieceQueue.map (·.index) := by
  have hmap : (x.queuePiece t i).pieceQueue.map (·.index) = x.pieceQueue.map (·.index) ++ [i] := by
    simp [Peer.queuePiece, Piece.new]
  have hnodup : (x.pieceQueue.map (·.index) ++ [i]).Nodup ↔ i ∉ x.pieceQueue.map (·.index) := by
    rw [List.nodup_append]
    constructor
    · rintro ⟨-, -, hne⟩ hmem
      exact hne i hmem i List.mem_cons_self rfl
    · intro hno
      refine ⟨h.queue_nodup, List.nodup_singleton i, ?_⟩
      rintro j hj _ hi rfl
      exact hno (List.mem_singleton.mp hi ▸ hj)
  rw [← hnodup, ← hmap]
  exact ⟨fun h' => h'.queue_nodup, fun h' => ⟨h.announced_nodup, h.announced_lt, h'⟩⟩

/-- An entry is erased. -/
theorem eraseIdx (h : x.WellFormed n) (it : ℕ) :
    ({ x with pieceQueue := x.pieceQueue.eraseIdx it } : Peer).WellFormed n := by
  refine ⟨h.announced_nodup, h.announced_lt, ?_⟩
  exact h.queue_nodup.sublist ((List.eraseIdx_sublist _ _).map _)

end Peer.WellFormed

/-! ## The selection -/

theorem leastRequested_congr (h : x'.hasPieceIndexes = x.hasPieceIndexes) :
    LeastRequested t x' i ↔ LeastRequested t x i := by
  have hwanted : ∀ k piece, Torrent.Wanted t x' k piece ↔ Torrent.Wanted t x k piece := by
    intro k piece
    have hhas : x'.hasPiece k = x.hasPiece k := by rw [hasPiece, hasPiece, h]
    exact ⟨fun hw => ⟨hw.1, hw.2, hhas ▸ hw.3⟩, fun hw => ⟨hw.1, hw.2, hhas ▸ hw.3⟩⟩
  simp only [LeastRequested, hwanted]

theorem repeats_congr (hhas : x'.hasPieceIndexes = x.hasPieceIndexes)
    (hqueue : x'.pieceQueue.map (·.index) = x.pieceQueue.map (·.index)) :
    Repeats t x' ↔ Repeats t x := by
  simp only [Repeats, leastRequested_congr hhas, hqueue]

/-- Which piece a selection requests, if any. -/
theorem repeats_iff (hprio : ∀ piece ∈ t.pieces, 0 ≤ piece.priority) :
    Repeats t x ↔ t.isFullyDownloaded = false ∧
      ∃ i, selected t x = some i ∧ u32 i ∈ x.pieceQueue.map (·.index) := by
  refine and_congr_right fun _ => exists_congr fun i => ?_
  rw [selected_iff_below hprio]
  constructor
  · rintro ⟨piece, hleast, hi, hlt, hmem⟩
    exact ⟨⟨hleast, piece, hi, hlt⟩, hmem⟩
  · rintro ⟨⟨hleast, piece, hi, hlt⟩, hmem⟩
    exact ⟨piece, hleast, hi, hlt, hmem⟩

/-- A selection keeps the lists well-formed unless it requests a queued piece. -/
theorem SelectEffect.wellFormed (h : SelectEffect w p w') (hx : (w.peers p).WellFormed n)
    (hprio : ∀ piece ∈ w.torrent.pieces, 0 ≤ piece.priority) :
    (w'.peers p).WellFormed n ↔ ¬ Repeats w.torrent (w.peers p) := by
  rw [repeats_iff hprio]
  cases h with
  | none hnone =>
    refine iff_of_true hx ?_
    rintro ⟨hfull, i, hsel, -⟩
    rcases hnone with hall | hno
    · rw [hall] at hfull
      cases hfull
    · rw [hno] at hsel
      cases hsel
  | requested i hfull hsel =>
    rw [log_peers, setPeer_peers_self, hx.queuePiece]
    simp only [hfull, hsel, true_and, Option.some.injEq, exists_eq_left']

/-! ## Priorities -/

theorem forall_mem_modify {ps : List Torrent.Piece} {g : Torrent.Piece → Torrent.Piece}
    {P : Torrent.Piece → Prop} (h : ∀ piece ∈ ps, P piece) (hg : ∀ piece, P piece → P (g piece)) :
    ∀ piece ∈ ps.modify i g, P piece := by
  intro piece hmem
  obtain ⟨k, hk⟩ := List.mem_iff_getElem?.mp hmem
  rw [List.getElem?_modify] at hk
  obtain ⟨piece', hk', rfl⟩ := Option.map_eq_some_iff.mp hk
  have hp := h piece' (List.mem_of_getElem? hk')
  by_cases hik : i = k
  · rw [if_pos hik]
    exact hg piece' hp
  · rw [if_neg hik]
    exact hp

theorem SelectEffect.priorities (h : SelectEffect w p w')
    (hprio : ∀ piece ∈ w.torrent.pieces, 0 ≤ piece.priority) :
    ∀ piece ∈ w'.torrent.pieces, 0 ≤ piece.priority := by
  cases h with
  | none => exact hprio
  | requested i =>
    refine forall_mem_modify hprio fun piece hpiece => ?_
    show 0 ≤ piece.priority + 1
    omega

theorem CompletionEffect.priorities {piece : Peer.Piece} {data : List Byte}
    (h : CompletionEffect sha1 w p piece i data w')
    (hprio : ∀ piece ∈ w.torrent.pieces, 0 ≤ piece.priority) :
    ∀ piece ∈ w'.torrent.pieces, 0 ≤ piece.priority := by
  cases h with
  | mismatch | ioFailed => exact hprio
  | stored => exact forall_mem_modify hprio fun _ hpiece => hpiece

/-- A priority is never negative. -/
theorem priority_nonneg (h : Reachable sha1 f w) :
    ∀ piece ∈ w.torrent.pieces, 0 ≤ piece.priority := by
  refine h.invariant (I := fun w => ∀ piece ∈ w.torrent.pieces, 0 ≤ piece.priority) ?_ ?_
  · intro v l v' hs hv
    rcases step_cases hs with ⟨p, messageID, payload, env, rfl, -, heff⟩ | hout
    · cases heff with
      | ignored | choke | unchoke | interested | notInterested | havePiece | stored =>
        rw [read_torrent]
        exact hv
      | refused e =>
        rw [handleError_eq]
        exact hv
      | bitfield hid u hsel =>
        rw [read_torrent]
        exact hsel.priorities hv
      | request hid hsize hint hchoke hlen u hserve =>
        rw [read_torrent]
        rcases hserve with ⟨-, rfl⟩ | ⟨-, hserve⟩
        · exact hv
        · cases hserve <;> exact hv
      | cancelled =>
        rw [read_torrent]
        exact hv
      | ioFailed hid it piece hacc hdone hlast _ hcomp => exact hcomp.priorities hv
      | completed hid it piece hacc hdone hlast u u' hcomp hrun hsel =>
        rw [read_torrent]
        exact hsel.priorities (hcomp.priorities hv)
    · rw [hout.torrent]
      exact hv
  · intro piece hmem
    obtain ⟨hash, -, rfl⟩ := List.mem_map.mp hmem
    exact le_rfl

/-! ## Completions -/

/-- A completion goes on unless the write fails. -/
theorem handlePieceCompleted_running (w : World) (p : PeerId) (env : Env) (piece : Peer.Piece)
    (index : ℕ) (data : List Byte) :
    (handlePieceCompleted sha1 w p env piece index data).running = true ↔
      w.running = true ∧ ¬ WriteFails sha1 w.torrent env index data := by
  have hmodify : ∀ (v : World) (g : Torrent.Piece → Torrent.Piece),
      (modifyPiece v index g).running = v.running := by
    intro v g
    unfold modifyPiece
    split <;> rfl
  unfold handlePieceCompleted WriteFails
  by_cases hash : checkPieceHash sha1 w.torrent data index = true
  · simp only [hash, Bool.not_true, Bool.false_eq_true, if_false, true_and, not_or, not_le, not_lt]
    split_ifs with hseek hwrote
    · refine iff_of_false Bool.false_ne_true fun h => ?_
      simp only [Bool.or_eq_true, decide_eq_true_eq] at hseek
      exact hseek.elim (fun hge => absurd h.2.1 (by omega)) h.2.2.1
    · exact iff_of_false Bool.false_ne_true fun h => hwrote (min_eq_left h.2.2.2)
    · rw [broadcastHave_eq, log_running, log_running, setTorrent_running, hmodify, setBit_eq]
      refine (and_iff_left ?_).symm
      simp only [Bool.or_eq_true, decide_eq_true_eq, not_or, not_le] at hseek
      exact ⟨hseek.1, hseek.2, min_eq_left_iff.mp (not_not.mp hwrote)⟩
  · simp [hash]

/-- The client goes on after a completing block unless the write fails. -/
theorem completes_running (hs : step sha1 w (.frame p messageID payload env) = some w') {it : ℕ}
    {piece : Peer.Piece} (hc : Completes w p env messageID payload it piece) :
    w'.running = true ↔
      ¬ WriteFails sha1 w.torrent env piece.index (piece.put payload).pieceData := by
  have hrun : (storeBlock (takeRead w p) p payload it piece).running = true := (step_frame hs).1
  have hmore : ¬ (takeRead w p).torrent.doneValue env (blockFields payload).1 = true := by
    have hdone := hc.unfinished
    simpa [takeRead] using hdone
  have hlast : (piece.put payload).haveBlocks = (piece.put payload).totalBlocks := hc.last
  rw [← step_frame_eq hs, handleMessage_eq, dispatch, hc.id]
  simp only
  rw [handlePieceBlock_accepts (accepts_takeRead.mpr hc.accepts), if_neg hmore, if_pos hlast]
  have hiff : (handlePieceCompleted sha1 (storeBlock (takeRead w p) p payload it piece) p env
      (piece.put payload) (blockFields payload).1 (piece.put payload).pieceData).running = true ↔ _ :=
    handlePieceCompleted_running ..
  rw [hrun, eq_self_iff_true, true_and, ← hc.accepts.index_eq] at hiff
  rw [← hc.accepts.index_eq]
  refine Iff.trans ?_ hiff
  simp only
  split
  · exact Iff.rfl
  · rw [Flow.next_brk, read_running, (select_effect_of_ne _ p).running]
    exact Iff.rfl

/-! ## One step -/

/-- Storing a block changes the index of no entry. -/
theorem map_index_set {it : ℕ} {piece : Peer.Piece} (hacc : Accepts w p payload it piece) :
    ((w.peers p).pieceQueue.set it (piece.put payload)).map (·.index) =
      (w.peers p).pieceQueue.map (·.index) := by
  obtain ⟨hlt, hget⟩ := List.getElem?_eq_some_iff.mp (findPiece_some hacc.found).1
  apply List.ext_getElem?
  intro k
  rw [List.getElem?_map, List.getElem?_map, List.getElem?_set]
  by_cases hk : it = k
  · subst hk
    rw [if_pos rfl, if_pos hlt, List.getElem?_eq_getElem hlt, hget]
    rfl
  · rw [if_neg hk]

/-- A block is stored in one entry only. -/
theorem Completes.unique {it it' : ℕ} {piece piece' : Peer.Piece}
    (h : Completes w p env messageID payload it piece)
    (h' : Completes w p env messageID payload it' piece') : it' = it ∧ piece' = piece := by
  have heq := h'.accepts.found.symm.trans h.accepts.found
  exact Prod.mk.inj (Option.some.inj heq)

/-- Which completing blocks spoil the queue. -/
theorem Completes.spoils_iff {it : ℕ} {piece : Peer.Piece}
    (hc : Completes w p env messageID payload it piece) :
    Spoils sha1 w (.frame p messageID payload env) ↔
      ¬ WriteFails sha1 w.torrent env piece.index (piece.put payload).pieceData ∧
        Repeats (w.torrent.afterCompletion sha1 piece.index (piece.put payload).pieceData)
          { w.peers p with pieceQueue := (w.peers p).pieceQueue.eraseIdx it } := by
  simp only [Spoils, hc.id]
  constructor
  · rintro ⟨it', piece', hc', h⟩
    obtain ⟨rfl, rfl⟩ := hc.unique hc'
    exact h
  · exact fun h => ⟨it, piece, hc, h⟩

/-- A PIECE_BLOCK that completes nothing spoils nothing. -/
theorem not_spoils_of_incomplete (hid : MessageID.ofByte messageID = some .pieceBlock)
    (h : ∀ it piece, ¬ Completes w p env messageID payload it piece) :
    ¬ Spoils sha1 w (.frame p messageID payload env) := by
  simp only [Spoils, hid]
  rintro ⟨it, piece, hc, -⟩
  exact h it piece hc

/-- A frame that is refused puts nothing in a list. -/
theorem Refusal.not_spoils {e : PeerError} (h : Refusal w p messageID payload e) :
    ¬ Spoils sha1 w (.frame p messageID payload env) := by
  have hblock : MessageID.ofByte messageID = some .pieceBlock →
      (∀ it piece, ¬ Accepts w p payload it piece) →
        ¬ Spoils sha1 w (.frame p messageID payload env) := by
    intro hid hno
    simp only [Spoils, hid]
    rintro ⟨it, piece, hc, -⟩
    exact hno it piece hc.accepts
  cases h with
  | invalidSize m hid hsize =>
    cases m with
    | choke | unchoke | interested | notInterested | request | cancel => simp [Spoils, hid]
    | havePiece =>
      simp only [Spoils, hid]
      exact fun h => hsize h.1
    | bitfield =>
      simp only [Spoils, hid]
      exact fun h => hsize h.1
    | pieceBlock => exact hblock hid fun _ _ hacc => hsize hacc.size_ge
  | requestWithoutInterest hid | requestWhileChoked hid | requestTooBig hid => simp [Spoils, hid]
  | tooBigBlock hid hbig => exact hblock hid fun _ _ hacc => absurd hacc.size_le (by omega)
  | notAskedFor hid hfind =>
    refine hblock hid fun it piece hacc => ?_
    rw [hacc.found] at hfind
    cases hfind
  | tooBigBlockIndex hid it piece hfind hslot =>
    refine hblock hid fun it' piece' hacc => ?_
    obtain ⟨-, rfl⟩ := Prod.mk.inj (Option.some.inj (hacc.found.symm.trans hfind))
    exact absurd hacc.slot_lt (by omega)

/-- What a frame does to the lists of its peer. -/
theorem frame_wellFormed (hr : Reachable sha1 f w)
    (hs : step sha1 w (.frame p messageID payload env) = some w')
    (hx : (w.peers p).WellFormed w.torrent.getTotalPieces) :
    (w'.peers p).WellFormed w.torrent.getTotalPieces ↔
      ¬ Spoils sha1 w (.frame p messageID payload env) := by
  have hprio := priority_nonneg hr
  have heff := (step_frame hs).2.2
  have hhas : ((takeRead w p).peers p).hasPieceIndexes = (w.peers p).hasPieceIndexes := by
    simp [takeRead]
  have hqueue : ((takeRead w p).peers p).pieceQueue = (w.peers p).pieceQueue := by simp [takeRead]
  have hsame : ∀ x' : Peer, x'.hasPieceIndexes = (w.peers p).hasPieceIndexes →
      x'.pieceQueue.map (·.index) = (w.peers p).pieceQueue.map (·.index) →
        x'.WellFormed w.torrent.getTotalPieces :=
    fun x' h h' => (WellFormed.congr h h').mpr hx
  cases heff with
  | ignored hign =>
    refine iff_of_true (hsame _ ?_ ?_) ?_
    · simp [takeRead]
    · simp [takeRead]
    · cases hign with
      | unknown hid => simp [Spoils, hid]
      | havePiece hid hsize hold =>
        have hold : (w.peers p).hasPiece (haveField payload) = true := by simpa [takeRead] using hold
        simp [Spoils, hid, hold]
      | cancel hid => simp [Spoils, hid]
  | refused e href =>
    rw [handleError_eq]
    exact iff_of_true (hsame _ (by simp [takeRead]) (by simp [takeRead]))
      href.of_takeRead.not_spoils
  | choke hid | unchoke hid | interested hid | notInterested hid =>
    exact iff_of_true (hsame _ (by simp [takeRead]) (by simp [takeRead])) (by simp [Spoils, hid])
  | havePiece hid hsize hnew =>
    have hnew : (w.peers p).hasPiece (haveField payload) = false := by simpa [takeRead] using hnew
    have hno : haveField payload ∉ (w.peers p).hasPieceIndexes := by
      simpa [hasPiece, List.contains_eq_mem] using hnew
    rw [WellFormed.congr (x := (w.peers p).announce [haveField payload])
      (by simp [Peer.announce, takeRead]) (by simp [Peer.announce, takeRead]),
      hx.announce (List.nodup_singleton _)]
    simp only [Spoils, hid, hsize, hnew, List.mem_singleton, forall_eq, hno, not_false_eq_true,
      and_true, true_and, not_le]
  | bitfield hid v hsel =>
    by_cases hsize : 1 ≤ payload.length
    · have hidx := hx.announce (bitfieldIndexes_nodup payload w.torrent.getTotalPieces)
      have hlt : ∀ i ∈ bitfieldIndexes payload w.torrent.getTotalPieces,
          i < w.torrent.getTotalPieces := fun i hi => (mem_bitfieldIndexes.mp hi).2.1
      rw [WellFormed.congr (x := v.peers p) (read_hasPieceIndexes ..) (by rw [read_pieceQueue])]
      simp only [Spoils, hid, hsize, true_and, not_or, not_exists, not_and]
      have hlists : (((takeRead w p).setPeer p (((takeRead w p).peers p).announce
          (bitfieldIndexes payload w.torrent.getTotalPieces))).peers p).hasPieceIndexes =
            ((w.peers p).announce (bitfieldIndexes payload
              w.torrent.getTotalPieces)).hasPieceIndexes := by
        simp [Peer.announce, takeRead]
      have hqueues : (((takeRead w p).setPeer p (((takeRead w p).peers p).announce
          (bitfieldIndexes payload w.torrent.getTotalPieces))).peers p).pieceQueue.map (·.index) =
            ((w.peers p).announce (bitfieldIndexes payload
              w.torrent.getTotalPieces)).pieceQueue.map (·.index) := by
        simp [Peer.announce, takeRead]
      by_cases hnew : ∀ i ∈ bitfieldIndexes payload w.torrent.getTotalPieces,
          i ∉ (w.peers p).hasPieceIndexes
      · have hwf := (WellFormed.congr hlists hqueues).mpr (hidx.mpr ⟨hlt, hnew⟩)
        rw [hsel.wellFormed hwf hprio, and_iff_right hnew]
        exact not_congr (repeats_congr hlists hqueues)
      · refine iff_of_false (fun hwf => hnew fun i hi hold => ?_) fun h => hnew h.1
        have hnodup := hwf.announced_nodup
        rw [hsel.hasPieceIndexes.trans hlists] at hnodup
        exact (List.nodup_append.mp hnodup).2.2 i hold i hi rfl
    · -- the empty message is refused
      have heq := step_frame_eq hs
      have hshort : IncomingMessage.getSize { dataBuffer := payload } < 1 := not_le.mp hsize
      rw [handleMessage_eq, dispatch, hid] at heq
      simp only [handleBitfield, if_pos hshort, Flow.next_ret] at heq
      rw [← heq, handleError_eq]
      refine iff_of_true (hsame _ (by simp [takeRead]) (by simp [takeRead])) ?_
      simp only [Spoils, hid]
      exact fun h => hsize h.1
  | request hid hsize hint hchoke hlen v hserve =>
    refine iff_of_true (hsame _ ?_ ?_) (by simp [Spoils, hid])
    · rw [read_hasPieceIndexes]
      rcases hserve with ⟨-, rfl⟩ | ⟨-, hserve⟩
      · exact hhas
      · cases hserve <;> simp [takeRead]
    · rw [read_pieceQueue]
      rcases hserve with ⟨-, rfl⟩ | ⟨-, hserve⟩
      · rw [log_peers, hqueue]
      · rw [hserve.queue, log_peers, hqueue]
  | cancelled hid it piece hacc hdone =>
    rw [WellFormed.congr (x := { w.peers p with pieceQueue := (w.peers p).pieceQueue.eraseIdx it })
      (by simp [erasePiece, takeRead]) (by simp [erasePiece, takeRead])]
    refine iff_of_true (hx.eraseIdx it) (not_spoils_of_incomplete hid fun it' piece' hc => ?_)
    have hmore := hc.unfinished
    rw [show w.torrent.doneValue env (blockFields payload).1 = true from hdone] at hmore
    cases hmore
  | stored hid it piece hacc hdone hmore =>
    have hacc := accepts_takeRead.mp hacc
    refine iff_of_true (hsame _ (by simp [storeBlock, takeRead]) ?_)
      (not_spoils_of_incomplete hid fun it' piece' hc => ?_)
    · rw [read_pieceQueue, storeBlock_queue, if_pos rfl, hqueue]
      exact map_index_set hacc
    · obtain ⟨-, rfl⟩ := Prod.mk.inj (Option.some.inj (hacc.found.symm.trans hc.accepts.found))
      exact hmore hc.last
  | ioFailed hid it piece hacc hdone hlast _ hcomp hrun =>
    have hc : Completes w p env messageID payload it piece :=
      Completes.of_takeRead ⟨⟨hid, hacc, hdone⟩, hlast⟩
    rw [hc.spoils_iff, ← completes_running hs hc, hrun]
    refine iff_of_true (hsame _ ?_ ?_) (fun h => Bool.false_ne_true h.1)
    · simp [hcomp.peers, storeBlock, takeRead]
    · rw [hcomp.peers, storeBlock_queue, if_pos rfl, hqueue]
      exact map_index_set hc.accepts
  | completed hid it piece hacc hdone hlast v v' hcomp hrun hsel =>
    have hc : Completes w p env messageID payload it piece :=
      Completes.of_takeRead ⟨⟨hid, hacc, hdone⟩, hlast⟩
    have hwrites : (Connection.read v' p .message).running = true := by
      rw [read_running, hsel.running]
      exact hrun
    have htorrent : (erasePiece v p it).torrent =
        w.torrent.afterCompletion sha1 piece.index (piece.put payload).pieceData := by
      rw [hc.accepts.index_eq]
      exact hcomp.torrent_eq hrun
    have hhas' : ((erasePiece v p it).peers p).hasPieceIndexes = (w.peers p).hasPieceIndexes := by
      simp [erasePiece, hcomp.peers, storeBlock, takeRead]
    have hqueue' : ((erasePiece v p it).peers p).pieceQueue.map (·.index) =
        ((w.peers p).pieceQueue.eraseIdx it).map (·.index) := by
      rw [erasePiece_queue, if_pos rfl, hcomp.peers, storeBlock_queue, if_pos rfl, hqueue,
        List.eraseIdx_set_eq]
    have herase := (WellFormed.congr
      (x := { w.peers p with pieceQueue := (w.peers p).pieceQueue.eraseIdx it }) hhas' hqueue').mpr
        (hx.eraseIdx it)
    have hprio' := hcomp.priorities hprio
    rw [WellFormed.congr (x := v'.peers p) (read_hasPieceIndexes ..) (by rw [read_pieceQueue]),
      hsel.wellFormed herase hprio', hc.spoils_iff, ← completes_running hs hc, hwrites, htorrent,
      repeats_congr (x := { w.peers p with pieceQueue := (w.peers p).pieceQueue.eraseIdx it }) hhas'
        hqueue']
    simp only [true_and]

/-- A step keeps the lists well-formed exactly when it does not spoil them. -/
theorem World.ListsWellFormed.step {l : Label} (hr : Reachable sha1 f w)
    (hs : YTorrent.step sha1 w l = some w') (h : w.ListsWellFormed) :
    w'.ListsWellFormed ↔ ¬ Spoils sha1 w l := by
  have htotal : w'.torrent.getTotalPieces = w.torrent.getTotalPieces := (step_layout hs).1
  by_cases hl : ∀ p messageID payload env, l ≠ .frame p messageID payload env
  · have hno : ¬ Spoils sha1 w l := by
      cases l with
      | frame p messageID payload env => exact absurd rfl (hl p messageID payload env)
      | _ => exact id
    refine iff_of_true (fun q => ?_) hno
    rw [htotal]
    obtain ⟨c, hc | ⟨-, hc⟩⟩ := (step_outside hs hl).2.peers q
    · rw [hc]
      exact ⟨(h q).announced_nodup, (h q).announced_lt, (h q).queue_nodup⟩
    · rw [hc]
      exact ⟨List.nodup_nil, fun i hi => absurd hi List.not_mem_nil, List.nodup_nil⟩
  · simp only [not_forall, not_not] at hl
    obtain ⟨p, messageID, payload, env, rfl⟩ := hl
    rw [← frame_wellFormed hr hs (h p)]
    constructor
    · intro h'
      rw [← htotal]
      exact h' p
    · intro hp q
      rw [htotal]
      by_cases hq : q = p
      · rw [hq]
        exact hp
      · rw [(step_frame hs).2.2.peers_of_ne hq, takeRead, setConn_peers_of_ne _ _ hq]
        exact h q

/-! ## Runs -/

/-- In every run the lists of all peers are well-formed in all states exactly when none
    of its steps spoils them. -/
theorem lists_wellFormed_iff {ls : List Label}
    (h : Runs.exec (YTorrent.step sha1) f.start ls = some w) :
    Runs.Throughout (YTorrent.step sha1) World.ListsWellFormed f.start ls ↔
      Runs.Guarded (YTorrent.step sha1) (fun w l => ¬ Spoils sha1 w l) f.start ls := by
  refine Runs.throughout_iff (I := Reachable sha1 f) ?_ ?_ h (.refl _) fun p => ?_
  · intro v l v' hs hv
    exact hv.step hs
  · intro v v' l _ hs hv hwf
    exact hwf.step hv hs
  · exact ⟨List.nodup_nil, fun i hi => absurd hi List.not_mem_nil, List.nodup_nil⟩

/-- A first BITFIELD spoils nothing. -/
theorem not_spoils_first (hid : MessageID.ofByte messageID = some .bitfield)
    (hhas : (w.peers p).hasPieceIndexes = []) (hqueue : (w.peers p).pieceQueue = []) :
    ¬ Spoils sha1 w (.frame p messageID payload env) := by
  simp only [Spoils, hid, hhas]
  rintro ⟨-, ⟨i, -, hold⟩ | ⟨-, i, piece, -, -, -, hmem⟩⟩
  · exact absurd hold List.not_mem_nil
  · rw [Peer.announce, hqueue] at hmem
    exact absurd hmem List.not_mem_nil

/-- While a peer connects and announces the only piece, the lists are well-formed. -/
theorem lists_wellFormed_oneByte :
    Runs.Throughout (YTorrent.step sha1OfA) World.ListsWellFormed oneByteFile.start
      (oneByteRun.take 2 ++ [.frame 0 5 [128] {}]) := by
  have hlists : ((Runs.exec (YTorrent.step sha1OfA) oneByteFile.start (oneByteRun.take 2)).all
      fun w => decide ((w.peers 0).hasPieceIndexes = [] ∧ (w.peers 0).pieceQueue = [])) = true := by
    decide +kernel
  have hrun : (Runs.exec (YTorrent.step sha1OfA) oneByteFile.start
      (oneByteRun.take 2 ++ [.frame 0 5 [128] {}])).isSome = true := by
    decide +kernel
  obtain ⟨w, hw⟩ := Option.isSome_iff_exists.mp hrun
  refine (lists_wellFormed_iff hw).mpr (Runs.guarded_append.mpr ⟨?_, fun t ht => ?_⟩)
  · exact ⟨id, fun _ _ => ⟨id, fun _ _ => trivial⟩⟩
  · rw [ht] at hlists
    obtain ⟨hhas, hqueue⟩ := of_decide_eq_true hlists
    exact ⟨not_spoils_first rfl hhas hqueue, fun _ _ => trivial⟩

/-! ## A HAVE for no piece -/

/-- A peer connects and announces piece 7 of a torrent with one piece. -/
def beyondRun : List Label :=
  [.accepted (some 1), .handshake 0 zeroHandshake, .frame 0 4 [0, 0, 0, 7] {}]

/-- The list holds the number 7. -/
theorem lists_wellFormed_fails : ¬ ∀ (sha1 : List Byte → List ℕ) (f : ParsedFile) (w : World),
    Reachable sha1 f w → w.ListsWellFormed := by
  intro hall
  have hseven : ((Runs.exec (YTorrent.step sha1OfA) oneByteFile.start beyondRun).map fun w =>
      decide ((w.peers 0).hasPieceIndexes = [7] ∧ w.torrent.getTotalPieces = 1)) = some true := by
    decide +kernel
  obtain ⟨w, hw, hseven⟩ := Option.map_eq_some_iff.mp hseven
  obtain ⟨hhas, htotal⟩ := of_decide_eq_true hseven
  have hlt := (hall sha1OfA oneByteFile w ⟨beyondRun, hw⟩ 0).announced_lt 7 (by simp [hhas])
  omega

end YTorrent
