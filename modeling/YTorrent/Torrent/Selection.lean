import Mathlib.Data.Prod.Lex
import YTorrent.Torrent.Pieces

/-!
# The piece that is selected

`Torrent::selectPieceAndRequest` (torrent.cpp lines 378–408) against its purpose: of
the unfinished pieces the peer has announced, request the one that was requested least
often, and of several such pieces the first.

* `selected_iff`: with priorities in their range the loop finds that piece.
* `selection_least`: the function raises its priority by one and calls
  `sendPieceRequest` for it, and does nothing when there is none. The number of the
  piece is converted to a `uint32_t`.
* `selection_fails`: a peer that has announced piece `2^32` only.
-/

namespace YTorrent

open World

namespace Torrent

/-- The piece is unfinished, and the peer has announced it. -/
structure Wanted (t : Torrent) (x : Peer) (i : ℕ) (piece : Piece) : Prop where
  at_index : t.pieces[i]? = some piece
  unfinished : piece.finished = false
  announced : x.hasPiece i = true

/-- Piece `i` is wanted, and has the least priority and number, in this order. -/
def LeastRequested (t : Torrent) (x : Peer) (i : ℕ) : Prop :=
  ∃ piece, Wanted t x i piece ∧ ∀ k piece', Wanted t x k piece' →
    toLex (piece.priority, i) ≤ toLex (piece'.priority, k)

/-- The priorities are counts of requests below the sentinel of the loop. -/
def PrioritiesInRange (t : Torrent) : Prop :=
  ∀ piece ∈ t.pieces, 0 ≤ piece.priority ∧ piece.priority < int32Max

variable {t : Torrent} {x : Peer} {i k : ℕ} {piece : Piece}

theorem eligible_iff : Eligible x.hasPiece t.pieces 0 i piece ↔ Wanted t x i piece := by
  constructor
  · rintro ⟨h1, h2, h3⟩
    exact ⟨h1, h2, by rwa [Nat.zero_add] at h3⟩
  · intro h
    exact ⟨h.at_index, h.unfinished, by rw [Nat.zero_add]; exact h.announced⟩

theorem Wanted.priority (h : Wanted t x i piece) (hprio : t.PrioritiesInRange) :
    0 ≤ piece.priority ∧ piece.priority < int32Max :=
  hprio piece (List.mem_of_getElem? h.at_index)

/-- Two pieces that are least requested are one. -/
theorem LeastRequested.unique (h : LeastRequested t x i) (h' : LeastRequested t x k) : i = k := by
  obtain ⟨piece, hw, hle⟩ := h
  obtain ⟨piece', hw', hle'⟩ := h'
  have heq := le_antisymm (hle k piece' hw') (hle' i piece hw)
  exact (Prod.mk.inj (toLex_inj.mp heq)).2

/-- What the loop finds is the least requested piece. -/
theorem selected_least (hprio : ∀ piece ∈ t.pieces, 0 ≤ piece.priority)
    (h : selected t x = some i) : LeastRequested t x i := by
  unfold selected at h
  split at h
  · rename_i m hl
    obtain rfl : m = i := by simpa using h
    obtain ⟨k, piece, hm, he, h0, hfirst⟩ := selectLoop_fresh hl
    obtain rfl : m = k := by omega
    refine ⟨piece, eligible_iff.mp he, fun k piece' hw => ?_⟩
    rw [Prod.Lex.toLex_le_toLex]
    -- a piece of priority 0 comes before every piece that was requested
    have hle := hprio piece' (List.mem_of_getElem? hw.at_index)
    by_cases h0' : piece'.priority = 0
    · exact .inr ⟨by rw [h0, h0'], hfirst k piece' (eligible_iff.mpr hw) h0'⟩
    · exact .inl (by omega)
  · rename_i pr j hl
    split_ifs at h with hpr
    obtain rfl : j = i := by simpa using h
    obtain ⟨-, hmin, hor⟩ := selectLoop_least hl
    rcases hor with ⟨hmax, -⟩ | ⟨k, piece, hj, he, hp, -, hfirst⟩
    · exact absurd hmax hpr
    · obtain rfl : j = k := by omega
      refine ⟨piece, eligible_iff.mp he, fun k piece' hw => ?_⟩
      rw [Prod.Lex.toLex_le_toLex]
      have hle := hmin k piece' (eligible_iff.mpr hw)
      by_cases heq : piece'.priority = pr
      · exact .inr ⟨by rw [hp, heq], hfirst k piece' (eligible_iff.mpr hw) heq⟩
      · exact .inl (by omega)

/-- The loop finds the least requested piece, if its priority is below the sentinel. -/
theorem selected_iff_below (hprio : ∀ piece ∈ t.pieces, 0 ≤ piece.priority) :
    selected t x = some i ↔ LeastRequested t x i ∧
      ∃ piece, t.pieces[i]? = some piece ∧ piece.priority < int32Max := by
  constructor
  · intro h
    obtain ⟨piece, hi, -, -, hlt⟩ := selected_some h
    exact ⟨selected_least hprio h, piece, hi, hlt⟩
  · rintro ⟨hleast, piece, hi, hlt⟩
    cases hsel : selected t x with
    | none =>
      obtain ⟨piece', hw, -⟩ := hleast
      have hmax := selected_none hsel hw.at_index hw.unfinished hw.announced
      obtain rfl := Option.some.inj (hi.symm.trans hw.at_index)
      omega
    | some k => rw [(selected_least hprio hsel).unique hleast]

/-- With priorities in their range the loop finds the least requested piece, if there
    is one. -/
theorem selected_iff (hprio : t.PrioritiesInRange) :
    selected t x = some i ↔ LeastRequested t x i := by
  rw [selected_iff_below fun piece hp => (hprio piece hp).1]
  refine and_iff_left_of_imp ?_
  rintro ⟨piece, hw, -⟩
  exact ⟨piece, hw.at_index, (hw.priority hprio).2⟩

/-- A wanted piece is not missed. -/
theorem exists_selected (hprio : t.PrioritiesInRange) (h : Wanted t x i piece) :
    ∃ k, selected t x = some k := by
  cases hsel : selected t x with
  | none =>
    have hmax := selected_none hsel h.at_index h.unfinished h.announced
    have hlt := (h.priority hprio).2
    omega
  | some k => exact ⟨k, rfl⟩

/-- If some piece is wanted, the function raises the priority of the least requested one
    by one and calls `sendPieceRequest` once, with the number of this piece as a
    `uint32_t`; if no piece is wanted it does nothing. -/
theorem selection_least {w : World} (p : PeerId) (hprio : w.torrent.PrioritiesInRange) :
    ((∃ i piece, Wanted w.torrent (w.peers p) i piece) →
      ∃ i, LeastRequested w.torrent (w.peers p) i ∧ selectPieceAndRequest w p =
        Peer.sendPieceRequest (w.setTorrent (w.torrent.raisePriority i)) p (u32 i)) ∧
    ((¬ ∃ i piece, Wanted w.torrent (w.peers p) i piece) → selectPieceAndRequest w p = w) := by
  rw [selectPieceAndRequest_eq]
  constructor
  · rintro ⟨i, piece, hw⟩
    obtain ⟨k, hsel⟩ := exists_selected hprio hw
    exact ⟨k, (selected_iff hprio).mp hsel, by rw [hsel]⟩
  · intro hnone
    cases hsel : selected w.torrent (w.peers p) with
    | none => rfl
    | some i =>
      obtain ⟨piece, hw, -⟩ := (selected_iff hprio).mp hsel
      exact absurd ⟨i, piece, hw⟩ hnone

/-- A torrent with these pieces, and a peer that has announced the pieces listed. -/
def withPieces (pieces : List Piece) (announced : List ℕ) : World where
  torrent :=
    { pieces := pieces
      bitfield := pieces.map (·.finished)
      pieceLength := 1
      totalSize := pieces.length
      file := []
      handshake := [] }
  peers := fun _ => { hasPieceIndexes := announced }
  peerCount := 1

/-- Two pieces, the first requested twice and the second once. -/
def twoRequested : World := withPieces [⟨false, 2, []⟩, ⟨false, 1, []⟩] [0, 1]

/-- The second is requested. -/
theorem selection_least_two : ∃ i, LeastRequested twoRequested.torrent (twoRequested.peers 0) i ∧
    selectPieceAndRequest twoRequested 0 = Peer.sendPieceRequest
      (twoRequested.setTorrent (twoRequested.torrent.raisePriority i)) 0 (u32 i) :=
  (selection_least 0 (show ∀ piece ∈ twoRequested.torrent.pieces, _ by decide)).1
    ⟨0, ⟨false, 2, []⟩, rfl, rfl, rfl⟩

/-- A torrent of `2^32 + 1` pieces, and a peer that has announced the last of them. -/
def lastOnly : World := withPieces (List.replicate (2 ^ 32 + 1) ⟨false, 0, []⟩) [2 ^ 32]

/-- The piece is selected, and `sendPieceRequest` is called for piece 0. -/
theorem selection_fails : ¬ ∀ (w : World) (p : PeerId), w.torrent.PrioritiesInRange →
    ((∃ i piece, Wanted w.torrent (w.peers p) i piece) →
      ∃ i, LeastRequested w.torrent (w.peers p) i ∧ selectPieceAndRequest w p =
        Peer.sendPieceRequest (w.setTorrent (w.torrent.raisePriority i)) p i) ∧
    ((¬ ∃ i piece, Wanted w.torrent (w.peers p) i piece) → selectPieceAndRequest w p = w) := by
  intro hall
  have hprio : lastOnly.torrent.PrioritiesInRange := by
    intro piece hpiece
    rw [List.eq_of_mem_replicate hpiece]
    decide
  have hat : lastOnly.torrent.pieces[2 ^ 32]? = some ⟨false, 0, []⟩ := by
    show (List.replicate (2 ^ 32 + 1) _)[2 ^ 32]? = _
    rw [List.getElem?_replicate, if_pos (by norm_num)]
  have hwanted : Wanted lastOnly.torrent (lastOnly.peers 0) (2 ^ 32) ⟨false, 0, []⟩ :=
    ⟨hat, rfl, by decide⟩
  obtain ⟨i, hleast, heq⟩ := (hall lastOnly 0 hprio).1 ⟨2 ^ 32, _, hwanted⟩
  obtain ⟨piece, hw, -⟩ := id hleast
  have hi : i ∈ [2 ^ 32] := List.contains_iff_mem.mp hw.announced
  obtain rfl := List.mem_singleton.mp hi
  rw [selectPieceAndRequest_eq, (selected_iff hprio).mpr hleast] at heq
  -- the numbers of the pieces in the queue
  have hqueue := congrArg (fun w : World => (w.peers 0).pieceQueue.map (·.index)) heq
  simp only [sendPieceRequest_eq, log_peers, setPeer_peers_self, Peer.queuePiece, List.map_append,
    List.map_cons, List.map_nil, Peer.Piece.new] at hqueue
  have hindex := List.append_cancel_left hqueue
  exact absurd hindex (by decide)

end Torrent

end YTorrent
