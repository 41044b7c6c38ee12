import Mathlib.Data.Nat.Bits
import YTorrent.Common.Slice
import YTorrent.Torrent.Senders

/-!
# Selecting, completing and serving pieces

Models of `Torrent::checkPieceHash`, `selectPieceAndRequest`,
`getRawBitfield`, `handlePieceCompleted` and `handleBlockRequest`
(`src/torrent/torrent.cpp`). The SHA-1 of the boost library is the parameter
`sha1`, giving the five words of `get_digest`; what the operating system
answers while a handler runs is an argument of type `Env`.

* `selectPieceAndRequest_eq`: the function requests the piece `selected` names,
  after raising its priority by one, and does nothing when it names none.
* `selected_some`, `selected_none`: the piece is unfinished and announced by the
  peer; none is named only if every such piece has the largest priority.
-/

namespace YTorrent

open World

/-- What the environment decides while a handler runs. -/
structure Env where
  /-- `fseek` fails -/
  fseekFails : Bool := false
  /-- how many bytes `fwrite` can write -/
  fwriteLimit : ℕ := 2 ^ 64
  /-- how many bytes `fread` can read -/
  freadLimit : ℕ := 2 ^ 64
  /-- `fopen` fails -/
  fopenFails : Bool := false
  /-- the position of the file before `fseek`, which stays when it fails -/
  filePos : ℕ := 0
  /-- the contents of freshly allocated memory -/
  heap : List Byte := []
  /-- the byte an out-of-range read of `pieces[i].finished` finds -/
  stray : Bool := false
  deriving DecidableEq, Repr

namespace Torrent

/-! ## Hashes -/

/-- The 20 bytes compared with a piece's hash: the words of the digest written
    big-endian (torrent.cpp lines 145–154). -/
def pieceHash (sha1 : List Byte → List ℕ) (data : List Byte) : List Byte :=
  (sha1 data).flatMap writeAsBE32

/-- `Torrent::checkPieceHash` (lines 140–157). -/
def checkPieceHash (sha1 : List Byte → List ℕ) (t : Torrent) (data : List Byte) (index : ℕ) :
    Bool :=
  match t.pieces[index]? with
  | none => false
  | some piece => pieceHash sha1 data == piece.hash

/-! ## Access to `pieces` and `bitfield` -/

/-- An update of `pieces[i]`; out of range it is recorded as a fault. -/
def modifyPiece (w : World) (i : ℕ) (f : Torrent.Piece → Torrent.Piece) : World :=
  if i < w.torrent.pieces.length then
    w.setTorrent { w.torrent with pieces := w.torrent.pieces.modify i f }
  else w.log [.fault .pieces i w.torrent.pieces.length]

/-- `bitfield.set(i)`; out of range it is recorded as a fault. -/
def setBit (w : World) (i : ℕ) : World :=
  if i < w.torrent.bitfield.length then
    w.setTorrent { w.torrent with bitfield := w.torrent.bitfield.set i true }
  else w.log [.fault .bitfield i w.torrent.bitfield.length]

/-- `Torrent::pieceDone` (torrent.hpp line 69), which does not check its
    argument: out of range the value is whatever byte is found there. -/
def pieceDone (w : World) (env : Env) (pieceIndex : ℕ) : Bool × World :=
  match w.torrent.pieces[pieceIndex]? with
  | some piece => (piece.finished, w)
  | none => (env.stray, w.log [.fault .pieces pieceIndex w.torrent.pieces.length])

/-! ## `selectPieceAndRequest` -/

/-- How the loop of `selectPieceAndRequest` ends: at a piece never requested
    before, or at the end of `pieces` with the values of `priority` and `index`. -/
inductive Selection
  | fresh (i : ℕ)
  | least (priority : ℤ) (index : ℕ)
  deriving DecidableEq, Repr

/-- The loop of `selectPieceAndRequest` (lines 383–401) over the pieces from
    number `i` on. -/
def selectLoop (hasPiece : ℕ → Bool) :
    List Torrent.Piece → (i : ℕ) → (priority : ℤ) → (index : ℕ) → Selection
  | [], _, priority, index => .least priority index
  | p :: ps, i, priority, index =>
    if p.finished || !hasPiece i then selectLoop hasPiece ps (i + 1) priority index
    else if p.priority = 0 then .fresh i
    else if priority > p.priority then selectLoop hasPiece ps (i + 1) p.priority i
    else selectLoop hasPiece ps (i + 1) priority index

/-- `Torrent::selectPieceAndRequest` (lines 378–408). The increment cannot
    overflow: it is only made for a priority below `int32Max`. -/
def selectPieceAndRequest (w : World) (p : PeerId) : World :=
  match selectLoop (w.peers p).hasPiece w.torrent.pieces 0 int32Max 0 with
  | .fresh i => Peer.sendPieceRequest (modifyPiece w i ({ · with priority := 1 })) p (u32 i)
  | .least priority index =>
    if priority ≠ int32Max then
      Peer.sendPieceRequest (modifyPiece w index fun x => { x with priority := x.priority + 1 }) p
        (u32 index)
    else w

/-! ## `getRawBitfield` -/

/-- `boost::to_block_range` on a `dynamic_bitset<uint8_t>`: the 8-bit blocks,
    the lowest index in the least significant bit. -/
def toBlockRange (bits : List Bool) : List ℕ :=
  (List.range ((bits.length + 7) / 8)).map fun k =>
    Nat.ofBits fun j : Fin 8 => bits.getD (8 * k + j) false

/-- The three statements that reverse the bits of a `uint8_t` (lines 416–418). -/
def reverseBits (b : ℕ) : ℕ :=
  let b := (((b &&& 0xF0) >>> 4) ||| ((b &&& 0x0F) <<< 4)) % 256
  let b := (((b &&& 0xCC) >>> 2) ||| ((b &&& 0x33) <<< 2)) % 256
  (((b &&& 0xAA) >>> 1) ||| ((b &&& 0x55) <<< 1)) % 256

/-- `Torrent::getRawBitfield` (lines 410–423). -/
def getRawBitfield (t : Torrent) : List Byte :=
  (toBlockRange t.bitfield).map fun b => byte (reverseBits b)

/-! ## `handlePieceCompleted` -/

/-- The broadcast at the end of `handlePieceCompleted` (lines 519–522). -/
def broadcastHave (w : World) (index : ℕ) : World :=
  w.torrent.activePeers.foldl (fun w peer => Peer.sendHave w peer index) w

/-- An exception leaves the handler; nothing catches it. -/
def throwIO (w : World) (p : PeerId) (piece : Peer.Piece) (pieceData : List Byte) : World :=
  { w.log [.pieceCompleted p piece pieceData .ioFailed] with running := false }

/-- `Torrent::handlePieceCompleted` (lines 487–523) for the queue entry
    `piece` of `p`. The offset is a `size_t` product, converted to `int64_t`;
    `fseek` fails when it is negative. The bytes that `fwrite` takes are those
    that the stream reads back from then on; the stream may still buffer them. -/
def handlePieceCompleted (sha1 : List Byte → List ℕ) (w : World) (p : PeerId) (env : Env)
    (piece : Peer.Piece) (index : ℕ) (pieceData : List Byte) : World :=
  if !checkPieceHash sha1 w.torrent pieceData index then
    (w.setTorrent { w.torrent with
      pieceHashMisses := w.torrent.pieceHashMisses + 1
      wastedBytes := w.torrent.wastedBytes + pieceData.length }).log
      [.pieceCompleted p piece pieceData .mismatch]
  else
    let size := pieceData.length
    let beginPos := u64 (index * w.torrent.pieceLength)
    if beginPos ≥ 2 ^ 63 || env.fseekFails then throwIO w p piece pieceData
    else
      let wrote := min size env.fwriteLimit
      let w := w.setTorrent { w.torrent with
        file := Slice.overwrite 0 w.torrent.file beginPos (pieceData.take wrote) }
      if wrote ≠ size then throwIO w p piece pieceData
      else
        let w := setBit w index
        let w := modifyPiece w index ({ · with finished := true })
        let w := w.setTorrent { w.torrent with
          downloadedBytes := w.torrent.downloadedBytes + size
          completedPieces := w.torrent.completedPieces + 1 }
        broadcastHave (w.log [.pieceCompleted p piece pieceData .stored]) index

/-! ## `handleBlockRequest` -/

/-- What `fseek` to `pos` and `fread` of `length` bytes read from the file. -/
def readFile (t : Torrent) (env : Env) (pos length : ℕ) : List Byte :=
  let pos := if pos ≥ 2 ^ 63 || env.fseekFails then env.filePos else pos
  Slice.slice t.file pos (min length env.freadLimit)

/-- `Torrent::handleBlockRequest` (lines 525–564). `begin + length` is a
    `uint32_t` sum; the result of `fseek` is not tested; the bytes of `block`
    that `fread` does not fill stay as allocated. -/
def handleBlockRequest (w : World) (p : PeerId) (env : Env) (pIndex begin length : ℕ) : World :=
  if pIndex ≥ w.torrent.pieces.length then Peer.disconnect w p
  else
    let blockEnd := u32 (begin + length)
    if blockEnd > w.torrent.pieceSize pIndex then Peer.disconnect w p
    else
      let blockBegin := u64 (begin + pIndex * w.torrent.pieceLength)
      if !w.torrent.fp && env.fopenFails then w
      else
        let w := w.setTorrent { w.torrent with fp := true }
        let read := readFile w.torrent env blockBegin length
        if read.length ≤ 0 then w
        else
          let block := (read ++ env.heap ++ List.replicate length 0).take length
          let w := Peer.sendPieceBlock w p pIndex begin block
          w.setTorrent { w.torrent with uploadedBytes := w.torrent.uploadedBytes + length }

/-! ## The piece selected -/

/-- The piece `selectPieceAndRequest` requests from the peer `x`. -/
def selected (t : Torrent) (x : Peer) : Option ℕ :=
  match selectLoop x.hasPiece t.pieces 0 int32Max 0 with
  | .fresh i => some i
  | .least priority index => if priority ≠ int32Max then some index else none

/-- The torrent with the priority of piece `i` raised by one. -/
def raisePriority (t : Torrent) (i : ℕ) : Torrent :=
  { t with pieces := t.pieces.modify i fun x => { x with priority := x.priority + 1 } }

/-- A piece number `k` of `ps` that the loop, at piece `i` of the torrent,
    takes into account. -/
def Eligible (hasPiece : ℕ → Bool) (ps : List Torrent.Piece) (i k : ℕ) (piece : Torrent.Piece) :
    Prop :=
  ps[k]? = some piece ∧ piece.finished = false ∧ hasPiece (i + k) = true

theorem Eligible.cons {hasPiece : ℕ → Bool} {ps : List Torrent.Piece} {i k : ℕ}
    {p piece : Torrent.Piece} (h : Eligible hasPiece ps (i + 1) k piece) :
    Eligible hasPiece (p :: ps) i (k + 1) piece :=
  ⟨h.1, h.2.1, by rw [← h.2.2]; congr 1; omega⟩

/-- An eligible piece of `p :: ps` is `p` itself or an eligible piece of `ps`. -/
theorem Eligible.split {hasPiece : ℕ → Bool} {ps : List Torrent.Piece} {i k : ℕ}
    {p piece : Torrent.Piece} (h : Eligible hasPiece (p :: ps) i k piece) :
    (k = 0 ∧ piece = p ∧ p.finished = false ∧ hasPiece i = true) ∨
      ∃ k', k = k' + 1 ∧ Eligible hasPiece ps (i + 1) k' piece := by
  obtain ⟨h1, h2, h3⟩ := h
  cases k with
  | zero =>
    have hp : p = piece := by simpa using h1
    subst hp
    exact .inl ⟨rfl, rfl, h2, h3⟩
  | succ k => exact .inr ⟨k, rfl, h1, h2, by rw [← h3]; congr 1; omega⟩

/-- When the loop returns early, it does so at the first eligible piece of priority 0. -/
theorem selectLoop_fresh {hasPiece : ℕ → Bool} {m : ℕ} : ∀ {ps : List Torrent.Piece} {i : ℕ} {pr : ℤ}
    {j : ℕ}, selectLoop hasPiece ps i pr j = .fresh m →
      ∃ k piece, m = i + k ∧ Eligible hasPiece ps i k piece ∧ piece.priority = 0 ∧
        ∀ k' piece', Eligible hasPiece ps i k' piece' → piece'.priority = 0 → k ≤ k' := by
  intro ps
  induction ps with
  | nil => intro i pr j h; cases h
  | cons p ps ih =>
    intro i pr j h
    -- `p` is passed over: it is not eligible or its priority is not 0
    have hrest : ∀ {pr' j'}, (p.finished = false → hasPiece i = true → p.priority ≠ 0) →
        selectLoop hasPiece ps (i + 1) pr' j' = .fresh m →
        ∃ k piece, m = i + k ∧ Eligible hasPiece (p :: ps) i k piece ∧ piece.priority = 0 ∧
          ∀ k' piece', Eligible hasPiece (p :: ps) i k' piece' → piece'.priority = 0 → k ≤ k' := by
      intro pr' j' hp h'
      obtain ⟨k, piece, hm, he, h0, hfirst⟩ := ih h'
      refine ⟨k + 1, piece, by omega, he.cons, h0, fun k' piece' he' h0' => ?_⟩
      rcases he'.split with ⟨-, rfl, hf, hh⟩ | ⟨k'', rfl, he''⟩
      · exact absurd h0' (hp hf hh)
      · have := hfirst k'' piece' he'' h0'
        omega
    rw [selectLoop] at h
    split_ifs at h with hskip hzero hless
    · exact hrest (fun hf hh => by simp [hf, hh] at hskip) h
    · obtain rfl : i = m := by simpa using h
      exact ⟨0, p, rfl, ⟨rfl, by simpa using hskip⟩, hzero, fun k' _ _ _ => Nat.zero_le k'⟩
    · exact hrest (fun _ _ => hzero) h
    · exact hrest (fun _ _ => hzero) h

/-- At the end of the loop no eligible piece has priority 0, `priority` is the least
    priority of the eligible pieces and of its initial value, and `index` the first piece
    that has it. -/
theorem selectLoop_least {hasPiece : ℕ → Bool} {pr' : ℤ} {j' : ℕ} :
    ∀ {ps : List Torrent.Piece} {i : ℕ} {pr : ℤ} {j : ℕ},
      selectLoop hasPiece ps i pr j = .least pr' j' →
      pr' ≤ pr ∧ (∀ k piece, Eligible hasPiece ps i k piece → pr' ≤ piece.priority) ∧
        ((pr' = pr ∧ j' = j) ∨
          ∃ k piece, j' = i + k ∧ Eligible hasPiece ps i k piece ∧ piece.priority = pr' ∧
            pr' < pr ∧ ∀ k' piece', Eligible hasPiece ps i k' piece' → piece'.priority = pr' →
              k ≤ k') := by
  intro ps
  induction ps with
  | nil =>
    intro i pr j h
    obtain ⟨rfl, rfl⟩ : pr = pr' ∧ j = j' := by simpa [selectLoop] using h
    exact ⟨le_rfl, by simp [Eligible], .inl ⟨rfl, rfl⟩⟩
  | cons p ps ih =>
    intro i pr j h
    rw [selectLoop] at h
    split_ifs at h with hskip hzero hless
    · -- `p` is finished or not announced
      obtain ⟨hle, hmin, hor⟩ := ih h
      refine ⟨hle, fun k piece he => ?_, hor.imp_right ?_⟩
      · rcases he.split with ⟨-, -, hf, hh⟩ | ⟨k', -, he'⟩
        · simp [hf, hh] at hskip
        · exact hmin k' piece he'
      · rintro ⟨k, piece, hj, he, hpr, hlt, hfirst⟩
        refine ⟨k + 1, piece, by omega, he.cons, hpr, hlt, fun k' piece' he' hpr' => ?_⟩
        rcases he'.split with ⟨-, -, hf, hh⟩ | ⟨k'', rfl, he''⟩
        · simp [hf, hh] at hskip
        · have := hfirst k'' piece' he'' hpr'
          omega
    · -- `p` has a smaller priority than every piece before it
      obtain ⟨hle, hmin, hor⟩ := ih h
      refine ⟨by omega, fun k piece he => ?_, .inr ?_⟩
      · rcases he.split with ⟨-, rfl, -⟩ | ⟨k', -, he'⟩
        · exact hle
        · exact hmin k' piece he'
      · rcases hor with ⟨hpr, hj⟩ | ⟨k, piece, hj, he, hpr, hlt, hfirst⟩
        · exact ⟨0, p, hj, ⟨rfl, by simpa using hskip⟩, hpr.symm, by omega,
            fun k' _ _ _ => Nat.zero_le k'⟩
        · refine ⟨k + 1, piece, by omega, he.cons, hpr, by omega, fun k' piece' he' hpr' => ?_⟩
          rcases he'.split with ⟨-, rfl, -⟩ | ⟨k'', rfl, he''⟩
          · omega
          · have := hfirst k'' piece' he'' hpr'
            omega
    · -- some piece before `p` has a priority at most that of `p`
      obtain ⟨hle, hmin, hor⟩ := ih h
      refine ⟨hle, fun k piece he => ?_, hor.imp_right ?_⟩
      · rcases he.split with ⟨-, rfl, -⟩ | ⟨k', -, he'⟩
        · omega
        · exact hmin k' piece he'
      · rintro ⟨k, piece, hj, he, hpr, hlt, hfirst⟩
        refine ⟨k + 1, piece, by omega, he.cons, hpr, hlt, fun k' piece' he' hpr' => ?_⟩
        rcases he'.split with ⟨-, rfl, -⟩ | ⟨k'', rfl, he''⟩
        · omega
        · have := hfirst k'' piece' he'' hpr'
          omega

/-- The piece selected is unfinished, announced by the peer, and its priority
    is below the largest one. -/
theorem selected_some {t : Torrent} {x : Peer} {i : ℕ} (h : selected t x = some i) :
    ∃ piece, t.pieces[i]? = some piece ∧ piece.finished = false ∧ x.hasPiece i = true ∧
      piece.priority < int32Max := by
  unfold selected at h
  split at h
  · rename_i m hl
    obtain rfl : m = i := by simpa using h
    obtain ⟨k, piece, hm, ⟨h1, h2, h3⟩, h0, -⟩ := selectLoop_fresh hl
    obtain rfl : m = k := by omega
    exact ⟨piece, h1, h2, by simpa using h3, by rw [h0]; decide⟩
  · rename_i pr j hl
    split_ifs at h with hpr
    obtain rfl : j = i := by simpa using h
    obtain ⟨hle, -, hor⟩ := selectLoop_least hl
    rcases hor with ⟨hmax, -⟩ | ⟨k, piece, hj, ⟨h1, h2, h3⟩, hp, -⟩
    · exact absurd hmax hpr
    · obtain rfl : j = k := by omega
      exact ⟨piece, h1, h2, by simpa using h3, by omega⟩

/-- No piece is selected only when every unfinished piece that the peer
    announced has been requested until its priority was the largest. -/
theorem selected_none {t : Torrent} {x : Peer} (h : selected t x = none) {i : ℕ}
    {piece : Torrent.Piece} (hi : t.pieces[i]? = some piece) (hf : piece.finished = false)
    (hh : x.hasPiece i = true) : int32Max ≤ piece.priority := by
  unfold selected at h
  split at h
  · cases h
  · rename_i pr j hl
    split_ifs at h with hpr
    have hpr : pr = int32Max := by simpa using hpr
    obtain ⟨-, hmin, -⟩ := selectLoop_least hl
    rw [← hpr]
    exact hmin i piece ⟨hi, hf, by simpa using hh⟩

theorem modifyPiece_of_lt {w : World} {i : ℕ} (h : i < w.torrent.pieces.length)
    (f : Torrent.Piece → Torrent.Piece) : modifyPiece w i f =
      w.setTorrent { w.torrent with pieces := w.torrent.pieces.modify i f } :=
  if_pos h

/-- Both updates of a priority add one: the piece of the early return has priority 0. -/
theorem selectPieceAndRequest_eq (w : World) (p : PeerId) : selectPieceAndRequest w p =
    match selected w.torrent (w.peers p) with
    | none => w
    | some i => Peer.sendPieceRequest (w.setTorrent (w.torrent.raisePriority i)) p (u32 i) := by
  unfold selectPieceAndRequest selected
  cases hl : selectLoop (w.peers p).hasPiece w.torrent.pieces 0 int32Max 0 with
  | fresh i =>
    obtain ⟨k, piece, hm, ⟨h1, -, -⟩, h0, -⟩ := selectLoop_fresh hl
    obtain rfl : i = k := by omega
    have hlt : i < w.torrent.pieces.length := (List.getElem?_eq_some_iff.mp h1).1
    have hmod : w.torrent.pieces.modify i ({ · with priority := 1 }) =
        w.torrent.pieces.modify i fun x => { x with priority := x.priority + 1 } := by
      apply List.ext_getElem?
      intro k
      rw [List.getElem?_modify, List.getElem?_modify]
      by_cases hk : i = k
      · subst hk; simp [h1, h0]
      · simp [hk]
    simp only [modifyPiece_of_lt hlt, hmod, raisePriority]
  | least pr j =>
    by_cases hpr : pr = int32Max
    · simp [hpr]
    · obtain ⟨-, -, hor⟩ := selectLoop_least hl
      rcases hor with ⟨hmax, -⟩ | ⟨k, piece, hj, ⟨h1, -, -⟩, -⟩
      · exact absurd hmax hpr
      · obtain rfl : j = k := by omega
        have hlt : j < w.torrent.pieces.length := (List.getElem?_eq_some_iff.mp h1).1
        simp only [modifyPiece_of_lt hlt, raisePriority, ne_eq, hpr, not_false_eq_true, if_true]

end Torrent

end YTorrent
