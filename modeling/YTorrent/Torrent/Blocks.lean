import YTorrent.Torrent.Queue

/-!
# Blocks of a piece

`haveBlocks` is meant to count the slots of `blocks` that hold data, and a piece
is handed on when it reaches `totalBlocks`. The PIECE_BLOCK case increments it
for every block it stores, without a test that the slot was empty or that the
block has the length requested.

* `pieces_complete`: in a run in which every block that is stored fills an empty
  slot with the requested number of bytes, the counter counts the filled slots
  and every piece handed on is whole.
* `pieces_complete_fails`: the same block sent twice completes a piece of two
  blocks.
-/

namespace YTorrent

open World Peer

/-- The number of slots that hold data. -/
def Peer.Piece.filledSlots (e : Peer.Piece) : ℕ := e.blocks.countP (·.data.isSome)

/-- All slots of the piece are filled, each with the size requested for it, and
    the buffer has the size of the piece. -/
structure Peer.Piece.Whole (size : ℕ → ℕ) (e : Peer.Piece) (data : List Byte) : Prop where
  filled : ∀ b ∈ e.blocks, b.data.isSome = true
  sizes : e.blocks.map (·.size) = (blockPairs (size e.index)).map (·.2)
  length : data.length = size e.index

/-- Every counter of a queue counts the filled slots, and every piece handed to
    `handlePieceCompleted` was whole. -/
structure World.PiecesComplete (w : World) : Prop where
  counted : ∀ p, ∀ e ∈ (w.peers p).pieceQueue, e.haveBlocks = e.filledSlots
  whole : ∀ p e data r, .pieceCompleted p e data r ∈ w.trace → e.Whole w.torrent.pieceSize data

/-- The block goes to an empty slot of a piece below 4 GiB and has the length
    requested for that slot. -/
def BlockFits (w : World) (piece : Peer.Piece) (payload : List Byte) : Prop :=
  (∀ b ∈ piece.blocks[slotOf payload]?, b.data = none) ∧
    (blockData payload).length = blockLength (w.torrent.pieceSize piece.index) (slotOf payload) ∧
    w.torrent.pieceSize piece.index < 2 ^ 32

/-- A block that the step stores fits. -/
def FitsSlot (w : World) : Label → Prop
  | .frame p messageID payload env => ∀ it piece,
      Stores w p env messageID payload it piece → BlockFits w piece payload
  | _ => True

instance (w : World) (piece : Peer.Piece) (payload : List Byte) :
    Decidable (BlockFits w piece payload) := by
  unfold BlockFits; infer_instance

instance (w : World) : ∀ l, Decidable (FitsSlot w l)
  | .frame p messageID payload env =>
    -- `find_if` finds at most one entry
    decidable_of_iff (∀ found ∈ findPiece (w.peers p).pieceQueue (blockFields payload).1,
        Stores w p env messageID payload found.1 found.2 → BlockFits w found.2 payload)
      ⟨fun h it piece hst => h (it, piece) hst.accepts.found hst,
        fun h found _ hst => h found.1 found.2 hst⟩
  | .socketError _ | .endpointLost _ | .dial _ | .connected _ | .accepted _ | .handshake _ _
  | .disconnectPeers => isTrue trivial

/-! ## One entry -/

/-- The counter of the entry counts its filled slots, and each of them holds
    as many bytes as were requested. -/
structure Counted (size : ℕ → ℕ) (e : Peer.Piece) : Prop where
  total : e.totalBlocks = numBlocks (u32 (size e.index))
  counted : e.haveBlocks = e.filledSlots
  sizes : ∀ (k : ℕ) b d, e.blocks[k]? = some b → b.data = some d →
    b.size = blockLength (size e.index) k ∧ d.length = b.size

variable {size : ℕ → ℕ} {e : Peer.Piece} {payload : List Byte}

theorem counted_fresh (t : Torrent) (i : ℕ) : Counted t.pieceSize (freshPiece t i) where
  total := rfl
  counted := by simp [freshPiece, Piece.new, Piece.filledSlots, List.countP_replicate]
  sizes k b d hb hd := by
    simp only [freshPiece, Piece.new, List.getElem?_replicate] at hb
    split at hb
    · cases hb
      cases hd
    · cases hb

/-- Filling an empty slot keeps the count. -/
theorem Counted.put (h : Counted size e) (hslot : slotOf payload < e.totalBlocks)
    (hempty : ∀ b ∈ e.blocks[slotOf payload]?, b.data = none)
    (hlen : (blockData payload).length = blockLength (size e.index) (slotOf payload)) :
    Counted size (e.put payload) where
  total := h.total
  counted := by
    have hlt : slotOf payload < e.blocks.length := by rw [e.length_blocks]; exact hslot
    have hnone := hempty _ (List.getElem?_eq_getElem hlt)
    show e.haveBlocks + 1 = (e.blocks.set _ _).countP _
    rw [List.countP_set hlt, hnone, h.counted]
    simp [Piece.filledSlots]
  sizes k b d hb hd := by
    simp only [Piece.put, Piece.store, List.getElem?_set] at hb
    by_cases hk : slotOf payload = k
    · rw [if_pos hk] at hb
      split at hb
      · cases hb
        cases hd
        subst hk
        exact ⟨hlen, rfl⟩
      · cases hb
    · rw [if_neg hk] at hb
      exact h.sizes k b d hb hd

/-- When the counter has reached the number of slots, every slot is filled. -/
theorem Counted.filled (h : Counted size e) (hlast : e.haveBlocks = e.totalBlocks) :
    ∀ b ∈ e.blocks, b.data.isSome = true := by
  rw [← List.countP_eq_length, ← Piece.filledSlots, ← h.counted, hlast, e.length_blocks]

theorem Counted.length_blocks (h : Counted size e) (hsize : size e.index < 2 ^ 32) :
    e.blocks.length = numBlocks (size e.index) := by
  rw [e.length_blocks, h.total, u32_of_lt hsize]

/-- Then the piece is whole. -/
theorem Counted.whole (h : Counted size e) (hlast : e.haveBlocks = e.totalBlocks)
    (hpos : 0 < e.totalBlocks) (hsize : size e.index < 2 ^ 32) : e.Whole size e.pieceData := by
  have hfilled := h.filled hlast
  have hlen := h.length_blocks hsize
  have hsize0 : 0 < size e.index := by
    rw [h.total, u32_of_lt hsize] at hpos
    unfold numBlocks maxBlockRequestSize at hpos
    omega
  have hblock : ∀ k b, e.blocks[k]? = some b →
      b.size = blockLength (size e.index) k ∧ b.bytes.length = b.size := by
    intro k b hb
    obtain ⟨d, hd⟩ := Option.isSome_iff_exists.mp (hfilled b (List.mem_of_getElem? hb))
    obtain ⟨h1, h2⟩ := h.sizes k b d hb hd
    refine ⟨h1, ?_⟩
    simp [Block.bytes, hd, h2]
  have hsizes : e.blocks.map (·.size) =
      (List.range (numBlocks (size e.index))).map (blockLength (size e.index)) := by
    apply List.ext_getElem?
    intro k
    rw [List.getElem?_map, List.getElem?_map]
    by_cases hk : k < e.blocks.length
    · have hb := List.getElem?_eq_getElem hk
      rw [hb, List.getElem?_eq_getElem (by simpa [hlen] using hk)]
      simp [(hblock k _ hb).1]
    · rw [List.getElem?_eq_none (by omega), List.getElem?_eq_none (by simp; omega)]
      rfl
  refine ⟨hfilled, ?_, ?_⟩
  · rw [hsizes, blockPairs_eq hsize0, List.map_map]
    rfl
  · have hbytes : e.blocks.map (List.length ∘ Block.bytes) = e.blocks.map (·.size) := by
      apply List.map_congr_left
      intro b hb
      obtain ⟨k, hk⟩ := List.mem_iff_getElem?.mp hb
      exact (hblock k b hk).2
    rw [Piece.pieceData, List.length_flatMap]
    show (e.blocks.map (List.length ∘ Block.bytes)).sum = _
    rw [hbytes, hsizes, sum_blocks]

/-! ## Runs -/

/-- The invariant: every queue entry is counted, and what was handed on was whole. -/
structure BlocksCounted (w : World) : Prop where
  queue : ∀ p, ∀ e ∈ (w.peers p).pieceQueue, Counted w.torrent.pieceSize e
  whole : ∀ p e data r, .pieceCompleted p e data r ∈ w.trace → e.Whole w.torrent.pieceSize data

theorem blocksCounted_start (f : ParsedFile) : BlocksCounted f.start where
  queue p e he := by cases he
  whole p e data r h := by cases h

variable {sha1 : List Byte → List ℕ} {w w' : World} {l : Label}

/-- A block that fits is counted. -/
theorem BlocksCounted.put (h : BlocksCounted w) {p : PeerId} {messageID : Byte} {env : Env} {it : ℕ}
    {piece : Peer.Piece} (hfit : FitsSlot w (.frame p messageID payload env))
    (hst : Stores w p env messageID payload it piece) :
    Counted w.torrent.pieceSize (piece.put payload) := by
  obtain ⟨hempty, hlen, -⟩ := hfit it piece hst
  exact (h.queue p piece hst.accepts.mem).put hst.accepts.slot_lt hempty hlen

theorem BlocksCounted.step (hfit : FitsSlot w l) (hs : step sha1 w l = some w')
    (h : BlocksCounted w) : BlocksCounted w' := by
  have hsize := step_pieceSize hs
  constructor
  · intro p e he
    rw [hsize]
    rcases step_queue hs he with hk | ⟨i, -, rfl⟩ | ⟨m, payload, env, it, piece, rfl, hst, rfl⟩
    · exact h.queue p e hk
    · exact counted_fresh w.torrent i
    · exact h.put hfit hst
  · intro p e data r hv
    rw [hsize]
    rcases step_completed hs hv with hk | ⟨m, payload, env, it, piece, rfl, hc, rfl, rfl⟩
    · exact h.whole p e data r hk
    · obtain ⟨-, -, hlt⟩ := hfit it piece hc.toStores
      exact (h.put hfit hc.toStores).whole hc.last
        (Nat.lt_of_le_of_lt (Nat.zero_le _) hc.accepts.slot_lt) hlt

/-- In a run in which every block stored fits its slot, every counter counts the
    filled slots and only whole pieces are handed on. -/
theorem pieces_complete {f : ParsedFile} {ls : List Label}
    (hfit : Runs.Guarded (step sha1) FitsSlot f.start ls)
    (h : Runs.exec (step sha1) f.start ls = some w) : w.PiecesComplete := by
  have hw : BlocksCounted w :=
    hfit.invariant (fun _ _ _ hg hs => BlocksCounted.step hg hs) h (blocksCounted_start f)
  exact ⟨fun p e he => (hw.queue p e he).counted, hw.whole⟩

/-! ## A piece of two blocks -/

/-- The words of the SHA-1 digest of 16385 bytes `a`. -/
def digestOfAs : List ℕ := [0x521b8361, 0x24c4df19, 0x73c7be36, 0x6d60dc72, 0x30b403b7]

def sha1OfAs (data : List Byte) : List ℕ :=
  if data = List.replicate 16385 97 then digestOfAs else [0, 0, 0, 0, 0]

/-- A file of one piece with two blocks, of 16384 bytes and of one byte. -/
def twoBlockFile : ParsedFile :=
  { oneByteFile with hashes := [digestOfAs.flatMap writeAsBE32], totalSize := 16385 }

/-- The block at offset 16384. -/
def secondBlock : Label := .frame 0 7 [0, 0, 0, 0, 0, 0, 64, 0, 97] {}

/-- The payload of the frame with the block at offset 0. -/
def firstBlock : List Byte := [0, 0, 0, 0, 0, 0, 0, 0] ++ List.replicate 16384 97

theorem length_firstBlock : (blockData firstBlock).length = 16384 := by
  rw [blockData, firstBlock, List.length_drop, List.length_append, List.length_replicate]
  rfl

/-- The peer announces the piece and stops choking us. -/
def askedRun : List Label :=
  [.accepted (some 1), .handshake 0 zeroHandshake, .frame 0 5 [128] {}, .frame 0 1 [] {}]

theorem twoBlockRun_isSome :
    (Runs.exec (step sha1OfAs) twoBlockFile.start (askedRun ++ [secondBlock])).isSome = true := by
  decide +kernel

/-- The client that has the second block and waits for the first. -/
def halfDone : World :=
  (Runs.exec (step sha1OfAs) twoBlockFile.start (askedRun ++ [secondBlock])).get twoBlockRun_isSome

theorem halfDone_exec :
    Runs.exec (step sha1OfAs) twoBlockFile.start (askedRun ++ [secondBlock]) = some halfDone := by
  rw [halfDone, Option.some_get]

/-- The first block is handled. -/
theorem halfDone_step : step sha1OfAs halfDone (.frame 0 7 firstBlock {}) =
    some (handleMessage sha1OfAs (takeRead halfDone 0) 0 {} 7 firstBlock) := by
  have hready : halfDone.running = true ∧ halfDone.Ready 0 := by decide +kernel
  simp only [step, hready.1, Bool.not_true, Bool.false_eq_true, if_false, if_pos hready.2]

/-- Both blocks fit their slots, the second of the piece before the first. -/
theorem pieces_complete_twoBlocks : ∃ w, Runs.exec (step sha1OfAs) twoBlockFile.start
    (askedRun ++ [secondBlock] ++ [.frame 0 7 firstBlock {}]) = some w ∧ w.PiecesComplete := by
  have hrun := Runs.exec_snoc.mpr ⟨halfDone, halfDone_exec, halfDone_step⟩
  have hbefore : Runs.Guarded (step sha1OfAs) FitsSlot twoBlockFile.start
      (askedRun ++ [secondBlock]) := by
    decide +kernel
  have hslots : ∀ e ∈ (halfDone.peers 0).pieceQueue, e.index = 0 ∧
      (∀ b ∈ e.blocks[0]?, b.data = none) := by
    decide +kernel
  have hsize : halfDone.torrent.pieceSize 0 = 16385 := by decide +kernel
  have hfirst : FitsSlot halfDone (.frame 0 7 firstBlock {}) := by
    intro it piece hst
    obtain ⟨hindex, hempty⟩ := hslots piece hst.accepts.mem
    have hslot : slotOf firstBlock = 0 := by
      rw [slotOf, blockFields, firstBlock]
      rfl
    rw [BlockFits, hslot, length_firstBlock, hindex, hsize]
    exact ⟨hempty, rfl, by decide⟩
  refine ⟨_, hrun, pieces_complete (Runs.guarded_append.mpr ⟨hbefore, fun t ht => ?_⟩) hrun⟩
  obtain rfl := Option.some.inj (halfDone_exec.symm.trans ht)
  exact ⟨hfirst, fun _ _ => trivial⟩

/-! ## A block sent twice -/

/-- The peer sends one byte for block 0, twice. -/
def twiceRun : List Label :=
  [.accepted (some 1), .handshake 0 zeroHandshake, .frame 0 5 [128] {}, .frame 0 1 [] {},
    .frame 0 7 [0, 0, 0, 0, 0, 0, 0, 0, 98] {}, .frame 0 7 [0, 0, 0, 0, 0, 0, 0, 0, 98] {}]

/-- A buffer of another size than the piece was handed on. -/
def Event.isShort (t : Torrent) : Event → Bool
  | .pieceCompleted _ e data _ => data.length != t.pieceSize e.index
  | _ => false

/-- Not every run hands on whole pieces only: the second copy of the block
    completes the piece, with one byte of 16385. -/
theorem pieces_complete_fails : ¬ ∀ (sha1 : List Byte → List ℕ) (f : ParsedFile) (w : World),
    Reachable sha1 f w → w.PiecesComplete := by
  intro h
  have hsome : (Runs.exec (step sha1OfA) twoBlockFile.start twiceRun).isSome = true := by
    decide +kernel
  obtain ⟨w, hw⟩ := Option.isSome_iff_exists.mp hsome
  have hshort : (w.trace.any (Event.isShort w.torrent)) = true := by
    have hall : ((Runs.exec (step sha1OfA) twoBlockFile.start twiceRun).all fun w =>
        w.trace.any (Event.isShort w.torrent)) = true := by
      decide +kernel
    simpa [hw] using hall
  obtain ⟨v, hv, hs⟩ := List.any_eq_true.mp hshort
  have hwhole := (h sha1OfA twoBlockFile w ⟨twiceRun, hw⟩).whole
  cases v with
  | pieceCompleted p e data r =>
    have hlen := (hwhole p e data r hv).length
    simp [Event.isShort, hlen] at hs
  | sent | error | fault => cases hs

end YTorrent
