import Mathlib.Data.List.Nodup
import Mathlib.Data.List.Perm.Basic
import YTorrent.Torrent.Blocks
import YTorrent.Torrent.Bookkeeping
import YTorrent.Torrent.Joining

/-!
# The blocks of a piece, requested and received

`requestPiece` and `sendCancelRequest` cut a piece into blocks by a loop,
`sendPieceRequest` counts them by a quotient, and the PIECE_BLOCK case recovers the slot
of a block from its offset.

* `layouts_agree`: the four agree on every piece below 4 GiB, and a block is stored in the
  slot it was requested for.
* `putAll_perm`: blocks for different slots can be stored in any order.
* `arrival_order`: in every run in which a peer delivers the blocks of a piece, the piece
  is handed on once, with the last block, and whole.
-/

namespace YTorrent

open World Peer

/-! ## The layout -/

/-- The pairs `(begin, length)` cut a piece of size `s`: they start at 0, follow one
    another and end at `s`, none is empty or longer than `MAX_BLOCK_REQUEST_SIZE`, and
    the `k`-th begins in slot `k`. -/
structure Cuts (s : ℕ) (pairs : List (ℕ × ℕ)) : Prop where
  first : pairs.head?.map (·.1) = some 0
  contiguous : ∀ (k : ℕ) bl bl', pairs[k]? = some bl → pairs[k + 1]? = some bl' →
    bl'.1 = bl.1 + bl.2
  last : pairs.getLast?.map (fun bl => bl.1 + bl.2) = some s
  bounded : ∀ bl ∈ pairs, 1 ≤ bl.2 ∧ bl.2 ≤ maxBlockRequestSize
  slot : ∀ (k : ℕ) bl, pairs[k]? = some bl → bl.1 / maxBlockRequestSize = k

variable {sha1 : List Byte → List ℕ} {s k : ℕ}

theorem numBlocks_pos (h : 0 < s) : 0 < numBlocks s := by
  unfold numBlocks maxBlockRequestSize
  omega

theorem length_blockPairs (h : 0 < s) : (blockPairs s).length = numBlocks s := by
  rw [blockPairs_eq h, List.length_map, List.length_range]

theorem getElem?_blockPairs (h : 0 < s) {bl : ℕ × ℕ} (hk : (blockPairs s)[k]? = some bl) :
    k < numBlocks s ∧ bl = (k * maxBlockRequestSize, blockLength s k) := by
  rw [blockPairs_eq h, List.getElem?_map, Option.map_eq_some_iff] at hk
  obtain ⟨j, hj, rfl⟩ := hk
  obtain ⟨hlt, rfl⟩ := List.getElem?_eq_some_iff.mp hj
  rw [List.length_range] at hlt
  rw [List.getElem_range]
  exact ⟨hlt, rfl⟩

/-- The loop cuts the piece. -/
theorem cuts_blockPairs (h : 0 < s) : Cuts s (blockPairs s) := by
  have hn := numBlocks_pos h
  constructor
  · rw [blockPairs_eq h, ← Nat.sub_add_cancel hn, List.range_succ_eq_map]
    simp
  · intro k bl bl' hk hk'
    obtain ⟨-, rfl⟩ := getElem?_blockPairs h hk
    obtain ⟨hlt, rfl⟩ := getElem?_blockPairs h hk'
    show (k + 1) * maxBlockRequestSize = k * maxBlockRequestSize + blockLength s k
    unfold blockLength numBlocks maxBlockRequestSize at *
    omega
  · rw [blockPairs_eq h, ← Nat.sub_add_cancel hn, List.range_succ, List.map_append]
    simp only [List.map_singleton, List.getLast?_concat, Option.map_some, Option.some.injEq]
    unfold blockLength numBlocks maxBlockRequestSize at *
    omega
  · intro bl hbl
    obtain ⟨k, hk⟩ := List.mem_iff_getElem?.mp hbl
    obtain ⟨hlt, rfl⟩ := getElem?_blockPairs h hk
    exact ⟨blockLength_pos hlt, blockLength_le s k⟩
  · intro k bl hk
    obtain ⟨-, rfl⟩ := getElem?_blockPairs h hk
    exact block_div k

/-- The fields of a block of a piece below 4 GiB are not truncated. -/
theorem u32_of_mem_blockPairs (h : 0 < s) (hs : s < 2 ^ 32) {bl : ℕ × ℕ} (hbl : bl ∈ blockPairs s) :
    u32 bl.1 = bl.1 ∧ u32 bl.2 = bl.2 := by
  obtain ⟨k, hk⟩ := List.mem_iff_getElem?.mp hbl
  obtain ⟨hlt, rfl⟩ := getElem?_blockPairs h hk
  have hend := block_end_le hlt
  exact ⟨u32_of_lt (by omega), u32_of_lt (by omega)⟩

/-- A block whose slot the entry has is not refused for its slot. -/
theorem not_tooBigBlockIndex {v : World} {q : PeerId} {env : Env} {messageID : Byte}
    {payload : List Byte} {it : ℕ} {piece : Peer.Piece}
    (hfind : findPiece (v.peers q).pieceQueue (blockFields payload).1 = some (it, piece))
    (hslot : slotOf payload < piece.totalBlocks) :
    .error q .tooBigBlockIndex ∉ v.newEvents (handleMessage sha1 v q env messageID payload) := by
  intro hmem
  cases Adds.mem_newEvents (handleMessage_effect sha1 v q env messageID payload).trace hmem with
  | error e h =>
    cases h with
    | tooBigBlockIndex hid it' piece' hfind' hle =>
      obtain ⟨-, rfl⟩ := Prod.mk.inj (Option.some.inj (hfind.symm.trans hfind'))
      exact absurd hslot (Nat.not_lt.mpr hle)

/-! ## The first entry for an index -/

section

variable {α : Type*} {f : α → Bool} {l : List α} {it : ℕ} {x y : α}

/-- Replacing an element that was not looked for by another such leaves what is found. -/
theorem find?_set_of_not (hx : l[it]? = some x) (hfx : f x = false) (hfy : f y = false) :
    (l.set it y).find? f = l.find? f := by
  induction l generalizing it with
  | nil => rfl
  | cons a l ih =>
    cases it with
    | zero =>
      obtain rfl : a = x := Option.some.inj hx
      rw [List.set_cons_zero, List.find?_cons, List.find?_cons, hfx, hfy]
    | succ it =>
      rw [List.set_cons_succ, List.find?_cons, List.find?_cons, ih hx]

/-- So does erasing it. -/
theorem find?_eraseIdx_of_not (hx : l[it]? = some x) (hfx : f x = false) :
    (l.eraseIdx it).find? f = l.find? f := by
  induction l generalizing it with
  | nil => rfl
  | cons a l ih =>
    cases it with
    | zero =>
      obtain rfl : a = x := Option.some.inj hx
      rw [List.eraseIdx_cons_zero, List.find?_cons, hfx]
    | succ it =>
      rw [List.eraseIdx_cons_succ, List.find?_cons, List.find?_cons, ih hx]

/-- Replacing the element found by one that is looked for as well. -/
theorem find?_set_of_found (hx : l.findIdx? f = some it) (hfy : f y = true) :
    (l.set it y).find? f = some y := by
  induction l generalizing it with
  | nil => cases hx
  | cons a l ih =>
    rw [List.findIdx?_cons] at hx
    split at hx
    · obtain rfl := Option.some.inj hx
      rw [List.set_cons_zero, List.find?_cons, hfy]
    · rename_i ha
      obtain ⟨k, hk, rfl⟩ := Option.map_eq_some_iff.mp hx
      rw [List.set_cons_succ, List.find?_cons, ih hk]
      simp [ha]

end

/-- The first entry for an index in the queue of a peer. -/
def Peer.first? (x : Peer) (i : ℕ) : Option Peer.Piece :=
  x.pieceQueue.find? fun piece => piece.index == i

variable {w w' v : World} {p q : PeerId} {env : Env} {messageID : Byte} {payload : List Byte}
  {i it : ℕ} {e piece : Peer.Piece} {l : Label} {ls : List Label}

theorem first?_of_findPiece (h : findPiece (w.peers p).pieceQueue i = some (it, piece)) :
    (w.peers p).first? i = some piece ∧
      ((w.peers p).pieceQueue.findIdx? fun piece => piece.index == i) = some it := by
  unfold findPiece at h
  obtain ⟨k, hk, h⟩ := Option.bind_eq_some_iff.mp h
  obtain ⟨x, hx, h⟩ := Option.map_eq_some_iff.mp h
  obtain ⟨rfl, rfl⟩ := Prod.mk.inj h
  refine ⟨?_, hk⟩
  obtain ⟨hlt, hp, hbefore⟩ := List.findIdx?_eq_some_iff_getElem.mp hk
  rw [List.getElem?_eq_getElem hlt] at hx
  obtain rfl := Option.some.inj hx
  exact List.find?_eq_some_iff_getElem.mpr ⟨hp, k, hlt, rfl, by simpa using hbefore⟩

theorem findPiece_findIdx? {queue : List Peer.Piece} {piece : Peer.Piece}
    (h : findPiece queue i = some (it, piece)) :
    (queue.findIdx? fun piece => piece.index == i) = some it := by
  obtain ⟨k, hk, h⟩ := Option.bind_eq_some_iff.mp h
  obtain ⟨piece', -, heq⟩ := Option.map_eq_some_iff.mp h
  rw [hk, (Prod.mk.inj heq).1]

theorem findPiece_of_first? (h : (w.peers p).first? i = some e) :
    ∃ it, findPiece (w.peers p).pieceQueue i = some (it, e) := by
  cases hfind : findPiece (w.peers p).pieceQueue i with
  | none =>
    have hmem := List.mem_of_find?_eq_some h
    exact absurd (by simpa using List.find?_some h) (findPiece_none hfind hmem)
  | some found =>
    obtain ⟨it, piece⟩ := found
    rw [(first?_of_findPiece hfind).1] at h
    exact ⟨it, by rw [Option.some.inj h]⟩

theorem first?_congr {x y : Peer} (h : x.pieceQueue = y.pieceQueue) : x.first? i = y.first? i := by
  rw [Peer.first?, h]
  rfl

/-- An entry behind the others is not found before them. -/
theorem first?_append {x y : Peer} {new : List Peer.Piece}
    (h : x.pieceQueue = y.pieceQueue ++ new) (he : y.first? i = some e) : x.first? i = some e := by
  rw [Peer.first?, h, List.find?_append, show y.pieceQueue.find? _ = some e from he]
  rfl

/-- A selection does not change which entry is found. -/
theorem SelectEffect.first? (h : SelectEffect w p w') (he : (w.peers p).first? i = some e) :
    (w'.peers p).first? i = some e := by
  rcases h.queue p with hq | ⟨-, k, -, hq⟩
  · rwa [first?_congr hq]
  · exact first?_append hq he

/-! ## Frames -/

/-- The block is put into the entry found. -/
theorem storeBlock_first? (hfind : findPiece (w.peers p).pieceQueue i = some (it, piece)) :
    ((storeBlock w p payload it piece).peers p).first? i = some (piece.put payload) := by
  have hindex := (findPiece_some hfind).2
  rw [Peer.first?, storeBlock_queue, if_pos rfl]
  refine find?_set_of_found (first?_of_findPiece hfind).2 ?_
  show (piece.index == i) = true
  rw [hindex]
  exact beq_self_eq_true i

/-- A block for another piece leaves the entry. -/
theorem storeBlock_first?_of_ne (hacc : Accepts w p payload it piece)
    (hne : (blockFields payload).1 ≠ i) :
    ((storeBlock w p payload it piece).peers p).first? i = (w.peers p).first? i := by
  obtain ⟨hit, hindex⟩ := findPiece_some hacc.found
  have hother : (piece.index == i) = false := by
    rw [hindex]
    simpa using hne
  rw [Peer.first?, storeBlock_queue, if_pos rfl]
  exact find?_set_of_not hit hother hother

/-- Erasing another entry leaves the entry. -/
theorem erasePiece_first? (hit : (w.peers p).pieceQueue[it]? = some piece)
    (hne : piece.index ≠ i) :
    ((erasePiece w p it).peers p).first? i = (w.peers p).first? i := by
  rw [Peer.first?, erasePiece_queue, if_pos rfl]
  exact find?_eraseIdx_of_not hit (by simpa using hne)

/-- A frame that is not a PIECE_BLOCK for piece `i` leaves the entry for it. -/
theorem FrameEffect.first? (hf : FrameEffect sha1 w p env messageID payload w')
    (hother : MessageID.ofByte messageID = some .pieceBlock → (blockFields payload).1 ≠ i)
    (he : (w.peers p).first? i = some e) : (w'.peers p).first? i = some e := by
  cases hf with
  | ignored => rwa [first?_congr (read_pieceQueue ..)]
  | refused e' h => rwa [first?_congr (handleError_pieceQueue w p p e')]
  | choke | unchoke | interested | notInterested | havePiece =>
    rw [first?_congr (read_pieceQueue ..)]
    simpa [Peer.first?, announce] using he
  | bitfield hid v hsel =>
    rw [first?_congr (read_pieceQueue ..)]
    refine hsel.first? ?_
    rw [setPeer_peers_self]
    exact he
  | request hid hsize hint hchoke hlen v hserve =>
    rw [first?_congr (read_pieceQueue ..)]
    rcases hserve with ⟨-, rfl⟩ | ⟨-, hserve⟩
    · exact he
    · rw [first?_congr (hserve.queue p)]
      exact he
  | cancelled hid it piece hacc =>
    obtain ⟨hit, hindex⟩ := findPiece_some hacc.found
    have hlog : ∀ es, ((w.log es).peers p).pieceQueue[it]? = some piece := fun _ => hit
    rw [first?_congr (read_pieceQueue ..), erasePiece_first? (hlog _) (hindex ▸ hother hid)]
    exact he
  | stored hid it piece hacc =>
    rw [first?_congr (read_pieceQueue ..), storeBlock_first?_of_ne hacc (hother hid)]
    exact he
  | ioFailed hid it piece hacc hdone hlast v hcomp =>
    rw [hcomp.peers, storeBlock_first?_of_ne hacc (hother hid)]
    exact he
  | completed hid it piece hacc hdone hlast v u hcomp hrun hsel =>
    have hit : (v.peers p).pieceQueue[it]? = some (piece.put payload) := by
      rw [hcomp.peers, storeBlock_queue, if_pos rfl, List.getElem?_set_self hacc.lt_length]
    have hindex : (piece.put payload).index ≠ i := by
      rw [show (piece.put payload).index = piece.index from rfl, hacc.index_eq]
      exact hother hid
    rw [first?_congr (read_pieceQueue ..)]
    refine hsel.first? ?_
    rw [erasePiece_first? hit hindex, hcomp.peers, storeBlock_first?_of_ne hacc (hother hid)]
    exact he

/-- What an accepted block for an unfinished piece does. -/
theorem FrameEffect.of_accepts (hf : FrameEffect sha1 w p env messageID payload w')
    (hid : MessageID.ofByte messageID = some .pieceBlock) (hacc : Accepts w p payload it piece)
    (hopen : w.torrent.doneValue env (blockFields payload).1 = false) :
    (piece.haveBlocks + 1 ≠ piece.totalBlocks ∧
        w' = Connection.read (storeBlock w p payload it piece) p .message) ∨
      (piece.haveBlocks + 1 = piece.totalBlocks ∧
        ∃ v, CompletionEffect sha1 (storeBlock w p payload it piece) p (piece.put payload)
          (blockFields payload).1 (piece.put payload).pieceData v ∧
        (v.running = false ∧ w' = v ∨ v.running = true ∧
          ∃ u, SelectEffect (erasePiece v p it) p u ∧ w' = Connection.read u p .message)) := by
  have hsame : ∀ {it' piece'}, Accepts w p payload it' piece' → it' = it ∧ piece' = piece :=
    fun h => Prod.mk.inj (Option.some.inj (h.found.symm.trans hacc.found))
  have hno : ∀ {m}, MessageID.ofByte messageID = some m → m = .pieceBlock :=
    fun h => Option.some.inj (h.symm.trans hid)
  cases hf with
  | ignored h =>
    cases h with
    | unknown hid' => rw [hid] at hid'; cases hid'
    | havePiece hid' => cases hno hid'
    | cancel hid' => cases hno hid'
  | refused e h =>
    cases h with
    | invalidSize m hid' hsize =>
      obtain rfl := hno hid'
      exact absurd hacc.size_ge hsize
    | requestWithoutInterest hid' => cases hno hid'
    | requestWhileChoked hid' => cases hno hid'
    | requestTooBig hid' => cases hno hid'
    | tooBigBlock _ hlen => exact absurd hacc.size_le (Nat.not_le.mpr hlen)
    | notAskedFor _ hnone => rw [hacc.found] at hnone; cases hnone
    | tooBigBlockIndex _ it' piece' hfind hle =>
      obtain ⟨-, rfl⟩ := Prod.mk.inj (Option.some.inj (hfind.symm.trans hacc.found))
      exact absurd hacc.slot_lt (Nat.not_lt.mpr hle)
  | choke hid' => cases hno hid'
  | unchoke hid' => cases hno hid'
  | interested hid' => cases hno hid'
  | notInterested hid' => cases hno hid'
  | havePiece hid' => cases hno hid'
  | bitfield hid' => cases hno hid'
  | request hid' => cases hno hid'
  | cancelled _ it' piece' _ hdone => rw [hopen] at hdone; cases hdone
  | stored _ it' piece' h hdone hmore =>
    obtain ⟨rfl, rfl⟩ := hsame h
    exact .inl ⟨hmore, rfl⟩
  | ioFailed _ it' piece' h hdone hlast v hcomp hrun =>
    obtain ⟨rfl, rfl⟩ := hsame h
    exact .inr ⟨hlast, _, hcomp, .inl ⟨hrun, rfl⟩⟩
  | completed _ it' piece' h hdone hlast v u hcomp hrun hsel =>
    obtain ⟨rfl, rfl⟩ := hsame h
    exact .inr ⟨hlast, v, hcomp, .inr ⟨hrun, u, hsel, rfl⟩⟩

/-! ## Storing blocks in any order -/

/-- The slot after the block of the frame has been stored there. -/
def blockOf (payload : List Byte) : Block where
  size := (blockData payload).length
  data := some (blockData payload)

/-- The offset of the block of the frame, and its length. -/
def pairOf (payload : List Byte) : ℕ × ℕ := ((blockFields payload).2, (blockData payload).length)

/-- The entry after the blocks of the frames have been stored, in order. -/
def Peer.Piece.putAll (e : Peer.Piece) (payloads : List (List Byte)) : Peer.Piece :=
  payloads.foldl Piece.put e

variable {payloads sorted : List (List Byte)}

theorem putAll_totalBlocks (e : Peer.Piece) (payloads : List (List Byte)) :
    (e.putAll payloads).totalBlocks = e.totalBlocks := by
  induction payloads generalizing e with
  | nil => rfl
  | cons payload payloads ih => exact ih (e.put payload)

theorem putAll_haveBlocks (e : Peer.Piece) (payloads : List (List Byte)) :
    (e.putAll payloads).haveBlocks = e.haveBlocks + payloads.length := by
  induction payloads generalizing e with
  | nil => rfl
  | cons payload payloads ih =>
    show ((e.put payload).putAll payloads).haveBlocks = _
    rw [ih, List.length_cons]
    show e.haveBlocks + 1 + payloads.length = _
    omega

theorem putAll_blocks (e : Peer.Piece) (payloads : List (List Byte)) :
    (e.putAll payloads).blocks =
      payloads.foldl (fun bs payload => bs.set (slotOf payload) (blockOf payload)) e.blocks := by
  induction payloads generalizing e with
  | nil => rfl
  | cons payload payloads ih => exact ih (e.put payload)

/-- Blocks for different slots can be stored in any order. -/
theorem putAll_perm (h : payloads.Perm sorted) (hdistinct : (payloads.map slotOf).Nodup) :
    (e.putAll payloads).blocks = (e.putAll sorted).blocks := by
  rw [putAll_blocks, putAll_blocks]
  refine h.foldl_eq' (fun x hx y hy bs => ?_) e.blocks
  by_cases hslot : slotOf x = slotOf y
  · rw [List.inj_on_of_nodup_map hdistinct hx hy hslot]
  · exact List.set_comm _ _ hslot

/-- Stored slot after slot, the blocks replace the slots. -/
theorem foldl_set_slots (x : Block) : ∀ (payloads : List (List Byte)) (filled : List Block),
    payloads.map slotOf = List.range' filled.length payloads.length →
    payloads.foldl (fun bs payload => bs.set (slotOf payload) (blockOf payload))
      (filled ++ List.replicate payloads.length x) = filled ++ payloads.map blockOf := by
  intro payloads
  induction payloads with
  | nil => intro filled _; rfl
  | cons payload payloads ih =>
    intro filled hslots
    rw [List.map_cons, List.length_cons, List.range'_succ] at hslots
    obtain ⟨hslot, hrest⟩ := List.cons_eq_cons.mp hslots
    have hset : (filled ++ List.replicate (payloads.length + 1) x).set (slotOf payload)
        (blockOf payload) = (filled ++ [blockOf payload]) ++ List.replicate payloads.length x := by
      rw [hslot, List.set_append_right _ _ le_rfl, Nat.sub_self, List.replicate_succ,
        List.set_cons_zero, List.append_assoc]
      rfl
    have hfilled : (filled ++ [blockOf payload]).length = filled.length + 1 := by simp
    rw [List.length_cons, List.foldl_cons, hset, ih _ (hfilled ▸ hrest), List.append_assoc]
    rfl

/-- The slots of the blocks of a piece, in order. -/
theorem slots_of_pairs (hs : 0 < s) (hpairs : sorted.map pairOf = blockPairs s) :
    sorted.map slotOf = List.range (numBlocks s) := by
  have hslot : sorted.map slotOf = (blockPairs s).map fun bl => bl.1 / maxBlockRequestSize := by
    rw [← hpairs, List.map_map]
    rfl
  rw [hslot, blockPairs_eq hs, List.map_map]
  refine (List.map_congr_left fun k _ => ?_).trans (List.map_id _)
  exact block_div k

/-- Whatever the order in which the blocks of a piece have been stored in a new entry,
    its data are the blocks by offset. -/
theorem pieceData_putAll (hs : 0 < s) (hpairs : sorted.map pairOf = blockPairs s)
    (hperm : payloads.Perm sorted) :
    ((Piece.new i (numBlocks s)).putAll payloads).pieceData = sorted.flatMap blockData ∧
      (sorted.flatMap blockData).length = s := by
  have hslots := slots_of_pairs hs hpairs
  have hlen : sorted.length = numBlocks s := by
    rw [← List.length_map slotOf, hslots, List.length_range]
  have hdistinct : (payloads.map slotOf).Nodup := by
    rw [(hperm.map slotOf).nodup_iff, hslots]
    exact List.nodup_range
  have hblocks : ((Piece.new i (numBlocks s)).putAll sorted).blocks = sorted.map blockOf := by
    have hfold := foldl_set_slots {} sorted [] (by rw [hslots, hlen, List.range_eq_range']; rfl)
    rw [hlen] at hfold
    rw [putAll_blocks]
    exact hfold
  constructor
  · rw [Piece.pieceData, putAll_perm hperm hdistinct, hblocks, List.flatMap_map]
    refine List.flatMap_congr fun payload _ => ?_
    exact List.take_length
  · have hlens : sorted.map (fun payload => (blockData payload).length) =
        (List.range (numBlocks s)).map (blockLength s) := by
      have hsnd := congrArg (List.map Prod.snd) hpairs
      rw [List.map_map, blockPairs_eq hs, List.map_map] at hsnd
      exact hsnd
    rw [List.length_flatMap, hlens, sum_blocks]

/-! ## The blocks of a run -/

/-- The PIECE_BLOCK for piece `i` that the step handles for `p`, if any. -/
def Label.delivery? (p : PeerId) (i : ℕ) : Label → Option (List Byte)
  | .frame q messageID payload _ =>
    if q = p ∧ MessageID.ofByte messageID = some .pieceBlock ∧ (blockFields payload).1 = i then
      some payload
    else none
  | _ => none

/-- The PIECE_BLOCKs for piece `i` that a run handles for `p`, in order. -/
def deliveries (p : PeerId) (i : ℕ) (ls : List Label) : List (List Byte) :=
  ls.filterMap (Label.delivery? p i)

/-- The entry is a call of `handlePieceCompleted` for an entry of `p` for piece `i`. -/
def Event.isCompletion (p : PeerId) (i : ℕ) : Event → Bool
  | .pieceCompleted q piece _ _ => q == p && piece.index == i
  | _ => false

/-- The calls of `handlePieceCompleted` for entries of `p` for piece `i` so far. -/
def World.completions (w : World) (p : PeerId) (i : ℕ) : List Event :=
  w.trace.filter (Event.isCompletion p i)

theorem delivery?_eq_some : l.delivery? p i = some payload ↔ ∃ messageID env,
    l = .frame p messageID payload env ∧ MessageID.ofByte messageID = some .pieceBlock ∧
      (blockFields payload).1 = i := by
  constructor
  · intro h
    cases l with
    | frame q messageID payload' env =>
      rw [Label.delivery?] at h
      split at h
      · rename_i hid
        obtain rfl := Option.some.inj h
        exact ⟨messageID, env, by rw [hid.1], hid.2⟩
      · cases h
    | socketError | endpointLost | dial | connected | accepted | handshake | disconnectPeers =>
      cases h
  · rintro ⟨messageID, env, rfl, hid⟩
    exact if_pos ⟨rfl, hid⟩

theorem completions_of_adds {P : Event → Prop} (h : w.Adds w' P)
    (hP : ∀ ev, P ev → ev.isCompletion p i = false) : w'.completions p i = w.completions p i := by
  obtain ⟨es, hes, hp⟩ := h
  have hnone : es.filter (Event.isCompletion p i) = [] :=
    List.filter_eq_nil_iff.mpr fun ev hev => by simp [hP ev (hp ev hev)]
  rw [World.completions, hes, List.filter_append, hnone, List.append_nil]
  rfl

/-- Only a block for piece `i` from `p` completes an entry of `p` for piece `i`. -/
theorem completions_of_other (hs : step sha1 w l = some w') (hl : l.delivery? p i = none) :
    w'.completions p i = w.completions p i := by
  refine completions_of_adds (step_trace hs) fun ev hev => ?_
  rcases hev with hjoin | ⟨q, messageID, payload, env, rfl, hev⟩
  · cases ev with
    | pieceCompleted => exact hjoin.elim
    | sent | error | fault => rfl
  · cases hev with
    | completed it piece r hc =>
      have hno : ¬ (q = p ∧ piece.index = i) := by
        rintro ⟨rfl, hindex⟩
        have hsome : Label.delivery? q i (.frame q messageID payload env) = some payload :=
          delivery?_eq_some.mpr ⟨messageID, env, rfl, hc.id, hc.accepts.index_eq ▸ hindex⟩
        rw [hl] at hsome
        cases hsome
      show (q == p && piece.index == i) = false
      simpa using hno
    | reply | announce | error | requestFault | blockFault | bitFault => rfl

/-- A step that handles no block for piece `i` from `p` leaves the entry for it. -/
theorem first?_of_other (hn : Newcomers w) (hs : step sha1 w l = some w')
    (hl : l.delivery? p i = none) (he : (w.peers p).first? i = some e) :
    (w'.peers p).first? i = some e := by
  rcases step_cases hs with ⟨q, messageID, payload, env, rfl, -, hf⟩ | hout
  · have htake : ((takeRead w q).peers p).first? i = some e :=
      (first?_congr (setConn_pieceQueue w q p _)).trans he
    by_cases hq : p = q
    · subst hq
      refine hf.first? (fun hid hindex => ?_) htake
      rw [delivery?_eq_some.mpr ⟨messageID, env, rfl, hid, hindex⟩] at hl
      cases hl
    · rw [hf.peers_of_ne hq]
      exact htake
  · rw [first?_congr (queue_of_outside hn hout p)]
    exact he

/-- A block of the layout is accepted by the entry found for its piece. -/
theorem accepts_of_first? (hs : 0 < s) (he : (w.peers p).first? (blockFields payload).1 = some e)
    (htotal : e.totalBlocks = numBlocks s) (hpair : pairOf payload ∈ blockPairs s) :
    ∃ it, Accepts (takeRead w p) p payload it e := by
  obtain ⟨it, hfind⟩ := findPiece_of_first? he
  obtain ⟨k, hk, hbegin, hlen⟩ := (mem_blockPairs hs).mp hpair
  have hpos := blockLength_pos hk
  have hle := blockLength_le s k
  have hdrop : (blockData payload).length = payload.length - 8 := List.length_drop
  refine ⟨it, accepts_takeRead.mpr ⟨by omega, by omega, hfind, ?_⟩⟩
  rw [slotOf, hbegin, block_div, htotal]
  exact hk

/-- A block that does not complete its piece is stored. -/
theorem step_more (hs : step sha1 w l = some w') (hl : l.delivery? p i = some payload)
    (hi : i < w.torrent.pieces.length) (hopen : w.torrent.isFinished i = false)
    (hacc : Accepts (takeRead w p) p payload it e) (hmore : e.haveBlocks + 1 ≠ e.totalBlocks) :
    (w'.peers p).first? i = some (e.put payload) ∧ w'.completions p i = w.completions p i := by
  obtain ⟨messageID, env, rfl, hid, rfl⟩ := delivery?_eq_some.mp hl
  obtain ⟨-, -, hf⟩ := step_frame hs
  have hdone : (takeRead w p).torrent.doneValue env (blockFields payload).1 = false := by
    rw [← hopen]
    exact doneValue_of_lt hi env
  rcases hf.of_accepts hid hacc hdone with ⟨-, rfl⟩ | ⟨hlast, -⟩
  · constructor
    · rw [first?_congr (read_pieceQueue ..)]
      exact storeBlock_first? hacc.found
    · rw [World.completions, read_trace]
      show (w.trace ++ doneFault w.torrent _).filter _ = _
      rw [doneFault_of_lt hi, List.append_nil]
      rfl
  · exact absurd hlast hmore

/-- The entry at position `it` has left the queue and the others stay; behind them stands
    at most one entry, that of the piece selected next. -/
def Erased (t : Torrent) (queue : List Peer.Piece) (it : ℕ) (queue' : List Peer.Piece) : Prop :=
  queue' = queue.eraseIdx it ∨ ∃ k, queue' = queue.eraseIdx it ++ [freshPiece t k]

/-- A completion is one call of `handlePieceCompleted`, which throws when the write fails. -/
theorem CompletionEffect.completions {data : List Byte}
    (h : CompletionEffect sha1 w p piece i data v) (hrun : w.running = true) :
    ∃ r, v.completions p piece.index =
        w.completions p piece.index ++ [.pieceCompleted p piece data r] ∧
      (v.running = true ↔ r ≠ .ioFailed) := by
  have hself : ∀ r, [Event.pieceCompleted p piece data r].filter
      (Event.isCompletion p piece.index) = [.pieceCompleted p piece data r] := by
    intro r
    simp [Event.isCompletion]
  cases h with
  | mismatch =>
    refine ⟨.mismatch, ?_, by simp [hrun]⟩
    rw [World.completions, log_trace, List.filter_append, hself]
    rfl
  | ioFailed =>
    refine ⟨.ioFailed, ?_, by simp⟩
    show (w.trace ++ _).filter _ = _
    rw [List.filter_append, hself]
    rfl
  | stored =>
    refine ⟨.stored, ?_, by simp [hrun]⟩
    have hbit : (bitFault w.torrent i).filter (Event.isCompletion p piece.index) = [] := by
      refine List.filter_eq_nil_iff.mpr fun ev hev => ?_
      obtain ⟨-, rfl⟩ := mem_bitFault hev
      exact Bool.false_ne_true
    have hhave : (haveEvents w i).filter (Event.isCompletion p piece.index) = [] := by
      refine List.filter_eq_nil_iff.mpr fun ev hev => ?_
      obtain ⟨q, -, -, -, rfl⟩ := mem_haveEvents.mp hev
      exact Bool.false_ne_true
    rw [World.completions, log_trace, List.filter_append, List.filter_append, hbit,
      List.nil_append, ← List.singleton_append, List.filter_append, hself, hhave, List.append_nil]
    rfl

/-- A selection completes nothing. -/
theorem SelectEffect.completions (h : SelectEffect w p w') :
    w'.completions q i = w.completions q i := by
  cases h with
  | none => rfl
  | requested k =>
    have hsent : (sentEvents (w.peers p).conn p
        (pieceRequestMessages (w.peers p) w.torrent (u32 k))).filter (Event.isCompletion q i) =
          [] := by
      refine List.filter_eq_nil_iff.mpr fun ev hev => ?_
      obtain ⟨-, m, -, rfl⟩ := mem_sentEvents.mp hev
      exact Bool.false_ne_true
    rw [World.completions, log_trace, List.filter_append, hsent, List.append_nil]
    rfl

theorem storeBlock_completions :
    (storeBlock w p payload it e).completions p i = w.completions p i := by
  have hfault : (doneFault w.torrent (blockFields payload).1).filter (Event.isCompletion p i) =
      [] := by
    refine List.filter_eq_nil_iff.mpr fun ev hev => ?_
    rw [(mem_doneFault hev).2]
    exact Bool.false_ne_true
  show (w.trace ++ doneFault w.torrent _).filter _ = _
  rw [List.filter_append, hfault, List.append_nil]
  rfl

/-- The block of the frame is in slot `k` of the entry found at position `it`; the entry
    stays in the queue, or it is handed on if the block was the last one. -/
structure StoredInSlot (w w' : World) (p : PeerId) (payload : List Byte) (k it : ℕ)
    (piece : Peer.Piece) : Prop where
  blocks : (piece.put payload).blocks = piece.blocks.set k
    { size := (blockData payload).length, data := some (blockData payload) }
  queued : piece.haveBlocks + 1 ≠ piece.totalBlocks →
    (w'.peers p).pieceQueue = (w.peers p).pieceQueue.set it (piece.put payload)
  handed : piece.haveBlocks + 1 = piece.totalBlocks → ∃ r, w'.completions p piece.index =
    w.completions p piece.index ++
      [.pieceCompleted p (piece.put payload) (piece.put payload).pieceData r]

/-- A block that is accepted for an unfinished piece is stored in its slot. -/
theorem handleMessage_stores {messageID : Byte} (hrun : w.running = true)
    (hid : MessageID.ofByte messageID = some .pieceBlock) (hacc : Accepts w p payload it e)
    (hdone : w.torrent.doneValue env (blockFields payload).1 = false) :
    StoredInSlot w (handleMessage sha1 w p env messageID payload) p payload (slotOf payload) it
      e := by
  have heff := handleMessage_effect sha1 w p env messageID payload
  refine ⟨rfl, fun hmore => ?_, fun hlast => ?_⟩
  · rcases heff.of_accepts hid hacc hdone with ⟨-, heq⟩ | ⟨hlast, -⟩
    · rw [heq, read_pieceQueue, storeBlock_queue, if_pos rfl]
    · exact absurd hlast hmore
  · rcases heff.of_accepts hid hacc hdone with ⟨hmore, -⟩ | ⟨-, v, hcomp, hend⟩
    · exact absurd hlast hmore
    · obtain ⟨r, hr, -⟩ := hcomp.completions hrun
      rw [show (e.put payload).index = e.index from rfl, storeBlock_completions] at hr
      refine ⟨r, ?_⟩
      rcases hend with ⟨-, heq⟩ | ⟨-, u, hsel, heq⟩
      · rw [heq, hr]
      · rw [heq, World.completions, read_trace]
        exact hsel.completions.trans hr

/-- The block that completes a piece: one call of `handlePieceCompleted`, and when the call
    returns the entry is erased. -/
theorem step_last (hs : step sha1 w l = some w') (hl : l.delivery? p i = some payload)
    (hi : i < w.torrent.pieces.length) (hopen : w.torrent.isFinished i = false)
    (hacc : Accepts (takeRead w p) p payload it e) (hlast : e.haveBlocks + 1 = e.totalBlocks) :
    ∃ r, w'.completions p i = w.completions p i ++
        [.pieceCompleted p (e.put payload) (e.put payload).pieceData r] ∧
      (r = .ioFailed → w'.running = false) ∧
      (r ≠ .ioFailed → Erased w.torrent (w.peers p).pieceQueue it (w'.peers p).pieceQueue) := by
  obtain ⟨messageID, env, rfl, hid, rfl⟩ := delivery?_eq_some.mp hl
  obtain ⟨hrun, -, hf⟩ := step_frame hs
  have hdone : (takeRead w p).torrent.doneValue env (blockFields payload).1 = false := by
    rw [← hopen]
    exact doneValue_of_lt hi env
  have hindex : (e.put payload).index = (blockFields payload).1 := hacc.index_eq
  rcases hf.of_accepts hid hacc hdone with ⟨hmore, -⟩ | ⟨-, v, hcomp, hend⟩
  · exact absurd hlast hmore
  · obtain ⟨r, hr, hiff⟩ := hcomp.completions hrun
    have hstored : (storeBlock (takeRead w p) p payload it e).completions p
        (blockFields payload).1 = w.completions p (blockFields payload).1 :=
      storeBlock_completions
    rw [hindex, hstored] at hr
    rcases hend with ⟨hstop, rfl⟩ | ⟨hgo, u, hsel, rfl⟩
    · refine ⟨r, hr, fun _ => hstop, fun hne => ?_⟩
      rw [hiff.mpr hne] at hstop
      cases hstop
    · refine ⟨r, ?_, fun hio => absurd hio (hiff.mp hgo), fun _ => ?_⟩
      · rw [World.completions, read_trace]
        exact hsel.completions.trans hr
      · have herased : ((erasePiece v p it).peers p).pieceQueue =
            (w.peers p).pieceQueue.eraseIdx it := by
          rw [erasePiece_queue, if_pos rfl, hcomp.peers, storeBlock_queue, if_pos rfl,
            List.eraseIdx_set_eq]
          simp [takeRead]
        rw [Erased, read_pieceQueue]
        rcases hsel.queue p with hq | ⟨-, k, -, hq⟩
        · exact .inl (hq.trans herased)
        · refine .inr ⟨k, ?_⟩
          have hfresh : freshPiece (erasePiece v p it).torrent k = freshPiece w.torrent k := by
            simp only [freshPiece, erasePiece, setPeer_torrent, hcomp.pieceSize.2]
            rfl
          rw [hq, herased, hfresh]

/-! ## The layouts agree -/

/-- For every piece of a size between 1 and 2 ^ 32 - 1, one list of pairs that cuts the
    piece gives the REQUESTs of `requestPiece` and the CANCELs of `sendCancelRequest`, and
    its length is the number of slots of the entry `sendPieceRequest` queues. A block with
    the offset of the `k`-th pair is not refused for its slot, and when it is accepted for an
    unfinished piece, `handleMessage` stores it in slot `k` of the entry. -/
theorem layouts_agree (sha1 : List Byte → List ℕ) (w : World) (p : PeerId) (index : ℕ)
    (hpos : 0 < w.torrent.pieceSize index) (hlt : w.torrent.pieceSize index < 2 ^ 32) :
    ∃ pairs, Cuts (w.torrent.pieceSize index) pairs ∧
      ((w.peers p).peerChoking = false → requestPiece w p index =
        w.log (sentEvents (w.peers p).conn p
          (pairs.map fun bl => .request (u32 index) bl.1 bl.2))) ∧
      (∀ piece : Peer.Piece, piece.index = index → sendCancelRequest w p piece =
        w.log (sentEvents (w.peers p).conn p
          (pairs.map fun bl => .cancel (u32 index) bl.1 bl.2))) ∧
      (∃ piece, ((sendPieceRequest w p index).peers p).pieceQueue =
          (w.peers p).pieceQueue ++ [piece] ∧
        piece.index = index ∧ piece.totalBlocks = pairs.length) ∧
      ∀ (k : ℕ) bl payload, pairs[k]? = some bl → (blockFields payload).2 = bl.1 →
        slotOf payload = k ∧
        (∀ (v : World) q env messageID it (piece : Peer.Piece),
          findPiece (v.peers q).pieceQueue (blockFields payload).1 = some (it, piece) →
          piece.totalBlocks = pairs.length → .error q .tooBigBlockIndex ∉
            v.newEvents (handleMessage sha1 v q env messageID payload)) ∧
        ∀ (v : World) q env messageID it (piece : Peer.Piece), v.running = true →
          MessageID.ofByte messageID = some .pieceBlock → Accepts v q payload it piece →
          v.torrent.doneValue env (blockFields payload).1 = false →
            StoredInSlot v (handleMessage sha1 v q env messageID payload) q payload k it
              piece := by
  have hcuts := cuts_blockPairs hpos
  refine ⟨blockPairs (w.torrent.pieceSize index), hcuts, fun hchoke => ?_, ?_, ?_, ?_⟩
  · have hmsgs : requests w.torrent index = (blockPairs (w.torrent.pieceSize index)).map
        fun bl => .request (u32 index) bl.1 bl.2 := by
      refine List.map_congr_left fun bl hbl => ?_
      obtain ⟨h1, h2⟩ := u32_of_mem_blockPairs hpos hlt hbl
      rw [h1, h2]
    rw [requestPiece_eq hchoke, hmsgs]
  · rintro piece rfl
    have hmsgs : cancels w.torrent piece.index = (blockPairs (w.torrent.pieceSize piece.index)).map
        fun bl => .cancel (u32 piece.index) bl.1 bl.2 := by
      refine List.map_congr_left fun bl hbl => ?_
      obtain ⟨h1, h2⟩ := u32_of_mem_blockPairs hpos hlt hbl
      rw [h1, h2]
    rw [sendCancelRequest_eq, hmsgs]
  · refine ⟨Piece.new index (numBlocks (u32 (w.torrent.pieceSize index))), ?_, rfl, ?_⟩
    · rw [sendPieceRequest_eq]
      simp [queuePiece]
    · rw [length_blockPairs hpos, u32_of_lt hlt]
      rfl
  · intro k bl payload hk hbegin
    have hslot : slotOf payload = k := by
      rw [slotOf, hbegin]
      exact hcuts.slot k bl hk
    refine ⟨hslot, fun v q env messageID it piece hfind htotal => ?_, ?_⟩
    · refine not_tooBigBlockIndex hfind ?_
      rw [hslot, htotal]
      exact (List.getElem?_eq_some_iff.mp hk).1
    · intro v q env messageID it piece hrun hid hacc hdone
      rw [← hslot]
      exact handleMessage_stores hrun hid hacc hdone

/-- The layout of a piece of 16385 bytes. -/
theorem layouts_agree_twoBlocks : ∃ pairs, Cuts 16385 pairs ∧ requestPiece halfDone 0 0 =
    halfDone.log (sentEvents (halfDone.peers 0).conn 0
      (pairs.map fun bl => .request (u32 0) bl.1 bl.2)) := by
  have hsize : halfDone.torrent.pieceSize 0 = 16385 := by decide +kernel
  obtain ⟨pairs, hcuts, hrequest, -⟩ := layouts_agree sha1OfAs halfDone 0 0
    (by rw [hsize]; decide) (by rw [hsize]; decide)
  exact ⟨pairs, hsize ▸ hcuts, hrequest (by decide +kernel)⟩

/-! ## Runs -/

/-- A list whose images are a permutation of `m` can be put in the order of `m`. -/
theorem exists_perm_map {α β : Type*} {f : α → β} {l : List α} {m : List β}
    (h : (l.map f).Perm m) : ∃ l' : List α, l'.Perm l ∧ l'.map f = m := by
  have hcomp : Relation.Comp (fun m l => m = List.map f l) List.Perm m l := by
    rw [List.eq_map_comp_perm]
    exact h.symm
  obtain ⟨l', rfl, hl'⟩ := hcomp
  exact ⟨l', hl', rfl⟩

theorem deliveries_cons_none (hl : l.delivery? p i = none) :
    deliveries p i (l :: ls) = deliveries p i ls :=
  List.filterMap_cons_none hl

theorem deliveries_cons_some (hl : l.delivery? p i = some payload) :
    deliveries p i (l :: ls) = payload :: deliveries p i ls :=
  List.filterMap_cons_some hl

/-- A run that handles no block for piece `i` from `p` completes no entry of `p` for it. -/
theorem completions_of_run (hrun : Runs.exec (step sha1) w ls = some w')
    (hnone : deliveries p i ls = []) : w'.completions p i = w.completions p i := by
  induction ls generalizing w with
  | nil =>
    obtain rfl := Option.some.inj hrun
    rfl
  | cons l ls ih =>
    obtain ⟨u, hs, hrun⟩ := Runs.exec_cons.mp hrun
    have hl : l.delivery? p i = none := List.filterMap_eq_nil_iff.mp hnone l List.mem_cons_self
    rw [deliveries_cons_none hl] at hnone
    rw [ih hrun hnone, completions_of_other hs hl]

/-- While blocks are missing, each that arrives is put into the entry, and
    `handlePieceCompleted` is not called for it. -/
theorem first?_of_run {f : ParsedFile} (hs : 0 < s) (hr : Reachable sha1 f w)
    (hrun : Runs.exec (step sha1) w ls = some w') (hi : i < w.torrent.pieces.length)
    (hopen : w'.torrent.isFinished i = false) (he : (w.peers p).first? i = some e)
    (htotal : e.totalBlocks = numBlocks s)
    (hcount : e.haveBlocks + (deliveries p i ls).length < numBlocks s)
    (hpairs : ∀ payload ∈ deliveries p i ls, pairOf payload ∈ blockPairs s) :
    (w'.peers p).first? i = some (e.putAll (deliveries p i ls)) ∧
      w'.completions p i = w.completions p i := by
  induction ls generalizing w e with
  | nil =>
    obtain rfl := Option.some.inj hrun
    exact ⟨he, rfl⟩
  | cons l ls ih =>
    obtain ⟨u, hstep, hrest⟩ := Runs.exec_cons.mp hrun
    have hu := hr.step hstep
    have hi' : i < u.torrent.pieces.length := by
      rw [hu.length_pieces, ← hr.length_pieces]
      exact hi
    cases hl : l.delivery? p i with
    | none =>
      rw [deliveries_cons_none hl] at hcount hpairs ⊢
      have hsame := first?_of_other hr.newcomers hstep hl he
      obtain ⟨h1, h2⟩ := ih hu hrest hi' hsame htotal hcount hpairs
      exact ⟨h1, h2.trans (completions_of_other hstep hl)⟩
    | some payload =>
      rw [deliveries_cons_some hl] at hcount hpairs ⊢
      rw [List.length_cons] at hcount
      have hfin : w.torrent.isFinished i = false := by
        refine Bool.eq_false_of_not_eq_true fun hfin => ?_
        rw [isFinished_mono ⟨l :: ls, hrun⟩ hfin] at hopen
        cases hopen
      obtain ⟨messageID, env, rfl, hid, hindex⟩ := delivery?_eq_some.mp hl
      obtain ⟨it, hacc⟩ := accepts_of_first? hs (hindex ▸ he) htotal
        (hpairs payload List.mem_cons_self)
      obtain ⟨hput, hsame⟩ := step_more hstep hl hi hfin hacc (by omega)
      have hcount' : (e.put payload).haveBlocks + (deliveries p i ls).length < numBlocks s := by
        show e.haveBlocks + 1 + _ < _
        omega
      obtain ⟨h1, h2⟩ := ih hu hrest hi' hput htotal hcount'
        fun x hx => hpairs x (List.mem_cons_of_mem _ hx)
      exact ⟨h1, h2.trans hsame⟩

/-- An entry into which no block has been put is as `sendPieceRequest` has queued it. -/
theorem Reachable.eq_new {f : ParsedFile} (h : Reachable sha1 f w)
    (he : e ∈ (w.peers p).pieceQueue) (hnone : e.haveBlocks = 0) :
    e = Piece.new e.index (numBlocks (u32 (w.torrent.pieceSize e.index))) := by
  let Untouched (w : World) : Prop := ∀ p, ∀ e ∈ (w.peers p).pieceQueue, e.haveBlocks = 0 →
    e = Piece.new e.index (numBlocks (u32 (w.torrent.pieceSize e.index)))
  have hall : Untouched w := by
    refine h.invariant (fun w l w' hs hw q x hx h0 => ?_) (fun q x hx => by cases hx)
    rw [step_pieceSize hs]
    rcases step_queue hs hx with hold | ⟨k, -, rfl⟩ | ⟨m, payload, env, it, piece, -, -, rfl⟩
    · exact hw q x hold h0
    · rfl
    · cases h0
  exact hall p e he hnone

/-- In the run `ls` from `w` to `v` and the step `last` from there, `p` delivers the blocks
    of the unfinished piece `i`, each once and with the right size, in some order; the
    queue of `p` holds one entry for the piece, without a block, and `last` delivers the
    last block. -/
structure Arrives (sha1 : List Byte → List ℕ) (f : ParsedFile) (p : PeerId) (i : ℕ)
    (e : Peer.Piece) (w : World) (ls : List Label) (v : World) (last : Label) (w' : World) :
    Prop where
  reachable : Reachable sha1 f w
  lt_length : i < w.torrent.pieces.length
  size_pos : 0 < w.torrent.pieceSize i
  size_lt : w.torrent.pieceSize i < 2 ^ 32
  once : ((w.peers p).pieceQueue.filter fun piece => piece.index == i) = [e]
  noBlock : e.haveBlocks = 0
  run : Runs.exec (step sha1) w ls = some v
  lastStep : step sha1 v last = some w'
  isDelivery : (last.delivery? p i).isSome = true
  unfinished : v.torrent.isFinished i = false
  blocks : ((deliveries p i (ls ++ [last])).map pairOf).Perm (blockPairs (w.torrent.pieceSize i))

namespace Arrives

variable {f : ParsedFile}

/-- The entry is a new one, and the one found for the piece. -/
theorem first?_eq (h : Arrives sha1 f p i e w ls v l w') :
    (w.peers p).first? i = some (Piece.new i (numBlocks (w.torrent.pieceSize i))) ∧
      e = Piece.new i (numBlocks (w.torrent.pieceSize i)) := by
  have hmem : e ∈ (w.peers p).pieceQueue.filter fun piece => piece.index == i := by
    rw [h.once]
    exact List.mem_singleton_self e
  obtain ⟨hqueue, hindex⟩ := List.mem_filter.mp hmem
  have hnew : e = Piece.new i (numBlocks (w.torrent.pieceSize i)) := by
    have heq := h.reachable.eq_new hqueue h.noBlock
    rwa [beq_iff_eq.mp hindex, u32_of_lt h.size_lt] at heq
  refine ⟨?_, hnew⟩
  rw [first?, ← List.head?_filter, h.once, ← hnew]
  rfl

theorem deliveries_eq (hl : l.delivery? p i = some payload) (ls : List Label) :
    deliveries p i (ls ++ [l]) = deliveries p i ls ++ [payload] := by
  rw [deliveries, List.filterMap_append, List.filterMap_cons_some hl, List.filterMap_nil]
  rfl

/-- One block is missing before the last step. -/
theorem length_deliveries (h : Arrives sha1 f p i e w ls v l w') :
    (deliveries p i ls).length + 1 = numBlocks (w.torrent.pieceSize i) := by
  obtain ⟨payload, hl⟩ := Option.isSome_iff_exists.mp h.isDelivery
  have hlength := h.blocks.length_eq
  rw [List.length_map, deliveries_eq hl, List.length_append,
    length_blockPairs h.size_pos] at hlength
  exact hlength

theorem pairOf_mem (h : Arrives sha1 f p i e w ls v l w') :
    ∀ x ∈ deliveries p i (ls ++ [l]), pairOf x ∈ blockPairs (w.torrent.pieceSize i) :=
  fun _ hx => h.blocks.mem_iff.mp (List.mem_map_of_mem hx)

/-- The state before the last block. -/
theorem before (h : Arrives sha1 f p i e w ls v l w') :
    (v.peers p).first? i = some
        ((Piece.new i (numBlocks (w.torrent.pieceSize i))).putAll (deliveries p i ls)) ∧
      v.completions p i = w.completions p i ∧ i < v.torrent.pieces.length := by
  have hlen := h.length_deliveries
  have hv : Reachable sha1 f v := h.reachable.trans ⟨ls, h.run⟩
  obtain ⟨hfirst, hsame⟩ := first?_of_run h.size_pos h.reachable h.run h.lt_length h.unfinished
    h.first?_eq.1 rfl (by show 0 + _ < _; omega) fun x hx => h.pairOf_mem x (by
      rw [deliveries, List.filterMap_append]
      exact List.mem_append_left _ hx)
  refine ⟨hfirst, hsame, ?_⟩
  rw [hv.length_pieces, ← h.reachable.length_pieces]
  exact h.lt_length

end Arrives

/-- Whatever the order in which the blocks of a piece arrive, `handlePieceCompleted` is
    called once for the entry, with the last block, and `pieceData` is the blocks by
    offset, which have the size of the piece. The entry is the first one for the piece in the
    queue, also if a second one has been queued in the meantime. Unless the write then fails,
    which throws and ends the process, the entry is erased and the others stay. -/
theorem arrival_order {f : ParsedFile} (h : Arrives sha1 f p i e w ls v l w') :
    ∃ (sorted : List (List Byte)) (it : ℕ) (entry : Peer.Piece) (r : Completion),
      sorted.Perm (deliveries p i (ls ++ [l])) ∧
        sorted.map pairOf = blockPairs (w.torrent.pieceSize i) ∧
      (sorted.flatMap blockData).length = w.torrent.pieceSize i ∧
      v.completions p i = w.completions p i ∧
      w'.completions p i =
        w.completions p i ++ [.pieceCompleted p entry (sorted.flatMap blockData) r] ∧
      (∀ rest u, Runs.exec (step sha1) w' rest = some u → deliveries p i rest = [] →
        u.completions p i = w'.completions p i) ∧
      ((v.peers p).pieceQueue[it]?.map fun piece => piece.index) = some i ∧
      ((v.peers p).pieceQueue.findIdx? fun piece => piece.index == i) = some it ∧
      (r = .ioFailed → w'.running = false) ∧
      (r ≠ .ioFailed → Erased v.torrent (v.peers p).pieceQueue it (w'.peers p).pieceQueue) := by
  obtain ⟨payload, hl⟩ := Option.isSome_iff_exists.mp h.isDelivery
  obtain ⟨hfirst, hsame, hi⟩ := h.before
  have hall := Arrives.deliveries_eq hl ls
  have hlen := h.length_deliveries
  let new := Piece.new i (numBlocks (w.torrent.pieceSize i))
  have hindex : (blockFields payload).1 = i := (delivery?_eq_some.mp hl).choose_spec.choose_spec.2.2
  obtain ⟨it, hacc⟩ := accepts_of_first? h.size_pos (by rw [hindex]; exact hfirst)
    (putAll_totalBlocks ..) (h.pairOf_mem payload (by
      rw [hall]
      exact List.mem_append_right _ (List.mem_singleton_self _)))
  obtain ⟨r, hcomp, hio, herased⟩ := step_last h.lastStep hl hi h.unfinished hacc (by
    rw [putAll_haveBlocks, putAll_totalBlocks]
    show 0 + _ + 1 = numBlocks _
    omega)
  obtain ⟨hit, hat⟩ := findPiece_some (accepts_takeRead.mp hacc).found
  have hput : (new.putAll (deliveries p i ls)).put payload =
      new.putAll (deliveries p i (ls ++ [l])) := by
    rw [hall, Piece.putAll, Piece.putAll, List.foldl_append]
    rfl
  obtain ⟨sorted, hsorted, hpairs⟩ := exists_perm_map h.blocks
  obtain ⟨hdata, hsize⟩ := pieceData_putAll (i := i) h.size_pos hpairs hsorted.symm
  refine ⟨sorted, it, new.putAll (deliveries p i (ls ++ [l])), r, hsorted, hpairs, hsize, hsame,
    ?_, fun rest u hrun hnone => completions_of_run hrun hnone, ?_, ?_, hio, herased⟩
  · rw [hcomp, hsame, hput, hdata]
  · rw [hit, Option.map_some, hat, hindex]
  · rw [← hindex]
    exact findPiece_findIdx? (accepts_takeRead.mp hacc).found

theorem twoBlockAsked_isSome :
    (Runs.exec (step sha1OfAs) twoBlockFile.start askedRun).isSome = true := by
  decide +kernel

/-- The client before either block of the piece of 16385 bytes arrives. -/
def twoBlockAsked : World :=
  (Runs.exec (step sha1OfAs) twoBlockFile.start askedRun).get twoBlockAsked_isSome

theorem twoBlockAsked_exec :
    Runs.exec (step sha1OfAs) twoBlockFile.start askedRun = some twoBlockAsked := by
  rw [twoBlockAsked, Option.some_get]

/-- The second block arrives first. -/
theorem arrives_twoBlocks {w' : World}
    (h : step sha1OfAs halfDone (.frame 0 7 firstBlock {}) = some w') :
    Arrives sha1OfAs twoBlockFile 0 0 (Piece.new 0 2) twoBlockAsked [secondBlock] halfDone
      (.frame 0 7 firstBlock {}) w' where
  reachable := ⟨askedRun, twoBlockAsked_exec⟩
  lt_length := by decide +kernel
  size_pos := by decide +kernel
  size_lt := by decide +kernel
  once := by decide +kernel
  noBlock := rfl
  run := by
    obtain ⟨t, ht, hrun⟩ := Runs.exec_append.mp halfDone_exec
    obtain rfl := Option.some.inj (twoBlockAsked_exec.symm.trans ht)
    exact hrun
  lastStep := h
  isDelivery := rfl
  unfinished := by decide +kernel
  blocks := by
    have hfirst : pairOf firstBlock = (0, 16384) := Prod.ext rfl length_firstBlock
    have hpairs : (deliveries 0 0 ([secondBlock] ++ [.frame 0 7 firstBlock {}])).map pairOf =
        [(16384, 1), (0, 16384)] := by
      show [_, pairOf firstBlock] = _
      rw [hfirst]
      rfl
    rw [hpairs]
    decide +kernel

/-- Both blocks are handed on, in the order of their offsets. -/
theorem arrival_order_twoBlocks : ∃ w',
    step sha1OfAs halfDone (.frame 0 7 firstBlock {}) = some w' ∧
    ∃ (data : List Byte) (entry : Peer.Piece) (r : Completion), data.length = 16385 ∧
      w'.completions 0 0 = twoBlockAsked.completions 0 0 ++ [.pieceCompleted 0 entry data r] := by
  have hsize : twoBlockAsked.torrent.pieceSize 0 = 16385 := by decide +kernel
  obtain ⟨sorted, it, entry, r, -, -, hlen, -, hcomp, -⟩ :=
    arrival_order (arrives_twoBlocks halfDone_step)
  exact ⟨_, halfDone_step, sorted.flatMap blockData, entry, r, hlen.trans hsize, hcomp⟩

theorem oneByteAsked_isSome :
    (Runs.exec (step sha1OfA) oneByteFile.start (oneByteRun.take 4)).isSome = true := by
  decide +kernel

/-- The one-byte download before its only block arrives. -/
def oneByteAsked : World :=
  (Runs.exec (step sha1OfA) oneByteFile.start (oneByteRun.take 4)).get oneByteAsked_isSome

theorem oneByteAsked_reachable : Reachable sha1OfA oneByteFile oneByteAsked :=
  ⟨oneByteRun.take 4, by rw [oneByteAsked, Option.some_get]⟩

/-- The frame with that block. -/
def oneByteBlock (env : Env) : Label := .frame 0 7 [0, 0, 0, 0, 0, 0, 0, 0, 97] env

theorem arrives_oneByte {env : Env} {w' : World}
    (h : step sha1OfA oneByteAsked (oneByteBlock env) = some w') :
    Arrives sha1OfA oneByteFile 0 0 (Piece.new 0 1) oneByteAsked [] oneByteAsked
      (oneByteBlock env) w' where
  reachable := oneByteAsked_reachable
  lt_length := by decide +kernel
  size_pos := by decide +kernel
  size_lt := by decide +kernel
  once := by decide +kernel
  noBlock := rfl
  run := rfl
  lastStep := h
  isDelivery := rfl
  unfinished := by decide +kernel
  blocks := by
    show ([(0, 1)] : List (ℕ × ℕ)).Perm _
    decide +kernel

/-- When the write of the piece fails, the exception leaves its entry in the queue. -/
theorem arrival_order_fails : ¬ ∀ (sha1 : List Byte → List ℕ) (f : ParsedFile) (p : PeerId) (i : ℕ)
    (e : Peer.Piece) (w : World) (ls : List Label) (v : World) (l : Label) (w' : World),
    Arrives sha1 f p i e w ls v l w' →
      ∃ it, Erased v.torrent (v.peers p).pieceQueue it (w'.peers p).pieceQueue := by
  intro h
  have hsome : (step sha1OfA oneByteAsked (oneByteBlock { fwriteLimit := 0 })).isSome = true := by
    decide +kernel
  obtain ⟨w', hw'⟩ := Option.isSome_iff_exists.mp hsome
  obtain ⟨it, herased⟩ := h _ _ _ _ _ _ _ _ _ _ (arrives_oneByte hw')
  have hbefore : ((oneByteAsked.peers 0).pieceQueue.all fun e => e.haveBlocks == 0) = true := by
    decide +kernel
  have hafter : ((w'.peers 0).pieceQueue.all fun e => e.haveBlocks == 0) = false := by
    have hall : ((step sha1OfA oneByteAsked (oneByteBlock { fwriteLimit := 0 })).all fun w' =>
        !(w'.peers 0).pieceQueue.all fun e => e.haveBlocks == 0) = true := by
      decide +kernel
    rw [hw', Option.all_some] at hall
    exact Bool.not_eq_true' _ |>.mp hall
  have hkept : (((oneByteAsked.peers 0).pieceQueue.eraseIdx it).all fun e => e.haveBlocks == 0) =
      true := by
    refine List.all_eq_true.mpr fun x hx => ?_
    exact List.all_eq_true.mp hbefore x (List.mem_of_mem_eraseIdx hx)
  rcases herased with hq | ⟨k, hq⟩
  · rw [hq, hkept] at hafter
    cases hafter
  · rw [hq, List.all_append, hkept] at hafter
    cases hafter

end YTorrent
