import Mathlib.Data.List.Nodup
import Mathlib.Data.List.Perm.Subperm
import YTorrent.Torrent.Blocks
import YTorrent.Torrent.Integrity

/-!
# Blocks on their way

One connection: the queue of the pieces assigned to the peer, and the blocks that
have been requested from it and are still on their way, each named by the fields
of its REQUEST.

* `Sound`: the queue has one entry for a piece, what its slots hold is the true
  data, and every block on its way goes to an empty slot, each of them once.
* `Sound.put`, `Sound.erase`, `Sound.fresh`, `Sound.request`, `Sound.subperm`: it
  is kept when a block is stored, when an entry none of whose blocks is on its
  way is erased, when a new piece or the pieces of the queue are requested, and
  when blocks are dropped.
* `Genuine.pieceData_eq`: a complete entry holds the chunk of the content.
-/

namespace YTorrent

open Peer Slice

/-- The fields `index`, `begin` and `length` of a REQUEST, by which a block is named. -/
abbrev BlockId := ℕ × ℕ × ℕ

/-- Block `k` of piece `i`, for pieces of the given sizes. -/
def blockId (size : ℕ → ℕ) (i k : ℕ) : BlockId :=
  (i, k * maxBlockRequestSize, blockLength (size i) k)

/-- The blocks of piece `i`. -/
def pieceBlocks (size : ℕ → ℕ) (i : ℕ) : List BlockId :=
  (List.range (numBlocks (size i))).map (blockId size i)

/-- The data of a block of the content `C`. -/
def trueData (C : List Byte) (pieceLength : ℕ) (r : BlockId) : List Byte :=
  slice C (r.1 * pieceLength + r.2.1) r.2.2

/-- The block belongs to the piece of the entry, and its slot is empty. -/
def Lacks (size : ℕ → ℕ) (e : Peer.Piece) (r : BlockId) : Prop :=
  ∃ k < numBlocks (size e.index), r = blockId size e.index k ∧ ∀ b ∈ e.blocks[k]?, b.data = none

/-- The entry is counted, and its slots hold the true data. -/
structure Genuine (size : ℕ → ℕ) (truth : BlockId → List Byte) (e : Peer.Piece) : Prop
    extends Counted size e where
  data : ∀ (k : ℕ) b d, e.blocks[k]? = some b → b.data = some d → d = truth (blockId size e.index k)

/-- The queue has one entry for a piece, its entries are genuine, and the blocks
    on their way are different ones that go to empty slots of its entries. -/
structure Sound (size : ℕ → ℕ) (truth : BlockId → List Byte) (queue : List Peer.Piece)
    (live : List BlockId) : Prop where
  distinct : (queue.map (·.index)).Nodup
  genuine : ∀ e ∈ queue, Genuine size truth e
  nodup : live.Nodup
  lacked : ∀ r ∈ live, ∃ e ∈ queue, Lacks size e r

variable {size : ℕ → ℕ} {truth : BlockId → List Byte} {queue : List Peer.Piece}
  {live live' : List BlockId} {e e' : Peer.Piece} {it i k : ℕ} {r : BlockId} {payload : List Byte}

/-! ## Blocks of a piece -/

theorem mem_pieceBlocks :
    r ∈ pieceBlocks size i ↔ ∃ k < numBlocks (size i), blockId size i k = r := by
  simp only [pieceBlocks, List.mem_map, List.mem_range]

theorem blockId_inj {k' : ℕ} (h : blockId size i k = blockId size i k') : k = k' := by
  have hbegin : k * maxBlockRequestSize = k' * maxBlockRequestSize :=
    congrArg (fun r : BlockId => r.2.1) h
  exact Nat.eq_of_mul_eq_mul_right (by decide) hbegin

theorem nodup_pieceBlocks : (pieceBlocks size i).Nodup :=
  List.nodup_range.map fun _ _ h => blockId_inj h

/-- The blocks of a piece, put together. -/
theorem flatMap_trueData (C : List Byte) (pieceLength i : ℕ) :
    (pieceBlocks size i).flatMap (trueData C pieceLength) = slice C (i * pieceLength) (size i) := by
  rw [pieceBlocks, List.flatMap_map]
  have hblocks := flatMap_slice C (i * pieceLength) (size i) maxBlockRequestSize
    (numBlocks (size i))
  have hall : min (size i) (numBlocks (size i) * maxBlockRequestSize) = size i := by
    unfold numBlocks maxBlockRequestSize
    omega
  rw [hall] at hblocks
  exact hblocks

theorem length_trueData {C : List Byte} {pieceLength : ℕ}
    (hfit : i * pieceLength + size i ≤ C.length) (hk : k < numBlocks (size i)) :
    (trueData C pieceLength (blockId size i k)).length = blockLength (size i) k := by
  have hend := block_end_le hk
  exact length_slice_of_le (by simp only [blockId]; omega)

/-! ## Entries -/

theorem Lacks.index_eq (h : Lacks size e r) : r.1 = e.index := by
  obtain ⟨k, -, rfl, -⟩ := h
  rfl

theorem lacks_new (hk : k < numBlocks (size i)) (n : ℕ) :
    Lacks size (Piece.new i n) (blockId size i k) := by
  refine ⟨k, hk, rfl, fun b hb => ?_⟩
  obtain ⟨-, rfl⟩ : k < n ∧ {} = b := by simpa [Piece.new, List.getElem?_replicate] using hb
  rfl

/-- An entry without filled slots lacks every block. -/
theorem lacks_of_no_filled (he : e.filledSlots = 0) (hk : k < numBlocks (size e.index)) :
    Lacks size e (blockId size e.index k) := by
  refine ⟨k, hk, rfl, fun b hb => ?_⟩
  have hno := List.countP_eq_zero.mp he b (List.mem_of_getElem? hb)
  cases hd : b.data with
  | none => rfl
  | some d => rw [hd] at hno; exact absurd rfl hno

/-- Storing a block does not fill the slots of the others. -/
theorem Lacks.put (h : Lacks size e r) (hne : r ≠ blockId size e.index (slotOf payload)) :
    Lacks size (e.put payload) r := by
  obtain ⟨k, hk, rfl, hempty⟩ := h
  refine ⟨k, hk, rfl, fun b hb => hempty b ?_⟩
  have hslot : slotOf payload ≠ k := fun heq => hne (by rw [heq])
  simpa [Piece.put, Piece.store, List.getElem?_set, hslot] using hb

/-- A complete entry lacks no block. -/
theorem Counted.not_lacks (h : Counted size e) (hsize : size e.index < 2 ^ 32)
    (hlast : e.haveBlocks = e.totalBlocks) : ¬ Lacks size e r := by
  rintro ⟨k, hk, -, hempty⟩
  have hlt : k < e.blocks.length := by rw [h.length_blocks hsize]; exact hk
  have hb := List.getElem?_eq_getElem hlt
  have hfilled := h.filled hlast _ (List.mem_of_getElem? hb)
  rw [hempty _ hb] at hfilled
  cases hfilled

theorem genuine_new (hsize : size i < 2 ^ 32) :
    Genuine size truth (Piece.new i (numBlocks (size i))) where
  total := by rw [u32_of_lt (show size (Piece.new i _).index < 2 ^ 32 from hsize)]; rfl
  counted := by simp [Piece.new, Piece.filledSlots, List.countP_replicate]
  sizes k b d hb hd := by
    obtain ⟨-, rfl⟩ : k < numBlocks (size i) ∧ {} = b := by
      simpa [Piece.new, List.getElem?_replicate] using hb
    cases hd
  data k b d hb hd := by
    obtain ⟨-, rfl⟩ : k < numBlocks (size i) ∧ {} = b := by
      simpa [Piece.new, List.getElem?_replicate] using hb
    cases hd

/-- The true data of a block that the entry lacks keeps it genuine. -/
theorem Genuine.put (h : Genuine size truth e) (hsize : size e.index < 2 ^ 32)
    (hr : Lacks size e (blockId size e.index (slotOf payload)))
    (hdata : blockData payload = truth (blockId size e.index (slotOf payload)))
    (hlen : (blockData payload).length = blockLength (size e.index) (slotOf payload)) :
    Genuine size truth (e.put payload) where
  toCounted := by
    obtain ⟨k, hk, heq, hempty⟩ := hr
    obtain rfl := blockId_inj heq
    have hslot : slotOf payload < e.totalBlocks := by
      rw [h.total, u32_of_lt hsize]
      exact hk
    exact h.toCounted.put hslot hempty hlen
  data k b d hb hd := by
    simp only [Piece.put, Piece.store, List.getElem?_set] at hb
    by_cases hk : slotOf payload = k
    · rw [if_pos hk] at hb
      split at hb
      · cases hb
        cases hd
        rw [hdata, hk]
        rfl
      · cases hb
    · rw [if_neg hk] at hb
      exact h.data k b d hb hd

/-- A complete entry holds the blocks of its piece. -/
theorem Genuine.pieceData_eq (h : Genuine size truth e) (hsize : size e.index < 2 ^ 32)
    (hlast : e.haveBlocks = e.totalBlocks) :
    e.pieceData = (pieceBlocks size e.index).flatMap truth := by
  have hlen := h.length_blocks hsize
  have hbytes : e.blocks.map Block.bytes = (pieceBlocks size e.index).map truth := by
    apply List.ext_getElem?
    intro k
    rw [List.getElem?_map, List.getElem?_map]
    by_cases hk : k < e.blocks.length
    · have hb := List.getElem?_eq_getElem hk
      obtain ⟨d, hd⟩ := Option.isSome_iff_exists.mp (h.filled hlast _ (List.mem_of_getElem? hb))
      obtain ⟨-, hlen'⟩ := h.sizes k _ d hb hd
      have hk' : k < (pieceBlocks size e.index).length := by
        simpa [pieceBlocks, ← hlen] using hk
      rw [hb, List.getElem?_eq_getElem hk']
      simp [Block.bytes, hd, ← hlen', pieceBlocks, ← h.data k _ d hb hd]
    · rw [List.getElem?_eq_none (by omega),
        List.getElem?_eq_none (by simp [pieceBlocks, ← hlen]; omega)]
      rfl
  rw [Piece.pieceData, List.flatMap_def, hbytes, ← List.flatMap_def]

/-! ## The queue -/

namespace Sound

/-- The entries of a queue are told apart by their indexes. -/
theorem eq_of_index (h : Sound size truth queue live) {it' : ℕ} (he : queue[it]? = some e)
    (he' : queue[it']? = some e') (heq : e.index = e'.index) : it = it' := by
  have hlt : it < (queue.map (·.index)).length := by
    rw [List.length_map]
    exact (List.getElem?_eq_some_iff.mp he).1
  refine (List.getElem?_inj hlt h.distinct).mp ?_
  rw [List.getElem?_map, List.getElem?_map, he, he', Option.map_some, Option.map_some, heq]

theorem eq_of_mem (h : Sound size truth queue live) (he : e ∈ queue) (he' : e' ∈ queue)
    (heq : e.index = e'.index) : e = e' := by
  obtain ⟨it, hit⟩ := List.mem_iff_getElem?.mp he
  obtain ⟨it', hit'⟩ := List.mem_iff_getElem?.mp he'
  obtain rfl := h.eq_of_index hit hit' heq
  exact Option.some.inj (hit.symm.trans hit')

/-- `find_if` finds the entry of a block on its way. -/
theorem find (h : Sound size truth queue live) (hr : r ∈ live) :
    ∃ it e, findPiece queue r.1 = some (it, e) ∧ Lacks size e r := by
  obtain ⟨e, he, hl⟩ := h.lacked r hr
  cases hf : findPiece queue r.1 with
  | none => exact absurd hl.index_eq.symm (findPiece_none hf he)
  | some found =>
    obtain ⟨hit, hindex⟩ := findPiece_some hf
    obtain rfl := h.eq_of_mem he (List.mem_of_getElem? hit) (hl.index_eq.symm.trans hindex.symm)
    exact ⟨found.1, found.2, rfl, hl⟩

/-- Blocks can be dropped. -/
theorem subperm (h : Sound size truth queue live) (hsub : List.Subperm live' live) :
    Sound size truth queue live' := by
  refine ⟨h.distinct, h.genuine, ?_, fun r hr => h.lacked r (hsub.subset hr)⟩
  obtain ⟨l, hperm, hsub⟩ := hsub
  exact hperm.nodup_iff.mp (h.nodup.sublist hsub)

/-- An entry none of whose blocks is on its way is erased. -/
theorem erase (h : Sound size truth queue live) (hit : queue[it]? = some e)
    (hno : ∀ r ∈ live, r.1 ≠ e.index) : Sound size truth (queue.eraseIdx it) live := by
  refine ⟨h.distinct.sublist ((List.eraseIdx_sublist queue it).map _), fun e' he' =>
    h.genuine e' (List.mem_of_mem_eraseIdx he'), h.nodup, fun r hr => ?_⟩
  obtain ⟨e', he', hl⟩ := h.lacked r hr
  obtain ⟨it', hit'⟩ := List.mem_iff_getElem?.mp he'
  refine ⟨e', List.mem_eraseIdx_iff_getElem?.mpr ⟨it', fun heq => ?_, hit'⟩, hl⟩
  subst heq
  obtain rfl := Option.some.inj (hit.symm.trans hit')
  exact hno r hr hl.index_eq

/-- The block that arrives is stored. -/
theorem put (h : Sound size truth queue (r :: live)) (hit : queue[it]? = some e)
    (hsize : size e.index < 2 ^ 32) (hr : r = blockId size e.index (slotOf payload))
    (hdata : blockData payload = truth r)
    (hlen : (blockData payload).length = blockLength (size e.index) (slotOf payload)) :
    Sound size truth (queue.set it (e.put payload)) live := by
  obtain ⟨hnot, hnodup⟩ := List.nodup_cons.mp h.nodup
  have he := List.mem_of_getElem? hit
  -- the entry that lacks the block is the one at `it`
  have hlacks : Lacks size e r := by
    obtain ⟨e', he', hl⟩ := h.lacked r List.mem_cons_self
    have hindex : e.index = e'.index := by rw [← hl.index_eq, hr]; rfl
    rwa [h.eq_of_mem he he' hindex]
  constructor
  · have hmap : (queue.set it (e.put payload)).map (·.index) = queue.map (·.index) := by
      apply List.ext_getElem?
      intro j
      rw [List.getElem?_map, List.getElem?_map, List.getElem?_set]
      by_cases hj : it = j
      · subst hj
        rw [if_pos rfl, if_pos (List.getElem?_eq_some_iff.mp hit).1, hit]
        rfl
      · rw [if_neg hj]
    rw [hmap]
    exact h.distinct
  · intro e' he'
    rcases List.mem_or_eq_of_mem_set he' with he' | rfl
    · exact h.genuine e' he'
    · exact (h.genuine e he).put hsize (hr ▸ hlacks) (hr ▸ hdata) hlen
  · exact hnodup
  · intro r' hr'
    obtain ⟨e', he', hl⟩ := h.lacked r' (List.mem_cons_of_mem r hr')
    have hlt : it < queue.length := (List.getElem?_eq_some_iff.mp hit).1
    by_cases hindex : e'.index = e.index
    · obtain rfl := h.eq_of_mem he' he hindex
      refine ⟨_, List.mem_set hlt _, hl.put fun heq => hnot ?_⟩
      rwa [hr, ← heq]
    · obtain ⟨it', hit'⟩ := List.mem_iff_getElem?.mp he'
      have hne : it ≠ it' := by
        rintro rfl
        exact hindex (congrArg Piece.index (Option.some.inj (hit'.symm.trans hit)))
      exact ⟨e', List.mem_of_getElem? (by rw [List.getElem?_set_ne hne, hit']), hl⟩

/-- A new piece is queued, and some of its blocks are requested. -/
theorem fresh (h : Sound size truth queue live) (hsize : size i < 2 ^ 32)
    (hnew : ∀ e ∈ queue, e.index ≠ i) {rs : List BlockId} (hrs : rs.Sublist (pieceBlocks size i)) :
    Sound size truth (queue ++ [Piece.new i (numBlocks (size i))]) (live ++ rs) := by
  have hindex : ∀ r ∈ rs, r.1 = i := by
    intro r hr
    obtain ⟨k, -, rfl⟩ := mem_pieceBlocks.mp (hrs.subset hr)
    rfl
  constructor
  · rw [List.map_append, List.nodup_append]
    refine ⟨h.distinct, List.nodup_singleton _, fun a ha b hb => ?_⟩
    obtain ⟨e, he, rfl⟩ := List.mem_map.mp ha
    rw [List.mem_singleton.mp hb]
    exact hnew e he
  · intro e he
    rcases List.mem_append.mp he with he | he
    · exact h.genuine e he
    · rw [List.mem_singleton.mp he]
      exact genuine_new hsize
  · rw [List.nodup_append]
    refine ⟨h.nodup, nodup_pieceBlocks.sublist hrs, fun r hr r' hr' heq => ?_⟩
    obtain ⟨e, he, hl⟩ := h.lacked r hr
    exact hnew e he (by rw [← hl.index_eq, heq, hindex r' hr'])
  · intro r hr
    rcases List.mem_append.mp hr with hr | hr
    · obtain ⟨e, he, hl⟩ := h.lacked r hr
      exact ⟨e, List.mem_append_left _ he, hl⟩
    · obtain ⟨k, hk, rfl⟩ := mem_pieceBlocks.mp (hrs.subset hr)
      exact ⟨_, List.mem_append_right _ (List.mem_singleton_self _), lacks_new hk _⟩

/-- The pieces of the queue are requested, nothing of them having been received
    or being on its way. -/
theorem request (h : Sound size truth queue live)
    (hnone : ∀ e ∈ queue, e.filledSlots = 0 ∧ ∀ r ∈ live, r.1 ≠ e.index) {rs : List BlockId}
    (hrs : rs.Sublist (queue.flatMap fun e => pieceBlocks size e.index)) :
    Sound size truth queue (live ++ rs) := by
  have hlive : live = [] := by
    refine List.eq_nil_iff_forall_not_mem.mpr fun r hr => ?_
    obtain ⟨e, he, hl⟩ := h.lacked r hr
    exact (hnone e he).2 r hr hl.index_eq
  subst hlive
  refine ⟨h.distinct, h.genuine, ?_, fun r hr => ?_⟩
  · refine List.Nodup.sublist hrs (List.nodup_flatMap.mpr ⟨fun _ _ => nodup_pieceBlocks, ?_⟩)
    refine (List.pairwise_map.mp h.distinct).imp fun hne => ?_
    refine List.disjoint_left.mpr fun r hr hr' => ?_
    obtain ⟨k, -, rfl⟩ := mem_pieceBlocks.mp hr
    obtain ⟨k', -, heq⟩ := mem_pieceBlocks.mp hr'
    exact hne (congrArg Prod.fst heq).symm
  · obtain ⟨e, he, hr⟩ := List.mem_flatMap.mp (hrs.subset hr)
    obtain ⟨k, hk, rfl⟩ := mem_pieceBlocks.mp hr
    exact ⟨e, he, lacks_of_no_filled (hnone e he).1 hk⟩

end Sound

end YTorrent
