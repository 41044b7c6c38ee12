import YTorrent.Torrent.State

/-!
# The layout of pieces and blocks

`Torrent::pieceSize`, the block count of `Peer::sendPieceRequest` and the loop
by which `Peer::requestPiece` and `Peer::sendCancelRequest` cut a piece into
blocks.

* `blockPairs_eq`: for a piece of size `s > 0` the loop passes the pairs
  `(16384·k, min 16384 (s − 16384·k))` for `k < ⌈s / 16384⌉`, in order.
* `sum_pieceSize`: pieces of the right number add up to the total.
-/

namespace YTorrent

/-- `Torrent::pieceSize` (torrent.cpp lines 446–457). The result is an
    `int64_t` in the source; every caller converts it to an unsigned type or
    compares it with one, so it is a natural number here. (With
    `pieceLength = 0` the source divides by zero.) -/
def Torrent.pieceSize (t : Torrent) (pieceIndex : ℕ) : ℕ :=
  if pieceIndex + 1 = t.pieces.length then
    if t.totalSize % t.pieceLength ≠ 0 then t.totalSize % t.pieceLength else t.pieceLength
  else t.pieceLength

/-- `(size_t)(ceil(double(pieceLength) / MAX_BLOCK_REQUEST_SIZE))` of
    `sendPieceRequest` (peer.cpp line 353). The argument is a `uint32_t`, so
    the quotient by the power of two is exact in a `double`. -/
def numBlocks (pieceLength : ℕ) : ℕ :=
  (pieceLength + (maxBlockRequestSize - 1)) / maxBlockRequestSize

/-- The loop of `sendCancelRequest` and `requestPiece` (peer.cpp lines 402–410,
    431–440): the pairs `(begin, length)` passed to `sendCancel` or
    `sendRequest`, in order. `fuel` bounds the number of loop tests. -/
def blockLoop : (fuel begin length : ℕ) → List (ℕ × ℕ)
  | 0, begin, length => [(begin, length)]
  | fuel + 1, begin, length =>
    if length > maxBlockRequestSize then
      (begin, maxBlockRequestSize) ::
        blockLoop fuel (begin + maxBlockRequestSize) (length - maxBlockRequestSize)
    else [(begin, length)]

/-- The pairs the loop passes for a piece of the given size: it starts with
    `begin = 0` and tests its condition at most `length / 16384 + 1` times. -/
def blockPairs (length : ℕ) : List (ℕ × ℕ) := blockLoop (length / maxBlockRequestSize) 0 length

/-- The length of block `k` of a piece of size `s`. -/
def blockLength (s k : ℕ) : ℕ := min maxBlockRequestSize (s - k * maxBlockRequestSize)

/-! ## The loop -/

/-- The loop ends by its own test: fuel beyond `length / 16384` changes nothing. -/
theorem blockLoop_fuel {fuel : ℕ} : ∀ {begin length : ℕ}, length / maxBlockRequestSize ≤ fuel →
    blockLoop fuel begin length = blockLoop (length / maxBlockRequestSize) begin length := by
  induction fuel with
  | zero => intro begin length h; rw [Nat.le_zero.mp h]
  | succ fuel ih =>
    intro begin length h
    by_cases hl : length > maxBlockRequestSize
    · have hd : length / maxBlockRequestSize =
          (length - maxBlockRequestSize) / maxBlockRequestSize + 1 := by
        unfold maxBlockRequestSize at *; omega
      rw [hd, blockLoop, blockLoop, if_pos hl, if_pos hl, ih (by omega)]
    · rw [blockLoop, if_neg hl]
      cases length / maxBlockRequestSize with
      | zero => rfl
      | succ n => rw [blockLoop, if_neg hl]

theorem blockLoop_eq : ∀ {fuel begin length : ℕ}, 0 < length →
    length / maxBlockRequestSize ≤ fuel → blockLoop fuel begin length =
      (List.range (numBlocks length)).map fun k =>
        (begin + k * maxBlockRequestSize, blockLength length k) := by
  intro fuel
  induction fuel with
  | zero =>
    intro begin length h0 hf
    have hn : numBlocks length = 1 := by unfold numBlocks maxBlockRequestSize at *; omega
    have hb : blockLength length 0 = length := by
      unfold blockLength maxBlockRequestSize at *; omega
    simp [blockLoop, hn, hb]
  | succ fuel ih =>
    intro begin length h0 hf
    by_cases hl : length > maxBlockRequestSize
    · have hn : numBlocks length = numBlocks (length - maxBlockRequestSize) + 1 := by
        unfold numBlocks maxBlockRequestSize at *; omega
      rw [blockLoop, if_pos hl, ih (by omega) (by unfold maxBlockRequestSize at *; omega), hn,
        List.range_succ_eq_map, List.map_cons, List.map_map]
      congr 1
      · have : blockLength length 0 = maxBlockRequestSize := by
          unfold blockLength maxBlockRequestSize at *; omega
        simp [this]
      · apply List.map_congr_left
        intro k _
        simp only [Function.comp_apply, blockLength, Nat.succ_eq_add_one, Nat.add_mul, one_mul]
        rw [Nat.sub_sub, Nat.add_comm maxBlockRequestSize (k * maxBlockRequestSize), Nat.add_assoc,
          Nat.add_comm maxBlockRequestSize (k * maxBlockRequestSize)]
    · have hn : numBlocks length = 1 := by unfold numBlocks maxBlockRequestSize at *; omega
      have hb : blockLength length 0 = length := by
        unfold blockLength maxBlockRequestSize at *; omega
      simp [blockLoop, if_neg hl, hn, hb]

/-- The blocks of a piece: block `k` begins at `16384·k`. -/
theorem blockPairs_eq {length : ℕ} (h : 0 < length) : blockPairs length =
    (List.range (numBlocks length)).map fun k =>
      (k * maxBlockRequestSize, blockLength length k) := by
  rw [blockPairs, blockLoop_eq h le_rfl]
  simp

theorem mem_blockPairs {length : ℕ} (h : 0 < length) {b l : ℕ} : (b, l) ∈ blockPairs length ↔
    ∃ k < numBlocks length, b = k * maxBlockRequestSize ∧ l = blockLength length k := by
  simp only [blockPairs_eq h, List.mem_map, List.mem_range, Prod.mk.injEq]
  constructor
  · rintro ⟨k, hk, rfl, rfl⟩; exact ⟨k, hk, rfl, rfl⟩
  · rintro ⟨k, hk, rfl, rfl⟩; exact ⟨k, hk, rfl, rfl⟩

/-! ## Block lengths -/

theorem blockLength_pos {s k : ℕ} (h : k < numBlocks s) : 0 < blockLength s k := by
  unfold blockLength numBlocks maxBlockRequestSize at *; omega

theorem blockLength_le (s k : ℕ) : blockLength s k ≤ maxBlockRequestSize := Nat.min_le_left _ _

/-- A block ends inside its piece. -/
theorem block_end_le {s k : ℕ} (h : k < numBlocks s) :
    k * maxBlockRequestSize + blockLength s k ≤ s := by
  unfold blockLength numBlocks maxBlockRequestSize at *; omega

/-- The lengths of the first `m` blocks add up to the piece, as far as they reach. -/
theorem sum_blockLength (s m : ℕ) :
    ((List.range m).map (blockLength s)).sum = min s (m * maxBlockRequestSize) := by
  induction m with
  | zero => simp
  | succ m ih =>
    rw [List.range_succ, List.map_append, List.sum_append, ih]
    simp only [List.map_cons, List.map_nil, List.sum_cons, List.sum_nil, Nat.succ_mul]
    unfold blockLength
    omega

/-- The blocks of a piece add up to the piece. -/
theorem sum_blocks (s : ℕ) : ((List.range (numBlocks s)).map (blockLength s)).sum = s := by
  rw [sum_blockLength]
  unfold numBlocks maxBlockRequestSize
  omega

/-- `begin / MAX_BLOCK_REQUEST_SIZE` recovers the number of the block. -/
theorem block_div (k : ℕ) : k * maxBlockRequestSize / maxBlockRequestSize = k :=
  Nat.mul_div_cancel k (by decide)

/-! ## Piece sizes -/

/-- `pieceSize` reads the number of pieces and the two sizes, nothing else. -/
theorem pieceSize_congr {t t' : Torrent} (hn : t.pieces.length = t'.pieces.length)
    (hl : t.pieceLength = t'.pieceLength) (hs : t.totalSize = t'.totalSize) (i : ℕ) :
    t.pieceSize i = t'.pieceSize i := by
  simp only [Torrent.pieceSize, hn, hl, hs]

theorem pieceSize_pos {t : Torrent} (h : 0 < t.pieceLength) (i : ℕ) : 0 < t.pieceSize i := by
  unfold Torrent.pieceSize
  split_ifs <;> omega

theorem pieceSize_le {t : Torrent} (h : 0 < t.pieceLength) (i : ℕ) :
    t.pieceSize i ≤ t.pieceLength := by
  have hmod := Nat.mod_lt t.totalSize h
  unfold Torrent.pieceSize
  split_ifs <;> omega

/-- Rounding up counts the last piece that is not whole. -/
theorem ceil_eq {total n : ℕ} (h : 0 < n) :
    (total + n - 1) / n = total / n + if total % n = 0 then 0 else 1 := by
  have hdiv := Nat.div_add_mod total n
  have hmod := Nat.mod_lt total h
  generalize total / n = q at *
  generalize total % n = r at *
  split
  · have hsum : total + n - 1 = (n - 1) + n * q := by omega
    rw [hsum, Nat.add_mul_div_left _ _ h, Nat.div_eq_of_lt (by omega), Nat.zero_add, Nat.add_zero]
  · have hsum : total + n - 1 = (r - 1) + n * (q + 1) := by
      rw [Nat.mul_succ]
      omega
    rw [hsum, Nat.add_mul_div_left _ _ h, Nat.div_eq_of_lt (by omega), Nat.zero_add]

/-- Pieces whose number is the total over the length, rounded up, add up to the total. -/
theorem sum_pieceSize {t : Torrent} (hpos : 0 < t.pieceLength)
    (hpieces : t.pieces.length = (t.totalSize + t.pieceLength - 1) / t.pieceLength) :
    ((List.range t.pieces.length).map t.pieceSize).sum = t.totalSize := by
  rw [ceil_eq hpos] at hpieces
  have hdiv := Nat.div_add_mod t.totalSize t.pieceLength
  match hn : t.pieces.length with
  | 0 =>
    split at hpieces
    · rename_i hmod
      have hq : t.totalSize / t.pieceLength = 0 := hpieces.symm.trans hn
      rw [hq, hmod] at hdiv
      exact hdiv
    · rw [hn] at hpieces
      cases hpieces
  | m + 1 =>
    have hfull : (List.range m).map t.pieceSize = List.replicate m t.pieceLength := by
      refine List.eq_replicate_iff.mpr ⟨by simp, fun size hsize => ?_⟩
      obtain ⟨i, hi, rfl⟩ := List.mem_map.mp hsize
      have hne : i + 1 ≠ t.pieces.length := by
        have := List.mem_range.mp hi
        omega
      exact if_neg hne
    have hlast : m * t.pieceLength + t.pieceSize m = t.totalSize := by
      unfold Torrent.pieceSize
      rw [if_pos hn.symm, Nat.mul_comm]
      split at hpieces
      · rename_i hmod
        have hq : t.totalSize / t.pieceLength = m + 1 := by omega
        rw [hq, Nat.mul_succ, hmod] at hdiv
        rw [if_neg (not_not.mpr hmod)]
        exact hdiv
      · rename_i hmod
        have hq : t.totalSize / t.pieceLength = m := by omega
        rw [hq] at hdiv
        rw [if_pos hmod]
        exact hdiv
    rw [List.range_succ, List.map_append, List.sum_append, hfull, List.sum_replicate_nat,
      List.map_singleton, List.sum_singleton, hlast]

end YTorrent
