import YTorrent.Torrent.Bookkeeping

/-!
# Integrity of the downloaded file

`Describes sha1 f C`: the torrent file `f` describes the content `C`; the
hashes are those of the chunks of `C`. If no other buffer has the hash of a
chunk, then whatever the peers send, a finished piece has its chunk in the file
(`Ledger.Holds`): a write is made only with the right hash, hence with the right
bytes, and it touches the range of its own piece only.

* `download_integrity`: every finished piece has the right bytes, in every later
  state too, and a complete download is the content.
-/

namespace YTorrent

open Slice

/-- The torrent file describes the content `C`: its sizes are those of `C`
    (`totalSize` is a `size_t`) and there is a hash for every chunk of `C`. -/
structure Describes (sha1 : List Byte → List ℕ) (f : ParsedFile) (C : List Byte) : Prop where
  pieceLength_pos : 0 < f.pieceLength
  totalSize : f.totalSize = C.length
  totalSize_lt : f.totalSize < 2 ^ 64
  hashes_length : f.hashes.length = (C.length + (f.pieceLength - 1)) / f.pieceLength
  hashes : ∀ i < f.hashes.length,
    f.hashes[i]? = some (Torrent.pieceHash sha1 (chunk C f.pieceLength i))

/-- Only the chunk itself has the hash of a chunk. -/
def CollisionFree (sha1 : List Byte → List ℕ) (f : ParsedFile) (C : List Byte) : Prop :=
  ∀ i < f.hashes.length, ∀ d,
    Torrent.pieceHash sha1 d = Torrent.pieceHash sha1 (chunk C f.pieceLength i) →
      d = chunk C f.pieceLength i

variable {sha1 : List Byte → List ℕ} {f : ParsedFile} {C : List Byte} {w w' : World}

/-- The pieces cover the content. -/
theorem Describes.length_le (h : Describes sha1 f C) :
    C.length ≤ f.hashes.length * f.pieceLength := by
  have hp := h.pieceLength_pos
  have hdm := Nat.div_add_mod (C.length + (f.pieceLength - 1)) f.pieceLength
  have hmod := Nat.mod_lt (C.length + (f.pieceLength - 1)) hp
  rw [h.hashes_length, Nat.mul_comm]
  omega

/-- Every piece begins inside the content. -/
theorem Describes.begin_lt (h : Describes sha1 f C) {i : ℕ} (hi : i < f.hashes.length) :
    i * f.pieceLength < C.length := by
  have hp := h.pieceLength_pos
  have hle : (i + 1) * f.pieceLength ≤ C.length + (f.pieceLength - 1) := by
    rw [← Nat.le_div_iff_mul_le hp, ← h.hashes_length]
    exact hi
  rw [Nat.succ_mul] at hle
  omega

/-- The offset of a piece does not wrap around. -/
theorem Describes.u64_begin (h : Describes sha1 f C) {i : ℕ} (hi : i < f.hashes.length) :
    u64 (i * f.pieceLength) = i * f.pieceLength := by
  have hb := h.begin_lt hi
  have ht := h.totalSize_lt
  rw [h.totalSize] at ht
  exact u64_of_lt (hb.trans ht)

/-- `pieceSize` is the length of the chunk. -/
theorem Describes.pieceSize_eq (h : Describes sha1 f C) {i : ℕ} (hi : i < f.hashes.length) :
    f.start.torrent.pieceSize i = min f.pieceLength (C.length - i * f.pieceLength) := by
  have hpos := h.pieceLength_pos
  have hlen : f.start.torrent.pieces.length = f.hashes.length := List.length_map ..
  have hfirst := h.begin_lt hi
  show (if i + 1 = f.start.torrent.pieces.length then
    if f.totalSize % f.pieceLength ≠ 0 then f.totalSize % f.pieceLength else f.pieceLength
      else f.pieceLength) = _
  rw [hlen, h.totalSize]
  by_cases hlast : i + 1 = f.hashes.length
  · -- the last piece holds what is left
    have hle := h.length_le
    rw [← hlast, Nat.succ_mul] at hle
    obtain ⟨m, hm⟩ := Nat.exists_eq_add_of_lt hfirst
    have hmod : C.length % f.pieceLength = (m + 1) % f.pieceLength := by
      rw [hm, Nat.add_assoc, Nat.mul_add_mod_self_right]
    rw [if_pos hlast, hmod]
    by_cases hfull : m + 1 = f.pieceLength
    · rw [hfull, Nat.mod_self, if_neg (by simp)]
      omega
    · rw [Nat.mod_eq_of_lt (by omega), if_pos (by omega)]
      omega
  · have hnext := h.begin_lt (show i + 1 < f.hashes.length by omega)
    rw [Nat.succ_mul] at hnext
    rw [if_neg hlast]
    omega

namespace Ledger

/-- The ledger of a download of `C` with torrent file `f`: every finished piece
    has its chunk in the file. -/
structure Holds (f : ParsedFile) (C : List Byte) (d : Ledger) : Prop where
  hashes : d.hashes = f.hashes
  pieceLength : d.pieceLength = f.pieceLength
  totalSize : d.totalSize = f.totalSize
  length : d.finished.length = f.hashes.length
  data : ∀ i, d.finished[i]? = some true →
    slice d.file (i * f.pieceLength) (chunk C f.pieceLength i).length = chunk C f.pieceLength i

/-- A buffer with the right hash is the chunk, and it is written at its place. -/
theorem Holds.of_matches (hd : Describes sha1 f C) (hfree : CollisionFree sha1 f C) {d : Ledger}
    (h : d.Holds f C) {i : ℕ} {data : List Byte} (hash : d.Matches sha1 i data) :
    i < f.hashes.length ∧ data = chunk C f.pieceLength i ∧
      d.beginPos i = i * f.pieceLength := by
  rw [Matches, h.hashes] at hash
  have hi : i < f.hashes.length := (List.getElem?_eq_some_iff.mp hash).1
  have heq : Torrent.pieceHash sha1 data = Torrent.pieceHash sha1 (chunk C f.pieceLength i) :=
    Option.some.inj (hash.symm.trans (hd.hashes i hi))
  refine ⟨hi, hfree i hi data heq, ?_⟩
  rw [beginPos, h.pieceLength, hd.u64_begin hi]

/-- Writing any initial part of a chunk at its place leaves the other chunks. -/
theorem slice_overwrite_chunk {file : List Byte} {n i j m : ℕ} (hij : i ≠ j)
    (h : slice file (i * n) (chunk C n i).length = chunk C n i) :
    slice (overwrite 0 file (j * n) ((chunk C n j).take m)) (i * n) (chunk C n i).length =
      chunk C n i := by
  apply slice_overwrite_of_disjoint h
  have hm : ((chunk C n j).take m).length ≤ (chunk C n j).length := List.length_take_le' ..
  rcases Nat.lt_or_gt_of_ne hij with hlt | hgt
  · exact .inl (chunk_disjoint C hlt)
  · have hd := chunk_disjoint C (n := n) hgt
    right
    omega

theorem Holds.step (hd : Describes sha1 f C) (hfree : CollisionFree sha1 f C) {d d' : Ledger}
    (hs : Step sha1 d d') (h : d.Holds f C) : d'.Holds f C := by
  cases hs with
  | missed index data => exact ⟨h.hashes, h.pieceLength, h.totalSize, h.length, h.data⟩
  | lost index data file hash hopen hfile =>
    obtain ⟨hi, rfl, hpos⟩ := h.of_matches hd hfree hash
    refine ⟨h.hashes, h.pieceLength, h.totalSize, h.length, fun j hj => ?_⟩
    change d.finished[j]? = some true at hj
    have hne : j ≠ index := by
      rintro rfl
      rw [hopen] at hj
      cases hj
    show slice file _ _ = _
    rcases hfile with rfl | ⟨-, m, rfl⟩
    · exact h.data j hj
    · rw [hpos]
      exact slice_overwrite_chunk hne (h.data j hj)
  | stored index data hash hopen hpos =>
    obtain ⟨hi, rfl, hpos'⟩ := h.of_matches hd hfree hash
    refine ⟨h.hashes, h.pieceLength, h.totalSize, by simp [Ledger.stored, h.length],
      fun j hj => ?_⟩
    show slice (overwrite 0 d.file (d.beginPos index) (chunk C f.pieceLength index)) _ _ = _
    rw [hpos']
    by_cases hij : j = index
    · subst hij
      exact slice_overwrite_self 0 d.file _ _
    · have hj' : d.finished[j]? = some true := by
        simpa [Ledger.stored, List.getElem?_set, Ne.symm hij] using hj
      have hw :=
        slice_overwrite_chunk (m := (chunk C f.pieceLength index).length) hij (h.data j hj')
      rwa [List.take_length] at hw

end Ledger

theorem holds_start (f : ParsedFile) (C : List Byte) : f.start.ledger.Holds f C where
  hashes := by simp [World.ledger, ParsedFile.start, Function.comp_def]
  pieceLength := rfl
  totalSize := rfl
  length := by rw [start_ledger_finished, List.length_replicate]
  data i hi := by
    rw [start_ledger_finished, List.getElem?_replicate] at hi
    split at hi <;> cases hi

theorem Reachable.holds (hd : Describes sha1 f C) (hfree : CollisionFree sha1 f C)
    (h : Reachable sha1 f w) : w.ledger.Holds f C :=
  ledger_invariant (fun _ _ hs => Ledger.Holds.step hd hfree hs) h (holds_start f C)

/-- The file agrees with the content up to `totalSize` once every piece is finished. -/
theorem Ledger.Holds.take_eq {d : Ledger} (hd : Describes sha1 f C) (h : d.Holds f C)
    (hall : ∀ i < f.hashes.length, d.finished[i]? = some true) :
    d.file.take d.totalSize = C := by
  rw [h.totalSize, hd.totalSize]
  exact take_eq_of_chunks hd.pieceLength_pos hd.length_le fun i hi => h.data i (hall i hi)

/-- In every reachable state each finished piece has its chunk of the content in
    the file, and it has it in every later state; so once `completedPieces` is
    the number of pieces, the file begins with the content. -/
theorem download_integrity (hd : Describes sha1 f C) (hfree : CollisionFree sha1 f C)
    (h : Reachable sha1 f w) :
    (∀ i, w.torrent.isFinished i = true →
      slice w.torrent.file (i * f.pieceLength) (chunk C f.pieceLength i).length =
          chunk C f.pieceLength i ∧
        ∀ w', Runs.Reaches (step sha1) w w' →
          slice w'.torrent.file (i * f.pieceLength) (chunk C f.pieceLength i).length =
            slice w.torrent.file (i * f.pieceLength) (chunk C f.pieceLength i).length) ∧
      (w.torrent.completedPieces = w.torrent.pieces.length →
        w.torrent.file.take w.torrent.totalSize = C) := by
  have hw := h.holds hd hfree
  refine ⟨fun i hi => ?_, fun hc => ?_⟩
  · have hdata := hw.data i ((isFinished_iff w i).mp hi)
    refine ⟨hdata, fun w' hw' => ?_⟩
    have hi' : w'.ledger.finished[i]? = some true :=
      (isFinished_iff w' i).mp (isFinished_mono hw' hi)
    have hdata' := (Reachable.holds hd hfree (h.trans hw')).data i hi'
    exact hdata'.trans hdata.symm
  · refine hw.take_eq hd fun i hi => all_finished_of_completed h.consistent hc ?_
    rw [hw.length]
    exact hi

theorem describes_oneByte : Describes sha1OfA oneByteFile [97] where
  pieceLength_pos := by decide
  totalSize := rfl
  totalSize_lt := by decide
  hashes_length := rfl
  hashes i hi := by
    obtain rfl : i = 0 := by simpa [oneByteFile] using hi
    rfl

theorem collisionFree_oneByte : CollisionFree sha1OfA oneByteFile [97] := by
  intro i hi d hd
  obtain rfl : i = 0 := by simpa [oneByteFile] using hi
  by_cases h : d = [97]
  · exact h
  · have hz : Torrent.pieceHash sha1OfA d = [0, 0, 0, 0, 0].flatMap writeAsBE32 := by
      simp [Torrent.pieceHash, sha1OfA, h]
    rw [hz] at hd
    exact absurd hd (by decide)

/-- The download of the byte `a`. -/
theorem download_integrity_oneByte : oneByteDone.torrent.file.take 1 = [97] :=
  (download_integrity describes_oneByte collisionFree_oneByte oneByteDone_reachable).2
    (by decide +kernel)

end YTorrent
