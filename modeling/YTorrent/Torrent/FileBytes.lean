import YTorrent.Torrent.Integrity

/-!
# The bytes of the target file

`Torrent::parseFile` opens an existing target file without truncating it, and
`Torrent::handlePieceCompleted` writes the pieces in the order in which they are
completed, some of them only in part when `fwrite` fails. `ByteSound` says what a
position of the file can hold then, finished piece or not.

* `file_bytes`: in every reachable state every position of the file holds its old
  byte or, inside the content only, the byte of the content or the zero of a gap;
  the file never shrinks, and never grows beyond the content.
-/

namespace YTorrent

open Slice

/-- Position `k` of `file` holds what it held before the download. Inside the
    content it may also hold the byte of the content, or a zero if the file ended
    before it. -/
def ByteSound (f : ParsedFile) (C file : List Byte) (k : ℕ) : Prop :=
  file[k]? = f.file[k]? ∨
    k < C.length ∧ (file[k]? = C[k]? ∨ f.file.length ≤ k ∧ file[k]? = some 0)

variable {sha1 : List Byte → List ℕ} {f : ParsedFile} {C file : List Byte} {w : World} {k : ℕ}

/-- A position behind the end of the file was there before. -/
theorem ByteSound.length_le (h : ByteSound f C file k) (hk : file.length ≤ k) :
    f.file.length ≤ k := by
  have hnone : file[k]? = none := List.getElem?_eq_none hk
  rcases h with h | ⟨hC, h | ⟨hle, -⟩⟩
  · rw [hnone] at h
    exact List.getElem?_eq_none_iff.mp h.symm
  · rw [hnone, List.getElem?_eq_getElem hC] at h
    cases h
  · exact hle

/-- Writing any initial part of a chunk at its place keeps every position sound. -/
theorem ByteSound.overwrite (h : ∀ k, ByteSound f C file k) (n i m k : ℕ) :
    ByteSound f C (overwrite 0 file (i * n) ((chunk C n i).take m)) k := by
  by_cases hd : (chunk C n i).take m = []
  · rw [hd, Slice.overwrite, if_pos rfl]
    exact h k
  · have hlen : ((chunk C n i).take m).length = min m (min n (C.length - i * n)) := by
      rw [List.length_take, length_chunk]
    have hpos : 0 < ((chunk C n i).take m).length := List.length_pos_iff.mpr hd
    unfold ByteSound
    rw [getElem?_overwrite hd]
    by_cases hbefore : k < i * n
    · rw [if_pos hbefore]
      by_cases hk : k < file.length
      · rw [if_pos hk]
        exact h k
      · -- the gap between the old end and the piece
        rw [if_neg hk]
        exact .inr ⟨by omega, .inr ⟨(h k).length_le (by omega), rfl⟩⟩
    · rw [if_neg hbefore]
      by_cases hin : k < i * n + ((chunk C n i).take m).length
      · rw [if_pos hin]
        refine .inr ⟨by omega, .inl ?_⟩
        rw [List.getElem?_take, if_pos (by omega), chunk, getElem?_slice, if_pos (by omega)]
        congr 1
        omega
      · rw [if_neg hin]
        exact h k

/-- Every write of the ledger is of a chunk, whole or in part. -/
theorem Ledger.Holds.byteSound (hd : Describes sha1 f C) (hfree : CollisionFree sha1 f C)
    {d d' : Ledger} (hs : Ledger.Step sha1 d d') (hh : d.Holds f C)
    (h : ∀ k, ByteSound f C d.file k) (k : ℕ) : ByteSound f C d'.file k := by
  cases hs with
  | missed => exact h k
  | lost index data file hash hopen hfile =>
    obtain ⟨-, rfl, hpos⟩ := hh.of_matches hd hfree hash
    show ByteSound f C file k
    rcases hfile with rfl | ⟨-, m, rfl⟩
    · exact h k
    · rw [hpos]
      exact ByteSound.overwrite h f.pieceLength index m k
  | stored index data hash =>
    obtain ⟨-, rfl, hpos⟩ := hh.of_matches hd hfree hash
    have hall := ByteSound.overwrite h f.pieceLength index
      (chunk C f.pieceLength index).length k
    rw [List.take_length, ← hpos] at hall
    exact hall

theorem Reachable.byteSound (hd : Describes sha1 f C) (hfree : CollisionFree sha1 f C)
    (h : Reachable sha1 f w) (k : ℕ) : ByteSound f C w.torrent.file k := by
  have hboth : w.ledger.Holds f C ∧ ∀ k, ByteSound f C w.ledger.file k :=
    ledger_invariant (I := fun d => d.Holds f C ∧ ∀ k, ByteSound f C d.file k)
      (fun d d' hs hI => ⟨hI.1.step hd hfree hs, hI.1.byteSound hd hfree hs hI.2⟩) h
      ⟨holds_start f C, fun k => .inl rfl⟩
  exact hboth.2 k

/-- The file grows no further than the content. -/
theorem Reachable.length_file_le (hd : Describes sha1 f C) (hfree : CollisionFree sha1 f C)
    (h : Reachable sha1 f w) : w.torrent.file.length ≤ max f.file.length C.length := by
  by_contra hlong
  have hlt : max f.file.length C.length < w.torrent.file.length := not_le.mp hlong
  rcases h.byteSound hd hfree (max f.file.length C.length) with hb | ⟨hC, -⟩
  · rw [List.getElem?_eq_getElem hlt, List.getElem?_eq_none (Nat.le_max_left ..)] at hb
    cases hb
  · exact absurd hC (not_lt.mpr (Nat.le_max_right ..))

/-- In every reachable state, whatever the peers have sent and wherever a write has
    failed: every position of the file holds its old byte or, inside the content, the
    byte of the content or the zero of a gap; and the file is as long as it was, or
    longer, but not longer than the content. -/
theorem file_bytes (hd : Describes sha1 f C) (hfree : CollisionFree sha1 f C)
    (h : Reachable sha1 f w) : (∀ k, ByteSound f C w.torrent.file k) ∧
      f.file.length ≤ w.torrent.file.length ∧
      w.torrent.file.length ≤ max f.file.length C.length :=
  ⟨h.byteSound hd hfree, (h.byteSound hd hfree w.torrent.file.length).length_le le_rfl,
    h.length_file_le hd hfree⟩

/-- The download of the byte `a` into an empty file. -/
theorem file_bytes_oneByte : oneByteDone.torrent.file.length ≤ 1 :=
  (file_bytes describes_oneByte collisionFree_oneByte oneByteDone_reachable).2.2

end YTorrent
