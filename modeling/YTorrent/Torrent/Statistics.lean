import Mathlib.Algebra.BigOperators.Intervals
import YTorrent.Torrent.Integrity
import YTorrent.Torrent.Tracker

/-!
# The numbers in the statistics

`Torrent::buildTrackerQuery` adds up the sizes of the finished pieces, while
`handlePieceCompleted` keeps `downloadedBytes`, to which it adds the size of the buffer
a peer has sent; `calculateETA` subtracts the one from the total and the tracker is told
the other.

* `Ledger.Accounts`: `downloadedBytes` is the sum of the sizes of the finished pieces.
* `statistics`: the two agree in every reachable state of a download, what is left to
  download is the sum of the sizes of the other pieces, and no subtraction wraps around.
-/

namespace YTorrent

open Slice Finset

/-- `remaining_size` of `Torrent::calculateETA` (torrent.cpp line 428), the difference of
    two values of type `size_t`. -/
def Torrent.remainingSize (t : Torrent) : ℕ := u64 (t.totalSize + 2 ^ 64 - t.downloadedBytes)

/-- The sum of the sizes of the finished pieces. -/
def Torrent.finishedBytes (t : Torrent) : ℕ :=
  ∑ i ∈ range t.pieces.length with t.isFinished i = true, t.pieceSize i

/-- The sum of the sizes of the other pieces. -/
def Torrent.unfinishedBytes (t : Torrent) : ℕ :=
  ∑ i ∈ range t.pieces.length with ¬ t.isFinished i = true, t.pieceSize i

/-- A difference of two `size_t` values does not wrap around when it is not negative. -/
theorem u64_sub {a b : ℕ} (ha : a < 2 ^ 64) (hb : b ≤ a) : u64 (a + 2 ^ 64 - b) = a - b := by
  unfold u64
  omega

/-- Setting a clear entry adds its value to the sum over the entries that are set. -/
theorem sum_set_true {l : List Bool} {i : ℕ} (h : l[i]? = some false) (g : ℕ → ℕ) :
    ∑ k ∈ range l.length with (l.set i true)[k]? = some true, g k =
      (∑ k ∈ range l.length with l[k]? = some true, g k) + g i := by
  have hi : i < l.length := (List.getElem?_eq_some_iff.mp h).1
  have hset : (range l.length).filter (fun k => (l.set i true)[k]? = some true) =
      insert i ((range l.length).filter fun k => l[k]? = some true) := by
    ext k
    simp only [mem_filter, mem_range, mem_insert, List.getElem?_set]
    by_cases hk : i = k
    · subst hk
      simp [hi]
    · simp [hk, Ne.symm hk]
  have hnew : i ∉ (range l.length).filter fun k => l[k]? = some true := by
    simp [h]
  rw [hset, sum_insert hnew, Nat.add_comm]

variable {sha1 : List Byte → List ℕ} {f : ParsedFile} {C : List Byte} {w : World}

namespace Ledger

/-- The bytes counted as downloaded are those of the finished pieces. -/
def Accounts (f : ParsedFile) (C : List Byte) (d : Ledger) : Prop :=
  d.downloadedBytes = ∑ i ∈ range d.finished.length with d.finished[i]? = some true,
    (chunk C f.pieceLength i).length

/-- A buffer that is stored is the chunk of its piece, which was not counted before. -/
theorem Accounts.step (hd : Describes sha1 f C) (hfree : CollisionFree sha1 f C) {d d' : Ledger}
    (hs : Step sha1 d d') (hh : d.Holds f C) (h : d.Accounts f C) : d'.Accounts f C := by
  cases hs with
  | missed => exact h
  | lost => exact h
  | stored index data hash hopen =>
    obtain ⟨-, rfl, -⟩ := hh.of_matches hd hfree hash
    let finished := d.finished.set index true
    show d.downloadedBytes + (chunk C f.pieceLength index).length =
      ∑ i ∈ range finished.length with finished[i]? = some true, (chunk C f.pieceLength i).length
    rw [List.length_set, sum_set_true hopen, ← h]

end Ledger

theorem accounts_start (f : ParsedFile) (C : List Byte) : f.start.ledger.Accounts f C := by
  refine (sum_eq_zero fun i hi => ?_).symm
  have hset := (mem_filter.mp hi).2
  rw [start_ledger_finished, List.getElem?_replicate] at hset
  split at hset <;> cases hset

theorem Reachable.accounts (hd : Describes sha1 f C) (hfree : CollisionFree sha1 f C)
    (h : Reachable sha1 f w) : w.ledger.Accounts f C := by
  have hboth : w.ledger.Holds f C ∧ w.ledger.Accounts f C :=
    ledger_invariant (I := fun d => d.Holds f C ∧ d.Accounts f C)
      (fun d d' hs hI => ⟨hI.1.step hd hfree hs, hI.2.step hd hfree hs hI.1⟩) h
      ⟨holds_start f C, accounts_start f C⟩
  exact hboth.2

/-- The sizes of the pieces are those of the chunks in every reachable state. -/
theorem Reachable.pieceSize_eq (hd : Describes sha1 f C) (h : Reachable sha1 f w) {i : ℕ}
    (hi : i < f.hashes.length) : w.torrent.pieceSize i = (chunk C f.pieceLength i).length := by
  have hstart : w.torrent.pieceSize i = f.start.torrent.pieceSize i := by
    refine pieceSize_congr ?_ h.layout.2.1 h.layout.2.2 i
    rw [h.length_pieces]
    exact (List.length_map _).symm
  rw [hstart, hd.pieceSize_eq hi, length_chunk]

/-- `downloadedBytes` is the sum of the sizes of the finished pieces. -/
theorem Reachable.downloadedBytes_eq (hd : Describes sha1 f C) (hfree : CollisionFree sha1 f C)
    (h : Reachable sha1 f w) : w.torrent.downloadedBytes = w.torrent.finishedBytes := by
  have hlen : w.ledger.finished.length = w.torrent.pieces.length := List.length_map _
  have hacc : w.torrent.downloadedBytes = ∑ i ∈ range w.ledger.finished.length with _, _ :=
    h.accounts hd hfree
  rw [hacc, hlen]
  refine sum_congr (filter_congr fun i _ => (isFinished_iff w i).symm) fun i hi => ?_
  have hlt := mem_range.mp (mem_filter.mp hi).1
  rw [h.length_pieces] at hlt
  exact (h.pieceSize_eq hd hlt).symm

/-- The finished and the other pieces add up to the content. -/
theorem Reachable.sum_bytes (hd : Describes sha1 f C) (h : Reachable sha1 f w) :
    w.torrent.finishedBytes + w.torrent.unfinishedBytes = C.length := by
  have hlayout := h.layout
  have hpos : 0 < w.torrent.pieceLength := by
    rw [show w.torrent.pieceLength = f.pieceLength from hlayout.2.1]
    exact hd.pieceLength_pos
  have htotal : w.torrent.totalSize = C.length := hlayout.2.2.trans hd.totalSize
  have hpieces : w.torrent.pieces.length =
      (w.torrent.totalSize + w.torrent.pieceLength - 1) / w.torrent.pieceLength := by
    rw [h.length_pieces, hd.hashes_length, htotal,
      show w.torrent.pieceLength = f.pieceLength from hlayout.2.1,
      Nat.add_sub_assoc hd.pieceLength_pos]
  have hall := sum_pieceSize hpos hpieces
  rw [htotal] at hall
  rw [Torrent.finishedBytes, Torrent.unfinishedBytes, sum_filter_add_sum_filter_not, ← hall]
  rfl

/-- What `buildTrackerQuery` adds up. -/
theorem Torrent.sum_finished (t : Torrent) :
    (((List.range t.pieces.length).filter t.isFinished).map t.pieceSize).sum = t.finishedBytes := by
  have hnodup : ((List.range t.pieces.length).filter t.isFinished).Nodup :=
    List.nodup_range.filter _
  have hset : ((List.range t.pieces.length).filter t.isFinished).toFinset =
      (range t.pieces.length).filter fun i => t.isFinished i = true := by
    ext i
    simp
  rw [← List.sum_toFinset _ hnodup, hset]
  rfl

/-- A piece that is left counts for at least one byte. -/
theorem Torrent.unfinishedBytes_eq_zero {t : Torrent} (hpos : 0 < t.pieceLength) :
    t.unfinishedBytes = 0 ↔ ∀ i < t.pieces.length, t.isFinished i = true := by
  rw [Torrent.unfinishedBytes, sum_eq_zero_iff]
  constructor
  · intro h i hi
    by_contra hopen
    have hzero := h i (mem_filter.mpr ⟨mem_range.mpr hi, hopen⟩)
    exact absurd hzero (pieceSize_pos hpos i).ne'
  · intro h i hi
    obtain ⟨hlt, hopen⟩ := mem_filter.mp hi
    exact absurd (h i (mem_range.mp hlt)) hopen

/-- In every reachable state of the download of the content `C`, `buildTrackerQuery`
    reports the sizes of the finished pieces as downloaded, which is `downloadedBytes`
    and at most the length of `C`, and those of the other pieces as remaining. No
    difference wraps around, the two add up to the content, and nothing remains exactly
    when every piece is finished. -/
theorem statistics (hd : Describes sha1 f C) (hfree : CollisionFree sha1 f C)
    (h : Reachable sha1 f w) (event : TrackerEvent) :
    w.torrent.pieces.length = (C.length + (f.pieceLength - 1)) / f.pieceLength ∧
      (w.torrent.buildTrackerQuery event).downloaded = w.torrent.finishedBytes ∧
      (w.torrent.buildTrackerQuery event).downloaded = w.torrent.downloadedBytes ∧
      w.torrent.downloadedBytes ≤ C.length ∧
      (w.torrent.buildTrackerQuery event).remaining = w.torrent.unfinishedBytes ∧
      w.torrent.downloadedBytes ≤ w.torrent.totalSize ∧
      (w.torrent.buildTrackerQuery event).remaining =
        w.torrent.totalSize - (w.torrent.buildTrackerQuery event).downloaded ∧
      (w.torrent.buildTrackerQuery event).downloaded +
        (w.torrent.buildTrackerQuery event).remaining = C.length ∧
      ((w.torrent.buildTrackerQuery event).remaining = 0 ↔
        ∀ i < w.torrent.pieces.length, w.torrent.isFinished i = true) ∧
      w.torrent.remainingSize = w.torrent.totalSize - w.torrent.downloadedBytes := by
  have hcounted := h.downloadedBytes_eq hd hfree
  have hsum := h.sum_bytes hd
  have hlt : C.length < 2 ^ 64 := hd.totalSize ▸ hd.totalSize_lt
  have htotal : w.torrent.totalSize = C.length := h.layout.2.2.trans hd.totalSize
  have hpos : 0 < w.torrent.pieceLength := by
    rw [show w.torrent.pieceLength = f.pieceLength from h.layout.2.1]
    exact hd.pieceLength_pos
  have hle : w.torrent.finishedBytes ≤ C.length := by omega
  have hdown : (w.torrent.buildTrackerQuery event).downloaded = w.torrent.finishedBytes := by
    show u64 _ = _
    rw [w.torrent.sum_finished]
    exact u64_of_lt (hle.trans_lt hlt)
  have hrest : (w.torrent.buildTrackerQuery event).remaining =
      w.torrent.totalSize - w.torrent.finishedBytes := by
    show u64 (_ + _ - (w.torrent.buildTrackerQuery event).downloaded) = _
    rw [hdown, htotal]
    exact u64_sub hlt hle
  have hrem : (w.torrent.buildTrackerQuery event).remaining = w.torrent.unfinishedBytes := by
    rw [hrest, htotal]
    omega
  refine ⟨h.length_pieces.trans hd.hashes_length, hdown, hdown.trans hcounted.symm,
    hcounted ▸ hle, hrem, ?_, ?_, ?_, ?_, ?_⟩
  · rw [htotal, hcounted]
    exact hle
  · rw [hrest, hdown]
  · rw [hdown, hrem]
    exact hsum
  · rw [hrem]
    exact Torrent.unfinishedBytes_eq_zero hpos
  · rw [Torrent.remainingSize, htotal, hcounted]
    exact u64_sub hlt hle

/-! ## Two pieces, one of them finished -/

/-- SHA-1 on `"ab"` and `"c"`. -/
def sha1OfAbc (data : List Byte) : List ℕ :=
  if data = [97, 98] then [0xda23614e, 0x02469a0d, 0x7c7bd1bd, 0xab5c9c47, 0x4b1904dc]
  else if data = [99] then [0x84a51684, 0x1ba77a5b, 0x4648de2c, 0xd0dfcb30, 0xea46dbb4]
  else [0, 0, 0, 0, 0]

/-- A file that holds `"abc"`, in pieces of two bytes. -/
def abcFile : ParsedFile where
  hashes := [Torrent.pieceHash sha1OfAbc [97, 98], Torrent.pieceHash sha1OfAbc [99]]
  pieceLength := 2
  totalSize := 3
  file := []
  handshake := zeroHandshake

theorem describes_abc : Describes sha1OfAbc abcFile [97, 98, 99] where
  pieceLength_pos := by decide
  totalSize := rfl
  totalSize_lt := by decide
  hashes_length := rfl
  hashes i hi := by
    match i, hi with
    | 0, _ => decide +kernel
    | 1, _ => decide +kernel

theorem collisionFree_abc : CollisionFree sha1OfAbc abcFile [97, 98, 99] := by
  intro i hi d hd
  have hchunk : chunk ([97, 98, 99] : List Byte) abcFile.pieceLength i = [97, 98] ∨
      chunk ([97, 98, 99] : List Byte) abcFile.pieceLength i = [99] := by
    match i, hi with
    | 0, _ => exact .inl (by decide)
    | 1, _ => exact .inr (by decide)
  generalize chunk ([97, 98, 99] : List Byte) abcFile.pieceLength i = c at hd hchunk ⊢
  by_cases hab : d = [97, 98]
  · subst hab
    rcases hchunk with rfl | rfl
    · rfl
    · exact absurd hd (by decide +kernel)
  by_cases hc : d = [99]
  · subst hc
    rcases hchunk with rfl | rfl
    · exact absurd hd (by decide +kernel)
    · rfl
  have hz : Torrent.pieceHash sha1OfAbc d = [0, 0, 0, 0, 0].flatMap writeAsBE32 := by
    simp [Torrent.pieceHash, sha1OfAbc, hab, hc]
  rw [hz] at hd
  rcases hchunk with rfl | rfl <;> exact absurd hd (by decide +kernel)

/-- A peer with both pieces sends the first one. -/
def abcRun : List Label :=
  [.accepted (some 1), .handshake 0 zeroHandshake, .frame 0 5 [192] {}, .frame 0 1 [] {},
    .frame 0 7 [0, 0, 0, 0, 0, 0, 0, 0, 97, 98] {}]

/-- Two bytes are downloaded, and the short last piece remains. -/
theorem statistics_abc : ∃ w, Runs.exec (step sha1OfAbc) abcFile.start abcRun = some w ∧
    w.torrent.downloadedBytes = 2 ∧
    (w.torrent.buildTrackerQuery .none).downloaded = w.torrent.downloadedBytes ∧
    (w.torrent.buildTrackerQuery .none).downloaded +
      (w.torrent.buildTrackerQuery .none).remaining = 3 := by
  have hrun : ((Runs.exec (step sha1OfAbc) abcFile.start abcRun).map fun w =>
      decide (w.torrent.downloadedBytes = 2)) = some true := by
    decide +kernel
  obtain ⟨w, hw, hbytes⟩ := Option.map_eq_some_iff.mp hrun
  obtain ⟨-, -, hdown, -, -, -, -, hsum, -⟩ :=
    statistics describes_abc collisionFree_abc ⟨_, hw⟩ .none
  exact ⟨w, hw, of_decide_eq_true hbytes, hdown, hsum⟩

end YTorrent
