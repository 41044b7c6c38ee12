import YTorrent.Torrent.Ledger

/-!
# The counters of a download agree

The fact that a piece is finished is kept four times: in `pieces[i].finished`, in
`bitfield`, in `completedPieces` and in `downloadedBytes`. `Ledger.Consistent`
says how they and the record of completed buffers fit together; every step of the
ledger preserves it.

* `bookkeeping`: the agreement in every reachable state, and that a finished
  piece stays finished.
-/

namespace YTorrent

/-- The number of buffers that completed piece `i`. -/
def storedCount (attempts : List Attempt) (i : ℕ) : ℕ :=
  attempts.countP fun a => a.index == i && a.result == .stored

/-- The total size of the buffers that completed a piece. -/
def storedBytes (attempts : List Attempt) : ℕ :=
  ((attempts.filter fun a => a.result == .stored).map (·.data.length)).sum

/-- The total size of the buffers whose write did not fail. -/
def keptBytes (attempts : List Attempt) : ℕ :=
  ((attempts.filter fun a => a.result != .ioFailed).map (·.data.length)).sum

namespace Ledger

/-- The four records of a finished piece and the record of attempts agree. -/
structure Consistent (d : Ledger) : Prop where
  bits : d.bitfield = d.finished
  completed : d.completedPieces = d.finished.count true
  once : ∀ i, storedCount d.attempts i = if d.finished[i]? = some true then 1 else 0
  downloaded : d.downloadedBytes = storedBytes d.attempts
  kept : d.downloadedBytes + d.wastedBytes = keptBytes d.attempts

/-- Setting a clear bit of a list adds one to its count. -/
theorem count_set_true {l : List Bool} {i : ℕ} (h : l[i]? = some false) :
    (l.set i true).count true = l.count true + 1 := by
  obtain ⟨hi, hv⟩ := List.getElem?_eq_some_iff.mp h
  rw [List.count_set hi, hv]
  simp

theorem storedCount_append (as : List Attempt) (a : Attempt) (i : ℕ) :
    storedCount (as ++ [a]) i =
      storedCount as i + if a.index = i ∧ a.result = .stored then 1 else 0 := by
  unfold storedCount
  rw [List.countP_append, List.countP_singleton]
  simp

theorem storedBytes_append (as : List Attempt) (a : Attempt) : storedBytes (as ++ [a]) =
    storedBytes as + if a.result = .stored then a.data.length else 0 := by
  unfold storedBytes
  rw [List.filter_append, List.map_append, List.sum_append]
  by_cases h : a.result = .stored <;> simp [h]

theorem keptBytes_append (as : List Attempt) (a : Attempt) : keptBytes (as ++ [a]) =
    keptBytes as + if a.result = .ioFailed then 0 else a.data.length := by
  unfold keptBytes
  rw [List.filter_append, List.map_append, List.sum_append]
  by_cases h : a.result = .ioFailed <;> simp [h]

theorem Consistent.step {sha1 : List Byte → List ℕ} {d d' : Ledger} (hs : Step sha1 d d')
    (h : d.Consistent) : d'.Consistent := by
  cases hs with
  | missed index data =>
    refine ⟨h.bits, h.completed, fun i => ?_, ?_, ?_⟩
    · show storedCount (d.attempts ++ [⟨index, data, .mismatch⟩]) i =
        if d.finished[i]? = some true then 1 else 0
      rw [storedCount_append, ← h.once i]
      simp
    · simpa [Ledger.missed, storedBytes_append] using h.downloaded
    · have hk := h.kept
      simp only [Ledger.missed, keptBytes_append, reduceCtorEq, if_false]
      omega
  | lost index data file =>
    refine ⟨h.bits, h.completed, fun i => ?_, ?_, ?_⟩
    · show storedCount (d.attempts ++ [⟨index, data, .ioFailed⟩]) i =
        if d.finished[i]? = some true then 1 else 0
      rw [storedCount_append, ← h.once i]
      simp
    · simpa [Ledger.lost, storedBytes_append] using h.downloaded
    · simpa [Ledger.lost, keptBytes_append] using h.kept
  | stored index data hash hopen hpos =>
    refine ⟨?_, ?_, fun i => ?_, ?_, ?_⟩
    · simp [Ledger.stored, h.bits]
    · simp [Ledger.stored, h.completed, count_set_true hopen]
    · have ho := h.once i
      have hlt : index < d.finished.length := (List.getElem?_eq_some_iff.mp hopen).1
      simp only [Ledger.stored, storedCount_append, and_true, List.getElem?_set]
      by_cases hi : index = i
      · -- the piece was open, so no buffer had completed it
        subst hi
        simp only [hopen, hlt] at ho ⊢
        simpa using ho
      · simpa [hi] using ho
    · simp [Ledger.stored, storedBytes_append, h.downloaded]
    · have hk := h.kept
      simp only [Ledger.stored, keptBytes_append, reduceCtorEq, if_false]
      omega

/-- A finished piece stays finished. -/
theorem finished_step {sha1 : List Byte → List ℕ} {d d' : Ledger} (hs : Step sha1 d d') {i : ℕ}
    (h : d.finished[i]? = some true) : d'.finished[i]? = some true := by
  cases hs with
  | missed => exact h
  | lost => exact h
  | stored index data =>
    have hi : i < d.finished.length := (List.getElem?_eq_some_iff.mp h).1
    simp only [Ledger.stored, List.getElem?_set]
    by_cases hk : index = i
    · simp [hk, hi]
    · simpa [hk] using h

end Ledger

/-! ## The client -/

variable {sha1 : List Byte → List ℕ} {f : ParsedFile} {w w' : World}

theorem isFinished_iff (w : World) (i : ℕ) :
    w.torrent.isFinished i = true ↔ w.ledger.finished[i]? = some true := by
  rw [isFinished_eq]
  show _ ↔ (w.torrent.pieces.map (·.finished))[i]? = some true
  cases (w.torrent.pieces.map (·.finished))[i]? <;> simp

theorem start_ledger_finished (f : ParsedFile) :
    f.start.ledger.finished = List.replicate f.hashes.length false := by
  simp [World.ledger, ParsedFile.start, Function.comp_def, List.map_const']

theorem consistent_start (f : ParsedFile) : f.start.ledger.Consistent where
  bits := (start_ledger_finished f).symm
  completed := by rw [start_ledger_finished, List.count_replicate]; rfl
  once i := by
    rw [start_ledger_finished, List.getElem?_replicate]
    by_cases hi : i < f.hashes.length <;> simp [hi] <;> rfl
  downloaded := rfl
  kept := rfl

theorem Reachable.consistent (h : Reachable sha1 f w) : w.ledger.Consistent :=
  ledger_invariant (fun _ _ hs => Ledger.Consistent.step hs) h (consistent_start f)

theorem isFinished_mono (h : Runs.Reaches (step sha1) w w') {i : ℕ}
    (hi : w.torrent.isFinished i = true) : w'.torrent.isFinished i = true := by
  rw [isFinished_iff] at hi ⊢
  exact ledger_invariant (I := fun d => d.finished[i]? = some true)
    (fun _ _ hs => Ledger.finished_step hs) h hi

theorem all_finished_of_completed (hc : w.ledger.Consistent)
    (h : w.torrent.completedPieces = w.torrent.pieces.length) {i : ℕ}
    (hi : i < w.ledger.finished.length) : w.ledger.finished[i]? = some true := by
  have hcount : w.ledger.finished.count true = w.ledger.finished.length := by
    rw [← hc.completed]
    show w.torrent.completedPieces = (w.torrent.pieces.map (·.finished)).length
    rw [List.length_map, h]
  rw [List.count_eq_length] at hcount
  rw [List.getElem?_eq_getElem hi, ← hcount _ (List.getElem_mem hi)]

/-- In every reachable state: a piece is finished iff its bit is set;
    `completedPieces` counts the finished pieces; exactly one buffer has
    completed each finished piece and none any other, and no later step makes a
    finished piece unfinished; `downloadedBytes` is the size of those buffers; and
    `downloadedBytes + wastedBytes` is the size of all buffers handed to
    `handlePieceCompleted` whose write did not fail. -/
theorem bookkeeping (h : Reachable sha1 f w) :
    (∀ i, w.torrent.isFinished i = true ↔ w.torrent.bitfield[i]? = some true) ∧
      w.torrent.completedPieces = w.torrent.pieces.countP (·.finished) ∧
      w.torrent.completedPieces ≤ w.torrent.pieces.length ∧
      (∀ i, storedCount w.attempts i = if w.torrent.isFinished i then 1 else 0) ∧
      (∀ w', Runs.Reaches (step sha1) w w' →
        ∀ i, w.torrent.isFinished i = true → w'.torrent.isFinished i = true) ∧
      w.torrent.downloadedBytes = storedBytes w.attempts ∧
      w.torrent.downloadedBytes + w.torrent.wastedBytes = keptBytes w.attempts := by
  have hc := h.consistent
  have hcount : w.torrent.completedPieces = w.torrent.pieces.countP (·.finished) := by
    have hmap := hc.completed
    simp only [World.ledger, List.count, List.countP_map] at hmap
    rw [hmap]
    congr 1
    funext x
    simp
  refine ⟨fun i => ?_, hcount, ?_, fun i => ?_, fun w' hw' i => isFinished_mono hw',
    hc.downloaded, hc.kept⟩
  · rw [isFinished_iff, ← hc.bits]
    rfl
  · rw [hcount]
    exact List.countP_le_length
  · simp only [isFinished_iff]
    exact hc.once i

/-- After the one-byte download. -/
theorem bookkeeping_oneByte : oneByteDone.torrent.completedPieces = 1 ∧
    (∀ i, storedCount oneByteDone.attempts i = if oneByteDone.torrent.isFinished i then 1 else 0) ∧
    oneByteDone.torrent.downloadedBytes = storedBytes oneByteDone.attempts :=
  have h := bookkeeping oneByteDone_reachable
  ⟨by decide +kernel, h.2.2.2.1, h.2.2.2.2.2.1⟩

end YTorrent
