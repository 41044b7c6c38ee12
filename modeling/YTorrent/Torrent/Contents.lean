import YTorrent.Torrent.InfoHash
import YTorrent.Torrent.Integrity

/-!
# Which torrent files describe a content

A download is that of a content `C` if the object `parseFile` leaves describes `C`
(`Describes`). Here this is traced back to the values in the torrent file.

* `copyHashes_flatten`: the hashes that are copied, put together, are the string in the file,
  or the string and the byte behind it.
* `describes_iff`: an accepted file describes `C` exactly when its sizes are those of `C` and
  its string of hashes is the digests of the pieces of `C`, of which it may lack the last
  byte if that is a zero.
-/

namespace YTorrent

open Slice

/-- The digests of the pieces of `C` of length `n`, one behind the other. -/
def digests (sha1 : List Byte → List ℕ) (C : List Byte) (n : ℕ) : List Byte :=
  ((List.range ((C.length + (n - 1)) / n)).map fun i =>
    Torrent.pieceHash sha1 (chunk C n i)).flatten

/-- The values in the file are about `C`. -/
structure Fields.About (sha1 : List Byte → List ℕ) (v : Fields) (length : Int64)
    (C : List Byte) : Prop where
  pieceLength_pos : 0 < sizeT v.pieceLength
  length : sizeT length = C.length
  piecesStr : v.piecesStr = digests sha1 C (sizeT v.pieceLength) ∨
    v.piecesStr ++ [0] = digests sha1 C (sizeT v.pieceLength)

variable {decode : List Byte → Option BItem} {encode : BItem → List Byte}
  {sha1 : List Byte → List ℕ} {disk : Disk} {data C : List Byte} {t : Metainfo} {v : Fields}
  {length : Int64}

/-! ## The string of hashes -/

/-- The loop copies 20 bytes at a time, at its end the byte behind the string if that is the
    only one missing. -/
theorem copyHashes_flatten {count : ℕ} : ∀ {piecesStr : List Byte} {hashes : List (List Byte)},
    piecesStr.length ≤ count * 20 → count * 20 < piecesStr.length + 20 →
    copyHashes count piecesStr = .ok hashes →
      hashes.map List.length = List.replicate count 20 ∧
        (hashes.flatten = piecesStr ∨ hashes.flatten = piecesStr ++ [0]) := by
  induction count with
  | zero =>
    intro piecesStr hashes hle _ h
    cases h
    rw [Nat.zero_mul] at hle
    rw [List.length_eq_zero_iff.mp (Nat.le_zero.mp hle)]
    exact ⟨rfl, .inl rfl⟩
  | succ count ih =>
    intro piecesStr hashes hle hlt h
    rw [copyHashes] at h
    split at h
    · cases h
    rename_i hlong
    obtain ⟨rest, hrest, h⟩ := bind_eq_ok.mp h
    cases h
    have hdrop : (piecesStr.drop 20).length = piecesStr.length - 20 := List.length_drop
    obtain ⟨hlen, hflat⟩ := ih (by omega) (by omega) hrest
    have htake : ((piecesStr ++ [0]).take 20).length = 20 := by
      rw [List.length_take, List.length_append, List.length_singleton]
      omega
    refine ⟨?_, ?_⟩
    · rw [List.map_cons, htake, hlen, List.replicate_succ]
    · rw [List.flatten_cons]
      by_cases hwhole : 20 ≤ piecesStr.length
      · have hsplit : (piecesStr ++ [0]).take 20 ++ piecesStr.drop 20 = piecesStr := by
          rw [List.take_append_of_le_length hwhole, List.take_append_drop]
        rcases hflat with hflat | hflat
        · left
          rw [hflat, hsplit]
        · right
          rw [hflat, ← List.append_assoc, hsplit]
      · -- the last hash ends behind the string
        obtain rfl : count = 0 := by omega
        cases hrest
        right
        rw [List.take_of_length_le (by rw [List.length_append, List.length_singleton]; omega),
          List.flatten_nil, List.append_nil]

theorem length_flatten_hashes {hashes : List (List Byte)} {m : ℕ}
    (h : hashes.map List.length = List.replicate m 20) : hashes.flatten.length = m * 20 := by
  rw [List.length_flatten, h, List.sum_replicate_nat]

/-- Lists of hashes with the same bytes are the same. -/
theorem eq_of_flatten {hashes hashes' : List (List Byte)} {m m' : ℕ}
    (hlen : hashes.map List.length = List.replicate m 20)
    (hlen' : hashes'.map List.length = List.replicate m' 20)
    (h : hashes.flatten = hashes'.flatten) : hashes = hashes' := by
  have hm : m = m' := by
    have hbytes := congrArg List.length h
    rw [length_flatten_hashes hlen, length_flatten_hashes hlen'] at hbytes
    omega
  subst hm
  exact List.eq_iff_flatten_eq.mpr ⟨h, hlen.trans hlen'.symm⟩

/-- The digests are as long as the hashes in the object. -/
theorem map_length_digests (hsha1 : ∀ d, (sha1 d).length = 5) (C : List Byte) (n m : ℕ) :
    ((List.range m).map fun i => Torrent.pieceHash sha1 (chunk C n i)).map List.length =
      List.replicate m 20 := by
  rw [List.map_map]
  refine List.eq_replicate_iff.mpr ⟨by simp, fun k hk => ?_⟩
  obtain ⟨i, -, rfl⟩ := List.mem_map.mp hk
  simp [Torrent.pieceHash, List.length_flatMap, hsha1]

/-- The hashes that are copied are the digests exactly when the string is, or lacks the last
    byte of them, a zero. -/
theorem hashes_eq_iff (hsha1 : ∀ d, (sha1 d).length = 5) {piecesStr : List Byte}
    {hashes : List (List Byte)} {n : ℕ}
    (hcopy : copyHashes ((piecesStr.length + 19) / 20) piecesStr = .ok hashes) :
    hashes = (List.range ((C.length + (n - 1)) / n)).map
        (fun i => Torrent.pieceHash sha1 (chunk C n i)) ↔
      piecesStr = digests sha1 C n ∨ piecesStr ++ [0] = digests sha1 C n := by
  obtain ⟨hlen, hflat⟩ := copyHashes_flatten (by omega) (by omega) hcopy
  have hdigests := map_length_digests hsha1 C n ((C.length + (n - 1)) / n)
  constructor
  · rintro rfl
    exact hflat.imp Eq.symm Eq.symm
  · intro h
    refine eq_of_flatten hlen hdigests ?_
    -- a string that ends in the middle of a hash is not read as one that does not
    have hlen₁ := length_flatten_hashes hlen
    have hlen₂ := length_flatten_hashes hdigests
    rcases hflat with hflat | hflat
    · rcases h with h | h
      · rw [hflat, h, digests]
      · have heq := congrArg List.length h
        rw [List.length_append, List.length_singleton, digests, hlen₂, ← hflat, hlen₁] at heq
        omega
    · rcases h with h | h
      · have heq := congrArg List.length h
        rw [digests, hlen₂] at heq
        rw [hflat, List.length_append, List.length_singleton, heq] at hlen₁
        omega
      · rw [hflat, h, digests]

/-! ## The file -/

/-- What `SUCCESS` leaves. -/
theorem parseFile_success (h : parseFile decode encode sha1 disk (some data) = .ok (.success, t)) :
    ∃ v : Fields, v.Of decode data ∧
      ∃ length, lookup v.infoDict "length" = some (.integer length) ∧
        copyHashes ((v.piecesStr.length + 19) / 20) v.piecesStr = .ok t.parsed.hashes ∧
        t.parsed.pieceLength = sizeT v.pieceLength ∧ t.parsed.totalSize = sizeT length := by
  obtain ⟨v, hv, hashes, hcopy, hopen⟩ := parseFile_eq_ok.mp h
  have hopen := openTarget_eq_ok.mp hopen
  split at hopen
  · cases hopen
  · obtain ⟨length, hlength, hres⟩ := hopen
    split at hres
    · cases hres
    · cases hres
      refine ⟨v, hv, length, hlength, ?_, rfl, rfl⟩
      rw [hcopy]
      simp [Metainfo.parsed, Metainfo.opened, Fields.metainfo, Function.comp_def]

/-- A file has these values once. -/
theorem Fields.Of.unique {v' : Fields} (h : v.Of decode data) (h' : v'.Of decode data) :
    v = v' :=
  Except.ok.inj ((readFields_eq_ok.mpr h).symm.trans (readFields_eq_ok.mpr h'))

/-- The hashes of a described content, as a list. -/
theorem describes_iff_hashes {f : ParsedFile} : Describes sha1 f C ↔ 0 < f.pieceLength ∧
    f.totalSize = C.length ∧ f.totalSize < 2 ^ 64 ∧
      f.hashes = (List.range ((C.length + (f.pieceLength - 1)) / f.pieceLength)).map
        fun i => Torrent.pieceHash sha1 (chunk C f.pieceLength i) := by
  constructor
  · intro h
    refine ⟨h.pieceLength_pos, h.totalSize, h.totalSize_lt, ?_⟩
    refine List.ext_getElem (by simp [h.hashes_length]) fun i hi _ => ?_
    rw [List.getElem_map, List.getElem_range]
    exact (List.getElem?_eq_some_iff.mp (h.hashes i hi)).2
  · rintro ⟨hpos, htotal, hlt, hhashes⟩
    refine ⟨hpos, htotal, hlt, by simp [hhashes], fun i hi => ?_⟩
    rw [List.getElem?_eq_getElem hi]
    simp [hhashes]

/-- An accepted file describes `C` exactly when its values are about `C`. -/
theorem describes_iff (hsha1 : ∀ d, (sha1 d).length = 5)
    (h : parseFile decode encode sha1 disk (some data) = .ok (.success, t)) :
    Describes sha1 t.parsed C ↔ ∃ (v : Fields) (length : Int64), v.Of decode data ∧
      lookup v.infoDict "length" = some (.integer length) ∧ v.About sha1 length C := by
  obtain ⟨v, hv, length, hlength, hcopy, hpl, hts⟩ := parseFile_success h
  have hhashes := hashes_eq_iff (C := C) (n := sizeT v.pieceLength) hsha1 hcopy
  have hlt : sizeT length < 2 ^ 64 := length.toBitVec.isLt
  rw [describes_iff_hashes, hpl, hts, hhashes]
  constructor
  · rintro ⟨hpos, htotal, -, hstr⟩
    exact ⟨v, length, hv, hlength, hpos, htotal, hstr⟩
  · rintro ⟨v', length', hv', hlength', habout⟩
    obtain rfl := hv.unique hv'
    rw [hlength] at hlength'
    obtain rfl := BItem.integer.inj (Option.some.inj hlength')
    exact ⟨habout.pieceLength_pos, habout.length, hlt, habout.piecesStr⟩

/-! ## A file of one byte -/

theorem length_sha1OfA (data : List Byte) : (sha1OfA data).length = 5 := by
  unfold sha1OfA
  split <;> rfl

/-- The info dictionary of a file that holds the byte `a`. -/
def oneByteEntries : Bencoded .entries :=
  .entry ⟨0, ascii "length"⟩ (.integer (.plain 1))
    (.entry ⟨0, ascii "name"⟩ (.string ⟨0, ascii "x"⟩)
      (.entry ⟨0, ascii "piece length"⟩ (.integer (.plain 1))
        (.entry ⟨0, ascii "pieces"⟩ (.string ⟨0, Torrent.pieceHash sha1OfA [97]⟩) .noEntry)))

/-- The file is accepted and describes the byte. -/
theorem describes_oneByteEntries :
    ∃ t, parseFile (decodeText (fileOf oneByteEntries)) encodeText sha1OfA emptyDisk
        (some (fileOf oneByteEntries).write) = .ok (.success, t) ∧
      Describes sha1OfA t.parsed [97] := by
  have hrun : (parseFile (decodeText (fileOf oneByteEntries)) encodeText sha1OfA emptyDisk
      (some (fileOf oneByteEntries).write)).toOption.any (fun r => r.1 == .success) = true := by
    decide +kernel
  obtain ⟨⟨result, t⟩, hparse, hresult⟩ := exists_ok_of_any hrun
  obtain rfl := eq_of_beq hresult
  refine ⟨t, hparse, (describes_iff length_sha1OfA hparse).mpr ?_⟩
  obtain ⟨v, hv, length, hlength, -⟩ := parseFile_success hparse
  have hvalues : (readFields (decodeText (fileOf oneByteEntries))
      (fileOf oneByteEntries).write).toOption.map (fun v => (sizeT v.pieceLength, v.piecesStr,
        ((lookup v.infoDict "length").bind BItem.asInteger).map sizeT)) =
      some (1, Torrent.pieceHash sha1OfA [97], some 1) := by
    decide +kernel
  rw [readFields_eq_ok.mpr hv] at hvalues
  simp only [Except.toOption, Option.map_some, hlength, Option.bind_some, BItem.asInteger,
    Option.some.injEq, Prod.mk.injEq] at hvalues
  obtain ⟨hpl, hstr, hts⟩ := hvalues
  refine ⟨v, length, hv, hlength, by rw [hpl]; decide, hts, .inl ?_⟩
  rw [hstr, hpl]
  decide +kernel

end YTorrent
