import YTorrent.Common.Slice
import YTorrent.Utils.Bencoding
import YTorrent.Torrent.Step

/-!
# The torrent file

A model of `Torrent::parseFile` (torrent.cpp lines 42–138). What the file holds and
what `fopen` does with the target file are parameters; `bencoding::decode` and
`bencoding::encode` are parameters as in `Utils/Bencoding.lean`.

* `parseFile_iff`: the function returns, and leaves a consistent object where it
  returns `SUCCESS`, exactly for the files that are `WellFormed`.
* `parseFile_fails`: a file with the piece length 0.
-/

namespace YTorrent

open Slice

/-- `ParseResult`. -/
inductive ParseResult
  | success
  | corruptedFile
  | failedToOpen
  deriving DecidableEq, Repr

/-- The object `parseFile` fills: the members of `Torrent` the client uses, and the others
    that are read from the file. -/
structure Metainfo where
  torrent : Torrent
  mainTrackerUrl : List Byte := []
  name : List Byte := []
  peerId : List Byte := List.replicate 20 0
  deriving DecidableEq, Repr

/-- The object the constructor makes (torrent.cpp lines 12–26). -/
def Metainfo.new : Metainfo where
  torrent :=
    { pieces := []
      bitfield := []
      pieceLength := 0
      totalSize := 0
      fp := false
      file := []
      handshake := List.replicate 68 0 }

/-- The download directory: whether a node of the name exists, whether a file can be
    created, and what an existing file that can be opened holds. -/
structure Disk where
  nodeExists : List Byte → Bool
  creatable : List Byte → Bool
  contents : List Byte → Option (List Byte)

/-- The contents of the target file that is opened (torrent.cpp lines 111–131). -/
def Disk.fopen (disk : Disk) (name : List Byte) : Option (List Byte) :=
  if disk.nodeExists name then disk.contents name
  else if disk.creatable name then some [] else none

/-- The loop over `piecesStr`, `count` iterations of which are left. `c_str()` has one byte
    more than the string. -/
def copyHashes : (count : ℕ) → List Byte → Except Crash (List (List Byte))
  | 0, _ => .ok []
  | count + 1, piecesStr =>
    if piecesStr.length + 1 < 20 then .error .overread
    else do
      let hashes ← copyHashes count (piecesStr.drop 20)
      return (piecesStr ++ [0]).take 20 :: hashes

/-- The dictionaries and values that are read before the target file is looked at. -/
structure Fields where
  torrMetaDict : List (List Byte × BItem)
  infoDict : List (List Byte × BItem)
  announce : List Byte
  name : List Byte
  pieceLength : Int64
  piecesStr : List Byte

/-- The reads of lines 52–83, in their order. -/
def readFields (decode : List Byte → Option BItem) (input : List Byte) : Except Crash Fields := do
  let torrMetaDict ← decodeDictionary decode input
  let announce ← stringAt torrMetaDict "announce"
  let infoVal ← deref (lookup torrMetaDict "info")
  let infoDict ← deref infoVal.asDictionary
  let name ← stringAt infoDict "name"
  let pieceLength ← integerAt infoDict "piece length"
  let piecesStr ← stringAt infoDict "pieces"
  return { torrMetaDict, infoDict, announce, name, pieceLength, piecesStr }

/-- `"-YT00000000000000000"`. -/
def clientId : List Byte := ascii "-YT00000000000000000"

/-- The object when the hashes have been copied (lines 58–93). -/
def Fields.metainfo (encode : BItem → List Byte) (sha1 : List Byte → List ℕ) (v : Fields)
    (hashes : List (List Byte)) : Metainfo where
  torrent :=
    { Metainfo.new.torrent with
      pieces := hashes.map fun hash => { hash := hash }
      bitfield := List.replicate hashes.length false
      pieceLength := sizeT v.pieceLength
      handshake := 19 :: protocolName ++ List.replicate 8 0 ++
        Torrent.pieceHash sha1 (encode (.dictionary v.infoDict)) ++ clientId }
  mainTrackerUrl := v.announce
  name := v.name
  peerId := clientId

/-- The object when the target file is open (lines 132–133). -/
def Metainfo.opened (t : Metainfo) (length : Int64) (file : List Byte) : Metainfo :=
  { t with torrent := { t.torrent with totalSize := sizeT length, fp := true, file := file } }

/-- The rest of the function (lines 99–137). -/
def Metainfo.openTarget (disk : Disk) (infoDict : List (List Byte × BItem)) (t : Metainfo) :
    Except Crash (ParseResult × Metainfo) :=
  if (lookup infoDict "files").isSome then .ok (.corruptedFile, t)
  else do
    let length ← integerAt infoDict "length"
    match disk.fopen t.name with
    | none => return (.failedToOpen, t)
    | some file => return (.success, t.opened length file)

/-- `Torrent::parseFile` on a new object; `input` is what the file holds, if it can be
    opened. -/
def parseFile (decode : List Byte → Option BItem) (encode : BItem → List Byte)
    (sha1 : List Byte → List ℕ) (disk : Disk) :
    Option (List Byte) → Except Crash (ParseResult × Metainfo)
  | none => .ok (.failedToOpen, .new)
  | some input => do
    let v ← readFields decode input
    let hashes ← copyHashes ((v.piecesStr.length + 19) / 20) v.piecesStr
    (v.metainfo encode sha1 hashes).openTarget disk v.infoDict

/-- The part of the object that the run of a client starts with. -/
def Metainfo.parsed (t : Metainfo) : ParsedFile where
  hashes := t.torrent.pieces.map (·.hash)
  pieceLength := t.torrent.pieceLength
  totalSize := t.torrent.totalSize
  file := t.torrent.file
  handshake := t.torrent.handshake

/-! ## What a file is to leave -/

/-- The sizes fit each other. -/
structure Torrent.Geometry (t : Torrent) : Prop where
  pieceLength_pos : 0 < t.pieceLength
  pieceLength_lt : t.pieceLength < 2 ^ 32
  /-- as an `int64_t` the size is not negative -/
  totalSize_lt : t.totalSize < 2 ^ 63
  pieces : t.pieces.length = (t.totalSize + t.pieceLength - 1) / t.pieceLength

/-- `piecesStr` is the string of hashes in the file. -/
def PiecesString (decode : List Byte → Option BItem) (input : Option (List Byte))
    (piecesStr : List Byte) : Prop :=
  ∃ data torrMetaDict infoDict, input = some data ∧
    decode data = some (.dictionary torrMetaDict) ∧
    lookup torrMetaDict "info" = some (.dictionary infoDict) ∧
    lookup infoDict "pieces" = some (.string piecesStr)

/-- The function returns; no byte behind the end of the string of hashes is copied; and
    after `SUCCESS` the sizes fit, and the pieces add up to the total. -/
def ParsesSafely (decode : List Byte → Option BItem) (encode : BItem → List Byte)
    (sha1 : List Byte → List ℕ) (disk : Disk) (input : Option (List Byte)) : Prop :=
  ∃ result t, parseFile decode encode sha1 disk input = .ok (result, t) ∧
    (∀ piecesStr, PiecesString decode input piecesStr → 20 ∣ piecesStr.length) ∧
    (result = .success → t.torrent.Geometry ∧
      ((List.range t.torrent.pieces.length).map t.torrent.pieceSize).sum = t.torrent.totalSize)

/-- The file has these values, each under its key and of its kind. -/
structure Fields.Of (decode : List Byte → Option BItem) (input : List Byte) (v : Fields) :
    Prop where
  torrMetaDict : decode input = some (.dictionary v.torrMetaDict)
  announce : lookup v.torrMetaDict "announce" = some (.string v.announce)
  infoDict : lookup v.torrMetaDict "info" = some (.dictionary v.infoDict)
  name : lookup v.infoDict "name" = some (.string v.name)
  pieceLength : lookup v.infoDict "piece length" = some (.integer v.pieceLength)
  piecesStr : lookup v.infoDict "pieces" = some (.string v.piecesStr)

/-- The length that the file gives, and its hashes, fit the piece length. -/
structure Fields.Fits (v : Fields) (length : Int64) : Prop where
  pieceLength_pos : 0 < v.pieceLength.toInt
  pieceLength_lt : v.pieceLength.toInt < 2 ^ 32
  length_nonneg : 0 ≤ length.toInt
  hashes : v.piecesStr.length / 20 =
    (length.toInt.toNat + v.pieceLength.toInt.toNat - 1) / v.pieceLength.toInt.toNat

/-- A file, if it can be opened, has the six values, whole hashes, and then a list of
    files, or a length that fits if the target file is opened. -/
def WellFormed (decode : List Byte → Option BItem) (disk : Disk) (input : Option (List Byte)) :
    Prop :=
  ∀ data, input = some data → ∃ v : Fields, v.Of decode data ∧ 20 ∣ v.piecesStr.length ∧
    ((lookup v.infoDict "files").isSome ∨
      ∃ length, lookup v.infoDict "length" = some (.integer length) ∧
        (disk.fopen v.name ≠ none → v.Fits length))

/-! ## The hashes -/

theorem copyHashes_eq {count : ℕ} : ∀ {piecesStr : List Byte}, piecesStr.length = count * 20 →
    copyHashes count piecesStr = .ok ((List.range count).map (chunk piecesStr 20)) := by
  induction count with
  | zero => intro piecesStr _; rfl
  | succ count ih =>
    intro piecesStr hlen
    have hdrop : (piecesStr.drop 20).length = count * 20 := by
      rw [List.length_drop]
      omega
    have htake : (piecesStr ++ [0]).take 20 = chunk piecesStr 20 0 := by
      rw [List.take_append_of_le_length (by omega), chunk, slice, Nat.zero_mul, List.drop_zero]
    have hrest : (List.range count).map (chunk (piecesStr.drop 20) 20) =
        (List.range count).map (chunk piecesStr 20 ∘ Nat.succ) := by
      refine List.map_congr_left fun i _ => ?_
      rw [Function.comp_apply, chunk, chunk, slice, slice, List.drop_drop, Nat.succ_mul,
        Nat.add_comm 20]
    rw [copyHashes, if_neg (by omega), ih hdrop, hrest, htake, List.range_succ_eq_map,
      List.map_cons, List.map_map]
    rfl

/-! ## The sizes -/

theorem sizeT_lt_iff {n : Int64} : sizeT n < 2 ^ 63 ↔ 0 ≤ n.toInt := by
  have hint : n.toInt = if 2 * sizeT n < 2 ^ 64 then (sizeT n : ℤ) else sizeT n - 2 ^ 64 :=
    BitVec.toInt_eq_toNat_cond n.toBitVec
  have hlt : sizeT n < 2 ^ 64 := n.toBitVec.isLt
  split at hint <;> omega

theorem sizeT_eq {n : Int64} (h : 0 ≤ n.toInt) : sizeT n = n.toInt.toNat := by
  have hint : n.toInt = if 2 * sizeT n < 2 ^ 64 then (sizeT n : ℤ) else sizeT n - 2 ^ 64 :=
    BitVec.toInt_eq_toNat_cond n.toBitVec
  have hlt := sizeT_lt_iff.mpr h
  rw [if_pos (by omega)] at hint
  omega

/-- The pieces add up to the total. -/
theorem Torrent.Geometry.sum_pieceSize {t : Torrent} (h : t.Geometry) :
    ((List.range t.pieces.length).map t.pieceSize).sum = t.totalSize :=
  YTorrent.sum_pieceSize h.pieceLength_pos h.pieces

/-! ## The file -/

variable {decode : List Byte → Option BItem} {encode : BItem → List Byte}
  {sha1 : List Byte → List ℕ} {disk : Disk} {data : List Byte} {v : Fields}

theorem readFields_eq_ok : readFields decode data = .ok v ↔ v.Of decode data := by
  simp only [readFields, bind_eq_ok, decodeDictionary_eq_ok, stringAt_eq_ok, integerAt_eq_ok,
    deref_eq_ok]
  constructor
  · rintro ⟨top, htop, announce, hann, item, hitem, info, hinfo, name, hname, n, hn, s, hs, hv⟩
    obtain rfl := Except.ok.inj hv
    obtain rfl := BItem.asDictionary_eq_some hinfo
    exact ⟨htop, hann, hitem, hname, hn, hs⟩
  · intro h
    exact ⟨_, h.torrMetaDict, _, h.announce, _, h.infoDict, _, rfl, _, h.name, _, h.pieceLength,
      _, h.piecesStr, rfl⟩

/-- What the hashes and the sizes are to fit is what the object has. -/
theorem geometry_iff {hashes : List (List Byte)} {length : Int64} {file : List Byte}
    (hhashes : hashes.length = v.piecesStr.length / 20) :
    ((v.metainfo encode sha1 hashes).opened length file).torrent.Geometry ↔ v.Fits length := by
  have hlen : (v.metainfo encode sha1 hashes).torrent.pieces.length = v.piecesStr.length / 20 :=
    (List.length_map _).trans hhashes
  constructor
  · intro h
    have hpl : 0 ≤ v.pieceLength.toInt :=
      sizeT_lt_iff.mp (h.pieceLength_lt.trans (by decide))
    have hl : 0 ≤ length.toInt := sizeT_lt_iff.mp h.totalSize_lt
    have hpos : 0 < sizeT v.pieceLength := h.pieceLength_pos
    have hlt : sizeT v.pieceLength < 2 ^ 32 := h.pieceLength_lt
    have hpieces : _ = (sizeT length + sizeT v.pieceLength - 1) / sizeT v.pieceLength :=
      hlen.symm.trans h.pieces
    rw [sizeT_eq hpl] at hpos hlt hpieces
    rw [sizeT_eq hl] at hpieces
    exact ⟨by omega, by omega, hl, hpieces⟩
  · intro h
    have hpl : sizeT v.pieceLength = v.pieceLength.toInt.toNat := sizeT_eq h.pieceLength_pos.le
    have hl : sizeT length = length.toInt.toNat := sizeT_eq h.length_nonneg
    have hpos := h.pieceLength_pos
    have hlt := h.pieceLength_lt
    refine ⟨?_, ?_, sizeT_lt_iff.mpr h.length_nonneg, ?_⟩
    · show 0 < sizeT v.pieceLength
      omega
    · show sizeT v.pieceLength < 2 ^ 32
      omega
    · show _ = (sizeT length + sizeT v.pieceLength - 1) / sizeT v.pieceLength
      rw [hpl, hl, ← h.hashes]
      exact hlen

/-- The function returns a result. -/
theorem parseFile_eq_ok {r : ParseResult × Metainfo} :
    parseFile decode encode sha1 disk (some data) = .ok r ↔ ∃ v : Fields, v.Of decode data ∧
      ∃ hashes, copyHashes ((v.piecesStr.length + 19) / 20) v.piecesStr = .ok hashes ∧
        (v.metainfo encode sha1 hashes).openTarget disk v.infoDict = .ok r := by
  simp only [parseFile, bind_eq_ok, readFields_eq_ok]

theorem openTarget_eq_ok {t : Metainfo} {infoDict : List (List Byte × BItem)}
    {r : ParseResult × Metainfo} : t.openTarget disk infoDict = .ok r ↔
      if (lookup infoDict "files").isSome then r = (.corruptedFile, t)
      else ∃ length, lookup infoDict "length" = some (.integer length) ∧
        match disk.fopen t.name with
        | none => r = (.failedToOpen, t)
        | some file => r = (.success, t.opened length file) := by
  unfold Metainfo.openTarget
  split
  · rw [Except.ok.injEq]
    exact eq_comm
  · simp only [bind_eq_ok, integerAt_eq_ok]
    refine exists_congr fun length => and_congr_right fun _ => ?_
    cases disk.fopen t.name with
    | none => exact ⟨fun h => (Except.ok.inj h).symm, fun h => h ▸ rfl⟩
    | some file => exact ⟨fun h => (Except.ok.inj h).symm, fun h => h ▸ rfl⟩

theorem piecesString_iff {piecesStr : List Byte} (hv : v.Of decode data) :
    PiecesString decode (some data) piecesStr ↔ piecesStr = v.piecesStr := by
  constructor
  · rintro ⟨_, top, info, ⟨⟩, htop, hinfo, hpieces⟩
    rw [hv.torrMetaDict] at htop
    cases htop
    rw [hv.infoDict] at hinfo
    cases hinfo
    rw [hv.piecesStr] at hpieces
    cases hpieces
    rfl
  · rintro rfl
    exact ⟨data, _, _, rfl, hv.torrMetaDict, hv.infoDict, hv.piecesStr⟩

/-- Whole hashes are copied. -/
theorem copyHashes_whole {piecesStr : List Byte} (h : 20 ∣ piecesStr.length) :
    ∃ hashes, copyHashes ((piecesStr.length + 19) / 20) piecesStr = .ok hashes ∧
      hashes.length = piecesStr.length / 20 := by
  have hcount : (piecesStr.length + 19) / 20 = piecesStr.length / 20 := by omega
  rw [hcount, copyHashes_eq (Nat.div_mul_cancel h).symm]
  exact ⟨_, rfl, by simp⟩

/-- For every file: the function returns, copies nothing from behind the hashes and leaves
    sizes that fit after `SUCCESS`, exactly when the file is well formed. -/
theorem parseFile_iff (decode : List Byte → Option BItem) (encode : BItem → List Byte)
    (sha1 : List Byte → List ℕ) (disk : Disk) (input : Option (List Byte)) :
    ParsesSafely decode encode sha1 disk input ↔ WellFormed decode disk input := by
  cases input with
  | none =>
    refine iff_of_true ⟨_, _, rfl, ?_, nofun⟩ nofun
    rintro _ ⟨_, _, _, ⟨⟩, _⟩
  | some data =>
    constructor
    · rintro ⟨result, t, hrun, hwhole, hfits⟩ _ ⟨⟩
      obtain ⟨v, hv, hashes, hcopy, hopen⟩ := parseFile_eq_ok.mp hrun
      have hdvd : 20 ∣ v.piecesStr.length := hwhole _ ((piecesString_iff hv).mpr rfl)
      refine ⟨v, hv, hdvd, ?_⟩
      obtain ⟨hashes', hcopy', hlen⟩ := copyHashes_whole hdvd
      obtain rfl := Except.ok.inj (hcopy'.symm.trans hcopy)
      have hopen := openTarget_eq_ok.mp hopen
      split at hopen
      · rename_i hfiles
        exact .inl hfiles
      · obtain ⟨length, hlength, hres⟩ := hopen
        refine .inr ⟨length, hlength, fun hsome => ?_⟩
        obtain ⟨file, hfile⟩ := Option.ne_none_iff_exists'.mp hsome
        have hname : disk.fopen (v.metainfo encode sha1 hashes').name = some file := hfile
        rw [hname] at hres
        cases hres
        exact (geometry_iff hlen).mp (hfits rfl).1
    · intro hform
      obtain ⟨v, hv, hdvd, hrest⟩ := hform data rfl
      obtain ⟨hashes, hcopy, hlen⟩ := copyHashes_whole hdvd
      have hwhole : ∀ piecesStr, PiecesString decode (some data) piecesStr →
          20 ∣ piecesStr.length := by
        intro piecesStr h
        rw [(piecesString_iff hv).mp h]
        exact hdvd
      by_cases hfiles : (lookup v.infoDict "files").isSome
      · have hopen : (v.metainfo encode sha1 hashes).openTarget disk v.infoDict =
            .ok (.corruptedFile, v.metainfo encode sha1 hashes) :=
          openTarget_eq_ok.mpr (by rw [if_pos hfiles])
        have hrun := parseFile_eq_ok.mpr ⟨v, hv, hashes, hcopy, hopen⟩
        exact ⟨_, _, hrun, hwhole, nofun⟩
      · obtain ⟨length, hlength, hfits⟩ := hrest.resolve_left hfiles
        cases hfile : disk.fopen (v.metainfo encode sha1 hashes).name with
        | none =>
          have hopen : (v.metainfo encode sha1 hashes).openTarget disk v.infoDict =
              .ok (.failedToOpen, v.metainfo encode sha1 hashes) := by
            refine openTarget_eq_ok.mpr ?_
            rw [if_neg hfiles, hfile]
            exact ⟨length, hlength, rfl⟩
          have hrun := parseFile_eq_ok.mpr ⟨v, hv, hashes, hcopy, hopen⟩
          exact ⟨_, _, hrun, hwhole, nofun⟩
        | some file =>
          have hopen : (v.metainfo encode sha1 hashes).openTarget disk v.infoDict =
              .ok (.success, (v.metainfo encode sha1 hashes).opened length file) := by
            refine openTarget_eq_ok.mpr ?_
            rw [if_neg hfiles, hfile]
            exact ⟨length, hlength, rfl⟩
          have hrun := parseFile_eq_ok.mpr ⟨v, hv, hashes, hcopy, hopen⟩
          have hname : disk.fopen v.name ≠ none := hfile ▸ Option.some_ne_none file
          have hgeometry : ((v.metainfo encode sha1 hashes).opened length file).torrent.Geometry :=
            (geometry_iff hlen).mpr (hfits hname)
          exact ⟨_, _, hrun, hwhole, fun _ => ⟨hgeometry, hgeometry.sum_pieceSize⟩⟩

/-- After `SUCCESS` the client starts from the object. -/
theorem start_parsed {t : Metainfo} {input : Option (List Byte)}
    (h : parseFile decode encode sha1 disk input = .ok (.success, t)) :
    t.parsed.start.torrent = t.torrent := by
  cases input with
  | none => cases h
  | some data =>
    obtain ⟨v, -, hashes, -, hopen⟩ := parseFile_eq_ok.mp h
    have hopen := openTarget_eq_ok.mp hopen
    split at hopen
    · cases hopen
    · obtain ⟨length, -, hres⟩ := hopen
      split at hres
      · cases hres
      · cases hres
        simp [Metainfo.parsed, ParsedFile.start, Metainfo.opened, Fields.metainfo, Metainfo.new,
          Function.comp_def]

/-! ## A piece length of 0 -/

/-- A file of one byte with the piece length 0 and no hashes. -/
def zeroLengthFile : List Byte := ascii
  "d8:announce17:http://t/announce4:infod6:lengthi1e4:name1:n12:piece lengthi0e6:pieces0:ee"

/-- What the library makes of the file. -/
def zeroLengthDecode (input : List Byte) : Option BItem :=
  if input = zeroLengthFile then
    some (.dictionary [(ascii "announce", .string (ascii "http://t/announce")),
      (ascii "info", .dictionary [(ascii "length", .integer 1), (ascii "name", .string (ascii "n")),
        (ascii "piece length", .integer 0), (ascii "pieces", .string [])])])
  else none

/-- A directory without files. -/
def emptyDisk : Disk := ⟨fun _ => false, fun _ => true, fun _ => none⟩

/-- The file is accepted, and `pieceSize` divides by zero. -/
theorem parseFile_fails : ¬ ∀ (decode : List Byte → Option BItem) (encode : BItem → List Byte)
    (sha1 : List Byte → List ℕ) (disk : Disk) (input : Option (List Byte)),
      ParsesSafely decode encode sha1 disk input := by
  intro hall
  obtain ⟨result, t, hrun, -, hfits⟩ := hall zeroLengthDecode (fun _ => [])
    (fun _ => [0, 0, 0, 0, 0]) emptyDisk (some zeroLengthFile)
  have hres : (parseFile zeroLengthDecode (fun _ => []) (fun _ => [0, 0, 0, 0, 0]) emptyDisk
      (some zeroLengthFile)).toOption.map (fun r => (r.1, r.2.torrent.pieceLength)) =
        some (.success, 0) := by
    decide +kernel
  rw [hrun] at hres
  obtain ⟨hresult, hzero⟩ := Prod.mk.inj (Option.some.inj hres)
  have hpos := (hfits hresult).1.pieceLength_pos
  exact absurd hzero hpos.ne'

end YTorrent
