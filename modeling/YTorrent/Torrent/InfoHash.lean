import YTorrent.Utils.Encoding
import YTorrent.Torrent.ParseFile

/-!
# The info hash

`Torrent::parseFile` hashes what `bencoding::encode` makes of the decoded info dictionary
(torrent.cpp lines 59–77), not the bytes that stand in the file.

* `infoHash_iff`: the handshake has the digest of the file's own bytes exactly when these
  are `Canonical` and every integer in them fits an `int64_t`.
* `infoHash_fails`: a file with `name` before `length`.
-/

namespace YTorrent

/-- What the headers of the library say: `decode` reads an item from the front of its input,
    with the keys of a dictionary in any order and integers of any size, and `encode` writes
    what was decoded with its keys sorted by value. -/
structure Library (decode : List Byte → Option BItem) (encode : BItem → List Byte) : Prop where
  decodes : ∀ {data item}, decode data = some item →
    ∃ (r : Bencoded .item) (rest : List Byte), data = r.write ++ rest ∧ r.Reads item
  encodes : ∀ {r : Bencoded .item} {item}, r.Reads item → encode item = item.text.write

/-- The bytes `info.write` stand in the file for the value of the top-level key `info`. -/
def InfoText (data : List Byte) (info : Bencoded .item) : Prop :=
  ∃ (entries : Bencoded .entries) (rest : List Byte),
    data = (Bencoded.dictionary entries).write ++ rest ∧
    entries.under (ascii "info") = some info

/-- The info hash is the digest of the file's own bytes. -/
def HashesOwnBytes (sha1 : List Byte → List ℕ) (data : List Byte) (t : Metainfo) : Prop :=
  ∃ info, InfoText data info ∧ infoHashOf t.torrent.handshake = Torrent.pieceHash sha1 info.write

/-- The value of the key `info` is written canonically, and its integers fit an `int64_t`. -/
def InfoCanonical (data : List Byte) : Prop :=
  ∃ info, InfoText data info ∧ info.Canonical ∧ info.Fits

/-- The digests of the value of `info` as the file has it and as `encode` writes it, however
    it was read, differ where these do. -/
def Distinguishes (sha1 : List Byte → List ℕ) (data : List Byte) : Prop :=
  ∀ info item, InfoText data info → info.Reads item →
    Torrent.pieceHash sha1 item.text.write = Torrent.pieceHash sha1 info.write →
    item.text.write = info.write

variable {decode : List Byte → Option BItem} {encode : BItem → List Byte}
  {sha1 : List Byte → List ℕ} {disk : Disk} {data : List Byte} {result : ParseResult}
  {t : Metainfo}

/-- A file has one value of the key. -/
theorem InfoText.unique {info info' : Bencoded .item} (h : InfoText data info)
    (h' : InfoText data info') : info = info' := by
  obtain ⟨entries, rest, hdata, hinfo⟩ := h
  obtain ⟨entries', rest', hdata', hinfo'⟩ := h'
  obtain ⟨heq, -⟩ := Bencoded.write_append_inj (hdata.symm.trans hdata')
  obtain rfl := Bencoded.dictionary.inj heq
  exact Option.some.inj (hinfo.symm.trans hinfo')

/-- Opening the target file leaves the handshake. -/
theorem handshake_openTarget {infoDict : List (List Byte × BItem)} {t' : Metainfo}
    (h : t.openTarget disk infoDict = .ok (result, t')) :
    t'.torrent.handshake = t.torrent.handshake := by
  have hopen := openTarget_eq_ok.mp h
  split at hopen
  · cases hopen
    rfl
  · obtain ⟨length, -, hres⟩ := hopen
    split at hres
    · cases hres
      rfl
    · cases hres
      rfl

/-- The digest stands behind the first 28 bytes of the handshake. -/
theorem infoHash_metainfo {v : Fields} {hashes : List (List Byte)}
    (hsha1 : ∀ d, (sha1 d).length = 5) :
    infoHashOf (v.metainfo encode sha1 hashes).torrent.handshake =
      Torrent.pieceHash sha1 (encode (.dictionary v.infoDict)) := by
  have hlen : ∀ d, (Torrent.pieceHash sha1 d).length = 20 := by
    intro d
    simp [Torrent.pieceHash, List.length_flatMap, hsha1]
  have hhead : (19 :: protocolName ++ List.replicate 8 0).length = 28 := by decide +kernel
  show ((19 :: protocolName ++ List.replicate 8 0 ++ _ ++ clientId).drop 28).take 20 = _
  rw [List.append_assoc _ _ clientId, List.drop_left' hhead, List.take_left' (hlen _)]

/-- The value of `info` is hashed as `encode` writes it. -/
theorem infoHash_parseFile (hlib : Library decode encode) (hsha1 : ∀ d, (sha1 d).length = 5)
    (h : parseFile decode encode sha1 disk (some data) = .ok (result, t)) :
    ∃ info item, InfoText data info ∧ info.Reads item ∧
      infoHashOf t.torrent.handshake = Torrent.pieceHash sha1 item.text.write := by
  obtain ⟨v, hv, hashes, -, hopen⟩ := parseFile_eq_ok.mp h
  obtain ⟨r, rest, hdata, hreads⟩ := hlib.decodes hv.torrMetaDict
  cases r with
  | string =>
    cases hreads
  | integer =>
    obtain ⟨_, hvalue, -⟩ := hreads
    cases hvalue
  | list =>
    obtain ⟨_, hvalue, -⟩ := hreads
    cases hvalue
  | dictionary entries =>
    obtain ⟨l, hvalue, hl⟩ := hreads
    have hunder := hv.infoDict
    rw [BItem.dictionary.inj hvalue] at hunder
    obtain ⟨info, hinfo, hdict⟩ := hl.lookup hunder
    refine ⟨info, .dictionary v.infoDict, ⟨entries, rest, hdata, hinfo⟩, hdict, ?_⟩
    calc infoHashOf t.torrent.handshake
      _ = infoHashOf (v.metainfo encode sha1 hashes).torrent.handshake := by
        rw [handshake_openTarget hopen]
      _ = Torrent.pieceHash sha1 (encode (.dictionary v.infoDict)) := infoHash_metainfo hsha1
      _ = Torrent.pieceHash sha1 (BItem.dictionary v.infoDict).text.write := by
        rw [hlib.encodes hdict]

/-- For every file that is accepted: the info hash is the digest of the file's own bytes
    exactly when these are canonical and their integers fit. -/
theorem infoHash_iff (hlib : Library decode encode) (hsha1 : ∀ d, (sha1 d).length = 5)
    (hdistinct : Distinguishes sha1 data)
    (h : parseFile decode encode sha1 disk (some data) = .ok (result, t)) :
    HashesOwnBytes sha1 data t ↔ InfoCanonical data := by
  obtain ⟨info, item, hinfo, hreads, hhash⟩ := infoHash_parseFile hlib hsha1 h
  have hown : HashesOwnBytes sha1 data t ↔
      infoHashOf t.torrent.handshake = Torrent.pieceHash sha1 info.write := by
    constructor
    · rintro ⟨info', hinfo', heq⟩
      rw [hinfo.unique hinfo', heq]
    · exact fun heq => ⟨info, hinfo, heq⟩
  have hcanon : InfoCanonical data ↔ info.Canonical ∧ info.Fits := by
    constructor
    · rintro ⟨info', hinfo', hc⟩
      rw [hinfo.unique hinfo']
      exact hc
    · exact fun hc => ⟨info, hinfo, hc⟩
  rw [hown, hcanon, hhash, ← Bencoded.write_text_iff hreads]
  constructor
  · exact hdistinct info item hinfo hreads
  · exact fun heq => congrArg (Torrent.pieceHash sha1) heq

/-! ## A file whose keys are in order, and one whose keys are not -/

/-- A library that reads one text. -/
def decodeText (r : Bencoded .item) (input : List Byte) : Option BItem :=
  if input = r.write then some r.value else none

def encodeText (item : BItem) : List Byte := item.text.write

theorem library_decodeText (r : Bencoded .item) : Library (decodeText r) encodeText where
  decodes {data item} h := by
    unfold decodeText at h
    split at h
    · rename_i hdata
      exact ⟨r, [], by rw [hdata, List.append_nil], Option.some.inj h ▸ Bencoded.reads_value r⟩
    · cases h
  encodes _ := rfl

/-- A torrent file with these entries of the info dictionary. -/
def fileOf (info : Bencoded .entries) : Bencoded .item :=
  .dictionary (.entry ⟨0, ascii "announce"⟩ (.string ⟨0, ascii "http://t/announce"⟩)
    (.entry ⟨0, ascii "info"⟩ (.dictionary info) .noEntry))

/-- The entries of a target file of one byte behind `length` and `name`. -/
def hashEntries : Bencoded .entries :=
  .entry ⟨0, ascii "piece length"⟩ (.integer (.plain 1))
    (.entry ⟨0, ascii "pieces"⟩ (.string ⟨0, List.replicate 20 97⟩) .noEntry)

def lengthFirst : Bencoded .entries :=
  .entry ⟨0, ascii "length"⟩ (.integer (.plain 1))
    (.entry ⟨0, ascii "name"⟩ (.string ⟨0, ascii "x"⟩) hashEntries)

def nameFirst : Bencoded .entries :=
  .entry ⟨0, ascii "name"⟩ (.string ⟨0, ascii "x"⟩)
    (.entry ⟨0, ascii "length"⟩ (.integer (.plain 1)) hashEntries)

/-- SHA-1 on the two info dictionaries. -/
def sha1OfInfo (data : List Byte) : List ℕ :=
  if data = (Bencoded.dictionary lengthFirst).write then
    [1155392811, 3179331198, 738041192, 825590125, 583268183]
  else if data = (Bencoded.dictionary nameFirst).write then
    [521580171, 3741289318, 954668031, 2753294507, 4048200016]
  else [0, 0, 0, 0, 0]

theorem length_sha1OfInfo (data : List Byte) : (sha1OfInfo data).length = 5 := by
  unfold sha1OfInfo
  split
  · rfl
  · split <;> rfl

theorem fits_one : (IntegerLiteral.plain 1).Fits := ⟨by decide, by decide⟩

theorem infoText_fileOf (info : Bencoded .entries) :
    InfoText (fileOf info).write (.dictionary info) :=
  ⟨_, [], (List.append_nil _).symm, by simp [Bencoded.under]⟩

/-- The file is accepted. -/
theorem exists_parseFile (info : Bencoded .entries)
    (h : (parseFile (decodeText (fileOf info)) encodeText sha1OfInfo emptyDisk
      (some (fileOf info).write)).toOption.any (fun r => r.1 == .success) = true) :
    ∃ t, parseFile (decodeText (fileOf info)) encodeText sha1OfInfo emptyDisk
      (some (fileOf info).write) = .ok (.success, t) := by
  obtain ⟨⟨result, t⟩, hrun, hresult⟩ := exists_ok_of_any h
  obtain rfl := eq_of_beq hresult
  exact ⟨t, hrun⟩

/-- `length`, `name`, `piece length` and `pieces` are in order. -/
theorem infoHash_lengthFirst :
    ∃ t, parseFile (decodeText (fileOf lengthFirst)) encodeText sha1OfInfo emptyDisk
        (some (fileOf lengthFirst).write) = .ok (.success, t) ∧
      HashesOwnBytes sha1OfInfo (fileOf lengthFirst).write t := by
  obtain ⟨t, hrun⟩ := exists_parseFile lengthFirst (by decide +kernel)
  have hinfo := infoText_fileOf lengthFirst
  have hcanon : (Bencoded.dictionary lengthFirst).Canonical :=
    ⟨by decide +kernel, rfl, rfl, rfl, rfl, rfl, rfl, rfl, rfl, trivial⟩
  have hfits : (Bencoded.dictionary lengthFirst).Fits :=
    ⟨fits_one, trivial, fits_one, trivial, trivial⟩
  have hdistinct : Distinguishes sha1OfInfo (fileOf lengthFirst).write := by
    intro info item hinfo' hreads _
    obtain rfl := hinfo'.unique hinfo
    exact (Bencoded.write_text_iff hreads).mpr ⟨hcanon, hfits⟩
  have hiff := infoHash_iff (library_decodeText _) length_sha1OfInfo hdistinct hrun
  exact ⟨t, hrun, hiff.mpr ⟨_, hinfo, hcanon, hfits⟩⟩

/-- `name` stands before `length`, and the digest is that of the other order. -/
theorem infoHash_fails : ¬ ∀ (decode : List Byte → Option BItem) (encode : BItem → List Byte)
    (sha1 : List Byte → List ℕ) (disk : Disk) (data : List Byte) (t : Metainfo),
    Library decode encode → (∀ d, (sha1 d).length = 5) →
    parseFile decode encode sha1 disk (some data) = .ok (.success, t) →
      HashesOwnBytes sha1 data t := by
  intro h
  obtain ⟨t, hrun⟩ := exists_parseFile nameFirst (by decide +kernel)
  have hlib := library_decodeText (fileOf nameFirst)
  have hinfo := infoText_fileOf nameFirst
  obtain ⟨info, item, hinfo', hreads, hhash⟩ := infoHash_parseFile hlib length_sha1OfInfo hrun
  obtain ⟨info', hinfo'', hown⟩ := h _ _ _ _ _ _ hlib length_sha1OfInfo hrun
  obtain rfl := hinfo'.unique hinfo
  have hfits : (Bencoded.dictionary nameFirst).Fits :=
    ⟨trivial, fits_one, fits_one, trivial, trivial⟩
  rw [hhash, hreads.eq_value hfits, hinfo''.unique hinfo] at hown
  revert hown
  decide +kernel

end YTorrent
