import YTorrent.Common.Paths
import YTorrent.Torrent.ParseFile

/-!
# The working directory and the target file

`Torrent::parseFile` and `Torrent::handleBlockRequest` change the working directory of the
process, by calls whose results are ignored, and open the target file by its name from
there. The operating system is a parameter; `parseFileIn` and `handleBlockRequestIn` are the
two functions with the process they run in.

* `parseFileIn_eq`, `handleBlockRequestIn_eq`: apart from the process they do what
  `parseFile` and `handleBlockRequest` do.
* `opens_inside_iff`: when the paths opened name entries of the download directory.
* `restores_iff`: when the working directory is restored, and what this says about the path
  where no directory has a link.
-/

namespace YTorrent

open Paths World

/-- What the functions see of the operating system: the tree of directories as the process
    may walk it, what `mkdir` makes of it, and the files as the calls of `nodeExists` and
    `fopen` find them from a working directory. -/
structure OS (σ δ : Type) where
  root : δ
  entry : σ → δ → List Byte → Option δ
  mkdir : σ → δ → List Byte → σ
  disk : σ → δ → Disk
  /-- `fopen` with the mode `"rb"` -/
  readable : σ → δ → List Byte → Option (List Byte)

/-- The process: the file system, the working directory, and the record of what the paths
    passed to `fopen` named at that moment. -/
structure Process (σ δ : Type) where
  fs : σ
  cwd : δ
  opened : List (Option (δ × List Byte)) := []

/-- `c_str()` as a system call reads it, up to the first NUL. -/
def cString (s : List Byte) : List Byte := s.takeWhile (· ≠ 0)

section

variable {σ δ : Type} (os : OS σ δ)

/-- The tree of directories. -/
def OS.tree (s : σ) : Tree Byte δ where
  slash := 47
  dot := 46
  slash_ne_dot := by decide
  pathMax := 4096
  two_lt := by decide
  root := os.root
  entry := os.entry s

/-- Where `chdir` leads; a call that fails leaves the working directory. -/
def OS.enters (s : σ) (cwd : δ) (path : List Byte) : δ :=
  ((os.tree s).resolve cwd (cString path)).getD cwd

namespace Process

variable (p : Process σ δ) (path : List Byte)

def mkdir : Process σ δ := { p with fs := os.mkdir p.fs p.cwd (cString path) }

def chdir : Process σ δ := { p with cwd := os.enters p.fs p.cwd path }

/-- The record of a call of `fopen`. -/
def fopen : Process σ δ :=
  { p with opened := p.opened ++ [(os.tree p.fs).locate p.cwd (cString path)] }

end Process

/-! ## `parseFile` -/

/-- The rest of `parseFile` (torrent.cpp lines 99–137) in a process. -/
def Metainfo.openTargetIn (p : Process σ δ) (infoDict : List (List Byte × BItem)) (t : Metainfo) :
    Except Crash (ParseResult × Metainfo × Process σ δ) :=
  if (lookup infoDict "files").isSome then .ok (.corruptedFile, t, p)
  else do
    let length ← integerAt infoDict "length"
    let p := p.fopen os t.name
    match (os.disk p.fs p.cwd).fopen (cString t.name) with
    | none => return (.failedToOpen, t, p.chdir os (ascii ".."))
    | some file => return (.success, t.opened length file, p.chdir os (ascii ".."))

/-- `Torrent::parseFile` on a new object, in a process. -/
def parseFileIn (decode : List Byte → Option BItem) (encode : BItem → List Byte)
    (sha1 : List Byte → List ℕ) (p : Process σ δ) (downloadDir : List Byte) :
    Option (List Byte) → Except Crash (ParseResult × Metainfo × Process σ δ)
  | none => .ok (.failedToOpen, .new, p)
  | some input => do
    let v ← readFields decode input
    let hashes ← copyHashes ((v.piecesStr.length + 19) / 20) v.piecesStr
    let p := (p.mkdir os downloadDir).chdir os downloadDir
    (v.metainfo encode sha1 hashes).openTargetIn os p v.infoDict

/-! ## `handleBlockRequest` -/

/-- The request reaches the test whether the file is open, and it is not. -/
def Reopens (t : Torrent) (pIndex begin length : ℕ) : Prop :=
  pIndex < t.pieces.length ∧ u32 (begin + length) ≤ t.pieceSize pIndex ∧ t.fp = false

instance (t : Torrent) (pIndex begin length : ℕ) : Decidable (Reopens t pIndex begin length) := by
  unfold Reopens; infer_instance

/-- The end of `handleBlockRequest`, from the file that is open (lines 551–564). -/
def serveBlock (w : World) (peer : PeerId) (env : Env) (pIndex begin length : ℕ) : World :=
  let read := Torrent.readFile w.torrent env
    (u64 (begin + pIndex * w.torrent.pieceLength)) length
  if read.length ≤ 0 then w
  else
    let block := (read ++ env.heap ++ List.replicate length 0).take length
    let w := Peer.sendPieceBlock w peer pIndex begin block
    w.setTorrent { w.torrent with uploadedBytes := w.torrent.uploadedBytes + length }

/-- `Torrent::handleBlockRequest` (lines 525–564) in a process, for an object with the
    members `downloadDir` and `name`. -/
def handleBlockRequestIn (p : Process σ δ) (downloadDir name : List Byte) (w : World)
    (peer : PeerId) (env : Env) (pIndex begin length : ℕ) : World × Process σ δ :=
  if pIndex ≥ w.torrent.pieces.length then (Peer.disconnect w peer, p)
  else if u32 (begin + length) > w.torrent.pieceSize pIndex then (Peer.disconnect w peer, p)
  else if w.torrent.fp then (serveBlock w peer env pIndex begin length, p)
  else
    let p := (p.chdir os downloadDir).fopen os name
    match os.readable p.fs p.cwd (cString name) with
    | none => (w, p)
    | some file =>
      (serveBlock (w.setTorrent { w.torrent with fp := true, file := file }) peer env
        pIndex begin length, p.chdir os (ascii ".."))

/-! ## The functions without the process -/

variable {os} {decode : List Byte → Option BItem} {encode : BItem → List Byte}
  {sha1 : List Byte → List ℕ} {p p' q : Process σ δ} {s : σ} {cwd d : δ}
  {downloadDir name path data : List Byte} {v : Fields} {t t' : Metainfo} {r : ParseResult}
  {infoDict : List (List Byte × BItem)} {w : World} {peer : PeerId} {env : Env}
  {pIndex begin length : ℕ}

/-- The files as `parseFile` finds them by names that end at a NUL. -/
def Disk.byCString (disk : Disk) : Disk where
  nodeExists name := disk.nodeExists (cString name)
  creatable name := disk.creatable (cString name)
  contents name := disk.contents (cString name)

/-- The process when `parseFile` has entered the download directory. -/
def Process.entered (os : OS σ δ) (p : Process σ δ) (downloadDir : List Byte) : Process σ δ :=
  (p.mkdir os downloadDir).chdir os downloadDir

theorem openTargetIn_eq : (t.openTargetIn os p infoDict).map (fun r => (r.1, r.2.1)) =
    t.openTarget (os.disk p.fs p.cwd).byCString infoDict := by
  unfold Metainfo.openTargetIn Metainfo.openTarget
  split
  · rfl
  · cases integerAt infoDict "length" with
    | error e => rfl
    | ok n =>
      have hfile : (os.disk p.fs p.cwd).byCString.fopen t.name =
          (os.disk p.fs p.cwd).fopen (cString t.name) := rfl
      simp only [Bind.bind, Except.bind, hfile, Process.fopen]
      cases (os.disk p.fs p.cwd).fopen (cString t.name) <;> rfl

/-- Apart from the process, `parseFileIn` is `parseFile` with the files of the directory
    entered. -/
theorem parseFileIn_eq (input : Option (List Byte)) :
    (parseFileIn os decode encode sha1 p downloadDir input).map (fun r => (r.1, r.2.1)) =
      parseFile decode encode sha1 (os.disk (p.entered os downloadDir).fs
        (p.entered os downloadDir).cwd).byCString input := by
  cases input with
  | none => rfl
  | some data =>
    simp only [parseFileIn, parseFile]
    cases readFields decode data with
    | error e => rfl
    | ok v =>
      simp only [Bind.bind, Except.bind]
      cases copyHashes ((v.piecesStr.length + 19) / 20) v.piecesStr with
      | error e => rfl
      | ok hashes => exact openTargetIn_eq

theorem setTorrent_fp (h : w.torrent.fp = true) :
    w.setTorrent { w.torrent with fp := true } = w := by
  rw [← h]
  rfl

/-- A request that does not reopen the file leaves the process alone. -/
theorem handleBlockRequestIn_of_not (h : ¬ Reopens w.torrent pIndex begin length) :
    handleBlockRequestIn os p downloadDir name w peer env pIndex begin length =
      (Torrent.handleBlockRequest w peer env pIndex begin length, p) := by
  unfold handleBlockRequestIn Torrent.handleBlockRequest
  by_cases hindex : pIndex ≥ w.torrent.pieces.length
  · rw [if_pos hindex, if_pos hindex]
  · rw [if_neg hindex, if_neg hindex]
    by_cases hend : u32 (begin + length) > w.torrent.pieceSize pIndex
    · simp only [if_pos hend]
    · have hfp : w.torrent.fp = true := by
        refine Bool.eq_true_of_not_eq_false fun hfp => h ⟨?_, ?_, hfp⟩ <;> omega
      simp only [if_neg hend, hfp, Bool.not_true, Bool.false_and, Bool.false_eq_true, if_false,
        if_true]
      rw [setTorrent_fp hfp]
      rfl

/-- A request that reopens the file. -/
theorem handleBlockRequestIn_of_reopens (h : Reopens w.torrent pIndex begin length) :
    handleBlockRequestIn os p downloadDir name w peer env pIndex begin length =
      match os.readable p.fs (os.enters p.fs p.cwd downloadDir) (cString name) with
      | none => (Torrent.handleBlockRequest w peer { env with fopenFails := true }
          pIndex begin length, (p.chdir os downloadDir).fopen os name)
      | some file => (Torrent.handleBlockRequest (w.setTorrent { w.torrent with file := file })
          peer { env with fopenFails := false } pIndex begin length,
        ((p.chdir os downloadDir).fopen os name).chdir os (ascii "..")) := by
  obtain ⟨hindex, hend, hfp⟩ := h
  unfold handleBlockRequestIn
  rw [if_neg (Nat.not_le.mpr hindex), if_neg (Nat.not_lt.mpr hend), if_neg (by simp [hfp])]
  have hread : os.readable ((p.chdir os downloadDir).fopen os name).fs
      ((p.chdir os downloadDir).fopen os name).cwd (cString name) =
        os.readable p.fs (os.enters p.fs p.cwd downloadDir) (cString name) := rfl
  simp only [hread]
  cases os.readable p.fs (os.enters p.fs p.cwd downloadDir) (cString name) with
  | none => simp [Torrent.handleBlockRequest, Nat.not_le.mpr hindex, Nat.not_lt.mpr hend, hfp]
  | some file =>
    have hindex' : ¬ pIndex ≥
        (w.setTorrent { w.torrent with file := file }).torrent.pieces.length :=
      Nat.not_le.mpr hindex
    have hend' : ¬ u32 (begin + length) >
        (w.setTorrent { w.torrent with file := file }).torrent.pieceSize pIndex :=
      Nat.not_lt.mpr hend
    refine Prod.ext ?_ rfl
    show _ = Torrent.handleBlockRequest _ peer { env with fopenFails := false } pIndex begin length
    rw [Torrent.handleBlockRequest, if_neg hindex']
    simp only [if_neg hend', Bool.and_false, Bool.false_eq_true, if_false]
    rfl

/-! ## What the calls do to the process -/

/-- A file has the key `files` in its dictionary `info`. -/
def HasFiles (decode : List Byte → Option BItem) (data : List Byte) : Prop :=
  ∃ torrMetaDict infoDict, decode data = some (.dictionary torrMetaDict) ∧
    lookup torrMetaDict "info" = some (.dictionary infoDict) ∧ (lookup infoDict "files").isSome

theorem hasFiles_iff (hv : v.Of decode data) :
    HasFiles decode data ↔ (lookup v.infoDict "files").isSome := by
  constructor
  · rintro ⟨top, info, htop, hinfo, hfiles⟩
    rw [hv.torrMetaDict] at htop
    cases htop
    rw [hv.infoDict] at hinfo
    cases hinfo
    exact hfiles
  · intro hfiles
    exact ⟨_, _, hv.torrMetaDict, hv.infoDict, hfiles⟩

/-- The process when `parseFileIn` returns: it has entered the download directory and, unless
    the file has the key `files`, opened the target file and left for the parent. -/
theorem parseFileIn_process
    (h : parseFileIn os decode encode sha1 p downloadDir (some data) = .ok (r, t, p')) :
    ∃ v : Fields, v.Of decode data ∧ t.name = v.name ∧
      (HasFiles decode data → r = .corruptedFile ∧ p' = p.entered os downloadDir) ∧
      (¬ HasFiles decode data →
        p' = ((p.entered os downloadDir).fopen os v.name).chdir os (ascii "..")) := by
  simp only [parseFileIn, bind_eq_ok, readFields_eq_ok] at h
  obtain ⟨v, hv, hashes, -, h⟩ := h
  refine ⟨v, hv, ?_⟩
  rw [hasFiles_iff hv]
  unfold Metainfo.openTargetIn at h
  split at h
  · rename_i hfiles
    cases h
    exact ⟨rfl, fun _ => ⟨rfl, rfl⟩, fun hno => absurd hfiles hno⟩
  · rename_i hfiles
    rw [bind_eq_ok] at h
    obtain ⟨n, -, h⟩ := h
    dsimp only at h
    split at h
    · cases h
      exact ⟨rfl, fun hf => absurd hf hfiles, fun _ => rfl⟩
    · cases h
      exact ⟨rfl, fun hf => absurd hf hfiles, fun _ => rfl⟩

/-! ## The working directory -/

theorem enters_eq_iff : os.enters s cwd path = cwd ↔ (os.tree s).Stays cwd (cString path) := by
  unfold OS.enters Tree.Stays
  cases (os.tree s).resolve cwd (cString path) with
  | none => simp
  | some d => simp

theorem enters_dots (s : σ) (d : δ) : os.enters s d (ascii "..") = (os.tree s).up d := by
  have hdots : cString (ascii "..") = [46, 46] := by decide +kernel
  have hres : (os.tree s).resolve d [46, 46] = os.entry s d [46, 46] := Tree.resolve_dots
  rw [OS.enters, hdots, hres]
  rfl

theorem enters_dots_iff : os.enters s (os.enters s cwd path) (ascii "..") = cwd ↔
    (os.tree s).LeadsBack cwd (cString path) := by
  rw [enters_dots, OS.enters, Tree.LeadsBack]
  cases (os.tree s).resolve cwd (cString path) <;> rfl

/-- The working directory of `parseFileIn` when it returns. -/
theorem parseFileIn_cwd
    (h : parseFileIn os decode encode sha1 p downloadDir (some data) = .ok (r, t, p')) :
    p'.cwd = p.cwd ↔
      (HasFiles decode data →
        (os.tree (p.mkdir os downloadDir).fs).Stays p.cwd (cString downloadDir)) ∧
      (¬ HasFiles decode data →
        (os.tree (p.mkdir os downloadDir).fs).LeadsBack p.cwd (cString downloadDir)) := by
  obtain ⟨v, -, -, hwith, hwithout⟩ := parseFileIn_process h
  rw [← enters_eq_iff, ← enters_dots_iff]
  by_cases hfiles : HasFiles decode data
  · obtain ⟨-, rfl⟩ := hwith hfiles
    exact ⟨fun heq => ⟨fun _ => heq, fun hno => absurd hfiles hno⟩, fun hcond => hcond.1 hfiles⟩
  · obtain rfl := hwithout hfiles
    exact ⟨fun heq => ⟨fun hf => absurd hf hfiles, fun _ => heq⟩, fun hcond => hcond.2 hfiles⟩

/-- The working directory of `handleBlockRequestIn` when it returns. -/
theorem handleBlockRequestIn_cwd :
    (handleBlockRequestIn os q downloadDir name w peer env pIndex begin length).2.cwd = q.cwd ↔
      (Reopens w.torrent pIndex begin length →
        if (os.readable q.fs (os.enters q.fs q.cwd downloadDir) (cString name)).isSome then
          (os.tree q.fs).LeadsBack q.cwd (cString downloadDir)
        else (os.tree q.fs).Stays q.cwd (cString downloadDir)) := by
  rw [← enters_eq_iff, ← enters_dots_iff]
  by_cases hreopens : Reopens w.torrent pIndex begin length
  · rw [handleBlockRequestIn_of_reopens hreopens]
    cases os.readable q.fs (os.enters q.fs q.cwd downloadDir) (cString name) with
    | none => exact ⟨fun heq _ => heq, fun hcond => hcond hreopens⟩
    | some file => exact ⟨fun heq _ => heq, fun hcond => hcond hreopens⟩
  · rw [handleBlockRequestIn_of_not hreopens]
    exact ⟨fun _ hr => absurd hr hreopens, fun _ => rfl⟩

/-- `parseFile` restores the working directory exactly when, for a file with the key `files`,
    `downloadDir` can only be entered where the process is already and, for any other, `..`
    leads back; `handleBlockRequest` exactly when, reopening the file, the first holds if
    `fopen` fails and the second if it does not. In a tree without links `..` leads back
    exactly when the path says so: `downloadDir` can be entered and leads, in front of the
    last name that it does not leave again, to the working directory; or the working
    directory is at the top, and `downloadDir` cannot be entered or only climbs from there. -/
theorem restores_iff
    (h : parseFileIn os decode encode sha1 p downloadDir (some data) = .ok (r, t, p'))
    (q : Process σ δ) (name : List Byte) (w : World) (peer : PeerId) (env : Env)
    (pIndex begin length : ℕ) :
    ((p'.cwd = p.cwd ↔
        (HasFiles decode data →
          (os.tree (p.mkdir os downloadDir).fs).Stays p.cwd (cString downloadDir)) ∧
        (¬ HasFiles decode data →
          (os.tree (p.mkdir os downloadDir).fs).LeadsBack p.cwd (cString downloadDir))) ∧
      ((os.tree (p.mkdir os downloadDir).fs).Lawful → (p'.cwd = p.cwd ↔
        (HasFiles decode data →
          (os.tree (p.mkdir os downloadDir).fs).Stays p.cwd (cString downloadDir)) ∧
        (¬ HasFiles decode data →
          (os.tree (p.mkdir os downloadDir).fs).Undone p.cwd (cString downloadDir))))) ∧
    (((handleBlockRequestIn os q downloadDir name w peer env pIndex begin length).2.cwd = q.cwd ↔
        (Reopens w.torrent pIndex begin length →
          if (os.readable q.fs (os.enters q.fs q.cwd downloadDir) (cString name)).isSome then
            (os.tree q.fs).LeadsBack q.cwd (cString downloadDir)
          else (os.tree q.fs).Stays q.cwd (cString downloadDir))) ∧
      ((os.tree q.fs).Lawful →
        ((handleBlockRequestIn os q downloadDir name w peer env pIndex begin length).2.cwd =
            q.cwd ↔
          (Reopens w.torrent pIndex begin length →
            if (os.readable q.fs (os.enters q.fs q.cwd downloadDir) (cString name)).isSome then
              (os.tree q.fs).Undone q.cwd (cString downloadDir)
            else (os.tree q.fs).Stays q.cwd (cString downloadDir))))) := by
  refine ⟨⟨parseFileIn_cwd h, fun hT => ?_⟩, handleBlockRequestIn_cwd, fun hT => ?_⟩
  · rw [← hT.leadsBack_iff]
    exact parseFileIn_cwd h
  · rw [← hT.leadsBack_iff]
    exact handleBlockRequestIn_cwd

/-! ## The target file -/

/-- The directory that `downloadDir` names, once `mkdir` has been called, if there is one that
    can be entered. -/
def Process.downloadDirectory (os : OS σ δ) (p : Process σ δ) (downloadDir : List Byte) :
    Option δ :=
  (os.tree (os.mkdir p.fs p.cwd (cString downloadDir))).resolve p.cwd (cString downloadDir)

/-- The place is an entry of the directory. -/
def Inside (directory : Option δ) (place : Option (δ × List Byte)) : Prop :=
  ∃ d entry, directory = some d ∧ place = some (d, entry)

theorem inside_locate_iff {directory : Option δ} :
    Inside directory ((os.tree s).locate cwd path) ↔
      ∃ d, directory = some d ∧ (os.tree s).NamesEntryOf cwd d path := by
  constructor
  · rintro ⟨d, entry, hd, hplace⟩
    exact ⟨d, hd, (Tree.locate_eq_some_iff.mp hplace).1⟩
  · rintro ⟨d, hd, hnames⟩
    exact ⟨d, _, hd, Tree.locate_eq_some_iff.mpr ⟨hnames, rfl⟩⟩

/-- A file has one name. -/
theorem Fields.Of.name_eq {v' : Fields} (h' : v'.Of decode data) (h : v.Of decode data) :
    v'.name = v.name := by
  have htop : v'.torrMetaDict = v.torrMetaDict :=
    BItem.dictionary.inj (Option.some.inj (h'.torrMetaDict.symm.trans h.torrMetaDict))
  have hinfo : v'.infoDict = v.infoDict := by
    have hlookup := h'.infoDict
    rw [htop, h.infoDict] at hlookup
    exact (BItem.dictionary.inj (Option.some.inj hlookup)).symm
  have hlookup := h'.name
  rw [hinfo, h.name] at hlookup
  exact (BItem.string.inj (Option.some.inj hlookup)).symm

/-- The record of one call. -/
theorem forall_mem_drop_iff {α : Type} {l : List α} {a : α} {P : α → Prop} :
    (∀ x ∈ (l ++ [a]).drop l.length, P x) ↔ P a := by
  rw [List.drop_left]
  simp

/-- For every file `parseFile` accepts, the path it opens names an entry of the download
    directory exactly when that directory can be entered and the name of the file names an
    entry of it from there; and the path `handleBlockRequest` opens, when it reopens the
    file, exactly when the name does so from where its `chdir` leads. -/
theorem opens_inside_iff
    (h : parseFileIn os decode encode sha1 p downloadDir (some data) = .ok (.success, t, p'))
    (hv : v.Of decode data) (q : Process σ δ) (w : World) (peer : PeerId) (env : Env)
    (pIndex begin length : ℕ) :
    ((∀ place ∈ p'.opened.drop p.opened.length,
        Inside (p.downloadDirectory os downloadDir) place) ↔
      ∃ d, p.downloadDirectory os downloadDir = some d ∧
        (os.tree (os.mkdir p.fs p.cwd (cString downloadDir))).NamesEntryOf d d (cString v.name)) ∧
    ((∀ place ∈ (handleBlockRequestIn os q downloadDir t.name w peer env
          pIndex begin length).2.opened.drop q.opened.length,
        Inside (p.downloadDirectory os downloadDir) place) ↔
      (Reopens w.torrent pIndex begin length → ∃ d, p.downloadDirectory os downloadDir = some d ∧
        (os.tree q.fs).NamesEntryOf (os.enters q.fs q.cwd downloadDir) d (cString v.name))) := by
  obtain ⟨v', hv', hname, hwith, hwithout⟩ := parseFileIn_process h
  rw [hv'.name_eq hv] at hname hwithout
  have hfiles : ¬ HasFiles decode data := fun hf => by cases (hwith hf).1
  constructor
  · obtain rfl := hwithout hfiles
    have hrecord : (((p.entered os downloadDir).fopen os v.name).chdir os (ascii "..")).opened =
        p.opened ++ [(os.tree (os.mkdir p.fs p.cwd (cString downloadDir))).locate
          ((p.downloadDirectory os downloadDir).getD p.cwd) (cString v.name)] := rfl
    rw [hrecord, forall_mem_drop_iff, inside_locate_iff]
    refine exists_congr fun d => and_congr_right fun hd => ?_
    rw [hd, Option.getD_some]
  · rw [hname]
    by_cases hreopens : Reopens w.torrent pIndex begin length
    · have hrecord : (handleBlockRequestIn os q downloadDir v.name w peer env
          pIndex begin length).2.opened =
          q.opened ++ [(os.tree q.fs).locate (os.enters q.fs q.cwd downloadDir)
            (cString v.name)] := by
        rw [handleBlockRequestIn_of_reopens hreopens]
        cases os.readable q.fs (os.enters q.fs q.cwd downloadDir) (cString v.name) <;> rfl
      rw [hrecord, forall_mem_drop_iff, inside_locate_iff]
      exact ⟨fun hin _ => hin, fun hcond => hcond hreopens⟩
    · rw [handleBlockRequestIn_of_not hreopens]
      refine iff_of_true (fun place hplace => ?_) fun hr => absurd hr hreopens
      rw [List.drop_length] at hplace
      cases hplace

end

/-! ## A plain file system -/

/-- A tree in which a directory is named by the path to it from the root. -/
def plainTree (dirs : List (List (List Byte))) : Tree Byte (List (List Byte)) where
  slash := 47
  dot := 46
  slash_ne_dot := by decide
  pathMax := 4096
  two_lt := by decide
  root := []
  entry d name :=
    if name = [46] then some d
    else if name = [46, 46] then some d.dropLast
    else if d ++ [name] ∈ dirs then some (d ++ [name]) else none

/-- A system with such a tree and no files. -/
def plainOS : OS (List (List (List Byte))) (List (List Byte)) where
  root := []
  entry dirs := (plainTree dirs).entry
  mkdir dirs cwd path :=
    match (plainTree dirs).locate cwd path with
    | some (d, name) => (d ++ [name]) :: dirs
    | none => dirs
  disk _ _ := emptyDisk
  readable _ _ _ := none

/-- A torrent file for a target file of one byte; the name has fewer than ten bytes. -/
def namedFile (name : List Byte) : List Byte :=
  ascii "d8:announce17:http://t/announce4:infod6:lengthi1e4:name" ++
    (byte (48 + name.length) :: 58 :: name ++
      ascii "12:piece lengthi1e6:pieces20:aaaaaaaaaaaaaaaaaaaaee")

/-- The values of the file. -/
def namedFields (name : List Byte) : Fields where
  torrMetaDict := [(ascii "announce", .string (ascii "http://t/announce")),
    (ascii "info", .dictionary [(ascii "length", .integer 1), (ascii "name", .string name),
      (ascii "piece length", .integer 1), (ascii "pieces", .string (List.replicate 20 97))])]
  infoDict := [(ascii "length", .integer 1), (ascii "name", .string name),
    (ascii "piece length", .integer 1), (ascii "pieces", .string (List.replicate 20 97))]
  announce := ascii "http://t/announce"
  name := name
  pieceLength := 1
  piecesStr := List.replicate 20 97

/-- What the library makes of the file. -/
def namedDecode (name input : List Byte) : Option BItem :=
  if input = namedFile name then some (.dictionary (namedFields name).torrMetaDict) else none

theorem namedFields_of (name : List Byte) :
    (namedFields name).Of (namedDecode name) (namedFile name) := by
  have hkeys : (ascii "announce" ≠ ascii "info" ∧ ascii "length" ≠ ascii "name") ∧
      (ascii "length" ≠ ascii "piece length" ∧ ascii "name" ≠ ascii "piece length") ∧
      ascii "length" ≠ ascii "pieces" ∧ ascii "name" ≠ ascii "pieces" ∧
      ascii "piece length" ≠ ascii "pieces" := by
    decide +kernel
  constructor <;> simp [namedDecode, lookup, namedFields, hkeys]

/-- A process in the directory `/home`. -/
def homeProcess : Process (List (List (List Byte))) (List (List Byte)) where
  fs := [[ascii "home"], [ascii "tmp"]]
  cwd := [ascii "home"]

/-- `parseFile` of the file in that process. -/
def parseNamed (name downloadDir : List Byte) : Except Crash
    (ParseResult × Metainfo × Process (List (List (List Byte))) (List (List Byte))) :=
  parseFileIn plainOS (namedDecode name) (fun _ => []) (fun _ => [0, 0, 0, 0, 0]) homeProcess
    downloadDir (some (namedFile name))

/-- A result that is a success and passes a test. -/
theorem exists_success {name downloadDir : List Byte}
    (test : Process (List (List (List Byte))) (List (List Byte)) → Bool)
    (h : (parseNamed name downloadDir).toOption.any
      (fun r => r.1 == .success && test r.2.2) = true) :
    ∃ t p', parseNamed name downloadDir = .ok (.success, t, p') ∧ test p' = true := by
  obtain ⟨⟨result, t, p'⟩, hrun, hboth⟩ := exists_ok_of_any h
  obtain ⟨hresult, htest⟩ := Bool.and_eq_true_iff.mp hboth
  obtain rfl := eq_of_beq hresult
  exact ⟨t, p', hrun, htest⟩

/-- The file `x` is an entry of the directory `Torrents`. -/
theorem opens_inside_plain : ∃ t p', parseNamed (ascii "x") (ascii "Torrents") =
      .ok (.success, t, p') ∧
    ∀ place ∈ p'.opened.drop 0,
      Inside (homeProcess.downloadDirectory plainOS (ascii "Torrents")) place := by
  obtain ⟨t, p', hrun, -⟩ := exists_success (fun _ => true)
    (show (parseNamed (ascii "x") (ascii "Torrents")).toOption.any _ = true by decide +kernel)
  have hiff := (opens_inside_iff hrun (namedFields_of _) homeProcess oneByteDone 0 {} 0 0 0).1
  exact ⟨t, p', hrun, hiff.mpr ⟨[ascii "home", ascii "Torrents"], by decide +kernel,
    by decide +kernel⟩⟩

/-- The name `../x` leads out of the download directory. -/
theorem opens_inside_fails : ¬ ∀ (σ δ : Type) (os : OS σ δ) (decode : List Byte → Option BItem)
    (encode : BItem → List Byte) (sha1 : List Byte → List ℕ) (p p' : Process σ δ)
    (downloadDir data : List Byte) (t : Metainfo),
    parseFileIn os decode encode sha1 p downloadDir (some data) = .ok (.success, t, p') →
      ∀ place ∈ p'.opened.drop p.opened.length,
        Inside (p.downloadDirectory os downloadDir) place := by
  intro h
  obtain ⟨t, p', hrun, htest⟩ := exists_success
    (fun p' => p'.opened == [some ([ascii "home"], ascii "x")])
    (show (parseNamed (ascii "../x") (ascii "Torrents")).toOption.any _ = true by decide +kernel)
  have hdir : homeProcess.downloadDirectory plainOS (ascii "Torrents") =
      some [ascii "home", ascii "Torrents"] := by
    decide +kernel
  have hin := h _ _ _ _ _ _ _ _ _ _ _ hrun (some ([ascii "home"], ascii "x"))
  rw [eq_of_beq htest, hdir] at hin
  obtain ⟨d, entry, hd, hplace⟩ := hin (by simp [homeProcess])
  cases hd
  cases hplace

theorem lawful_plainTree (dirs : List (List (List Byte))) : (plainTree dirs).Lawful where
  self {d e} h := (Option.some.inj h).symm
  parent {d name e} hname h := by
    change (if name = [46] then some d else if name = [46, 46] then some d.dropLast
      else if d ++ [name] ∈ dirs then some (d ++ [name]) else none) = some e at h
    have hdot : name ≠ [46] := hname.2.1
    have hdots : name ≠ [46, 46] := hname.2.2
    rw [if_neg hdot, if_neg hdots] at h
    split at h
    · obtain rfl := Option.some.inj h
      show some (d ++ [name]).dropLast = some d
      rw [List.dropLast_concat]
    · cases h
  root := rfl
  climbs := by
    refine ⟨List.length, fun d => ?_⟩
    show d.dropLast = d ∨ d.dropLast.length < d.length
    cases d with
    | nil => exact .inl rfl
    | cons name d => exact .inr (by simp)

/-- The directory `Torrents` is left for the one it is in. -/
theorem restores_plain : ∃ t p', parseNamed (ascii "x") (ascii "Torrents") =
    .ok (.success, t, p') ∧ p'.cwd = homeProcess.cwd := by
  obtain ⟨t, p', hrun, -⟩ := exists_success (fun _ => true)
    (show (parseNamed (ascii "x") (ascii "Torrents")).toOption.any _ = true by decide +kernel)
  have hiff := (restores_iff hrun homeProcess [] oneByteDone 0 {} 0 0 0).1.2
  have hname : (plainOS.tree (homeProcess.mkdir plainOS (ascii "Torrents")).fs).NamesEntryOf
      homeProcess.cwd homeProcess.cwd (cString (ascii "Torrents")) :=
    (Tree.namesEntryOf_plain (by decide +kernel)).mpr ⟨by decide +kernel, by decide +kernel, rfl⟩
  have hentered : (plainOS.tree (homeProcess.mkdir plainOS (ascii "Torrents")).fs).resolve
      homeProcess.cwd (cString (ascii "Torrents")) = some [ascii "home", ascii "Torrents"] := by
    decide +kernel
  refine ⟨t, p', hrun, (hiff (lawful_plainTree _)).mpr ⟨fun hfiles => ?_, fun _ => ?_⟩⟩
  · rw [hasFiles_iff (namedFields_of _)] at hfiles
    exact absurd hfiles (by decide +kernel)
  · exact (Tree.undone_iff_namesEntryOf hname.isName hentered).mpr hname

/-- The directory `/tmp` is left for the root. -/
theorem restores_fails : ¬ ∀ (σ δ : Type) (os : OS σ δ) (decode : List Byte → Option BItem)
    (encode : BItem → List Byte) (sha1 : List Byte → List ℕ) (p p' : Process σ δ)
    (downloadDir data : List Byte) (r : ParseResult) (t : Metainfo),
    parseFileIn os decode encode sha1 p downloadDir (some data) = .ok (r, t, p') →
      p'.cwd = p.cwd := by
  intro h
  obtain ⟨t, p', hrun, htest⟩ := exists_success (fun p' => p'.cwd == [])
    (show (parseNamed (ascii "x") (ascii "/tmp")).toOption.any _ = true by decide +kernel)
  have hcwd := h _ _ _ _ _ _ _ _ _ _ _ _ hrun
  rw [eq_of_beq htest] at hcwd
  cases hcwd

end YTorrent
