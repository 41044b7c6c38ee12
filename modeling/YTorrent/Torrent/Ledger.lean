import YTorrent.Torrent.Effects

/-!
# The download ledger

An abstract machine for the download: which pieces are finished, what the file
holds, the counters, and the record of the buffers handed to
`handlePieceCompleted`. A buffer is either missed (its hash is wrong), lost (its
write failed) or stored, and only a buffer for an unfinished piece with the
right hash is written.

* `step_ledger`: every step of the client leaves the ledger alone or is one step
  of the ledger.
* `ledger_invariant`: what the ledger's steps preserve holds in every state
  reached.
-/

namespace YTorrent

open World

/-- A call of `handlePieceCompleted`: the piece, the buffer and the outcome. -/
structure Attempt where
  index : ℕ
  data : List Byte
  result : Completion
  deriving DecidableEq, Repr

/-- The call an entry of the record of a run stands for, if any. -/
def Event.attempt? : Event → Option Attempt
  | .pieceCompleted _ piece data result => some ⟨piece.index, data, result⟩
  | _ => none

/-- The calls of `handlePieceCompleted` so far. -/
def World.attempts (w : World) : List Attempt := w.trace.filterMap Event.attempt?

/-- The download, without peers, priorities and uploads. -/
structure Ledger where
  finished : List Bool
  hashes : List (List Byte)
  bitfield : List Bool
  completedPieces : ℕ
  downloadedBytes : ℕ
  wastedBytes : ℕ
  pieceHashMisses : ℕ
  pieceLength : ℕ
  totalSize : ℕ
  file : List Byte
  attempts : List Attempt

namespace Ledger

variable (sha1 : List Byte → List ℕ) (d : Ledger) (index : ℕ) (data : List Byte)

/-- The buffer has the hash of the piece. -/
def Matches : Prop := d.hashes[index]? = some (Torrent.pieceHash sha1 data)

/-- Where the source writes the piece. -/
def beginPos : ℕ := u64 (index * d.pieceLength)

/-- The ledger after a buffer with a wrong hash. -/
def missed : Ledger :=
  { d with
    pieceHashMisses := d.pieceHashMisses + 1
    wastedBytes := d.wastedBytes + data.length
    attempts := d.attempts ++ [⟨index, data, .mismatch⟩] }

/-- The ledger after a failed write that left `file` behind. -/
def lost (file : List Byte) : Ledger :=
  { d with file := file, attempts := d.attempts ++ [⟨index, data, .ioFailed⟩] }

/-- The ledger after the piece has been written. -/
def stored : Ledger :=
  { d with
    finished := d.finished.set index true
    bitfield := d.bitfield.set index true
    completedPieces := d.completedPieces + 1
    downloadedBytes := d.downloadedBytes + data.length
    file := Slice.overwrite 0 d.file (d.beginPos index) data
    attempts := d.attempts ++ [⟨index, data, .stored⟩] }

/-- One step of the ledger. -/
inductive Step : Ledger → Ledger → Prop
  | missed (d : Ledger) (index : ℕ) (data : List Byte) : Step d (d.missed index data)
  | lost (d : Ledger) (index : ℕ) (data file : List Byte) (hash : d.Matches sha1 index data)
    (hopen : d.finished[index]? = some false)
    (hfile : PartlyWritten d.file (d.beginPos index) data file) : Step d (d.lost index data file)
  | stored (d : Ledger) (index : ℕ) (data : List Byte) (hash : d.Matches sha1 index data)
    (hopen : d.finished[index]? = some false) (hpos : d.beginPos index < 2 ^ 63) :
    Step d (d.stored index data)

end Ledger

/-- The ledger of a client. -/
def World.ledger (w : World) : Ledger where
  finished := w.torrent.pieces.map (·.finished)
  hashes := w.torrent.pieces.map (·.hash)
  bitfield := w.torrent.bitfield
  completedPieces := w.torrent.completedPieces
  downloadedBytes := w.torrent.downloadedBytes
  wastedBytes := w.torrent.wastedBytes
  pieceHashMisses := w.torrent.pieceHashMisses
  pieceLength := w.torrent.pieceLength
  totalSize := w.torrent.totalSize
  file := w.torrent.file
  attempts := w.attempts

/-! ## Updates of the client that the ledger does not see -/

section

variable (w : World) (p : PeerId)

@[simp] theorem attempts_log (es : List Event) :
    (w.log es).attempts = w.attempts ++ es.filterMap Event.attempt? := by
  simp [World.attempts]

@[simp] theorem attempts_setTorrent (t : Torrent) : (w.setTorrent t).attempts = w.attempts := rfl

@[simp] theorem attempts_sentEvents (c : Connection) (ms : List Message) :
    (sentEvents c p ms).filterMap Event.attempt? = [] := by
  simp only [List.filterMap_eq_nil_iff, mem_sentEvents]
  rintro e ⟨-, m, -, rfl⟩
  rfl

@[simp] theorem attempts_haveEvents (i : ℕ) :
    (haveEvents w i).filterMap Event.attempt? = [] := by
  simp only [List.filterMap_eq_nil_iff, mem_haveEvents]
  rintro e ⟨q, -, -, -, rfl⟩
  rfl

@[simp] theorem attempts_doneFault (t : Torrent) (i : ℕ) :
    (doneFault t i).filterMap Event.attempt? = [] := by
  unfold doneFault
  split <;> rfl

@[simp] theorem attempts_bitFault (t : Torrent) (i : ℕ) :
    (bitFault t i).filterMap Event.attempt? = [] := by
  unfold bitFault
  split <;> rfl

theorem Event.IsJoin.attempt? {e : Event} (h : e.IsJoin) : e.attempt? = none := by
  cases e <;> first | rfl | exact h.elim

/-- Recording anything but a completed piece. -/
theorem ledger_log {es : List Event} (h : es.filterMap Event.attempt? = []) :
    (w.log es).ledger = w.ledger := by
  simp [World.ledger, h]

@[simp] theorem ledger_setPeer (x : Peer) : (w.setPeer p x).ledger = w.ledger := rfl

@[simp] theorem ledger_setConn (c : Connection) : (w.setConn p c).ledger = w.ledger := rfl

@[simp] theorem ledger_read (rc : Pending) : (Connection.read w p rc).ledger = w.ledger := by
  simp [World.ledger, World.attempts]

@[simp] theorem ledger_erasePiece (it : ℕ) : (Peer.erasePiece w p it).ledger = w.ledger := rfl

@[simp] theorem ledger_handleError (e : PeerError) :
    (Peer.handleError w p e).ledger = w.ledger := by
  rw [handleError_eq]
  exact ledger_log _ rfl

/-- An update of the pieces is seen by the ledger only through `finished` and `hash`. -/
theorem map_modify_of_eq {β : Type*} {ps : List Torrent.Piece} {i : ℕ}
    {f : Torrent.Piece → Torrent.Piece} {g : Torrent.Piece → β} (h : ∀ x, g (f x) = g x) :
    (ps.modify i f).map g = ps.map g := by
  apply List.ext_getElem?
  intro k
  rw [List.getElem?_map, List.getElem?_map, List.getElem?_modify]
  by_cases hk : i = k <;> cases ps[k]? <;> simp [hk, h]

theorem finished_raisePriority (t : Torrent) (i : ℕ) :
    (t.raisePriority i).pieces.map (·.finished) = t.pieces.map (·.finished) :=
  map_modify_of_eq fun _ => rfl

theorem hash_raisePriority (t : Torrent) (i : ℕ) :
    (t.raisePriority i).pieces.map (·.hash) = t.pieces.map (·.hash) :=
  map_modify_of_eq fun _ => rfl

theorem finished_modify (ps : List Torrent.Piece) (i : ℕ) :
    (ps.modify i ({ · with finished := true })).map (·.finished) =
      (ps.map (·.finished)).set i true := by
  apply List.ext_getElem?
  intro k
  rw [List.getElem?_map, List.getElem?_modify, List.getElem?_set]
  by_cases hk : i = k
  · subst hk
    by_cases hi : i < ps.length
    · simp [hi]
    · simp [hi]
  · simp [hk]

@[simp] theorem ledger_storeBlock (payload : List Byte) (it : ℕ) (piece : Peer.Piece) :
    (Peer.storeBlock w p payload it piece).ledger = w.ledger :=
  ledger_log w (attempts_doneFault _ _)

theorem ledger_select {w w' : World} (h : SelectEffect w p w') : w'.ledger = w.ledger := by
  cases h with
  | none => rfl
  | requested i hfull hsel =>
    rw [ledger_log _ (attempts_sentEvents p _ _)]
    show World.ledger (w.setTorrent (w.torrent.raisePriority i)) = w.ledger
    simp only [World.ledger, setTorrent_torrent, finished_raisePriority, hash_raisePriority]
    rfl

theorem ledger_serve {w w' : World} {i begin length : ℕ}
    (h : ServeEffect w p i begin length w') : w'.ledger = w.ledger := by
  cases h with
  | refused => rfl
  | silent => rfl
  | sent block =>
    rw [ledger_log _ (attempts_sentEvents p _ _)]
    rfl

theorem Outside.ledger {w w' : World} (h : Outside w w') : w'.ledger = w.ledger := by
  obtain ⟨es, hes, hjoin⟩ := h.trace
  have hatt : w'.attempts = w.attempts := by
    have hnil : es.filterMap Event.attempt? = [] :=
      List.filterMap_eq_nil_iff.mpr fun e he => (hjoin e he).attempt?
    simp [World.attempts, hes, hnil]
  simp only [World.ledger, hatt]
  rw [h.torrent]

end

/-! ## The steps -/

variable {sha1 : List Byte → List ℕ} {w w' : World}

theorem isFinished_eq (t : Torrent) (i : ℕ) :
    t.isFinished i = ((t.pieces.map (·.finished))[i]?).getD false := by
  simp [Torrent.isFinished]

/-- A piece with the hash of a buffer exists, and is open if `pieceDone` says so. -/
theorem matches_of_check {i : ℕ} {data : List Byte} {env : Env}
    (hash : Torrent.checkPieceHash sha1 w.torrent data i = true)
    (hdone : w.torrent.doneValue env i = false) :
    w.ledger.Matches sha1 i data ∧ w.ledger.finished[i]? = some false := by
  obtain ⟨x, hx, hh⟩ := checkPieceHash_true hash
  have hf : x.finished = false := by simpa [Torrent.doneValue, hx] using hdone
  simp [Ledger.Matches, World.ledger, hx, hh, hf]

/-- A call of `handlePieceCompleted` for an unfinished piece is a step of the ledger. -/
theorem ledger_completion {p : PeerId} {piece : Peer.Piece} {i : ℕ} {data : List Byte} {env : Env}
    (h : CompletionEffect sha1 w p piece i data w') (hi : piece.index = i)
    (hdone : w.torrent.doneValue env i = false) : Ledger.Step sha1 w.ledger w'.ledger := by
  subst hi
  cases h with
  | mismatch hash =>
    have h : Ledger.Step sha1 w.ledger _ := .missed w.ledger piece.index data
    simpa [World.ledger, Ledger.missed, Torrent.missed, Event.attempt?] using h
  | ioFailed hash file hfile =>
    obtain ⟨hm, ho⟩ := matches_of_check hash hdone
    have h : Ledger.Step sha1 w.ledger _ := .lost w.ledger piece.index data file hm ho hfile
    simpa [World.ledger, Ledger.lost, World.attempts, Event.attempt?] using h
  | stored hash hpos =>
    obtain ⟨hm, ho⟩ := matches_of_check hash hdone
    have h : Ledger.Step sha1 w.ledger _ := .stored w.ledger piece.index data hm ho hpos
    have hh : ((w.torrent.pieces.modify piece.index ({ · with finished := true })).map (·.hash)) =
        w.torrent.pieces.map (·.hash) := map_modify_of_eq fun _ => rfl
    simpa [World.ledger, Ledger.stored, Torrent.stored, Event.attempt?, Ledger.beginPos,
      finished_modify, hh, List.filterMap_append] using h

/-- The handling of a frame leaves the ledger alone, or completes a queue entry. -/
theorem frame_ledger {p : PeerId} {env : Env} {messageID : Byte} {payload : List Byte}
    (h : FrameEffect sha1 w p env messageID payload w') :
    w'.ledger = w.ledger ∨ ∃ it piece u, MessageID.ofByte messageID = some .pieceBlock ∧
      Peer.Accepts w p payload it piece ∧
      w.torrent.doneValue env (Peer.blockFields payload).1 = false ∧
      piece.haveBlocks + 1 = piece.totalBlocks ∧
      CompletionEffect sha1 (Peer.storeBlock w p payload it piece) p (piece.put payload)
        (Peer.blockFields payload).1 (piece.put payload).pieceData u ∧
      w'.ledger = u.ledger := by
  cases h with
  | ignored => exact .inl (by simp)
  | refused e => exact .inl (by simp)
  | choke => exact .inl (by simp)
  | unchoke => exact .inl (by simp [ledger_log])
  | interested => exact .inl (by simp [ledger_log])
  | notInterested => exact .inl (by simp)
  | havePiece => exact .inl (by simp)
  | bitfield hid v hsel => exact .inl (by simp [ledger_select p hsel])
  | request hid hsize hint hchoke hlen v hserve =>
    have hlog := ledger_log w (attempts_doneFault w.torrent (Peer.requestFields payload).1)
    rcases hserve with ⟨-, rfl⟩ | ⟨-, hserve⟩
    · exact .inl (by simp [hlog])
    · exact .inl (by simp [ledger_serve p hserve, hlog])
  | cancelled => exact .inl (by simp [ledger_log])
  | stored hid it piece => exact .inl (by simp)
  | ioFailed hid it piece hacc hdone hlast v hcomp hrun =>
    exact .inr ⟨it, piece, _, hid, hacc, hdone, hlast, hcomp, rfl⟩
  | completed hid it piece hacc hdone hlast v v' hcomp hrun hsel =>
    refine .inr ⟨it, piece, v, hid, hacc, hdone, hlast, hcomp, ?_⟩
    rw [ledger_read, ledger_select p hsel, ledger_erasePiece]

/-- The handling of a frame leaves the ledger alone or is one of its steps. -/
theorem ledger_frame {p : PeerId} {env : Env} {messageID : Byte} {payload : List Byte}
    (h : FrameEffect sha1 w p env messageID payload w') :
    w'.ledger = w.ledger ∨ Ledger.Step sha1 w.ledger w'.ledger := by
  rcases frame_ledger h with heq | ⟨it, piece, u, -, hacc, hdone, -, hcomp, heq⟩
  · exact .inl heq
  · right
    rw [heq, ← ledger_storeBlock w p payload it piece]
    exact ledger_completion hcomp (Peer.findPiece_some hacc.found).2 hdone

/-- Every step of the client leaves the ledger alone or is one of its steps. -/
theorem step_ledger {l : Label} (h : step sha1 w l = some w') :
    w'.ledger = w.ledger ∨ Ledger.Step sha1 w.ledger w'.ledger := by
  rcases step_cases h with ⟨p, messageID, payload, env, -, -, hf⟩ | hout
  · have hf := ledger_frame hf
    rwa [show (takeRead w p).ledger = w.ledger from rfl] at hf
  · exact .inl hout.ledger

/-! ## The layout never changes -/

theorem Ledger.Step.layout {d d' : Ledger} (h : Ledger.Step sha1 d d') :
    d'.hashes = d.hashes ∧ d'.pieceLength = d.pieceLength ∧ d'.totalSize = d.totalSize := by
  cases h <;> exact ⟨rfl, rfl, rfl⟩

theorem step_layout {l : Label} (h : step sha1 w l = some w') :
    w'.torrent.pieces.length = w.torrent.pieces.length ∧
      w'.torrent.pieceLength = w.torrent.pieceLength ∧
      w'.torrent.totalSize = w.torrent.totalSize := by
  have hl : w'.ledger.hashes = w.ledger.hashes ∧ w'.ledger.pieceLength = w.ledger.pieceLength ∧
      w'.ledger.totalSize = w.ledger.totalSize := by
    rcases step_ledger h with heq | hs
    · rw [heq]
      exact ⟨rfl, rfl, rfl⟩
    · exact hs.layout
  refine ⟨?_, hl.2⟩
  have hlen := congrArg List.length hl.1
  simpa [World.ledger] using hlen

theorem step_pieceSize {l : Label} (h : step sha1 w l = some w') :
    w'.torrent.pieceSize = w.torrent.pieceSize := by
  obtain ⟨hn, hl, hs⟩ := step_layout h
  funext i
  exact pieceSize_congr hn hl hs i

/-! ## Runs -/

/-- What the steps of the ledger preserve holds in every state reached. -/
theorem ledger_invariant {I : Ledger → Prop} (hstep : ∀ d d', Ledger.Step sha1 d d' → I d → I d')
    (h : Runs.Reaches (step sha1) w w') (hw : I w.ledger) : I w'.ledger := by
  refine h.invariant (I := fun v => I v.ledger) (fun v l v' hv hi => ?_) hw
  rcases step_ledger hv with heq | hs
  · rw [heq]; exact hi
  · exact hstep _ _ hs hi

/-- The hashes and the sizes are those of the torrent file in every reachable state. -/
theorem Reachable.layout {f : ParsedFile} (h : Reachable sha1 f w) :
    w.ledger.hashes = f.hashes ∧ w.ledger.pieceLength = f.pieceLength ∧
      w.ledger.totalSize = f.totalSize := by
  refine ledger_invariant (I := fun d => d.hashes = f.hashes ∧ d.pieceLength = f.pieceLength ∧
    d.totalSize = f.totalSize) (fun d d' hs hd => ?_) h ⟨?_, rfl, rfl⟩
  · obtain ⟨h1, h2, h3⟩ := hs.layout
    rwa [h1, h2, h3]
  · simp [World.ledger, ParsedFile.start, Function.comp_def]

theorem Reachable.length_pieces {f : ParsedFile} (h : Reachable sha1 f w) :
    w.torrent.pieces.length = f.hashes.length := by
  rw [← h.layout.1]
  exact (List.length_map _).symm

theorem Reachable.pieceSize {f : ParsedFile} (h : Reachable sha1 f w) :
    w.torrent.pieceSize = f.start.torrent.pieceSize := by
  have hn : f.start.torrent.pieces.length = f.hashes.length := List.length_map ..
  funext i
  exact pieceSize_congr (h.length_pieces.trans hn.symm) h.layout.2.1 h.layout.2.2 i

/-! ## Our handshake never changes -/

theorem SelectEffect.handshake (h : SelectEffect w p w') :
    w'.torrent.handshake = w.torrent.handshake := by
  cases h <;> rfl

theorem CompletionEffect.handshake {piece : Peer.Piece} {i : ℕ} {data : List Byte}
    (h : CompletionEffect sha1 w p piece i data w') :
    w'.torrent.handshake = w.torrent.handshake := by
  cases h <;> rfl

theorem FrameEffect.handshake {env : Env} {messageID : Byte} {payload : List Byte}
    (h : FrameEffect sha1 w p env messageID payload w') :
    w'.torrent.handshake = w.torrent.handshake := by
  cases h with
  | ignored | choke | unchoke | interested | notInterested | havePiece | cancelled | stored =>
    exact congrArg Torrent.handshake (read_torrent ..)
  | refused e =>
    rw [handleError_eq]
    rfl
  | bitfield hid v hsel =>
    rw [read_torrent, hsel.handshake]
    rfl
  | request hid hsize hint hchoke hlen v hserve =>
    rw [read_torrent]
    rcases hserve with ⟨-, rfl⟩ | ⟨-, hserve⟩
    · rfl
    · cases hserve <;> rfl
  | ioFailed hid it piece hacc hdone hlast v hcomp =>
    rw [hcomp.handshake]
    rfl
  | completed hid it piece hacc hdone hlast v v' hcomp hrun hsel =>
    rw [read_torrent, hsel.handshake]
    exact hcomp.handshake

theorem Reachable.handshake {f : ParsedFile} (h : Reachable sha1 f w) :
    w.torrent.handshake = f.handshake := by
  refine h.invariant (I := fun w => w.torrent.handshake = f.handshake) (fun w l w' hs hw => ?_) rfl
  rcases step_cases hs with ⟨p, messageID, payload, env, -, -, hf⟩ | hout
  · exact hf.handshake.trans hw
  · rw [hout.torrent]
    exact hw

end YTorrent
