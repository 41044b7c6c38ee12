import YTorrent.Torrent.Bookkeeping
import YTorrent.Torrent.Queue

/-!
# Indexes from the wire

Every access to `pieces`, `bitfield`, `blocks` and the payload whose index comes
from a frame is recorded as a fault when it is out of range. The queue holds
only numbers of pieces (`queue_index_lt`), which makes the accesses of the
PIECE_BLOCK case safe; the REQUEST case calls `pieceDone` before anything has
compared the index with the number of pieces.

* `in_range_iff`: a frame causes no fault unless it is a REQUEST that reaches
  `pieceDone` with an index that is not the number of a piece.
* `in_range_fails`: such a request.
-/

namespace YTorrent

open World Peer

/-- A container was indexed out of range. -/
def Event.isFault : Event → Bool
  | .fault .. => true
  | _ => false

/-- The REQUEST names a piece that does not exist and is not refused earlier. -/
def AsksBeyond (w : World) (p : PeerId) (messageID : Byte) (payload : List Byte) : Prop :=
  AsksPiece w p messageID payload ∧ w.torrent.pieces.length ≤ (requestFields payload).1

variable {sha1 : List Byte → List ℕ} {f : ParsedFile} {w w' : World} {p : PeerId} {env : Env}
  {messageID : Byte} {payload : List Byte}

/-! ## The queue holds numbers of pieces -/

/-- Every queued index is the number of a piece. -/
def QueueInRange (w : World) : Prop :=
  ∀ p, ∀ e ∈ (w.peers p).pieceQueue, e.index < w.torrent.pieces.length

theorem QueueInRange.step {l : Label} (hs : step sha1 w l = some w') (h : QueueInRange w) :
    QueueInRange w' := by
  intro p e he
  rw [(step_layout hs).1]
  rcases step_queue hs he with hk | ⟨i, hi, rfl⟩ | ⟨m, payload, env, it, piece, rfl, hst, rfl⟩
  · exact h p e hk
  · exact Nat.lt_of_le_of_lt (u32_le i) hi
  · exact h p piece hst.accepts.mem

theorem queue_index_lt (h : Reachable sha1 f w) (p : PeerId) :
    ∀ e ∈ (w.peers p).pieceQueue, e.index < w.torrent.pieces.length :=
  h.invariant (I := QueueInRange) (fun _ _ _ hs => QueueInRange.step hs)
    (fun p e he => by cases he) p

theorem bitfield_length (h : Reachable sha1 f w) :
    w.torrent.bitfield.length = w.torrent.pieces.length := by
  have hb : w.torrent.bitfield = w.torrent.pieces.map (·.finished) := h.consistent.bits
  rw [hb, List.length_map]

/-! ## Faults of a frame -/

/-- In a reachable state a frame can only fault by asking for a piece beyond the last. -/
theorem frameEvent_fault (h : Reachable sha1 f w) {v : Event}
    (hv : FrameEvent w p env messageID payload v) (hf : v.isFault = true) :
    AsksBeyond w p messageID payload := by
  have hqueue := queue_index_lt h p
  cases hv with
  | reply | announce | error | completed => cases hf
  | requestFault hasks hi => exact ⟨hasks, hi⟩
  | blockFault it piece hacc hi => exact absurd (hqueue piece hacc.mem) (by omega)
  | bitFault it piece hc hi =>
    have hlt := hqueue piece hc.accepts.mem
    rw [bitfield_length h] at hi
    omega

/-- Asking for a piece beyond the last does fault, in `pieceDone`. -/
theorem fault_of_asksBeyond (h : FrameEffect sha1 w p env messageID payload w')
    (hasks : AsksBeyond w p messageID payload) :
    .fault .pieces (requestFields payload).1 w.torrent.pieces.length ∈ w.newEvents w' := by
  obtain ⟨⟨hid, hsize, hint, hchoke, hlen⟩, hi⟩ := hasks
  cases h with
  | ignored h => cases h <;> simp_all
  | refused e h =>
    cases h with
    | invalidSize m hm hbad =>
      rw [hid] at hm
      cases hm
      exact absurd hsize hbad
    | requestWithoutInterest _ hbad => simp [hint] at hbad
    | requestWhileChoked _ hbad => simp [hchoke] at hbad
    | requestTooBig _ hbad => omega
    | tooBigBlock hm | notAskedFor hm | tooBigBlockIndex hm =>
      rw [hid] at hm
      cases hm
  | request _ _ _ _ _ u hserve =>
    have hfault : doneFault w.torrent (requestFields payload).1 =
        [.fault .pieces (requestFields payload).1 w.torrent.pieces.length] := if_neg (by omega)
    rw [hfault] at hserve
    have htrace : ∃ es, (Connection.read u p .message).trace =
        w.trace ++ .fault .pieces (requestFields payload).1 w.torrent.pieces.length :: es := by
      rcases hserve with ⟨-, rfl⟩ | ⟨-, hserve⟩
      · exact ⟨[], by simp⟩
      · obtain ⟨es, hes, -⟩ : World.Adds _ u (FrameEvent w p env messageID payload) := hserve.trace
        exact ⟨es, by simp [hes]⟩
    obtain ⟨es, hes⟩ := htrace
    rw [newEvents_of_trace hes]
    exact List.mem_cons_self
  | choke hm | unchoke hm | interested hm | notInterested hm | havePiece hm | bitfield hm
  | cancelled hm | stored hm | ioFailed hm | completed hm =>
    rw [hid] at hm
    cases hm

theorem asksBeyond_takeRead :
    AsksBeyond (takeRead w p) p messageID payload ↔ AsksBeyond w p messageID payload := by
  have h : AsksPiece w p messageID payload → AsksPiece (takeRead w p) p messageID payload :=
    fun h => ⟨h.id, h.size, by simpa [takeRead] using h.interested,
      by simpa [takeRead] using h.unchoked, h.length_le⟩
  exact ⟨fun ha => ⟨ha.1.of_takeRead, ha.2⟩, fun ha => ⟨h ha.1, ha.2⟩⟩

/-- For every reachable state and every frame: all reads of the payload and all
    indexes into `pieces`, `bitfield` and `blocks` are in range exactly unless
    the frame is a REQUEST beyond the last piece. -/
theorem in_range_iff (h : Reachable sha1 f w)
    (hs : step sha1 w (.frame p messageID payload env) = some w') :
    (∀ v ∈ w.newEvents w', v.isFault = false) ↔ ¬ AsksBeyond w p messageID payload := by
  have heff := (step_frame hs).2.2
  constructor
  · intro hno hasks
    have hmem := fault_of_asksBeyond heff (asksBeyond_takeRead.mpr hasks)
    cases hno _ hmem
  · intro hasks v hv
    by_contra hf
    have hev : FrameEvent w p env messageID payload v :=
      FrameEvent.of_takeRead (Adds.mem_newEvents heff.trace hv)
    exact hasks (frameEvent_fault h hev (by simpa using hf))

/-! ## A request beyond the last piece -/

instance : Decidable (AsksBeyond w p messageID payload) :=
  decidable_of_iff ((MessageID.ofByte messageID = some .request ∧ payload.length = 12 ∧
      (w.peers p).peerInterested = true ∧ (w.peers p).amChoking = false ∧
      (requestFields payload).2.2 ≤ maxBlockRequestSize) ∧
      w.torrent.pieces.length ≤ (requestFields payload).1)
    ⟨fun h => ⟨⟨h.1.1, h.1.2.1, h.1.2.2.1, h.1.2.2.2.1, h.1.2.2.2.2⟩, h.2⟩,
      fun h => ⟨⟨h.1.id, h.1.size, h.1.interested, h.1.unchoked, h.1.length_le⟩, h.2⟩⟩

/-- A REQUEST for piece 1. -/
def requestPieceOne : List Byte := [0, 0, 0, 1, 0, 0, 0, 0, 0, 0, 0, 1]

/-- A REQUEST for the only piece causes no fault. -/
theorem in_range_oneByte : ∃ w', step sha1OfA serving
    (.frame 0 MessageID.request.toByte [0, 0, 0, 0, 0, 0, 0, 0, 0, 0, 0, 1] {}) = some w' ∧
      ∀ v ∈ serving.newEvents w', v.isFault = false := by
  have hsome : (step sha1OfA serving (.frame 0 MessageID.request.toByte
      [0, 0, 0, 0, 0, 0, 0, 0, 0, 0, 0, 1] {})).isSome = true := by
    decide +kernel
  obtain ⟨w', hw'⟩ := Option.isSome_iff_exists.mp hsome
  exact ⟨w', hw', (in_range_iff serving_reachable hw').mpr (by decide +kernel)⟩

/-- With one piece, a REQUEST for piece 1 reads `pieces[1]`. -/
theorem in_range_fails : ¬ ∀ (sha1 : List Byte → List ℕ) (f : ParsedFile) (w w' : World)
    (p : PeerId) (messageID : Byte) (payload : List Byte) (env : Env), Reachable sha1 f w →
    step sha1 w (.frame p messageID payload env) = some w' →
    ∀ v ∈ w.newEvents w', v.isFault = false := by
  intro h
  have hfault : ((step sha1OfA serving (.frame 0 MessageID.request.toByte requestPieceOne {})).map
      fun w' => decide (.fault .pieces 1 1 ∈ serving.newEvents w')) = some true := by
    decide +kernel
  obtain ⟨w', hw', hmem⟩ := Option.map_eq_some_iff.mp hfault
  cases h sha1OfA oneByteFile serving w' 0 _ requestPieceOne {} serving_reachable hw' _
    (of_decide_eq_true hmem)

end YTorrent
