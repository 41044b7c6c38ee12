import YTorrent.Torrent.Queue

/-!
# Serving blocks

What a REQUEST is answered with. `handleBlockRequest` compares `begin + length`
with the size of the piece, but computes the sum as a `uint32_t`
(`Wraps`: it is beyond the piece and its truncation is not).

* `upload_exact_iff`: requests inside the piece are answered with exactly the
  bytes of the file, and requests beyond its end close the connection, unless
  the sum wraps around.
* `upload_exact_fails`: a wrapping request that is not answered by closing.
-/

namespace YTorrent

open World Peer

/-- A PIECE frame was written. -/
def Event.isPiece : Event → Bool
  | .sent _ (.pieceBlock _ _ _) => true
  | _ => false

/-- The file yields the whole range `[index·pieceLength + begin, … + length)`. -/
structure ReadsSucceed (t : Torrent) (env : Env) (index begin length : ℕ) : Prop where
  inside : index * t.pieceLength + begin + length ≤ t.file.length
  seekable : t.file.length < 2 ^ 63
  seek : env.fseekFails = false
  read : length ≤ env.freadLimit
  opened : t.fp = true ∨ env.fopenFails = false

/-- What is expected of the step from `w` to `w'` that handles the REQUEST
    `(index, begin, length)` of `p`. -/
structure UploadExact (w w' : World) (p : PeerId) (env : Env) (index begin length : ℕ) : Prop where
  /-- a request inside the piece gets one PIECE frame with the bytes of the file -/
  served : (w.peers p).peerInterested = true → (w.peers p).amChoking = false → 1 ≤ length →
    length ≤ maxBlockRequestSize → begin + length ≤ w.torrent.pieceSize index →
    ReadsSucceed w.torrent env index begin length →
    w.newEvents w' = [.sent p (.pieceBlock index begin
      (Slice.slice w.torrent.file (index * w.torrent.pieceLength + begin) length))]
  /-- a request that ends beyond the piece gets none, and the peer is disconnected -/
  beyond : w.torrent.pieceSize index < begin + length →
    (∀ v ∈ w.newEvents w', v.isPiece = false) ∧ (w'.peers p).conn.isOpen = false

/-- The request passes every check although it ends beyond the piece, because
    the 32-bit sum of its offset and length wraps around. -/
def Wraps (w : World) (p : PeerId) (index begin length : ℕ) : Prop :=
  (w.peers p).peerInterested = true ∧ (w.peers p).amChoking = false ∧
    length ≤ maxBlockRequestSize ∧ w.torrent.pieceSize index < begin + length ∧
    u32 (begin + length) ≤ w.torrent.pieceSize index

instance (w : World) (p : PeerId) (index begin length : ℕ) :
    Decidable (Wraps w p index begin length) := by
  unfold Wraps; infer_instance

variable {sha1 : List Byte → List ℕ} {w w' : World} {p : PeerId} {env : Env} {payload : List Byte}
  {index begin length : ℕ}

/-! ## `handleBlockRequest` -/

/-- A range that ends beyond the piece after truncation drops the peer. -/
theorem handleBlockRequest_beyond (h : w.torrent.pieceSize index < u32 (begin + length)) :
    Torrent.handleBlockRequest w p env index begin length =
      w.setConn p (w.peers p).conn.closed := by
  unfold Torrent.handleBlockRequest
  rw [disconnect_eq]
  by_cases hi : index ≥ w.torrent.pieces.length
  · exact if_pos hi
  · rw [if_neg hi]
    exact if_pos h

/-- A range inside the piece is read from its place in the file. -/
theorem readFile_eq (hr : ReadsSucceed w.torrent env index begin length) :
    Torrent.readFile w.torrent env (u64 (begin + index * w.torrent.pieceLength)) length =
      Slice.slice w.torrent.file (index * w.torrent.pieceLength + begin) length := by
  have hin := hr.inside
  have hlt := hr.seekable
  have hpos : u64 (begin + index * w.torrent.pieceLength) =
      index * w.torrent.pieceLength + begin := by
    rw [u64_of_lt (by omega), Nat.add_comm]
  have hseek : ¬ (index * w.torrent.pieceLength + begin ≥ 2 ^ 63) := by omega
  rw [Torrent.readFile, hpos, hr.seek]
  simp only [hseek, decide_false, Bool.or_self, Bool.false_eq_true, if_false]
  rw [Nat.min_eq_left hr.read]

theorem handleBlockRequest_served (hi : index < w.torrent.pieces.length) (hpos : 1 ≤ length)
    (hend : begin + length ≤ w.torrent.pieceSize index)
    (hr : ReadsSucceed w.torrent env index begin length) :
    Torrent.handleBlockRequest w p env index begin length =
      (w.setTorrent { w.torrent with
        fp := true
        uploadedBytes := w.torrent.uploadedBytes + length }).log
        (sentEvents (w.peers p).conn p [.pieceBlock (u32 index) (u32 begin)
          (Slice.slice w.torrent.file (index * w.torrent.pieceLength + begin) length)]) := by
  have hu : ¬ u32 (begin + length) > w.torrent.pieceSize index := by
    have := u32_le (begin + length)
    omega
  have hopen : (!w.torrent.fp && env.fopenFails) = false := by
    rcases hr.opened with h | h <;> simp [h]
  have hread := readFile_eq hr
  have hlen : (Slice.slice w.torrent.file (index * w.torrent.pieceLength + begin) length).length =
      length := Slice.length_slice_of_le hr.inside
  unfold Torrent.handleBlockRequest
  rw [if_neg (by omega), if_neg hu, hopen, if_neg (by simp)]
  have hread' : Torrent.readFile { w.torrent with fp := true } env
      (u64 (begin + index * w.torrent.pieceLength)) length =
        Slice.slice w.torrent.file (index * w.torrent.pieceLength + begin) length := hread
  simp only [setTorrent_torrent, hread', hlen]
  rw [if_neg (by omega), Peer.sendPieceBlock, write_eq, List.append_assoc,
    List.take_left' hlen]
  rfl

/-- A range that passes the check leaves the connections alone. -/
theorem handleBlockRequest_peers (hi : index < w.torrent.pieces.length)
    (h : u32 (begin + length) ≤ w.torrent.pieceSize index) :
    (Torrent.handleBlockRequest w p env index begin length).peers = w.peers := by
  unfold Torrent.handleBlockRequest
  rw [if_neg (by omega), if_neg (by simpa using h)]
  simp only
  split_ifs
  · rfl
  · rfl
  · rw [Peer.sendPieceBlock, write_eq]
    rfl

/-! ## The REQUEST frame -/

theorem dispatch_request (w : World) (p : PeerId) (env : Env) (inMsg : IncomingMessage) :
    dispatch sha1 w p env MessageID.request.toByte inMsg = handleRequest w p env inMsg := rfl

/-- The handling of a REQUEST for a finished piece. -/
theorem handleRequest_eq (hsize : payload.length = 12)
    (hf : requestFields payload = (index, begin, length)) (hi : index < w.torrent.pieces.length)
    (hfin : w.torrent.isFinished index = true) :
    (handleRequest w p env { dataBuffer := payload }).next p =
      if (w.peers p).peerInterested = false then handleError w p .requestWithoutInterest
      else if (w.peers p).amChoking = true then handleError w p .requestWhileChoked
      else if length > maxBlockRequestSize then handleError w p (.requestTooBig length)
      else Connection.read (Torrent.handleBlockRequest w p env index begin length) p .message := by
  have hdone : w.torrent.doneValue env index = true := by rw [doneValue_of_lt hi, hfin]
  have hget : IncomingMessage.getSize { dataBuffer := payload } = 12 := hsize
  unfold handleRequest
  rw [if_neg (not_not.mpr hget), indexBeginLength_eq hsize.ge, hf]
  simp only [pieceDone_eq, checkReads_of_not_overrun, hdone, doneFault_of_lt hi, log_nil]
  cases (w.peers p).peerInterested <;> cases (w.peers p).amChoking <;> simp
  split_ifs <;> rfl

theorem handleError_beyond (w : World) (p : PeerId) (e : PeerError) :
    (∀ v ∈ w.newEvents (handleError w p e), v.isPiece = false) ∧
      ((handleError w p e).peers p).conn.isOpen = false := by
  have htrace : (handleError w p e).trace = w.trace ++ [.error p e] := by
    rw [handleError_eq]
    rfl
  refine ⟨?_, ?_⟩
  · rw [newEvents_of_trace htrace]
    simp [Event.isPiece]
  · rw [handleError_eq]
    simp

/-- The step that handles a REQUEST for a finished piece. -/
theorem step_request (hs : step sha1 w (.frame p MessageID.request.toByte payload env) = some w')
    (hsize : payload.length = 12) (hf : requestFields payload = (index, begin, length))
    (hi : index < w.torrent.pieces.length) (hfin : w.torrent.isFinished index = true) :
    (w.peers p).conn.isOpen = true ∧ w' =
      if (w.peers p).peerInterested = false then handleError (takeRead w p) p .requestWithoutInterest
      else if (w.peers p).amChoking = true then handleError (takeRead w p) p .requestWhileChoked
      else if length > maxBlockRequestSize then
        handleError (takeRead w p) p (.requestTooBig length)
      else Connection.read
        (Torrent.handleBlockRequest (takeRead w p) p env index begin length) p .message := by
  simp only [step] at hs
  split_ifs at hs with hrun hready
  refine ⟨hready.1, ?_⟩
  rw [← Option.some.inj hs, handleMessage_eq, dispatch_request]
  have h : (handleRequest (takeRead w p) p env { dataBuffer := payload }).next p = _ :=
    handleRequest_eq hsize hf hi hfin
  simpa [takeRead] using h

/-- A request inside the piece gets the bytes of the file; a request beyond its
    end closes the connection; exactly unless the request wraps around. -/
theorem upload_exact_iff
    (hs : step sha1 w (.frame p MessageID.request.toByte payload env) = some w')
    (hsize : payload.length = 12) (hf : requestFields payload = (index, begin, length))
    (hi : index < w.torrent.pieces.length) (hfin : w.torrent.isFinished index = true) :
    UploadExact w w' p env index begin length ↔ ¬ Wraps w p index begin length := by
  obtain ⟨hopen, hw'⟩ := step_request hs hsize hf hi hfin
  have hindex : u32 index = index ∧ u32 begin = begin := by
    have h0 := readAsBE32_lt payload
    have h4 := readAsBE32_lt (payload.drop 4)
    obtain ⟨rfl, rfl, -⟩ : readAsBE32 payload = index ∧ readAsBE32 (payload.drop 4) = begin ∧
        readAsBE32 (payload.drop 8) = length := by simpa [requestFields] using hf
    exact ⟨u32_of_lt h0, u32_of_lt h4⟩
  constructor
  · rintro hexact ⟨hint, hchoke, hlen, hbeyond, hwrap⟩
    -- the connection stays open, since the truncated sum is inside the piece
    have hclosed := (hexact.beyond hbeyond).2
    have hpeers : (Torrent.handleBlockRequest (takeRead w p) p env index begin length).peers =
        (takeRead w p).peers := handleBlockRequest_peers hi hwrap
    rw [hw', if_neg (by simp [hint]), if_neg (by simp [hchoke]), if_neg (by omega), read_isOpen,
      hpeers] at hclosed
    simp [takeRead, hopen] at hclosed
  · intro hwraps
    constructor
    · intro hint hchoke hpos hlen hend hr
      have hserved := handleBlockRequest_served (w := takeRead w p) (p := p) hi hpos hend hr
      apply newEvents_of_trace
      rw [hw', if_neg (by simp [hint]), if_neg (by simp [hchoke]), if_neg (by omega), read_trace,
        hserved]
      simp [sentEvents, takeRead, hopen, hindex]
    · intro hbeyond
      have herr := handleError_beyond (takeRead w p) p
      rw [hw']
      split_ifs with hint hchoke hlen
      · exact herr _
      · exact herr _
      · exact herr _
      · have hover : w.torrent.pieceSize index < u32 (begin + length) := by
          by_contra hle
          exact hwraps ⟨by simpa using hint, by simpa using hchoke, by omega, hbeyond, by omega⟩
        rw [handleBlockRequest_beyond (w := takeRead w p) hover]
        refine ⟨?_, by simp⟩
        have htrace : (Connection.read ((takeRead w p).setConn p
            ((takeRead w p).peers p).conn.closed) p .message).trace = w.trace ++ [] := by
          simp [takeRead]
        rw [newEvents_of_trace htrace]
        simp

/-! ## After the one-byte download -/

/-- The REQUEST for the byte of the file. -/
def requestInside : List Byte := [0, 0, 0, 0, 0, 0, 0, 0, 0, 0, 0, 1]

/-- A REQUEST for two bytes at the largest 32-bit offset. -/
def requestWrapping : List Byte := [0, 0, 0, 0, 255, 255, 255, 255, 0, 0, 0, 2]

/-- The request for the byte is answered exactly. -/
theorem upload_exact_oneByte : ∃ w', step sha1OfA serving
    (.frame 0 MessageID.request.toByte requestInside {}) = some w' ∧
      UploadExact serving w' 0 {} 0 0 1 := by
  have hsome : (step sha1OfA serving
      (.frame 0 MessageID.request.toByte requestInside {})).isSome = true := by
    decide +kernel
  obtain ⟨w', hw'⟩ := Option.isSome_iff_exists.mp hsome
  exact ⟨w', hw', (upload_exact_iff hw' rfl rfl (by decide +kernel) (by decide +kernel)).mpr
    (by decide +kernel)⟩

/-- The wrapping request is not answered by closing the connection. -/
theorem upload_exact_fails : ¬ ∀ (sha1 : List Byte → List ℕ) (f : ParsedFile) (w w' : World)
    (p : PeerId) (payload : List Byte) (env : Env) (index begin length : ℕ), Reachable sha1 f w →
    step sha1 w (.frame p MessageID.request.toByte payload env) = some w' →
    payload.length = 12 → requestFields payload = (index, begin, length) →
    index < w.torrent.pieces.length → w.torrent.isFinished index = true →
    UploadExact w w' p env index begin length := by
  intro h
  have hopen : ((step sha1OfA serving (.frame 0 MessageID.request.toByte requestWrapping {})).map
      fun w' => (w'.peers 0).conn.isOpen) = some true := by
    decide +kernel
  obtain ⟨w', hw', hopen⟩ := Option.map_eq_some_iff.mp hopen
  have hexact := h sha1OfA oneByteFile serving w' 0 requestWrapping {} 0 4294967295 2
    serving_reachable hw' rfl (by decide +kernel) (by decide +kernel) (by decide +kernel)
  have hclosed := (hexact.beyond (by decide +kernel)).2
  rw [hopen] at hclosed
  cases hclosed

end YTorrent
