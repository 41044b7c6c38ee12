import YTorrent.Torrent.FileBytes
import YTorrent.Torrent.Upload

/-!
# What has been uploaded

The PIECE frames of a whole run. A step writes at most one of them, as the answer to
a REQUEST (`Serves`), and every other step leaves the uploads alone (`NoUpload`).

* `step_uploads`: a step writes the block that answers a REQUEST, or none.
* `uploads_genuine`: in a run in which reads succeed and no REQUEST wraps around,
  every block written is the content at the place the frame names, inside a piece
  that is finished, whatever the peers that sent the content and asked for it do.
-/

namespace YTorrent

open World Peer Slice

/-- A REQUEST does not wrap around, and reading from the file succeeds. -/
def ServesInside (w : World) : Label → Prop
  | .frame p messageID payload env =>
    messageID = MessageID.request.toByte →
      (¬ Wraps w p (requestFields payload).1 (requestFields payload).2.1
        (requestFields payload).2.2) ∧
      env.fseekFails = false ∧ maxBlockRequestSize ≤ env.freadLimit
  | _ => True

instance (w : World) : ∀ l, Decidable (ServesInside w l)
  | .frame .. => by unfold ServesInside; infer_instance
  | .socketError _ | .endpointLost _ | .dial _ | .connected _ | .accepted _ | .handshake _ _
  | .disconnectPeers => isTrue trivial

/-- The block lies in the piece, is not longer than a REQUEST may ask for, and holds
    the bytes of the content. -/
structure BlockGenuine (f : ParsedFile) (C : List Byte) (index begin : ℕ) (block : List Byte) :
    Prop where
  end_le : begin + block.length ≤ f.start.torrent.pieceSize index
  pos : 0 < block.length
  length_le : block.length ≤ maxBlockRequestSize
  bytes : block = slice C (index * f.pieceLength + begin) block.length

/-- The bytes of the block an entry of the record writes, if it writes one. -/
def Event.block : Event → List Byte
  | .sent _ (.pieceBlock _ _ block) => block
  | _ => []

/-- The number of bytes of all blocks written. -/
def World.uploaded (w : World) : ℕ := (w.trace.map fun v => v.block.length).sum

/-- The block is written in answer to a REQUEST of `p` with the payload `payload`. -/
structure Serves (w : World) (p : PeerId) (env : Env) (payload block : List Byte) : Prop where
  asks : AsksPiece w p MessageID.request.toByte payload
  index_lt : (requestFields payload).1 < w.torrent.pieces.length
  finished : w.torrent.isFinished (requestFields payload).1 = true
  end_le : u32 ((requestFields payload).2.1 + (requestFields payload).2.2) ≤
    w.torrent.pieceSize (requestFields payload).1
  length_block : block.length = (requestFields payload).2.2
  pos : 0 < block.length
  bytes : block = (Torrent.readFile w.torrent env (u64 ((requestFields payload).2.1 +
    (requestFields payload).1 * w.torrent.pieceLength)) (requestFields payload).2.2 ++
      env.heap ++ List.replicate (requestFields payload).2.2 0).take (requestFields payload).2.2

/-- No block is written between `w` and `w'`. -/
structure NoUpload (w w' : World) : Prop where
  trace : w.Adds w' fun v => v.isPiece = false
  uploadedBytes : w'.torrent.uploadedBytes = w.torrent.uploadedBytes

variable {sha1 : List Byte → List ℕ} {f : ParsedFile} {C : List Byte} {u v w w' : World}
  {p q : PeerId} {env : Env} {messageID : Byte} {payload : List Byte} {l : Label}

/-! ## Steps that write no block -/

theorem Event.block_eq_nil {e : Event} (h : e.isPiece = false) : e.block = [] := by
  cases e with
  | sent p m => cases m <;> first | rfl | cases h
  | error | pieceCompleted | fault => rfl

namespace NoUpload

theorem refl (w : World) : NoUpload w w := ⟨.of_eq rfl, rfl⟩

theorem trans (h : NoUpload u v) (h' : NoUpload v w) : NoUpload u w :=
  ⟨h.trace.trans h'.trace, h'.uploadedBytes.trans h.uploadedBytes⟩

theorem log {es : List Event} (hes : ∀ v ∈ es, v.isPiece = false) : NoUpload w (w.log es) :=
  ⟨.log w hes, rfl⟩

theorem setPeer (w : World) (p : PeerId) (x : Peer) : NoUpload w (w.setPeer p x) :=
  ⟨.of_eq rfl, rfl⟩

theorem setTorrent {t : Torrent} (h : t.uploadedBytes = w.torrent.uploadedBytes) :
    NoUpload w (w.setTorrent t) :=
  ⟨.of_eq rfl, h⟩

theorem read (w : World) (p : PeerId) (rc : Pending) : NoUpload w (Connection.read w p rc) :=
  ⟨.of_eq (read_trace w p rc), by rw [read_torrent]⟩

/-- Messages without a block are written. -/
theorem sent {c : Connection} {ms : List Message}
    (hms : ∀ m ∈ ms, (Event.sent p m).isPiece = false) :
    NoUpload w (w.log (sentEvents c p ms)) := by
  refine log fun v hv => ?_
  obtain ⟨-, m, hm, rfl⟩ := mem_sentEvents.mp hv
  exact hms m hm

theorem handleError (w : World) (p : PeerId) (e : PeerError) :
    NoUpload w (Peer.handleError w p e) := by
  rw [handleError_eq]
  refine (setTorrent (w := w) ?_).trans ((setPeer _ p _).trans (log ?_))
  · rfl
  · simp [Event.isPiece]

theorem select (h : SelectEffect w p w') : NoUpload w w' := by
  cases h with
  | none => exact refl w
  | requested i =>
    refine ((setTorrent (w := w) ?_).trans (setPeer _ p _)).trans (sent fun m hm => ?_)
    · rfl
    · rcases List.mem_cons.mp hm with rfl | hm
      · rfl
      · split at hm
        · cases hm
        · obtain ⟨bl, -, rfl⟩ := List.mem_map.mp hm
          rfl

theorem doneFault (w : World) (i : ℕ) : NoUpload w (w.log (doneFault w.torrent i)) := by
  refine log fun v hv => ?_
  rw [(mem_doneFault hv).2]
  rfl

theorem storeBlock (w : World) (p : PeerId) (payload : List Byte) (it : ℕ) (piece : Peer.Piece) :
    NoUpload w (Peer.storeBlock w p payload it piece) :=
  (doneFault w _).trans (setPeer _ p _)

theorem completion {piece : Peer.Piece} {i : ℕ} {data : List Byte}
    (h : CompletionEffect sha1 w p piece i data w') : NoUpload w w' := by
  cases h with
  | mismatch hash => exact ⟨.log _ (by simp [Event.isPiece]), rfl⟩
  | ioFailed hash file => exact ⟨⟨_, rfl, by simp [Event.isPiece]⟩, rfl⟩
  | stored hash hpos =>
    refine ⟨.log _ fun v hv => ?_, rfl⟩
    simp only [List.mem_append, List.mem_cons] at hv
    rcases hv with hv | rfl | hv
    · rw [(mem_bitFault hv).2]
      rfl
    · rfl
    · obtain ⟨q, -, -, -, rfl⟩ := mem_haveEvents.mp hv
      rfl

theorem outside (h : Outside w w') : NoUpload w w' := by
  refine ⟨h.trace.mono fun v hv => ?_, by rw [h.torrent]⟩
  cases v with
  | sent p m => cases m <;> first | rfl | exact hv.elim
  | error | pieceCompleted | fault => rfl

/-- No message but a REQUEST leads to a block being written. -/
theorem frame (h : FrameEffect sha1 w p env messageID payload w')
    (hid : MessageID.ofByte messageID ≠ some .request) : NoUpload w w' := by
  cases h with
  | ignored => exact read w p _
  | refused e => exact handleError w p e
  | choke | notInterested | havePiece => exact (setPeer w p _).trans (read _ p _)
  | unchoke =>
    refine ((setPeer w p _).trans (sent fun m hm => ?_)).trans (read _ p _)
    obtain ⟨e, -, hm⟩ := List.mem_flatMap.mp hm
    obtain ⟨bl, -, rfl⟩ := List.mem_map.mp hm
    rfl
  | interested =>
    refine ((setPeer w p _).trans (sent fun m hm => ?_)).trans (read _ p _)
    split at hm
    · rw [List.mem_singleton.mp hm]
      rfl
    · cases hm
  | bitfield _ v hsel => exact ((setPeer w p _).trans (select hsel)).trans (read _ p _)
  | request hid' => exact absurd hid' hid
  | cancelled _ it piece =>
    refine ((log fun v hv => ?_).trans (setPeer _ p _)).trans (read _ p _)
    rcases List.mem_append.mp hv with hv | hv
    · rw [(mem_doneFault hv).2]
      rfl
    · obtain ⟨-, m, hm, rfl⟩ := mem_sentEvents.mp hv
      obtain ⟨bl, -, rfl⟩ := List.mem_map.mp hm
      rfl
  | stored _ it piece => exact (storeBlock w p payload it piece).trans (read _ p _)
  | ioFailed _ it piece _ _ _ _ hcomp =>
    exact (storeBlock w p payload it piece).trans (completion hcomp)
  | completed _ it piece _ _ _ v v' hcomp _ hsel =>
    exact (((storeBlock w p payload it piece).trans (completion hcomp)).trans
      ((setPeer _ p _).trans (select hsel))).trans (read _ p _)

end NoUpload

/-! ## The answer to a REQUEST -/

/-- `handleBlockRequest` writes no block, or one of the length asked for. -/
theorem handleBlockRequest_uploads (w : World) (p : PeerId) (env : Env) (pIndex begin length : ℕ) :
    NoUpload w (Torrent.handleBlockRequest w p env pIndex begin length) ∨
      ∃ block, (pIndex < w.torrent.pieces.length ∧
          u32 (begin + length) ≤ w.torrent.pieceSize pIndex ∧
          block.length = length ∧ 0 < block.length ∧
          block = (Torrent.readFile w.torrent env
            (u64 (begin + pIndex * w.torrent.pieceLength)) length ++ env.heap ++
              List.replicate length 0).take length) ∧
        Torrent.handleBlockRequest w p env pIndex begin length =
          (w.setTorrent { w.torrent with
            fp := true
            uploadedBytes := w.torrent.uploadedBytes + length }).log
            (sentEvents (w.peers p).conn p [.pieceBlock (u32 pIndex) (u32 begin) block]) := by
  simp only [Torrent.handleBlockRequest, disconnect_eq]
  split_ifs with hindex hend hopen hread
  · exact .inl (.setPeer w p _)
  · exact .inl (.setPeer w p _)
  · exact .inl (.refl w)
  · exact .inl (.setTorrent rfl)
  · refine .inr ⟨_, ⟨not_le.mp hindex, not_lt.mp hend, ?_, ?_, rfl⟩, ?_⟩
    · rw [List.length_take, List.length_append, List.length_append, List.length_replicate]
      omega
    · have hle : (Torrent.readFile w.torrent env
          (u64 (begin + pIndex * w.torrent.pieceLength)) length).length ≤ length := by
        simp only [Torrent.readFile, length_slice]
        omega
      have hpos : 0 < (Torrent.readFile w.torrent env
          (u64 (begin + pIndex * w.torrent.pieceLength)) length).length := not_le.mp hread
      rw [List.length_take, List.length_append, List.length_append, List.length_replicate]
      omega
    · rw [Peer.sendPieceBlock, write_eq]
      rfl

/-- A REQUEST is answered with one block or with none. -/
theorem handleRequest_uploads (w : World) (p : PeerId) (env : Env) (payload : List Byte) :
    NoUpload w ((handleRequest w p env { dataBuffer := payload }).next p) ∨
      ∃ block, Serves w p env payload block ∧
        (handleRequest w p env { dataBuffer := payload }).next p =
          Connection.read ((w.setTorrent { w.torrent with
            fp := true
            uploadedBytes := w.torrent.uploadedBytes + block.length }).log
            (sentEvents (w.peers p).conn p [.pieceBlock (requestFields payload).1
              (requestFields payload).2.1 block])) p .message := by
  unfold handleRequest
  split_ifs with hsize hint hchoke
  · exact .inl (.handleError w p _)
  · exact .inl (.handleError w p _)
  · exact .inl (.handleError w p _)
  · have hsize : payload.length = 12 := not_not.mp hsize
    rw [indexBeginLength_eq hsize.ge]
    simp only [pieceDone_eq, checkReads_of_not_overrun]
    split_ifs with hlen hdone
    · exact .inl (.handleError w p _)
    · exact .inl ((NoUpload.doneFault w _).trans (.read _ p _))
    · rcases handleBlockRequest_uploads (w.log (doneFault w.torrent (requestFields payload).1)) p
        env (requestFields payload).1 (requestFields payload).2.1
          (requestFields payload).2.2 with hno | ⟨block, ⟨hlt, hend, hblock, hpos, hbytes⟩, heq⟩
      · exact .inl (((NoUpload.doneFault w _).trans hno).trans (.read _ p _))
      · have hlt : (requestFields payload).1 < w.torrent.pieces.length := hlt
        have hno : ¬ w.torrent.doneValue env (requestFields payload).1 = false := by
          simpa using hdone
        rw [doneFault_of_lt hlt, log_nil] at heq
        refine .inr ⟨block, ⟨⟨rfl, hsize, by simpa using hint, by simpa using hchoke,
          not_lt.mp hlen⟩, hlt, ?_, hend, hblock, hpos, hbytes⟩, ?_⟩
        · rw [doneValue_of_lt hlt] at hno
          simpa using hno
        · have hi : u32 (requestFields payload).1 = (requestFields payload).1 :=
            u32_of_lt (readAsBE32_lt _)
          have hb : u32 (requestFields payload).2.1 = (requestFields payload).2.1 :=
            u32_of_lt (readAsBE32_lt _)
          rw [Flow.next_brk, doneFault_of_lt hlt, log_nil, heq, hi, hb, hblock]

theorem toByte_of_ofByte {m : MessageID} (h : MessageID.ofByte messageID = some m) :
    messageID = m.toByte := by
  unfold MessageID.ofByte at h
  split at h <;> cases h <;> exact Fin.ext ‹_›

/-- A step writes no block, or it answers a REQUEST with one. -/
theorem step_uploads (hs : step sha1 w l = some w') : NoUpload w w' ∨
    ∃ p payload env block, l = .frame p MessageID.request.toByte payload env ∧
      Serves w p env payload block ∧
      w'.trace = w.trace ++
        [.sent p (.pieceBlock (requestFields payload).1 (requestFields payload).2.1 block)] ∧
      w'.torrent.uploadedBytes = w.torrent.uploadedBytes + block.length := by
  rcases step_cases hs with ⟨p, messageID, payload, env, rfl, hready, hf⟩ | hout
  · by_cases hid : MessageID.ofByte messageID = some .request
    · obtain rfl := toByte_of_ofByte hid
      have heq := step_frame_eq hs
      rw [handleMessage_eq, dispatch_request] at heq
      rcases handleRequest_uploads (takeRead w p) p env payload
        with hno | ⟨block, hserves, hnext⟩
      · rw [heq] at hno
        exact .inl ((NoUpload.setPeer w p _).trans hno)
      · rw [heq] at hnext
        refine .inr ⟨p, payload, env, block, rfl, ⟨hserves.asks.of_takeRead, hserves.index_lt,
          hserves.finished, hserves.end_le, hserves.length_block, hserves.pos, hserves.bytes⟩,
          ?_, ?_⟩
        · rw [hnext]
          simp [sentEvents, hready.1, takeRead]
        · rw [hnext]
          simp [takeRead]
    · exact .inl ((NoUpload.setPeer w p _).trans (.frame hf hid))
  · exact .inl (.outside hout)

/-! ## Runs -/

/-- The block that answers a REQUEST that does not wrap around is genuine. -/
theorem Serves.genuine {block : List Byte} (hd : Describes sha1 f C)
    (hfree : CollisionFree sha1 f C) (hC : C.length < 2 ^ 63) (hw : Reachable sha1 f w)
    (h : Serves w p env payload block)
    (hwraps : ¬ Wraps w p (requestFields payload).1 (requestFields payload).2.1
      (requestFields payload).2.2)
    (hseek : env.fseekFails = false) (hread : maxBlockRequestSize ≤ env.freadLimit) :
    BlockGenuine f C (requestFields payload).1 (requestFields payload).2.1 block := by
  obtain ⟨⟨-, -, hint, hchoke, hmax⟩, hlt, hfin, hle, hlen, hpos, hbytes⟩ := h
  rw [hw.length_pieces] at hlt
  rw [hw.pieceSize] at hle
  generalize (requestFields payload).1 = i at *
  generalize (requestFields payload).2.1 = begin at *
  generalize (requestFields payload).2.2 = len at *
  have hend : begin + len ≤ f.start.torrent.pieceSize i := by
    by_contra hbeyond
    refine hwraps ⟨hint, hchoke, hmax, ?_, ?_⟩ <;> rw [hw.pieceSize]
    · exact not_le.mp hbeyond
    · exact hle
  have hchunk : (chunk C f.pieceLength i).length = f.start.torrent.pieceSize i := by
    rw [hd.pieceSize_eq hlt, length_chunk]
  -- the piece in the file is the piece of the content
  have hdata := (hw.holds hd hfree).data i ((isFinished_iff w i).mp hfin)
  have hcontent : slice C (i * f.pieceLength) (chunk C f.pieceLength i).length =
      chunk C f.pieceLength i := slice_length_slice ..
  have hslice : slice w.torrent.file (i * f.pieceLength + begin) len =
      slice C (i * f.pieceLength + begin) len :=
    slice_inside (hdata.trans hcontent.symm) (by omega)
  have hfit : i * f.pieceLength + begin + len ≤ C.length := by
    have hpiece := hd.pieceSize_eq hlt
    have hfirst := hd.begin_lt hlt
    omega
  have hbegin : u64 (begin + i * w.torrent.pieceLength) = i * f.pieceLength + begin := by
    rw [show w.torrent.pieceLength = f.pieceLength from hw.layout.2.1, Nat.add_comm]
    exact u64_of_lt (by omega)
  rw [Torrent.readFile, hbegin, hseek] at hbytes
  have hoff : ¬ i * f.pieceLength + begin ≥ 2 ^ 63 := by omega
  simp only [hoff, decide_false, Bool.or_self, Bool.false_eq_true, if_false] at hbytes
  rw [Nat.min_eq_left (hmax.trans hread), hslice, List.append_assoc,
    List.take_left' (length_slice_of_le hfit)] at hbytes
  exact ⟨by omega, hpos, by omega, by rw [hlen]; exact hbytes⟩

/-- In a run in which no REQUEST wraps around and reading from the file succeeds, every
    block written is genuine, and the piece it belongs to is finished. -/
theorem uploads_genuine {ls : List Label} (hd : Describes sha1 f C)
    (hfree : CollisionFree sha1 f C) (hC : C.length < 2 ^ 63)
    (hinside : Runs.Guarded (step sha1) ServesInside f.start ls)
    (h : Runs.exec (step sha1) f.start ls = some w) {index begin : ℕ} {block : List Byte}
    (hsent : .sent p (.pieceBlock index begin block) ∈ w.trace) :
    BlockGenuine f C index begin block ∧ w.torrent.isFinished index = true := by
  have hinv : Reachable sha1 f w ∧ ∀ q index begin block,
      .sent q (.pieceBlock index begin block) ∈ w.trace →
        BlockGenuine f C index begin block ∧ w.torrent.isFinished index = true := by
    refine hinside.invariant (I := fun w => Reachable sha1 f w ∧ ∀ q index begin block,
      .sent q (.pieceBlock index begin block) ∈ w.trace →
        BlockGenuine f C index begin block ∧ w.torrent.isFinished index = true)
      (fun v l v' hg hs hv => ⟨hv.1.step hs, fun q index begin block hmem => ?_⟩) h
      ⟨.refl _, fun q index begin block hmem => (List.not_mem_nil hmem).elim⟩
    have hold : .sent q (.pieceBlock index begin block) ∈ v.trace →
        BlockGenuine f C index begin block ∧ v'.torrent.isFinished index = true := fun hmem =>
      ⟨(hv.2 q index begin block hmem).1,
        isFinished_mono (.single hs) (hv.2 q index begin block hmem).2⟩
    rcases step_uploads hs with hno | ⟨p, payload, env, block', rfl, hserves, htrace, -⟩
    · rcases hno.trace.mem hmem with hmem | hmem
      · exact hold hmem
      · cases hmem
    · rw [htrace] at hmem
      rcases List.mem_append.mp hmem with hmem | hmem
      · exact hold hmem
      · cases List.mem_singleton.mp hmem
        obtain ⟨hwraps, hseek, hread⟩ := hg rfl
        exact ⟨hserves.genuine hd hfree hC hv.1 hwraps hseek hread,
          isFinished_mono (.single hs) hserves.finished⟩
  exact hinv.2 p index begin block hsent

/-- The byte of the one-byte download, as it is sent on. -/
theorem uploads_genuine_oneByte : BlockGenuine oneByteFile [97] 0 0 [97] := by
  have hrun : ((Runs.exec (step sha1OfA) oneByteFile.start (servingRun ++
      [.frame 0 MessageID.request.toByte requestInside {}])).map fun w =>
        decide (.sent 0 (.pieceBlock 0 0 [97]) ∈ w.trace)) = some true := by
    decide +kernel
  obtain ⟨w, hw, hsent⟩ := Option.map_eq_some_iff.mp hrun
  exact (uploads_genuine describes_oneByte collisionFree_oneByte (by decide) (by decide +kernel) hw
    (of_decide_eq_true hsent)).1

end YTorrent
