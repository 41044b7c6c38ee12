import YTorrent.Torrent.Joining

/-!
# The bitfield

`Torrent::getRawBitfield` packs the bits of the pieces into bytes, and the
BITFIELD and HAVE cases of `Peer::handleMessage` record what a peer announces.

* `carries_getRawBitfield`: bit `i` is bit `7 - i % 8` of byte `i / 8`.
* `mem_bitfieldIndexes_getRawBitfield`: the receiver of our bitfield reads back
  exactly the pieces whose bit is set.
* `announcements_understood`: after a bitfield and any number of HAVE messages
  `hasPiece` is true of the pieces announced, and of no others.
-/

namespace YTorrent

open World Peer

/-! ## The raw bitfield -/

/-- The bytes hold the bits, the first in the most significant bit of the first
    byte, and zeros behind the last. -/
structure Carries (raw : List Byte) (bits : List Bool) : Prop where
  length : raw.length = (bits.length + 7) / 8
  bit : ∀ i < bits.length, (readU8 raw (i / 8)).testBit (7 - i % 8) = bits.getD i false
  spare : ∀ i, bits.length ≤ i → i < 8 * raw.length →
    (readU8 raw (i / 8)).testBit (7 - i % 8) = false

theorem testBit_reverseBits : ∀ b : Fin 256, ∀ j : Fin 8,
    (byte (Torrent.reverseBits b)).val.testBit (7 - j) = b.val.testBit j := by
  decide +kernel

theorem length_getRawBitfield (t : Torrent) :
    t.getRawBitfield.length = (t.bitfield.length + 7) / 8 := by
  simp [Torrent.getRawBitfield, Torrent.toBlockRange]

/-- Bit `7 - k % 8` of byte `k / 8` of the raw bitfield is bit `k` of `bitfield`, and a
    zero behind its end. -/
theorem testBit_getRawBitfield {t : Torrent} {k : ℕ} (hlt : k / 8 < (t.bitfield.length + 7) / 8) :
    (readU8 t.getRawBitfield (k / 8)).testBit (7 - k % 8) = t.bitfield.getD k false := by
  have hmod : k % 8 < 8 := Nat.mod_lt k (by decide)
  have hk : 8 * (k / 8) + k % 8 = k := Nat.div_add_mod k 8
  have hbyte : readU8 t.getRawBitfield (k / 8) = (byte (Torrent.reverseBits
      (Nat.ofBits fun j : Fin 8 => t.bitfield.getD (8 * (k / 8) + j) false))).val := by
    simp [readU8, Torrent.getRawBitfield, Torrent.toBlockRange, hlt]
  have hrev := testBit_reverseBits
    ⟨Nat.ofBits fun j : Fin 8 => t.bitfield.getD (8 * (k / 8) + j) false, Nat.ofBits_lt_two_pow _⟩
    ⟨k % 8, hmod⟩
  rw [hbyte, hrev, Nat.testBit_ofBits_lt _ _ hmod]
  simp [hk]

theorem carries_getRawBitfield (t : Torrent) : Carries t.getRawBitfield t.bitfield where
  length := length_getRawBitfield t
  bit i hi := testBit_getRawBitfield (by omega)
  spare i hi hlt := by
    rw [length_getRawBitfield] at hlt
    rw [testBit_getRawBitfield (by omega), List.getD_eq_default _ _ hi]

/-! ## The receiver of a bitfield -/

theorem mem_bitfieldIndexes {raw : List Byte} {n k : ℕ} : k ∈ bitfieldIndexes raw n ↔
    k / 8 < raw.length ∧ k < n ∧ (readU8 raw (k / 8)).testBit (7 - k % 8) = true := by
  simp only [bitfieldIndexes, List.mem_flatMap, List.mem_filterMap, List.mem_range]
  constructor
  · rintro ⟨i, hi, j, hj, h⟩
    split_ifs at h with hbit
    obtain ⟨hbit, hn⟩ := (Bool.and_eq_true _ _).mp hbit
    obtain rfl := Option.some.inj h
    have hd : (i * 8 + j) / 8 = i := by omega
    have hm : (i * 8 + j) % 8 = j := by omega
    rw [hd, hm]
    exact ⟨hi, of_decide_eq_true hn, hbit⟩
  · rintro ⟨hi, hn, hbit⟩
    have hk : k / 8 * 8 + k % 8 = k := by omega
    refine ⟨k / 8, hi, k % 8, by omega, ?_⟩
    rw [hk, hbit]
    simp [hn]

/-- The receiver of bytes that carry the bits of as many pieces as it has reads back
    the pieces whose bit is set. -/
theorem Carries.mem_bitfieldIndexes {raw : List Byte} {bits : List Bool} (h : Carries raw bits)
    {k : ℕ} : k ∈ bitfieldIndexes raw bits.length ↔ bits[k]? = some true := by
  have hlen := h.length
  rw [YTorrent.mem_bitfieldIndexes]
  constructor
  · rintro ⟨-, hk, hbit⟩
    rw [h.bit k hk, List.getD_eq_getElem _ _ hk] at hbit
    rw [List.getElem?_eq_getElem hk, hbit]
  · intro hk
    obtain ⟨hlt, hbit⟩ := List.getElem?_eq_some_iff.mp hk
    rw [h.bit k hlt, List.getD_eq_getElem _ _ hlt]
    exact ⟨by omega, hlt, hbit⟩

/-- The receiver of the raw bitfield reads back the pieces whose bit is set. -/
theorem mem_bitfieldIndexes_getRawBitfield {t : Torrent} {n k : ℕ} (h : t.bitfield.length = n) :
    k ∈ bitfieldIndexes t.getRawBitfield n ↔ t.bitfield[k]? = some true := by
  rw [← h]
  exact (carries_getRawBitfield t).mem_bitfieldIndexes

/-! ## Announcements received -/

variable {sha1 : List Byte → List ℕ} {w w' : World} {p : PeerId} {env : Env} {payload : List Byte}

/-- The client runs and awaits a message of `p`. -/
structure Awaits (w : World) (p : PeerId) : Prop where
  running : w.running = true
  ready : w.Ready p

theorem Awaits.step_frame (h : Awaits w p) (messageID : Byte) : step sha1 w
    (.frame p messageID payload env) =
      some (Peer.handleMessage sha1 (takeRead w p) p env messageID payload) := by
  simp only [step, h.running, Bool.not_true, Bool.false_eq_true, if_false, if_pos h.ready]

/-- The read behind a message that leaves the connection open. -/
theorem awaits_read (hrun : w.running = true) (hopen : (w.peers p).conn.isOpen = true) :
    Awaits (Connection.read w p .message) p where
  running := by rw [read_running, hrun]
  ready := ⟨by rw [read_isOpen, hopen], by rw [read_conn, if_pos hopen]⟩

theorem handleMessage_bitfield (hpayload : 1 ≤ payload.length) : ∃ v,
    Peer.handleMessage sha1 w p env MessageID.bitfield.toByte payload =
        Connection.read v p .message ∧
      SelectEffect (w.setPeer p
        ((w.peers p).announce (bitfieldIndexes payload w.torrent.getTotalPieces))) p v := by
  have hmsg : Peer.handleMessage sha1 w p env MessageID.bitfield.toByte payload =
      (handleBitfield w p { dataBuffer := payload }).next p := by
    rw [handleMessage_eq]
    rfl
  have hsize : ¬ IncomingMessage.getSize { dataBuffer := payload } < 1 := not_lt.mpr hpayload
  rw [hmsg, handleBitfield, if_neg hsize, Flow.next_brk]
  exact ⟨_, rfl, select_effect _ p⟩

/-- A selection records no announcement. -/
theorem SelectEffect.hasPieceIndexes (h : SelectEffect w p w') :
    (w'.peers p).hasPieceIndexes = (w.peers p).hasPieceIndexes := by
  cases h with
  | none => rfl
  | requested => simp [queuePiece]

theorem SelectEffect.running (h : SelectEffect w p w') : w'.running = w.running := by
  cases h <;> rfl

/-- After a BITFIELD the next message is awaited, and its pieces are announced. -/
theorem step_bitfield (sha1 : List Byte → List ℕ) (env : Env) (h : Awaits w p)
    (hpayload : 1 ≤ payload.length) : ∃ w',
    step sha1 w (.frame p MessageID.bitfield.toByte payload env) = some w' ∧ Awaits w' p ∧
      (w'.peers p).hasPieceIndexes =
        (w.peers p).hasPieceIndexes ++ bitfieldIndexes payload w.torrent.pieces.length := by
  obtain ⟨v, heq, hsel⟩ : ∃ v, Peer.handleMessage sha1 (takeRead w p) p env _ payload = _ ∧
    SelectEffect _ p v := handleMessage_bitfield hpayload
  have hopen : (v.peers p).conn.isOpen = true := by
    rw [hsel.conn]
    simpa [announce, takeRead] using h.ready.1
  have hrun : v.running = true := hsel.running.trans h.running
  refine ⟨_, h.step_frame _, ?_⟩
  rw [heq]
  refine ⟨awaits_read hrun hopen, ?_⟩
  rw [read_hasPieceIndexes, hsel.hasPieceIndexes, setPeer_peers_self]
  simp [announce, takeRead, Torrent.getTotalPieces]

theorem handleMessage_have (hpayload : payload.length = 4) :
    Peer.handleMessage sha1 w p env MessageID.havePiece.toByte payload =
      Connection.read (if (w.peers p).hasPiece (haveField payload) then w
        else w.setPeer p ((w.peers p).announce [haveField payload])) p .message := by
  have hmsg : Peer.handleMessage sha1 w p env MessageID.havePiece.toByte payload =
      (handleHave w p { dataBuffer := payload }).next p := by
    rw [handleMessage_eq]
    rfl
  have hsize : ¬ IncomingMessage.getSize { dataBuffer := payload } ≠ 4 := not_not.mpr hpayload
  rw [hmsg, handleHave, if_neg hsize]
  simp only [IncomingMessage.extractNextU32, List.drop_zero]
  rw [checkReads_of_not_overrun (by simp [hpayload])]
  cases hhas : (w.peers p).hasPiece (haveField payload) with
  | true =>
    have hhas : (w.peers p).hasPiece (readAsBE32 payload) = true := hhas
    simp [hhas]
  | false =>
    have hhas : (w.peers p).hasPiece (readAsBE32 payload) = false := hhas
    simp [hhas, announce, haveField]

/-- After a HAVE the next message is awaited, and its piece is announced. -/
theorem step_have (sha1 : List Byte → List ℕ) (env : Env) (h : Awaits w p)
    (hpayload : payload.length = 4) : ∃ w',
    step sha1 w (.frame p MessageID.havePiece.toByte payload env) = some w' ∧ Awaits w' p ∧
      ∀ i, (w'.peers p).hasPiece i = true ↔
        (w.peers p).hasPiece i = true ∨ haveField payload = i := by
  have hopen : ((takeRead w p).peers p).conn.isOpen = true := by simpa [takeRead] using h.ready.1
  have hknown : ((takeRead w p).peers p).hasPiece = (w.peers p).hasPiece := by
    funext i
    simp [takeRead]
  refine ⟨_, h.step_frame _, ?_⟩
  rw [handleMessage_have hpayload, hknown]
  split_ifs with hhas
  · refine ⟨awaits_read h.running hopen, fun i => ?_⟩
    rw [read_hasPiece, hknown]
    constructor
    · exact .inl
    · rintro (hi | rfl)
      · exact hi
      · exact hhas
  · refine ⟨awaits_read h.running (by simpa [announce] using hopen), fun i => ?_⟩
    rw [read_hasPiece, setPeer_peers_self, ← hknown, hasPiece, announce, List.contains_iff_mem,
      List.mem_append, List.mem_singleton, ← List.contains_iff_mem, @eq_comm _ i]
    rfl

/-- The HAVE messages with these payloads, in the order given. -/
def haves (p : PeerId) (payloads : List (List Byte × Env)) : List Label :=
  payloads.map fun x => .frame p MessageID.havePiece.toByte x.1 x.2

/-- HAVE messages announce their pieces. -/
theorem exec_haves (sha1 : List Byte → List ℕ) {payloads : List (List Byte × Env)}
    (hlen : ∀ x ∈ payloads, x.1.length = 4) :
    ∀ {w : World}, Awaits w p → ∃ w', Runs.exec (step sha1) w (haves p payloads) = some w' ∧
      ∀ i, (w'.peers p).hasPiece i = true ↔
        (w.peers p).hasPiece i = true ∨ ∃ x ∈ payloads, haveField x.1 = i := by
  induction payloads with
  | nil =>
    intro w _
    exact ⟨w, rfl, by simp⟩
  | cons x payloads ih =>
    intro w h
    obtain ⟨hx, hlen⟩ := List.forall_mem_cons.mp hlen
    obtain ⟨u, hu, hawaits, hhas⟩ := step_have sha1 x.2 h hx
    obtain ⟨w', hw', hhas'⟩ := ih hlen hawaits
    refine ⟨w', Runs.exec_cons.mpr ⟨u, hu, hw'⟩, fun i => ?_⟩
    rw [hhas', hhas, List.exists_mem_cons_iff, or_assoc]

/-- The raw bitfield carries the bits; and a client with as many pieces, to which a peer
    that has announced nothing yet sends it as a BITFIELD and then any HAVE messages,
    handles them all, and knows of a piece iff its bit was set or a HAVE was for it. -/
theorem announcements_understood {t : Torrent} (hbits : 0 < t.bitfield.length) :
    Carries t.getRawBitfield t.bitfield ∧ ∀ (sha1 : List Byte → List ℕ) (w : World) (p : PeerId)
      (env : Env) (payloads : List (List Byte × Env)), Awaits w p →
      w.torrent.pieces.length = t.bitfield.length → (w.peers p).hasPieceIndexes = [] →
      (∀ x ∈ payloads, x.1.length = 4) → ∃ w', Runs.exec (step sha1) w
          (.frame p MessageID.bitfield.toByte t.getRawBitfield env :: haves p payloads) = some w' ∧
        ∀ i < t.bitfield.length, (w'.peers p).hasPiece i = true ↔
          t.bitfield[i]? = some true ∨ ∃ x ∈ payloads, haveField x.1 = i := by
  have hcarries := carries_getRawBitfield t
  refine ⟨hcarries, fun sha1 w p env payloads hawaits hlen hnone hpayloads => ?_⟩
  have hraw : 1 ≤ t.getRawBitfield.length := by
    rw [length_getRawBitfield]
    omega
  obtain ⟨u, hu, hawaits, hindexes⟩ := step_bitfield sha1 env hawaits hraw
  obtain ⟨w', hw', hhas⟩ := exec_haves sha1 hpayloads hawaits
  refine ⟨w', Runs.exec_cons.mpr ⟨u, hu, hw'⟩, fun i _ => ?_⟩
  rw [hhas, hasPiece, List.contains_iff_mem, hindexes, hnone, List.nil_append, hlen,
    hcarries.mem_bitfieldIndexes]

/-- The client of the one-byte torrent with a peer that has announced nothing. -/
def greeted : World :=
  Connection.read (Torrent.handshaked (Torrent.accepted oneByteFile.start (some 1)) 0) 0 .message

/-- It is sent the bitfield of a client that has the piece, and a HAVE for it. -/
theorem announcements_understood_oneByte : ∃ w, Runs.exec (step sha1OfA) greeted
    (.frame 0 MessageID.bitfield.toByte oneByteDone.torrent.getRawBitfield {} ::
      haves 0 [([0, 0, 0, 0], {})]) = some w ∧ (w.peers 0).hasPiece 0 = true := by
  have hlen : oneByteDone.torrent.bitfield.length = 1 := by decide +kernel
  have hpos : 0 < oneByteDone.torrent.bitfield.length := by rw [hlen]; decide
  obtain ⟨w, hw, hhas⟩ := (announcements_understood hpos).2 sha1OfA greeted 0 {}
    [([0, 0, 0, 0], {})] ⟨rfl, by decide⟩ (by rw [hlen]; rfl) rfl (by simp)
  exact ⟨w, hw, (hhas 0 hpos).mpr (.inl (by decide +kernel))⟩

end YTorrent
