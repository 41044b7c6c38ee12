import Mathlib.Data.List.ReduceOption
import YTorrent.Common.Framing
import YTorrent.Torrent.Joining

/-!
# The wire format, from sender to receiver

`Peer.handleLoop` is the receiving side: `Peer::handle` reads four bytes, then as
many as they announce, and passes them to `handleMessage`, which asks for the
next four unless it has dropped the connection.

* `bytes_eq`: the buffer of every sender is a length, an id and a payload.
* `handleLoop_reaches`: the loop is a run of the client.
* `extracted_call`: the fields the receiver reads from the payload are those that
  were sent.
* `round_trip`: the handler is called with the messages in order, up to the first
  one whose handling ends the connection, and with all of them, nothing being
  left of the stream, if there is none.
-/

namespace YTorrent

open World Peer

/-! ## The receiving side -/

/-- A call of `handleMessage`: the id and the payload. -/
structure Call where
  messageID : Byte
  payload : List Byte
  deriving DecidableEq, Repr

namespace Peer

/-- The next read of `Peer::handle` is pending on the connection of `p`. The
    number counts the calls of `handleMessage`. -/
def awaits (p : PeerId) (s : World × ℕ) : Bool := s.1.running && decide (s.1.Ready p)

/-- The callback of the second read of `Peer::handle` (peer.cpp lines 99–104). -/
def handleData (sha1 : List Byte → List ℕ) (env : ℕ → Env) (p : PeerId) (s : World × ℕ)
    (data : List Byte) : World × ℕ :=
  (handleMessage sha1 (takeRead s.1 p) p (env s.2) (data.headD 0) data.tail, s.2 + 1)

/-- `Peer::handle` (lines 88–106), with every read it leads to, on the bytes that
    arrive: the state in the end, the calls made and the bytes left. A length of
    0 leads to the next header. -/
def handleLoop (sha1 : List Byte → List ℕ) (env : ℕ → Env) (w : World) (p : PeerId)
    (bytes : List Byte) : World × List Call × List Byte :=
  let r := Framing.feed 4 readAsBE32 (awaits p) (handleData sha1 env p) bytes.length (w, 0) bytes
  (r.1.1, r.2.1.map fun data => ⟨data.headD 0, data.tail⟩, r.2.2)

/-- What `handleMessage` reads from the payload, by the cases of its `switch`;
    `none` where the size check fails or no message of ours has the id. -/
def extracted (c : Call) : Option Message :=
  let inMsg : IncomingMessage := { dataBuffer := c.payload }
  match MessageID.ofByte c.messageID with
  | some .unchoke => if inMsg.getSize ≠ 0 then none else some .unchoke
  | some .interested => if inMsg.getSize ≠ 0 then none else some .interested
  | some .havePiece =>
    if inMsg.getSize ≠ 4 then none else some (.havePiece inMsg.extractNextU32.1)
  | some .bitfield => if inMsg.getSize < 1 then none else some (.bitfield inMsg.getBuffer)
  | some .request =>
    if inMsg.getSize ≠ 12 then none
    else
      let (index, begin, length) := inMsg.indexBeginLength.1
      some (.request index begin length)
  | some .pieceBlock =>
    if inMsg.getSize < 9 then none
    else
      let ((index, begin), inMsg') := inMsg.indexBegin
      (inMsg'.cpyBuffer (inMsg.getSize - 8)).map (.pieceBlock index begin)
  | some .cancel =>
    if inMsg.getSize ≠ 12 then none
    else
      let (index, begin, length) := inMsg.indexBeginLength.1
      some (.cancel index begin length)
  | _ => none

end Peer

/-! ## The sending side -/

namespace Message

/-- The fields are 32-bit numbers, a block is at most `MAX_BLOCK_REQUEST_SIZE`
    bytes and the length of the frame of a bitfield fits its 32-bit prefix. -/
def Sendable : Message → Prop
  | handshake _ => False
  | interested | unchoke => True
  | havePiece index => index < 2 ^ 32
  | bitfield rBitfield => rBitfield.length + 1 < 2 ^ 32
  | request index begin length | cancel index begin length =>
    index < 2 ^ 32 ∧ begin < 2 ^ 32 ∧ length < 2 ^ 32
  | pieceBlock index begin block =>
    index < 2 ^ 32 ∧ begin < 2 ^ 32 ∧ block.length ≤ maxBlockRequestSize

instance : ∀ m : Message, Decidable m.Sendable
  | handshake _ => isFalse id
  | interested | unchoke => isTrue trivial
  | havePiece _ | bitfield _ | request .. | cancel .. | pieceBlock .. => by
    unfold Sendable; infer_instance

/-- A message whose variable part is not empty. -/
def Filled : Message → Prop
  | bitfield rBitfield => rBitfield ≠ []
  | pieceBlock _ _ block => block ≠ []
  | _ => True

/-- The id of a message (a handshake has none) and its payload. -/
def id? : Message → Option MessageID
  | handshake _ => none
  | interested => some .interested
  | unchoke => some .unchoke
  | havePiece _ => some .havePiece
  | bitfield _ => some .bitfield
  | request .. => some .request
  | pieceBlock .. => some .pieceBlock
  | cancel .. => some .cancel

def payload : Message → List Byte
  | handshake bytes => bytes
  | interested | unchoke => []
  | havePiece index => writeAsBE32 index
  | bitfield rBitfield => rBitfield
  | request index begin length | cancel index begin length =>
    writeAsBE32 index ++ (writeAsBE32 begin ++ writeAsBE32 length)
  | pieceBlock index begin block => writeAsBE32 index ++ (writeAsBE32 begin ++ block)

/-- The call of `handleMessage` the message is meant for. -/
def call (m : Message) : Call := ⟨(m.id?.map MessageID.toByte).getD 0, m.payload⟩

/-- What follows the length in the buffer. -/
def body (m : Message) : List Byte := m.call.messageID :: m.call.payload

end Message

/-- The bytes of a message or a keep-alive (`none`). -/
def itemBytes : Option Message → List Byte
  | none => [0, 0, 0, 0]
  | some m => m.bytes

/-- What a sequence of messages, with keep-alives between them, puts on the wire. -/
def wireBytes (items : List (Option Message)) : List Byte := items.flatMap itemBytes

/-- The receiver after the calls for the messages `ms`. -/
def afterMessages (sha1 : List Byte → List ℕ) (env : ℕ → Env) (w : World) (p : PeerId)
    (ms : List Message) : World × ℕ :=
  (ms.map Message.body).foldl (handleData sha1 env p) (w, 0)

/-- What a receiver makes of the messages `items`: it handles the first `k`, where
    `k` is all of them or the first number after which the connection is closed
    or an exception has ended the process; it has read every byte if it awaits
    another message in the end; and the fields of a message that is not empty
    are the ones sent. -/
def RoundTrip (sha1 : List Byte → List ℕ) (env : ℕ → Env) (w : World) (p : PeerId)
    (items : List (Option Message)) : Prop :=
  ∃ k ≤ items.reduceOption.length, ∃ rest,
    handleLoop sha1 env w p (wireBytes items) =
        ((afterMessages sha1 env w p (items.reduceOption.take k)).1,
          (items.reduceOption.take k).map Message.call, rest) ∧
      (∀ j < k, awaits p (afterMessages sha1 env w p (items.reduceOption.take j)) = true) ∧
      (k < items.reduceOption.length →
        ((afterMessages sha1 env w p (items.reduceOption.take k)).1.peers p).conn.isOpen = false ∨
          (afterMessages sha1 env w p (items.reduceOption.take k)).1.running = false) ∧
      (awaits p (afterMessages sha1 env w p (items.reduceOption.take k)) = true → rest = []) ∧
      ∀ m ∈ items.reduceOption, m.Filled → extracted m.call = some m

/-! ## Encoding -/

variable {m : Message}

/-- The buffer of every sender. -/
theorem bytes_eq (h : m.Sendable) : m.bytes = writeAsBE32 m.body.length ++ m.body := by
  cases m with
  | handshake => exact h.elim
  | interested | unchoke | havePiece | request | cancel => rfl
  | bitfield rBitfield =>
    simp only [Message.bytes, Message.body, Message.call, Message.id?, Message.payload,
      OutgoingMessage.addU32, OutgoingMessage.addU8, OutgoingMessage.addCustom, Option.map_some,
      Option.getD_some, List.length_cons, List.nil_append, List.append_assoc, List.cons_append,
      Nat.add_comm]
  | pieceBlock index begin block =>
    have hlen : 9 + block.length = (Message.pieceBlock index begin block).body.length := by
      simp only [Message.body, Message.call, Message.payload, List.length_cons,
        List.length_append, length_writeAsBE32]
      omega
    rw [← hlen]
    simp [Message.bytes, Message.body, Message.call, Message.id?, Message.payload,
      OutgoingMessage.addU32, OutgoingMessage.addU8, OutgoingMessage.addCustom]

theorem body_length_lt (h : m.Sendable) : m.body.length < 2 ^ 32 := by
  cases m with
  | handshake => exact h.elim
  | interested | unchoke | havePiece | request | cancel =>
    simp [Message.body, Message.call, Message.payload]
  | bitfield rBitfield => exact h
  | pieceBlock index begin block =>
    have hlen : block.length ≤ 16384 := h.2.2
    simp only [Message.body, Message.call, Message.payload, List.length_cons, List.length_append,
      length_writeAsBE32]
    omega

theorem header_of_lt {b : List Byte} (h : b.length < 2 ^ 32) :
    Framing.Header 4 readAsBE32 (writeAsBE32 b.length) b where
  length := rfl
  len := by
    have hread := readAsBE32_writeAsBE32 b.length []
    rwa [List.append_nil, u32_of_lt h] at hread

/-! ## Decoding -/

theorem drop_writeAsBE32 (v : ℕ) (rest : List Byte) : (writeAsBE32 v ++ rest).drop 4 = rest := rfl

theorem requestFields_write {i b l : ℕ} (hi : i < 2 ^ 32) (hb : b < 2 ^ 32) (hl : l < 2 ^ 32) :
    requestFields (writeAsBE32 i ++ (writeAsBE32 b ++ writeAsBE32 l)) = (i, b, l) := by
  have hlast := readAsBE32_writeAsBE32 l []
  rw [List.append_nil, u32_of_lt hl] at hlast
  have hdrop : (writeAsBE32 i ++ (writeAsBE32 b ++ writeAsBE32 l)).drop 8 = writeAsBE32 l := rfl
  rw [requestFields, readAsBE32_writeAsBE32, drop_writeAsBE32, readAsBE32_writeAsBE32, hdrop, hlast,
    u32_of_lt hi, u32_of_lt hb]

theorem blockFields_write {i b : ℕ} (hi : i < 2 ^ 32) (hb : b < 2 ^ 32) (block : List Byte) :
    blockFields (writeAsBE32 i ++ (writeAsBE32 b ++ block)) = (i, b) := by
  rw [blockFields, readAsBE32_writeAsBE32, drop_writeAsBE32, readAsBE32_writeAsBE32, u32_of_lt hi,
    u32_of_lt hb]

/-- The fields extracted are the ones sent. -/
theorem extracted_call (h : m.Sendable) (hf : m.Filled) : extracted m.call = some m := by
  cases m with
  | handshake => exact h.elim
  | interested | unchoke => rfl
  | havePiece index =>
    have hread := readAsBE32_writeAsBE32 index []
    rw [List.append_nil, u32_of_lt h] at hread
    have heq : extracted (Message.havePiece index).call =
        some (.havePiece (readAsBE32 (writeAsBE32 index))) := rfl
    rw [heq, hread]
  | bitfield rBitfield =>
    have hpos : ¬ rBitfield.length < 1 := by
      have := List.length_pos_iff.mpr hf
      omega
    have heq : extracted (Message.bitfield rBitfield).call =
        if rBitfield.length < 1 then none else some (.bitfield (rBitfield.drop 0)) := rfl
    rw [heq, if_neg hpos, List.drop_zero]
  | request i b l | cancel i b l =>
    obtain ⟨hi, hb, hl⟩ := h
    have hsize : 12 ≤ (writeAsBE32 i ++ (writeAsBE32 b ++ writeAsBE32 l)).length := le_rfl
    have heq := indexBeginLength_eq hsize
    rw [requestFields_write hi hb hl] at heq
    simp [extracted, Message.call, Message.id?, Message.payload, IncomingMessage.getSize, heq]
  | pieceBlock i b block =>
    obtain ⟨hi, hb, -⟩ := h
    have hpos := List.length_pos_iff.mpr hf
    have hlen : (writeAsBE32 i ++ (writeAsBE32 b ++ block)).length = block.length + 8 := by
      simp only [List.length_append, length_writeAsBE32]
      omega
    have heq := indexBegin_eq (show 8 ≤ (writeAsBE32 i ++ (writeAsBE32 b ++ block)).length by omega)
    have hcpy := cpyBuffer_eq (show 8 ≤ (writeAsBE32 i ++ (writeAsBE32 b ++ block)).length by omega)
    have hdata : blockData (writeAsBE32 i ++ (writeAsBE32 b ++ block)) = block := rfl
    rw [blockFields_write hi hb] at heq
    have hsmall : ¬ (writeAsBE32 i ++ (writeAsBE32 b ++ block)).length < 9 := by omega
    simp only [extracted, Message.call, Message.id?, Message.payload, Option.map_some,
      Option.getD_some, MessageID.ofByte_toByte, IncomingMessage.getSize, if_neg hsmall, heq, hcpy,
      hdata]

/-! ## The loop -/

variable {sha1 : List Byte → List ℕ} {w w' : World} {p : PeerId} {env : ℕ → Env} {e : Env}
  {messageID : Byte} {payload : List Byte}

/-- An iteration of the loop is a step of the client. -/
theorem step_handleData {s : World × ℕ} (hs : awaits p s = true) (data : List Byte) :
    step sha1 s.1 (.frame p (data.headD 0) data.tail (env s.2)) =
      some (handleData sha1 env p s data).1 := by
  obtain ⟨hrun, hready⟩ := (Bool.and_eq_true _ _).mp hs
  rw [step, hrun, if_neg (by simp)]
  exact if_pos (of_decide_eq_true hready)

/-- What the loop does is a run of the client. -/
theorem handleLoop_reaches (sha1 : List Byte → List ℕ) (env : ℕ → Env) (w : World) (p : PeerId)
    (bytes : List Byte) : Runs.Reaches (step sha1) w (handleLoop sha1 env w p bytes).1 :=
  Framing.feed_invariant (I := fun s : World × ℕ => Runs.Reaches (step sha1) w s.1)
    (fun _ data hready hs => hs.tail (step_handleData hready data)) _ (.refl w) bytes

/-- After a frame the next one is awaited unless the connection is closed or an
    exception has ended the process. -/
theorem FrameEffect.pending (h : FrameEffect sha1 w p e messageID payload w')
    (hopen : (w'.peers p).conn.isOpen = true) (hrun : w'.running = true) :
    (w'.peers p).conn.pending = .message := by
  have hread : ∀ u : World, ((Connection.read u p .message).peers p).conn.isOpen = true →
      ((Connection.read u p .message).peers p).conn.pending = .message := by
    intro u hu
    rw [read_isOpen] at hu
    rw [read_conn, if_pos hu]
  cases h with
  | refused err =>
    rw [handleError_eq, log_peers, setConn_conn_self] at hopen
    cases hopen
  | ioFailed _ _ _ _ _ _ _ _ hstop =>
    rw [hstop] at hrun
    cases hrun
  | ignored | choke | unchoke | interested | notInterested | havePiece | stored | cancelled =>
    exact hread _ hopen
  | bitfield | request | completed => exact hread _ hopen

theorem stopped_of_not_awaits {s : World × ℕ} {data : List Byte}
    (hs : awaits p (handleData sha1 env p s data) = false) :
    ((handleData sha1 env p s data).1.peers p).conn.isOpen = false ∨
      (handleData sha1 env p s data).1.running = false := by
  by_contra hno
  simp only [not_or, Bool.not_eq_false] at hno
  have heff := handleMessage_effect sha1 (takeRead s.1 p) p (env s.2) (data.headD 0) data.tail
  have hpend := heff.pending hno.1 hno.2
  rw [awaits, hno.2, Bool.true_and, decide_eq_false_iff_not] at hs
  exact hs ⟨hno.1, hpend⟩

/-- The bodies of the frames on the wire; a keep-alive has none. -/
def itemBody : Option Message → List Byte
  | none => []
  | some m => m.body

theorem wireBytes_eq {items : List (Option Message)} (h : ∀ m, some m ∈ items → m.Sendable) :
    wireBytes items = Framing.frames (fun b => writeAsBE32 b.length) (items.map itemBody) := by
  rw [wireBytes, Framing.frames, List.flatMap_map]
  refine List.flatMap_congr fun item hitem => ?_
  cases item with
  | none => rfl
  | some m => exact bytes_eq (h m hitem)

theorem filter_itemBody (items : List (Option Message)) :
    (items.map itemBody).filter (· ≠ []) = items.reduceOption.map Message.body := by
  induction items with
  | nil => rfl
  | cons item items ih =>
    cases item with
    | none => simpa [itemBody, List.reduceOption_cons_of_none] using ih
    | some m => simpa [itemBody, Message.body, List.reduceOption_cons_of_some] using ih

theorem length_le_wireBytes {items : List (Option Message)}
    (h : ∀ m, some m ∈ items → m.Sendable) :
    (items.map itemBody).length ≤ (wireBytes items).length := by
  induction items with
  | nil => exact le_rfl
  | cons item items ih =>
    have ih := ih fun m hm => h m (List.mem_cons_of_mem _ hm)
    have hitem : 1 ≤ (itemBytes item).length := by
      cases item with
      | none => decide
      | some m =>
        rw [itemBytes, bytes_eq (h m List.mem_cons_self), List.length_append, length_writeAsBE32]
        omega
    simp only [wireBytes, List.flatMap_cons, List.length_append, List.map_cons,
      List.length_cons] at ih ⊢
    omega

/-- Every sequence of messages, with keep-alives anywhere, makes the round trip. -/
theorem round_trip (sha1 : List Byte → List ℕ) (env : ℕ → Env) {items : List (Option Message)}
    (h : ∀ m, some m ∈ items → m.Sendable) (hw : awaits p (w, 0) = true) :
    RoundTrip sha1 env w p items := by
  have hheader : ∀ b ∈ items.map itemBody,
      Framing.Header 4 readAsBE32 (writeAsBE32 b.length) b := by
    intro b hb
    obtain ⟨item, hitem, rfl⟩ := List.mem_map.mp hb
    cases item with
    | none => exact header_of_lt (by decide)
    | some m => exact header_of_lt (body_length_lt (h m hitem))
  obtain ⟨rest, hfeed, hrest⟩ := Framing.feed_frames (awaits p) (handleData sha1 env p)
    (by decide) hheader (length_le_wireBytes h) (w, 0)
  obtain ⟨k, hk, hserve, hready, hstop⟩ := Framing.serve_eq (awaits p) (handleData sha1 env p) (w, 0)
    (items.reduceOption.map Message.body)
  rw [← wireBytes_eq h, filter_itemBody, hserve] at hfeed
  rw [filter_itemBody, hserve] at hrest
  rw [List.length_map] at hk hstop
  have hafter : ∀ j, ((items.reduceOption.map Message.body).take j).foldl (handleData sha1 env p)
      (w, 0) = afterMessages sha1 env w p (items.reduceOption.take j) := by
    intro j
    rw [afterMessages, List.map_take]
  simp only [hafter] at hfeed hready hstop hrest
  refine ⟨k, hk, rest, ?_, hready, fun hlt => ?_, hrest, fun m hm hf => ?_⟩
  · rw [handleLoop, hfeed]
    simp only [← List.map_take, List.map_map]
    rfl
  · -- the loop stops after a message, since it awaits the first one
    have hfalse := hstop hlt
    cases k with
    | zero =>
      rw [List.take_zero] at hfalse
      exact absurd hw (by rw [show awaits p (w, 0) = false from hfalse]; simp)
    | succ j =>
      have hj : j < items.reduceOption.length := Nat.lt_of_succ_lt hlt
      have hsucc : afterMessages sha1 env w p (items.reduceOption.take (j + 1)) =
          handleData sha1 env p (afterMessages sha1 env w p (items.reduceOption.take j))
            (items.reduceOption[j]).body := by
        rw [afterMessages, List.take_succ_eq_append_getElem hj, List.map_append, List.foldl_append]
        rfl
      rw [hsucc] at hfalse ⊢
      exact stopped_of_not_awaits hfalse
  · exact extracted_call (h m (List.reduceOption_mem_iff.mp hm)) hf

/-- An INTERESTED and a REQUEST between keep-alives, to a client that has the piece. -/
theorem round_trip_oneByte : RoundTrip sha1OfA (fun _ => {}) oneByteDone 0
    [none, some .interested, none, some (.request 0 0 1)] := by
  refine round_trip sha1OfA (fun _ => {}) (fun m hm => ?_) (by decide +kernel)
  simp only [List.mem_cons, reduceCtorEq, Option.some.injEq, List.not_mem_nil, false_or,
    or_false] at hm
  rcases hm with rfl | rfl <;> decide

/-! ## A message that ends the connection -/

/-- A REQUEST without interest makes the receiver drop the connection, and the
    INTERESTED behind it is not handled. -/
theorem round_trip_fails : ¬ ∀ (sha1 : List Byte → List ℕ) (env : ℕ → Env) (f : ParsedFile)
    (w : World) (p : PeerId) (items : List (Option Message)), Reachable sha1 f w →
      awaits p (w, 0) = true → (∀ m, some m ∈ items → m.Sendable) →
        (handleLoop sha1 env w p (wireBytes items)).2.1 = items.reduceOption.map Message.call := by
  intro h
  have hlen : ((Runs.exec (step sha1OfA) oneByteFile.start (oneByteRun.take 2)).map fun w =>
      awaits 0 (w, 0) && decide ((handleLoop sha1OfA (fun _ => {}) w 0
        (wireBytes [some (.request 0 0 1), some .interested])).2.1.length = 1)) = some true := by
    decide +kernel
  obtain ⟨w, hw, hlen⟩ := Option.map_eq_some_iff.mp hlen
  obtain ⟨hawaits, hlen⟩ := (Bool.and_eq_true _ _).mp hlen
  have hcalls := h sha1OfA (fun _ => {}) oneByteFile w 0 [some (.request 0 0 1), some .interested]
    ⟨_, hw⟩ hawaits (fun m hm => by
      simp only [List.mem_cons, Option.some.injEq, List.not_mem_nil, or_false] at hm
      rcases hm with rfl | rfl <;> decide)
  have htwo := congrArg List.length hcalls
  rw [of_decide_eq_true hlen] at htwo
  exact absurd htwo (by decide)

end YTorrent
