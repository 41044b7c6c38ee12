import YTorrent.Torrent.Reception
import YTorrent.Torrent.Uploads

/-!
# Reads after the end of a connection

The read handler of `Connection::read` (`src/net/connection.cpp` lines 86–102) does not look
whether the socket is still open. A read that is complete when the connection is closed, by
an error or by `Torrent::disconnectPeers`, is handled all the same; what the callback writes
or reads then goes nowhere. `lateStep` is the client with such reads.

* `Reception.Inv.step_late`: what happens on the connection of a peer, open or closed, is a
  run of the client with late reads.
* `late_integrity`: the file is as sound as without them.
* `uploads_counted`: `uploadedBytes` is the sum of the lengths of all blocks written, but for
  the blocks that late REQUESTs ask for in vain.
-/

namespace YTorrent

open World Peer

/-- What a read that ends after the connection has been closed was for: a handshake, or a
    whole message. The header of a message leads to nothing, since no further read is issued. -/
inductive LateRead
  | connectHandshake (peerHandshake : List Byte)
  | authenticateHandshake (peerHandshake : List Byte)
  | message (messageID : Byte) (payload : List Byte) (env : Env)
  deriving DecidableEq, Repr

/-- The callback of the read. -/
def LateRead.callBack (sha1 : List Byte → List ℕ) (w : World) (p : PeerId) : LateRead → World
  | .connectHandshake peerHandshake => Peer.connectHandshake w p peerHandshake
  | .authenticateHandshake peerHandshake => Peer.authenticateHandshake w p peerHandshake
  | .message messageID payload env => Peer.handleMessage sha1 w p env messageID payload

/-- A step of the client, or a read of `p` that ends after its connection has been closed. -/
inductive LateLabel
  | client (l : Label)
  | late (p : PeerId) (r : LateRead)
  deriving DecidableEq, Repr

/-- One step. Any closed connection may have had a read complete when it was closed. -/
def lateStep (sha1 : List Byte → List ℕ) (w : World) : LateLabel → Option World
  | .client l => step sha1 w l
  | .late p r =>
    if w.running = true ∧ p < w.peerCount ∧ (w.peers p).conn.isOpen = false then
      some (r.callBack sha1 (takeRead w p) p)
    else none

/-- A REQUEST is handled late. -/
def LateLabel.isRequest : LateLabel → Bool
  | .late _ (.message messageID _ _) => messageID == MessageID.request.toByte
  | _ => false

variable {sha1 : List Byte → List ℕ} {f : ParsedFile} {w w' : World} {p : PeerId} {r : LateRead}
  {l : Label} {ls : List LateLabel}

/-- The runs of the client are among those with late reads. -/
theorem late_of_reaches (h : Runs.Reaches (step sha1) w w') :
    Runs.Reaches (lateStep sha1) w w' :=
  h.invariant (I := Runs.Reaches (lateStep sha1) w)
    (fun _ l _ hs hr => hr.tail (a := .client l) hs) (.refl w)

/-! ## The reads of a peer -/

namespace Peer.Reception

variable {B : Type*} {sb : Streambuf B Byte} {s s' : Reception B} {rc : ReadCallback} {env : Env}
  {data : List Byte}

/-- On a closed connection a callback is a late read, or it only reads a header. -/
theorem callBack_late (hrun : s.world.running = true) (hlt : p < s.world.peerCount)
    (hclosed : ¬ Open s.world p) :
    Runs.Reaches (lateStep sha1) s.world (s.callBack sb sha1 env p data rc).world := by
  have hlate : ∀ r : LateRead,
      Runs.Reaches (lateStep sha1) s.world (r.callBack sha1 (takeRead s.world p) p) := fun r =>
    .single (a := .late p r) (if_pos ⟨hrun, hlt, Bool.eq_false_of_not_eq_true hclosed⟩)
  cases rc with
  | connectHandshake =>
    unfold callBack
    rw [world_handshake]
    exact hlate (.connectHandshake data)
  | authenticateHandshake =>
    unfold callBack
    rw [world_handshake]
    exact hlate (.authenticateHandshake data)
  | handle =>
    unfold callBack
    rw [world_handle]
    exact .refl _
  | handleData =>
    unfold callBack
    rw [world_handleData]
    exact hlate (.message (data.headD 0) data.tail env)

/-- What happens on the connection of a peer is a run of the client with late reads. -/
theorem Inv.step_late (hsb : sb.Documented) {l : Label} (h : Inv sb p s)
    (hs : s.step sb sha1 p l = some s') : Runs.Reaches (lateStep sha1) s.world s'.world := by
  by_cases hopen : Open s.world p
  · exact late_of_reaches (h.step_world hsb hopen hs)
  cases step_effect hs with
  | arrive | aborted => exact .refl _
  | complete env hrun op ops hr hp hfull rc hcb s' hs' =>
    subst hs'
    exact callBack_late (s := { s with receiver := s.receiver.callBack sb op ops }) hrun h.lt hopen
  | failed hrun r hr =>
    refine .single (a := .client (.socketError p)) ?_
    show YTorrent.step sha1 s.world (.socketError p) = _
    unfold YTorrent.step
    rw [hrun, Bool.not_true, if_neg Bool.false_ne_true]
    exact if_pos h.lt
  | other l hl w hw => exact .single (a := .client l) hw

end Peer.Reception

/-! ## What a late read does -/

/-- A late read is the handling of a message, or leaves the download alone. -/
theorem callBack_cases (sha1 : List Byte → List ℕ) (w : World) (p : PeerId) (r : LateRead) :
    (∃ messageID payload env, r = .message messageID payload env ∧
      FrameEffect sha1 w p env messageID payload (r.callBack sha1 w p)) ∨
    Outside w (r.callBack sha1 w p) := by
  cases r with
  | message messageID payload env =>
    exact .inl ⟨messageID, payload, env, rfl, handleMessage_effect ..⟩
  | connectHandshake peerHandshake =>
    right
    rw [LateRead.callBack, Peer.connectHandshake]
    split
    · exact .handleError w p (.inl rfl)
    · exact (Outside.handshaked w p).trans (.read _ p _)
  | authenticateHandshake peerHandshake =>
    right
    cases href : handshakeRefused w.torrent.handshake peerHandshake with
    | true =>
      rw [LateRead.callBack, Peer.authenticateHandshake, if_pos href]
      exact .handleError w p (.inl rfl)
    | false =>
      rw [LateRead.callBack, authenticateHandshake_eq href]
      refine ((Outside.handshaked w p).trans (.log _ fun v hv => ?_)).trans (.read _ p _)
      obtain ⟨-, m, hm, rfl⟩ := mem_sentEvents.mp hv
      rcases List.mem_pair.mp hm with rfl | rfl <;> trivial

/-! ## The file -/

/-- Every step leaves the ledger alone or is one of its steps. -/
theorem lateStep_ledger {l : LateLabel} (hs : lateStep sha1 w l = some w') :
    w'.ledger = w.ledger ∨ Ledger.Step sha1 w.ledger w'.ledger := by
  cases l with
  | client l => exact step_ledger (show step sha1 w l = some w' from hs)
  | late p r =>
    obtain ⟨-, hcall⟩ := Option.ite_none_right_eq_some.mp hs
    obtain rfl := Option.some.inj hcall
    have htake : (takeRead w p).ledger = w.ledger := rfl
    rw [← htake]
    rcases callBack_cases sha1 (takeRead w p) p r with ⟨_, _, _, -, heff⟩ | hout
    · exact ledger_frame heff
    · exact .inl hout.ledger

/-- What the steps of the ledger preserve holds also after late reads. -/
theorem late_invariant {I : Ledger → Prop} (hstep : ∀ d d', Ledger.Step sha1 d d' → I d → I d')
    (h : Runs.Reaches (lateStep sha1) w w') (hw : I w.ledger) : I w'.ledger := by
  refine h.invariant (I := fun v => I v.ledger) (fun v l v' hv hi => ?_) hw
  rcases lateStep_ledger hv with heq | hs
  · rwa [heq]
  · exact hstep _ _ hs hi

/-- Late reads do no harm to the file: in every run with them each finished piece has its chunk
    of the content in the file, and once `completedPieces` is the number of pieces, the file
    begins with the content. -/
theorem late_integrity {C : List Byte} (hd : Describes sha1 f C) (hfree : CollisionFree sha1 f C)
    (h : Runs.Reaches (lateStep sha1) f.start w) :
    w.ledger.Holds f C ∧ (w.torrent.completedPieces = w.torrent.pieces.length →
      w.torrent.file.take w.torrent.totalSize = C) := by
  have hholds : w.ledger.Holds f C :=
    late_invariant (fun _ _ hs => Ledger.Holds.step hd hfree hs) h (holds_start f C)
  have hcons : w.ledger.Consistent :=
    late_invariant (fun _ _ hs => Ledger.Consistent.step hs) h (consistent_start f)
  refine ⟨hholds, fun hc => hholds.take_eq hd fun i hi => all_finished_of_completed hcons hc ?_⟩
  rw [hholds.length]
  exact hi

/-! ## The blocks written -/

theorem NoUpload.uploaded (h : NoUpload w w') : w'.uploaded = w.uploaded := by
  obtain ⟨es, hes, hpiece⟩ := h.trace
  have hzero : (es.map fun v => v.block.length).sum = 0 := by
    refine List.sum_eq_zero_iff_forall_eq_nat.mpr fun n hn => ?_
    obtain ⟨v, hv, rfl⟩ := List.mem_map.mp hn
    rw [Event.block_eq_nil (hpiece v hv)]
    rfl
  rw [World.uploaded, World.uploaded, hes, List.map_append, List.sum_append, hzero, Nat.add_zero]

/-- A step of the client counts the block that it writes. -/
theorem step_counts (hs : step sha1 w l = some w') :
    ∃ n, w'.uploaded = w.uploaded + n ∧
      w'.torrent.uploadedBytes = w.torrent.uploadedBytes + n := by
  rcases step_uploads hs with hno | ⟨p, payload, env, block, -, -, htrace, hbytes⟩
  · exact ⟨0, hno.uploaded, hno.uploadedBytes⟩
  · refine ⟨block.length, ?_, hbytes⟩
    rw [World.uploaded, World.uploaded, htrace, List.map_append, List.sum_append]
    simp [Event.block]

/-- A late read writes no block, and counts one only if it is a REQUEST. -/
theorem late_counts (sha1 : List Byte → List ℕ) (r : LateRead)
    (hclosed : (w.peers p).conn.isOpen = false) :
    (r.callBack sha1 w p).uploaded = w.uploaded ∧
      ∃ n, (r.callBack sha1 w p).torrent.uploadedBytes = w.torrent.uploadedBytes + n ∧
        n ≤ if (LateLabel.late p r).isRequest then maxBlockRequestSize else 0 := by
  have hnone : NoUpload w (r.callBack sha1 w p) →
      (r.callBack sha1 w p).uploaded = w.uploaded ∧
        ∃ n, (r.callBack sha1 w p).torrent.uploadedBytes = w.torrent.uploadedBytes + n ∧
          n ≤ if (LateLabel.late p r).isRequest then maxBlockRequestSize else 0 :=
    fun hno => ⟨hno.uploaded, 0, hno.uploadedBytes, Nat.zero_le _⟩
  rcases callBack_cases sha1 w p r with ⟨messageID, payload, env, rfl, heff⟩ | hout
  · by_cases hid : MessageID.ofByte messageID = some .request
    · obtain rfl := toByte_of_ofByte hid
      rw [LateRead.callBack, handleMessage_eq, dispatch_request]
      rcases handleRequest_uploads w p env payload with hno | ⟨block, hserves, hnext⟩
      · exact ⟨hno.uploaded, 0, hno.uploadedBytes, Nat.zero_le _⟩
      · -- The connection is closed, so the block goes nowhere.
        have hsent : ∀ ms, sentEvents (w.peers p).conn p ms = [] := fun ms =>
          if_neg (by rw [hclosed]; exact Bool.false_ne_true)
        rw [hnext, hsent, World.log_nil]
        refine ⟨?_, block.length, ?_, ?_⟩
        · rw [World.uploaded, World.uploaded, read_trace]
          rfl
        · rw [read_torrent]
          rfl
        · have hrequest : (LateLabel.late p (.message MessageID.request.toByte payload
              env)).isRequest = true := rfl
          rw [if_pos hrequest, hserves.length_block]
          exact hserves.asks.length_le
    · exact hnone (.frame heff hid)
  · exact hnone (.outside hout)

/-- A step counts the block that it writes, or one that a late REQUEST asks for. -/
theorem lateStep_counts {l : LateLabel} (hs : lateStep sha1 w l = some w') :
    ∃ n m, w'.uploaded = w.uploaded + n ∧
      w'.torrent.uploadedBytes = w.torrent.uploadedBytes + n + m ∧
      m ≤ maxBlockRequestSize * if l.isRequest then 1 else 0 := by
  cases l with
  | client l =>
    obtain ⟨n, hwritten, hcounted⟩ := step_counts (show step sha1 w l = some w' from hs)
    exact ⟨n, 0, hwritten, hcounted, Nat.zero_le _⟩
  | late p r =>
    obtain ⟨⟨-, -, hclosed⟩, hcall⟩ := Option.ite_none_right_eq_some.mp hs
    obtain rfl := Option.some.inj hcall
    have hclosed : ((takeRead w p).peers p).conn.isOpen = false := by
      rw [takeRead, setConn_conn_self]
      exact hclosed
    obtain ⟨hwritten, n, hcounted, hn⟩ := late_counts sha1 r hclosed
    exact ⟨0, n, hwritten, hcounted, by rwa [mul_ite, Nat.mul_one, Nat.mul_zero]⟩

/-- In every run `uploadedBytes` is at least the number of bytes of all the blocks that have
    been written to any peer, and exceeds it by at most one block for each REQUEST that is
    handled after its connection has been closed. -/
theorem uploads_counted (h : Runs.exec (lateStep sha1) f.start ls = some w) :
    w.uploaded ≤ w.torrent.uploadedBytes ∧
      w.torrent.uploadedBytes ≤
        w.uploaded + maxBlockRequestSize * ls.countP LateLabel.isRequest := by
  have hrun : ∀ {ls : List LateLabel} {v : World}, Runs.exec (lateStep sha1) v ls = some w →
      ∃ n m, w.uploaded = v.uploaded + n ∧
        w.torrent.uploadedBytes = v.torrent.uploadedBytes + n + m ∧
        m ≤ maxBlockRequestSize * ls.countP LateLabel.isRequest := by
    intro ls
    induction ls with
    | nil =>
      intro v h
      cases h
      exact ⟨0, 0, rfl, rfl, Nat.zero_le _⟩
    | cons l ls ih =>
      intro v h
      obtain ⟨u, hu, h⟩ := Runs.exec_cons.mp h
      obtain ⟨n, m, hwritten, hcounted, hm⟩ := lateStep_counts hu
      obtain ⟨n', m', hwritten', hcounted', hm'⟩ := ih h
      rw [List.countP_cons, Nat.mul_add]
      exact ⟨n + n', m + m', by omega, by omega, by omega⟩
  obtain ⟨n, m, hwritten, hcounted, hm⟩ := hrun h
  have hstart : f.start.uploaded = 0 ∧ f.start.torrent.uploadedBytes = 0 := ⟨rfl, rfl⟩
  exact ⟨by omega, by omega⟩

/-- The run of `serving` with a REQUEST that is answered, and another one that is handled
    after `disconnectPeers`. -/
def lateRun : List LateLabel :=
  servingRun.map .client ++
    [.client (.frame 0 MessageID.request.toByte requestInside {}), .client .disconnectPeers,
      .late 0 (.message MessageID.request.toByte requestInside {})]

/-- One of the two blocks of one byte has been written, and both are counted. -/
theorem uploads_counted_lateRun : ∃ w, Runs.exec (lateStep sha1OfA) oneByteFile.start lateRun =
    some w ∧ (w.uploaded = 1 ∧ w.torrent.uploadedBytes = 2) ∧
      w.torrent.uploadedBytes ≤ w.uploaded + maxBlockRequestSize * 1 := by
  have hrun : ((Runs.exec (lateStep sha1OfA) oneByteFile.start lateRun).map fun w =>
      decide (w.uploaded = 1 ∧ w.torrent.uploadedBytes = 2)) = some true := by
    decide +kernel
  obtain ⟨w, hw, hcounts⟩ := Option.map_eq_some_iff.mp hrun
  exact ⟨w, hw, of_decide_eq_true hcounts, (uploads_counted hw).2⟩

end YTorrent
