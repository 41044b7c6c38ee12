import YTorrent.Torrent.Greeting
import YTorrent.Torrent.Reception
import YTorrent.Torrent.Sending

/-!
# From one client to another

One direction of a connection between two clients, with every layer of the program
between them: the handlers of the first client write messages, the buffers are moved
to the socket in parts (`Network`), the bytes arrive in parts at the stream buffer of
the second client, and the callbacks of its reads cut them into messages (`Reception`).
As in `Network`, a buffer keeps its contents until its write has completed.

* `Reads.step`: the callbacks read a handshake, and then the headers and the bodies of
  frames in turn.
* `messages_delivered`: the calls of `handleMessage` are those for the messages written,
  in the order in which they were written, with nothing lost, repeated or changed; and
  they are all of them once everything written has arrived, if the connection is open.
-/

namespace YTorrent

open World

namespace Peer

namespace Reception

variable {B : Type*} {sb : Streambuf B Byte} {sha1 : List Byte → List ℕ} {p : PeerId} {env : Env}
  {w : World} {s s' : Reception B} {rc : ReadCallback} {data : List Byte}

/-! ## What the callbacks read -/

/-- The bytes that the callback of the second read of `handle` is called with. -/
def body? (c : ReadCallback × List Byte) : Option (List Byte) :=
  if c.1 = .handleData then some c.2 else none

/-- The bodies of the frames read. -/
def bodies (r : Receiver B ReadCallback) : List (List Byte) := r.calls.filterMap body?

/-- The calls of `handleMessage`. -/
def calls (s : Reception B) : List Call :=
  (bodies s.receiver).map fun data => ⟨data.headD 0, data.tail⟩

/-- The read that a callback issues if the connection stays open. -/
def nextRead (data : List Byte) : ReadCallback → ReadCallback × ℕ
  | .handle => if readAsBE32 data = 0 then (.handle, 4) else (.handleData, readAsBE32 data)
  | .connectHandshake | .authenticateHandshake | .handleData => (.handle, 4)

/-- What has been read, and the callback and the size of the read that comes next: a
    handshake, or after a handshake the header or the body of a frame. -/
inductive Heard (r : Receiver B ReadCallback) : ReadCallback × ℕ → Prop
  | handshake (rc : ReadCallback) (hrc : rc = .connectHandshake ∨ rc = .authenticateHandshake)
    (hcalls : r.calls = []) : Heard r (rc, 68)
  | header (c : ReadCallback × List Byte) (cs : List (ReadCallback × List Byte))
    (hcalls : r.calls = c :: cs) (hlen : c.2.length = 68)
    (hcut : Framing.Cut 4 readAsBE32 (bodies r) none (cs.flatMap (·.2))) : Heard r (.handle, 4)
  | body (c : ReadCallback × List Byte) (cs : List (ReadCallback × List Byte)) (hd : List Byte)
    (hcalls : r.calls = c :: cs) (hlen : c.2.length = 68)
    (hcut : Framing.Cut 4 readAsBE32 (bodies r) (some hd) (cs.flatMap (·.2))) :
    Heard r (.handleData, readAsBE32 hd)

/-- The read that is pending is the one that comes next. -/
def Reads (s : Reception B) : Prop :=
  ∃ rc n, Heard s.receiver (rc, n) ∧
    ∀ op ∈ s.receiver.pending, s.receiver.readCB = some rc ∧ op.size = n

theorem Heard.of_calls {r r' : Receiver B ReadCallback} {next : ReadCallback × ℕ}
    (h : Heard r next) (hcalls : r'.calls = r.calls) : Heard r' next := by
  have hbodies : bodies r' = bodies r := by rw [bodies, hcalls, bodies]
  cases h with
  | handshake rc hrc hnil => exact .handshake rc hrc (hcalls.trans hnil)
  | header c cs heq hlen hcut => exact .header c cs (hcalls.trans heq) hlen (hbodies ▸ hcut)
  | body c cs hd heq hlen hcut => exact .body c cs hd (hcalls.trans heq) hlen (hbodies ▸ hcut)

/-- The read that comes next has been made. -/
theorem Heard.call {r r' : Receiver B ReadCallback} {n : ℕ} (h : Heard r (rc, n))
    (hcalls : r'.calls = r.calls ++ [(rc, data)]) (hlen : data.length = n) :
    Heard r' (nextRead data rc) := by
  have hbodies : bodies r' = bodies r ++ (body? (rc, data)).toList := by
    rw [bodies, hcalls, List.filterMap_append, bodies]
    cases hb : body? (rc, data) <;> simp [hb]
  have hcons : ∀ {c cs}, r.calls = c :: cs → r'.calls = c :: (cs ++ [(rc, data)]) := by
    intro c cs heq
    rw [hcalls, heq, List.cons_append]
  have hmore : ∀ cs : List (ReadCallback × List Byte),
      (cs ++ [(rc, data)]).flatMap (·.2) = cs.flatMap (·.2) ++ data := by
    intro cs
    simp
  cases h with
  | handshake rc hrc hnil =>
    have heq : r'.calls = (rc, data) :: [] := by rw [hcalls, hnil, List.nil_append]
    have hb : bodies r' = [] := by
      rw [hbodies, bodies, hnil]
      rcases hrc with rfl | rfl <;> rfl
    have hnext : nextRead data rc = (.handle, 4) := by
      rcases hrc with rfl | rfl <;> rfl
    rw [hnext]
    exact .header _ _ heq hlen (hb ▸ .nil)
  | header c cs heq hhs hcut =>
    have hb : bodies r' = bodies r := by
      rw [hbodies]
      exact List.append_nil _
    unfold nextRead
    simp only
    split_ifs with hzero
    · refine .header c _ (hcons heq) hhs ?_
      rw [hb, hmore]
      exact .skip hcut data hlen hzero
    · refine .body c _ data (hcons heq) hhs ?_
      rw [hb, hmore]
      exact .header hcut data hlen hzero
  | body c cs hd heq hhs hcut =>
    refine .header c _ (hcons heq) hhs ?_
    rw [hbodies, hmore]
    exact .body hcut data hlen

theorem enter_calls (s : Reception B) (p : PeerId) (w : World) :
    (s.enter p w).receiver.calls = s.receiver.calls ∧
      (s.enter p w).receiver.received = s.receiver.received := by
  unfold enter
  split <;> exact ⟨rfl, rfl⟩

theorem read_calls (s : Reception B) (rc : ReadCallback) (bytes : ℕ) :
    (s.read sb rc bytes).receiver.calls = s.receiver.calls ∧
      (s.read sb rc bytes).receiver.received = s.receiver.received := by
  unfold read Receiver.read
  simp only
  split <;> exact ⟨rfl, rfl⟩

/-- After `read` nothing is pending on a closed connection, and this read on an open one. -/
theorem read_pending {n : ℕ} (h : s.receiver.pending = []) :
    ∀ op ∈ (s.read sb rc n).receiver.pending,
      (s.read sb rc n).receiver.readCB = some rc ∧ op.size = n := by
  intro op hop
  have hop : op ∈ (s.receiver.read sb rc n).pending := hop
  show (s.receiver.read sb rc n).readCB = some rc ∧ op.size = n
  cases hopen : s.receiver.isOpen with
  | false =>
    rw [Receiver.read_of_closed sb hopen, h] at hop
    cases hop
  | true =>
    rw [Receiver.read_of_open sb hopen] at hop ⊢
    rw [h, List.nil_append] at hop
    rw [List.mem_singleton.mp hop]
    exact ⟨rfl, rfl⟩

/-- Nothing is received and no callback is called between `s` and `s'`, and nothing but
    the read `next` is pending then. -/
structure Issues (s s' : Reception B) (next : ReadCallback × ℕ) : Prop where
  calls : s'.receiver.calls = s.receiver.calls
  received : s'.receiver.received = s.receiver.received
  pending : ∀ op ∈ s'.receiver.pending, s'.receiver.readCB = some next.1 ∧ op.size = next.2

/-- A callback issues the next read or none. -/
theorem callBack_issues (sb : Streambuf B Byte) (sha1 : List Byte → List ℕ) (env : Env)
    (p : PeerId) (data : List Byte) (rc : ReadCallback) (h : s.receiver.pending = []) :
    Issues s (s.callBack sb sha1 env p data rc) (nextRead data rc) := by
  have henter : ∀ w, (s.enter p w).receiver.pending = [] := fun w => (enter_pending s p w).trans h
  have hnone : ∀ w next, Issues s (s.enter p w) next := by
    intro w next
    refine ⟨(enter_calls s p w).1, (enter_calls s p w).2, fun op hop => ?_⟩
    rw [henter w] at hop
    cases hop
  have hread : ∀ w rc n, Issues s ((s.enter p w).read sb rc n) (rc, n) := fun w rc n =>
    ⟨(read_calls _ rc n).1.trans (enter_calls s p w).1,
      (read_calls _ rc n).2.trans (enter_calls s p w).2, read_pending (henter w)⟩
  cases rc with
  | connectHandshake | authenticateHandshake =>
    unfold callBack
    simp only
    split_ifs
    · exact hnone _ _
    · exact hread _ .handle 4
  | handle =>
    simp only [callBack, handle, nextRead]
    split_ifs
    · exact ⟨(read_calls s .handle 4).1, (read_calls s .handle 4).2, read_pending h⟩
    · exact ⟨(read_calls s .handleData _).1, (read_calls s .handleData _).2, read_pending h⟩
  | handleData =>
    simp only [callBack, handleData]
    split
    · exact hnone _ _
    · exact hread _ .handle 4

/-- A step keeps what has been read in order. -/
theorem Reads.step {l : Label} (hsb : sb.Documented) (hinv : Inv sb p s) (h : Reads s)
    (hs : s.step sb sha1 p l = some s') : Reads s' := by
  obtain ⟨rc, n, hheard, hnext⟩ := h
  cases step_effect hs with
  | arrive bytes r hr =>
    obtain ⟨op, ops, hp, -, rfl⟩ := Receiver.step_arrive hr
    refine ⟨rc, n, hheard.of_calls rfl, fun op' hop' => ?_⟩
    rcases List.mem_cons.mp hop' with rfl | hop'
    · exact hnext op (hp ▸ List.mem_cons_self)
    · exact hnext op' (hp ▸ List.mem_cons_of_mem op hop')
  | complete env hrun op ops hr hp hfull rc' hcb s' hs' =>
    obtain ⟨hcb', hsize⟩ := hnext op (hp ▸ List.mem_cons_self)
    obtain rfl := Option.some.inj (hcb'.symm.trans hcb)
    have hinv' := hinv.receiver.step hsb hr
    have hdata : ((s.receiver.callBack sb op ops).data sb op.transferred).length = n :=
      ((hinv'.length_data rfl).trans hfull).trans hsize
    have hpend : (s.receiver.callBack sb op ops).pending = [] := hinv'.pending_nil rfl rfl
    have hcalls : (s.receiver.callBack sb op ops).calls = s.receiver.calls ++
        [(rc, (s.receiver.callBack sb op ops).data sb op.transferred)] := by
      simp [Receiver.callBack, hcb, Receiver.data]
    have hissues := callBack_issues (s := { s with receiver := s.receiver.callBack sb op ops })
      sb sha1 env p ((s.receiver.callBack sb op ops).data sb op.transferred) rc hpend
    rw [← hs'] at hissues
    exact ⟨_, _, (hheard.call hcalls hdata).of_calls hissues.calls, hissues.pending⟩
  | aborted r hr =>
    obtain ⟨op, ops, hp, -, -, rfl⟩ := Receiver.step_fail hr
    exact ⟨rc, n, hheard.of_calls rfl,
      fun op' hop' => hnext op' (hp ▸ List.mem_cons_of_mem op hop')⟩
  | failed hrun r hr =>
    obtain ⟨op, ops, hp, -, -, rfl⟩ := Receiver.step_fail hr
    exact ⟨rc, n, hheard.of_calls rfl,
      fun op' hop' => hnext op' (hp ▸ List.mem_cons_of_mem op hop')⟩
  | other l hl w hw =>
    refine ⟨rc, n, hheard.of_calls (enter_calls s p w).1, fun op hop => ?_⟩
    rw [enter_pending] at hop
    have hcb : (s.enter p w).receiver.readCB = s.receiver.readCB := by
      unfold enter
      split <;> rfl
    rw [hcb]
    exact hnext op hop

theorem Starts.reads (h : Starts sb sha1 p w s) : Reads s := by
  cases h with
  | connected w' =>
    refine ⟨.connectHandshake, 68, .handshake _ (.inl rfl) rfl, fun op hop => ?_⟩
    rw [List.mem_singleton.mp hop]
    exact ⟨rfl, rfl⟩
  | accepted remote w' =>
    refine ⟨.authenticateHandshake, 68, .handshake _ (.inr rfl) rfl, fun op hop => ?_⟩
    rw [List.mem_singleton.mp hop]
    exact ⟨rfl, rfl⟩

end Reception

end Peer

/-! ## The channel -/

open Peer Reception

/-- The client that writes with its sockets, and the one that reads. -/
structure Channel (B : Type*) where
  sender : Network
  receiver : Reception B

/-- Something happens to the first client or its sockets, the next `n` bytes that its
    socket has moved arrive, or something else happens to the second client. -/
inductive ChannelLabel
  | sender (l : NetworkLabel)
  | deliver (n : ℕ)
  | receiver (l : Reception.Label)
  deriving DecidableEq, Repr

namespace Channel

variable {B : Type*} {sb : Streambuf B Byte} {sha1 : List Byte → List ℕ} {f g : ParsedFile}
  {w : World} {p q : PeerId} {s s' : Channel B} {l : ChannelLabel}

/-- The bytes that have been moved to the second client and have not arrived. -/
def inFlight (q : PeerId) (s : Channel B) : List Byte :=
  (s.sender.sockets q).received.drop s.receiver.receiver.received.length

/-- One step. The clients know each other as `q` and `p`. What a socket has not yet moved of
    a write is what was passed to `Connection::write`. -/
def step (sb : Streambuf B Byte) (sha1 : List Byte → List ℕ) (q p : PeerId) (s : Channel B) :
    ChannelLabel → Option (Channel B)
  | .sender l => (s.sender.step sha1 l).map fun t => { s with sender := t }
  | .deliver n => (s.receiver.step sb sha1 p (.arrive ((s.inFlight q).take n))).map fun t =>
      { s with receiver := t }
  | .receiver (.arrive _) => none
  | .receiver l => (s.receiver.step sb sha1 p l).map fun t => { s with receiver := t }

/-- A write is only split while no other one waits on its socket. -/
def Unsplit (s : Channel B) : ChannelLabel → Prop
  | .sender l => s.sender.Unsplit l
  | _ => True

instance (s : Channel B) : ∀ l, Decidable (s.Unsplit l)
  | .sender l => inferInstanceAs (Decidable (s.sender.Unsplit l))
  | .deliver _ | .receiver _ => isTrue trivial

/-! ### The invariant -/

/-- The parts of the channel, and that nothing has arrived that was not sent. -/
structure Inv (sb : Streambuf B Byte) (sha1 : List Byte → List ℕ) (f : ParsedFile) (q p : PeerId)
    (s : Channel B) : Prop where
  sender : Reachable sha1 f s.sender.client
  follows : ∀ q, s.sender.Follows q
  receiver : Reception.Inv sb p s.receiver
  reads : Reads s.receiver
  arrived : s.receiver.receiver.received <+: (s.sender.sockets q).received

/-- A step of the first client. -/
theorem reachable_step {t t' : Network} {l : NetworkLabel} (h : Reachable sha1 f t.client)
    (hs : t.step sha1 l = some t') : Reachable sha1 f t'.client := by
  cases l with
  | client l =>
    obtain ⟨w, hw, rfl⟩ := Option.map_eq_some_iff.mp hs
    exact h.step hw
  | start p =>
    obtain ⟨buffer, -, hs⟩ := Option.bind_eq_some_iff.mp hs
    obtain ⟨u, -, rfl⟩ := Option.map_eq_some_iff.mp hs
    exact h
  | transfer p n =>
    obtain ⟨u, -, rfl⟩ := Option.map_eq_some_iff.mp hs
    exact h

/-- What a socket has moved stays moved. -/
theorem received_mono {t t' : Network} {l : NetworkLabel} (hs : t.step sha1 l = some t')
    (q : PeerId) : (t.sockets q).received <+: (t'.sockets q).received := by
  cases l with
  | client l =>
    obtain ⟨w, -, rfl⟩ := Option.map_eq_some_iff.mp hs
    exact List.prefix_rfl
  | start p =>
    obtain ⟨buffer, -, hs⟩ := Option.bind_eq_some_iff.mp hs
    obtain ⟨u, hu, rfl⟩ := Option.map_eq_some_iff.mp hs
    have hmove := WriteQueue.received_step hu
    by_cases hqp : q = p
    · subst hqp
      simpa using hmove
    · simp [hqp]
  | transfer p n =>
    obtain ⟨u, hu, rfl⟩ := Option.map_eq_some_iff.mp hs
    have hmove := WriteQueue.received_step hu
    by_cases hqp : q = p
    · subst hqp
      simpa using hmove
    · simp [hqp]

/-- Only the arrival of bytes makes more bytes arrive. -/
theorem received_eq {t t' : Reception B} {l : Reception.Label} (hinv : Reception.Inv sb p t)
    (hsb : sb.Documented) (hs : t.step sb sha1 p l = some t')
    (hl : ∀ bytes, l ≠ .arrive bytes) : t'.receiver.received = t.receiver.received := by
  cases Reception.step_effect hs with
  | arrive bytes => exact absurd rfl (hl bytes)
  | complete env hrun op ops hr hp hfull rc hcb s' hs' =>
    have hinv' := hinv.receiver.step hsb hr
    have hissues := callBack_issues (s := { t with receiver := t.receiver.callBack sb op ops })
      sb sha1 env p ((t.receiver.callBack sb op ops).data sb op.transferred) rc
      (hinv'.pending_nil rfl rfl)
    rw [← hs'] at hissues
    exact hissues.received
  | aborted r hr | failed hrun r hr =>
    obtain ⟨op, ops, -, -, -, rfl⟩ := Receiver.step_fail hr
    rfl
  | other l hl w hw => exact (enter_calls t p w).2

theorem Inv.step (hsb : sb.Documented) (h : Inv sb sha1 f q p s) (hu : s.Unsplit l)
    (hs : s.step sb sha1 q p l = some s') : Inv sb sha1 f q p s' := by
  cases l with
  | sender l =>
    obtain ⟨t, ht, rfl⟩ := Option.map_eq_some_iff.mp hs
    exact ⟨reachable_step h.sender ht, Network.Follows.step hu ht h.follows, h.receiver, h.reads,
      h.arrived.trans (received_mono ht q)⟩
  | deliver n =>
    obtain ⟨t, ht, rfl⟩ := Option.map_eq_some_iff.mp hs
    refine ⟨h.sender, h.follows, (h.receiver.step hsb ht).1, h.reads.step hsb h.receiver ht, ?_⟩
    obtain ⟨r, hr, rfl⟩ := Option.map_eq_some_iff.mp ht
    obtain ⟨op, ops, -, -, rfl⟩ := Receiver.step_arrive hr
    obtain ⟨rest, hrest⟩ := h.arrived
    have hflight : s.inFlight q = rest := by
      rw [inFlight, ← hrest, List.drop_left]
    show s.receiver.receiver.received ++ (s.inFlight q).take n <+: _
    rw [hflight, ← hrest]
    exact (List.prefix_append_right_inj _).mpr (List.take_prefix n rest)
  | receiver l =>
    have hother : (∀ bytes, l ≠ .arrive bytes) ∧
        (s.receiver.step sb sha1 p l).map (fun t => { s with receiver := t }) = some s' := by
      cases l with
      | arrive bytes => cases hs
      | complete | fail | other => exact ⟨nofun, hs⟩
    obtain ⟨t, ht, rfl⟩ := Option.map_eq_some_iff.mp hother.2
    refine ⟨h.sender, h.follows, (h.receiver.step hsb ht).1, h.reads.step hsb h.receiver ht, ?_⟩
    rw [received_eq h.receiver hsb ht hother.1]
    exact h.arrived

end Channel

/-! ## What is delivered -/

/-- The first client has nothing left to write, all of it has arrived, and the read that
    is pending still waits for more. -/
structure Channel.Settled {B : Type*} (q : PeerId) (s : Channel B) : Prop where
  started : s.sender.started q = (s.sender.client.written q).length
  moved : (s.sender.sockets q).pending = []
  arrived : s.inFlight q = []
  waits : ∀ op ∈ s.receiver.receiver.pending, op.transferred < op.size

instance {B : Type*} (q : PeerId) (s : Channel B) : Decidable (s.Settled q) :=
  decidable_of_iff (s.sender.started q = (s.sender.client.written q).length ∧
    (s.sender.sockets q).pending = [] ∧ s.inFlight q = [] ∧
    ∀ op ∈ s.receiver.receiver.pending, op.transferred < op.size)
    ⟨fun h => ⟨h.1, h.2.1, h.2.2.1, h.2.2.2⟩, fun h => ⟨h.started, h.moved, h.arrived, h.waits⟩⟩

/-- The messages that the first client has written for `handleMessage`: those behind the
    handshake. -/
def Channel.sent {B : Type*} (q : PeerId) (s : Channel B) : List Call :=
  (s.sender.client.messages q).tail.map Message.call

/-- What the second client has read is what the first has written. -/
structure Channel.Delivers {B : Type*} (f : ParsedFile) (q p : PeerId) (s : Channel B) : Prop where
  /-- the first callback is called with the handshake -/
  handshake : ∀ c ∈ s.receiver.receiver.calls.head?, c.2 = f.handshake
  /-- and `handleMessage` for the other messages in order -/
  inOrder : s.receiver.calls <+: s.sent q
  /-- in the end for all of them, unless the connection has been closed -/
  all : s.Settled q → s.sender.client.messages q ≠ [] → Open s.receiver.world p →
    s.receiver.world.running = true → s.receiver.calls = s.sent q

section

variable {B : Type*} {sb : Streambuf B Byte} {sha1 : List Byte → List ℕ} {f g : ParsedFile}
  {w : World} {p q : PeerId} {s s' : Channel B} {rest : List Message}

theorem begins_append {α : Type*} {a b x y : List α} (h : a ++ x <+: b ++ y)
    (hlen : a.length = b.length) : a = b ∧ x <+: y := by
  obtain ⟨t, ht⟩ := h
  rw [List.append_assoc] at ht
  obtain ⟨hab, hxy⟩ := List.append_inj ht hlen
  exact ⟨hab, t, hxy⟩

/-- A handshake and frames on the wire. -/
theorem written_flatten (h : w.messages q = .handshake f.handshake :: rest)
    (hsend : ∀ m ∈ rest, m.Sendable) : (w.written q).flatten =
      f.handshake ++ Framing.frames (fun b => writeAsBE32 b.length) (rest.map Message.body) := by
  have hframes : (rest.map Message.bytes).flatten =
      Framing.frames (fun b => writeAsBE32 b.length) (rest.map Message.body) := by
    rw [Framing.frames, List.flatMap_map, ← List.flatMap_def]
    exact List.flatMap_congr fun m hm => bytes_eq (hsend m hm)
  rw [World.written, h, List.map_cons, List.flatten_cons, hframes]
  rfl

theorem header_body (hsend : ∀ m ∈ rest, m.Sendable) : ∀ b ∈ rest.map Message.body,
    Framing.Header 4 readAsBE32 (writeAsBE32 b.length) b := by
  intro b hb
  obtain ⟨m, hm, rfl⟩ := List.mem_map.mp hb
  exact header_of_lt (body_length_lt (hsend m hm))

theorem body_ne_nil : ∀ b ∈ rest.map Message.body, b ≠ [] := by
  intro b hb
  obtain ⟨m, -, rfl⟩ := List.mem_map.mp hb
  exact List.cons_ne_nil _ _

theorem map_body (rest : List Message) :
    ((rest.map Message.body).map fun data => (⟨data.headD 0, data.tail⟩ : Call)) =
      rest.map Message.call := by
  rw [List.map_map]
  rfl

/-- The bytes that have arrived and have not been passed to a callback are in the buffer
    of the read that is pending. -/
theorem Receiver.Inv.waits_for {κ : Type*} {r : Receiver B κ} {op : AsyncRead} (h : r.Inv sb)
    (hp : r.pending = [op]) : ∃ ys, r.received = r.passed ++ ys ∧ ys.length = op.transferred := by
  cases h with
  | idle hnil | broken hnil => exact absurd (hp.symm.trans hnil) (List.cons_ne_nil op [])
  | waiting op' rc hp' _ _ hle hspace _ hpassed =>
    obtain ⟨rfl, -⟩ := List.cons.inj (hp.symm.trans hp')
    refine ⟨_, hpassed.symm, ?_⟩
    rw [List.length_take, hspace]
    omega

/-- The bytes passed to the callbacks are a beginning of those written. -/
theorem Channel.Inv.passed (h : s.Inv sb sha1 f q p) :
    s.receiver.receiver.passed <+: (s.sender.client.written q).flatten :=
  (h.receiver.receiver.exact.inOrder.trans h.arrived).trans (Network.Follows.inOrder h.follows q).1

/-- All that was written has arrived. -/
theorem Channel.Inv.received_eq (h : s.Inv sb sha1 f q p) (hs : s.Settled q) :
    s.receiver.receiver.received = (s.sender.client.written q).flatten := by
  have hmoved := (Network.Follows.inOrder h.follows q).2 hs.started hs.moved
  obtain ⟨ys, hys⟩ := h.arrived
  have hnone : ys = [] := by
    have hflight := hs.arrived
    rwa [Channel.inFlight, ← hys, List.drop_left] at hflight
  rw [← hmoved, ← hys, hnone, List.append_nil]

/-- Nothing is read while nothing is written. -/
theorem Channel.Inv.unread (h : s.Inv sb sha1 f q p) (hnil : s.sender.client.messages q = []) :
    s.receiver.receiver.calls = [] := by
  have hpassed := h.passed
  rw [World.written, hnil, List.map_nil, List.flatten_nil] at hpassed
  have hpassed := List.prefix_nil.mp hpassed
  obtain ⟨rc, n, hheard, -⟩ := h.reads
  cases hheard with
  | handshake rc hrc hcalls => exact hcalls
  | header c cs hcalls hlen | body c cs hd hcalls hlen =>
    rw [Receiver.passed, hcalls, List.flatMap_cons, List.append_eq_nil_iff] at hpassed
    rw [hpassed.1] at hlen
    cases hlen

/-- What has been read after a handshake has been written. -/
theorem Channel.Inv.read (h : s.Inv sb sha1 f q p) (hlen : f.handshake.length = 68)
    (hms : s.sender.client.messages q = .handshake f.handshake :: rest)
    (hsend : ∀ m ∈ rest, m.Sendable) :
    (∀ c ∈ s.receiver.receiver.calls.head?, c.2 = f.handshake) ∧
      bodies s.receiver.receiver <+: rest.map Message.body := by
  have hpassed := h.passed
  rw [written_flatten hms hsend] at hpassed
  have hcut : ∀ {c cs o}, s.receiver.receiver.calls = c :: cs → c.2.length = 68 →
      Framing.Cut 4 readAsBE32 (bodies s.receiver.receiver) o (cs.flatMap (·.2)) →
      (∀ c ∈ s.receiver.receiver.calls.head?, c.2 = f.handshake) ∧
        bodies s.receiver.receiver <+: rest.map Message.body := by
    intro c cs o hcalls hc hcut
    rw [Receiver.passed, hcalls, List.flatMap_cons] at hpassed
    obtain ⟨heq, hrest⟩ := begins_append hpassed (hc.trans hlen.symm)
    obtain ⟨more, hmore, -⟩ := hcut.frames (by decide) (header_body hsend) body_ne_nil hrest
    refine ⟨fun c' hc' => ?_, ⟨more, hmore.symm⟩⟩
    rw [hcalls] at hc'
    rw [← Option.some.inj hc', heq]
  obtain ⟨rc, n, hheard, -⟩ := h.reads
  cases hheard with
  | handshake rc hrc hcalls =>
    rw [bodies, hcalls]
    exact ⟨nofun, List.nil_prefix⟩
  | header c cs hcalls hc hcut' => exact hcut hcalls hc hcut'
  | body c cs hd hcalls hc hcut' => exact hcut hcalls hc hcut'

/-- When the channel is settled everything has been read. -/
theorem Channel.Inv.read_all (h : s.Inv sb sha1 f q p) (hlen : f.handshake.length = 68)
    (hms : s.sender.client.messages q = .handshake f.handshake :: rest)
    (hsend : ∀ m ∈ rest, m.Sendable) (hs : s.Settled q) (ho : Open s.receiver.world p)
    (hrun : s.receiver.world.running = true) :
    bodies s.receiver.receiver = rest.map Message.body := by
  have hall := h.received_eq hs
  rw [written_flatten hms hsend] at hall
  obtain ⟨op, rc', hp, -⟩ := h.receiver.waits ho hrun
  obtain ⟨ys, hys, hshort⟩ := h.receiver.receiver.waits_for hp
  have hwaits := hs.waits op (hp ▸ List.mem_singleton_self op)
  obtain ⟨rc, n, hheard, hnext⟩ := h.reads
  obtain ⟨-, hsize⟩ := hnext op (hp ▸ List.mem_singleton_self op)
  rw [hall] at hys
  have hcut : ∀ {c cs o}, s.receiver.receiver.calls = c :: cs → c.2.length = 68 →
      Framing.Cut 4 readAsBE32 (bodies s.receiver.receiver) o (cs.flatMap (·.2)) →
      ys.length < (o.map readAsBE32).getD 4 →
      bodies s.receiver.receiver = rest.map Message.body := by
    intro c cs o hcalls hc hcut hless
    rw [Receiver.passed, hcalls, List.flatMap_cons, List.append_assoc] at hys
    obtain ⟨-, hframes⟩ := List.append_inj hys (hlen.trans hc.symm)
    exact (hcut.complete (by decide) (header_body hsend) body_ne_nil hframes.symm hless).1
  cases hheard with
  | handshake rc hrc hcalls =>
    have hlong := congrArg List.length hys
    rw [Receiver.passed, hcalls, List.flatMap_nil, List.nil_append, List.length_append] at hlong
    omega
  | header c cs hcalls hc hcut' =>
    refine hcut hcalls hc hcut' ?_
    show ys.length < 4
    omega
  | body c cs hd hcalls hc hcut' =>
    refine hcut hcalls hc hcut' ?_
    show ys.length < readAsBE32 hd
    omega

/-- What has been read on a channel. -/
theorem Channel.Inv.delivers (h : s.Inv sb sha1 f q p) (hlen : f.handshake.length = 68)
    (hn : f.hashes.length ≤ 2 ^ 34) : s.Delivers f q p := by
  rcases handshake_first h.sender hn q with hnil | ⟨rest, hms, hsend⟩
  · have hcalls := h.unread hnil
    refine ⟨?_, ?_, fun _ hne => absurd hnil hne⟩
    · rw [hcalls]
      exact nofun
    · rw [Reception.calls, bodies, hcalls]
      exact List.nil_prefix
  · have hsent : s.sent q = (rest.map Message.body).map fun data => ⟨data.headD 0, data.tail⟩ := by
      rw [Channel.sent, hms, List.tail_cons, map_body]
    obtain ⟨hfirst, hread⟩ := h.read hlen hms hsend
    refine ⟨hfirst, ?_, fun hs _ ho hrun => ?_⟩
    · rw [hsent]
      exact hread.map _
    · rw [hsent, Reception.calls, h.read_all hlen hms hsend hs ho hrun]

end

/-- On every channel between two clients, whatever else happens to them: if the buffers keep
    their contents until they are written and a write is only split while no other one
    waits, the calls of `handleMessage` are those for the messages written behind the
    handshake, in order, and in the end all of them. -/
theorem messages_delivered {B : Type*} {sb : Streambuf B Byte} {sha1 : List Byte → List ℕ}
    {f g : ParsedFile} {v : World} {p q : PeerId} {r : Reception B} {s : Channel B}
    {ls : List ChannelLabel} (hsb : sb.Documented) (hlen : f.handshake.length = 68)
    (hn : f.hashes.length ≤ 2 ^ 34) (hv : Reachable sha1 g v) (hr : Starts sb sha1 p v r)
    (hu : Runs.Guarded (Channel.step sb sha1 q p) Channel.Unsplit
      { sender := { client := f.start }, receiver := r } ls)
    (h : Runs.exec (Channel.step sb sha1 q p)
      { sender := { client := f.start }, receiver := r } ls = some s) : s.Delivers f q p := by
  have hinv : s.Inv sb sha1 f q p := by
    refine hu.invariant (I := fun s => s.Inv sb sha1 f q p)
      (fun _ _ _ hg hs hi => hi.step hsb hg hs) h
      ⟨.refl _, Network.follows_start f, (hr.inv hsb hv).1, hr.reads, ?_⟩
    cases hr <;> exact List.nil_prefix
  exact hinv.delivers hlen hn

/-- The handshake and the bitfield, moved and read in parts. -/
def channelRun : List ChannelLabel :=
  [.sender (.client (.accepted (some 1))), .sender (.client (.handshake 0 zeroHandshake)),
    .sender (.start 0), .sender (.transfer 0 20), .sender (.start 0), .deliver 5,
    .sender (.transfer 0 48), .deliver 63, .receiver (.complete {}), .sender (.transfer 0 6),
    .deliver 4, .receiver (.complete {}), .deliver 2, .receiver (.complete {})]

/-- One client at its start, and one that has just been connected to it. -/
def channelStart {B : Type*} (sb : Streambuf B Byte) (v : World) : Channel B where
  sender := { client := oneByteFile.start }
  receiver := { world := v, receiver := (Receiver.start sb).read sb .connectHandshake 68 }

/-- A client that has accepted a connection answers the handshake, and the one that has
    dialled it reads the answer and the bitfield. -/
theorem messages_delivered_oneByte : ∃ s : Channel (List Byte × List Byte),
    s.receiver.calls = s.sent 0 ∧ s.sent 0 = [(Message.bitfield [0]).call] := by
  have hrun : ((Runs.exec (step sha1OfA) oneByteFile.start [.dial 1]).bind fun v =>
      (step sha1OfA v (.connected 0)).bind fun v' =>
        (Runs.exec (Channel.step Streambuf.fifo sha1OfA 0 0) (channelStart Streambuf.fifo v')
          channelRun).map fun s =>
            decide (Runs.Guarded (Channel.step Streambuf.fifo sha1OfA 0 0) Channel.Unsplit
              (channelStart Streambuf.fifo v') channelRun ∧ s.Settled 0 ∧
              s.sender.client.messages 0 ≠ [] ∧ Open s.receiver.world 0 ∧
              s.receiver.world.running = true ∧
              s.sent 0 = [(Message.bitfield [0]).call])) = some true := by
    decide +kernel
  obtain ⟨v, hv, hrun⟩ := Option.bind_eq_some_iff.mp hrun
  obtain ⟨v', hconn, hrun⟩ := Option.bind_eq_some_iff.mp hrun
  obtain ⟨s, hs, hend⟩ := Option.map_eq_some_iff.mp hrun
  obtain ⟨hu, hsettled, hne, ho, hrunning, hsent⟩ := of_decide_eq_true hend
  have hdelivers := messages_delivered (f := oneByteFile) Streambuf.fifo_documented (by decide)
    (by decide) ⟨_, hv⟩ (.connected v' hconn) hu hs
  exact ⟨s, hdelivers.all hsettled hne ho hrunning, hsent⟩

end YTorrent
