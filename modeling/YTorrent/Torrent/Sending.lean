import YTorrent.Common.WriteQueue
import YTorrent.Torrent.Queue

/-!
# From `Connection::write` to the remote

`Connection::write` starts an `async_write` and returns; several of them can be
under way on one socket. `Network` is a client with the sockets of its
connections: the handlers make write calls (`World.written`), each call is
started on its socket in order (`NetworkLabel.start`), and the sockets move parts
of the buffers whenever they like (`NetworkLabel.transfer`). A socket is a
`WriteQueue`. The bytes of a call are those that the buffer has when the call is
made: a buffer keeps its contents until its write has completed, as asio
requires. The vectors and the array of the senders (peer.cpp lines 325–422) are
gone when these return.

* `Network.Follows`: each socket has made a run of the write queue that starts
  the buffers of its connection in the order of the calls.
* `writes_in_order`: if a write is only ever split while no other one waits, every
  remote receives an initial part of the concatenated buffers.
* `writes_in_order_fails`: the second REQUEST of a piece gets into the first.
-/

namespace YTorrent

open World

/-- The buffers passed to `Connection::write` on the connection of `p`, in order. -/
def World.written (w : World) (p : PeerId) : List (List Byte) := (w.messages p).map Message.bytes

/-- A client, how many of the writes of each connection have been started, and
    the sockets. -/
structure Network where
  client : World
  started : PeerId → ℕ := fun _ => 0
  sockets : PeerId → WriteQueue.State Byte := fun _ => {}

/-- A step of the client, the start of the next write of a connection, or an
    operation of a socket. -/
inductive NetworkLabel
  | client (l : Label)
  | start (p : PeerId)
  | transfer (p : PeerId) (n : ℕ)
  deriving DecidableEq, Repr

namespace Network

/-- One step of the client and its sockets. -/
def step (sha1 : List Byte → List ℕ) (s : Network) : NetworkLabel → Option Network
  | .client l => (YTorrent.step sha1 s.client l).map fun w => { s with client := w }
  | .start p =>
    ((s.client.written p)[s.started p]?).bind fun buffer =>
      (WriteQueue.step (s.sockets p) (.write buffer)).map fun q =>
        { s with
          started := Function.update s.started p (s.started p + 1)
          sockets := Function.update s.sockets p q }
  | .transfer p n =>
    (WriteQueue.step (s.sockets p) (.transfer n)).map fun q =>
      { s with sockets := Function.update s.sockets p q }

/-- An operation of a socket that does not finish its write does not leave it
    behind another. -/
def Unsplit (s : Network) : NetworkLabel → Prop
  | .transfer p n => WriteQueue.Unsplit (s.sockets p) (.transfer n)
  | _ => True

instance (s : Network) : ∀ l, Decidable (s.Unsplit l)
  | .client _ | .start _ => isTrue trivial
  | .transfer _ _ => by unfold Unsplit; infer_instance

/-- Every remote has received an initial part of the buffers written to it, in
    the order of the calls, and all of them once no write is pending. -/
def InOrder (s : Network) : Prop :=
  ∀ p, (s.sockets p).received <+: (s.client.written p).flatten ∧
    (s.started p = (s.client.written p).length → (s.sockets p).pending = [] →
      (s.sockets p).received = (s.client.written p).flatten)

/-- The socket of `p` has made a run of the write queue in which no write is
    split, on the buffers started so far. -/
structure Follows (s : Network) (p : PeerId) : Prop where
  started_le : s.started p ≤ (s.client.written p).length
  run : ∃ ops, Runs.Guarded WriteQueue.step WriteQueue.Unsplit {} ops ∧
    Runs.exec WriteQueue.step {} ops = some (s.sockets p) ∧
    WriteQueue.written ops = (s.client.written p).take (s.started p)

end Network

/-! ## The calls -/

variable {sha1 : List Byte → List ℕ} {w w' : World} {p q : PeerId}

/-- The calls of a step come after those before it. -/
theorem written_step {l : Label} (h : step sha1 w l = some w') (p : PeerId) :
    ∃ bs, w'.written p = w.written p ++ bs := by
  obtain ⟨ms, hms, -⟩ := (step_trace h).messages p
  exact ⟨ms.map Message.bytes, by rw [World.written, hms, List.map_append]; rfl⟩

/-! ## Runs -/

namespace Network

variable {s s' : Network} {l : NetworkLabel}

theorem follows_start (f : ParsedFile) (p : PeerId) : Follows { client := f.start } p where
  started_le := Nat.zero_le _
  run := ⟨[], trivial, rfl, rfl⟩

/-- One more operation of the socket. -/
theorem Follows.socket (h : s.Follows p) {op : WriteQueue.Op Byte} {t : WriteQueue.State Byte}
    (hu : WriteQueue.Unsplit (s.sockets p) op) (ht : WriteQueue.step (s.sockets p) op = some t) :
    ∃ ops, Runs.Guarded WriteQueue.step WriteQueue.Unsplit {} ops ∧
      Runs.exec WriteQueue.step {} ops = some t ∧
      WriteQueue.written ops =
        (s.client.written p).take (s.started p) ++ WriteQueue.written [op] := by
  obtain ⟨ops, hg, hx, hw⟩ := h.run
  refine ⟨ops ++ [op], Runs.guarded_append.mpr ⟨hg, fun u hu' => ?_⟩,
    Runs.exec_snoc.mpr ⟨_, hx, ht⟩, by rw [WriteQueue.written_append, hw]⟩
  obtain rfl := Option.some.inj (hx.symm.trans hu')
  exact ⟨hu, fun _ _ => trivial⟩

theorem Follows.step (hu : s.Unsplit l) (hs : step sha1 s l = some s') (h : ∀ p, s.Follows p) :
    ∀ p, s'.Follows p := by
  intro p
  cases l with
  | client l =>
    obtain ⟨w, hw, rfl⟩ := Option.map_eq_some_iff.mp hs
    obtain ⟨bs, hbs⟩ := written_step hw p
    obtain ⟨hle, ops, hg, hx, hwr⟩ := h p
    refine ⟨?_, ops, hg, hx, ?_⟩
    · rw [hbs, List.length_append]
      exact Nat.le_add_right_of_le hle
    · rw [hwr, hbs, List.take_append_of_le_length hle]
  | start q =>
    obtain ⟨buffer, hb, hs⟩ := Option.bind_eq_some_iff.mp hs
    obtain ⟨t, ht, rfl⟩ := Option.map_eq_some_iff.mp hs
    by_cases hpq : p = q
    · subst hpq
      have hwrite : WriteQueue.Unsplit (s.sockets p) (.write buffer) := trivial
      obtain ⟨ops, hg, hx, hwr⟩ := (h p).socket hwrite ht
      have hlt : s.started p < (s.client.written p).length := (List.getElem?_eq_some_iff.mp hb).1
      have hnext : Function.update s.started p (s.started p + 1) p = s.started p + 1 :=
        Function.update_self ..
      refine ⟨?_, ops, hg, by simpa using hx, ?_⟩
      · show Function.update s.started p (s.started p + 1) p ≤ (s.client.written p).length
        rw [hnext]
        exact hlt
      · show _ = (s.client.written p).take (Function.update s.started p (s.started p + 1) p)
        rw [hwr, hnext, List.take_add_one, hb]
        rfl
    · obtain ⟨hle, ops, hg, hx, hwr⟩ := h p
      exact ⟨by simpa [hpq] using hle, ops, hg, by simpa [hpq] using hx, by simpa [hpq] using hwr⟩
  | transfer q n =>
    obtain ⟨t, ht, rfl⟩ := Option.map_eq_some_iff.mp hs
    by_cases hpq : p = q
    · subst hpq
      have hmove : WriteQueue.Unsplit (s.sockets p) (.transfer n) := hu
      obtain ⟨ops, hg, hx, hwr⟩ := (h p).socket hmove ht
      exact ⟨(h p).started_le, ops, hg, by simpa using hx,
        by rw [hwr, WriteQueue.written]; exact List.append_nil _⟩
    · obtain ⟨hle, ops, hg, hx, hwr⟩ := h p
      exact ⟨hle, ops, hg, by simpa [hpq] using hx, hwr⟩

theorem Follows.inOrder (h : ∀ p, s.Follows p) : s.InOrder := by
  intro p
  obtain ⟨-, ops, hg, hx, hwr⟩ := h p
  have hprefix : (WriteQueue.written ops).flatten <+: (s.client.written p).flatten := by
    rw [hwr]
    exact ⟨((s.client.written p).drop (s.started p)).flatten, by
      rw [← List.flatten_append, List.take_append_drop]⟩
  refine ⟨(WriteQueue.received_prefix hg hx).trans hprefix, fun hall hp => ?_⟩
  rw [WriteQueue.received_all hg hx hp, hwr, hall, List.take_length]

end Network

/-- In every run of a client and its sockets in which no operation leaves an
    unfinished write behind another, the remotes receive the buffers whole and in
    the order of the calls. -/
theorem writes_in_order {f : ParsedFile} {ls : List NetworkLabel} {s : Network}
    (hu : Runs.Guarded (Network.step sha1) Network.Unsplit { client := f.start } ls)
    (h : Runs.exec (Network.step sha1) { client := f.start } ls = some s) : s.InOrder :=
  Network.Follows.inOrder (hu.invariant (I := fun s : Network => ∀ p, s.Follows p)
    (fun _ _ _ hg hs => Network.Follows.step hg hs) h (Network.follows_start f))

/-- The handshake and the bitfield of the one-byte download, the first in two parts. -/
theorem writes_in_order_oneByte : ∃ s : Network, Runs.exec (Network.step sha1OfA)
    { client := oneByteFile.start } [.client (.accepted (some 1)),
      .client (.handshake 0 zeroHandshake), .start 0, .transfer 0 20, .start 0, .transfer 0 48,
      .transfer 0 6] = some s ∧ (s.sockets 0).received = (s.client.written 0).flatten := by
  have hrun : ((Runs.exec (Network.step sha1OfA) { client := oneByteFile.start }
      [.client (.accepted (some 1)), .client (.handshake 0 zeroHandshake), .start 0,
        .transfer 0 20, .start 0, .transfer 0 48, .transfer 0 6]).map fun s =>
        decide (s.started 0 = (s.client.written 0).length ∧ (s.sockets 0).pending = [])) =
          some true := by
    decide +kernel
  obtain ⟨s, hs, hdone⟩ := Option.map_eq_some_iff.mp hrun
  obtain ⟨hall, hp⟩ := of_decide_eq_true hdone
  exact ⟨s, hs, (writes_in_order (by decide +kernel) hs 0).2 hall hp⟩

/-! ## A request in two parts -/

/-- The requests of a piece of two blocks: the first REQUEST is moved in two
    parts, with the second one between them. -/
def splitRun : List NetworkLabel :=
  [.client (.accepted (some 1)), .client (.handshake 0 zeroHandshake),
    .client (.frame 0 5 [128] {}), .client (.frame 0 1 [] {}), .start 0, .start 0, .start 0,
    .start 0, .start 0, .transfer 0 68, .transfer 0 6, .transfer 0 5, .transfer 0 1,
    .transfer 0 17, .transfer 0 16]

/-- Not every run keeps the buffers whole. -/
theorem writes_in_order_fails : ¬ ∀ (sha1 : List Byte → List ℕ) (f : ParsedFile)
    (ls : List NetworkLabel) (s : Network),
      Runs.exec (Network.step sha1) { client := f.start } ls = some s → s.InOrder := by
  intro h
  have hrun : ((Runs.exec (Network.step sha1OfA)
      { client := ({ oneByteFile with totalSize := 16385 } : ParsedFile).start } splitRun).map
        fun s => decide ((s.sockets 0).received <+: (s.client.written 0).flatten)) =
          some false := by
    decide +kernel
  obtain ⟨s, hs, hno⟩ := Option.map_eq_some_iff.mp hrun
  exact of_decide_eq_false hno (h _ _ _ s hs 0).1

end YTorrent
