import YTorrent.Torrent.Delivery
import YTorrent.Torrent.Integrity

/-!
# A swarm of conformant remotes

`Swarm` is a client with a conformant remote at the far end of every connection.
The remotes act, the messages of each connection arrive in order and with any
delay, and every step of the client that is not the handling of a frame can
happen at any time.

* `never_punished`: in a run in which every step is careful (`CarefulStep`) no
  PIECE frame leads to `handleError`, and no buffer misses its hash.
* `never_punished_fails`: a remote that chokes and unchokes us before our REQUEST
  has reached it is sent the REQUEST twice, and dropped for its second answer.
-/

namespace YTorrent

open World Peer Slice

/-- The messages a step writes to `q`. -/
def World.newMessages (w w' : World) (q : PeerId) : List Message :=
  (w'.messages q).drop (w.messages q).length

/-- A client and the remote of each of its connections. -/
structure Swarm where
  client : World
  remotes : PeerId → Remote := fun _ => {}

/-- A step of the client other than the handling of a frame, the arrival of the next
    message from the remote of `p`, or an action of that remote. -/
inductive SwarmLabel
  | client (l : Label)
  | deliver (p : PeerId) (env : Env)
  | remote (p : PeerId) (a : RemoteAction)
  deriving DecidableEq, Repr

namespace Swarm

/-- The client has made a step to `w`, and the remotes are told. -/
def advance (s : Swarm) (w : World) : Swarm where
  client := w
  remotes q := (s.remotes q).tell (s.client.newMessages w q)

def setRemote (s : Swarm) (p : PeerId) (r : Remote) : Swarm :=
  { s with remotes := Function.update s.remotes p r }

/-- One step of a swarm that downloads the content `C` described by `f`. -/
def step (sha1 : List Byte → List ℕ) (f : ParsedFile) (C : List Byte) (s : Swarm) :
    SwarmLabel → Option Swarm
  | .client (.frame ..) => none
  | .client l => (YTorrent.step sha1 s.client l).map s.advance
  | .deliver p env =>
    match (s.remotes p).outbox with
    | [] => none
    | c :: _ =>
      (YTorrent.step sha1 s.client (.frame p c.messageID c.payload env)).map
        (s.setRemote p (s.remotes p).taken).advance
  | .remote p a =>
    ((s.remotes p).act f.hashes.length (trueData C f.pieceLength) a).map (s.setRemote p)

/-- No step requests a block again or erases an entry too early, and no remote sends
    a block whose CANCEL is on its way to it. -/
def CarefulStep (sha1 : List Byte → List ℕ) (s : Swarm) : SwarmLabel → Prop
  | .client _ => True
  | .deliver p _ => ∀ c ∈ (s.remotes p).outbox.head?, Careful sha1 s.client p (s.remotes p) c
  | .remote p (.serve k) => ∀ b ∈ (s.remotes p).fifo[k]?, b ∉ (s.remotes p).cancelled
  | .remote _ _ => True

instance (sha1 : List Byte → List ℕ) (s : Swarm) : ∀ l, Decidable (s.CarefulStep sha1 l)
  | .client _ => isTrue trivial
  | .deliver p _ => by unfold CarefulStep; infer_instance
  | .remote p (.serve k) =>
    decidable_of_iff (((s.remotes p).fifo[k]?.all fun b =>
      !(s.remotes p).cancelled.contains b) = true) (by simp [CarefulStep, Option.all_eq_true])
  | .remote _ (.gain _) | .remote _ (.announce _) | .remote _ (.bitfield _) | .remote _ .choke
  | .remote _ .unchoke | .remote _ .receive | .remote _ (.say _) => isTrue trivial

/-- No PIECE frame has led to `handleError`, and no buffer has missed its hash. -/
def Unpunished (s : Swarm) : Prop :=
  (∀ p e, .error p e ∈ s.client.trace → e.ofPieceBlock = false) ∧
    s.client.torrent.pieceHashMisses = 0

end Swarm

variable {sha1 : List Byte → List ℕ} {f : ParsedFile} {C : List Byte} {w w' : World}
  {p q : PeerId} {env : Env} {r : Remote} {c : Call} {n : ℕ} {size : ℕ → ℕ}
  {truth : BlockId → List Byte} {finished : ℕ → Bool} {i : ℕ}

/-! ## The pieces of the content -/

/-- The blocks of a piece, put together, are its chunk. -/
theorem Describes.chunk_eq (h : Describes sha1 f C) (hi : i < f.hashes.length) :
    (pieceBlocks f.start.torrent.pieceSize i).flatMap (trueData C f.pieceLength) =
      chunk C f.pieceLength i := by
  rw [flatMap_trueData, h.pieceSize_eq hi, chunk, slice, slice, List.take_eq_take_iff,
    List.length_drop]
  omega

theorem Describes.sized (h : Describes sha1 f C) (hn : f.hashes.length ≤ 2 ^ 32)
    (hsize : ∀ i < f.hashes.length, f.start.torrent.pieceSize i < 2 ^ 32) :
    Sized f.hashes.length f.start.torrent.pieceSize (trueData C f.pieceLength) where
  count := hn
  pos i _ := pieceSize_pos h.pieceLength_pos i
  size_lt := hsize
  length i hi k hk := by
    have hfirst := h.begin_lt hi
    refine length_trueData ?_ hk
    rw [h.pieceSize_eq hi]
    omega

/-- The true data of a piece pass the hash check. -/
theorem Describes.check (h : Describes sha1 f C) (hw : Reachable sha1 f w)
    (hi : i < f.hashes.length) : Torrent.checkPieceHash sha1 w.torrent
      ((pieceBlocks f.start.torrent.pieceSize i).flatMap (trueData C f.pieceLength)) i = true := by
  have hhash := h.hashes i hi
  rw [← hw.layout.1] at hhash
  obtain ⟨piece, hpiece, heq⟩ := Option.map_eq_some_iff.mp (List.getElem?_map ▸ hhash)
  rw [h.chunk_eq hi, Torrent.checkPieceHash, hpiece]
  simp [heq]

/-! ## Runs -/

theorem newMessages_of_eq {ms : List Message} (h : w'.messages q = w.messages q ++ ms) :
    w.newMessages w' q = ms := by
  rw [World.newMessages, h, List.drop_left]

namespace Swarm

variable {s s' : Swarm} {l : SwarmLabel}

/-- The invariant of a careful run. -/
structure Conforms (sha1 : List Byte → List ℕ) (f : ParsedFile) (C : List Byte) (s : Swarm) :
    Prop where
  reachable : Reachable sha1 f s.client
  link : ∀ p, Link f.start.torrent.pieceSize (trueData C f.pieceLength)
    s.client.torrent.isFinished (s.client.peers p).pieceQueue (s.remotes p)
  unpunished : s.Unpunished

theorem conforms_start (sha1 : List Byte → List ℕ) (f : ParsedFile) (C : List Byte) :
    Conforms sha1 f C { client := f.start } where
  reachable := .refl _
  link p :=
    { sound :=
        { distinct := List.nodup_nil
          genuine := fun e he => by cases he
          nodup := List.nodup_nil
          lacked := fun b hb => by cases hb }
      truthful := fun c hc => by cases hc
      settled := fun b hb => by cases hb
      ordered := .nil }
  unpunished := ⟨fun p e he => (List.not_mem_nil he).elim, rfl⟩

theorem setRemote_remotes (s : Swarm) (p q : PeerId) (r : Remote) :
    (s.setRemote p r).remotes q = if q = p then r else s.remotes q :=
  Function.update_apply s.remotes p r q

/-- A step of the client in a swarm is a step of the client that handles no frame. -/
theorem step_client {l : Label} (hs : step sha1 f C s (.client l) = some s') :
    (∀ p messageID payload env, l ≠ .frame p messageID payload env) ∧
      ∃ w, YTorrent.step sha1 s.client l = some w ∧ s' = s.advance w := by
  cases l with
  | frame => cases hs
  | socketError | endpointLost | dial | connected | accepted | handshake | disconnectPeers =>
    obtain ⟨w, hw, rfl⟩ := Option.map_eq_some_iff.mp hs
    exact ⟨by simp, w, hw, rfl⟩

theorem step_deliver (hs : step sha1 f C s (.deliver p env) = some s') :
    ∃ c rest w, (s.remotes p).outbox = c :: rest ∧
      YTorrent.step sha1 s.client (.frame p c.messageID c.payload env) = some w ∧
      s' = (s.setRemote p (s.remotes p).taken).advance w := by
  rw [step] at hs
  split at hs
  · cases hs
  · rename_i c rest hout
    obtain ⟨w, hw, rfl⟩ := Option.map_eq_some_iff.mp hs
    exact ⟨c, rest, w, hout, hw, rfl⟩

theorem Conforms.client {l : Label} (h : Conforms sha1 f C s)
    (hs : step sha1 f C s (.client l) = some s') : Conforms sha1 f C s' := by
  obtain ⟨hl, w, hw, rfl⟩ := step_client hs
  obtain ⟨-, hout⟩ := step_outside hw hl
  refine ⟨h.reachable.step hw, fun p => ?_, fun p e he => ?_, ?_⟩
  · obtain ⟨ms, hms, hq⟩ := hout.messages p
    obtain ⟨hc, hm⟩ := quiet_filterMap hq
    have hfin : w.torrent.isFinished = s.client.torrent.isFinished := by
      rw [hout.torrent]
      rfl
    show Link _ _ w.torrent.isFinished (w.peers p).pieceQueue
      ((s.remotes p).tell (s.client.newMessages w p))
    rw [newMessages_of_eq hms, hfin, queue_of_outside h.reachable.newcomers hout p]
    exact (h.link p).quiet hc hm
  · rcases hout.trace.mem he with he | he
    · exact h.unpunished.1 p e he
    · rcases he with rfl | rfl <;> rfl
  · show w.torrent.pieceHashMisses = 0
    rw [hout.torrent]
    exact h.unpunished.2

/-- The sizes of the pieces are those of the torrent file. -/
theorem Conforms.pieceSize (h : Conforms sha1 f C s) :
    s.client.torrent.pieces.length = f.hashes.length ∧
      s.client.torrent.pieceSize = f.start.torrent.pieceSize := by
  obtain ⟨-, hpl, hts⟩ := h.reachable.layout
  have hn := h.reachable.length_pieces
  have hn' : f.start.torrent.pieces.length = f.hashes.length := List.length_map ..
  have hpl' : s.client.torrent.pieceLength = f.start.torrent.pieceLength := hpl
  have hts' : s.client.torrent.totalSize = f.start.torrent.totalSize := hts
  refine ⟨hn, ?_⟩
  funext i
  exact pieceSize_congr (hn.trans hn'.symm) hpl' hts' i

theorem Conforms.deliver (h : Conforms sha1 f C s) (hd : Describes sha1 f C)
    (hz : Sized f.hashes.length f.start.torrent.pieceSize (trueData C f.pieceLength))
    (hcare : s.CarefulStep sha1 (.deliver p env))
    (hs : step sha1 f C s (.deliver p env) = some s') : Conforms sha1 f C s' := by
  obtain ⟨c, rest, w, hout, hw, rfl⟩ := step_deliver hs
  obtain ⟨-, hready, hf⟩ := step_frame hw
  obtain ⟨hn, hsize⟩ := h.pieceSize
  have hmono : ∀ i, s.client.torrent.isFinished i = true → w.torrent.isFinished i = true :=
    fun i => isFinished_mono (.single hw)
  -- the state in which the handler runs
  have hself : (takeRead s.client p).peers p =
      { s.client.peers p with conn := { (s.client.peers p).conn with pending := .none } } := by
    simp [takeRead, setConn]
  have hdel : Delivery f.hashes.length f.start.torrent.pieceSize (trueData C f.pieceLength)
      (takeRead s.client p) p (s.remotes p) c := by
    refine ⟨hz, hn, hsize, ?_, ?_, ⟨rest, hout⟩, ?_⟩ <;> rw [hself]
    · rw [← hn]
      exact queue_index_lt h.reachable p
    · exact hready.1
    · exact h.link p
  have hcare' : Careful sha1 (takeRead s.client p) p (s.remotes p) c := by
    have hcare : Careful sha1 s.client p (s.remotes p) c := hcare c (by simp [hout])
    unfold Careful at hcare ⊢
    rw [hself]
    exact hcare
  have hmsgs : ∀ q, (takeRead s.client p).messages q = s.client.messages q := fun _ => rfl
  refine ⟨h.reachable.step hw, fun q => ?_, fun q e he => ?_, ?_⟩
  · show Link _ _ w.torrent.isFinished (w.peers q).pieceQueue
      (((s.setRemote p (s.remotes p).taken).remotes q).tell (s.client.newMessages w q))
    rw [setRemote_remotes]
    by_cases hqp : q = p
    · subst hqp
      obtain ⟨ms, hms, hl⟩ := hdel.frame hcare' hmono hf
      rw [hmsgs] at hms
      rw [if_pos rfl, newMessages_of_eq hms]
      exact hl
    · obtain ⟨ms, hms, hquiet⟩ := hf.messages_of_ne hqp
      obtain ⟨hc, hm⟩ := quiet_filterMap hquiet
      rw [hmsgs] at hms
      rw [if_neg hqp, newMessages_of_eq hms, hf.peers_of_ne hqp, takeRead,
        setConn_peers_of_ne _ _ hqp]
      exact ((h.link q).mono hmono).quiet hc hm
  · rcases Adds.mem hf.trace he with he | he
    · exact h.unpunished.1 q e he
    · cases he with
      | error e href => exact hdel.not_refused href
  · show w.torrent.pieceHashMisses = 0
    have hcheck : ∀ i < f.hashes.length, Torrent.checkPieceHash sha1 (takeRead s.client p).torrent
        ((pieceBlocks f.start.torrent.pieceSize i).flatMap (trueData C f.pieceLength)) i = true := by
      intro i hi
      have htrue := hd.check h.reachable hi
      exact htrue
    rw [hdel.misses hcheck hf]
    exact h.unpunished.2

theorem Conforms.remote {a : RemoteAction} (h : Conforms sha1 f C s)
    (hz : Sized f.hashes.length f.start.torrent.pieceSize (trueData C f.pieceLength))
    (hcare : s.CarefulStep sha1 (.remote p a))
    (hs : step sha1 f C s (.remote p a) = some s') : Conforms sha1 f C s' := by
  obtain ⟨r, hr, rfl⟩ := Option.map_eq_some_iff.mp hs
  have hq : ∀ e ∈ (s.client.peers p).pieceQueue, e.index < f.hashes.length := by
    rw [← h.pieceSize.1]
    exact queue_index_lt h.reachable p
  refine ⟨h.reachable, fun q => ?_, h.unpunished⟩
  rw [setRemote_remotes]
  by_cases hqp : q = p
  · subst hqp
    rw [if_pos rfl]
    refine (h.link q).act hz hq (fun k hk => ?_) hr
    subst hk
    exact hcare
  · rw [if_neg hqp]
    exact h.link q

theorem Conforms.step (h : Conforms sha1 f C s) (hd : Describes sha1 f C)
    (hz : Sized f.hashes.length f.start.torrent.pieceSize (trueData C f.pieceLength))
    (hcare : s.CarefulStep sha1 l) (hs : step sha1 f C s l = some s') : Conforms sha1 f C s' := by
  cases l with
  | client l => exact h.client hs
  | deliver p env => exact h.deliver hd hz hcare hs
  | remote p a => exact h.remote hz hcare hs

end Swarm

/-- In a run that requests no block again, erases no entry too early and in which no
    remote sends a block whose CANCEL is on its way, no conformant remote is punished. -/
theorem never_punished {ls : List SwarmLabel} {s : Swarm} (hd : Describes sha1 f C)
    (hn : f.hashes.length ≤ 2 ^ 32)
    (hsize : ∀ i < f.hashes.length, f.start.torrent.pieceSize i < 2 ^ 32)
    (hcare : Runs.Guarded (Swarm.step sha1 f C) (Swarm.CarefulStep sha1)
      { client := f.start } ls)
    (h : Runs.exec (Swarm.step sha1 f C) { client := f.start } ls = some s) : s.Unpunished :=
  (hcare.invariant (I := Swarm.Conforms sha1 f C)
    (fun _ _ _ hg hs hc => hc.step hd (hd.sized hn hsize) hg hs) h
    (Swarm.conforms_start sha1 f C)).unpunished

/-- The remote of the one-byte download. -/
def swarmRun : List SwarmLabel :=
  [.client (.accepted (some 1)), .client (.handshake 0 zeroHandshake), .remote 0 (.gain 0),
    .remote 0 (.bitfield [128]), .remote 0 .unchoke, .deliver 0 {}, .deliver 0 {},
    .remote 0 .receive, .remote 0 .receive, .remote 0 .receive, .remote 0 .receive,
    .remote 0 (.serve 0), .deliver 0 {}]

/-- The one-byte download from a conformant remote. -/
theorem never_punished_oneByte : ∃ s, Runs.exec (Swarm.step sha1OfA oneByteFile [97])
    { client := oneByteFile.start } swarmRun = some s ∧ s.client.torrent.completedPieces = 1 ∧
      s.Unpunished := by
  have hrun : ((Runs.exec (Swarm.step sha1OfA oneByteFile [97]) { client := oneByteFile.start }
      swarmRun).map fun s => s.client.torrent.completedPieces) = some 1 := by
    decide +kernel
  obtain ⟨s, hs, hone⟩ := Option.map_eq_some_iff.mp hrun
  exact ⟨s, hs, hone, never_punished describes_oneByte (by decide) (by decide)
    (by decide +kernel) hs⟩

/-! ## A request sent twice -/

/-- The remote chokes and unchokes us before our REQUEST has reached it. -/
def chokeRun : List SwarmLabel :=
  [.client (.accepted (some 1)), .client (.handshake 0 zeroHandshake), .remote 0 (.gain 0),
    .remote 0 (.bitfield [128]), .remote 0 .unchoke, .deliver 0 {}, .deliver 0 {},
    .remote 0 .choke, .remote 0 .unchoke, .deliver 0 {}, .deliver 0 {},
    .remote 0 .receive, .remote 0 .receive, .remote 0 .receive, .remote 0 .receive,
    .remote 0 .receive, .remote 0 (.serve 0), .remote 0 (.serve 0), .deliver 0 {}, .deliver 0 {}]

/-- A conformant remote is punished in some runs: it answers both REQUESTs, and is
    dropped for the second answer. -/
theorem never_punished_fails : ¬ ∀ (sha1 : List Byte → List ℕ) (f : ParsedFile) (C : List Byte)
    (ls : List SwarmLabel) (s : Swarm), Describes sha1 f C →
      Runs.exec (Swarm.step sha1 f C) { client := f.start } ls = some s → s.Unpunished := by
  intro h
  have hrun : ((Runs.exec (Swarm.step sha1OfA oneByteFile [97]) { client := oneByteFile.start }
      chokeRun).map fun s => decide (.error 0 (.notAskedFor 0) ∈ s.client.trace)) = some true := by
    decide +kernel
  obtain ⟨s, hs, herr⟩ := Option.map_eq_some_iff.mp hrun
  have hno := (h _ _ _ _ s describes_oneByte hs).1 0 _ (of_decide_eq_true herr)
  cases hno

end YTorrent
