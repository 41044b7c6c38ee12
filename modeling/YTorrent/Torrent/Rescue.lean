import YTorrent.Torrent.Contents
import YTorrent.Torrent.Pairing
import YTorrent.Torrent.Session

/-!
# One peer is enough

A download that is still going on can be completed, whatever has happened so far: one more
peer that has every piece and answers the client is all it needs.

* `fetchable_parsed`: what is asked of the torrent file, where `parseFile` has accepted it.
* `Fetching.transfer`: the blocks of the piece queued arrive, and it is finished.
* `Selected.finishes`: one piece after the other, until none is missing.
* `can_complete`: from every state of the process in the loop of `download`, a peer that
  connects now can bring the download to its end, also when the tracker is gone.
-/

namespace YTorrent

open World Peer Slice Finset

/-- The torrent file is about `C`, its numbers fit their types, and another client of it is
    not refused. -/
structure Fetchable (sha1 : List Byte → List ℕ) (f : ParsedFile) (C : List Byte) : Prop where
  describes : Describes sha1 f C
  collisionFree : CollisionFree sha1 f C
  fits : C.length < 2 ^ 63
  count : f.hashes.length ≤ 2 ^ 32
  size_lt : ∀ i < f.hashes.length, f.start.torrent.pieceSize i < 2 ^ 32
  handshake : f.handshake.length = 68 ∧ handshakeRefused f.handshake f.handshake = false

/-- What a peer that has every piece of `C` sends. -/
inductive Offers (f : ParsedFile) (C : List Byte) : Message → Prop
  | handshake : Offers f C (.handshake f.handshake)
  | bitfield (raw : List Byte)
    (hall : ∀ i < f.hashes.length, i ∈ bitfieldIndexes raw f.hashes.length) :
    Offers f C (.bitfield raw)
  | unchoke : Offers f C .unchoke
  | answer (i : ℕ) (b : BlockId) (hi : i < f.hashes.length)
    (hb : b ∈ pieceBlocks f.start.torrent.pieceSize i) :
    Offers f C (answer (trueData C f.pieceLength) b)

/-- The client is `w'` after it has handled messages like these of `p`; the disk works. -/
def Helped (sha1 : List Byte → List ℕ) (f : ParsedFile) (C : List Byte) (p : PeerId)
    (w w' : World) : Prop :=
  ∃ ms : List Message, (∀ m ∈ ms, Offers f C m) ∧
    Runs.exec (step sha1) w (ms.map (Message.label p {})) = some w'

variable {sha1 : List Byte → List ℕ} {f : ParsedFile} {C : List Byte} {u v w w' : World}
  {p : PeerId} {choked : Bool} {i : ℕ} {e : Peer.Piece} {entries : List Peer.Piece}
  {live : List BlockId} {m : Message} {ms : List Message}

/-! ## The torrent file -/

/-- What `parseFile` puts into the handshake is 68 bytes, which no client of the same file
    refuses. -/
theorem handshake_parsed {decode : List Byte → Option BItem} {encode : BItem → List Byte}
    {disk : Disk} {data : List Byte} {result : ParseResult} {t : Metainfo}
    (hsha1 : ∀ d, (sha1 d).length = 5)
    (h : parseFile decode encode sha1 disk (some data) = .ok (result, t)) :
    t.parsed.handshake.length = 68 ∧
      handshakeRefused t.parsed.handshake t.parsed.handshake = false := by
  obtain ⟨v, -, hashes, -, hopen⟩ := parseFile_eq_ok.mp h
  have hhand : t.parsed.handshake = 19 :: (protocolName ++ List.replicate 8 0 ++
      Torrent.pieceHash sha1 (encode (.dictionary v.infoDict)) ++ clientId) :=
    handshake_openTarget hopen
  have hlen : t.parsed.handshake.length = 68 := by
    have hfixed : (protocolName ++ List.replicate 8 0).length = 27 ∧ clientId.length = 20 := by
      decide +kernel
    have hhash : (Torrent.pieceHash sha1 (encode (.dictionary v.infoDict))).length = 20 := by
      simp [Torrent.pieceHash, List.length_flatMap, hsha1]
    rw [hhand, List.length_cons, List.length_append, List.length_append, hfixed.1, hhash, hfixed.2]
  have hfirst : readU8 t.parsed.handshake 0 = 19 := by
    rw [hhand]
    rfl
  exact ⟨hlen, by simp [handshakeRefused, hlen, hfirst]⟩

theorem fetchable_parsed {decode : List Byte → Option BItem} {encode : BItem → List Byte}
    {disk : Disk} {data : List Byte} {t : Metainfo} (hsha1 : ∀ d, (sha1 d).length = 5)
    (h : parseFile decode encode sha1 disk (some data) = .ok (.success, t))
    (hd : Describes sha1 t.parsed C) (hfree : CollisionFree sha1 t.parsed C)
    (hC : C.length < 2 ^ 63) (hcount : t.parsed.hashes.length ≤ 2 ^ 32)
    (hsize : ∀ i < t.parsed.hashes.length, t.parsed.start.torrent.pieceSize i < 2 ^ 32) :
    Fetchable sha1 t.parsed C :=
  ⟨hd, hfree, hC, hcount, hsize, handshake_parsed hsha1 h⟩

theorem Fetchable.sized (h : Fetchable sha1 f C) :
    Sized f.hashes.length f.start.torrent.pieceSize (trueData C f.pieceLength) :=
  h.describes.sized h.count h.size_lt

/-! ## The messages of one peer -/

theorem Helped.refl (w : World) : Helped sha1 f C p w w := ⟨[], by simp, rfl⟩

theorem Helped.trans (h : Helped sha1 f C p u v) (h' : Helped sha1 f C p v w) :
    Helped sha1 f C p u w := by
  obtain ⟨ms, hms, hrun⟩ := h
  obtain ⟨ms', hms', hrun'⟩ := h'
  refine ⟨ms ++ ms', fun m hm => (List.mem_append.mp hm).elim (hms m) (hms' m), ?_⟩
  rw [List.map_append]
  exact Runs.exec_append.mpr ⟨v, hrun, hrun'⟩

theorem Handled.helped (h : Handled sha1 w p {} m w' ms) (hm : Offers f C m) :
    Helped sha1 f C p w w' :=
  ⟨[m], by simpa using hm, Runs.exec_cons.mpr ⟨w', h.step, rfl⟩⟩

theorem works_default : Env.Works {} := by decide

/-! ## The pieces -/

/-- The blocks of the piece queued arrive one after the other; then it is finished. -/
theorem Fetching.transfer (hc : Fetchable sha1 f C) (hl : Fetching sha1 f w p [e] false)
    (hi : e.index ∈ w.unfinished f)
    (hs : Sound f.start.torrent.pieceSize (trueData C f.pieceLength) [e] live)
    (hlive : live ≠ []) (hcount : e.haveBlocks + live.length = e.totalBlocks) :
    ∃ w' ms, Helped sha1 f C p w w' ∧ Selected sha1 f w' p false ms ∧
      w'.unfinished f = (w.unfinished f).erase e.index := by
  induction live generalizing w e with
  | nil => exact absurd rfl hlive
  | cons b live ih =>
    obtain ⟨hlt, hopen⟩ := mem_unfinished.mp hi
    have hoffer : Offers f C (answer (trueData C f.pieceLength) b) :=
      .answer e.index b hlt (hs.mem_pieceBlocks List.mem_cons_self)
    cases live with
    | nil =>
      obtain ⟨w', ms, hw, hsel, hfin⟩ := hl.completes hc.describes hc.fits works_default
        hc.sized hlt hs hopen hcount
      exact ⟨w', ms, hw.helped hoffer, hsel, unfinished_erase hfin⟩
    | cons b' live =>
      have hmore : e.haveBlocks + 1 ≠ e.totalBlocks := by
        rw [← hcount, List.length_cons, List.length_cons]
        omega
      obtain ⟨u, hu, hl', hfin⟩ := hl.stores {} hc.sized hlt hs hopen hmore
      have hun := unfinished_congr (f := f) hfin
      have hrest : e.haveBlocks + 1 + (b' :: live).length = e.totalBlocks := by
        rw [← hcount, List.length_cons, List.length_cons, List.length_cons]
        omega
      obtain ⟨w', ms, hw, hsel, herase⟩ := ih hl' (hun ▸ hi) (hs.put_answer hc.sized hlt)
        (List.cons_ne_nil _ _) hrest
      refine ⟨w', ms, (hu.helped hoffer).trans hw, hsel, ?_⟩
      rw [herase, hun]
      rfl

/-- The piece that has been queued last is fetched. -/
theorem Fetching.fetch (hc : Fetchable sha1 f C) (hi : i ∈ w.unfinished f)
    (hl : Fetching sha1 f w p [Piece.new i (numBlocks (f.start.torrent.pieceSize i))] false) :
    ∃ w' ms, Helped sha1 f C p w w' ∧ Selected sha1 f w' p false ms ∧
      w'.unfinished f = (w.unfinished f).erase i := by
  have hlt := (mem_unfinished.mp hi).1
  have hlen : (pieceBlocks f.start.torrent.pieceSize i).length =
      numBlocks (f.start.torrent.pieceSize i) := by
    rw [pieceBlocks, List.length_map, List.length_range]
  exact hl.transfer hc hi (sound_new (hc.size_lt i hlt))
    (pieceBlocks_ne_nil (hc.sized.pos i hlt)) (by simp [hlen, Piece.new])

/-- The peer unchokes the client if it is still choking it. -/
theorem Fetching.unchoked (hc : Fetchable sha1 f C) (hl : Fetching sha1 f w p [e] choked)
    (hi : e.index < f.hashes.length) :
    ∃ w', Helped sha1 f C p w w' ∧ Fetching sha1 f w' p [e] false ∧
      w'.unfinished f = w.unfinished f := by
  cases choked with
  | false => exact ⟨w, .refl w, hl, rfl⟩
  | true =>
    obtain ⟨w', hw, hl', hfin⟩ := hl.unchoke {} hc.sized hi
    exact ⟨w', hw.helped .unchoke, hl', unfinished_congr hfin⟩

/-- Pieces are selected and fetched until none is missing. -/
theorem Selected.finishes (hc : Fetchable sha1 f C) (h : Selected sha1 f w p choked ms) :
    ∃ w' choked', Helped sha1 f C p w w' ∧ Fetching sha1 f w' p [] choked' ∧
      w'.unfinished f = ∅ := by
  -- every piece that is fetched is one less that is missing
  induction hn : (w.unfinished f).card using Nat.strong_induction_on generalizing w choked ms with
  | _ n ih =>
    cases h with
    | done hl hall => exact ⟨w, choked, .refl w, hl, unfinished_eq_empty.mpr hall⟩
    | next i hi hopen hl =>
      have hmem : i ∈ w.unfinished f := mem_unfinished.mpr ⟨hi, hopen⟩
      obtain ⟨u, hu, hlu, hun⟩ := hl.unchoked hc hi
      obtain ⟨v, ms, hv, hsel, herase⟩ := hlu.fetch hc (hun ▸ hmem)
      have hcard : (v.unfinished f).card < n := by
        rw [herase, hun, ← hn]
        exact card_erase_lt_of_mem hmem
      obtain ⟨w', choked', hw, hdone, hempty⟩ := ih _ hcard hsel rfl
      exact ⟨w', choked', (hu.trans hv).trans hw, hdone, hempty⟩

/-! ## The connection -/

/-- A client accepts a connection. -/
theorem leech_accepted (h : Reachable sha1 f w) (hrun : w.running = true)
    (hroom : ∀ (i : ℕ) piece, w.torrent.pieces[i]? = some piece → piece.finished = false →
      piece.priority < int32Max) (remote : Option ℕ) :
    ∃ w', step sha1 w (.accepted remote) = some w' ∧ Reachable sha1 f w' ∧
      Leech w' w.peerCount [] true ∧ (w'.peers w.peerCount).conn.pending = .handshakeIn := by
  have hstep : step sha1 w (.accepted remote) = some (Torrent.accepted w remote) := by
    simp [step, hrun]
  refine ⟨_, hstep, h.step hstep, ?_⟩
  rw [accepted_eq]
  refine ⟨⟨hrun, ?_, ?_, ?_, ?_, fun i piece hi hfin _ => hroom i piece hi hfin⟩, ?_⟩
  · simp [newPeer]
  · simp [newPeer]
  · simp [newPeer]
  · simp [newPeer]
  · simp [newPeer]

/-- The handshake on a connection we accepted is answered. -/
theorem Leech.joins (h : Leech w p entries choked) (hw : Reachable sha1 f w)
    (hpend : (w.peers p).conn.pending = .handshakeIn) (env : Env) {bytes : List Byte}
    (hlen : bytes.length = 68) (href : handshakeRefused f.handshake bytes = false) :
    ∃ w', Handled sha1 w p env (.handshake bytes) w'
        [.handshake f.handshake, .bitfield w.torrent.getRawBitfield] ∧
      Reachable sha1 f w' ∧ Leech w' p entries choked ∧
      (w'.peers p).conn.pending = .message := by
  have hhand : (YTorrent.takeRead w p).torrent.handshake = f.handshake := hw.handshake
  have hstep : step sha1 w (.handshake p bytes) =
      some (Peer.authenticateHandshake (YTorrent.takeRead w p) p bytes) := by
    simp [step, h.running, h.isOpen, hlen, hpend]
  have htake := h.takeRead
  rw [authenticateHandshake_eq (hhand ▸ href), hhand] at hstep
  refine ⟨_, ⟨hstep, ?_⟩, hw.step hstep, ⟨?_, ?_, ?_, ?_, ?_, ?_⟩, ?_⟩
  · rw [messages_read, messages_log, messages_sentEvents, if_pos ⟨rfl, htake.isOpen⟩]
    rfl
  · rw [read_running]
    exact h.running
  · rw [read_isOpen]
    exact htake.isOpen
  · rw [read_amChoking]
    exact htake.amChoking
  · rw [read_peerChoking]
    exact htake.peerChoking
  · rw [read_pieceQueue]
    exact htake.queue
  · rw [read_torrent]
    exact h.room
  · rw [read_conn]
    exact congrArg Connection.pending (if_pos htake.isOpen)

/-- The bitfield of a peer that has every piece, one byte longer at least than needed. -/
theorem mem_bitfieldIndexes_ones {n : ℕ} (hi : i < n) :
    i ∈ bitfieldIndexes (List.replicate (n / 8 + 1) 255) n := by
  rw [mem_bitfieldIndexes, List.length_replicate]
  have hlt : i / 8 < n / 8 + 1 := by omega
  refine ⟨hlt, hi, ?_⟩
  have hbyte : readU8 (List.replicate (n / 8 + 1) (255 : Byte)) (i / 8) = 2 ^ 8 - 1 := by
    simp [readU8, hlt]
  rw [hbyte, Nat.testBit_two_pow_sub_one, decide_eq_true_iff]
  omega

/-- A client that accepts a connection of such a peer can get every piece from it. -/
theorem Fetchable.helps (hc : Fetchable sha1 f C) (h : Reachable sha1 f w)
    (hrun : w.running = true)
    (hroom : ∀ (i : ℕ) piece, w.torrent.pieces[i]? = some piece → piece.finished = false →
      piece.priority < int32Max) (remote : Option ℕ) :
    ∃ u w', step sha1 w (.accepted remote) = some u ∧ Helped sha1 f C w.peerCount u w' ∧
      Reachable sha1 f w' ∧ w'.running = true ∧
      ∀ i < f.hashes.length, w'.torrent.isFinished i = true := by
  obtain ⟨u, hu, hru, hlu, hpend⟩ := leech_accepted h hrun hroom remote
  obtain ⟨v, hv, hrv, hlv, hpend⟩ := hlu.joins hru hpend {} hc.handshake.1 hc.handshake.2
  obtain ⟨t, ms, ht, hsel, -⟩ := hlv.bitfield hrv hpend {} hc.sized (by simp)
    fun i hi => mem_bitfieldIndexes_ones hi
  obtain ⟨w', choked, hw, hdone, hempty⟩ := hsel.finishes hc
  have hshake : Helped sha1 f C w.peerCount u v := hv.helped .handshake
  have hbits : Helped sha1 f C w.peerCount v t :=
    ht.helped (.bitfield _ fun i hi => mem_bitfieldIndexes_ones hi)
  exact ⟨u, w', hu, (hshake.trans hbits).trans hw, hdone.reachable, hdone.running,
    unfinished_eq_empty.mp hempty⟩

/-! ## The process -/

/-- The main thread is in the loop of `download`. -/
def Phase.looping : Phase → Bool
  | downloadLoop _ => true
  | awaiting call _ _ => call == .downloadPoll
  | _ => false

namespace Session

variable {decode : List Byte → Option BItem} {cmd : Command} {s s' : Session} {l : SessionLabel}
  {call : QueryCall} {tr : Tracker} {event : TrackerEvent} {polled : Option ℤ}
  {sending : Sending} {result : Bool} {ls : List Label}

/-- A query of the loop goes back to the loop, and no other does. -/
theorem looping_resume (h : (s.resume cmd call tr event result).phase.looping = true) :
    call = .downloadPoll ∧ (s.resume cmd call tr event result).accepting = s.accepting := by
  cases call with
  | downloadPoll => exact ⟨rfl, rfl⟩
  | downloadStarted | seedStarted =>
    cases result with
    | false => cases h
    | true => cases h
  | seedPoll => cases h
  | downloadEnd =>
    simp only [resume] at h
    split at h
    · simp only at h
      split at h <;> cases h
    · cases h

theorem Asks.looping (h : Asks cmd s l call tr event polled sending)
    (hcall : call = .downloadPoll) : s.phase.looping = true := by
  cases h with
  | downloadPoll _ _ _ h =>
    rw [h]
    rfl
  | downloadStarted | downloadEnd | seedStarted | seedPoll => cases hcall

/-- In the loop of `download` connections are accepted. -/
theorem step_looping (h : step decode sha1 cmd s l = some s')
    (hs : s.phase.looping = true → s.accepting = true) (hl : s'.phase.looping = true) :
    s'.accepting = true := by
  cases (step_effect h).2 with
  | client => exact hs hl
  | badUrl sending call myPort hcall =>
    obtain ⟨rfl, -⟩ := looping_resume hl
    rcases hcall with ⟨-, hcall⟩ | ⟨-, hcall⟩
    · cases hcall
    · cases hcall
  | failed _ _ _ _ _ _ hasks =>
    obtain ⟨hcall, hacc⟩ := looping_resume hl
    exact hacc.trans (hs (hasks.looping hcall))
  | unwritten => cases hl
  | sent _ _ _ _ _ hasks => exact hs (hasks.looping (eq_of_beq hl))
  | notDue => exact hs hl
  | badReply => cases hl
  | replied _ _ _ _ _ _ hphase =>
    obtain ⟨rfl, hacc⟩ := looping_resume hl
    refine hacc.trans (hs ?_)
    rw [hphase]
    rfl
  | bindFailed => cases hl
  | bound => rfl
  | left => cases hl

theorem looping_accepting (h : Runs.Reaches (step decode sha1 cmd) (start f) s)
    (hl : s.phase.looping = true) : s.accepting = true := by
  refine h.invariant (I := fun s => s.phase.looping = true → s.accepting = true)
    (fun _ _ _ hs hi => step_looping hs hi) ?_ hl
  intro hstart
  cases hstart

/-- What the client can do on its own the process can do. -/
theorem step_client {l : Label} (h : YTorrent.step sha1 s.world l = some w)
    (hl : s.allows l = true) :
    step decode sha1 cmd s (.client l) = some { s with world := w } := by
  have hrun := (YTorrent.step_effect h).1
  simp [step, hrun, hl, h]

theorem exec_client (hl : ∀ l ∈ ls, s.allows l = true)
    (h : Runs.exec (YTorrent.step sha1) s.world ls = some w) :
    Runs.exec (step decode sha1 cmd) s (ls.map .client) = some { s with world := w } := by
  induction ls generalizing s with
  | nil =>
    cases h
    rfl
  | cons l ls ih =>
    obtain ⟨t, ht, h⟩ := Runs.exec_cons.mp h
    refine Runs.exec_cons.mpr ⟨_, step_client ht (hl l List.mem_cons_self), ?_⟩
    exact ih (s := { s with world := t }) (fun l' hl' => hl l' (List.mem_cons_of_mem l hl')) h

/-- The messages of a peer are handled while the process runs. -/
theorem allows_label (hphase : s.phase = .downloadLoop tr) (p : PeerId) (env : Env) (m : Message) :
    s.allows (m.label p env) = true := by
  cases m <;> simp [allows, hphase, Message.label]

/-- The loop is left when every piece is finished, and `download` returns `COMPLETED` also
    when the tracker cannot be reached. -/
theorem leaves (hphase : s.phase = .downloadLoop tr) (hrun : s.world.running = true)
    (hfull : s.world.torrent.isFullyDownloaded = true) :
    ∃ s', Runs.exec (step decode sha1 cmd) s [.leave, .ask .unresolved] = some s' ∧
      s'.result = some .completed ∧ s'.world.torrent = s.world.torrent := by
  obtain ⟨t, ht, htphase, htrun, httorrent⟩ : ∃ t, step decode sha1 cmd s .leave = some t ∧
      t.phase = .downloaded tr ∧ t.world.running = true ∧ t.world.torrent = s.world.torrent := by
    cases hseed : cmd.seed with
    | true =>
      refine ⟨{ s with phase := .downloaded tr }, ?_, rfl, hrun, rfl⟩
      simp [step, hrun, hphase, hfull, hseed]
    | false =>
      have hstep : YTorrent.step sha1 s.world .disconnectPeers =
          some (Torrent.disconnectPeers s.world) := by
        simp [YTorrent.step, hrun]
      refine ⟨{ s with
        phase := .downloaded tr
        world := Torrent.disconnectPeers s.world
        accepting := false }, ?_, rfl, ?_, disconnectPeers_torrent _⟩
      · simp [step, hrun, hphase, hfull, hseed]
      · exact disconnectPeers_induction (I := fun v => v.running = true) hrun fun _ _ _ hv => hv
  have hend : t.endEvent = .completed := by
    rw [endEvent, httorrent, hfull]
    rfl
  refine ⟨resume cmd t .downloadEnd tr .completed false,
    Runs.exec_cons.mpr ⟨t, ht, Runs.exec_cons.mpr ⟨_, ?_, rfl⟩⟩, rfl, ?_⟩
  · simp only [step, htrun, htphase, hend]
    rfl
  · rw [resume_world, httorrent]

/-- From every state of the process in the loop of `download`, a peer that connects now and
    has every piece can bring the download to its end: there is a run in which only its
    messages are handled and the tracker is not reached any more, after which `download` has
    returned `COMPLETED` and the content is in the file. -/
theorem can_complete (hc : Fetchable sha1 f C)
    (h : Runs.Reaches (step decode sha1 cmd) (start f) s) (hphase : s.phase = .downloadLoop tr)
    (hrun : s.world.running = true)
    (hroom : ∀ (i : ℕ) piece, s.world.torrent.pieces[i]? = some piece → piece.finished = false →
      piece.priority < int32Max) (remote : Option ℕ) :
    ∃ (ms : List Message) (s' : Session), (∀ m ∈ ms, Offers f C m) ∧
      Runs.exec (step decode sha1 cmd) s (.client (.accepted remote) ::
        (ms.map (Message.label s.world.peerCount {})).map .client ++ [.leave, .ask .unresolved]) =
          some s' ∧
      s'.result = some .completed ∧
      s'.world.torrent.file.take s'.world.torrent.totalSize = C := by
  have hacc : s.accepting = true := looping_accepting h (by rw [hphase]; rfl)
  obtain ⟨u, w', hu, ⟨ms, hms, hw⟩, hr, hrun', hfin⟩ :=
    hc.helps (reachable_world h) hrun hroom remote
  have hfull : w'.torrent.isFullyDownloaded = true :=
    beq_iff_eq.mpr (completed_of_all_finished hr hfin)
  obtain ⟨s', hs', hresult, htorrent⟩ : ∃ s', Runs.exec (step decode sha1 cmd)
      { s with world := w' } [.leave, .ask .unresolved] = some s' ∧
        s'.result = some .completed ∧ s'.world.torrent = w'.torrent := leaves hphase hrun' hfull
  have hfirst : step decode sha1 cmd s (.client (.accepted remote)) =
      some { s with world := u } := step_client hu (by simp [allows, hphase, hacc])
  have hallows : ∀ l ∈ ms.map (Message.label s.world.peerCount {}),
      allows { s with world := u } l = true := by
    intro l hl
    obtain ⟨m, -, rfl⟩ := List.mem_map.mp hl
    exact allows_label hphase _ _ m
  have hrest : Runs.exec (step decode sha1 cmd) { s with world := u } _ = _ :=
    exec_client hallows hw
  refine ⟨ms, s', hms, ?_, hresult, ?_⟩
  · exact Runs.exec_cons.mpr ⟨_, hfirst, Runs.exec_append.mpr ⟨_, hrest, hs'⟩⟩
  · rw [htorrent]
    refine (hr.holds hc.describes hc.collisionFree).take_eq hc.describes fun i hi => ?_
    exact (isFinished_iff w' i).mp (hfin i hi)

theorem fetchable_oneByte : Fetchable sha1OfA oneByteFile [97] where
  describes := describes_oneByte
  collisionFree := collisionFree_oneByte
  fits := by decide
  count := by decide
  size_lt := by decide
  handshake := by decide +kernel

/-- The one-byte download can be completed right after the acceptor is bound. -/
theorem can_complete_oneByte : ∃ (ms : List Message) (s s' : Session),
    Runs.exec (step decodeShort sha1OfA oneByteCommand) (start oneByteFile)
      (seedingRun.take 3) = some s ∧
    Runs.exec (step decodeShort sha1OfA oneByteCommand) s (.client (.accepted none) ::
      (ms.map (Message.label s.world.peerCount {})).map .client ++ [.leave, .ask .unresolved]) =
        some s' ∧
    s'.result = some .completed ∧ s'.world.torrent.file.take s'.world.torrent.totalSize = [97] := by
  have hprefix : ((Runs.exec (step decodeShort sha1OfA oneByteCommand) (start oneByteFile)
      (seedingRun.take 3)).map fun s => decide (s.phase = .downloadLoop
        { oneByteCommand.tracker 6881 with timeToNextRequest := 9000000 } ∧
          s.world.running = true ∧ ∀ piece ∈ s.world.torrent.pieces, piece.priority = 0)) =
        some true := by
    decide +kernel
  obtain ⟨s, hs, hstate⟩ := Option.map_eq_some_iff.mp hprefix
  obtain ⟨hphase, hrun, hzero⟩ := of_decide_eq_true hstate
  obtain ⟨ms, s', -, hs', hresult, hfile⟩ :=
    can_complete fetchable_oneByte ⟨_, hs⟩ hphase hrun (fun i piece hi _ => by
      rw [hzero piece (List.mem_of_getElem? hi)]
      decide) none
  exact ⟨ms, s, s', hs, hs', hresult, hfile⟩

end Session

end YTorrent
