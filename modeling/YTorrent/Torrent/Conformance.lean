import YTorrent.Common.Simulation
import YTorrent.Torrent.Remote
import YTorrent.Torrent.Rules
import YTorrent.Torrent.Uploads

/-!
# The client as a conformant remote

What a peer sees of the client: the REQUESTs and CANCELs it has sent are handled, and
messages are written to it (`Entry.seen?`). A conformant remote (`Remote`) shows the
same when it is told the former and acts.

* `Plays`: the remote has no piece that the client has not finished, and is not
  choking a peer that the client has unchoked.
* `client_conforms`: what a peer sees of a run of the client, in the order in which it
  happens, is shown by some run of a conformant remote, if no REQUEST wraps around and
  reading from the file succeeds. What is proved of conformant remotes holds for other
  clients of this kind.
-/

namespace YTorrent

open World Peer Slice Runs

/-- What is seen of the far end of a connection: it is told a message, or sends one. -/
inductive Seen
  | told (m : Message)
  | sent (c : Call)
  deriving DecidableEq, Repr

/-- A remote is told a message, or acts. -/
inductive RemoteEvent
  | tell (m : Message)
  | act (a : RemoteAction)
  deriving DecidableEq, Repr

/-- One step of a remote for a torrent of `n` pieces whose blocks have the data `truth`. -/
def Remote.next (n : ℕ) (truth : BlockId → List Byte) (r : Remote) : RemoteEvent → Option Remote
  | .tell m => some (r.tell [m])
  | .act a => r.act n truth a

/-- What is seen of a step of a remote. -/
def Remote.shown (r : Remote) (e : RemoteEvent) (r' : Remote) : List Seen :=
  match e with
  | .tell m => [.told m]
  | .act _ => (r'.outbox.drop r.outbox.length).map .sent

/-- The REQUEST or the CANCEL that a frame is. -/
def told? (messageID : Byte) (payload : List Byte) : Option Message :=
  if payload.length = 12 then
    match MessageID.ofByte messageID with
    | some .request => some (.request (requestFields payload).1 (requestFields payload).2.1
        (requestFields payload).2.2)
    | some .cancel => some (.cancel (requestFields payload).1 (requestFields payload).2.1
        (requestFields payload).2.2)
    | _ => none
  else none

/-- What is seen of a message written: a handshake belongs to no remote. -/
def Message.seen? : Message → Option Seen
  | .handshake _ => none
  | m => some (.sent m.call)

/-- What `p` sees of an entry of the history. -/
def Entry.seen? (p : PeerId) : Entry → Option Seen
  | .received q messageID payload =>
    if q = p then (told? messageID payload).map .told else none
  | .event v => (v.message? p).bind Message.seen?

/-- The remote `r` can stand for the client, as far as `p` sees it. -/
structure Plays (sha1 : List Byte → List ℕ) (f : ParsedFile) (p : PeerId) (w : World)
    (r : Remote) : Prop where
  reachable : Reachable sha1 f w
  unchoked : ∃ h, Conduct f.hashes.length h w ∧ (Wrote h p .unchoke → r.choking = false)
  has : ∀ i ∈ r.has, w.torrent.isFinished i = true
  inbox : r.inbox = []

variable {sha1 : List Byte → List ℕ} {f : ParsedFile} {C : List Byte} {w w' : World} {p q : PeerId}
  {messageID : Byte} {payload : List Byte} {n : ℕ} {truth : BlockId → List Byte} {r r' : Remote}
  {a : RemoteAction} {c : Call} {m : Message} {ms : List Message} {l : Label} {fin : ℕ → Prop}

/-! ## What a remote can say -/

/-- An action that sends a message. -/
theorem shows_send (h : r.act n truth a = some (r'.send c)) (hout : r'.outbox = r.outbox) :
    Shows (Remote.next n truth) Remote.shown r [.sent c] (r'.send c) := by
  have hstep : Remote.next n truth r (.act a) = some (r'.send c) := h
  have hshown : Remote.shown r (.act a) (r'.send c) = [.sent c] := by
    simp [Remote.shown, Remote.send, hout]
  exact hshown ▸ Shows.single hstep

/-- Getting pieces is not seen. -/
theorem shows_gain (n : ℕ) (truth : BlockId → List Byte) (r : Remote) (is : List ℕ) :
    Shows (Remote.next n truth) Remote.shown r [] { r with has := r.has ++ is } := by
  induction is generalizing r with
  | nil =>
    rw [List.append_nil]
    exact .refl r
  | cons i is ih =>
    have hstep : Remote.next n truth r (.act (.gain i)) = some { r with has := r.has ++ [i] } := rfl
    have hnone : Remote.shown r (.act (.gain i)) { r with has := r.has ++ [i] } = [] := by
      simp [Remote.shown]
    have hone : Shows (Remote.next n truth) Remote.shown r [] { r with has := r.has ++ [i] } :=
      hnone ▸ Shows.single hstep
    have hall := hone.trans (ih { r with has := r.has ++ [i] })
    simpa using hall

/-- What a remote has become by saying `ms`. -/
structure Said (fin : ℕ → Prop) (r : Remote) (ms : List Message) (r' : Remote) : Prop where
  has : ∀ i ∈ r'.has, fin i
  inbox : r'.inbox = r.inbox
  choking : r.choking = false ∨ .unchoke ∈ ms → r'.choking = false

/-- A message about which a remote keeps nothing. -/
theorem shows_say (hhas : ∀ i ∈ r.has, fin i) (hm : Remote.IsOther m.call.messageID)
    (hseen : m.seen? = some (.sent m.call)) (hne : Message.unchoke ≠ m) :
    ∃ r', Shows (Remote.next n truth) Remote.shown r m.seen?.toList r' ∧ Said fin r [m] r' := by
  refine ⟨r.send m.call, ?_, hhas, rfl, ?_⟩
  · rw [hseen]
    exact shows_send (a := .say m.call) (if_pos hm) rfl
  · intro h
    exact h.resolve_right (by simpa using hne)

/-- A remote can say anything but a PIECE frame, if it announces only what it may have. -/
theorem shows_message (truth : BlockId → List Byte) (hfin : ∀ i, fin i → i < 2 ^ 32)
    (hhas : ∀ i ∈ r.has, fin i) (hm : (Event.sent p m).isPiece = false)
    (hann : ∀ i, m.announces n i = true → fin i) :
    ∃ r', Shows (Remote.next n truth) Remote.shown r m.seen?.toList r' ∧ Said fin r [m] r' := by
  cases m with
  | handshake bytes => exact ⟨r, .refl r, hhas, rfl, fun h => h.resolve_right (by simp)⟩
  | interested => exact shows_say hhas (by decide) rfl nofun
  | request index begin length =>
    exact shows_say hhas (show Remote.IsOther MessageID.request.toByte by decide) rfl nofun
  | cancel index begin length =>
    exact shows_say hhas (show Remote.IsOther MessageID.cancel.toByte by decide) rfl nofun
  | pieceBlock index begin block => cases hm
  | unchoke =>
    refine ⟨{ r with choking := false }.send Message.unchoke.call, ?_, hhas, rfl, fun _ => rfl⟩
    have hact : r.act n truth .unchoke =
        some (Remote.send { r with choking := false } Message.unchoke.call) := rfl
    exact shows_send hact rfl
  | havePiece index =>
    have hindex : fin index := hann index (by simp [Message.announces])
    have hgained : ∀ i ∈ r.has ++ [index], fin i := by
      intro i hi
      rcases List.mem_append.mp hi with hi | hi
      · exact hhas i hi
      · rw [List.mem_singleton.mp hi]
        exact hindex
    refine ⟨{ r with has := r.has ++ [index] }.send (Message.havePiece index).call, ?_, hgained,
      rfl, fun h => h.resolve_right (by simp)⟩
    have hact : Remote.act { r with has := r.has ++ [index] } n truth (.announce index) =
        some (Remote.send { r with has := r.has ++ [index] } (Message.havePiece index).call) :=
      if_pos ⟨by simp, hfin index hindex⟩
    exact (shows_gain n truth r [index]).trans (shows_send hact rfl)
  | bitfield raw =>
    have hgained : ∀ i ∈ r.has ++ bitfieldIndexes raw n, fin i := by
      intro i hi
      rcases List.mem_append.mp hi with hi | hi
      · exact hhas i hi
      · exact hann i (by simpa [Message.announces] using hi)
    refine ⟨{ r with has := r.has ++ bitfieldIndexes raw n }.send (Message.bitfield raw).call, ?_,
      hgained, rfl, fun h => h.resolve_right (by simp)⟩
    have hact : Remote.act { r with has := r.has ++ bitfieldIndexes raw n } n truth
          (.bitfield raw) =
        some (Remote.send { r with has := r.has ++ bitfieldIndexes raw n }
          (Message.bitfield raw).call) :=
      if_pos fun i hi => List.mem_append_right r.has hi
    exact (shows_gain n truth r _).trans (shows_send hact rfl)

/-- Several messages in a row. -/
theorem shows_messages (truth : BlockId → List Byte) (p : PeerId)
    (hfin : ∀ i, fin i → i < 2 ^ 32) (hhas : ∀ i ∈ r.has, fin i)
    (hms : ∀ m ∈ ms, (Event.sent p m).isPiece = false)
    (hann : ∀ m ∈ ms, ∀ i, m.announces n i = true → fin i) :
    ∃ r', Shows (Remote.next n truth) Remote.shown r (ms.filterMap Message.seen?) r' ∧
      Said fin r ms r' := by
  induction ms generalizing r with
  | nil => exact ⟨r, .refl r, hhas, rfl, fun h => h.resolve_right (by simp)⟩
  | cons m ms ih =>
    obtain ⟨u, hu, hsaid⟩ := shows_message truth hfin hhas
      (hms m List.mem_cons_self) (hann m List.mem_cons_self)
    obtain ⟨r', hr', hrest⟩ := ih hsaid.has (fun m' hm' => hms m' (List.mem_cons_of_mem m hm'))
      (fun m' hm' => hann m' (List.mem_cons_of_mem m hm'))
    refine ⟨r', ?_, hrest.has, hrest.inbox.trans hsaid.inbox, fun h => hrest.choking ?_⟩
    · have happ := hu.trans hr'
      cases hseen : m.seen? with
      | none =>
        rw [List.filterMap_cons_none hseen]
        simpa [hseen] using happ
      | some s =>
        rw [List.filterMap_cons_some hseen]
        simpa [hseen] using happ
    · rcases h with h | h
      · exact .inl (hsaid.choking (.inl h))
      · rcases List.mem_cons.mp h with rfl | h
        · exact .inl (hsaid.choking (.inr (List.mem_singleton_self _)))
        · exact .inr h

/-! ## What a remote is told -/

/-- Handling a message changes only the requests that are kept. -/
theorem handle_keeps (r : Remote) (m : Message) : (r.handle m).has = r.has ∧
    (r.handle m).choking = r.choking ∧ (r.handle m).inbox = r.inbox ∧
    (r.handle m).outbox = r.outbox := by
  cases m with
  | request index begin length =>
    simp only [Remote.handle]
    split <;> exact ⟨rfl, rfl, rfl, rfl⟩
  | handshake | interested | unchoke | havePiece | bitfield | pieceBlock | cancel =>
    exact ⟨rfl, rfl, rfl, rfl⟩

/-- A remote that is told a message handles it. -/
theorem shows_handle (n : ℕ) (truth : BlockId → List Byte) (m : Message) (hin : r.inbox = []) :
    Shows (Remote.next n truth) Remote.shown r [.told m] (r.handle m) := by
  have htell : Remote.next n truth r (.tell m) = some (r.tell [m]) := rfl
  have hreceive : Remote.next n truth (r.tell [m]) (.act .receive) = some (r.handle m) := by
    have hempty : { r with inbox := [] } = r := by rw [← hin]
    simp only [Remote.next, Remote.act, Remote.tell, hin, List.nil_append, hempty]
  have hquiet : Remote.shown (r.tell [m]) (.act .receive) (r.handle m) = [] := by
    simp [Remote.shown, Remote.tell, (handle_keeps r m).2.2.2]
  have hheard : Shows (Remote.next n truth) Remote.shown r [.told m] (r.tell [m]) :=
    Shows.single htell
  have hhandled : Shows (Remote.next n truth) Remote.shown (r.tell [m]) [] (r.handle m) :=
    hquiet ▸ Shows.single hreceive
  exact hheard.trans hhandled

/-- A remote can be told what a frame of `q` says, and keeps the REQUEST of a peer that
    it is not choking. -/
theorem shows_received (n : ℕ) (truth : BlockId → List Byte) (p q : PeerId) (messageID : Byte)
    (payload : List Byte) (hin : r.inbox = []) :
    ∃ r', Shows (Remote.next n truth) Remote.shown r
        (Entry.seen? p (.received q messageID payload)).toList r' ∧
      r'.has = r.has ∧ r'.choking = r.choking ∧ r'.inbox = [] ∧
      (q = p → MessageID.ofByte messageID = some .request → payload.length = 12 →
        r.choking = false → requestFields payload ∈ r'.fifo) := by
  by_cases hq : q = p
  · cases hm : told? messageID payload with
    | none =>
      refine ⟨r, ?_, rfl, rfl, hin, fun _ hid hlen _ => ?_⟩
      · simp only [Entry.seen?, if_pos hq, hm]
        exact .refl r
      · simp [told?, hid, hlen] at hm
    | some m =>
      obtain ⟨hhas, hchoking, hinbox, -⟩ := handle_keeps r m
      refine ⟨r.handle m, ?_, hhas, hchoking, hinbox.trans hin, fun _ hid hlen hchoke => ?_⟩
      · simp only [Entry.seen?, if_pos hq, hm]
        exact shows_handle n truth m hin
      · rw [told?, if_pos hlen, hid] at hm
        obtain rfl := Option.some.inj hm
        simp [Remote.handle, hchoke]
  · refine ⟨r, ?_, rfl, rfl, hin, fun h => absurd h hq⟩
    simp only [Entry.seen?, if_neg hq]
    exact .refl r

/-- The same for the frame of any step. -/
theorem shows_label (n : ℕ) (truth : BlockId → List Byte) (p : PeerId) (l : Label)
    (hin : r.inbox = []) :
    ∃ r', Shows (Remote.next n truth) Remote.shown r (l.received.filterMap (Entry.seen? p)) r' ∧
      r'.has = r.has ∧ r'.choking = r.choking ∧ r'.inbox = [] ∧
      ∀ payload env, l = .frame p MessageID.request.toByte payload env → payload.length = 12 →
        r.choking = false → requestFields payload ∈ r'.fifo := by
  cases l with
  | frame q messageID payload env =>
    obtain ⟨r', hr', hhas, hchoking, hinbox, hkeep⟩ :=
      shows_received n truth p q messageID payload hin
    refine ⟨r', ?_, hhas, hchoking, hinbox, fun payload' env' heq hlen hchoke => ?_⟩
    · cases hseen : Entry.seen? p (.received q messageID payload) with
      | none => simpa [Label.received, List.filterMap_cons, hseen] using hr'
      | some s => simpa [Label.received, List.filterMap_cons, hseen] using hr'
    · cases heq
      exact hkeep rfl (by decide) hlen hchoke
  | socketError | endpointLost | dial | connected | accepted | handshake | disconnectPeers =>
    refine ⟨r, .refl r, rfl, rfl, hin, fun payload env heq => ?_⟩
    cases heq

/-! ## The client -/

theorem filterMap_seen_events (p : PeerId) (es : List Event) :
    (es.map Entry.event).filterMap (Entry.seen? p) =
      (es.filterMap (Event.message? p)).filterMap Message.seen? := by
  rw [List.filterMap_map, List.filterMap_filterMap]
  rfl

theorem lt_of_isFinished {i : ℕ} (h : w.torrent.isFinished i = true) :
    i < w.torrent.pieces.length := by
  rw [isFinished_iff] at h
  rw [← length_finished]
  exact (List.getElem?_eq_some_iff.mp h).1

/-- The messages of a step that writes no block can be said by a remote that may have
    the finished pieces. -/
theorem shows_noUpload (truth : BlockId → List Byte) (p : PeerId) (r : Remote)
    (hr' : Reachable sha1 f w') (hn : f.hashes.length ≤ 2 ^ 32) (hno : NoUpload w w')
    (hhas : ∀ i ∈ r.has, w'.torrent.isFinished i = true) :
    ∃ r', Shows (Remote.next f.hashes.length truth) Remote.shown r
        (((w.newEvents w').map Entry.event).filterMap (Entry.seen? p)) r' ∧
      Said (fun i => w'.torrent.isFinished i = true) r
        ((w.newEvents w').filterMap (Event.message? p)) r' := by
  obtain ⟨es, hes, hpiece⟩ := hno.trace
  rw [newEvents_of_trace hes, filterMap_seen_events]
  have hmem : ∀ m ∈ es.filterMap (Event.message? p), .sent p m ∈ es := by
    intro m hm
    obtain ⟨v, hv, hm⟩ := List.mem_filterMap.mp hm
    rwa [← sent_of_message? hm]
  refine shows_messages truth p (fun i hi => ?_) hhas (fun m hm => hpiece _ (hmem m hm))
    fun m hm i hi => ?_
  · have hlt := lt_of_isFinished hi
    rw [hr'.length_pieces] at hlt
    exact hlt.trans_le hn
  · refine finished_of_announced (p := p) hr' ⟨m, ?_, ?_⟩
    · rw [hes]
      exact List.mem_append_right _ (hmem m hm)
    · rw [hr'.length_pieces]
      exact hi

/-- A remote that keeps a request can get the piece and serve it. -/
theorem shows_block {index begin : ℕ} {block : List Byte} (n : ℕ)
    (truth : BlockId → List Byte) (hb : block = truth (index, begin, block.length))
    (hkeep : (index, begin, block.length) ∈ r.fifo) :
    ∃ r', Shows (Remote.next n truth) Remote.shown r
        [.sent (Message.pieceBlock index begin block).call] r' ∧
      r'.has = r.has ++ [index] ∧ r'.choking = r.choking ∧ r'.inbox = r.inbox := by
  obtain ⟨k, hk⟩ := List.mem_iff_getElem?.mp hkeep
  refine ⟨Remote.send { r with has := r.has ++ [index], fifo := r.fifo.eraseIdx k }
    (Message.pieceBlock index begin block).call, ?_, rfl, rfl, rfl⟩
  refine (shows_gain n truth r [index]).trans (shows_send (a := .serve k) ?_ rfl)
  simp [Remote.act, hk, ← hb]

/-- Every step of the client that meets the condition is one of a conformant remote. -/
theorem client_simulates (hd : Describes sha1 f C) (hfree : CollisionFree sha1 f C)
    (hC : C.length < 2 ^ 63) (hn : f.hashes.length ≤ 2 ^ 32) (p : PeerId) :
    Simulates (step sha1) entries (Remote.next f.hashes.length (trueData C f.pieceLength))
      Remote.shown (Entry.seen? p) ServesInside (Plays sha1 f p) := by
  intro w l w' r hg hs ⟨hr, ⟨h, hconduct, hwrote⟩, hhas, hin⟩
  have hr' := hr.step hs
  have hconduct' := hconduct.step hr hs
  have hhas' : ∀ i ∈ r.has, w'.torrent.isFinished i = true := fun i hi =>
    isFinished_mono (.single hs) (hhas i hi)
  -- the frame is heard first
  obtain ⟨u, hu, huhas, huchoke, huin, hkeep⟩ :=
    shows_label f.hashes.length (trueData C f.pieceLength) p l hin
  have hunchoked : ∀ {r'' : Remote}, (u.choking = false ∨
      .unchoke ∈ (w.newEvents w').filterMap (Event.message? p) → r''.choking = false) →
      ∃ h, Conduct f.hashes.length h w' ∧ (Wrote h p .unchoke → r''.choking = false) := by
    refine fun {r''} hsaid => ⟨h ++ entries w l w', hconduct', fun hmem => hsaid ?_⟩
    rw [entries, ← List.append_assoc, wrote_events] at hmem
    rcases hmem with hmem | hmem
    · have hold : Wrote h p .unchoke := by
        cases l <;> simpa [Wrote, Label.received] using hmem
      exact .inl (huchoke.trans (hwrote hold))
    · exact .inr (List.mem_filterMap.mpr ⟨_, hmem, by simp [Event.message?]⟩)
  rw [entries, List.filterMap_append]
  have hsilent : NoUpload w w' → ∃ t',
      Shows (Remote.next f.hashes.length (trueData C f.pieceLength)) Remote.shown r
        (l.received.filterMap (Entry.seen? p) ++
          ((w.newEvents w').map Entry.event).filterMap (Entry.seen? p)) t' ∧
        Plays sha1 f p w' t' := by
    intro hno
    obtain ⟨t', ht', hsaid⟩ := shows_noUpload (trueData C f.pieceLength) p u hr' hn hno
      (by rwa [huhas])
    exact ⟨t', hu.trans ht', hr', hunchoked hsaid.choking, hsaid.has, hsaid.inbox.trans huin⟩
  rcases step_uploads hs with hno | ⟨q, payload, env, block, rfl, hserves, htrace, -⟩
  · exact hsilent hno
  · have hnew : w.newEvents w' = [.sent q (.pieceBlock (requestFields payload).1
      (requestFields payload).2.1 block)] := newEvents_of_trace htrace
    by_cases hq : q = p
    · subst hq
      obtain ⟨hwraps, hseek, hread⟩ := hg rfl
      have hgenuine := hserves.genuine hd hfree hC hr hwraps hseek hread
      have hchoking : r.choking = false :=
        hwrote ((hconduct.dealings q).told.mp hserves.asks.unchoked)
      have hfifo := hkeep payload env rfl hserves.asks.size hchoking
      rw [show requestFields payload = ((requestFields payload).1, (requestFields payload).2.1,
        block.length) by rw [hserves.length_block]] at hfifo
      obtain ⟨t', ht', hthas, htchoke, htin⟩ :=
        shows_block f.hashes.length (trueData C f.pieceLength) hgenuine.bytes hfifo
      refine ⟨t', ?_, hr', hunchoked fun _ => ?_, fun i hi => ?_, htin.trans huin⟩
      · rw [hnew]
        simpa [Entry.seen?, Event.message?, Message.seen?] using hu.trans ht'
      · rw [htchoke, huchoke, hchoking]
      · rw [hthas, huhas] at hi
        rcases List.mem_append.mp hi with hi | hi
        · exact hhas' i hi
        · rw [List.mem_singleton.mp hi]
          exact isFinished_mono (.single hs) hserves.finished
    · refine ⟨u, ?_, hr', hunchoked fun hsaid => ?_, fun i hi => hhas' i (huhas ▸ hi), huin⟩
      · rw [hnew]
        simpa [Entry.seen?, Event.message?, hq] using hu
      · exact hsaid.resolve_right (by simp [hnew, Event.message?, hq])

/-- What a peer sees of a run of the client is shown by a conformant remote that has only
    pieces the client has finished. -/
theorem client_conforms {ls : List Label} (hd : Describes sha1 f C)
    (hfree : CollisionFree sha1 f C) (hC : C.length < 2 ^ 63) (hn : f.hashes.length ≤ 2 ^ 32)
    (hinside : Guarded (step sha1) ServesInside f.start ls)
    (h : exec (step sha1) f.start ls = some w) (p : PeerId) :
    ∃ r, Shows (Remote.next f.hashes.length (trueData C f.pieceLength)) Remote.shown {}
        ((history (step sha1) entries f.start ls).filterMap (Entry.seen? p)) r ∧
      ∀ i ∈ r.has, w.torrent.isFinished i = true := by
  have hstart : Plays sha1 f p f.start {} := by
    refine ⟨.refl _, ⟨[], ⟨lawful_nil, fun q => ?_⟩, nofun⟩, nofun, rfl⟩
    exact ⟨nofun, nofun, ⟨nofun, nofun⟩, nofun, nofun⟩
  obtain ⟨r, hr, hplays⟩ := (client_simulates hd hfree hC hn p).traces hinside h hstart
  exact ⟨r, hr, hplays.has⟩

/-- The client that serves its one byte. -/
theorem client_conforms_oneByte : ∃ r,
    Shows (Remote.next 1 (trueData [97] 32768)) Remote.shown {}
      [.sent (Message.bitfield [0]).call, .sent Message.interested.call,
        .sent (Message.request 0 0 1).call, .sent Message.unchoke.call,
        .told (.request 0 0 1), .sent (Message.pieceBlock 0 0 [97]).call] r := by
  have hsome : (exec (step sha1OfA) oneByteFile.start (servingRun ++
      [.frame 0 MessageID.request.toByte requestInside {}])).isSome = true := by
    decide +kernel
  obtain ⟨w, hw⟩ := Option.isSome_iff_exists.mp hsome
  obtain ⟨r, hr, -⟩ := client_conforms describes_oneByte collisionFree_oneByte (by decide)
    (by decide) (by decide +kernel) hw 0
  have hseen : (history (step sha1OfA) entries oneByteFile.start (servingRun ++
      [.frame 0 MessageID.request.toByte requestInside {}])).filterMap (Entry.seen? 0) =
      [.sent (Message.bitfield [0]).call, .sent Message.interested.call,
        .sent (Message.request 0 0 1).call, .sent Message.unchoke.call,
        .told (.request 0 0 1), .sent (Message.pieceBlock 0 0 [97]).call] := by
    decide +kernel
  rw [hseen] at hr
  exact ⟨r, hr⟩

end YTorrent
