import YTorrent.Torrent.Bookkeeping
import YTorrent.Torrent.Replies

/-!
# A run of `main`

The main thread of the process: `Torrent::download`, then `Torrent::seed` when asked
(`src/main.cpp` lines 98–130, torrent.cpp lines 178–291), while the network thread runs the
client of `Step.lean`. `Session.step` is one step of the process: one of the client, one
test of a polling loop, or one half of a call of `Tracker::query` (the request is written;
the response has arrived).

`Session.contacts` records the announces that were written and the replies that announced
an interval, in order; no function reads it.

* `Session.step_effect`: what one step can do.
* `Session.reachable_world`: the client of a process is in a state that a client reaches.
-/

namespace YTorrent

open World

/-- `Torrent::DownloadError`. -/
inductive DownloadError
  | completed
  | trackerQueryFailure
  | networkError
  deriving DecidableEq, Repr

/-- What `main` reads from the command line, and the announce URL of the torrent file. -/
structure Command where
  startport : UInt16
  seed : Bool
  mainTrackerUrl : List Byte

/-- The tracker `validateTracker` makes (torrent.cpp line 283). -/
def Command.tracker (cmd : Command) (myPort : UInt16) : Tracker where
  myPort := myPort.toNat
  urlMeta := parseTrackerUrl cmd.mainTrackerUrl

/-- The calls of `Tracker::query`: in `validateTracker` for `download`, in the loop of
    `download`, at its end, in `validateTracker` for `seed`, and in the loop of `seed`. -/
inductive QueryCall
  | downloadStarted
  | downloadPoll
  | downloadEnd
  | seedStarted
  | seedPoll
  deriving DecidableEq, Repr

/-- Where the main thread is; from the success of the first query on with `mainTracker`. -/
inductive Phase
  /-- `download` is called -/
  | download
  /-- before the acceptor is made (line 187) -/
  | bind (mainTracker : Tracker)
  /-- at the test of the loop of `download` (line 200) -/
  | downloadLoop (mainTracker : Tracker)
  /-- behind that loop (line 214) -/
  | downloaded (mainTracker : Tracker)
  /-- `seed` is called -/
  | seed
  /-- in the loop of `seed` (line 239) -/
  | seedLoop (mainTracker : Tracker)
  /-- the request of the call is written -/
  | awaiting (call : QueryCall) (tracker : Tracker) (event : TrackerEvent)
  /-- `main` returns -/
  | ended
  /-- an exception has left the main thread, or its behaviour is undefined -/
  | crashed
  deriving DecidableEq, Repr

/-- An announce, when it is written: the query, the port in it, the clock reading of the
    test before it if a loop sent it, the port the acceptor is bound to, and whether the
    file was fully downloaded. -/
structure Announce where
  query : TrackerQuery
  port : ℕ
  polled : Option ℤ
  bound : Option ℕ
  finished : Bool
  deriving DecidableEq, Repr

/-- An announce, or a reply with an interval, with the clock reading when it is handled. -/
inductive Contact
  | announce (a : Announce)
  | reply (now : ℤ) (interval : Int64)
  deriving DecidableEq, Repr

/-- The state of the process. `acceptor` is the port the acceptor is bound to, once there
    is one, `accepting` whether its loop was started and not stopped, and `result` what
    `download` has returned. -/
structure Session where
  world : World
  phase : Phase := .download
  acceptor : Option ℕ := none
  accepting : Bool := false
  result : Option DownloadError := none
  contacts : List Contact := []

/-- What the network does with the request of a query. -/
inductive Sending
  | unresolved
  | unconnected
  | unwritten
  | written
  deriving DecidableEq, Repr

/-- What happens next: a step of the client; a query that no loop makes; a test of a loop
    when the clock reads `now`; the arrival of a response; the acceptor is bound, or its
    constructor throws; the download loop is left. -/
inductive SessionLabel
  | client (l : Label)
  | ask (sending : Sending)
  | poll (now : ℤ) (sending : Sending)
  | reply (segments : List (List Byte)) (now : ℤ)
  | bind (port : Option ℕ)
  | leave
  deriving DecidableEq, Repr

/-- The interval in the body of a response that is read. -/
def intervalOf (decode : List Byte → Option BItem) (segments : List (List Byte)) :
    Option Int64 :=
  match readBody segments with
  | .ok (.ok body) =>
    match decodeDictionary decode body with
    | .ok respDict => (integerAt respDict "interval").toOption
    | .error _ => none
  | _ => none

/-- The call is made by `seed`. -/
def QueryCall.seeding : QueryCall → Bool
  | seedStarted | seedPoll => true
  | downloadStarted | downloadPoll | downloadEnd => false

namespace Phase

/-- `seed` is called. -/
def seeding : Phase → Bool
  | seed | seedLoop _ => true
  | awaiting call _ _ => call.seeding
  | _ => false

/-- The tracker the main thread has. -/
def tracker? : Phase → Option Tracker
  | bind tracker | downloadLoop tracker | downloaded tracker | seedLoop tracker => some tracker
  | awaiting _ tracker _ => some tracker
  | _ => none

end Phase

/-- The announce, if the contact is one. -/
def Contact.announce? : Contact → Option Announce
  | announce a => some a
  | reply _ _ => none

namespace Session

/-- The announces that were written. -/
def announces (s : Session) : List Announce := s.contacts.filterMap Contact.announce?

/-! ## The functions of the main thread -/

/-- `query` has returned `result`; the main thread goes on. -/
def resume (cmd : Command) (s : Session) (call : QueryCall) (tracker : Tracker)
    (event : TrackerEvent) (result : Bool) : Session :=
  match call with
  | .downloadStarted =>
    if result then { s with phase := .bind tracker }
    else { s with phase := .ended, result := some .trackerQueryFailure }
  | .downloadPoll => { s with phase := .downloadLoop tracker }
  | .downloadEnd =>
    if event = .completed then
      { s with phase := if cmd.seed then .seed else .ended, result := some .completed }
    else { s with phase := .ended, result := some .networkError }
  | .seedStarted =>
    if result then { s with phase := .seedLoop tracker, accepting := true }
    else { s with phase := .ended }
  | .seedPoll => { s with phase := .seedLoop tracker }

/-- `httpRequest` has ended. -/
def receive (cmd : Command) (s : Session) (call : QueryCall) (event : TrackerEvent) :
    Except Crash Queried → Session
  | .error _ => { s with phase := .crashed }
  | .ok q => resume cmd { s with world := q.world } call q.tracker event q.result

/-- The announce of a call that is made now. -/
def announce (s : Session) (tracker : Tracker) (event : TrackerEvent) (polled : Option ℤ) :
    Announce where
  query := s.world.torrent.buildTrackerQuery event
  port := tracker.myPort
  polled := polled
  bound := s.acceptor
  finished := s.world.torrent.isFullyDownloaded

/-- The request is written. -/
def sent (s : Session) (call : QueryCall) (tracker : Tracker) (event : TrackerEvent)
    (polled : Option ℤ) : Session :=
  { s with
    phase := .awaiting call tracker event
    contacts := s.contacts ++ [.announce (s.announce tracker event polled)] }

/-- A reply that has this interval, if it has one, is recorded. -/
def heard (s : Session) (interval : Option Int64) (now : ℤ) : Session :=
  { s with contacts := s.contacts ++ (interval.map (Contact.reply now)).toList }

/-- `tracker->query(buildTrackerQuery(event))`, up to the response. -/
def query (decode : List Byte → Option BItem) (cmd : Command) (s : Session) (call : QueryCall)
    (tracker : Tracker) (event : TrackerEvent) (polled : Option ℤ) : Sending → Session
  | .unresolved =>
    s.receive cmd call event (tracker.httpRequest decode s.world event .unresolved)
  | .unconnected =>
    s.receive cmd call event (tracker.httpRequest decode s.world event .unconnected)
  | .unwritten =>
    s.receive cmd call event (tracker.httpRequest decode s.world event .unwritten)
  | .written => s.sent call tracker event polled

/-- `Torrent::validateTracker` (torrent.cpp lines 274–291), with the event `STARTED`. -/
def validateTracker (decode : List Byte → Option BItem) (cmd : Command) (s : Session)
    (call : QueryCall) (myPort : UInt16) (sending : Sending) : Session :=
  if (cmd.tracker myPort).urlMeta.host = [] then
    s.resume cmd call (cmd.tracker myPort) .started false
  else s.query decode cmd call (cmd.tracker myPort) .started none sending

/-- The `if` in the body of a loop (torrent.cpp lines 202–205, 241–244). -/
def poll (decode : List Byte → Option BItem) (cmd : Command) (s : Session) (call : QueryCall)
    (tracker : Tracker) (event : TrackerEvent) (now : ℤ) (sending : Sending) : Session :=
  if tracker.isNextRequestDue now then s.query decode cmd call tracker event (some now) sending
  else s

/-- The event of the last query of `download` (torrent.cpp line 216). -/
def endEvent (s : Session) : TrackerEvent :=
  if s.world.torrent.isFullyDownloaded then .completed else .stopped

/-- A step of the client can happen on its own: dialling and disconnecting are left to the
    main thread, and connections are accepted while the acceptor listens. -/
def allows (s : Session) (l : Label) : Bool :=
  s.phase != .ended && s.phase != .crashed &&
    match l with
    | .dial _ => false
    | .disconnectPeers => false
    | .accepted _ => s.accepting
    | _ => true

/-- The port an acceptor for `port` can be bound to: the port itself, or one that the
    system chooses for 0. -/
def Binds (port : UInt16) (b : ℕ) : Prop :=
  if port = 0 then 0 < b ∧ b < 2 ^ 16 else b = port.toNat

instance (port : UInt16) (b : ℕ) : Decidable (Binds port b) := by
  unfold Binds
  infer_instance

/-- One step of the process, `none` where the event cannot happen. -/
def step (decode : List Byte → Option BItem) (sha1 : List Byte → List ℕ) (cmd : Command)
    (s : Session) (l : SessionLabel) : Option Session :=
  if !s.world.running then none
  else match l with
  | .client l =>
    if s.allows l then (YTorrent.step sha1 s.world l).map fun w => { s with world := w } else none
  | .ask sending =>
    match s.phase with
    | .download =>
      some (s.validateTracker decode cmd .downloadStarted cmd.startport sending)
    | .downloaded tracker =>
      some (s.query decode cmd .downloadEnd tracker s.endEvent none sending)
    | .seed => some (s.validateTracker decode cmd .seedStarted (cmd.startport + 1) sending)
    | _ => none
  | .poll now sending =>
    match s.phase with
    | .downloadLoop tracker =>
      if s.world.torrent.isFullyDownloaded then none
      else some (s.poll decode cmd .downloadPoll tracker .none now sending)
    | .seedLoop tracker => some (s.poll decode cmd .seedPoll tracker .completed now sending)
    | _ => none
  | .reply segments now =>
    match s.phase with
    | .awaiting call tracker event =>
      some ((s.heard (intervalOf decode segments) now).receive cmd call event
        (tracker.httpRequest decode s.world event (.answered segments now)))
    | _ => none
  | .bind port =>
    match s.phase with
    | .bind tracker =>
      match port with
      | none => some { s with phase := .crashed }
      | some b =>
        if Binds cmd.startport b then
          some { s with phase := .downloadLoop tracker, acceptor := some b, accepting := true }
        else none
    | _ => none
  | .leave =>
    match s.phase with
    | .downloadLoop tracker =>
      if s.world.torrent.isFullyDownloaded then
        if cmd.seed then some { s with phase := .downloaded tracker }
        else some { s with
          phase := .downloaded tracker
          world := Torrent.disconnectPeers s.world
          accepting := false }
      else none
    | _ => none

/-- The process when `download` is called. -/
def start (f : ParsedFile) : Session where
  world := f.start

end Session

variable {decode : List Byte → Option BItem} {sha1 : List Byte → List ℕ} {cmd : Command}
  {f : ParsedFile} {w w' : World} {tr : Tracker} {event : TrackerEvent}

/-! ## The client of a session -/

theorem dial_reaches (hrun : w.running = true) (ip : ℕ) :
    Runs.Reaches (step sha1) w (Torrent.dial w ip) :=
  .single (a := .dial ip) (by simp [step, hrun])

theorem running_dial (w : World) (ip : ℕ) : (Torrent.dial w ip).running = w.running := by
  rcases dial_eq w ip with ⟨-, heq⟩ | ⟨-, heq⟩
  · rw [heq]
  · rw [heq]
    rfl

/-- An entry that is read is dialled. -/
theorem connectEntry_eq {entry : List Byte} {res : World × List Dial}
    (h : Torrent.connectEntry w entry = .ok res) :
    res.1 = Torrent.dial w (readAsLE32 entry) := by
  unfold Torrent.connectEntry at h
  split at h
  · cases h
  · simp only at h
    split at h
    · rename_i hskip
      cases h
      rcases dial_eq w (readAsLE32 entry) with ⟨-, heq⟩ | ⟨hno, -⟩
      · exact heq.symm
      · exact absurd hskip hno
    · split at h
      · cases h
      · cases h
        rfl

/-- `connectToPeers` does what the client can do on its own. -/
theorem connectToPeers_reaches {peers : List Byte} {res : World × List Dial}
    (hrun : w.running = true) (h : Torrent.connectToPeers w peers = .ok res) :
    Runs.Reaches (step sha1) w res.1 := by
  induction w, peers using Torrent.connectToPeers.induct generalizing res with
  | case1 w a b c d e f peers ih =>
    rw [Torrent.connectToPeers] at h
    obtain ⟨entry, hentry, h⟩ := bind_eq_ok.mp h
    obtain ⟨rest, hrest, h⟩ := bind_eq_ok.mp h
    cases h
    have hdial := connectEntry_eq hentry
    rw [hdial] at hrest
    have hrun' := (running_dial w (readAsLE32 (a :: b :: c :: d :: e :: f :: peers))).trans hrun
    have hreach : Runs.Reaches (step sha1) _ rest.1 := ih _ hrun' hrest
    exact (dial_reaches hrun _).trans hreach
  | case2 w =>
    cases h
    exact .refl w
  | case3 w peers hwhole hne =>
    rw [Torrent.connectToPeers.eq_3 w peers hwhole hne] at h
    rw [connectEntry_eq h]
    exact dial_reaches hrun _

/-- A response that is handled to the end has an interval, which the tracker keeps, or it
    changes nothing. -/
theorem httpRequest_tracker {segments : List (List Byte)} {now : ℤ} {q : Queried}
    (h : tr.httpRequest decode w event (.answered segments now) = .ok q) :
    (q.result = false ∧ q.tracker = tr ∧ intervalOf decode segments = none) ∨
      q.result = true ∧ ∃ interval, intervalOf decode segments = some interval ∧
        q.tracker = { tr with timeToNextRequest := afterMillis now interval } := by
  unfold Tracker.httpRequest at h
  simp only at h
  split at h
  · cases h
  · rename_i hbody
    cases h
    have hnone : intervalOf decode segments = none := by rw [intervalOf, hbody]
    exact .inl ⟨rfl, rfl, hnone⟩
  · rename_i body hbody
    unfold Tracker.handleBody at h
    obtain ⟨respDict, hdict, h⟩ := bind_eq_ok.mp h
    obtain ⟨peersInfo, hpeers, h⟩ := bind_eq_ok.mp h
    obtain ⟨interval, hint, h⟩ := bind_eq_ok.mp h
    have hsome : intervalOf decode segments = some interval := by
      simp only [intervalOf, hbody, hdict, hint, Except.toOption]
    split at h
    · obtain ⟨res, hres, h⟩ := bind_eq_ok.mp h
      cases h
      exact .inr ⟨rfl, interval, hsome, rfl⟩
    · cases h
      exact .inr ⟨rfl, interval, hsome, rfl⟩

theorem httpRequest_myPort {segments : List (List Byte)} {now : ℤ} {q : Queried}
    (h : tr.httpRequest decode w event (.answered segments now) = .ok q) :
    q.tracker.myPort = tr.myPort := by
  rcases httpRequest_tracker h with ⟨-, heq, -⟩ | ⟨-, interval, -, heq⟩
  · rw [heq]
  · rw [heq]

/-- A response does to the client what the client can do on its own. -/
theorem httpRequest_reaches {segments : List (List Byte)} {now : ℤ} {q : Queried}
    (hrun : w.running = true)
    (h : tr.httpRequest decode w event (.answered segments now) = .ok q) :
    Runs.Reaches (step sha1) w q.world := by
  unfold Tracker.httpRequest at h
  simp only at h
  split at h
  · cases h
  · cases h
    exact .refl w
  · unfold Tracker.handleBody at h
    obtain ⟨respDict, -, h⟩ := bind_eq_ok.mp h
    obtain ⟨peersInfo, -, h⟩ := bind_eq_ok.mp h
    obtain ⟨interval, -, h⟩ := bind_eq_ok.mp h
    split at h
    · obtain ⟨res, hres, h⟩ := bind_eq_ok.mp h
      cases h
      exact connectToPeers_reaches hrun hres
    · cases h
      exact .refl w

namespace Session

variable {s s' : Session} {l : SessionLabel} {call : QueryCall} {polled : Option ℤ}
  {sending : Sending} {c : Contact}

/-! ## What one step can do -/

/-- With the label the main thread calls `query`: for this tracker, with this event and the
    clock reading of the test before it, and the network does this with the request. -/
inductive Asks (cmd : Command) (s : Session) : SessionLabel → QueryCall → Tracker → TrackerEvent →
    Option ℤ → Sending → Prop
  | downloadStarted (sending : Sending) (h : s.phase = .download)
    (hhost : (parseTrackerUrl cmd.mainTrackerUrl).host ≠ []) :
    Asks cmd s (.ask sending) .downloadStarted (cmd.tracker cmd.startport) .started none sending
  | downloadPoll (now : ℤ) (sending : Sending) (tracker : Tracker)
    (h : s.phase = .downloadLoop tracker) (hfull : s.world.torrent.isFullyDownloaded = false)
    (hdue : tracker.isNextRequestDue now = true) :
    Asks cmd s (.poll now sending) .downloadPoll tracker .none (some now) sending
  | downloadEnd (sending : Sending) (tracker : Tracker) (h : s.phase = .downloaded tracker) :
    Asks cmd s (.ask sending) .downloadEnd tracker s.endEvent none sending
  | seedStarted (sending : Sending) (h : s.phase = .seed)
    (hhost : (parseTrackerUrl cmd.mainTrackerUrl).host ≠ []) :
    Asks cmd s (.ask sending) .seedStarted (cmd.tracker (cmd.startport + 1)) .started none sending
  | seedPoll (now : ℤ) (sending : Sending) (tracker : Tracker)
    (h : s.phase = .seedLoop tracker) (hdue : tracker.isNextRequestDue now = true) :
    Asks cmd s (.poll now sending) .seedPoll tracker .completed (some now) sending

/-- What a step does, with the state that results. -/
inductive Effect (decode : List Byte → Option BItem) (sha1 : List Byte → List ℕ)
    (cmd : Command) (s : Session) : SessionLabel → Session → Prop
  | client (l : Label) (w : World) (hl : s.allows l = true)
    (h : YTorrent.step sha1 s.world l = some w) :
    Effect decode sha1 cmd s (.client l) { s with world := w }
  | badUrl (sending : Sending) (call : QueryCall) (myPort : UInt16)
    (h : s.phase = .download ∧ call = .downloadStarted ∨ s.phase = .seed ∧ call = .seedStarted)
    (hhost : (parseTrackerUrl cmd.mainTrackerUrl).host = []) :
    Effect decode sha1 cmd s (.ask sending) (s.resume cmd call (cmd.tracker myPort) .started false)
  | failed (l : SessionLabel) (call : QueryCall) (tracker : Tracker) (event : TrackerEvent)
    (polled : Option ℤ) (sending : Sending)
    (h : Asks cmd s l call tracker event polled sending)
    (hs : sending = .unresolved ∨ sending = .unconnected) :
    Effect decode sha1 cmd s l (s.resume cmd call tracker event false)
  | unwritten (l : SessionLabel) (call : QueryCall) (tracker : Tracker) (event : TrackerEvent)
    (polled : Option ℤ) (h : Asks cmd s l call tracker event polled .unwritten) :
    Effect decode sha1 cmd s l { s with phase := .crashed }
  | sent (l : SessionLabel) (call : QueryCall) (tracker : Tracker) (event : TrackerEvent)
    (polled : Option ℤ) (h : Asks cmd s l call tracker event polled .written) :
    Effect decode sha1 cmd s l (s.sent call tracker event polled)
  | notDue (now : ℤ) (sending : Sending) (tracker : Tracker)
    (h : s.phase = .downloadLoop tracker ∨ s.phase = .seedLoop tracker)
    (hdue : tracker.isNextRequestDue now = false) :
    Effect decode sha1 cmd s (.poll now sending) s
  | badReply (segments : List (List Byte)) (now : ℤ) (call : QueryCall) (tracker : Tracker)
    (event : TrackerEvent) (h : s.phase = .awaiting call tracker event) :
    Effect decode sha1 cmd s (.reply segments now)
      { s.heard (intervalOf decode segments) now with phase := .crashed }
  | replied (segments : List (List Byte)) (now : ℤ) (call : QueryCall) (tracker : Tracker)
    (event : TrackerEvent) (q : Queried) (h : s.phase = .awaiting call tracker event)
    (hq : tracker.httpRequest decode s.world event (.answered segments now) = .ok q) :
    Effect decode sha1 cmd s (.reply segments now)
      (resume cmd { s.heard (intervalOf decode segments) now with world := q.world } call
        q.tracker event q.result)
  | bindFailed (tracker : Tracker) (h : s.phase = .bind tracker) :
    Effect decode sha1 cmd s (.bind none) { s with phase := .crashed }
  | bound (tracker : Tracker) (b : ℕ) (h : s.phase = .bind tracker)
    (hb : Binds cmd.startport b) :
    Effect decode sha1 cmd s (.bind (some b))
      { s with phase := .downloadLoop tracker, acceptor := some b, accepting := true }
  | left (tracker : Tracker) (h : s.phase = .downloadLoop tracker) (w : World) (accepting : Bool)
    (hfull : s.world.torrent.isFullyDownloaded = true)
    (hw : w = s.world ∨ w = Torrent.disconnectPeers s.world) :
    Effect decode sha1 cmd s .leave
      { s with phase := .downloaded tracker, world := w, accepting := accepting }

theorem query_effect (h : Asks cmd s l call tr event polled sending) :
    Effect decode sha1 cmd s l (s.query decode cmd call tr event polled sending) := by
  cases sending with
  | unresolved => exact .failed l call tr event polled _ h (.inl rfl)
  | unconnected => exact .failed l call tr event polled _ h (.inr rfl)
  | unwritten => exact .unwritten l call tr event polled h
  | written => exact .sent l call tr event polled h

/-- The first query of `download` or `seed`. -/
theorem validateTracker_effect {myPort : UInt16}
    (h : s.phase = .download ∧ call = .downloadStarted ∨ s.phase = .seed ∧ call = .seedStarted)
    (hasks : (parseTrackerUrl cmd.mainTrackerUrl).host ≠ [] →
      Asks cmd s (.ask sending) call (cmd.tracker myPort) .started none sending) :
    Effect decode sha1 cmd s (.ask sending)
      (s.validateTracker decode cmd call myPort sending) := by
  unfold validateTracker
  split
  · rename_i hhost
    exact .badUrl sending call myPort h hhost
  · rename_i hhost
    exact query_effect (hasks hhost)

/-- A turn of a loop. -/
theorem poll_effect {now : ℤ} (h : s.phase = .downloadLoop tr ∨ s.phase = .seedLoop tr)
    (hasks : tr.isNextRequestDue now = true →
      Asks cmd s (.poll now sending) call tr event (some now) sending) :
    Effect decode sha1 cmd s (.poll now sending)
      (s.poll decode cmd call tr event now sending) := by
  unfold poll
  split
  · rename_i hdue
    exact query_effect (hasks hdue)
  · rename_i hdue
    exact .notDue now sending tr h (Bool.eq_false_iff.mpr hdue)

/-- Every step does one of these things; no later proof unfolds `step`. -/
theorem step_effect (h : step decode sha1 cmd s l = some s') :
    s.world.running = true ∧ Effect decode sha1 cmd s l s' := by
  unfold step at h
  split at h
  · cases h
  rename_i hrun
  refine ⟨by simpa using hrun, ?_⟩
  cases l with
  | client l =>
    simp only at h
    split at h
    · rename_i hl
      obtain ⟨w, hw, rfl⟩ := Option.map_eq_some_iff.mp h
      exact .client l w hl hw
    · cases h
  | ask sending =>
    simp only at h
    split at h
    · rename_i hphase
      obtain rfl := Option.some.inj h
      exact validateTracker_effect (.inl ⟨hphase, rfl⟩) fun hhost =>
        .downloadStarted sending hphase hhost
    · rename_i tracker hphase
      obtain rfl := Option.some.inj h
      exact query_effect (.downloadEnd sending tracker hphase)
    · rename_i hphase
      obtain rfl := Option.some.inj h
      exact validateTracker_effect (.inr ⟨hphase, rfl⟩) fun hhost =>
        .seedStarted sending hphase hhost
    · cases h
  | poll now sending =>
    simp only at h
    split at h
    · rename_i tracker hphase
      split at h
      · cases h
      · rename_i hfull
        obtain rfl := Option.some.inj h
        exact poll_effect (.inl hphase) fun hdue =>
          .downloadPoll now sending tracker hphase (Bool.eq_false_iff.mpr hfull) hdue
    · rename_i tracker hphase
      obtain rfl := Option.some.inj h
      exact poll_effect (.inr hphase) fun hdue => .seedPoll now sending tracker hphase hdue
    · cases h
  | reply segments now =>
    simp only at h
    split at h
    · rename_i call tracker event hphase
      obtain rfl := Option.some.inj h
      cases hq : tracker.httpRequest decode s.world event (.answered segments now) with
      | error e => exact .badReply segments now call tracker event hphase
      | ok q => exact .replied segments now call tracker event q hphase hq
    · cases h
  | bind port =>
    simp only at h
    split at h
    · rename_i tracker hphase
      cases port with
      | none =>
        obtain rfl := Option.some.inj h
        exact .bindFailed tracker hphase
      | some b =>
        simp only at h
        split at h
        · rename_i hb
          obtain rfl := Option.some.inj h
          exact .bound tracker b hphase hb
        · cases h
    · cases h
  | leave =>
    simp only at h
    split at h
    · rename_i tracker hphase
      split at h
      · rename_i hfull
        split at h
        · obtain rfl := Option.some.inj h
          exact .left tracker hphase _ s.accepting hfull (.inl rfl)
        · obtain rfl := Option.some.inj h
          exact .left tracker hphase _ false hfull (.inr rfl)
      · cases h
    · cases h

/-! ## What is recorded -/

/-- The step writes an announce. -/
def Sends (cmd : Command) (s : Session) (l : SessionLabel) : Prop :=
  ∃ call tracker event polled, Asks cmd s l call tracker event polled .written

@[simp] theorem resume_contacts (result : Bool) :
    (s.resume cmd call tr event result).contacts = s.contacts := by
  cases call <;> simp only [resume] <;> split <;> rfl

@[simp] theorem resume_world (result : Bool) :
    (s.resume cmd call tr event result).world = s.world := by
  cases call <;> simp only [resume] <;> split <;> rfl

@[simp] theorem resume_acceptor (result : Bool) :
    (s.resume cmd call tr event result).acceptor = s.acceptor := by
  cases call <;> simp only [resume] <;> split <;> rfl

/-- The main thread goes on with the tracker of the call, in the function that made it. -/
theorem resume_tracker {tr' : Tracker} {result : Bool}
    (h : (s.resume cmd call tr event result).phase.tracker? = some tr') :
    tr' = tr ∧ (s.resume cmd call tr event result).phase.seeding = call.seeding := by
  cases call with
  | downloadStarted | seedStarted =>
    cases result with
    | false => cases h
    | true =>
      cases h
      exact ⟨rfl, rfl⟩
  | downloadPoll | seedPoll =>
    cases h
    exact ⟨rfl, rfl⟩
  | downloadEnd =>
    simp only [resume] at h
    split at h
    · simp only at h
      split at h <;> cases h
    · cases h

/-- A first query that fails ends `main`. -/
theorem resume_started (h : s.phase = .download ∧ call = .downloadStarted ∨
    s.phase = .seed ∧ call = .seedStarted) :
    (s.resume cmd call tr event false).phase = .ended := by
  rcases h with ⟨-, rfl⟩ | ⟨-, rfl⟩
  · rfl
  · rfl

theorem Asks.seeding (h : Asks cmd s l call tr event polled sending) :
    s.phase.seeding = call.seeding := by
  cases h with
  | downloadStarted _ h | downloadPoll _ _ _ h | downloadEnd _ _ h | seedStarted _ h
  | seedPoll _ _ _ h =>
    rw [h]
    rfl

/-- The label says what the network does. -/
theorem Asks.label (h : Asks cmd s l call tr event polled sending) :
    l = .ask sending ∧ polled = none ∨ ∃ now, l = .poll now sending ∧ polled = some now := by
  cases h with
  | downloadStarted | downloadEnd | seedStarted => exact .inl ⟨rfl, rfl⟩
  | downloadPoll now | seedPoll now => exact .inr ⟨now, rfl, rfl⟩

theorem Asks.not_sends (h : Asks cmd s l call tr event polled sending) (hs : sending ≠ .written) :
    ¬ Sends cmd s l := by
  rintro ⟨call', tr', event', polled', h'⟩
  rcases h.label with ⟨rfl, -⟩ | ⟨now, rfl, -⟩
  · rcases h'.label with ⟨hl, -⟩ | ⟨now, hl, -⟩
    · exact hs (SessionLabel.ask.inj hl)
    · cases hl
  · rcases h'.label with ⟨hl, -⟩ | ⟨now, hl, -⟩
    · cases hl
    · exact hs (SessionLabel.poll.inj hl).2

/-- A step writes one announce, or it records replies. -/
theorem step_contacts (h : step decode sha1 cmd s l = some s') :
    (∃ call tr event polled, Asks cmd s l call tr event polled .written ∧
      s' = s.sent call tr event polled) ∨
    ¬ Sends cmd s l ∧ ∃ replies, s'.contacts = s.contacts ++ replies ∧
      ∀ c ∈ replies, ∃ now interval, c = .reply now interval := by
  have hother : ∀ {l : SessionLabel}, (∀ sending, l ≠ .ask sending) →
      (∀ now sending, l ≠ .poll now sending) → ¬ Sends cmd s l := by
    rintro l hask hpoll ⟨call, tr, event, polled, h⟩
    rcases h.label with ⟨hl, -⟩ | ⟨now, hl, -⟩
    · exact hask _ hl
    · exact hpoll _ _ hl
  have hheard : ∀ segments now, ∃ replies,
      (s.heard (intervalOf decode segments) now).contacts = s.contacts ++ replies ∧
        ∀ c ∈ replies, ∃ now interval, c = .reply now interval := by
    intro segments now
    refine ⟨_, rfl, fun c hc => ?_⟩
    obtain ⟨interval, -, rfl⟩ := Option.map_eq_some_iff.mp (Option.mem_toList.mp hc)
    exact ⟨now, interval, rfl⟩
  have hnone : ∃ replies, s.contacts = s.contacts ++ replies ∧
      ∀ c ∈ replies, ∃ now interval, c = .reply now interval :=
    ⟨[], (List.append_nil _).symm, by simp⟩
  cases (step_effect h).2 with
  | client => exact .inr ⟨hother (by simp) (by simp), hnone⟩
  | badUrl sending call myPort hphase hhost =>
    refine .inr ⟨?_, by rw [resume_contacts]; exact hnone⟩
    rintro ⟨call, tr, event, polled, h⟩
    cases h with
    | downloadStarted _ _ hne => exact hne hhost
    | downloadEnd _ tracker hend =>
      rcases hphase with ⟨hphase, -⟩ | ⟨hphase, -⟩
      · rw [hphase] at hend
        cases hend
      · rw [hphase] at hend
        cases hend
    | seedStarted _ _ hne => exact hne hhost
  | failed l call tracker event polled sending hasks hs =>
    have hne : sending ≠ .written := by
      rcases hs with rfl | rfl
      · simp
      · simp
    exact .inr ⟨hasks.not_sends hne, by rw [resume_contacts]; exact hnone⟩
  | unwritten l call tracker event polled hasks =>
    exact .inr ⟨hasks.not_sends (by simp), hnone⟩
  | sent l call tracker event polled hasks => exact .inl ⟨call, tracker, event, polled, hasks, rfl⟩
  | notDue now sending tracker hphase hdue =>
    refine .inr ⟨?_, hnone⟩
    rintro ⟨call, tr, event, polled, hasks⟩
    cases hasks with
    | downloadPoll _ _ _ hloop _ hdue' =>
      rcases hphase with hphase | hphase
      · obtain rfl := Phase.downloadLoop.inj (hloop.symm.trans hphase)
        rw [hdue] at hdue'
        cases hdue'
      · rw [hphase] at hloop
        cases hloop
    | seedPoll _ _ _ hloop hdue' =>
      rcases hphase with hphase | hphase
      · rw [hphase] at hloop
        cases hloop
      · obtain rfl := Phase.seedLoop.inj (hloop.symm.trans hphase)
        rw [hdue] at hdue'
        cases hdue'
  | badReply segments now => exact .inr ⟨hother (by simp) (by simp), hheard segments now⟩
  | replied segments now =>
    exact .inr ⟨hother (by simp) (by simp), by rw [resume_contacts]; exact hheard segments now⟩
  | bindFailed => exact .inr ⟨hother (by simp) (by simp), hnone⟩
  | bound => exact .inr ⟨hother (by simp) (by simp), hnone⟩
  | left => exact .inr ⟨hother (by simp) (by simp), hnone⟩

theorem announces_sent : (s.sent call tr event polled).announces =
    s.announces ++ [s.announce tr event polled] := by
  simp [announces, sent, Contact.announce?]

theorem announces_replies {replies : List Contact} (h : s'.contacts = s.contacts ++ replies)
    (hr : ∀ c ∈ replies, ∃ now interval, c = .reply now interval) :
    s'.announces = s.announces := by
  have hnil : replies.filterMap Contact.announce? = [] := by
    refine List.filterMap_eq_nil_iff.mpr fun c hc => ?_
    obtain ⟨now, interval, rfl⟩ := hr c hc
    rfl
  rw [announces, h, List.filterMap_append, hnil, List.append_nil]
  rfl

/-- A step of the process is a run of the client. -/
theorem step_world (h : step decode sha1 cmd s l = some s') :
    Runs.Reaches (YTorrent.step sha1) s.world s'.world := by
  obtain ⟨hrun, heff⟩ := step_effect h
  cases heff with
  | client l w _ hw => exact .single hw
  | badUrl => rw [resume_world]; exact .refl _
  | failed => rw [resume_world]; exact .refl _
  | replied segments now call tracker event q _ hq =>
    rw [resume_world]
    exact httpRequest_reaches hrun hq
  | left tracker _ w _ _ hw =>
    rcases hw with rfl | rfl
    · exact .refl _
    · exact .single (a := .disconnectPeers) (by simp [YTorrent.step, hrun])
  | unwritten | sent | notDue | badReply | bindFailed | bound => exact .refl _

/-- The client of a process is in a state that a client reaches. -/
theorem reachable_world (h : Runs.Reaches (step decode sha1 cmd) (start f) s) :
    Reachable sha1 f s.world := by
  have hstart : Reachable sha1 f (start f).world := Runs.Reaches.refl f.start
  exact h.invariant (I := fun s => Reachable sha1 f s.world)
    (fun _ _ _ hs hr => hr.trans (step_world hs)) hstart

end Session

/-- Once the file is downloaded it stays so. -/
theorem isFullyDownloaded_mono (hr : Reachable sha1 f w) (h : Runs.Reaches (step sha1) w w')
    (hfull : w.torrent.isFullyDownloaded = true) : w'.torrent.isFullyDownloaded = true := by
  have hr' : Reachable sha1 f w' := hr.trans h
  have hlen : ∀ {v : World}, Reachable sha1 f v → v.ledger.finished.length = f.hashes.length :=
    fun hv => (List.length_map _).trans hv.length_pieces
  have hall : ∀ b ∈ w'.ledger.finished, true = b := by
    intro b hb
    obtain ⟨i, hi, rfl⟩ := List.mem_iff_getElem.mp hb
    have hiw : i < w.ledger.finished.length := by rwa [hlen hr, ← hlen hr']
    have hdone := all_finished_of_completed hr.consistent (beq_iff_eq.mp hfull) hiw
    have hdone' := ledger_invariant (I := fun d => d.finished[i]? = some true)
      (fun _ _ hs => Ledger.finished_step hs) h hdone
    rw [List.getElem?_eq_getElem hi] at hdone'
    exact (Option.some.inj hdone').symm
  have hcount : w'.ledger.finished.count true = w'.ledger.finished.length :=
    List.count_eq_length.mpr hall
  have hcompleted := hr'.consistent.completed
  rw [hcount] at hcompleted
  have hpieces : w'.ledger.finished.length = w'.torrent.pieces.length := List.length_map _
  exact beq_iff_eq.mpr (hcompleted.trans hpieces)

/-! ## A short run

The download of the file of one byte, after which `main` calls `seed`. -/

def oneByteCommand : Command := ⟨6881, true, ascii "http://t/announce"⟩

def seedingRun : List SessionLabel :=
  [.ask .written, .reply [shortResponse.bytes] 0, .bind (some 6881)] ++ oneByteRun.map .client ++
    [.leave, .ask .written, .reply [shortResponse.bytes] 5, .ask .written]

theorem seedingRun_isSome : (Runs.exec (Session.step decodeShort sha1OfA oneByteCommand)
    (Session.start oneByteFile) seedingRun).isSome = true := by
  decide +kernel

/-- The process after the run: the first query of `seed` is written. -/
def seeding : Session := (Runs.exec (Session.step decodeShort sha1OfA oneByteCommand)
  (Session.start oneByteFile) seedingRun).get seedingRun_isSome

theorem seedingRun_exec : Runs.exec (Session.step decodeShort sha1OfA oneByteCommand)
    (Session.start oneByteFile) seedingRun = some seeding := by
  rw [seeding, Option.some_get]

end YTorrent
