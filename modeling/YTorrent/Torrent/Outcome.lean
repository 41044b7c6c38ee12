import Mathlib.Algebra.Order.BigOperators.Group.Finset
import YTorrent.Torrent.Events
import YTorrent.Torrent.Statistics

/-!
# What `download` returns and announces

`Torrent::download` leaves its loop when all pieces are finished, and no step takes a
finished piece back; so what it returns, and what the tracker is told, is true of the file.

* `Sound`: what the main thread knows about the client, by the phase it is in.
* `outcome`: `download` never returns `NETWORK_ERROR`; with `COMPLETED` the content is in
  the file, and with `TRACKER_QUERY_FAILURE` nothing has happened at all.
* `announces_truthful`: the numbers announced add up to the content and never go back,
  nothing remains when `COMPLETED` is announced, and `STOPPED` is not announced.
-/

namespace YTorrent

/-- The first query of `download` has not returned. -/
def Phase.early : Phase → Bool
  | download => true
  | awaiting call _ _ => call == .downloadStarted
  | _ => false

/-- The loop of `download` has been left. -/
def Phase.late : Phase → Bool
  | downloaded _ | seed | seedLoop _ => true
  | awaiting call _ _ => call == .downloadEnd || call.seeding
  | _ => false

variable {decode : List Byte → Option BItem} {sha1 : List Byte → List ℕ} {cmd : Command}
  {f : ParsedFile} {C : List Byte} {w w' : World} {tr : Tracker} {event : TrackerEvent}
  {l : Label}

/-- A client without peers waits for somebody to be dialled or accepted. -/
theorem step_start (h : step sha1 f.start l = some w) :
    (∃ ip, l = .dial ip) ∨ (∃ remote, l = .accepted remote) ∨ l = .disconnectPeers := by
  cases (step_effect h).2 with
  | dialled ip | skipped ip => exact .inl ⟨ip, rfl⟩
  | accepted remote => exact .inr (.inl ⟨remote, rfl⟩)
  | disconnectPeers => exact .inr (.inr rfl)
  | frame _ _ _ _ hready => cases hready.1
  | socketError p hp | socketClosed p hp | endpointLost p hp => exact absurd hp (Nat.not_lt_zero p)
  | connected p ip hpend => cases hpend
  | refused p _ hopen | connectHandshake p _ hopen | authenticateHandshake p _ hopen => cases hopen

/-- A query that fails has dialled nobody. -/
theorem httpRequest_world {segments : List (List Byte)} {now : ℤ} {q : Queried}
    (h : tr.httpRequest decode w event (.answered segments now) = .ok q)
    (hq : q.result = false) : q.world = w := by
  unfold Tracker.httpRequest at h
  simp only at h
  split at h
  · cases h
  · cases h
    rfl
  · unfold Tracker.handleBody at h
    obtain ⟨respDict, -, h⟩ := bind_eq_ok.mp h
    obtain ⟨peersInfo, -, h⟩ := bind_eq_ok.mp h
    obtain ⟨interval, -, h⟩ := bind_eq_ok.mp h
    split at h
    · obtain ⟨res, -, h⟩ := bind_eq_ok.mp h
      cases h
      cases hq
    · cases h
      cases hq

namespace Session

variable {s s' : Session} {l : SessionLabel} {call : QueryCall} {polled : Option ℤ}
  {sending : Sending} {result : Bool}

/-- What the main thread knows about the client. -/
structure Sound (f : ParsedFile) (s : Session) : Prop where
  early : s.phase.early = true → s.world = f.start ∧ s.accepting = false
  late : s.phase.late = true → s.world.torrent.isFullyDownloaded = true
  completed : s.result = some .completed → s.world.torrent.isFullyDownloaded = true
  failed : s.result = some .trackerQueryFailure → s.phase = .ended ∧ s.world = f.start
  network : s.result ≠ some .networkError

theorem sound_start (f : ParsedFile) : Sound f (start f) where
  early _ := ⟨rfl, rfl⟩
  late h := by cases h
  completed h := by cases h
  failed h := by cases h
  network h := by cases h

/-! ## One step -/

/-- `download` has not returned, or it has returned `COMPLETED` with all pieces finished. -/
def Unfailed (s : Session) : Prop :=
  s.result = none ∨ s.result = some .completed ∧ s.world.torrent.isFullyDownloaded = true

/-- Before `main` has ended nothing has failed. -/
theorem Sound.unfailed (hs : Sound f s) (h : s.phase ≠ .ended) : s.Unfailed := by
  cases hres : s.result with
  | none => exact .inl hres
  | some r =>
    cases r with
    | completed => exact .inr ⟨hres, hs.completed hres⟩
    | trackerQueryFailure => exact absurd (hs.failed hres).1 h
    | networkError => exact absurd hres hs.network

/-- Only what is known of all pieces matters behind the first query. -/
theorem Unfailed.sound (hres : s.Unfailed) (hearly : s.phase.early = false)
    (hlate : s.phase.late = true → s.world.torrent.isFullyDownloaded = true) : Sound f s where
  early h := by
    rw [hearly] at h
    cases h
  late := hlate
  completed h := by
    rcases hres with hnone | ⟨-, hfull⟩
    · rw [hnone] at h
      cases h
    · exact hfull
  failed h := by
    rcases hres with hnone | ⟨hcompleted, -⟩
    · rw [hnone] at h
      cases h
    · rw [hcompleted] at h
      cases h
  network h := by
    rcases hres with hnone | ⟨hcompleted, -⟩
    · rw [hnone] at h
      cases h
    · rw [hcompleted] at h
      cases h

theorem Unfailed.world {w : World} (h : s.Unfailed) (hfull :
    s.world.torrent.isFullyDownloaded = true → w.torrent.isFullyDownloaded = true)
    (hworld : s'.world = w) (hres : s'.result = s.result) : s'.Unfailed := by
  rw [Unfailed, hworld, hres]
  exact h.imp_right fun hc => ⟨hc.1, hfull hc.2⟩

/-- A query of the main thread has returned. -/
theorem Unfailed.resume (hres : s.Unfailed)
    (hlate : call = .downloadEnd ∨ call.seeding = true → s.world.torrent.isFullyDownloaded = true)
    (hevent : call = .downloadEnd → event = .completed)
    (hfailed : call = .downloadStarted → result = false → s.world = f.start) :
    Sound f (s.resume cmd call tr event result) := by
  cases call with
  | downloadStarted =>
    cases result with
    | true => exact Unfailed.sound hres rfl fun h => by cases h
    | false =>
      refine ⟨?_, ?_, ?_, fun _ => ⟨rfl, hfailed rfl rfl⟩, ?_⟩
      all_goals
        intro h
        cases h
  | downloadPoll => exact Unfailed.sound hres rfl fun h => by cases h
  | downloadEnd =>
    have hfull := hlate (.inl rfl)
    rw [Session.resume, if_pos (hevent rfl)]
    refine Unfailed.sound (.inr ⟨rfl, hfull⟩) ?_ fun _ => hfull
    show (if cmd.seed then Phase.seed else Phase.ended).early = false
    split <;> rfl
  | seedStarted =>
    have hfull := hlate (.inr rfl)
    cases result with
    | true => exact Unfailed.sound hres rfl fun _ => hfull
    | false => exact Unfailed.sound hres rfl fun _ => hfull
  | seedPoll => exact Unfailed.sound hres rfl fun _ => hlate (.inr rfl)

/-- Where the main thread is when it makes a call. -/
theorem Asks.phase (h : Asks cmd s l call tr event polled sending) :
    s.phase ≠ .ended ∧ (call = .downloadStarted → s.phase = .download) ∧
      (call = .downloadEnd ∨ call.seeding = true → s.phase.late = true) := by
  cases h with
  | downloadStarted _ h =>
    rw [h]
    exact ⟨by simp, fun _ => rfl, by simp [QueryCall.seeding]⟩
  | downloadPoll _ _ _ h =>
    rw [h]
    exact ⟨by simp, by simp, by simp [QueryCall.seeding]⟩
  | downloadEnd _ _ h | seedStarted _ h | seedPoll _ _ _ h =>
    rw [h]
    exact ⟨by simp, by simp, fun _ => rfl⟩

/-- The last query of `download` is made when all pieces are finished. -/
theorem Asks.completed (hs : Sound f s) (h : Asks cmd s l call tr event polled sending)
    (hcall : call = .downloadEnd) : event = .completed := by
  cases h with
  | downloadEnd _ tracker h => exact if_pos (hs.late (by rw [h]; rfl))
  | downloadStarted | downloadPoll | seedStarted | seedPoll => cases hcall

theorem Sound.step (hr : Reachable sha1 f s.world) (hshape : Shape s)
    (h : step decode sha1 cmd s l = some s') (hs : Sound f s) : Sound f s' := by
  have hmono : s.world.torrent.isFullyDownloaded = true →
      s'.world.torrent.isFullyDownloaded = true := isFullyDownloaded_mono hr (step_world h)
  cases (step_effect h).2 with
  | client l w hl hw =>
    have hended : s.phase ≠ .ended := by
      intro hphase
      simp [allows, hphase] at hl
    refine ((hs.unfailed hended).world hmono rfl rfl).sound ?_ fun hlate => hmono (hs.late hlate)
    -- before the first query has returned the client has no peers and accepts none
    by_contra hearly
    obtain ⟨hworld, hacc⟩ := hs.early (Bool.eq_true_of_not_eq_false hearly)
    rw [hworld] at hw
    rcases step_start hw with ⟨ip, rfl⟩ | ⟨remote, rfl⟩ | rfl
    · simp [allows] at hl
    · simp [allows, hacc] at hl
    · simp [allows] at hl
  | badUrl sending call myPort hphase hhost =>
    rcases hphase with ⟨hphase, rfl⟩ | ⟨hphase, rfl⟩
    · exact (hs.unfailed (by simp [hphase])).resume (by simp [QueryCall.seeding]) (by simp)
        fun _ _ => (hs.early (by rw [hphase]; rfl)).1
    · exact (hs.unfailed (by simp [hphase])).resume (fun _ => hs.late (by rw [hphase]; rfl))
        (by simp) (by simp)
  | failed l call tracker event polled sending hasks _ =>
    obtain ⟨hended, hstarted, hlate⟩ := hasks.phase
    exact (hs.unfailed hended).resume (fun hcall => hs.late (hlate hcall)) (hasks.completed hs)
      fun hcall _ => (hs.early (by rw [hstarted hcall]; rfl)).1
  | unwritten l call tracker event polled hasks =>
    exact Unfailed.sound (hs.unfailed hasks.phase.1) rfl fun h => by cases h
  | sent l call tracker event polled hasks =>
    obtain ⟨hended, hstarted, hlate⟩ := hasks.phase
    by_cases hcall : call = .downloadStarted
    · subst hcall
      exact ⟨fun _ => hs.early (by rw [hstarted rfl]; rfl), fun hafter => (by cases hafter),
        hs.completed, fun hres => absurd (hs.failed hres).1 hended, hs.network⟩
    · refine Unfailed.sound (hs.unfailed hended) (beq_false_of_ne hcall) fun hafter => ?_
      refine hs.late (hlate ?_)
      simpa only [Session.sent, Phase.late, Bool.or_eq_true, beq_iff_eq] using hafter
  | notDue => exact hs
  | badReply segments now call tracker event hphase =>
    exact Unfailed.sound (hs.unfailed (by simp [hphase])) rfl fun h => by cases h
  | replied segments now call tracker event q hphase hq =>
    have hmono' : s.world.torrent.isFullyDownloaded = true →
        q.world.torrent.isFullyDownloaded = true :=
      isFullyDownloaded_mono hr (httpRequest_reaches (step_effect h).1 hq)
    have hheard : Unfailed { s.heard (intervalOf decode segments) now with world := q.world } :=
      (hs.unfailed (by simp [hphase])).world hmono' rfl rfl
    refine hheard.resume ?_ ?_ ?_
    · intro hcall
      refine hmono' (hs.late ?_)
      simpa only [hphase, Phase.late, Bool.or_eq_true, beq_iff_eq] using hcall
    · rintro rfl
      simp only [Shape, hphase] at hshape
      exact hshape.1
    · rintro rfl hresult
      exact (httpRequest_world hq hresult).trans (hs.early (by rw [hphase]; rfl)).1
  | bindFailed tracker hphase =>
    exact Unfailed.sound (hs.unfailed (by simp [hphase])) rfl fun h => by cases h
  | bound tracker b hphase _ =>
    exact Unfailed.sound (hs.unfailed (by simp [hphase])) rfl fun h => by cases h
  | left tracker hphase w accepting hfull hw =>
    exact ((hs.unfailed (by simp [hphase])).world hmono rfl rfl).sound rfl fun _ => hmono hfull

/-! ## Runs -/

theorem reachable_sound (h : Runs.Reaches (step decode sha1 cmd) (start f) s) :
    Reachable sha1 f s.world ∧ Sound f s := by
  have hstart : Reachable sha1 f (start f).world := Runs.Reaches.refl f.start
  have hall : Reachable sha1 f s.world ∧ Shape s ∧ Sound f s :=
    h.invariant (I := fun s => Reachable sha1 f s.world ∧ Shape s ∧ Sound f s)
      (fun _ _ _ hs hi =>
        ⟨hi.1.trans (step_world hs), hi.2.1.step hi.1 hs, hi.2.2.step hi.1 hi.2.1 hs⟩)
      ⟨hstart, shape_start f, sound_start f⟩
  exact ⟨hall.1, hall.2.2⟩

/-- When `download` has returned, it was `TRACKER_QUERY_FAILURE` and `main` has ended with
    the client as `parseFile` left it, or it was `COMPLETED` and the file begins with the
    content, however long `seed` runs. -/
theorem outcome (hd : Describes sha1 f C) (hfree : CollisionFree sha1 f C)
    (h : Runs.Reaches (step decode sha1 cmd) (start f) s) {r : DownloadError}
    (hresult : s.result = some r) :
    r = .trackerQueryFailure ∧ s.phase = .ended ∧ s.world = f.start ∨
      r = .completed ∧ s.world.torrent.file.take s.world.torrent.totalSize = C := by
  obtain ⟨hr, hs⟩ := reachable_sound h
  cases r with
  | trackerQueryFailure => exact .inl ⟨rfl, hs.failed hresult⟩
  | networkError => exact absurd hresult hs.network
  | completed =>
    refine .inr ⟨rfl, ?_⟩
    have hholds := hr.holds hd hfree
    refine hholds.take_eq hd fun i hi => ?_
    refine all_finished_of_completed hr.consistent (beq_iff_eq.mp (hs.completed hresult)) ?_
    rw [hholds.length]
    exact hi

/-- After the run the file is the byte `a`. -/
theorem outcome_seedingRun : seeding.world.torrent.file.take seeding.world.torrent.totalSize =
    [97] := by
  have hresult : seeding.result = some .completed := by decide +kernel
  rcases outcome describes_oneByte collisionFree_oneByte ⟨_, seedingRun_exec⟩ hresult with h | h
  · cases h.1
  · exact h.2

end Session

/-! ## The announces -/

/-- Pieces that are finished stay so, and their sizes do not change. -/
theorem finishedBytes_mono (hr : Reachable sha1 f w) (h : Runs.Reaches (step sha1) w w') :
    w.torrent.finishedBytes ≤ w'.torrent.finishedBytes := by
  have hr' : Reachable sha1 f w' := hr.trans h
  have hlen : w'.torrent.pieces.length = w.torrent.pieces.length :=
    hr'.length_pieces.trans hr.length_pieces.symm
  have hsize : w'.torrent.pieceSize = w.torrent.pieceSize := by
    rw [hr'.pieceSize, hr.pieceSize]
  rw [Torrent.finishedBytes, Torrent.finishedBytes, hlen, hsize]
  refine Finset.sum_le_sum_of_subset fun i hi => ?_
  obtain ⟨hlt, hfin⟩ := Finset.mem_filter.mp hi
  exact Finset.mem_filter.mpr ⟨hlt, isFinished_mono h hfin⟩

/-- What a query reports. -/
theorem Reachable.query_eq (hd : Describes sha1 f C) (hr : Reachable sha1 f w)
    (event : TrackerEvent) :
    (w.torrent.buildTrackerQuery event).downloaded = w.torrent.finishedBytes ∧
      (w.torrent.buildTrackerQuery event).remaining = w.torrent.unfinishedBytes := by
  have hsum := hr.sum_bytes hd
  have hlt : C.length < 2 ^ 64 := hd.totalSize ▸ hd.totalSize_lt
  have htotal : w.torrent.totalSize = C.length := hr.layout.2.2.trans hd.totalSize
  have hdown : (w.torrent.buildTrackerQuery event).downloaded = w.torrent.finishedBytes := by
    show u64 _ = _
    rw [w.torrent.sum_finished]
    exact u64_of_lt (by omega)
  refine ⟨hdown, ?_⟩
  show u64 (_ + _ - (w.torrent.buildTrackerQuery event).downloaded) = _
  rw [hdown, htotal, u64_sub hlt (by omega)]
  omega

/-- Nothing is left of a complete download. -/
theorem Reachable.unfinishedBytes_eq_zero (hd : Describes sha1 f C) (hr : Reachable sha1 f w)
    (hfull : w.torrent.isFullyDownloaded = true) : w.torrent.unfinishedBytes = 0 := by
  have hpos : 0 < w.torrent.pieceLength := by
    rw [show w.torrent.pieceLength = f.pieceLength from hr.layout.2.1]
    exact hd.pieceLength_pos
  refine (Torrent.unfinishedBytes_eq_zero hpos).mpr fun i hi => (isFinished_iff w i).mpr ?_
  refine all_finished_of_completed hr.consistent (beq_iff_eq.mp hfull) ?_
  rwa [World.ledger, List.length_map]

/-- Nothing is finished when `download` is called. -/
theorem finishedBytes_start (f : ParsedFile) : f.start.torrent.finishedBytes = 0 := by
  refine Finset.sum_eq_zero fun i hi => ?_
  have hset := (isFinished_iff f.start i).mp (Finset.mem_filter.mp hi).2
  rw [start_ledger_finished, List.getElem?_replicate] at hset
  split at hset <;> cases hset

namespace Session

variable {s s' : Session} {l : SessionLabel} {call : QueryCall} {polled : Option ℤ}
  {sending : Sending}

/-- The query is true of the content: its numbers add up, `STARTED` is announced with
    nothing or with everything, `COMPLETED` with everything, and `STOPPED` not at all. -/
structure TrueQuery (C : List Byte) (q : TrackerQuery) : Prop where
  sum : q.downloaded + q.remaining = C.length
  started : q.event = .started → q.downloaded = 0 ∨ q.remaining = 0
  completed : q.event = .completed → q.remaining = 0
  stopped : q.event ≠ .stopped

/-- What has been announced is true, in the order of the announces, and not more than what
    is finished. -/
structure Truthful (C : List Byte) (s : Session) : Prop where
  queries : ∀ a ∈ s.announces, TrueQuery C a.query
  ordered : (s.announces.map (·.query.downloaded)).Pairwise (· ≤ ·)
  current : ∀ a ∈ s.announces, a.query.downloaded ≤ s.world.torrent.finishedBytes

/-- The query that is written now is true. -/
theorem Sound.trueQuery (hd : Describes sha1 f C) (hr : Reachable sha1 f s.world) (hs : Sound f s)
    (h : Asks cmd s l call tr event polled sending) :
    TrueQuery C (s.world.torrent.buildTrackerQuery event) := by
  obtain ⟨hdown, hrem⟩ := hr.query_eq hd event
  obtain ⟨-, hstarted, hlate⟩ := h.phase
  have hnothing : s.phase = .download → s.world.torrent.finishedBytes = 0 := by
    intro hphase
    rw [(hs.early (by rw [hphase]; rfl)).1]
    exact finishedBytes_start f
  have hall : call = .downloadEnd ∨ call.seeding = true → s.world.torrent.unfinishedBytes = 0 :=
    fun hcall => hr.unfinishedBytes_eq_zero hd (hs.late (hlate hcall))
  have hsum : (s.world.torrent.buildTrackerQuery event).downloaded +
      (s.world.torrent.buildTrackerQuery event).remaining = C.length := by
    rw [hdown, hrem]
    exact hr.sum_bytes hd
  cases h with
  | downloadStarted _ hphase =>
    refine ⟨hsum, fun _ => .inl (hdown.trans (hnothing hphase)), fun hevent => ?_, fun hevent => ?_⟩
    · cases hevent
    · cases hevent
  | downloadPoll =>
    refine ⟨hsum, fun hevent => ?_, fun hevent => ?_, fun hevent => ?_⟩
    · cases hevent
    · cases hevent
    · cases hevent
  | downloadEnd _ tracker hphase =>
    have hend : s.endEvent = .completed := if_pos (hs.late (by rw [hphase]; rfl))
    rw [hend] at hsum hrem ⊢
    refine ⟨hsum, fun hevent => ?_, fun _ => hrem.trans (hall (.inl rfl)), fun hevent => ?_⟩
    · cases hevent
    · cases hevent
  | seedStarted =>
    refine ⟨hsum, fun _ => .inr (hrem.trans (hall (.inr rfl))), fun hevent => ?_, fun hevent => ?_⟩
    · cases hevent
    · cases hevent
  | seedPoll =>
    refine ⟨hsum, fun hevent => ?_, fun _ => hrem.trans (hall (.inr rfl)), fun hevent => ?_⟩
    · cases hevent
    · cases hevent

theorem truthful_start (f : ParsedFile) (C : List Byte) : Truthful C (start f) := by
  refine ⟨fun a ha => ?_, .nil, fun a ha => ?_⟩
  · cases ha
  · cases ha

theorem Truthful.step (hd : Describes sha1 f C) (hr : Reachable sha1 f s.world) (hs : Sound f s)
    (h : step decode sha1 cmd s l = some s') (ht : Truthful C s) : Truthful C s' := by
  rcases step_contacts h with ⟨call, tr, event, polled, hasks, rfl⟩ | ⟨-, replies, heq, hrep⟩
  · -- the new announce reports what is finished now
    have hdown := (hr.query_eq hd event).1
    refine ⟨fun a ha => ?_, ?_, fun a ha => ?_⟩
    · rw [announces_sent] at ha
      rcases List.mem_append.mp ha with ha | ha
      · exact ht.queries a ha
      · rw [List.mem_singleton.mp ha]
        exact hs.trueQuery hd hr hasks
    · rw [announces_sent, List.map_append, List.pairwise_append]
      refine ⟨ht.ordered, List.pairwise_singleton _ _, fun n hn m hm => ?_⟩
      obtain ⟨a, ha, rfl⟩ := List.mem_map.mp hn
      rw [List.map_singleton, List.mem_singleton] at hm
      rw [hm, announce, hdown]
      exact ht.current a ha
    · rw [announces_sent] at ha
      rcases List.mem_append.mp ha with ha | ha
      · exact ht.current a ha
      · rw [List.mem_singleton.mp ha, announce, hdown]
        rfl
  · have hann := announces_replies heq hrep
    refine ⟨?_, ?_, fun a ha => ?_⟩
    · rw [hann]
      exact ht.queries
    · rw [hann]
      exact ht.ordered
    · rw [hann] at ha
      exact (ht.current a ha).trans (finishedBytes_mono hr (step_world h))

/-- In every run of `main` on the torrent file of the content `C`, what is announced is true
    of the content, and the amount announced as downloaded never goes back. -/
theorem announces_truthful (hd : Describes sha1 f C)
    (h : Runs.Reaches (step decode sha1 cmd) (start f) s) :
    (∀ a ∈ s.announces, TrueQuery C a.query) ∧
      (s.announces.map (·.query.downloaded)).Pairwise (· ≤ ·) := by
  have hall : Runs.Reaches (step decode sha1 cmd) (start f) s ∧ Truthful C s := by
    refine h.invariant
      (I := fun s => Runs.Reaches (step decode sha1 cmd) (start f) s ∧ Truthful C s) ?_
      ⟨.refl _, truthful_start f C⟩
    rintro s l s' hs ⟨hreach, ht⟩
    obtain ⟨hr, hsound⟩ := reachable_sound hreach
    exact ⟨hreach.trans (.single hs), ht.step hd hr hsound hs⟩
  exact ⟨hall.2.queries, hall.2.ordered⟩

/-- `STARTED`, `COMPLETED` and `STARTED` again are announced. -/
theorem announces_truthful_seedingRun : (∀ a ∈ seeding.announces, TrueQuery [97] a.query) ∧
    (seeding.announces.map (·.query.downloaded)).Pairwise (· ≤ ·) :=
  announces_truthful describes_oneByte ⟨_, seedingRun_exec⟩

end Session

end YTorrent
