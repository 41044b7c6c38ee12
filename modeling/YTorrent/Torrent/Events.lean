import YTorrent.Torrent.Session

/-!
# The events of a run

`download` announces `STARTED`, then nothing, and `COMPLETED` when it returns. `seed`
announces `STARTED` again, and its loop `COMPLETED` each time a request is due.

* `Shape`: the events that have been announced, by the phase of the main thread.
* `events_iff`: the runs of `main` in which the tracker sees a legal sequence.
* `events_fails`: a download followed by the first query of `seed`.
-/

namespace YTorrent

/-- The beginnings of the sequence: one `STARTED`; any number of announces without event;
    when the last piece is finished one `COMPLETED`, and again any number without event;
    and at most one `STOPPED`, last. -/
def LegalEvents (events : List TrackerEvent) : Prop :=
  events = [] ∨ ∃ a rest, events = .started :: (List.replicate a .none ++ rest) ∧
    (rest = [] ∨ rest = [.stopped] ∨
      ∃ b stop, rest = .completed :: (List.replicate b .none ++ stop) ∧
        (stop = [] ∨ stop = [.stopped]))

theorem legal_started (a : ℕ) : LegalEvents (.started :: List.replicate a .none) :=
  .inr ⟨a, [], by rw [List.append_nil], .inl rfl⟩

theorem count_started (a : ℕ) :
    (TrackerEvent.started :: List.replicate a .none).count .completed = 0 := by
  simp [List.count_replicate]

theorem count_completed (a : ℕ) :
    (TrackerEvent.started :: (List.replicate a .none ++ [.completed])).count .completed = 1 := by
  simp [List.count_replicate]

theorem legal_completed (a : ℕ) :
    LegalEvents (.started :: (List.replicate a .none ++ [.completed])) :=
  .inr ⟨a, [.completed], rfl, .inr (.inr ⟨0, [], rfl, .inl rfl⟩)⟩

/-- `STARTED` is announced once. -/
theorem LegalEvents.not_mem {rest : List TrackerEvent} (h : LegalEvents (.started :: rest)) :
    .started ∉ rest := by
  rcases h with h | ⟨a, tail, heq, htail⟩
  · cases h
  · obtain rfl := (List.cons.inj heq).2
    rcases htail with rfl | rfl | ⟨b, stop, rfl, rfl | rfl⟩ <;> simp

namespace Session

variable {decode : List Byte → Option BItem} {sha1 : List Byte → List ℕ} {cmd : Command}
  {f : ParsedFile} {s s' : Session} {l : SessionLabel} {ls : List SessionLabel}
  {call : QueryCall} {tr : Tracker} {event : TrackerEvent} {polled : Option ℤ}
  {sending : Sending}

/-- The events of the announces that were written. -/
def events (s : Session) : List TrackerEvent := s.announces.map (·.query.event)

/-- The events are legal so far; `COMPLETED` was announced when the file was fully
    downloaded, and once if `download` has returned with this result. -/
structure EventsLegal (s : Session) : Prop where
  legal : LegalEvents s.events
  finished : ∀ a ∈ s.announces, a.query.event = .completed → a.finished = true
  completed : s.result = some .completed → s.events.count .completed = 1

/-- The last query of `download` reaches the tracker, unless the process ends when it is
    written; the first query of `seed` is not written. -/
def KeepsEvents (cmd : Command) (s : Session) (l : SessionLabel) : Prop :=
  match s.phase with
  | .downloaded _ => l ≠ .ask .unresolved ∧ l ≠ .ask .unconnected
  | .seed => ¬ Sends cmd s l
  | _ => True

/-! ## The events along a run -/

/-- While `download` runs: `STARTED`, and announces without event. -/
def Downloading (s : Session) : Prop :=
  (∃ a, s.events = .started :: List.replicate a .none) ∧ s.result = none

/-- After the first query of `seed`: another `STARTED`. -/
def Restarted (s : Session) : Prop := ∃ rest, s.events = .started :: rest ∧ .started ∈ rest

/-- What has been announced in a phase. -/
def Shape (s : Session) : Prop :=
  match s.phase with
  | .download => s.events = [] ∧ s.result = none
  | .bind _ | .downloadLoop _ => s.Downloading
  | .downloaded _ => s.Downloading ∧ s.world.torrent.isFullyDownloaded = true
  | .seed => ∃ rest, s.events = .started :: rest
  | .seedLoop _ => s.Restarted
  | .awaiting .downloadStarted _ _ | .awaiting .downloadPoll _ _ => s.Downloading
  | .awaiting .downloadEnd _ event => event = .completed ∧ s.result = none ∧
      ∃ a, s.events = .started :: (List.replicate a .none ++ [.completed])
  | .awaiting .seedStarted _ _ | .awaiting .seedPoll _ _ => s.Restarted
  | .ended | .crashed => True

theorem shape_start (f : ParsedFile) : Shape (start f) := ⟨rfl, rfl⟩

theorem events_sent : (s.sent call tr event polled).events = s.events ++ [event] := by
  rw [events, announces_sent, List.map_append]
  rfl

theorem events_congr (h : s'.announces = s.announces) : s'.events = s.events := by
  rw [events, h]
  rfl

theorem announces_heard {interval : Option Int64} {now : ℤ} :
    (s.heard interval now).announces = s.announces := by
  cases interval <;> simp [announces, heard, Contact.announce?]

/-- The phase and what has been announced go on together when a query has returned. -/
theorem shape_resume {result : Bool}
    (h : match call with
      | .downloadStarted => result = true → s.Downloading
      | .downloadPoll => s.Downloading
      | .downloadEnd => ∃ rest, s.events = .started :: rest
      | .seedStarted => result = true → s.Restarted
      | .seedPoll => s.Restarted) : Shape (s.resume cmd call tr event result) := by
  cases call with
  | downloadStarted =>
    cases result with
    | false => trivial
    | true => exact h rfl
  | downloadPoll => exact h
  | downloadEnd =>
    simp only [resume]
    split
    · cases cmd.seed with
      | false => trivial
      | true => exact h
    · trivial
  | seedStarted =>
    cases result with
    | false => trivial
    | true => exact h rfl
  | seedPoll => exact h

/-- Only the phase, the announces and the result matter, and that a download is complete. -/
theorem Shape.congr (hs : Shape s) (hphase : s'.phase = s.phase)
    (hann : s'.announces = s.announces) (hres : s'.result = s.result)
    (hfull : s.world.torrent.isFullyDownloaded = true →
      s'.world.torrent.isFullyDownloaded = true) : Shape s' := by
  have hev := events_congr hann
  simp only [Shape, Downloading, Restarted, hphase, hev, hres] at hs ⊢
  split
  case h_4 =>
    rename_i heq
    rw [heq] at hs
    exact ⟨hs.1, hfull hs.2⟩
  all_goals
    rename_i heq
    rw [heq] at hs
    exact hs

/-- What a phase is left with goes into the next one. -/
theorem Shape.step (hr : Reachable sha1 f s.world) (h : step decode sha1 cmd s l = some s')
    (hs : Shape s) : Shape s' := by
  cases (step_effect h).2 with
  | client l w _ hw =>
    exact hs.congr rfl rfl rfl (isFullyDownloaded_mono hr (.single hw))
  | badUrl sending call myPort hphase hhost =>
    rw [Shape, resume_started hphase]
    trivial
  | failed l call tracker event polled sending hasks _ =>
    apply shape_resume
    cases hasks with
    | downloadStarted => simp
    | downloadPoll _ _ _ hphase => simpa only [Shape, hphase] using hs
    | downloadEnd _ _ hphase =>
      simp only [Shape, hphase] at hs
      obtain ⟨⟨⟨a, ha⟩, -⟩, -⟩ := hs
      exact ⟨_, ha⟩
    | seedStarted => simp
    | seedPoll _ _ _ hphase => simpa only [Shape, hphase] using hs
  | unwritten | badReply | bindFailed => trivial
  | sent l call tracker event polled hasks =>
    have hev : (s.sent call tracker event polled).events = s.events ++ [event] := events_sent
    cases hasks with
    | downloadStarted _ hphase _ =>
      simp only [Shape, hphase] at hs
      refine ⟨⟨0, ?_⟩, hs.2⟩
      rw [hev, hs.1]
      rfl
    | downloadPoll now _ _ hphase =>
      simp only [Shape, hphase] at hs
      obtain ⟨⟨a, ha⟩, hres⟩ := hs
      refine ⟨⟨a + 1, ?_⟩, hres⟩
      rw [hev, ha, List.replicate_succ', List.cons_append]
    | downloadEnd _ _ hphase =>
      simp only [Shape, hphase] at hs
      obtain ⟨⟨⟨a, ha⟩, hres⟩, hfull⟩ := hs
      have hend : s.endEvent = .completed := if_pos hfull
      refine ⟨hend, hres, a, ?_⟩
      rw [hev, ha, hend, List.cons_append]
    | seedStarted _ hphase _ =>
      simp only [Shape, hphase] at hs
      obtain ⟨rest, hrest⟩ := hs
      refine ⟨rest ++ [.started], ?_, by simp⟩
      rw [hev, hrest, List.cons_append]
    | seedPoll now _ _ hphase =>
      simp only [Shape, hphase] at hs
      obtain ⟨rest, hrest, hmem⟩ := hs
      refine ⟨rest ++ [.completed], ?_, by simp [hmem]⟩
      rw [hev, hrest, List.cons_append]
  | notDue => exact hs
  | replied segments now call tracker event q hphase hq =>
    have hev : Session.events { s.heard (intervalOf decode segments) now with world := q.world } =
        s.events := events_congr announces_heard
    simp only [Shape, hphase] at hs
    apply shape_resume
    cases call with
    | downloadStarted =>
      intro _
      rw [Downloading, hev]
      exact hs
    | downloadPoll =>
      rw [Downloading, hev]
      exact hs
    | downloadEnd =>
      obtain ⟨-, -, a, ha⟩ := hs
      exact ⟨_, hev.trans ha⟩
    | seedStarted =>
      intro _
      rw [Restarted, hev]
      exact hs
    | seedPoll =>
      rw [Restarted, hev]
      exact hs
  | bound tracker b hphase _ =>
    simp only [Shape, hphase] at hs
    exact hs
  | left tracker hphase w accepting hfull hw =>
    simp only [Shape, hphase] at hs
    exact ⟨hs, isFullyDownloaded_mono hr (step_world h) hfull⟩

/-! ## Legal sequences -/

theorem resume_result {result : Bool}
    (h : (s.resume cmd call tr event result).result = some .completed) :
    s.result = some .completed ∨ call = .downloadEnd ∧ event = .completed := by
  cases call with
  | downloadStarted =>
    cases result with
    | false => cases h
    | true => exact .inl h
  | downloadPoll => exact .inl h
  | downloadEnd =>
    simp only [resume] at h
    split at h
    · rename_i hevent
      exact .inr ⟨rfl, hevent⟩
    · cases h
  | seedStarted =>
    cases result with
    | false => exact .inl h
    | true => exact .inl h
  | seedPoll => exact .inl h

/-- Where nothing is announced, only a new result can matter. -/
theorem EventsLegal.congr (hp : EventsLegal s) (hann : s'.announces = s.announces)
    (hres : s'.result = some .completed → s.result = some .completed ∨
      s.events.count .completed = 1) : EventsLegal s' where
  legal := by
    rw [events_congr hann]
    exact hp.legal
  finished := by
    rw [hann]
    exact hp.finished
  completed h := by
    rw [events_congr hann]
    exact (hres h).elim hp.completed id

/-- An announce whose event goes on with the sequence. -/
theorem EventsLegal.sent (hp : EventsLegal s) (hlegal : LegalEvents (s.events ++ [event]))
    (hfull : event = .completed → s.world.torrent.isFullyDownloaded = true)
    (hres : s.result = none) : EventsLegal (s.sent call tr event polled) where
  legal := by
    rw [events_sent]
    exact hlegal
  finished a ha hevent := by
    rw [announces_sent] at ha
    rcases List.mem_append.mp ha with ha | ha
    · exact hp.finished a ha hevent
    · obtain rfl := List.mem_singleton.mp ha
      exact hfull hevent
  completed h := by
    have hnone : (some DownloadError.completed) = none := h.symm.trans hres
    cases hnone

/-- A step that writes no announce meets the condition, unless it is the last query of
    `download`. -/
theorem keepsEvents_of_not_sends (hno : ¬ Sends cmd s l) (hend : ∀ tr, s.phase = .downloaded tr →
    l ≠ .ask .unresolved ∧ l ≠ .ask .unconnected) : KeepsEvents cmd s l := by
  unfold KeepsEvents
  split
  · rename_i hphase
    exact hend _ hphase
  · exact hno
  · trivial

/-- The sequence is as it should be after an announce exactly when the condition is met. -/
theorem eventsLegal_sent (hs : Shape s) (hp : EventsLegal s)
    (hasks : Asks cmd s l call tr event polled .written) :
    EventsLegal (s.sent call tr event polled) ↔ KeepsEvents cmd s l := by
  cases hasks with
  | downloadStarted _ hphase _ =>
    simp only [Shape, hphase] at hs
    refine iff_of_true (hp.sent ?_ (fun hevent => by cases hevent) hs.2) ?_
    · rw [hs.1]
      exact legal_started 0
    · simp only [KeepsEvents, hphase]
  | downloadPoll now _ _ hphase =>
    simp only [Shape, hphase] at hs
    obtain ⟨⟨a, ha⟩, hres⟩ := hs
    refine iff_of_true (hp.sent ?_ (fun hevent => by cases hevent) hres) ?_
    · rw [ha, List.cons_append, ← List.replicate_succ']
      exact legal_started (a + 1)
    · simp only [KeepsEvents, hphase]
  | downloadEnd _ _ hphase =>
    simp only [Shape, hphase] at hs
    obtain ⟨⟨⟨a, ha⟩, hres⟩, hfull⟩ := hs
    have hend : s.endEvent = .completed := if_pos hfull
    refine iff_of_true (hp.sent ?_ (fun _ => hfull) hres) ?_
    · rw [ha, hend, List.cons_append]
      exact legal_completed a
    · simp [KeepsEvents, hphase]
  | seedStarted _ hphase hhost =>
    -- the second `STARTED`
    simp only [Shape, hphase] at hs
    obtain ⟨rest, hrest⟩ := hs
    refine iff_of_false (fun hp' => ?_) fun hkeep => ?_
    · have hlegal := hp'.legal
      rw [events_sent, hrest, List.cons_append] at hlegal
      exact hlegal.not_mem (by simp)
    · simp only [KeepsEvents, hphase] at hkeep
      exact hkeep ⟨_, _, _, _, .seedStarted .written hphase hhost⟩
  | seedPoll now _ _ hphase =>
    simp only [Shape, hphase] at hs
    obtain ⟨rest, hrest, hmem⟩ := hs
    have hlegal := hp.legal
    rw [hrest] at hlegal
    exact absurd hmem hlegal.not_mem

/-- A step keeps the sequence legal exactly when it meets the condition. -/
theorem eventsLegal_step (h : step decode sha1 cmd s l = some s') (hs : Shape s)
    (hp : EventsLegal s) : EventsLegal s' ↔ KeepsEvents cmd s l := by
  rcases step_contacts h with ⟨call, tr, event, polled, hasks, rfl⟩ | ⟨hno, replies, heq, hrep⟩
  · exact eventsLegal_sent hs hp hasks
  have hann := announces_replies heq hrep
  have hkeeps := keepsEvents_of_not_sends hno
  cases (step_effect h).2 with
  | client | notDue | badReply | bindFailed | bound =>
    exact iff_of_true (hp.congr hann .inl) (hkeeps (by simp))
  | left =>
    exact iff_of_true (hp.congr hann .inl) (hkeeps (by simp))
  | badUrl sending call myPort hphase hhost =>
    refine iff_of_true (hp.congr hann fun hres => ?_) (hkeeps fun tr hend => ?_)
    · rcases resume_result hres with hres | ⟨rfl, -⟩
      · exact .inl hres
      · rcases hphase with ⟨-, hcall⟩ | ⟨-, hcall⟩ <;> cases hcall
    · rcases hphase with ⟨hphase, -⟩ | ⟨hphase, -⟩ <;> rw [hphase] at hend <;> cases hend
  | failed l call tracker event polled sending hasks hsending =>
    cases hasks with
    | downloadEnd _ _ hphase =>
      -- `download` returns, and nothing has been announced
      simp only [Shape, hphase] at hs
      obtain ⟨⟨⟨a, ha⟩, -⟩, hfull⟩ := hs
      have hend : s.endEvent = .completed := if_pos hfull
      refine iff_of_false (fun hp' => ?_) fun hkeep => ?_
      · have hcount := hp'.completed (by simp [resume, hend])
        rw [events_congr hann, ha, count_started] at hcount
        cases hcount
      · simp only [KeepsEvents, hphase] at hkeep
        rcases hsending with rfl | rfl
        · exact hkeep.1 rfl
        · exact hkeep.2 rfl
    | downloadStarted _ hphase | downloadPoll _ _ _ hphase | seedStarted _ hphase
    | seedPoll _ _ _ hphase =>
      refine iff_of_true (hp.congr hann fun hres => ?_) (hkeeps fun tr hend => ?_)
      · rcases resume_result hres with hres | ⟨hcall, -⟩
        · exact .inl hres
        · cases hcall
      · rw [hphase] at hend
        cases hend
  | unwritten l call tracker event polled hasks =>
    refine iff_of_true (hp.congr hann .inl) (hkeeps fun tr _ => ?_)
    rcases hasks.label with ⟨rfl, -⟩ | ⟨now, rfl, -⟩
    · simp
    · simp
  | sent l call tracker event polled hasks => exact absurd ⟨_, _, _, _, hasks⟩ hno
  | replied segments now call tracker event q hphase hq =>
    refine iff_of_true (hp.congr hann fun hres => ?_) (hkeeps (by simp))
    rcases resume_result hres with hres | ⟨rfl, -⟩
    · exact .inl hres
    · simp only [Shape, hphase] at hs
      obtain ⟨-, -, a, ha⟩ := hs
      exact .inr (ha ▸ count_completed a)

/-- In every run of `main`: the events of the announces are legal in every state of the run,
    exactly when all steps meet the condition. -/
theorem events_iff (h : Runs.exec (step decode sha1 cmd) (start f) ls = some s) :
    Runs.Throughout (step decode sha1 cmd) EventsLegal (start f) ls ↔
      Runs.Guarded (step decode sha1 cmd) (KeepsEvents cmd) (start f) ls := by
  have hreach : Reachable sha1 f (start f).world := Runs.Reaches.refl f.start
  have hstart : EventsLegal (start f) := ⟨.inl rfl, by simp [announces, start], by simp [start]⟩
  exact Runs.throughout_iff (I := fun s => Reachable sha1 f s.world ∧ Shape s)
    (fun s l s' hs hi => ⟨hi.1.trans (step_world hs), hi.2.step hi.1 hs⟩)
    (fun s s' l _ hs hi hp => eventsLegal_step hs hi.2 hp) h ⟨hreach, shape_start f⟩ hstart

/-- The run up to the first query of `seed`. -/
theorem events_seedingRun :
    Runs.Throughout (step decodeShort sha1OfA oneByteCommand) EventsLegal (start oneByteFile)
      seedingRun ↔
    Runs.Guarded (step decodeShort sha1OfA oneByteCommand) (KeepsEvents oneByteCommand)
      (start oneByteFile) seedingRun :=
  events_iff seedingRun_exec

/-- The tracker sees `STARTED`, `COMPLETED`, `STARTED`. -/
theorem events_fails : ¬ ∀ (decode : List Byte → Option BItem) (sha1 : List Byte → List ℕ)
    (cmd : Command) (f : ParsedFile) (ls : List SessionLabel) (s : Session),
      Runs.exec (step decode sha1 cmd) (start f) ls = some s → EventsLegal s := by
  intro hall
  have hlegal := (hall _ _ _ _ _ _ seedingRun_exec).legal
  have hevents : seeding.events = [.started, .completed, .started] := by decide +kernel
  rw [hevents] at hlegal
  exact hlegal.not_mem (by simp)

end Session

end YTorrent
