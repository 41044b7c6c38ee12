import YTorrent.Torrent.Session

/-!
# The announce interval

A reply gives the interval in seconds. `httpRequest` adds it to the clock in milliseconds
(`std::chrono::milliseconds(trackerTimeout)`), and the loops of `download` and `seed` send
the next announce when that time has come.

* `Timed`: the tracker of a loop is due at the time the last reply has set.
* `interval_iff`: the runs of `main` in which no loop sends an announce too early.
* `interval_fails`: an announce 9 milliseconds after a reply with the interval 9.
-/

namespace YTorrent

/-- The clock reading when the interval of a reply has passed: `interval` is in seconds,
    the clock in nanoseconds. -/
def intervalEnd (now : ℤ) (interval : Int64) : ℤ := now + interval.toInt * 1000000000

/-- The reply, if the contact is one. -/
def Contact.reply? : Contact → Option (ℤ × Int64)
  | announce _ => none
  | reply now interval => some (now, interval)

/-- The last reply of a record. -/
def lastReply (contacts : List Contact) : Option (ℤ × Int64) :=
  (contacts.filterMap Contact.reply?).getLast?

/-- The call is the one of `validateTracker`, which makes its own tracker. -/
def QueryCall.validates : QueryCall → Bool
  | downloadStarted | seedStarted => true
  | downloadPoll | downloadEnd | seedPoll => false

/-- The tracker the main thread has, once it has replied to it. -/
def Phase.mainTracker? : Phase → Option Tracker
  | bind tracker | downloadLoop tracker | downloaded tracker | seedLoop tracker => some tracker
  | awaiting call tracker _ => if call.validates then none else some tracker
  | _ => none

namespace Session

variable {decode : List Byte → Option BItem} {sha1 : List Byte → List ℕ} {cmd : Command}
  {f : ParsedFile} {s s' : Session} {l : SessionLabel} {ls : List SessionLabel}
  {call : QueryCall} {tr : Tracker} {event : TrackerEvent} {polled : Option ℤ}
  {sending : Sending} {contacts : List Contact} {now : ℤ}

/-- The contact is not an announce of a loop before the interval of a reply has passed
    that is among the contacts before it. -/
def Respects (before : List Contact) (c : Contact) : Prop :=
  ∀ a, c = .announce a → ∀ now, a.polled = some now →
    ∀ t interval, .reply t interval ∈ before → intervalEnd t interval ≤ now

/-- No announce of a loop was sent too early. -/
def IntervalsRespected (s : Session) : Prop := Runs.Lawful Respects s.contacts

/-- The time the last reply has set has come, and the interval of a reply has not passed. -/
def InWindow (s : Session) (now : ℤ) : Prop :=
  ∃ t interval, lastReply s.contacts = some (t, interval) ∧ afterMillis t interval ≤ now ∧
    ∃ t' interval', .reply t' interval' ∈ s.contacts ∧ now < intervalEnd t' interval'

/-- If a loop tests in the window whether a request is due, the request is not written. -/
def KeepsInterval (s : Session) (l : SessionLabel) : Prop :=
  ∀ now, l = .poll now .written → ¬ s.InWindow now

instance (s : Session) (now : ℤ) : Decidable (s.InWindow now) :=
  decidable_of_iff (∃ r ∈ lastReply s.contacts, afterMillis r.1 r.2 ≤ now ∧
      ∃ c ∈ s.contacts, ∃ r' ∈ c.reply?, now < intervalEnd r'.1 r'.2) <| by
    constructor
    · rintro ⟨r, hr, hle, c, hc, r', hr', hlt⟩
      cases c with
      | announce a => cases hr'
      | reply t' interval' =>
        obtain rfl := Option.some.inj hr'
        exact ⟨r.1, r.2, hr, hle, t', interval', hc, hlt⟩
    · rintro ⟨t, interval, hr, hle, t', interval', hc, hlt⟩
      exact ⟨(t, interval), hr, hle, .reply t' interval', hc, (t', interval'), rfl, hlt⟩

instance (s : Session) : ∀ l, Decidable (s.KeepsInterval l)
  | .poll now .written => decidable_of_iff (¬ s.InWindow now) <| by
    constructor
    · rintro h _ ⟨⟩
      exact h
    · exact fun h => h now rfl
  | .poll _ .unresolved | .poll _ .unconnected | .poll _ .unwritten => isTrue (by rintro _ ⟨⟩)
  | .client _ | .ask _ | .reply .. | .bind _ | .leave => isTrue (by rintro _ ⟨⟩)

/-! ## The due time along a run -/

/-- The tracker is due at the time the last of the replies has set. -/
def DueAfter (tr : Tracker) (contacts : List Contact) : Prop :=
  ∃ t interval, lastReply contacts = some (t, interval) ∧
    tr.timeToNextRequest = afterMillis t interval

/-- The tracker of a loop is due at the time the last reply has set. -/
def Timed (s : Session) : Prop := ∀ tr, s.phase.mainTracker? = some tr → DueAfter tr s.contacts

theorem lastReply_announce (a : Announce) :
    lastReply (contacts ++ [.announce a]) = lastReply contacts := by
  simp [lastReply, Contact.reply?]

theorem lastReply_reply (now : ℤ) (interval : Int64) :
    lastReply (contacts ++ [.reply now interval]) = some (now, interval) := by
  simp [lastReply, Contact.reply?]

/-- The main thread goes on with the tracker of the call, if it has replied. -/
theorem resume_mainTracker {tr' : Tracker} {result : Bool}
    (h : (s.resume cmd call tr event result).phase.mainTracker? = some tr') :
    tr' = tr ∧ (call.validates = true → result = true) := by
  cases call with
  | downloadStarted | seedStarted =>
    cases result with
    | false => cases h
    | true =>
      cases h
      exact ⟨rfl, fun _ => rfl⟩
  | downloadPoll | seedPoll =>
    cases h
    exact ⟨rfl, fun hv => by cases hv⟩
  | downloadEnd =>
    simp only [resume] at h
    split at h
    · simp only at h
      split at h <;> cases h
    · cases h

/-- A loop and the end of `download` query the tracker of the main thread. -/
theorem Asks.mainTracker (h : Asks cmd s l call tr event polled sending)
    (hv : call.validates = false) : s.phase.mainTracker? = some tr := by
  cases h with
  | downloadStarted | seedStarted => cases hv
  | downloadPoll _ _ _ h | downloadEnd _ _ h | seedPoll _ _ _ h =>
    rw [h]
    rfl

theorem timed_resume {result : Bool} (h : (call.validates = true → result = true) →
    DueAfter tr s.contacts) : Timed (s.resume cmd call tr event result) := by
  intro tr' htr
  obtain ⟨rfl, hv⟩ := resume_mainTracker htr
  rw [resume_contacts]
  exact h hv

theorem timed_start (f : ParsedFile) : Timed (start f) := by
  intro tr htr
  cases htr

theorem Timed.step (h : step decode sha1 cmd s l = some s') (ht : Timed s) : Timed s' := by
  cases (step_effect h).2 with
  | client => exact ht
  | badUrl sending call myPort hphase hhost =>
    intro tr htr
    rw [resume_started hphase] at htr
    cases htr
  | failed l call tracker event polled sending hasks hs =>
    refine timed_resume fun hv => ht tracker (hasks.mainTracker ?_)
    exact Bool.eq_false_iff.mpr fun hval => by cases hv hval
  | unwritten | badReply | bindFailed =>
    intro tr htr
    cases htr
  | sent l call tracker event polled hasks =>
    intro tr htr
    have hphase : (if call.validates then none else some tracker) = some tr := htr
    split at hphase
    · cases hphase
    · rename_i hv
      obtain rfl := Option.some.inj hphase
      obtain ⟨t, interval, hlast, hdue⟩ :=
        ht tracker (hasks.mainTracker (Bool.eq_false_iff.mpr hv))
      exact ⟨t, interval, (lastReply_announce _).trans hlast, hdue⟩
  | notDue => exact ht
  | replied segments now call tracker event q hphase hq =>
    refine timed_resume fun hv => ?_
    rcases httpRequest_tracker hq with ⟨hfalse, htr, hnone⟩ | ⟨-, interval, hsome, htr⟩
    · -- the reply is not read, the tracker is as it was
      have hval : call.validates = false :=
        Bool.eq_false_iff.mpr fun hval => by simp [hv hval] at hfalse
      have hmain : s.phase.mainTracker? = some tracker := by
        rw [hphase]
        exact if_neg (Bool.eq_false_iff.mp hval)
      rw [hnone, htr]
      show DueAfter tracker (s.contacts ++ [])
      rw [List.append_nil]
      exact ht tracker hmain
    · rw [hsome, htr]
      exact ⟨now, interval, lastReply_reply now interval, rfl⟩
  | bound tracker b hphase hb =>
    intro tr htr
    obtain rfl := Option.some.inj htr
    exact ht tracker (by rw [hphase]; rfl)
  | left tracker hphase w accepting hfull hw =>
    intro tr htr
    obtain rfl := Option.some.inj htr
    exact ht tracker (by rw [hphase]; rfl)

/-! ## Announces of the loops -/

/-- A test that writes no announce was too early for the tracker. -/
theorem not_due_of_not_sends (h : step decode sha1 cmd s (.poll now .written) = some s')
    (hno : ¬ Sends cmd s (.poll now .written)) :
    ∃ tr, s.phase.mainTracker? = some tr ∧ tr.isNextRequestDue now = false := by
  cases (step_effect h).2 with
  | failed l call tracker event polled sending hasks hs =>
    rcases hasks.label with ⟨hl, -⟩ | ⟨t, hl, -⟩
    · cases hl
    · obtain ⟨-, rfl⟩ := SessionLabel.poll.inj hl
      rcases hs with hs | hs
      · cases hs
      · cases hs
  | unwritten l call tracker event polled hasks =>
    rcases hasks.label with ⟨hl, -⟩ | ⟨t, hl, -⟩
    · cases hl
    · cases hl
  | sent l call tracker event polled hasks => exact absurd ⟨_, _, _, _, hasks⟩ hno
  | notDue _ _ tracker hphase hdue =>
    refine ⟨tracker, ?_, hdue⟩
    rcases hphase with hphase | hphase
    · rw [hphase]
      rfl
    · rw [hphase]
      rfl

/-- What a loop queries is due. -/
theorem Asks.due (h : Asks cmd s l call tr event (some now) sending) :
    tr.isNextRequestDue now = true ∧ call.validates = false := by
  cases h with
  | downloadPoll _ _ _ _ _ hdue | seedPoll _ _ _ _ hdue => exact ⟨hdue, rfl⟩

/-- The tracker of the main thread is due exactly when the time of the last reply has come. -/
theorem Timed.inWindow (ht : Timed s) (now : ℤ) (htr : s.phase.mainTracker? = some tr) :
    s.InWindow now ↔ tr.isNextRequestDue now = true ∧
      ∃ t interval, .reply t interval ∈ s.contacts ∧ now < intervalEnd t interval := by
  obtain ⟨t, interval, hlast, hdue⟩ := ht tr htr
  unfold InWindow Tracker.isNextRequestDue
  rw [hlast, hdue, decide_eq_true_eq]
  constructor
  · rintro ⟨_, _, heq, hle, hlt⟩
    cases heq
    exact ⟨hle, hlt⟩
  · rintro ⟨hle, hlt⟩
    exact ⟨t, interval, rfl, hle, hlt⟩

/-- A step keeps the intervals exactly when it meets the condition. -/
theorem intervals_step (h : step decode sha1 cmd s l = some s') (ht : Timed s)
    (hr : IntervalsRespected s) : IntervalsRespected s' ↔ KeepsInterval s l := by
  rcases step_contacts h with ⟨call, tr, event, polled, hasks, rfl⟩ | ⟨hno, replies, heq, hrep⟩
  · have happ : IntervalsRespected (s.sent call tr event polled) ↔
        Respects s.contacts (.announce (s.announce tr event polled)) := by
      exact Runs.lawful_concat.trans (and_iff_right hr)
    rw [happ]
    rcases hasks.label with ⟨rfl, rfl⟩ | ⟨now, rfl, rfl⟩
    · refine iff_of_true ?_ fun now hl => by cases hl
      rintro a ha now hpolled
      obtain rfl := Contact.announce.inj ha
      cases hpolled
    · obtain ⟨hdue, hv⟩ := hasks.due
      have hwindow := ht.inWindow now (hasks.mainTracker hv)
      constructor
      · rintro hresp _ ⟨⟩ hin
        obtain ⟨-, t, interval, hmem, hlt⟩ := hwindow.mp hin
        exact absurd (hresp _ rfl now rfl t interval hmem) (not_le.mpr hlt)
      · rintro hkeep _ ⟨⟩ _ ⟨⟩ t interval hmem
        by_contra hlt
        exact hkeep now rfl (hwindow.mpr ⟨hdue, t, interval, hmem, not_le.mp hlt⟩)
  · refine iff_of_true ?_ ?_
    · unfold IntervalsRespected
      rw [heq, Runs.lawful_append]
      refine ⟨hr, ?_⟩
      rintro before c after hsplit a rfl
      obtain ⟨t, interval, hc⟩ := hrep (.announce a) (by rw [hsplit]; simp)
      cases hc
    · rintro now rfl hin
      obtain ⟨tr, htr, hdue⟩ := not_due_of_not_sends h hno
      have hdue' := ((ht.inWindow now htr).mp hin).1
      rw [hdue] at hdue'
      cases hdue'

/-- In every run of `main`: no loop sends an announce before the interval of an earlier
    reply has passed, in every state of the run, exactly when all steps meet the
    condition. -/
theorem interval_iff (h : Runs.exec (step decode sha1 cmd) (start f) ls = some s) :
    Runs.Throughout (step decode sha1 cmd) IntervalsRespected (start f) ls ↔
      Runs.Guarded (step decode sha1 cmd) KeepsInterval (start f) ls :=
  Runs.throughout_iff (I := Timed) (fun _ _ _ hs ht => ht.step hs)
    (fun _ _ _ _ hs ht hr => intervals_step hs ht hr) h (timed_start f) Runs.lawful_nil

/-- The loop of `download` tests the clock 5 milliseconds after the first reply, when nothing
    is due, and again when the 9 seconds of its interval have passed. -/
def patientRun : List SessionLabel :=
  [.ask .written, .reply [shortResponse.bytes] 0, .bind (some 6881), .poll 5000000 .written,
    .poll 9000000000 .written]

/-- The last step of the run sends an announce, and the interval has been respected. -/
theorem interval_patientRun : ∃ s, Runs.exec (step decodeShort sha1OfA oneByteCommand)
      (start oneByteFile) patientRun = some s ∧ s.announces.length = 2 ∧
    Runs.Throughout (step decodeShort sha1OfA oneByteCommand) IntervalsRespected
      (start oneByteFile) patientRun := by
  have hrun : ((Runs.exec (step decodeShort sha1OfA oneByteCommand) (start oneByteFile)
      patientRun).map fun s => decide (s.announces.length = 2)) = some true := by
    decide +kernel
  obtain ⟨s, hs, hlen⟩ := Option.map_eq_some_iff.mp hrun
  exact ⟨s, hs, of_decide_eq_true hlen, (interval_iff hs).mpr (by decide +kernel)⟩

/-! ## An early announce -/

/-- The loop of `download` tests the clock 9 milliseconds after the first reply. -/
def earlyRun : List SessionLabel :=
  [.ask .written, .reply [shortResponse.bytes] 0, .bind (some 6881), .poll 9000000 .written]

theorem earlyRun_isSome : (Runs.exec (step decodeShort sha1OfA oneByteCommand)
    (start oneByteFile) earlyRun).isSome = true := by
  decide +kernel

/-- The process after the run. -/
def early : Session := (Runs.exec (step decodeShort sha1OfA oneByteCommand)
  (start oneByteFile) earlyRun).get earlyRun_isSome

theorem earlyRun_exec : Runs.exec (step decodeShort sha1OfA oneByteCommand)
    (start oneByteFile) earlyRun = some early := by
  rw [early, Option.some_get]

/-- The announce of the loop. -/
def earlyAnnounce : Announce :=
  ⟨{ event := .none, downloaded := 0, uploaded := 0, remaining := 1 }, 6881, some 9000000,
    some 6881, false⟩

/-- The second announce is written 9 milliseconds after the reply with the interval 9. -/
theorem interval_fails : ¬ ∀ (decode : List Byte → Option BItem) (sha1 : List Byte → List ℕ)
    (cmd : Command) (f : ParsedFile) (ls : List SessionLabel) (s : Session),
      Runs.exec (step decode sha1 cmd) (start f) ls = some s → IntervalsRespected s := by
  intro hall
  have hresp := hall _ _ _ _ _ _ earlyRun_exec
  have hsplit : early.contacts = early.contacts.take 2 ++ [.announce earlyAnnounce] := by
    decide +kernel
  have hreply : .reply 0 9 ∈ early.contacts.take 2 := by decide +kernel
  have hle := hresp _ _ _ hsplit earlyAnnounce rfl 9000000 rfl 0 9 hreply
  revert hle
  decide

end Session

end YTorrent
