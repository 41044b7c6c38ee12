import YTorrent.Torrent.Session

/-!
# The announced port

`main` passes `startport++` to `download` and then the next port to `seed`, but the
acceptor that was bound for `download` stays (`if (this->acceptor == nullptr)`), and `seed`
makes none. With the port 0 the system chooses the port the acceptor is bound to.

* `ports_iff`: the runs of `main` in which every announce carries the port that is
  listened on.
* `ports_fails`: a download followed by the first query of `seed`.
-/

namespace YTorrent.Session

variable {decode : List Byte → Option BItem} {sha1 : List Byte → List ℕ} {cmd : Command}
  {f : ParsedFile} {s s' : Session} {l : SessionLabel} {ls : List SessionLabel}
  {call : QueryCall} {tr : Tracker} {event : TrackerEvent} {polled : Option ℤ}
  {sending : Sending}

/-- Every announce that was written when there was an acceptor carries its port. -/
def PortsMatch (s : Session) : Prop := ∀ a ∈ s.announces, ∀ b, a.bound = some b → a.port = b

/-- If the step writes an announce when there is an acceptor, it is one of `download` with
    a start port other than 0; or one of `seed`, the start port is 0, and the system has
    bound the acceptor to the port 1. -/
def KeepsPort (cmd : Command) (s : Session) (l : SessionLabel) : Prop :=
  Sends cmd s l → ∀ b, s.acceptor = some b →
    if s.phase.seeding then cmd.startport = 0 ∧ b = 1 else cmd.startport ≠ 0

/-- The port `main` passes to `download`, or the one it passes to `seed`. -/
def passedPort (cmd : Command) (s : Session) : UInt16 :=
  if s.phase.seeding then cmd.startport + 1 else cmd.startport

/-! ## The two ports along a run -/

/-- The acceptor is bound for the start port, the tracker has the port that was passed. -/
structure Ported (cmd : Command) (s : Session) : Prop where
  bound : ∀ b, s.acceptor = some b → Binds cmd.startport b
  port : ∀ tr, s.phase.tracker? = some tr → tr.myPort = (s.passedPort cmd).toNat

theorem ported_start (cmd : Command) (f : ParsedFile) : Ported cmd (start f) where
  bound b h := by cases h
  port tr h := by cases h

/-- A query is made with the port that was passed. -/
theorem Ported.asks (hp : Ported cmd s) (h : Asks cmd s l call tr event polled sending) :
    tr.myPort = (s.passedPort cmd).toNat := by
  cases h with
  | downloadStarted _ h | seedStarted _ h =>
    rw [passedPort, h]
    rfl
  | downloadPoll _ _ _ h | downloadEnd _ _ h | seedPoll _ _ _ h =>
    apply hp.port
    rw [h]
    rfl

/-- The main thread goes on with the tracker of the call. -/
theorem ported_resume {result : Bool} (hbound : ∀ b, s.acceptor = some b → Binds cmd.startport b)
    (hport : tr.myPort = (if call.seeding then cmd.startport + 1 else cmd.startport).toNat) :
    Ported cmd (s.resume cmd call tr event result) where
  bound b h := by
    rw [resume_acceptor] at h
    exact hbound b h
  port tr' h := by
    obtain ⟨rfl, hseeding⟩ := resume_tracker h
    rw [passedPort, hseeding, hport]

theorem Ported.step (h : step decode sha1 cmd s l = some s') (hp : Ported cmd s) :
    Ported cmd s' := by
  cases (step_effect h).2 with
  | client => exact ⟨hp.bound, hp.port⟩
  | badUrl sending call myPort hphase hhost =>
    refine ⟨fun b hb => hp.bound b ?_, fun tr htr => ?_⟩
    · rwa [resume_acceptor] at hb
    · rw [resume_started hphase] at htr
      cases htr
  | failed l call tracker event polled sending hasks hs =>
    refine ported_resume hp.bound ?_
    rw [hp.asks hasks, passedPort, hasks.seeding]
  | unwritten => exact ⟨hp.bound, fun tr htr => by cases htr⟩
  | sent l call tracker event polled hasks =>
    refine ⟨hp.bound, fun tr htr => ?_⟩
    obtain rfl := Option.some.inj htr
    rw [hp.asks hasks, passedPort, hasks.seeding]
    rfl
  | notDue => exact hp
  | badReply => exact ⟨hp.bound, fun tr htr => by cases htr⟩
  | replied segments now call tracker event q hphase hq =>
    have htracker := hp.port tracker (by rw [hphase]; rfl)
    refine ported_resume hp.bound ?_
    rw [httpRequest_myPort hq, htracker, passedPort, hphase]
    rfl
  | bindFailed => exact ⟨hp.bound, fun tr htr => by cases htr⟩
  | bound tracker b hphase hb =>
    refine ⟨fun b' hb' => ?_, fun tr htr => ?_⟩
    · obtain rfl := Option.some.inj hb'
      exact hb
    · obtain rfl := Option.some.inj htr
      have htracker := hp.port tracker (by rw [hphase]; rfl)
      rw [htracker, passedPort, hphase]
      rfl
  | left tracker hphase w accepting hfull hw =>
    refine ⟨hp.bound, fun tr htr => ?_⟩
    obtain rfl := Option.some.inj htr
    have htracker := hp.port tracker (by rw [hphase]; rfl)
    rw [htracker, passedPort, hphase]
    rfl

/-! ## Announces -/

/-- The two ports are the same only for the start port of `download`, if the system does
    not choose, and for the port 1 that it chooses. -/
theorem passedPort_eq {b : ℕ} (hb : Binds cmd.startport b) : (s.passedPort cmd).toNat = b ↔
    if s.phase.seeding then cmd.startport = 0 ∧ b = 1 else cmd.startport ≠ 0 := by
  have hzero : cmd.startport = 0 ↔ cmd.startport.toNat = 0 := UInt16.toNat_inj.symm
  have hlt : cmd.startport.toNat < 2 ^ 16 := cmd.startport.toNat_lt
  have hnext : (cmd.startport + 1).toNat = (cmd.startport.toNat + 1) % 2 ^ 16 :=
    UInt16.toNat_add _ _
  unfold passedPort
  simp only [Binds, hzero] at hb
  by_cases hseeding : s.phase.seeding = true
  · rw [if_pos hseeding, if_pos hseeding, hnext, hzero]
    split at hb
    · omega
    · omega
  · rw [if_neg hseeding, if_neg hseeding, ne_eq, hzero]
    split at hb
    · omega
    · omega

/-- A step keeps the ports the same exactly when it meets the condition. -/
theorem portsMatch_step (h : step decode sha1 cmd s l = some s') (hp : Ported cmd s)
    (hm : PortsMatch s) : PortsMatch s' ↔ KeepsPort cmd s l := by
  rcases step_contacts h with ⟨call, tr, event, polled, hasks, rfl⟩ | ⟨hno, replies, heq, hr⟩
  · have hport := hp.asks hasks
    unfold PortsMatch
    rw [announces_sent]
    constructor
    · intro hall _ b hb
      have hlast := hall (s.announce tr event polled) (by simp) b hb
      exact (passedPort_eq (hp.bound b hb)).mp (hport.symm.trans hlast)
    · intro hkeep a ha b hb
      rcases List.mem_append.mp ha with ha | ha
      · exact hm a ha b hb
      · obtain rfl := List.mem_singleton.mp ha
        have hcond := hkeep ⟨call, tr, event, polled, hasks⟩ b hb
        exact hport.trans ((passedPort_eq (hp.bound b hb)).mpr hcond)
  · refine iff_of_true ?_ fun hsends => absurd hsends hno
    unfold PortsMatch
    rw [announces_replies heq hr]
    exact hm

/-- In every run of `main`: every announce that is sent once the acceptor exists carries
    the port it is bound to, in every state of the run, exactly when all steps meet the
    condition. -/
theorem ports_iff (h : Runs.exec (step decode sha1 cmd) (start f) ls = some s) :
    Runs.Throughout (step decode sha1 cmd) PortsMatch (start f) ls ↔
      Runs.Guarded (step decode sha1 cmd) (KeepsPort cmd) (start f) ls :=
  Runs.throughout_iff (I := Ported cmd) (fun _ _ _ hs hp => hp.step hs)
    (fun _ _ _ _ hs hp hm => portsMatch_step hs hp hm) h (ported_start cmd f)
    (fun a ha => by cases ha)

/-- The run up to the first query of `seed`. -/
theorem ports_seedingRun :
    Runs.Throughout (step decodeShort sha1OfA oneByteCommand) PortsMatch (start oneByteFile)
      seedingRun ↔
    Runs.Guarded (step decodeShort sha1OfA oneByteCommand) (KeepsPort oneByteCommand)
      (start oneByteFile) seedingRun :=
  ports_iff seedingRun_exec

/-- `seed` announces 6882, and 6881 is listened on. -/
theorem ports_fails : ¬ ∀ (decode : List Byte → Option BItem) (sha1 : List Byte → List ℕ)
    (cmd : Command) (f : ParsedFile) (ls : List SessionLabel) (s : Session),
      Runs.exec (step decode sha1 cmd) (start f) ls = some s → PortsMatch s := by
  intro hall
  have hmatch := hall _ _ _ _ _ _ seedingRun_exec
  have hmem : ∃ a ∈ seeding.announces, a.bound = some 6881 ∧ a.port = 6882 := by
    decide +kernel
  obtain ⟨a, ha, hbound, hport⟩ := hmem
  rw [hmatch a ha 6881 hbound] at hport
  cases hport

end YTorrent.Session
